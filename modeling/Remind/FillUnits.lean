import Mathlib
import Remind.FillParagraph

/-!
# FillUnits — words, blanks and escape sequences

A text is read as a list of units: escape sequences, visible characters, blanks and newlines.  A
word is a run of visible characters; escape sequences do not end it.
-/

namespace Remind

inductive FillUnit where
  | escape (chars : List Char)
  | char (c : Char)
  | blank (c : Char)
  | newline
  deriving DecidableEq, Repr

def FillUnit.text : FillUnit → List Char
  | .escape chars => chars
  | .char c => [c]
  | .blank c => [c]
  | .newline => ['\n']

/-- The text of units. -/
def unitsText (us : List FillUnit) : List Char := us.flatMap FillUnit.text

/-- The unit of a character that is not in an escape sequence. -/
def CharClass.unitOf (k : CharClass) (c : Char) : FillUnit :=
  if c = '\n' then .newline else if k.iswspace c then .blank c else .char c

/-- The units of a text behind `e`, the start of an escape sequence. -/
def CharClass.unitsFrom (k : CharClass) : List Char → List Char → List FillUnit
  | [], [] => []
  | e :: es, [] => [.escape (e :: es)]
  | [], '\x1B' :: '[' :: s => k.unitsFrom ['\x1B', '['] s
  | [], c :: s => k.unitOf c :: k.unitsFrom [] s
  | e :: es, c :: s =>
    if insideEscape c then k.unitsFrom (e :: es ++ [c]) s
    else .escape (e :: es ++ [c]) :: k.unitsFrom [] s

def CharClass.units (k : CharClass) (s : List Char) : List FillUnit := k.unitsFrom [] s

/-- Escape sequences and visible characters. -/
def FillUnit.solid : FillUnit → Bool
  | .escape _ => true
  | .char _ => true
  | _ => false

def FillUnit.isEscape : FillUnit → Bool
  | .escape _ => true
  | _ => false

/-- The columns that a unit takes. -/
def CharClass.unitWidth (k : CharClass) : FillUnit → ℕ
  | .char c => k.wcwidth c
  | .blank c => k.wcwidth c
  | _ => 0

def CharClass.width (k : CharClass) (us : List FillUnit) : ℕ := (us.map k.unitWidth).sum

/-- The words so far, and the word that is being read. -/
def wordScan : List (List Char) × List Char → FillUnit → List (List Char) × List Char
  | r, .escape _ => r
  | (ws, w), .char c => (ws, w ++ [c])
  | (ws, w), _ => (if w = [] then ws else ws ++ [w], [])

/-- The words: maximal runs of visible characters. -/
def unitWords (us : List FillUnit) : List (List Char) :=
  (us.foldl wordScan ([], [])).1 ++
    if (us.foldl wordScan ([], [])).2 = [] then [] else [(us.foldl wordScan ([], [])).2]

/-- The lines of a text. -/
def unitLines (us : List FillUnit) : List (List FillUnit) := us.splitOn .newline

section Units

variable {k : CharClass}

@[simp] theorem unitsText_nil : unitsText [] = [] := rfl

@[simp] theorem unitsText_cons (u : FillUnit) (us : List FillUnit) :
    unitsText (u :: us) = u.text ++ unitsText us := List.flatMap_cons

@[simp] theorem unitsText_append (us vs : List FillUnit) :
    unitsText (us ++ vs) = unitsText us ++ unitsText vs := List.flatMap_append

theorem unitOf_text (c : Char) : (k.unitOf c).text = [c] := by
  unfold CharClass.unitOf
  split_ifs with hn
  · rw [hn]
    rfl
  · rfl
  · rfl

/-- A character that does not start an escape sequence. -/
theorem units_cons {c : Char} {s : List Char} (h : ¬ (c = '\x1B' ∧ s.head? = some '[')) :
    k.units (c :: s) = k.unitOf c :: k.units s := by
  unfold CharClass.units
  rw [CharClass.unitsFrom]
  rintro t rfl rfl
  exact h ⟨rfl, rfl⟩

/-- The units are the text. -/
theorem unitsFrom_text (e s : List Char) : unitsText (k.unitsFrom e s) = e ++ s := by
  fun_induction CharClass.unitsFrom k e s with
  | case1 => rfl
  | case2 e es => simp [FillUnit.text]
  | case3 s ih => rw [ih]; rfl
  | case4 c s hne ih => rw [unitsText_cons, ih, unitOf_text]; rfl
  | case5 e es c s hc ih => rw [ih, List.append_assoc]; rfl
  | case6 e es c s hc ih =>
    rw [unitsText_cons, ih, FillUnit.text, List.nil_append, List.append_assoc]
    rfl

theorem units_text (s : List Char) : unitsText (k.units s) = s := unitsFrom_text [] s

theorem units_nil : k.units [] = [] := rfl

/-! ### Escape sequences -/

/-- The start of an escape sequence, as far as it is not complete. -/
def PartialEscape (e : List Char) : Prop :=
  ∃ parameters, e = '\x1B' :: '[' :: parameters ∧ ∀ c ∈ parameters, insideEscape c = true

/-- An escape sequence with its last character. -/
def CompleteEscape (e : List Char) : Prop :=
  ∃ p c, PartialEscape p ∧ insideEscape c = false ∧ e = p ++ [c]

/-- An escape sequence starts here. -/
def StartsEscape (s : List Char) : Prop := ∃ t, s = '\x1B' :: '[' :: t

theorem PartialEscape.snoc {e : List Char} {c : Char} (h : PartialEscape e)
    (hc : insideEscape c = true) : PartialEscape (e ++ [c]) := by
  obtain ⟨parameters, rfl, hin⟩ := h
  refine ⟨parameters ++ [c], rfl, ?_⟩
  simp only [List.mem_append, List.mem_singleton]
  rintro d (hd | rfl)
  · exact hin d hd
  · exact hc

theorem partialEscape_start : PartialEscape ['\x1B', '['] := ⟨[], rfl, nofun⟩

/-- What `OutputEscapeSequencesWS` passes over: `e` has been read of the first sequence. -/
theorem escapeLength_units (inside : Bool) (s : List Char) :
    ∀ e, (inside = true → PartialEscape e) → (inside = false → e = []) →
      ∃ es, k.unitsFrom e s = es ++ k.units (s.drop (escapeLength inside s)) ∧
        unitsText es = e ++ s.take (escapeLength inside s) ∧
        (∀ u ∈ es, u.isEscape = true) ∧ (es = [] → inside = false ∧ escapeLength inside s = 0) ∧
        ¬ StartsEscape (s.drop (escapeLength inside s)) ∧
        (s.drop (escapeLength inside s) ≠ [] → ∀ c, .escape c ∈ es → CompleteEscape c) := by
  fun_induction escapeLength inside s with
  | case1 inside =>
    intro e hp he
    cases inside with
    | false =>
      obtain rfl := he rfl
      exact ⟨[], rfl, rfl, nofun, fun _ => ⟨rfl, rfl⟩, nofun, nofun⟩
    | true =>
      obtain ⟨parameters, rfl, -⟩ := hp rfl
      refine ⟨[.escape _], rfl, rfl, ?_, nofun, nofun, nofun⟩
      simp [FillUnit.isEscape]
  | case2 c s hc ih =>
    intro e hp _
    obtain ⟨es, hunits, htext, hes, hne, hstart, hcomplete⟩ := ih (e ++ [c])
      (fun _ => (hp rfl).snoc hc) nofun
    obtain ⟨parameters, rfl, -⟩ := hp rfl
    refine ⟨es, ?_, ?_, hes, fun h => absurd (hne h).1 (by decide), hstart, hcomplete⟩
    · rw [CharClass.unitsFrom, if_pos hc]
      exact hunits
    · rw [htext, List.append_assoc]
      rfl
  | case3 c s hc ih =>
    intro e hp _
    obtain ⟨es, hunits, htext, hes, -, hstart, hcomplete⟩ := ih [] nofun fun _ => rfl
    have hlast : CompleteEscape (e ++ [c]) := ⟨e, c, hp rfl, by simpa using hc, rfl⟩
    obtain ⟨parameters, rfl, -⟩ := hp rfl
    refine ⟨.escape ('\x1B' :: '[' :: parameters ++ [c]) :: es, ?_, ?_, ?_, nofun, hstart, ?_⟩
    · rw [CharClass.unitsFrom, if_neg hc]
      exact congrArg (_ :: ·) hunits
    · rw [unitsText_cons, htext, FillUnit.text, List.nil_append, List.append_assoc]
      rfl
    · simpa [FillUnit.isEscape] using hes
    · intro hrest d hd
      rcases List.mem_cons.1 hd with h | h
      · cases h
        exact hlast
      · exact hcomplete hrest d h
  | case4 s ih =>
    intro e _ he
    obtain rfl := he rfl
    obtain ⟨es, hunits, htext, hes, hne, hstart, hcomplete⟩ := ih _ (fun _ => partialEscape_start)
      nofun
    exact ⟨es, hunits, htext, hes, fun h => absurd (hne h).1 (by decide), hstart, hcomplete⟩
  | case5 c s hne =>
    intro e _ he
    obtain rfl := he rfl
    refine ⟨[], rfl, rfl, nofun, fun _ => ⟨rfl, rfl⟩, ?_, nofun⟩
    rintro ⟨t, heq⟩
    cases heq
    exact hne t rfl rfl

/-- `OutputEscapeSequencesWS` -/
theorem outputEscapeSequences_units (s : List Char) :
    ∃ es, k.units s = es ++ k.units (outputEscapeSequences s).2 ∧
      unitsText es = (outputEscapeSequences s).1 ∧ (∀ u ∈ es, u.isEscape = true) ∧
      (es = [] → escapeLength false s = 0) ∧ ¬ StartsEscape (outputEscapeSequences s).2 ∧
      ((outputEscapeSequences s).2 ≠ [] → ∀ c, .escape c ∈ es → CompleteEscape c) := by
  obtain ⟨es, hunits, htext, hes, hne, hstart, hcomplete⟩ :=
    escapeLength_units (k := k) false s [] nofun fun _ => rfl
  exact ⟨es, hunits, htext, hes, fun h => (hne h).2, hstart, hcomplete⟩

theorem escapeLength_pos {s : List Char} (h : StartsEscape s) : 0 < escapeLength false s := by
  obtain ⟨t, rfl⟩ := h
  rw [escapeLength]
  exact Nat.succ_pos _

theorem escapeLength_le (inside : Bool) (s : List Char) :
    escapeLength inside s ≤ s.length := by
  fun_induction escapeLength inside s with
  | case1 => exact Nat.zero_le _
  | case5 => exact Nat.zero_le _
  | _ =>
    simp only [List.length_cons]
    omega

/-! ### Blanks -/

theorem isWBlank_unit {c : Char} (h : k.isWBlank c = true) :
    c ≠ '\x1B' ∧ k.unitOf c = .blank c := by
  simp only [CharClass.isWBlank, Bool.and_eq_true, bne_iff_ne] at h
  constructor
  · rintro rfl
    rw [k.escape] at h
    exact Bool.false_ne_true h.1
  · rw [CharClass.unitOf, if_neg h.2, if_pos h.1]

theorem skipBlanks_units (s : List Char) :
    k.units s = (s.takeWhile k.isWBlank).map .blank ++ k.units (k.skipBlanks s) := by
  unfold CharClass.skipBlanks
  induction s with
  | nil => rfl
  | cons c s ih =>
    by_cases hc : k.isWBlank c = true
    · obtain ⟨hesc, hunit⟩ := isWBlank_unit hc
      rw [units_cons fun h => hesc h.1, hunit, List.takeWhile_cons_of_pos hc,
        List.dropWhile_cons_of_pos hc, ih]
      rfl
    · rw [List.takeWhile_cons_of_neg hc, List.dropWhile_cons_of_neg hc]
      rfl

/-- Behind the blanks there is none. -/
theorem skipBlanks_head (s : List Char) : ∀ c ∈ (k.skipBlanks s).head?, k.isWBlank c = false := by
  intro c hc
  have hnot := List.head?_dropWhile_not k.isWBlank s
  rw [CharClass.skipBlanks, Option.mem_def] at hc
  rwa [hc] at hnot

/-- Escape sequences and blanks. -/
def FillUnit.isGap : FillUnit → Bool
  | .escape _ => true
  | .blank _ => true
  | _ => false

/-- The loop over the escape sequences before a word. -/
theorem escapesLoop_units (n : ℕ) : ∀ s : List Char, s.length < n →
    ∃ gap, k.units s = gap ++ k.units (k.escapesLoop n s).2 ∧
      unitsText (gap.filter FillUnit.isEscape) = (k.escapesLoop n s).1 ∧
      (∀ u ∈ gap, u.isGap = true) ∧ (∀ u ∈ gap.head?, u.isEscape = true) ∧
      (gap = [] → (k.escapesLoop n s).2 = s) ∧ ¬ StartsEscape (k.escapesLoop n s).2 ∧
      ((∀ c ∈ s.head?, k.isWBlank c = false) →
        ∀ c ∈ (k.escapesLoop n s).2.head?, k.isWBlank c = false) ∧
      ((k.escapesLoop n s).2 ≠ [] → ∀ c, .escape c ∈ gap → CompleteEscape c) := by
  induction n with
  | zero => exact fun s h => absurd h (Nat.not_lt_zero _)
  | succ n ih =>
    intro s hlen
    obtain ⟨es, hunits, htext, hes, hne, hstart, hcomplete⟩ :=
      outputEscapeSequences_units (k := k) s
    rw [CharClass.escapesLoop]
    by_cases hnone : (outputEscapeSequences s).1 = []
    · simp only [hnone, if_true]
      have hs : ¬ StartsEscape s := by
        intro hs
        have hpos := escapeLength_pos hs
        obtain ⟨t, rfl⟩ := hs
        rw [outputEscapeSequences, List.take_eq_nil_iff] at hnone
        rcases hnone with h | h
        · omega
        · cases h
      exact ⟨[], rfl, rfl, nofun, nofun, fun _ => trivial, hs, id, nofun⟩
    · simp only [hnone, if_false]
      have hesne : es ≠ [] := by
        rintro rfl
        exact hnone htext.symm
      have hlt : (k.skipBlanks (outputEscapeSequences s).2).length < n := by
        have hle := (List.dropWhile_sublist k.isWBlank (l := (outputEscapeSequences s).2)).length_le
        have hpos : 0 < escapeLength false s := by
          by_contra h0
          rw [outputEscapeSequences, Nat.eq_zero_of_not_pos h0] at hnone
          exact hnone rfl
        have hdrop : (outputEscapeSequences s).2.length = s.length - escapeLength false s :=
          List.length_drop
        have hall := escapeLength_le false s
        rw [CharClass.skipBlanks]
        omega
      obtain ⟨gap, hunits', htext', hgap, -, hsame, hstart', hblank, hcomplete'⟩ := ih _ hlt
      have hskip := skipBlanks_units (k := k) (outputEscapeSequences s).2
      refine ⟨es ++ ((outputEscapeSequences s).2.takeWhile k.isWBlank).map .blank ++ gap, ?_, ?_,
        ?_, ?_, fun h => ?_, hstart', fun _ => hblank (skipBlanks_head _), fun hrest => ?_⟩
      · rw [hunits, hskip, hunits', List.append_assoc, List.append_assoc]
      · rw [List.filter_append, List.filter_append, List.filter_eq_self.2 hes,
          List.filter_eq_nil_iff.2, List.append_nil, unitsText_append, htext, htext']
        simp [FillUnit.isEscape]
      · simp only [List.mem_append]
        rintro u ((hu | hu) | hu)
        · have hesc := hes u hu
          cases u <;> first | rfl | cases hesc
        · obtain ⟨c, -, rfl⟩ := List.mem_map.1 hu
          rfl
        · exact hgap u hu
      · obtain ⟨u, us, rfl⟩ := List.exists_cons_of_ne_nil hesne
        rintro v ⟨⟩
        exact hes u List.mem_cons_self
      · simp only [List.append_eq_nil_iff] at h
        exact absurd h.1.1 hesne
      · have hback : (outputEscapeSequences s).2 ≠ [] := by
          intro hnil
          rw [hnil] at hrest hunits'
          have hnothing := congrArg unitsText hunits'
          rw [unitsText_append, units_text, units_text] at hnothing
          exact hrest (List.append_eq_nil_iff.1 hnothing.symm).2
        intro c hc
        simp only [List.mem_append] at hc
        rcases hc with (hc | hc) | hc
        · exact hcomplete hback c hc
        · obtain ⟨d, -, hd⟩ := List.mem_map.1 hc
          cases hd
        · exact hcomplete' hrest c hc

/-! ### Words -/

theorem wordLoop_skip (skip : ℕ) : ∀ s : List Char, skip ≤ s.length →
    k.wordLoop skip s = ((k.wordLoop 0 (s.drop skip)).1 + skip, (k.wordLoop 0 (s.drop skip)).2) := by
  induction skip with
  | zero => exact fun s _ => rfl
  | succ skip ih =>
    intro s hs
    cases s with
    | nil => cases hs
    | cons c s =>
      rw [CharClass.wordLoop, ih s (Nat.le_of_succ_le_succ hs)]
      rfl

theorem width_append (us vs : List FillUnit) : k.width (us ++ vs) = k.width us + k.width vs := by
  rw [CharClass.width, List.map_append, List.sum_append]
  rfl

/-- Escape sequences take no columns. -/
theorem width_escapes {us : List FillUnit} (h : ∀ u ∈ us, u.isEscape = true) : k.width us = 0 := by
  induction us with
  | nil => rfl
  | cons u us ih =>
    have hu := h u List.mem_cons_self
    have hus := ih fun v hv => h v (List.mem_cons_of_mem _ hv)
    cases u with
    | escape e => exact (Nat.zero_add _).trans hus
    | _ => cases hu

theorem wordLoop_units (s : List Char) :
    ∃ word, k.units s = word ++ k.units (s.drop (k.wordLoop 0 s).1) ∧
      unitsText word = s.take (k.wordLoop 0 s).1 ∧ (∀ u ∈ word, u.solid = true) ∧
      k.width word = (k.wordLoop 0 s).2 ∧ (word = [] ↔ (k.wordLoop 0 s).1 = 0) ∧
      (∀ c ∈ (s.drop (k.wordLoop 0 s).1).head?, k.iswspace c = true) ∧
      (s.drop (k.wordLoop 0 s).1 ≠ [] → ∀ c, .escape c ∈ word → CompleteEscape c) := by
  induction hn : s.length using Nat.strong_induction_on generalizing s with
  | _ n ih =>
    cases s with
    | nil => exact ⟨[], rfl, rfl, nofun, rfl, by simp [CharClass.wordLoop], nofun, nofun⟩
    | cons c s =>
      have hle := escapeLength_le false (c :: s)
      by_cases hc : k.iswspace c = true
      · have hrun : k.wordLoop 0 (c :: s) = (0, 0) := by rw [CharClass.wordLoop, if_pos hc]
        rw [hrun]
        exact ⟨[], rfl, rfl, nofun, rfl, by simp, by simpa using hc, nofun⟩
      · cases hesc : escapeLength false (c :: s) with
        | zero =>
          have hrun : k.wordLoop 0 (c :: s) =
              ((k.wordLoop 0 s).1 + 1, (k.wordLoop 0 s).2 + k.wcwidth c) := by
            rw [CharClass.wordLoop, if_neg hc, hesc]
          obtain ⟨word, hunits, htext, hsolid, hwidth, -, hrest, hcomplete⟩ := ih s.length
            (by rw [← hn]; exact Nat.lt_succ_self _) s rfl
          have hstart : ¬ (c = '\x1B' ∧ s.head? = some '[') := by
            rintro ⟨rfl, hs⟩
            obtain ⟨t, rfl⟩ := List.head?_eq_some_iff.1 hs
            cases hesc
          have hunit : k.unitOf c = .char c := by
            have hnl : c ≠ '\n' := by
              rintro rfl
              exact hc k.newline
            rw [CharClass.unitOf, if_neg hnl, if_neg hc]
          rw [hrun]
          refine ⟨.char c :: word, ?_, ?_, ?_, ?_, by simp, hrest, ?_⟩
          · rw [units_cons hstart, hunit, hunits]
            rfl
          · rw [unitsText_cons, htext]
            rfl
          · simpa [FillUnit.solid] using hsolid
          · show k.wcwidth c + k.width word = (k.wordLoop 0 s).2 + k.wcwidth c
            rw [hwidth, Nat.add_comm]
          · simpa using hcomplete
        | succ skip =>
          have hskip : skip ≤ s.length := by
            rw [hesc, List.length_cons] at hle
            omega
          obtain ⟨es, hunits, htext, hes, hne, -, hcomplete⟩ :=
            outputEscapeSequences_units (k := k) (c :: s)
          have hfst : (outputEscapeSequences (c :: s)).1 = c :: s.take skip := by
            rw [outputEscapeSequences, hesc, List.take_succ_cons]
          have hsnd : (outputEscapeSequences (c :: s)).2 = s.drop skip := by
            rw [outputEscapeSequences, hesc, List.drop_succ_cons]
          rw [hsnd] at hunits hcomplete
          rw [hfst] at htext
          obtain ⟨word, hunits', htext', hsolid, hwidth, -, hrest, hcomplete'⟩ :=
            ih (s.drop skip).length (by rw [← hn, List.length_drop, List.length_cons]; omega) _ rfl
          have hrun : k.wordLoop 0 (c :: s) =
              (skip + (k.wordLoop 0 (s.drop skip)).1 + 1, (k.wordLoop 0 (s.drop skip)).2) := by
            rw [CharClass.wordLoop, if_neg hc, hesc]
            simp only [wordLoop_skip skip s hskip, Nat.add_comm skip]
          have hesne : es ≠ [] := by
            intro hnil
            have h0 := hne hnil
            omega
          have hrest' : (s.drop skip).drop (k.wordLoop 0 (s.drop skip)).1 ≠ [] →
              s.drop skip ≠ [] := by
            intro h hnil
            rw [hnil, List.drop_nil] at h
            exact h rfl
          rw [hrun]
          simp only [List.drop_succ_cons, List.take_succ_cons, ← List.drop_drop]
          refine ⟨es ++ word, ?_, ?_, ?_, ?_, by simp [hesne], hrest, ?_⟩
          · rw [hunits, hunits', List.append_assoc]
          · rw [unitsText_append, htext, htext', List.cons_append, List.take_add]
          · intro u hu
            rcases List.mem_append.1 hu with hu | hu
            · have hesc' := hes u hu
              cases u <;> first | rfl | cases hesc'
            · exact hsolid u hu
          · rw [width_append, width_escapes hes, hwidth, Nat.zero_add]
          · intro h d hd
            rcases List.mem_append.1 hd with hd | hd
            · exact hcomplete (hrest' h) d hd
            · exact hcomplete' h d hd

end Units

/-! ### The rounds -/

/-- Blanks and escape sequences, and `t` behind them. -/
structure IsGap (gap : List FillUnit) (t : List Char) : Prop where
  units : ∀ u ∈ gap, u.isGap = true
  complete : t ≠ [] → ∀ c, .escape c ∈ gap → CompleteEscape c

/-- A word with the escape sequences in it, and `t` behind it. -/
structure IsWord (k : CharClass) (word : List FillUnit) (t : List Char) : Prop where
  first : ∃ c us, word = .char c :: us
  solid : ∀ u ∈ word, u.solid = true
  behind : ∀ c ∈ t.head?, k.iswspace c = true
  complete : t ≠ [] → ∀ c, .escape c ∈ word → CompleteEscape c

/-- The escape sequences of a gap, as they are output. -/
def escapesText (gap : List FillUnit) : List Char := unitsText (gap.filter FillUnit.isEscape)

/-- What a round of the loop over the words does. -/
inductive WordRound (k : FillConfig) (roomleft : ℤ) (pendspace : ℕ) (st : FillState) :
    FillState → Prop
  | newline {gap : List FillUnit} {t : List Char} :
      k.units st.s = gap ++ k.units ('\n' :: t) → (∀ u ∈ gap, u.solid = false) → IsGap gap t →
      WordRound k roomleft pendspace st { st with s := '\n' :: t, phase := .line }
  | stop {gap : List FillUnit} {t : List Char} :
      k.units st.s = gap ++ k.units t → IsGap gap t →
      (t ≠ [] → t.head? = some '\n' ∧ ∃ e, .escape e ∈ gap) →
      WordRound k roomleft pendspace st
        { st with s := t, output := st.output ++ escapesText gap, phase := .done }
  | put {gap word : List FillUnit} {t : List Char} :
      k.units st.s = gap ++ (word ++ k.units t) → IsGap gap (unitsText word ++ t) →
      IsWord k.toCharClass word t → (pendspace = 0 ∨ (k.width word : ℤ) + pendspace ≤ roomleft) →
      WordRound k roomleft pendspace st
        { st with
          s := t
          output := st.output ++ escapesText gap ++ List.replicate pendspace ' ' ++ unitsText word
          doublespace := k.sentenceSpace st.doublespace (unitsText word)
          phase := .words
            (roomleft - (k.width word + k.sentenceSpace st.doublespace (unitsText word)))
            (k.sentenceSpace st.doublespace (unitsText word)) }
  | wrap {gap word : List FillUnit} {t : List Char} :
      k.units st.s = gap ++ (word ++ k.units t) →
      k.units (unitsText word ++ t) = word ++ k.units t → IsGap gap (unitsText word ++ t) →
      IsWord k.toCharClass word t → ¬ (pendspace = 0 ∨ (k.width word : ℤ) + pendspace ≤ roomleft) →
      WordRound k roomleft pendspace st
        { st with
          s := unitsText word ++ t
          output := st.output ++ escapesText gap ++ ['\n']
          line := st.line + 1
          phase := .line }

/-- A word starts with a visible character. -/
theorem isWord_first {k : CharClass} {t : List Char} {u : FillUnit} {us rest : List FillUnit}
    (hstart : ¬ StartsEscape t) (hunits : k.units t = u :: us ++ rest) (hu : u.solid = true) :
    ∃ c vs, u :: us = .char c :: vs := by
  cases t with
  | nil => cases hunits
  | cons c r =>
    have hesc : ¬ (c = '\x1B' ∧ r.head? = some '[') := by
      rintro ⟨rfl, hr⟩
      obtain ⟨r', rfl⟩ := List.head?_eq_some_iff.1 hr
      exact hstart ⟨r', rfl⟩
    rw [units_cons hesc] at hunits
    have hhead : k.unitOf c = u := (List.cons.inj hunits).1
    unfold CharClass.unitOf at hhead
    split_ifs at hhead
    · rw [← hhead] at hu
      cases hu
    · rw [← hhead] at hu
      cases hu
    · exact ⟨c, us, by rw [hhead]⟩

/-- Blanks before a gap. -/
theorem IsGap.blanks {cs : List Char} {gap : List FillUnit} {t : List Char} (h : IsGap gap t) :
    IsGap (cs.map .blank ++ gap) t ∧ escapesText (cs.map .blank ++ gap) = escapesText gap := by
  refine ⟨⟨fun u hu => ?_, fun ht c hc => ?_⟩, ?_⟩
  · rcases List.mem_append.1 hu with hu | hu
    · obtain ⟨c, -, rfl⟩ := List.mem_map.1 hu
      rfl
    · exact h.units u hu
  · rcases List.mem_append.1 hc with hc | hc
    · obtain ⟨d, -, hd⟩ := List.mem_map.1 hc
      cases hd
    · exact h.complete ht c hc
  · have hnone : (cs.map FillUnit.blank).filter FillUnit.isEscape = [] := by
      simp [FillUnit.isEscape]
    rw [escapesText, List.filter_append, hnone, List.nil_append, escapesText]

theorem wordStep_round (k : FillConfig) (roomleft : ℤ) (pendspace : ℕ) (st : FillState) :
    WordRound k roomleft pendspace st (k.wordStep roomleft pendspace st) := by
  have hskip := skipBlanks_units (k := k.toCharClass) st.s
  have hhead := skipBlanks_head (k := k.toCharClass) st.s
  unfold FillConfig.wordStep
  generalize k.skipBlanks st.s = s at hskip hhead
  generalize st.s.takeWhile k.isWBlank = blanks at hskip
  obtain ⟨gap, hunits, htext, hgap, hfirst, hsame, hstart, hblank, hcomplete⟩ :=
    escapesLoop_units (k := k.toCharClass) (s.length + 1) s (Nat.lt_succ_self _)
  obtain ⟨word, hword, hwtext, hsolid, hwidth, hnone, hbehind, hwcomplete⟩ :=
    wordLoop_units (k := k.toCharClass) (k.escapesLoop (s.length + 1) s).2
  have hg := @IsGap.blanks blanks _ _ ⟨hgap, hcomplete⟩
  have hall : k.units st.s = blanks.map .blank ++ gap ++
      k.units (k.escapesLoop (s.length + 1) s).2 := by rw [hskip, hunits, List.append_assoc]
  replace hblank := hblank hhead
  dsimp only
  rw [← htext, ← escapesText, ← hg.2]
  clear hunits
  generalize (k.escapesLoop (s.length + 1) s).2 = t at *
  split_ifs with hnl hzero hfits
  · obtain ⟨r, rfl⟩ := List.head?_eq_some_iff.1 hnl
    refine .newline hskip ?_ ?_
    · simp [FillUnit.solid]
    · simpa using (@IsGap.blanks blanks [] r ⟨nofun, nofun⟩).1
  · refine .stop hall hg.1 fun ht => ?_
    obtain ⟨c, r, rfl⟩ := List.exists_cons_of_ne_nil ht
    have hspace := hbehind c (by rw [hzero]; rfl)
    have hnotblank := hblank c rfl
    have hc : c = '\n' := by
      rw [CharClass.isWBlank, hspace] at hnotblank
      simpa using hnotblank
    subst hc
    cases gap with
    | nil => exact absurd (by rw [← hsame rfl]; rfl) hnl
    | cons u us =>
      have hesc := hfirst u rfl
      cases u with
      | escape e => exact ⟨rfl, e, by simp⟩
      | _ => cases hesc
  all_goals
    have hw : IsWord k.toCharClass word (t.drop (k.wordLoop 0 t).1) := by
      refine ⟨?_, hsolid, hbehind, hwcomplete⟩
      obtain ⟨u, us, rfl⟩ := List.exists_cons_of_ne_nil (mt hnone.1 hzero)
      exact isWord_first hstart hword (hsolid u List.mem_cons_self)
    have hback : unitsText word ++ t.drop (k.wordLoop 0 t).1 = t := by
      rw [hwtext, List.take_append_drop]
    rw [hword] at hall
    have hgap' := hg.1
    rw [← hback] at hgap'
    rw [← hwidth] at hfits
  · rw [← hwidth, ← hwtext]
    exact .put hall hgap' hw hfits
  · have hround := WordRound.wrap hall (by rw [hback, hword]) hgap' hw hfits
    rwa [hback] at hround

end Remind
