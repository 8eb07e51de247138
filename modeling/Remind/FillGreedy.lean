import Remind.FillLaw

/-!
# FillGreedy — which words `FillParagraphWCAux` moves to the next line

`roomleft` has the pending spaces taken off already when a word is compared with it together with
the pending spaces.
-/

namespace Remind

/-- The column behind units. -/
def CharClass.column (k : CharClass) (us : List FillUnit) : ℕ :=
  us.foldl (fun col u => if u = .newline then 0 else col + k.unitWidth u) 0

/-- The word behind the blanks and escape sequences at the start of a text. -/
def nextWord (us : List FillUnit) : List FillUnit :=
  (us.dropWhile FillUnit.isGap).takeWhile FillUnit.solid

def FillState.pendspace (st : FillState) : ℕ :=
  match st.phase with
  | .words _ p => p
  | _ => 0

/-- The next round moves a word to the next line. -/
def MovesWord (k : FillConfig) (st : FillState) : Prop := (k.step st).line = st.line + 1

/-- The width of the text on the line with the pending spaces, `times` over, and the next word. -/
def lineWith (k : FillConfig) (st : FillState) (times : ℕ) : ℕ :=
  k.column (k.units st.output) + times * st.pendspace + k.width (nextWord (k.units st.s))

/-- A word is moved only where it does not fit behind the pending spaces. -/
def GreedyAt (k : FillConfig) (st : FillState) : Prop :=
  MovesWord k st → k.formWidth < lineWith k st 1

/-- The next word fits, but not with the pending spaces counted twice. -/
def FitsOnlyOnce (k : FillConfig) (st : FillState) : Prop :=
  nextWord (k.units st.s) ≠ [] ∧ lineWith k st 1 ≤ k.formWidth ∧ k.formWidth < lineWith k st 2

section Greedy

variable {k : FillConfig} {s t x y : List Char} {us vs gap word : List FillUnit}

/-! ### Reading what has been put out -/

/-- No escape sequence is cut off. -/
def EscapesComplete (us : List FillUnit) : Prop := ∀ e, .escape e ∈ us → CompleteEscape e

theorem PartialEscape.not_complete {e : List Char} (h : PartialEscape e) : ¬ CompleteEscape e := by
  rintro ⟨p, c, ⟨ps, rfl, -⟩, hc, rfl⟩
  obtain ⟨qs, hq, hin⟩ := h
  have hqs : qs = ps ++ [c] := by simpa using hq.symm
  rw [hin c (by rw [hqs]; simp)] at hc
  cases hc

/-- No escape sequence begins where `x` ends and `y` begins. -/
def NoSeam (x y : List Char) : Prop := ∀ front, x = front ++ ['\x1B'] → y.head? ≠ some '['

theorem NoSeam.tail {c : Char} (h : NoSeam (c :: x) y) : NoSeam x y := fun front hx =>
  h (c :: front) (by rw [hx]; rfl)

theorem unitsFrom_append {k : CharClass} (e x : List Char) (he : e = [] ∨ PartialEscape e)
    (hx : EscapesComplete (k.unitsFrom e x)) (hy : NoSeam x y) :
    k.unitsFrom e (x ++ y) = k.unitsFrom e x ++ k.units y := by
  fun_induction CharClass.unitsFrom k e x with
  | case1 => rfl
  | case2 e es =>
    have hcomplete := hx (e :: es) List.mem_cons_self
    exact absurd hcomplete (PartialEscape.not_complete (he.resolve_left (List.cons_ne_nil _ _)))
  | case3 s ih => exact ih (.inr partialEscape_start) hx hy.tail.tail
  | case4 c s hne ih =>
    have hstart : ¬ (c = '\x1B' ∧ (s ++ y).head? = some '[') := by
      rintro ⟨rfl, hhead⟩
      cases s with
      | nil => exact hy [] rfl hhead
      | cons d s =>
        obtain rfl : d = '[' := Option.some.inj hhead
        exact hne s rfl rfl
    have hrest := ih (.inl rfl) (fun e h => hx e (List.mem_cons_of_mem _ h)) hy.tail
    exact (units_cons hstart).trans (congrArg (_ :: ·) hrest)
  | case5 e es c s hc ih =>
    rw [List.cons_append, CharClass.unitsFrom, if_pos hc]
    exact ih (.inr ((he.resolve_left (List.cons_ne_nil _ _)).snoc hc)) hx hy.tail
  | case6 e es c s hc ih =>
    rw [List.cons_append, CharClass.unitsFrom, if_neg hc,
      ih (.inl rfl) (fun e h => hx e (List.mem_cons_of_mem _ h)) hy.tail]
    rfl

theorem units_append {k : CharClass} (hx : EscapesComplete (k.units x)) (hy : NoSeam x y) :
    k.units (x ++ y) = k.units x ++ k.units y := unitsFrom_append [] x (.inl rfl) hx hy

theorem unitsFrom_complete {k : CharClass} {e : List Char} (s : List Char) (he : PartialEscape e)
    {u : FillUnit} (h : k.unitsFrom e s = u :: us) (hu : EscapesComplete [u]) :
    ∃ t, e ++ s = u.text ++ t ∧ k.units t = us := by
  induction s generalizing e with
  | nil =>
    obtain ⟨ps, rfl, hin⟩ := he
    rw [CharClass.unitsFrom] at h
    obtain ⟨rfl, -⟩ := List.cons.inj h
    exact absurd (hu _ List.mem_cons_self) (PartialEscape.not_complete ⟨ps, rfl, hin⟩)
  | cons c s ih =>
    obtain ⟨ps, rfl, hin⟩ := he
    rw [CharClass.unitsFrom] at h
    split_ifs at h with hc
    · obtain ⟨t, ht, hus⟩ := ih (PartialEscape.snoc ⟨ps, rfl, hin⟩ hc) h
      exact ⟨t, by rw [← ht, List.append_assoc]; rfl, hus⟩
    · obtain ⟨rfl, rfl⟩ := List.cons.inj h
      exact ⟨s, by rw [FillUnit.text, List.append_assoc]; rfl, rfl⟩

/-- What follows the first unit of a text. -/
theorem units_uncons {k : CharClass} {u : FillUnit} (h : k.units s = u :: us)
    (hu : EscapesComplete [u]) : ∃ t, s = u.text ++ t ∧ k.units t = us := by
  cases s with
  | nil => cases h
  | cons c s =>
    by_cases hc : c = '\x1B' ∧ s.head? = some '['
    · obtain ⟨rfl, hs⟩ := hc
      obtain ⟨t, rfl⟩ := List.head?_eq_some_iff.1 hs
      exact unitsFrom_complete t partialEscape_start h hu
    · rw [units_cons hc] at h
      obtain ⟨rfl, rfl⟩ := List.cons.inj h
      exact ⟨s, by rw [unitOf_text]; rfl, rfl⟩

/-- The units behind complete ones are the units of the text behind it. -/
theorem units_suffix {k : CharClass} (h : k.units s = us ++ vs) (hus : EscapesComplete us) :
    k.units (unitsText vs) = vs := by
  induction us generalizing s with
  | nil =>
    rw [List.nil_append] at h
    rw [← h, units_text]
  | cons u us ih =>
    obtain ⟨t, -, ht⟩ := units_uncons h fun e he => hus e (by simp_all)
    exact ih ht fun e he => hus e (List.mem_cons_of_mem _ he)

theorem unitsFrom_escape {k : CharClass} {c : Char} (hc : insideEscape c = false) (ps s : List Char)
    (hps : ∀ d ∈ ps, insideEscape d = true) (d : Char) (e : List Char) :
    k.unitsFrom (d :: e) (ps ++ c :: s) = .escape (d :: e ++ ps ++ [c]) :: k.units s := by
  induction ps generalizing e with
  | nil =>
    rw [List.nil_append, CharClass.unitsFrom, if_neg (by simp [hc]), List.append_nil]
    rfl
  | cons p ps ih =>
    rw [List.cons_append, CharClass.unitsFrom, if_pos (hps p List.mem_cons_self), List.cons_append,
      ih (fun d hd => hps d (List.mem_cons_of_mem _ hd))]
    simp

theorem units_escape {k : CharClass} {e : List Char} (he : CompleteEscape e) (s : List Char) :
    k.units (e ++ s) = .escape e :: k.units s := by
  obtain ⟨p, c, ⟨ps, rfl, hin⟩, hc, rfl⟩ := he
  have hread := unitsFrom_escape (k := k) hc ps s hin '\x1B' ['[']
  rw [List.append_assoc]
  exact hread

/-- A character is read in front of the start of a text as it is in front of the text. -/
theorem units_char {k : CharClass} {c : Char} {u : FillUnit} (t : List Char)
    (h : k.units (c :: (x ++ t)) = u :: us) (hu : u.isEscape = false) :
    k.units (c :: x) = u :: k.units x := by
  have hstart : ¬ (c = '\x1B' ∧ (x ++ t).head? = some '[') := by
    rintro ⟨rfl, hhead⟩
    obtain ⟨r, hr⟩ := List.head?_eq_some_iff.1 hhead
    rw [hr] at h
    obtain ⟨es, hes, -, hesc, hne, -⟩ := outputEscapeSequences_units (k := k) ('\x1B' :: '[' :: r)
    cases es with
    | nil => exact absurd (hne rfl) (escapeLength_pos ⟨r, rfl⟩).ne'
    | cons e es =>
      rw [hes] at h
      rw [← (List.cons.inj h).1, hesc e List.mem_cons_self] at hu
      cases hu
  rw [units_cons hstart] at h
  rw [units_cons, (List.cons.inj h).1]
  rintro ⟨hc, hhead⟩
  refine hstart ⟨hc, ?_⟩
  obtain ⟨r, rfl⟩ := List.head?_eq_some_iff.1 hhead
  rfl

/-- Complete units at the start of a text are the units of what they stand for. -/
theorem units_prefix {k : CharClass} (h : k.units (unitsText us ++ t) = us ++ k.units t)
    (hus : EscapesComplete us) : k.units (unitsText us) = us := by
  induction us with
  | nil => rfl
  | cons u us ih =>
    obtain ⟨t', ht', hunits⟩ := units_uncons h fun e he => hus e (by simp_all)
    rw [unitsText_cons, List.append_assoc, List.append_cancel_left_eq] at ht'
    rw [← ht'] at hunits
    have hrest := ih hunits fun e he => hus e (List.mem_cons_of_mem _ he)
    rw [unitsText_cons]
    cases u with
    | escape e => rw [FillUnit.text, units_escape (hus e List.mem_cons_self), hrest]
    | char c => exact (units_char t h rfl).trans (congrArg _ hrest)
    | blank c => exact (units_char t h rfl).trans (congrArg _ hrest)
    | newline => exact (units_char t h rfl).trans (congrArg _ hrest)

/-! ### The column -/

theorem column_line (us : List FillUnit) (h : .newline ∉ vs) :
    k.column (us ++ vs) = k.column us + k.width vs := by
  unfold CharClass.column
  rw [List.foldl_append]
  generalize us.foldl _ 0 = col
  induction vs generalizing col with
  | nil => rfl
  | cons v vs ih =>
    have hv : v ≠ .newline := fun hv => h (by rw [hv]; exact List.mem_cons_self)
    rw [List.foldl_cons, if_neg hv, ih fun hm => h (List.mem_cons_of_mem _ hm)]
    show col + k.unitWidth v + k.width vs = col + (k.unitWidth v + k.width vs)
    omega

theorem column_newline (us : List FillUnit) : k.column (us ++ [FillUnit.newline]) = 0 := by
  unfold CharClass.column
  rw [List.foldl_append]
  rfl

theorem units_escapes {k : CharClass} (hesc : EscapesComplete gap) (y : List Char) :
    k.units (escapesText gap ++ y) = gap.filter FillUnit.isEscape ++ k.units y := by
  unfold escapesText
  induction gap with
  | nil => rfl
  | cons u gap ih =>
    have htail := ih fun e he => hesc e (List.mem_cons_of_mem _ he)
    cases u with
    | escape e =>
      rw [List.filter_cons_of_pos rfl, unitsText_cons, List.append_assoc, FillUnit.text,
        units_escape (hesc e List.mem_cons_self), htail]
      rfl
    | _ => exact htail

theorem units_spaces {k : CharClass} (p : ℕ) (y : List Char) :
    k.units (List.replicate p ' ' ++ y) = spaces p ++ k.units y := by
  induction p with
  | zero => rfl
  | succ p ih =>
    have hspace : k.unitOf ' ' = .blank ' ' := by
      rw [CharClass.unitOf, if_neg (by decide), if_pos k.space]
    rw [List.replicate_succ, List.cons_append, units_cons fun h => absurd h.1 (by decide), hspace, ih]
    rfl

/-- What a round puts into a line, as it is read again. -/
theorem units_put {k : CharClass} {p : ℕ} (hesc : EscapesComplete gap)
    (hword : k.units (unitsText word) = word) :
    k.units (unitsText (putUnits gap p word)) = putUnits gap p word := by
  rw [putUnits_text, List.append_assoc, units_escapes hesc, units_spaces, hword, putUnits,
    List.append_assoc]

/-! ### The room that is left -/

/-- The output can be read again as far as it goes, and `roomleft` is what is left of the line behind
it and the pending spaces. -/
structure RoomInv (k : FillConfig) (st : FillState) : Prop where
  doublespace : st.doublespace ≠ 0
  complete : st.phase ≠ .done → st.s ≠ [] → EscapesComplete (k.units st.output)
  line : st.phase = .line → st.s.head? = some '\n' ∨
    k.column (k.units st.output) = 0 ∧ ∀ y, NoSeam st.output y
  words : ∀ r p, st.phase = .words r p → r = k.formWidth - k.column (k.units st.output) - p ∧
    (p = 0 → ∀ y, NoSeam st.output y)

theorem NoSeam.of_head (hy : y.head? ≠ some '[') : NoSeam x y := fun _ _ => hy

theorem NoSeam.of_last {c : Char} (hc : c ≠ '\x1B') (y : List Char) : NoSeam (x ++ [c]) y := by
  intro front hx
  exact absurd (List.singleton_inj.1 (List.append_inj_right' hx rfl)) hc

theorem NoSeam.spaces {j : ℕ} (hx : ∀ y, NoSeam x y) (y : List Char) :
    NoSeam (x ++ List.replicate j ' ') y := by
  cases j with
  | zero => simpa using hx y
  | succ j =>
    rw [List.replicate_succ', ← List.append_assoc]
    exact .of_last (by decide) y

theorem escapesComplete_append (hus : EscapesComplete us) (hvs : EscapesComplete vs) :
    EscapesComplete (us ++ vs) := fun e he =>
  (List.mem_append.1 he).elim (hus e) (hvs e)

theorem escapesComplete_spaces (j : ℕ) : EscapesComplete (spaces j) := fun e he => by
  cases List.eq_of_mem_replicate he

theorem roomInv_start (k : FillConfig) (text : List Char) : RoomInv k (fillStart text) where
  doublespace := Nat.one_ne_zero
  complete := fun _ _ => nofun
  line := fun _ => .inr ⟨rfl, fun _ front hx => by simp [fillStart] at hx⟩
  words := nofun

/-- A newline ends a line of the output. -/
theorem units_newline_out (hx : EscapesComplete (k.units x)) :
    k.units (x ++ ['\n']) = k.units x ++ [FillUnit.newline] := by
  rw [units_append hx (.of_head (by simp)), units_newline]
  rfl

/-- The state behind a newline of the output. -/
theorem roomInv_newline {s : List Char} {n d : ℕ} (hd : d ≠ 0) (hx : EscapesComplete (k.units x)) :
    RoomInv k ⟨s, x ++ ['\n'], n, d, .line⟩ where
  doublespace := hd
  complete := fun _ _ => by
    rw [units_newline_out hx]
    exact escapesComplete_append hx fun e he => by cases List.mem_singleton.1 he
  line := fun _ => by
    rw [units_newline_out hx]
    exact .inr ⟨column_newline _, NoSeam.of_last (by decide)⟩
  words := nofun

theorem RoomInv.lineStep {n d : ℕ} (h : RoomInv k ⟨s, x, n, d, .line⟩) :
    RoomInv k (k.lineStep ⟨s, x, n, d, .line⟩) := by
  by_cases hs : s = []
  · subst hs
    exact ⟨h.doublespace, fun hne => absurd rfl hne, nofun, nofun⟩
  · have hx := h.complete FillPhase.noConfusion hs
    by_cases hnl : s.head? = some '\n'
    · obtain ⟨t, rfl⟩ := List.head?_eq_some_iff.1 hnl
      rw [lineStep_newline]
      exact roomInv_newline h.doublespace hx
    · obtain ⟨hcol, hseam⟩ := (h.line rfl).resolve_left hnl
      rw [lineStep_open hs hnl]
      generalize (if n = 0 then k.firstIndent else k.subsIndent) = j
      have hunits : k.units (x ++ List.replicate j ' ') = k.units x ++ spaces j := by
        have hspaces := units_spaces (k := k.toCharClass) j []
        rw [List.append_nil, units_nil, List.append_nil] at hspaces
        rw [units_append hx (hseam _), hspaces]
      have hline : .newline ∉ spaces j := fun hm => by cases List.eq_of_mem_replicate hm
      refine ⟨h.doublespace, fun _ _ => ?_, nofun, fun r p hphase => ?_⟩
      · rw [hunits]
        exact escapesComplete_append hx (escapesComplete_spaces j)
      · cases hphase
        rw [hunits, column_line _ hline, hcol, spaces_width]
        exact ⟨by omega, fun _ => NoSeam.spaces hseam⟩

/-- A word, as it is read again. -/
theorem IsWord.units {t : List Char} (hword : IsWord k.toCharClass word t)
    (hgap : IsGap gap (unitsText word ++ t)) (h : k.units s = gap ++ (word ++ k.units t)) :
    k.units (unitsText word) = word := by
  have hne : unitsText word ++ t ≠ [] := by
    obtain ⟨c, vs, rfl⟩ := hword.first
    exact List.cons_ne_nil _ _
  have hread := units_suffix h (hgap.complete hne)
  rw [unitsText_append, units_text] at hread
  cases t with
  | nil => rwa [units_nil, List.append_nil, List.append_nil] at hread
  | cons c t => exact units_prefix hread (hword.complete (List.cons_ne_nil _ _))

theorem escapesText_head (hesc : EscapesComplete gap) (hy : y.head? ≠ some '[') :
    (escapesText gap ++ y).head? ≠ some '[' := by
  unfold escapesText
  induction gap with
  | nil => exact hy
  | cons u gap ih =>
    cases u with
    | escape e =>
      obtain ⟨p, c, ⟨ps, rfl, -⟩, -, rfl⟩ := hesc e List.mem_cons_self
      rw [List.filter_cons_of_pos rfl, unitsText_cons]
      exact nofun
    | _ => exact ih fun e he => hesc e (List.mem_cons_of_mem _ he)

/-- A word that is put into a line. -/
theorem RoomInv.put {r : ℤ} {p n d q : ℕ} (h : RoomInv k ⟨s, x, n, d, .words r p⟩) (hq : q ≠ 0)
    (hs : s ≠ []) (hesc : EscapesComplete gap) (hword : k.units (unitsText word) = word)
    (hcomplete : t ≠ [] → EscapesComplete word) (hline : .newline ∉ word) :
    RoomInv k ⟨t, x ++ unitsText (putUnits gap p word), n, q,
      .words (r - (k.width word + q)) q⟩ := by
  obtain ⟨hroom, hseam⟩ := h.words r p rfl
  have hx : EscapesComplete (k.units x) := h.complete FillPhase.noConfusion hs
  have hjoin : NoSeam x (unitsText (putUnits gap p word)) := by
    cases p with
    | zero => exact hseam rfl _
    | succ p =>
      refine .of_head ?_
      rw [putUnits_text, List.append_assoc]
      exact escapesText_head hesc (by simp [List.replicate_succ])
  have hunits : k.units (x ++ unitsText (putUnits gap p word)) =
      k.units x ++ putUnits gap p word := by
    rw [units_append hx hjoin, units_put hesc hword]
  have hput : .newline ∉ putUnits gap p word := by
    simp only [putUnits, List.mem_append, not_or]
    refine ⟨⟨fun hm => ?_, fun hm => ?_⟩, hline⟩
    · cases (List.mem_filter.1 hm).2
    · cases List.eq_of_mem_replicate hm
  refine ⟨hq, fun _ ht => ?_, fun hphase => (by cases hphase), fun r' p' hphase => ?_⟩
  · rw [hunits]
    refine escapesComplete_append hx (escapesComplete_append (escapesComplete_append ?_ ?_) ?_)
    · exact fun e he => hesc e (List.mem_filter.1 he).1
    · exact escapesComplete_spaces p
    · exact hcomplete ht
  · cases hphase
    refine ⟨?_, fun h0 => absurd h0 hq⟩
    rw [hunits, column_line _ hput, putUnits_width]
    dsimp only at hroom
    omega

theorem RoomInv.wordStep {r : ℤ} {p n d : ℕ} (h : RoomInv k ⟨s, x, n, d, .words r p⟩) :
    RoomInv k (k.wordStep r p ⟨s, x, n, d, .words r p⟩) := by
  have hround := wordStep_round k r p ⟨s, x, n, d, .words r p⟩
  generalize k.wordStep r p _ = st' at hround ⊢
  have hs : k.units s ≠ [] → s ≠ [] := by
    rintro hne rfl
    exact hne units_nil
  cases hround with
  | @newline gap t hunits hblank hgap =>
    have hne : s ≠ [] := hs (by rw [hunits, units_newline]; simp)
    exact ⟨h.doublespace, fun _ _ => h.complete FillPhase.noConfusion hne, fun _ => .inl rfl, nofun⟩
  | @stop gap t hunits hgap ht =>
    exact ⟨h.doublespace, fun hdone => absurd rfl hdone, nofun, nofun⟩
  | @put gap word t hunits hgap hword hfits =>
    obtain ⟨c, vs, hfirst⟩ := hword.first
    have hne : s ≠ [] := hs (by rw [hunits, hfirst]; simp)
    have hrest : unitsText word ++ t ≠ [] := by
      rw [hfirst]
      exact List.cons_ne_nil _ _
    have hput := h.put (t := t) (sentenceSpace_pos (k := k) (unitsText word) h.doublespace) hne
      (hgap.complete hrest) (hword.units hgap hunits) hword.complete
      (newline_not_solid hword.solid)
    rw [putUnits_text, ← List.append_assoc, ← List.append_assoc] at hput
    exact hput
  | @wrap gap word t hunits hword' hgap hword hfits =>
    obtain ⟨c, vs, hfirst⟩ := hword.first
    have hne : s ≠ [] := hs (by rw [hunits, hfirst]; simp)
    have hrest : unitsText word ++ t ≠ [] := by
      rw [hfirst]
      exact List.cons_ne_nil _ _
    have hx : EscapesComplete (k.units x) := h.complete FillPhase.noConfusion hne
    have hesc := hgap.complete hrest
    have hescapes := units_escapes (k := k.toCharClass) hesc []
    have hhead := escapesText_head (y := []) hesc (by simp)
    rw [List.append_nil, units_nil, List.append_nil] at hescapes
    rw [List.append_nil] at hhead
    refine roomInv_newline h.doublespace ?_
    rw [units_append hx (.of_head hhead), hescapes]
    exact escapesComplete_append hx fun e he => hesc e (List.mem_filter.1 he).1

theorem RoomInv.step {st : FillState} (h : RoomInv k st) : RoomInv k (k.step st) := by
  obtain ⟨s, x, n, d, phase⟩ := st
  cases phase with
  | line => exact h.lineStep
  | words r p => exact h.wordStep
  | done => exact h

/-! ### The word that is moved -/

theorem nextWord_gap (hgap : ∀ u ∈ gap, u.isGap = true) (us : List FillUnit) :
    nextWord (gap ++ us) = nextWord us := by
  rw [nextWord, List.dropWhile_append_of_pos hgap, nextWord]

theorem units_behind {k : CharClass} (ht : ∀ c ∈ t.head?, k.iswspace c = true) :
    ∀ u ∈ (k.units t).head?, u.solid = false := by
  cases t with
  | nil => exact nofun
  | cons c t =>
    have hspace := ht c rfl
    have hesc : ¬ (c = '\x1B' ∧ t.head? = some '[') := by
      rintro ⟨rfl, -⟩
      rw [k.escape] at hspace
      cases hspace
    rw [units_cons hesc]
    rintro u ⟨⟩
    rw [CharClass.unitOf, if_pos hspace]
    split_ifs <;> rfl

theorem nextWord_word (hword : IsWord k.toCharClass word t) :
    nextWord (word ++ k.units t) = word := by
  obtain ⟨c, vs, hfirst⟩ := hword.first
  have hbehind := units_behind hword.behind
  have hdrop : (word ++ k.units t).dropWhile FillUnit.isGap = word ++ k.units t := by
    rw [hfirst]
    rfl
  rw [nextWord, hdrop, List.takeWhile_append_of_pos hword.solid]
  cases hrest : k.units t with
  | nil => simp
  | cons u us =>
    rw [hrest] at hbehind
    rw [List.takeWhile_cons_of_neg (by simp [hbehind u rfl]), List.append_nil]

theorem not_fitsOnlyOnce {st : FillState} (h : st.pendspace = 0) : ¬ FitsOnlyOnce k st := by
  rintro ⟨-, hle, hlt⟩
  unfold lineWith at hle hlt
  rw [h] at hle hlt
  omega

theorem not_fitsOnlyOnce_of_nil {st : FillState} (h : nextWord (k.units st.s) = []) :
    ¬ FitsOnlyOnce k st := fun hfits => hfits.1 h

theorem greedyAt_of_line {st : FillState} (h : (k.step st).line = st.line) : GreedyAt k st :=
  fun hmoves => by
    rw [MovesWord, h] at hmoves
    omega

/-- A round of the loop over the words moves no word that fits, unless it only fits behind the
pending spaces counted once. -/
theorem wordStep_greedy {r : ℤ} {p n d : ℕ} (h : RoomInv k ⟨s, x, n, d, .words r p⟩) :
    GreedyAt k ⟨s, x, n, d, .words r p⟩ ↔ ¬ FitsOnlyOnce k ⟨s, x, n, d, .words r p⟩ := by
  have hround : WordRound k r p ⟨s, x, n, d, .words r p⟩ (k.step ⟨s, x, n, d, .words r p⟩) :=
    wordStep_round k r p ⟨s, x, n, d, .words r p⟩
  obtain ⟨hroom, -⟩ := h.words r p rfl
  dsimp only at hroom
  have hgreedy := @greedyAt_of_line k ⟨s, x, n, d, .words r p⟩
  have hmove : ∀ m, (k.step ⟨s, x, n, d, .words r p⟩).line = m → m = n + 1 →
      MovesWord k ⟨s, x, n, d, .words r p⟩ := fun m hm h => by rw [MovesWord, hm, h]
  generalize k.step ⟨s, x, n, d, .words r p⟩ = st' at hround hgreedy hmove
  cases hround with
  | @newline gap t hunits hblank hgap =>
    refine iff_of_true (hgreedy rfl) (not_fitsOnlyOnce_of_nil ?_)
    rw [hunits, nextWord_gap hgap.units, units_newline]
    rfl
  | @stop gap t hunits hgap ht =>
    refine iff_of_true (hgreedy rfl) (not_fitsOnlyOnce_of_nil ?_)
    rw [hunits, nextWord_gap hgap.units]
    by_cases hnil : t = []
    · rw [hnil, units_nil]
      rfl
    · obtain ⟨t', rfl⟩ := List.head?_eq_some_iff.1 (ht hnil).1
      rw [units_newline]
      rfl
  | @put gap word t hunits hgap hword hfits =>
    refine iff_of_true (hgreedy rfl) ?_
    rintro ⟨-, hle, hlt⟩
    simp only [lineWith, FillState.pendspace, hunits, nextWord_gap hgap.units,
      nextWord_word hword] at hle hlt
    omega
  | @wrap gap word t hunits hword' hgap hword hfits =>
    obtain ⟨c, vs, hfirst⟩ := hword.first
    have hnext : nextWord (k.units s) = word := by
      rw [hunits, nextWord_gap hgap.units, nextWord_word hword]
    have hmoves := hmove _ rfl rfl
    simp only [GreedyAt, FitsOnlyOnce, hmoves, lineWith, FillState.pendspace, hnext, true_imp_iff]
    have hne : word ≠ [] := by
      rw [hfirst]
      exact List.cons_ne_nil _ _
    simp only [hne, ne_eq, not_false_eq_true, true_and, not_and, not_lt]
    omega

/-- What the text on the line and the pending spaces leave decides every round. -/
theorem greedyAt_iff {st : FillState} (h : RoomInv k st) : GreedyAt k st ↔ ¬ FitsOnlyOnce k st := by
  obtain ⟨s, x, n, d, phase⟩ := st
  cases phase with
  | words r p => exact wordStep_greedy h
  | done => exact iff_of_true (greedyAt_of_line rfl) (not_fitsOnlyOnce rfl)
  | line =>
    refine iff_of_true (fun hmoves => ?_) (not_fitsOnlyOnce rfl)
    have hline : (k.lineStep ⟨s, x, n, d, .line⟩).line = n + 1 := hmoves
    unfold FillConfig.lineStep at hline
    split at hline
    · exact absurd hline (Nat.succ_ne_zero n).symm
    · exact absurd hline (Nat.succ_ne_self n).symm
    · exact absurd hline (Nat.succ_ne_self n).symm

end Greedy

/-- The states of a run. -/
def fillState (k : FillConfig) (text : List Char) (n : ℕ) : FillState := k.step^[n] (fillStart text)

theorem roomInv_run (k : FillConfig) (text : List Char) (n : ℕ) : RoomInv k (fillState k text n) := by
  induction n with
  | zero => exact roomInv_start k text
  | succ n ih =>
    rw [fillState, Function.iterate_succ_apply']
    exact ih.step

/-- The filling of a text is greedy, and at each round, if and only if no word is met that fits
behind the pending spaces but not behind twice as many. -/
theorem fillParagraph_greedy_iff (k : FillConfig) (text : List Char) :
    (∀ n, GreedyAt k (fillState k text n) ↔ ¬ FitsOnlyOnce k (fillState k text n)) ∧
      ((∀ n, GreedyAt k (fillState k text n)) ↔ ∀ n, ¬ FitsOnlyOnce k (fillState k text n)) :=
  ⟨fun n => greedyAt_iff (roomInv_run k text n),
    forall_congr' fun n => greedyAt_iff (roomInv_run k text n)⟩

/-- In lines of 20 columns the second word stands behind the first one: 10 + 1 + 9. -/
theorem fillParagraph_moves_fitting :
    ¬ GreedyAt { plainFill with formWidth := 20 }
      (fillState { plainFill with formWidth := 20 } "aaaaaaaaaa bbbbbbbbb".toList 2) := by
  intro h
  have hmoves : MovesWord { plainFill with formWidth := 20 }
      (fillState { plainFill with formWidth := 20 } "aaaaaaaaaa bbbbbbbbb".toList 2) := by
    unfold MovesWord
    decide +kernel
  have hfits : lineWith { plainFill with formWidth := 20 }
      (fillState { plainFill with formWidth := 20 } "aaaaaaaaaa bbbbbbbbb".toList 2) 1 = 20 := by
    decide +kernel
  exact absurd (h hmoves) (by rw [hfits]; decide)

end Remind
