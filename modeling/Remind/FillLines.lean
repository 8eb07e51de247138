import Remind.FillUnits

/-!
# FillLines — what a filled paragraph has of its line

A line of the text becomes a paragraph: lines with an indent, which hold the words and the escape
sequences of the line in their order.
-/

namespace Remind

/-- A line of the output. -/
structure FillLine where
  indent : ℕ
  units : List FillUnit

def FillLine.text (l : FillLine) : List Char :=
  List.replicate l.indent ' ' ++ unitsText l.units

def FillLine.words (l : FillLine) : List (List Char) := unitWords l.units

/-- The text of lines. -/
def linesText (ls : List FillLine) : List Char := List.intercalate ['\n'] (ls.map FillLine.text)

/-- The lines `para` are the line `line` of the text, filled. -/
structure Fills (k : FillConfig) (line : List FillUnit) (para : List FillLine) : Prop where
  solid : (para.flatMap FillLine.units).filter FillUnit.solid = line.filter FillUnit.solid
  words : para.flatMap FillLine.words = unitWords line
  layout : ∀ l ∈ para, ∀ u ∈ l.units, u.solid = true ∨ u = .blank ' '
  firstIndent : ∀ l ∈ para.head?, l.indent = k.firstIndent
  subsIndent : ∀ l ∈ para.tail, l.indent = k.subsIndent
  fits : ∀ l ∈ para, l.indent + k.width l.units ≤ k.formWidth ∨ l.words.length = 1

/-- The law: a paragraph for each line of the text. -/
def FillsText (k : FillConfig) (s output : List Char) : Prop :=
  ∃ paras, List.Forall₂ (Fills k) (unitLines (k.units s)) paras ∧
    output = List.intercalate ['\n'] (paras.map linesText)

/-- What a line ends in: a gap, a word with the escape sequences directly behind it, or an escape
sequence that stands alone, with what follows it. -/
inductive LineEnd where
  | gap
  | word
  | loose
  deriving DecidableEq

def lineScan : LineEnd → FillUnit → LineEnd
  | .word, .escape _ => .word
  | _, .escape _ => .loose
  | _, .char _ => .word
  | .loose, _ => .loose
  | _, _ => .gap

def lineEnd (line : List FillUnit) : LineEnd := line.foldl lineScan .gap

/-- Where a line without words gets an indent, the indent is not wider than the line. -/
structure FillsWide (k : FillConfig) (lines : List (List FillUnit)) : Prop where
  escapes : ∀ line ∈ lines, unitWords line = [] → (∃ e, .escape e ∈ line) →
    k.firstIndent ≤ k.formWidth
  blanks : ∀ line ∈ lines.head?, unitWords line = [] → line ≠ [] → k.firstIndent ≤ k.formWidth

/-- Only the last line may end in an escape sequence that stands alone. -/
structure FillsWell (k : FillConfig) (lines : List (List FillUnit)) : Prop
    extends FillsWide k lines where
  ends : ∀ line ∈ lines.dropLast, lineEnd line ≠ .loose

/-! ### Words -/

section Words

variable {us gap word : List FillUnit}

/-- No word is being read. -/
def WordClosed (us : List FillUnit) : Prop := (us.foldl wordScan ([], [])).2 = []

/-- The visible characters of a word. -/
def wordChars (word : List FillUnit) : List Char :=
  word.flatMap fun
    | .char c => [c]
    | _ => []

theorem foldl_wordScan_gap (h : ∀ u ∈ gap, u.isGap = true) (r : List (List Char) × List Char) :
    (gap.foldl wordScan r).1 ++
        (if (gap.foldl wordScan r).2 = [] then [] else [(gap.foldl wordScan r).2]) =
      r.1 ++ if r.2 = [] then [] else [r.2] := by
  induction gap generalizing r with
  | nil => rfl
  | cons u gap ih =>
    have hu := h u List.mem_cons_self
    rw [List.foldl_cons, ih fun v hv => h v (List.mem_cons_of_mem _ hv)]
    cases u with
    | escape e => rfl
    | blank c =>
      simp only [wordScan, if_true]
      split_ifs <;> simp
    | char c => cases hu
    | newline => cases hu

theorem unitWords_gap (us : List FillUnit) (h : ∀ u ∈ gap, u.isGap = true) :
    unitWords (us ++ gap) = unitWords us := by
  rw [unitWords, List.foldl_append, foldl_wordScan_gap h, unitWords]

theorem foldl_wordScan_closed (h : ∀ u ∈ gap, u.isGap = true)
    {r : List (List Char) × List Char} (hr : r.2 = []) : (gap.foldl wordScan r).2 = [] := by
  induction gap generalizing r with
  | nil => exact hr
  | cons u gap ih =>
    have hu := h u List.mem_cons_self
    refine ih (fun v hv => h v (List.mem_cons_of_mem _ hv)) ?_
    cases u with
    | escape e => exact hr
    | blank c => rfl
    | char c => cases hu
    | newline => cases hu

theorem WordClosed.append_gap (hus : WordClosed us) (h : ∀ u ∈ gap, u.isGap = true) :
    WordClosed (us ++ gap) := by
  rw [WordClosed, List.foldl_append]
  exact foldl_wordScan_closed h hus

/-- A gap with a blank ends the word. -/
theorem closed_of_blank (us : List FillUnit) (h : ∀ u ∈ gap, u.isGap = true) {c : Char}
    (hc : .blank c ∈ gap) : WordClosed (us ++ gap) := by
  obtain ⟨front, back, rfl⟩ := List.append_of_mem hc
  rw [WordClosed, List.foldl_append, List.foldl_append, List.foldl_cons]
  exact foldl_wordScan_closed (fun u hu => h u (by simp [hu])) rfl

theorem foldl_wordScan_word (h : ∀ u ∈ word, u.solid = true)
    (r : List (List Char) × List Char) :
    word.foldl wordScan r = (r.1, r.2 ++ wordChars word) := by
  induction word generalizing r with
  | nil => rw [wordChars, List.flatMap_nil, List.append_nil]; rfl
  | cons u word ih =>
    have hu := h u List.mem_cons_self
    rw [List.foldl_cons, ih fun v hv => h v (List.mem_cons_of_mem _ hv)]
    cases u with
    | escape e => rfl
    | char c => simp only [wordScan, wordChars, List.flatMap_cons, List.append_assoc]
    | blank c => cases hu
    | newline => cases hu

/-- A word behind a gap. -/
theorem unitWords_word (hus : WordClosed us) (h : ∀ u ∈ word, u.solid = true)
    (hfirst : ∃ c vs, word = .char c :: vs) :
    unitWords (us ++ word) = unitWords us ++ [wordChars word] := by
  obtain ⟨c, vs, rfl⟩ := hfirst
  rw [unitWords, List.foldl_append, foldl_wordScan_word h, unitWords]
  rw [WordClosed] at hus
  simp only [hus, List.nil_append, if_true, List.append_nil]
  rw [if_neg]
  simp [wordChars]

end Words

/-! ### Lines -/

theorem foldl_lineScan_gap {gap : List FillUnit} (h : ∀ u ∈ gap, u.isGap = true) {e : LineEnd}
    (he : e ≠ .word) (hesc : e = .loose ∨ ∃ x, .escape x ∈ gap) :
    gap.foldl lineScan e = .loose := by
  induction gap generalizing e with
  | nil =>
    rcases hesc with rfl | ⟨x, hx⟩
    · rfl
    · cases hx
  | cons u gap ih =>
    have hu := h u List.mem_cons_self
    have hgap : ∀ v ∈ gap, v.isGap = true := fun v hv => h v (List.mem_cons_of_mem _ hv)
    rw [List.foldl_cons]
    cases u with
    | escape x =>
      cases e with
      | word => exact absurd rfl he
      | gap => exact ih hgap nofun (.inl rfl)
      | loose => exact ih hgap nofun (.inl rfl)
    | blank c =>
      cases e with
      | word => exact absurd rfl he
      | gap =>
        refine ih hgap nofun ?_
        obtain h | ⟨x, hx⟩ := hesc
        · cases h
        · exact .inr ⟨x, by simpa using hx⟩
      | loose => exact ih hgap nofun (.inl rfl)
    | char c => cases hu
    | newline => cases hu

theorem foldl_lineScan_blanks {gap : List FillUnit} (h : ∀ u ∈ gap, u.isGap = true)
    (hs : ∀ u ∈ gap, u.solid = false) {e : LineEnd} (he : e ≠ .loose) :
    gap.foldl lineScan e ≠ .loose := by
  induction gap generalizing e with
  | nil => exact he
  | cons u gap ih =>
    have hu := hs u List.mem_cons_self
    have hug := h u List.mem_cons_self
    refine ih (fun v hv => h v (List.mem_cons_of_mem _ hv))
      (fun v hv => hs v (List.mem_cons_of_mem _ hv)) ?_
    cases u with
    | blank c =>
      cases e with
      | loose => exact absurd rfl he
      | _ => exact LineEnd.noConfusion
    | newline => cases hug
    | _ => cases hu

theorem foldl_lineScan_not_word {gap : List FillUnit} (h : ∀ u ∈ gap, u.isGap = true)
    {e : LineEnd} (he : e ≠ .word) : gap.foldl lineScan e ≠ .word := by
  induction gap generalizing e with
  | nil => exact he
  | cons u gap ih =>
    have hu := h u List.mem_cons_self
    refine ih (fun v hv => h v (List.mem_cons_of_mem _ hv)) ?_
    cases u with
    | escape x =>
      cases e with
      | word => exact absurd rfl he
      | _ => exact LineEnd.noConfusion
    | blank c =>
      cases e with
      | word => exact absurd rfl he
      | _ => exact LineEnd.noConfusion
    | _ => cases hu

theorem foldl_lineScan_word {word : List FillUnit} (h : ∀ u ∈ word, u.solid = true) :
    word.foldl lineScan .word = .word := by
  induction word with
  | nil => rfl
  | cons u word ih =>
    have hu := h u List.mem_cons_self
    have htail := ih fun v hv => h v (List.mem_cons_of_mem _ hv)
    cases u with
    | escape x => exact htail
    | char c => exact htail
    | blank c => cases hu
    | newline => cases hu

/-- Behind a word. -/
theorem lineEnd_word (us : List FillUnit) {word : List FillUnit}
    (h : ∀ u ∈ word, u.solid = true) (hfirst : ∃ c vs, word = .char c :: vs) :
    lineEnd (us ++ word) = .word := by
  obtain ⟨c, vs, rfl⟩ := hfirst
  rw [lineEnd, List.foldl_append, List.foldl_cons]
  have hchar : lineScan (us.foldl lineScan .gap) (.char c) = .word := by
    cases us.foldl lineScan .gap <;> rfl
  rw [hchar]
  exact foldl_lineScan_word fun v hv => h v (List.mem_cons_of_mem _ hv)

/-- The lines of a text that is read up to the middle of a line. -/
theorem unitLines_append {done : List (List FillUnit)} (h : ∀ l ∈ done, .newline ∉ l)
    (us : List FillUnit) :
    unitLines (done.flatMap (· ++ [FillUnit.newline]) ++ us) = done ++ unitLines us := by
  unfold unitLines
  induction done with
  | nil => rfl
  | cons l done ih =>
    have hl := h l List.mem_cons_self
    rw [List.flatMap_cons, List.append_assoc, List.append_assoc, List.singleton_append,
      List.splitOn_append_cons_self_of_not_mem hl, ih fun m hm => h m (List.mem_cons_of_mem _ hm)]
    rfl

theorem unitLines_last {us : List FillUnit} (h : .newline ∉ us) : unitLines us = [us] :=
  List.splitOn_eq_singleton h

theorem unitLines_cons {us : List FillUnit} (h : .newline ∉ us) (vs : List FillUnit) :
    unitLines (us ++ .newline :: vs) = us :: unitLines vs :=
  List.splitOn_append_cons_self_of_not_mem h vs

theorem intercalate_snoc {α β : Type} (sep : List β) (f : α → List β) (xs : List α) (x : α) :
    List.intercalate sep ((xs ++ [x]).map f) = xs.flatMap (fun x => f x ++ sep) ++ f x := by
  induction xs with
  | nil => simp [List.intercalate]
  | cons y xs ih =>
    rw [List.flatMap_cons, List.append_assoc, ← ih, List.cons_append, List.map_cons]
    rw [List.intercalate_cons_of_ne_nil (by simp)]

/-! ### Paragraphs -/

section Paragraphs

variable {k : FillConfig} {cur gap word : List FillUnit} {lines : List FillLine} {l : FillLine}

theorem solid_gap (h : ∀ u ∈ gap, u.isGap = true) :
    gap.filter FillUnit.solid = gap.filter FillUnit.isEscape := by
  refine List.filter_congr fun u hu => ?_
  have hgap := h u hu
  cases u <;> first | rfl | cases hgap

theorem escape_isGap : ∀ u ∈ gap.filter FillUnit.isEscape, u.isGap = true := by
  intro u hu
  have hesc := (List.mem_filter.1 hu).2
  cases u <;> first | rfl | cases hesc

/-- The spaces before a word. -/
def spaces (n : ℕ) : List FillUnit := List.replicate n (.blank ' ')

theorem spaces_text (n : ℕ) : unitsText (spaces n) = List.replicate n ' ' := by
  induction n with
  | zero => rfl
  | succ n ih =>
    rw [spaces, List.replicate_succ, unitsText_cons, ← spaces, ih]
    rfl

theorem spaces_width (n : ℕ) : k.width (spaces n) = n := by
  induction n with
  | zero => rfl
  | succ n ih =>
    show k.wcwidth ' ' + k.width (spaces n) = n + 1
    rw [ih, k.width_space, Nat.add_comm]

theorem FillLine.text_append (l : FillLine) (us : List FillUnit) :
    FillLine.text { l with units := l.units ++ us } = l.text ++ unitsText us := by
  simp only [FillLine.text, unitsText_append, List.append_assoc]

/-- Blanks change nothing. -/
theorem Fills.blanks (h : Fills k cur lines) (hgap : ∀ u ∈ gap, u.isGap = true)
    (hs : ∀ u ∈ gap, u.solid = false) : Fills k (cur ++ gap) lines where
  solid := by
    have hnone : gap.filter FillUnit.solid = [] := by
      rw [List.filter_eq_nil_iff]
      simpa using hs
    rw [h.solid, List.filter_append, hnone, List.append_nil]
  words := by rw [h.words, unitWords_gap _ hgap]
  layout := h.layout
  firstIndent := h.firstIndent
  subsIndent := h.subsIndent
  fits := h.fits

theorem Fills.nil (hgap : ∀ u ∈ gap, u.isGap = true) (hs : ∀ u ∈ gap, u.solid = false) :
    Fills k gap [] := by
  have hempty : Fills k [] [] := ⟨rfl, rfl, nofun, nofun, nofun, nofun⟩
  simpa using hempty.blanks hgap hs

/-- A line more. -/
theorem Fills.snoc {us : List FillUnit} {ws : List (List Char)} (h : Fills k cur lines)
    (hsolid : l.units.filter FillUnit.solid = us.filter FillUnit.solid)
    (hline : l.words = ws) (hwords : unitWords (cur ++ us) = unitWords cur ++ ws)
    (hlayout : ∀ u ∈ l.units, u.solid = true ∨ u = .blank ' ')
    (hindent : l.indent = if lines = [] then k.firstIndent else k.subsIndent)
    (hfits : l.indent + k.width l.units ≤ k.formWidth ∨ ws.length = 1) :
    Fills k (cur ++ us) (lines ++ [l]) where
  solid := by
    rw [List.flatMap_append, List.filter_append, h.solid, List.flatMap_singleton, hsolid,
      List.filter_append]
  words := by rw [List.flatMap_append, h.words, List.flatMap_singleton, hline, hwords]
  layout := by
    intro m hm
    rcases List.mem_append.1 hm with hm | hm
    · exact h.layout m hm
    · rwa [List.mem_singleton.1 hm]
  firstIndent := by
    cases lines with
    | nil => rintro m ⟨⟩; rwa [if_pos rfl] at hindent
    | cons m ms => exact h.firstIndent
  subsIndent := by
    cases lines with
    | nil => exact nofun
    | cons m ms =>
      intro x hx
      rcases List.mem_append.1 hx with hx | hx
      · exact h.subsIndent x hx
      · rw [List.mem_singleton.1 hx, hindent, if_neg (List.cons_ne_nil m ms)]
  fits := by
    intro m hm
    rcases List.mem_append.1 hm with hm | hm
    · exact h.fits m hm
    · rw [List.mem_singleton.1 hm, hline]
      exact hfits

/-- More units for the last line. -/
theorem Fills.extend {us vs : List FillUnit} {ws : List (List Char)}
    (h : Fills k cur (lines ++ [l]))
    (hsolid : vs.filter FillUnit.solid = us.filter FillUnit.solid)
    (hline : unitWords (l.units ++ vs) = l.words ++ ws)
    (hwords : unitWords (cur ++ us) = unitWords cur ++ ws)
    (hlayout : ∀ u ∈ vs, u.solid = true ∨ u = .blank ' ')
    (hfits : l.indent + k.width (l.units ++ vs) ≤ k.formWidth ∨ (l.words ++ ws).length = 1) :
    Fills k (cur ++ us) (lines ++ [{ l with units := l.units ++ vs }]) where
  solid := by
    have hold := h.solid
    rw [List.flatMap_append, List.filter_append, List.flatMap_singleton] at hold ⊢
    rw [List.filter_append, hsolid, List.filter_append, ← hold, List.append_assoc]
  words := by
    have hold := h.words
    rw [List.flatMap_append, List.flatMap_singleton] at hold ⊢
    rw [FillLine.words, hline, hwords, ← hold, List.append_assoc]
  layout := by
    intro m hm
    rcases List.mem_append.1 hm with hm | hm
    · exact h.layout m (List.mem_append_left _ hm)
    · rw [List.mem_singleton.1 hm]
      intro u hu
      rcases List.mem_append.1 hu with hu | hu
      · exact h.layout l (by simp) u hu
      · exact hlayout u hu
  firstIndent := by
    have hold := h.firstIndent
    cases lines with
    | nil => simpa using hold
    | cons m ms => exact hold
  subsIndent := by
    have hold := h.subsIndent
    cases lines with
    | nil => exact nofun
    | cons m ms =>
      intro x hx
      rcases List.mem_append.1 hx with hx | hx
      · exact hold x (List.mem_append_left _ hx)
      · rw [List.mem_singleton.1 hx]
        exact hold l (by simp)
  fits := by
    intro m hm
    rcases List.mem_append.1 hm with hm | hm
    · exact h.fits m (List.mem_append_left _ hm)
    · rw [List.mem_singleton.1 hm]
      rw [← hline] at hfits
      exact hfits

/-- The escape sequences behind the last word of a line. -/
theorem Fills.escapes (h : Fills k cur (lines ++ [l])) (hgap : ∀ u ∈ gap, u.isGap = true) :
    Fills k (cur ++ gap)
      (lines ++ [{ l with units := l.units ++ gap.filter FillUnit.isEscape }]) := by
  have hesc : ∀ u ∈ gap.filter FillUnit.isEscape, u.isEscape = true := fun u hu =>
    (List.mem_filter.1 hu).2
  refine @Fills.extend _ _ _ _ _ _ [] h ?_ ?_ ?_ ?_ ?_
  · rw [solid_gap hgap, solid_gap escape_isGap, List.filter_filter]
    simp only [Bool.and_self]
  · rw [unitWords_gap _ escape_isGap, FillLine.words, List.append_nil]
  · rw [unitWords_gap _ hgap, List.append_nil]
  · intro u hu
    have hu := hesc u hu
    cases u <;> first | exact .inl rfl | cases hu
  · rw [width_append, width_escapes hesc, List.append_nil]
    exact h.fits l (by simp)

/-- What a round puts into a line: escape sequences, spaces and a word. -/
def putUnits (gap : List FillUnit) (p : ℕ) (word : List FillUnit) : List FillUnit :=
  gap.filter FillUnit.isEscape ++ spaces p ++ word

theorem putUnits_text (gap : List FillUnit) (p : ℕ) (word : List FillUnit) :
    unitsText (putUnits gap p word) = escapesText gap ++ List.replicate p ' ' ++ unitsText word := by
  rw [putUnits, unitsText_append, unitsText_append, spaces_text, escapesText]

theorem putUnits_solid {p : ℕ} (hgap : ∀ u ∈ gap, u.isGap = true)
    (hword : ∀ u ∈ word, u.solid = true) :
    (putUnits gap p word).filter FillUnit.solid = (gap ++ word).filter FillUnit.solid := by
  have hspaces : (spaces p).filter FillUnit.solid = [] := by
    rw [List.filter_eq_nil_iff]
    intro u hu
    rw [List.eq_of_mem_replicate hu]
    exact Bool.false_ne_true
  rw [putUnits, List.filter_append, List.filter_append, hspaces, List.append_nil,
    List.filter_append, solid_gap hgap, solid_gap escape_isGap, List.filter_filter]
  simp only [Bool.and_self]

theorem putUnits_layout {p : ℕ} (hword : ∀ u ∈ word, u.solid = true) :
    ∀ u ∈ putUnits gap p word, u.solid = true ∨ u = .blank ' ' := by
  intro u hu
  rcases List.mem_append.1 hu with hu | hu
  · rcases List.mem_append.1 hu with hu | hu
    · have hesc := (List.mem_filter.1 hu).2
      cases u <;> first | exact .inl rfl | cases hesc
    · exact .inr (List.eq_of_mem_replicate hu)
  · exact .inl (hword u hu)

theorem putUnits_width (p : ℕ) : k.width (putUnits gap p word) = p + k.width word := by
  have hesc : k.width (gap.filter FillUnit.isEscape) = 0 :=
    width_escapes fun u hu => (List.mem_filter.1 hu).2
  rw [putUnits, width_append, width_append, hesc, spaces_width, Nat.zero_add]

/-- The word is a word of its own behind the spaces. -/
theorem putUnits_words {us : List FillUnit} {p : ℕ} {t : List Char}
    (hword : IsWord k.toCharClass word t) (hclosed : us = [] ∨ p ≠ 0) :
    unitWords (us ++ putUnits gap p word) = unitWords us ++ [wordChars word] := by
  have hgap : ∀ u ∈ gap.filter FillUnit.isEscape ++ spaces p, u.isGap = true := by
    intro u hu
    rcases List.mem_append.1 hu with hu | hu
    · exact escape_isGap u hu
    · rw [List.eq_of_mem_replicate hu]
      rfl
  have hgapClosed : WordClosed (us ++ (gap.filter FillUnit.isEscape ++ spaces p)) := by
    rcases hclosed with rfl | hp
    · exact @WordClosed.append_gap [] _ rfl hgap
    · refine closed_of_blank us hgap (c := ' ') (List.mem_append_right _ ?_)
      exact List.mem_replicate.2 ⟨hp, rfl⟩
  rw [putUnits, ← List.append_assoc, unitWords_word hgapClosed hword.solid hword.first,
    unitWords_gap _ hgap]

/-- A word behind the others of its line. -/
theorem Fills.put {p : ℕ} {t : List Char} (h : Fills k cur (lines ++ [l]))
    (hgap : ∀ u ∈ gap, u.isGap = true) (hclosed : WordClosed (cur ++ gap))
    (hword : IsWord k.toCharClass word t) (hp : p ≠ 0)
    (hfits : l.indent + k.width l.units + p + k.width word ≤ k.formWidth) :
    Fills k (cur ++ (gap ++ word))
      (lines ++ [{ l with units := l.units ++ putUnits gap p word }]) := by
  refine h.extend (putUnits_solid hgap hword.solid) (putUnits_words hword (.inr hp)) ?_
    (putUnits_layout hword.solid) (.inl ?_)
  · rw [← List.append_assoc, unitWords_word hclosed hword.solid hword.first, unitWords_gap _ hgap]
  · rw [width_append, putUnits_width]
    omega

/-- The first word of a line. -/
theorem Fills.start {j : ℕ} {t : List Char} (h : Fills k cur lines)
    (hgap : ∀ u ∈ gap, u.isGap = true) (hclosed : WordClosed (cur ++ gap))
    (hword : IsWord k.toCharClass word t)
    (hindent : j = if lines = [] then k.firstIndent else k.subsIndent) :
    Fills k (cur ++ (gap ++ word)) (lines ++ [⟨j, putUnits gap 0 word⟩]) := by
  refine h.snoc (putUnits_solid hgap hword.solid) (putUnits_words hword (.inl (rfl : [] = []))) ?_
    (putUnits_layout hword.solid) hindent (.inr rfl)
  rw [← List.append_assoc, unitWords_word hclosed hword.solid hword.first, unitWords_gap _ hgap]
  rfl

/-- A line without words. -/
theorem Fills.wordless (hgap : ∀ u ∈ gap, u.isGap = true) (hblank : Fills k cur [])
    (hwide : k.firstIndent ≤ k.formWidth) :
    Fills k (cur ++ gap) [⟨k.firstIndent, gap.filter FillUnit.isEscape⟩] := by
  have hesc : ∀ u ∈ gap.filter FillUnit.isEscape, u.isEscape = true := fun u hu =>
    (List.mem_filter.1 hu).2
  refine @Fills.snoc _ _ _ _ _ [] hblank ?_ ?_ ?_ ?_ rfl (.inl ?_)
  · rw [solid_gap hgap, solid_gap escape_isGap, List.filter_filter]
    simp only [Bool.and_self]
  · exact unitWords_gap [] escape_isGap
  · rw [unitWords_gap _ hgap, List.append_nil]
  · intro u hu
    have hu := hesc u hu
    cases u <;> first | exact .inl rfl | cases hu
  · show k.firstIndent + k.width _ ≤ _
    rw [width_escapes hesc]
    exact hwide

end Paragraphs

end Remind
