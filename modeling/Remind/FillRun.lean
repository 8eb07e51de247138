import Remind.FillLines

/-!
# FillRun — a run of the filling of a paragraph

What holds after each round, of the part of the text that has been read.
-/

namespace Remind

open Lib

/-- The part of the text that has been read: whole lines with their paragraphs, and `cur` of the
line that is being read; `s` is left. -/
structure FillsUpTo (k : FillConfig) (text : List Char)
    (done : List (List FillUnit × List FillLine)) (cur : List FillUnit) (s : List Char) : Prop where
  read : k.units text = (done.map Prod.fst).flatMap (· ++ [FillUnit.newline]) ++ (cur ++ k.units s)
  inLines : ∀ line ∈ done.map Prod.fst, .newline ∉ line
  inCur : .newline ∉ cur
  fills : ∀ d ∈ done, Fills k d.1 d.2
  ends : ∀ d ∈ done, lineEnd d.1 ≠ .loose

/-- The output of whole lines. -/
def doneText (done : List (List FillUnit × List FillLine)) : List Char :=
  done.flatMap fun d => linesText d.2 ++ ['\n']

/-- The output of lines of a paragraph that goes on. -/
def brokenText (lines : List FillLine) : List Char := lines.flatMap fun l => l.text ++ ['\n']

/-- The start of a line of the text: a blank may stand there only at the start of the text. -/
structure AtStart (k : FillConfig) (done : List (List FillUnit × List FillLine))
    (cur : List FillUnit) (s : List Char) : Prop where
  gap : ∀ u ∈ cur, u.isGap = true
  blank : ∀ u ∈ cur, u.solid = false
  first : (∀ c ∈ s.head?, k.isWBlank c = false) ∨ done = [] ∧ cur = []

/-- A word that has not fit is left to read. -/
structure AtWord (k : FillConfig) (cur : List FillUnit) (lines : List FillLine)
    (s : List Char) : Prop where
  word : ∃ word t, s = unitsText word ++ t ∧ k.units s = word ++ k.units t ∧
    IsWord k.toCharClass word t
  fills : Fills k cur lines
  some : lines ≠ []
  closed : WordClosed cur

/-- The invariant of the run. -/
inductive FillInv (k : FillConfig) (text : List Char) : FillState → Prop
  | fresh {done cur s d} : FillsUpTo k text done cur s → AtStart k done cur s →
      FillInv k text ⟨s, doneText done, 0, d, .line⟩
  | finished {done cur lines s n d} : FillsUpTo k text done cur ('\n' :: s) → Fills k cur lines →
      lineEnd cur ≠ .loose →
      FillInv k text ⟨'\n' :: s, doneText done ++ linesText lines, n, d, .line⟩
  | wrapped {done cur lines s n d} : FillsUpTo k text done cur s → AtWord k cur lines s → n ≠ 0 →
      FillInv k text ⟨s, doneText done ++ brokenText lines, n, d, .line⟩
  | opened {done cur s n d} : FillsUpTo k text done cur s → AtStart k done cur s → s ≠ [] →
      s.head? ≠ some '\n' →
      FillInv k text ⟨s, doneText done ++ List.replicate k.firstIndent ' ', n, d,
        .words (k.formWidth - k.firstIndent) 0⟩
  | continued {done cur lines s n d} : FillsUpTo k text done cur s → AtWord k cur lines s →
      FillInv k text ⟨s, doneText done ++ brokenText lines ++ List.replicate k.subsIndent ' ', n, d,
        .words (k.formWidth - k.subsIndent) 0⟩
  | put {done cur lines l s n d} {p : ℕ} : FillsUpTo k text done cur s → Fills k cur (lines ++ [l]) →
      lineEnd cur = .word → (∀ c ∈ s.head?, k.iswspace c = true) → p ≠ 0 →
      FillInv k text ⟨s, doneText done ++ brokenText lines ++ l.text, n, d,
        .words (k.formWidth - (l.indent + k.width l.units : ℕ) - p) p⟩
  | ended {done cur lines s n d} : FillsUpTo k text done cur s → Fills k cur lines →
      (s ≠ [] → s.head? = some '\n' ∧ lineEnd cur = .loose ∧
        ∃ front e, linesText lines = front ++ e ∧ CompleteEscape e) →
      FillInv k text ⟨s, doneText done ++ linesText lines, n, d, .done⟩

section Reading

variable {k : FillConfig} {text s t : List Char} {done : List (List FillUnit × List FillLine)}
  {cur gap : List FillUnit} {lines : List FillLine} {l : FillLine}

theorem units_newline (t : List Char) : k.units ('\n' :: t) = .newline :: k.units t := by
  rw [units_cons fun h => absurd h.1 (by decide), CharClass.unitOf, if_pos rfl]

/-- More of the line is read. -/
theorem FillsUpTo.read_more {us : List FillUnit} (h : FillsUpTo k text done cur s)
    (hs : k.units s = us ++ k.units t) (hus : .newline ∉ us) :
    FillsUpTo k text done (cur ++ us) t where
  read := by rw [h.read, hs, List.append_assoc]
  inLines := h.inLines
  inCur := by
    rw [List.mem_append]
    exact not_or.2 ⟨h.inCur, hus⟩
  fills := h.fills
  ends := h.ends

theorem newline_not_gap (h : ∀ u ∈ gap, u.isGap = true) : .newline ∉ gap := fun hm => by
  cases h _ hm

theorem newline_not_solid {us : List FillUnit} (h : ∀ u ∈ us, u.solid = true) : .newline ∉ us :=
  fun hm => by cases h _ hm

/-- The line that is being read ends here. -/
theorem FillsUpTo.cur_mem (h : FillsUpTo k text done cur s)
    (hs : s ≠ [] → s.head? = some '\n') :
    ∃ rest, unitLines (k.units text) = done.map Prod.fst ++ cur :: rest := by
  rw [h.read, unitLines_append h.inLines]
  cases s with
  | nil => exact ⟨[], by rw [units_nil, List.append_nil, unitLines_last h.inCur]⟩
  | cons c s =>
    obtain rfl : c = '\n' := Option.some.inj (hs (List.cons_ne_nil _ _))
    exact ⟨unitLines (k.units s), by rw [units_newline, unitLines_cons h.inCur]⟩

theorem linesText_snoc (lines : List FillLine) (l : FillLine) :
    linesText (lines ++ [l]) = brokenText lines ++ l.text :=
  intercalate_snoc _ _ _ _

theorem brokenText_snoc (lines : List FillLine) (l : FillLine) :
    brokenText (lines ++ [l]) = brokenText lines ++ (l.text ++ ['\n']) := by
  rw [brokenText, List.flatMap_append, List.flatMap_singleton, brokenText]

theorem doneText_snoc (done : List (List FillUnit × List FillLine)) (cur : List FillUnit)
    (lines : List FillLine) :
    doneText (done ++ [(cur, lines)]) = doneText done ++ linesText lines ++ ['\n'] := by
  rw [doneText, List.flatMap_append, List.flatMap_singleton, doneText, List.append_assoc]

/-- A line is finished, and the blanks of the next one are read. -/
theorem FillsUpTo.next (h : FillsUpTo k text done cur ('\n' :: s)) (hfills : Fills k cur lines)
    (hend : lineEnd cur ≠ .loose) :
    FillsUpTo k text (done ++ [(cur, lines)]) ((s.takeWhile k.isWBlank).map .blank)
      (k.skipBlanks s) where
  read := by
    rw [h.read, units_newline, List.map_append, List.flatMap_append, ← skipBlanks_units]
    simp
  inLines := by
    intro line hline
    rw [List.map_append] at hline
    rcases List.mem_append.1 hline with hline | hline
    · exact h.inLines line hline
    · rw [List.mem_singleton.1 hline]
      exact h.inCur
  inCur := by simp
  fills := by
    intro d hd
    rcases List.mem_append.1 hd with hd | hd
    · exact h.fills d hd
    · rw [List.mem_singleton.1 hd]
      exact hfills
  ends := by
    intro d hd
    rcases List.mem_append.1 hd with hd | hd
    · exact h.ends d hd
    · rw [List.mem_singleton.1 hd]
      exact hend

theorem atStart_skipBlanks (done : List (List FillUnit × List FillLine)) (s : List Char) :
    AtStart k done ((s.takeWhile k.isWBlank).map .blank) (k.skipBlanks s) where
  gap := by simp [FillUnit.isGap]
  blank := by simp [FillUnit.solid]
  first := .inl (skipBlanks_head s)

/-- The next line of the text begins. -/
theorem FillInv.next_line {n d : ℕ} (h : FillsUpTo k text done cur ('\n' :: s))
    (hfills : Fills k cur lines) (hend : lineEnd cur ≠ .loose) :
    FillInv k text (k.step ⟨'\n' :: s, doneText done ++ linesText lines, n, d, .line⟩) := by
  have hnext := FillInv.fresh (d := d) (h.next hfills hend) (atStart_skipBlanks _ s)
  rwa [doneText_snoc] at hnext

theorem AtStart.closed (h : AtStart k done cur s) : WordClosed cur :=
  @WordClosed.append_gap [] _ rfl h.gap

theorem AtStart.fills (h : AtStart k done cur s) : Fills k cur [] := Fills.nil h.gap h.blank

theorem AtStart.not_loose (h : AtStart k done cur s) : lineEnd cur ≠ .loose :=
  foldl_lineScan_blanks h.gap h.blank LineEnd.noConfusion

/-- The first unit of a text whose first character is no part of an escape sequence. -/
theorem units_head {c : Char} {u : FillUnit} {us rest : List FillUnit}
    (h : k.units (c :: s) = u :: us ++ rest) (hu : u.isEscape = false) : u = k.unitOf c := by
  by_cases hc : c = '\x1B' ∧ s.head? = some '['
  · obtain ⟨rfl, hs⟩ := hc
    obtain ⟨t, rfl⟩ := List.head?_eq_some_iff.1 hs
    obtain ⟨es, hes, -, hesc, hne, -⟩ := outputEscapeSequences_units (k := k.toCharClass)
      ('\x1B' :: '[' :: t)
    cases es with
    | nil => exact absurd (hne rfl) (escapeLength_pos ⟨t, rfl⟩).ne'
    | cons e es =>
      rw [hes] at h
      have he := hesc e List.mem_cons_self
      rw [(List.cons.inj h).1, hu] at he
      cases he
  · rw [units_cons hc] at h
    exact (List.cons.inj h).1.symm

end Reading

/-! ### The rounds -/

section Rounds

variable {k : FillConfig} {text s t : List Char} {done : List (List FillUnit × List FillLine)}
  {cur gap word : List FillUnit} {lines : List FillLine} {l : FillLine} {n d : ℕ}

/-- A line without words that gets an indent has an escape sequence, or it is the first. -/
theorem AtStart.wide (hat : AtStart k done cur s) (hs : s ≠ []) (hnl : s.head? ≠ some '\n')
    (hwide : FillsWide k (unitLines (k.units text))) (hnext : FillsUpTo k text done (cur ++ gap) t)
    (hunits : k.units s = gap ++ k.units t) (hgap : ∀ u ∈ gap, u.isGap = true)
    (ht : t ≠ [] → t.head? = some '\n') : k.firstIndent ≤ k.formWidth := by
  obtain ⟨rest, hlines⟩ := hnext.cur_mem ht
  have hwords : unitWords (cur ++ gap) = [] := by
    have hcur := unitWords_gap [] hat.gap
    rw [unitWords_gap _ hgap]
    exact hcur
  obtain ⟨c, s', rfl⟩ := List.exists_cons_of_ne_nil hs
  cases gap with
  | nil =>
    -- nothing was read: the line would end at `s`
    exfalso
    have htne : t ≠ [] := by
      rintro rfl
      have hback := congrArg unitsText hunits
      rw [units_text] at hback
      cases hback
    obtain ⟨t', rfl⟩ := List.head?_eq_some_iff.1 (ht htne)
    have hback := congrArg unitsText hunits
    rw [units_text, List.nil_append, units_text] at hback
    exact hnl (by rw [hback]; rfl)
  | cons u us =>
    by_cases hesc : ∃ e, .escape e ∈ cur ++ u :: us
    · refine hwide.escapes _ ?_ hwords hesc
      rw [hlines]
      simp
    · have hu : u.isEscape = false := by
        cases u with
        | escape e => exact absurd ⟨e, by simp⟩ hesc
        | _ => rfl
      have hhead := units_head hunits hu
      have hblank : k.isWBlank c = true := by
        have hug := hgap u List.mem_cons_self
        rw [hhead, CharClass.unitOf] at hug
        rw [CharClass.isWBlank]
        split_ifs at hug with hc hsp
        · cases hug
        · rw [hsp, Bool.true_and, bne_iff_ne]
          exact hc
        · cases hug
      rcases hat.first with hfirst | ⟨rfl, rfl⟩
      · rw [hfirst c rfl] at hblank
        cases hblank
      · refine hwide.blanks (u :: us) ?_ hwords (List.cons_ne_nil _ _)
        rw [hlines]
        rfl

/-- The text of a gap with an escape sequence ends with one. -/
theorem escapesText_ends (hesc : ∃ e, .escape e ∈ gap)
    (hcomplete : ∀ e, .escape e ∈ gap → CompleteEscape e) :
    ∃ front e, escapesText gap = front ++ e ∧ CompleteEscape e := by
  obtain ⟨e, he⟩ := hesc
  have hne : gap.filter FillUnit.isEscape ≠ [] := by
    intro hnil
    have hmem : .escape e ∈ gap.filter FillUnit.isEscape := List.mem_filter.2 ⟨he, rfl⟩
    rw [hnil] at hmem
    cases hmem
  obtain ⟨front, u, hu⟩ := List.eq_nil_or_concat' _ |>.resolve_left hne
  have hlast : u ∈ gap.filter FillUnit.isEscape := by rw [hu]; simp
  obtain ⟨hmem, hisEscape⟩ := List.mem_filter.1 hlast
  cases u with
  | escape x =>
    refine ⟨unitsText front, x, ?_, hcomplete x hmem⟩
    rw [escapesText, hu, unitsText_append]
    simp [FillUnit.text]
  | _ => cases hisEscape

theorem sentenceSpace_pos (word : List Char) (hd : d ≠ 0) : k.sentenceSpace d word ≠ 0 := by
  induction word generalizing d with
  | nil => exact hd
  | cons c word ih =>
    refine ih ?_
    dsimp only
    split_ifs
    · decide
    · decide
    · exact hd

theorem newline_not_put (hgap : IsGap gap s) (hword : IsWord k.toCharClass word t) :
    .newline ∉ gap ++ word := by
  rw [List.mem_append]
  exact not_or.2 ⟨newline_not_gap hgap.units, newline_not_solid hword.solid⟩

/-- A word is put into the line `l`. -/
theorem FillInv.put_word {p q : ℕ} (h : FillsUpTo k text done cur t)
    (hfills : Fills k cur (lines ++ [{ l with units := l.units ++ putUnits gap p word }]))
    (hend : lineEnd cur = .word) (hbehind : ∀ c ∈ t.head?, k.iswspace c = true) (hq : q ≠ 0) :
    FillInv k text ⟨t, doneText done ++ brokenText lines ++ l.text ++ escapesText gap ++
        List.replicate p ' ' ++ unitsText word, n, d,
      .words (k.formWidth - (l.indent + k.width l.units : ℕ) - p - (k.width word + q)) q⟩ := by
  have hput := FillInv.put (n := n) (d := d) h hfills hend hbehind hq
  rw [FillLine.text_append, putUnits_text, width_append, putUnits_width] at hput
  have hroom : (k.formWidth : ℤ) - (l.indent + k.width l.units : ℕ) - p - (k.width word + q) =
      k.formWidth - (l.indent + (k.width l.units + (p + k.width word)) : ℕ) - q := by
    push_cast
    omega
  rw [hroom]
  simpa only [List.append_assoc] using hput

/-- A round at the start of a paragraph. -/
theorem opened_step (hwide : FillsWide k (unitLines (k.units text)))
    (h : FillsUpTo k text done cur s) (hat : AtStart k done cur s) (hs : s ≠ [])
    (hnl : s.head? ≠ some '\n') (hd : d ≠ 0) :
    FillInv k text (k.wordStep (k.formWidth - k.firstIndent) 0
      ⟨s, doneText done ++ List.replicate k.firstIndent ' ', n, d,
        .words (k.formWidth - k.firstIndent) 0⟩) := by
  have hround := wordStep_round k (k.formWidth - k.firstIndent) 0
    ⟨s, doneText done ++ List.replicate k.firstIndent ' ', n, d,
      .words (k.formWidth - k.firstIndent) 0⟩
  generalize k.wordStep _ _ _ = st' at hround ⊢
  cases hround with
  | @newline gap t hunits hblank hgap =>
    have hnext := h.read_more hunits (newline_not_gap hgap.units)
    have hindent := hat.wide hs hnl hwide hnext hunits hgap.units fun _ => rfl
    have hfills := hat.fills.wordless hgap.units hindent
    have hnone : gap.filter FillUnit.isEscape = [] := by
      rw [← solid_gap hgap.units, List.filter_eq_nil_iff]
      simpa using hblank
    have hend : lineEnd (cur ++ gap) ≠ .loose := by
      rw [lineEnd, List.foldl_append]
      exact foldl_lineScan_blanks hgap.units hblank hat.not_loose
    rw [hnone] at hfills
    have hfin := FillInv.finished (n := n) (d := d) hnext hfills hend
    simpa [linesText, FillLine.text, List.intercalate] using hfin
  | @stop gap t hunits hgap ht =>
    have hnext := h.read_more hunits (newline_not_gap hgap.units)
    have hindent := hat.wide hs hnl hwide hnext hunits hgap.units fun hne => (ht hne).1
    have hfills := hat.fills.wordless hgap.units hindent
    have hlines : linesText [⟨k.firstIndent, gap.filter FillUnit.isEscape⟩] =
        List.replicate k.firstIndent ' ' ++ escapesText gap := List.intercalate_singleton
    have hend := FillInv.ended (n := n) (d := d) hnext hfills fun hne => by
      obtain ⟨hhead, hesc⟩ := ht hne
      refine ⟨hhead, ?_, ?_⟩
      · rw [lineEnd, List.foldl_append]
        exact foldl_lineScan_gap hgap.units
          (foldl_lineScan_not_word hat.gap LineEnd.noConfusion) (.inr hesc)
      · obtain ⟨front, e, hfront, he⟩ := escapesText_ends hesc (hgap.complete hne)
        exact ⟨_, e, by rw [hlines, hfront, List.append_assoc], he⟩
    rw [hlines, ← List.append_assoc] at hend
    exact hend
  | @put gap word t hunits hgap hword hfits =>
    have hread : k.units s = (gap ++ word) ++ k.units t := by
      rw [List.append_assoc]
      exact hunits
    have hnext := h.read_more hread (newline_not_put hgap hword)
    have hfills := hat.fills.start (j := k.firstIndent) hgap.units
      (hat.closed.append_gap hgap.units) hword rfl
    have hend : lineEnd (cur ++ (gap ++ word)) = .word := by
      rw [← List.append_assoc]
      exact lineEnd_word _ hword.solid hword.first
    have hput := @FillInv.put_word _ _ _ _ _ _ _ [] ⟨k.firstIndent, []⟩ n
      (k.sentenceSpace d (unitsText word)) _ _ hnext hfills hend hword.behind
      (sentenceSpace_pos (k := k) (unitsText word) hd)
    simpa [brokenText, FillLine.text, CharClass.width] using hput
  | wrap hunits hword' hgap hword hfits => exact absurd (.inl rfl) hfits

/-- Nothing but the word can be read next. -/
theorem AtWord.no_gap (hat : AtWord k cur lines s) {us : List FillUnit}
    (hunits : k.units s = gap ++ us) (hgap : ∀ u ∈ gap, u.isGap = true) :
    gap = [] ∧ ∃ c vs, us = .char c :: vs := by
  obtain ⟨word, t, -, hword, hisWord⟩ := hat.word
  obtain ⟨c, vs, rfl⟩ := hisWord.first
  rw [hword] at hunits
  cases gap with
  | nil => exact ⟨rfl, c, _, hunits.symm⟩
  | cons u gap =>
    have hu := hgap u List.mem_cons_self
    rw [← (List.cons.inj hunits).1] at hu
    cases hu

/-- A round at the start of another line. -/
theorem continued_step (h : FillsUpTo k text done cur s) (hat : AtWord k cur lines s)
    (hd : d ≠ 0) :
    FillInv k text (k.wordStep (k.formWidth - k.subsIndent) 0
      ⟨s, doneText done ++ brokenText lines ++ List.replicate k.subsIndent ' ', n, d,
        .words (k.formWidth - k.subsIndent) 0⟩) := by
  have hround := wordStep_round k (k.formWidth - k.subsIndent) 0
    ⟨s, doneText done ++ brokenText lines ++ List.replicate k.subsIndent ' ', n, d,
      .words (k.formWidth - k.subsIndent) 0⟩
  generalize k.wordStep _ _ _ = st' at hround ⊢
  cases hround with
  | @newline gap t hunits hblank hgap =>
    obtain ⟨-, c, vs, hchar⟩ := hat.no_gap hunits hgap.units
    rw [units_newline] at hchar
    cases hchar
  | @stop gap t hunits hgap ht =>
    obtain ⟨-, c, vs, hchar⟩ := hat.no_gap hunits hgap.units
    have hne : t ≠ [] := by
      rintro rfl
      cases hchar
    obtain ⟨t', rfl⟩ := List.head?_eq_some_iff.1 (ht hne).1
    rw [units_newline] at hchar
    cases hchar
  | @put gap word t hunits hgap hword hfits =>
    have hread : k.units s = (gap ++ word) ++ k.units t := by
      rw [List.append_assoc]
      exact hunits
    have hnext := h.read_more hread (newline_not_put hgap hword)
    have hfills := hat.fills.start (j := k.subsIndent) hgap.units
      (hat.closed.append_gap hgap.units) hword (if_neg hat.some).symm
    have hend : lineEnd (cur ++ (gap ++ word)) = .word := by
      rw [← List.append_assoc]
      exact lineEnd_word _ hword.solid hword.first
    have hput := @FillInv.put_word _ _ _ _ _ _ _ lines ⟨k.subsIndent, []⟩ n
      (k.sentenceSpace d (unitsText word)) _ _ hnext hfills hend hword.behind
      (sentenceSpace_pos (k := k) (unitsText word) hd)
    simpa [FillLine.text, CharClass.width] using hput
  | wrap hunits hword' hgap hword hfits => exact absurd (.inl rfl) hfits

/-- Behind a word a gap begins with a blank. -/
theorem gap_blank (hs : ∀ c ∈ s.head?, k.iswspace c = true) {us : List FillUnit}
    (hunits : k.units s = gap ++ us) (hgap : ∀ u ∈ gap, u.isGap = true) (hne : gap ≠ []) :
    ∃ c gap', gap = .blank c :: gap' := by
  obtain ⟨u, gap', rfl⟩ := List.exists_cons_of_ne_nil hne
  cases s with
  | nil => cases hunits
  | cons c s =>
    have hspace := hs c rfl
    have hesc : ¬ (c = '\x1B' ∧ s.head? = some '[') := by
      rintro ⟨rfl, -⟩
      rw [k.escape] at hspace
      cases hspace
    rw [units_cons hesc] at hunits
    have hu := hgap u List.mem_cons_self
    rw [← (List.cons.inj hunits).1, CharClass.unitOf] at hu ⊢
    split_ifs at hu ⊢ with hnl
    · cases hu
    · exact ⟨c, gap', rfl⟩

/-- So it ends the word. -/
theorem closed_gap (cur : List FillUnit) {us : List FillUnit}
    (hs : ∀ c ∈ s.head?, k.iswspace c = true) (hunits : k.units s = gap ++ (word ++ us))
    (hgap : IsGap gap (unitsText word ++ t)) (hword : IsWord k.toCharClass word t) :
    WordClosed (cur ++ gap) := by
  have hne : gap ≠ [] := by
    rintro rfl
    obtain ⟨c, vs, rfl⟩ := hword.first
    cases s with
    | nil => cases hunits
    | cons d s =>
      have hhead := @units_head _ _ _ _ vs _ hunits rfl
      rw [CharClass.unitOf, if_pos (hs d rfl)] at hhead
      split_ifs at hhead
  obtain ⟨c, gap', rfl⟩ := gap_blank hs hunits hgap.units hne
  exact closed_of_blank cur hgap.units List.mem_cons_self

/-- A round behind a word. -/
theorem put_step {p : ℕ} (h : FillsUpTo k text done cur s) (hfills : Fills k cur (lines ++ [l]))
    (hend : lineEnd cur = .word) (hs : ∀ c ∈ s.head?, k.iswspace c = true) (hp : p ≠ 0)
    (hd : d ≠ 0) :
    FillInv k text (k.wordStep (k.formWidth - (l.indent + k.width l.units : ℕ) - p) p
      ⟨s, doneText done ++ brokenText lines ++ l.text, n, d,
        .words (k.formWidth - (l.indent + k.width l.units : ℕ) - p) p⟩) := by
  have hround := wordStep_round k (k.formWidth - (l.indent + k.width l.units : ℕ) - p) p
    ⟨s, doneText done ++ brokenText lines ++ l.text, n, d,
      .words (k.formWidth - (l.indent + k.width l.units : ℕ) - p) p⟩
  generalize k.wordStep _ _ _ = st' at hround ⊢
  cases hround with
  | @newline gap t hunits hblank hgap =>
    have hnext := h.read_more hunits (newline_not_gap hgap.units)
    have hend' : lineEnd (cur ++ gap) ≠ .loose := by
      rw [lineEnd, List.foldl_append]
      refine foldl_lineScan_blanks hgap.units hblank ?_
      rw [← lineEnd, hend]
      exact LineEnd.noConfusion
    have hfin := FillInv.finished (n := n) (d := d) hnext (hfills.blanks hgap.units hblank) hend'
    rwa [linesText_snoc, ← List.append_assoc] at hfin
  | @stop gap t hunits hgap ht =>
    have hnext := h.read_more hunits (newline_not_gap hgap.units)
    have hlines : linesText (lines ++ [{ l with
        units := l.units ++ gap.filter FillUnit.isEscape }]) =
          brokenText lines ++ l.text ++ escapesText gap := by
      rw [linesText_snoc, FillLine.text_append, ← List.append_assoc]
      rfl
    have hended := FillInv.ended (n := n) (d := d) hnext (hfills.escapes hgap.units) fun hne => by
      obtain ⟨hhead, hesc⟩ := ht hne
      refine ⟨hhead, ?_, ?_⟩
      · have hgapne : gap ≠ [] := by
          rintro rfl
          obtain ⟨e, he⟩ := hesc
          cases he
        obtain ⟨c, gap', rfl⟩ := gap_blank hs hunits hgap.units hgapne
        rw [lineEnd, List.foldl_append, ← lineEnd, hend, List.foldl_cons]
        refine foldl_lineScan_gap (fun u hu => hgap.units u (List.mem_cons_of_mem _ hu))
          (e := lineScan .word (.blank c)) LineEnd.noConfusion (.inr ?_)
        simpa using hesc
      · obtain ⟨front, e, hfront, he⟩ := escapesText_ends hesc (hgap.complete hne)
        exact ⟨_, e, by rw [hlines, hfront, ← List.append_assoc], he⟩
    rw [hlines, ← List.append_assoc, ← List.append_assoc] at hended
    exact hended
  | @put gap word t hunits hgap hword hfits =>
    have hread : k.units s = (gap ++ word) ++ k.units t := by
      rw [List.append_assoc]
      exact hunits
    have hnext := h.read_more hread (newline_not_put hgap hword)
    have hfit : l.indent + k.width l.units + p + k.width word ≤ k.formWidth := by
      have hroom := hfits.resolve_left hp
      push_cast at hroom
      omega
    have hfills' := hfills.put hgap.units (closed_gap cur hs hunits hgap hword) hword hp hfit
    have hend' : lineEnd (cur ++ (gap ++ word)) = .word := by
      rw [← List.append_assoc]
      exact lineEnd_word _ hword.solid hword.first
    exact FillInv.put_word hnext hfills' hend' hword.behind (sentenceSpace_pos _ hd)
  | @wrap gap word t hunits hword' hgap hword hfits =>
    have hread : k.units s = gap ++ k.units (unitsText word ++ t) := by
      rw [hword']
      exact hunits
    have hnext := h.read_more hread (newline_not_gap hgap.units)
    have hat : AtWord k (cur ++ gap)
        (lines ++ [{ l with units := l.units ++ gap.filter FillUnit.isEscape }])
        (unitsText word ++ t) :=
      ⟨⟨word, t, rfl, hword', hword⟩, hfills.escapes hgap.units, by simp,
        closed_gap cur hs hunits hgap hword⟩
    have hwrapped := FillInv.wrapped (d := d) hnext hat (Nat.succ_ne_zero n)
    rw [brokenText_snoc, FillLine.text_append] at hwrapped
    simpa only [List.append_assoc, escapesText] using hwrapped

/-! ### The run -/

theorem lineStep_newline (s out : List Char) (n d : ℕ) (ph : FillPhase) :
    k.lineStep ⟨'\n' :: s, out, n, d, ph⟩ = ⟨k.skipBlanks s, out ++ ['\n'], 0, d, ph⟩ := rfl

theorem lineStep_open {s : List Char} (hs : s ≠ []) (hnl : s.head? ≠ some '\n') (out : List Char)
    (n d : ℕ) (ph : FillPhase) :
    k.lineStep ⟨s, out, n, d, ph⟩ =
      ⟨s, out ++ List.replicate (if n = 0 then k.firstIndent else k.subsIndent) ' ', n, d,
        .words (k.formWidth - (if n = 0 then k.firstIndent else k.subsIndent : ℕ)) 0⟩ := by
  unfold FillConfig.lineStep
  split
  · rename_i heq
    exact absurd (congrArg List.head? heq) hnl
  · rename_i heq
    exact absurd heq hs
  · rfl

/-- A round keeps the invariant. -/
theorem FillInv.step (hwide : FillsWide k (unitLines (k.units text))) {st : FillState}
    (h : FillInv k text st) (hd : st.doublespace ≠ 0) : FillInv k text (k.step st) := by
  cases h with
  | @fresh done cur s d hread hat =>
    by_cases hs : s = []
    · subst hs
      have hend := FillInv.ended (n := 0) (d := d) hread hat.fills fun h => absurd rfl h
      rwa [show linesText [] = [] from rfl, List.append_nil] at hend
    · by_cases hnl : s.head? = some '\n'
      · obtain ⟨t, rfl⟩ := List.head?_eq_some_iff.1 hnl
        have hnext := FillInv.next_line (n := 0) (d := d) hread hat.fills hat.not_loose
        rwa [show linesText [] = [] from rfl, List.append_nil] at hnext
      · show FillInv k text (k.lineStep _)
        rw [lineStep_open hs hnl]
        exact .opened hread hat hs hnl
  | @finished done cur lines s n d hread hfills hend => exact .next_line hread hfills hend
  | @wrapped done cur lines s n d hread hat hn =>
    obtain ⟨word, t, rfl, hword, hisWord⟩ := hat.word
    obtain ⟨c, vs, rfl⟩ := hisWord.first
    have hs : unitsText (.char c :: vs) ++ t ≠ [] := List.cons_ne_nil _ _
    have hnl : (unitsText (.char c :: vs) ++ t).head? ≠ some '\n' := by
      intro hhead
      obtain ⟨t', ht'⟩ := List.head?_eq_some_iff.1 hhead
      rw [ht', units_newline] at hword
      cases hword
    show FillInv k text (k.lineStep _)
    rw [lineStep_open hs hnl, if_neg hn]
    exact .continued hread hat
  | @opened done cur s n d hread hat hs hnl => exact opened_step hwide hread hat hs hnl hd
  | @continued done cur lines s n d hread hat => exact continued_step hread hat hd
  | @put done cur lines l s n d p hread hfills hend hs hp =>
    exact put_step hread hfills hend hs hp hd
  | @ended done cur lines s n d hread hfills hs => exact .ended hread hfills hs

/-! ### The end of the run -/

/-- What each round lowers. -/
def fillVariant (st : FillState) : ℕ :=
  match st.phase with
  | .done => 0
  | .line => 5 * st.s.length + (if st.s.head? = some '\n' then 1 else 3)
  | .words _ p => 5 * st.s.length + (if p = 0 then 2 else 4)

theorem gap_length {us : List FillUnit} (h : k.units s = us ++ k.units t) :
    s.length = (unitsText us).length + t.length := by
  have htext := congrArg (List.length ∘ unitsText) h
  simpa [units_text] using htext

theorem fillVariant_step (k : FillConfig) {st : FillState} (h : st.phase ≠ .done) :
    fillVariant (k.step st) < fillVariant st := by
  obtain ⟨s, out, n, d, phase⟩ := st
  cases phase with
  | done => exact absurd rfl h
  | line =>
    show fillVariant (k.lineStep _) < _
    by_cases hs : s = []
    · subst hs
      exact Nat.succ_pos _
    · by_cases hnl : s.head? = some '\n'
      · obtain ⟨t, rfl⟩ := List.head?_eq_some_iff.1 hnl
        have hle := (List.dropWhile_sublist k.isWBlank (l := t)).length_le
        rw [lineStep_newline]
        unfold fillVariant CharClass.skipBlanks
        dsimp only
        rw [List.length_cons]
        split_ifs <;> omega
      · rw [lineStep_open hs hnl]
        simp only [fillVariant, hnl, if_true, if_false]
        omega
  | words r p =>
    have hround := wordStep_round k r p ⟨s, out, n, d, .words r p⟩
    show fillVariant (k.wordStep r p _) < _
    generalize k.wordStep r p _ = st' at hround ⊢
    cases hround with
    | newline hunits =>
      have hlen := gap_length hunits
      simp only [fillVariant, List.length_cons, List.head?_cons, if_true] at hlen ⊢
      split_ifs <;> omega
    | stop => simp only [fillVariant]; split_ifs <;> omega
    | @put gap word t hunits hgap hword hfits =>
      have hlen := @gap_length _ _ _ (gap ++ word) (hunits.trans (List.append_assoc _ _ _).symm)
      obtain ⟨c, vs, rfl⟩ := hword.first
      simp only [fillVariant, unitsText_append, unitsText_cons, FillUnit.text, List.length_append,
        List.length_cons] at hlen ⊢
      split_ifs <;> omega
    | @wrap gap word t hunits hword' hgap hword hfits =>
      rw [← hword'] at hunits
      have hlen := gap_length hunits
      have hp : p ≠ 0 := fun h => hfits (.inl h)
      simp only [fillVariant, if_neg hp] at hlen ⊢
      split_ifs <;> omega

/-- The run ends, and what every round keeps holds then. -/
theorem fillParagraphWCAux_total (k : FillConfig) (s : List Char) :
    ∃ st, (∀ n, 5 * s.length + 3 < n → k.fillParagraphWCAux n s = some st) ∧ st.phase = .done ∧
      ∀ I : FillState → Prop, I (fillStart s) → (∀ st, I st → I (k.step st)) → I st := by
  have hstart : fillVariant (fillStart s) < 5 * s.length + 4 := by
    unfold fillVariant fillStart
    dsimp only
    split_ifs <;> omega
  obtain ⟨st, hrun, -, hdone⟩ := whileFuel_total (c := fun st => st.phase != .done) (f := k.step)
    (fun _ => True) fillVariant (fun st _ h => ⟨trivial, fillVariant_step k (by simpa using h)⟩)
    trivial hstart
  exact ⟨st, fun n hn => whileFuel_mono hrun hn, by simpa using hdone, fun I h0 hstep =>
    (whileFuel_invariant (fun st h _ => hstep st h) h0 hrun).1⟩

end Rounds

end Remind
