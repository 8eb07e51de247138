import Remind.ExprToken
import Remind.FillRun

/-!
# FillLaw — when a filled paragraph has all of its text

The run keeps every word unless a line before the last one ends in an escape sequence that stands
alone: there `FillParagraphWCAux` takes the newline behind it for the end of the text.
-/

namespace Remind

open Lib

section Law

variable {k : FillConfig} {text s : List Char} {done : List (List FillUnit × List FillLine)}
  {cur us line : List FillUnit} {lines : List FillLine} {st : FillState}

/-! ### The end of the run -/

theorem fillInv_start (k : FillConfig) (text : List Char) : FillInv k text (fillStart text) :=
  @FillInv.fresh k text [] [] _ _
    ⟨rfl, nofun, List.not_mem_nil, nofun, nofun⟩ ⟨nofun, nofun, .inr ⟨rfl, rfl⟩⟩

/-- A round keeps `doublespace` from being zero. -/
theorem doublespace_step (h : st.doublespace ≠ 0) : (k.step st).doublespace ≠ 0 := by
  obtain ⟨s, out, n, d, phase⟩ := st
  cases phase with
  | done => exact h
  | line =>
    show (k.lineStep _).doublespace ≠ 0
    unfold FillConfig.lineStep
    split <;> exact h
  | words r p =>
    have hround := wordStep_round k r p ⟨s, out, n, d, .words r p⟩
    show (k.wordStep r p _).doublespace ≠ 0
    generalize k.wordStep r p _ = st' at hround ⊢
    cases hround with
    | put => exact sentenceSpace_pos _ h
    | _ => exact h

/-- What has been read and put out at the end of a run, as paragraphs. -/
theorem ended_paras (h : FillsUpTo k text done cur s) (hfills : Fills k cur lines) :
    List.Forall₂ (Fills k) (done.map Prod.fst ++ [cur]) (done.map Prod.snd ++ [lines]) ∧
      doneText done ++ linesText lines =
        List.intercalate ['\n'] ((done.map Prod.snd ++ [lines]).map linesText) := by
  constructor
  · refine List.rel_append ?_ (.cons hfills .nil)
    rw [List.forall₂_map_left_iff, List.forall₂_map_right_iff, List.forall₂_same]
    exact h.fills
  · rw [intercalate_snoc, List.flatMap_map]
    rfl

/-! ### What is not white in a text -/

def ink (s : List Char) : List Char := s.filter fun c => c ≠ ' ' && c ≠ '\n'

/-- What is not white in the words and the escape sequences of units. -/
def solidInk (us : List FillUnit) : List Char := ink (unitsText (us.filter FillUnit.solid))

theorem ink_append (s t : List Char) : ink (s ++ t) = ink s ++ ink t := List.filter_append ..

theorem solidInk_append (us vs : List FillUnit) :
    solidInk (us ++ vs) = solidInk us ++ solidInk vs := by
  rw [solidInk, List.filter_append, unitsText_append, ink_append]
  rfl

theorem ink_intercalate (ts : List (List Char)) :
    ink (List.intercalate ['\n'] ts) = ts.flatMap ink := by
  induction ts with
  | nil => rfl
  | cons t ts ih =>
    by_cases hts : ts = []
    · subst hts
      simp [List.intercalate]
    · rw [List.intercalate_cons_of_ne_nil hts, ink_append, ink_append, ih, List.flatMap_cons,
        show ink ['\n'] = [] from rfl, List.append_nil]

theorem ink_units (h : ∀ u ∈ us, u.solid = true ∨ u = .blank ' ') :
    ink (unitsText us) = solidInk us := by
  induction us with
  | nil => rfl
  | cons u us ih =>
    have htail := ih fun v hv => h v (List.mem_cons_of_mem _ hv)
    rw [unitsText_cons, ink_append, htail]
    rcases h u List.mem_cons_self with hu | rfl
    · rw [solidInk, solidInk, List.filter_cons_of_pos hu, unitsText_cons, ink_append]
    · rfl

theorem ink_linesText (h : ∀ l ∈ lines, ∀ u ∈ l.units, u.solid = true ∨ u = .blank ' ') :
    ink (linesText lines) = solidInk (lines.flatMap FillLine.units) := by
  rw [linesText, ink_intercalate, List.flatMap_map]
  induction lines with
  | nil => rfl
  | cons l ls ih =>
    rw [List.flatMap_cons, List.flatMap_cons, solidInk_append,
      ih fun m hm => h m (List.mem_cons_of_mem _ hm), FillLine.text, ink_append,
      ink_units (h l List.mem_cons_self)]
    have hindent : ink (List.replicate l.indent ' ') = [] := by
      rw [ink, List.filter_eq_nil_iff]
      intro c hc
      rw [List.eq_of_mem_replicate hc]
      decide
    rw [hindent]
    rfl

/-- The ink of a filled text is that of its lines. -/
theorem ink_filled {ls : List (List FillUnit)} {paras : List (List FillLine)}
    (h : List.Forall₂ (Fills k) ls paras) :
    ink (List.intercalate ['\n'] (paras.map linesText)) = ls.flatMap solidInk := by
  rw [ink_intercalate, List.flatMap_map]
  induction h with
  | nil => rfl
  | cons hfills _ ih =>
    rw [List.flatMap_cons, List.flatMap_cons, ih, ink_linesText hfills.layout, solidInk,
      hfills.solid]
    rfl

/-! ### An escape sequence at the end -/

theorem white_of_ink {t : List Char} (h : ink t = []) {c : Char} (hc : c ∈ t) :
    c = ' ' ∨ c = '\n' := by
  rw [ink, List.filter_eq_nil_iff] at h
  have hwhite := h c hc
  by_contra hno
  rw [not_or] at hno
  simp [hno] at hwhite

/-- A text whose last line has no ink ends in a space or a newline. -/
theorem filled_white_end {xs : List (List FillLine)} {x : List FillLine} (hxs : xs ≠ [])
    (hx : ink (linesText x) = []) :
    ∃ front c, (c = ' ' ∨ c = '\n') ∧
      List.intercalate ['\n'] ((xs ++ [x]).map linesText) = front ++ [c] := by
  rw [intercalate_snoc]
  rcases List.eq_nil_or_concat' (linesText x) with hnil | ⟨front, c, hlast⟩
  · obtain ⟨ys, y, rfl⟩ := (List.eq_nil_or_concat' xs).resolve_left hxs
    refine ⟨ys.flatMap (fun x => linesText x ++ ['\n']) ++ linesText y, '\n', .inr rfl, ?_⟩
    rw [hnil, List.flatMap_append, List.flatMap_singleton, List.append_nil, List.append_assoc]
  · refine ⟨xs.flatMap (fun x => linesText x ++ ['\n']) ++ front, c, ?_, ?_⟩
    · exact white_of_ink hx (by rw [hlast]; simp)
    · rw [hlast, List.append_assoc]

theorem not_white_of_complete {front e : List Char} {t : List Char} {c : Char}
    (he : CompleteEscape e) (h : front ++ e = t ++ [c]) : ¬ (c = ' ' ∨ c = '\n') := by
  obtain ⟨p, d, -, hd, rfl⟩ := he
  rw [← List.append_assoc] at h
  obtain rfl : d = c := (List.append_inj_right' h rfl) |> List.singleton_inj.1
  rintro (rfl | rfl) <;> exact absurd hd (by decide)

/-- The output does not end in an escape sequence where lines without ink are left. -/
theorem filled_no_escape_end {ls rest : List (List FillUnit)} {paras : List (List FillLine)}
    (h : List.Forall₂ (Fills k) (ls ++ rest) paras) (hls : ls ≠ []) (hrest : rest ≠ [])
    (hink : ∀ l ∈ rest, solidInk l = []) {front e : List Char} (he : CompleteEscape e) :
    List.intercalate ['\n'] (paras.map linesText) ≠ front ++ e := by
  obtain ⟨rest, r, rfl⟩ := (List.eq_nil_or_concat' rest).resolve_left hrest
  rw [← List.append_assoc, ← List.forall₂_reverse_iff, List.reverse_append,
    List.reverse_singleton, List.singleton_append, List.forall₂_cons_left_iff] at h
  obtain ⟨x, xs, hx, hxs, hparas⟩ := h
  rw [List.reverse_eq_iff, List.reverse_cons] at hparas
  have hwhite : ink (linesText x) = [] := by
    rw [ink_linesText hx.layout, solidInk, hx.solid]
    exact hink r (by simp)
  have hne : xs.reverse ≠ [] := by
    rw [Ne, List.reverse_eq_nil_iff]
    rintro rfl
    have hlen := hxs.length_eq
    simp [hls] at hlen
  obtain ⟨t, c, hc, hend⟩ := filled_white_end hne hwhite
  rw [hparas, hend]
  exact fun heq => not_white_of_complete he heq.symm hc

/-! ### The indent of a line without words -/

theorem output_step (st : FillState) : st.output <+: (k.step st).output := by
  obtain ⟨s, out, n, d, phase⟩ := st
  cases phase with
  | done => exact List.prefix_refl _
  | line =>
    show out <+: (k.lineStep _).output
    unfold FillConfig.lineStep
    split
    · exact List.prefix_append ..
    · exact List.prefix_refl _
    · exact List.prefix_append ..
  | words r p =>
    have hround := wordStep_round k r p ⟨s, out, n, d, .words r p⟩
    show out <+: (k.wordStep r p _).output
    generalize k.wordStep r p _ = st' at hround ⊢
    cases hround with
    | newline => exact List.prefix_refl _
    | stop => exact List.prefix_append ..
    | put => simp only [List.append_assoc, List.prefix_append]
    | wrap => simp only [List.append_assoc, List.prefix_append]

/-- A paragraph of a line without words that is not empty. -/
theorem Fills.indent_fits {l : FillLine} (h : Fills k line (l :: lines))
    (hwords : unitWords line = []) : k.firstIndent ≤ k.formWidth := by
  have hl := h.words
  rw [hwords, List.flatMap_cons, List.append_eq_nil_iff] at hl
  rcases h.fits l List.mem_cons_self with hfits | hone
  · rw [h.firstIndent l rfl] at hfits
    omega
  · rw [hl.1] at hone
    cases hone

/-- So is that of a line with an escape sequence. -/
theorem Fills.escape_fits (h : Fills k line lines) (hwords : unitWords line = [])
    (hesc : ∃ e, .escape e ∈ line) : k.firstIndent ≤ k.formWidth := by
  cases lines with
  | cons l ls => exact h.indent_fits hwords
  | nil =>
    obtain ⟨e, he⟩ := hesc
    have hmem : FillUnit.escape e ∈ line.filter FillUnit.solid := List.mem_filter.2 ⟨he, rfl⟩
    rw [← h.solid] at hmem
    cases hmem

theorem exists_para {ls : List (List FillUnit)} {paras : List (List FillLine)}
    (h : List.Forall₂ (Fills k) ls paras) (hline : line ∈ ls) : ∃ para, Fills k line para := by
  induction h with
  | nil => cases hline
  | cons hfills _ ih =>
    rcases List.mem_cons.1 hline with rfl | hline
    · exact ⟨_, hfills⟩
    · exact ih hline

/-- An empty first paragraph puts out no space. -/
theorem no_indent (ps : List (List FillLine)) (n : ℕ) :
    ¬ List.replicate (n + 1) ' ' <+: List.intercalate ['\n'] (([] :: ps).map linesText) := by
  rintro ⟨t, ht⟩
  rw [List.map_cons, show linesText [] = [] from rfl, List.replicate_succ] at ht
  cases ps with
  | nil => cases ht
  | cons p ps =>
    rw [List.intercalate_cons_of_ne_nil (by simp)] at ht
    cases ht

/-! ### The law -/

/-- Where the law holds, the indent of a line without words fits. -/
theorem FillsText.wide {out : List Char} (h : FillsText k text out)
    (hindent : text ≠ [] → text.head? ≠ some '\n' → List.replicate k.firstIndent ' ' <+: out) :
    FillsWide k (unitLines (k.units text)) := by
  obtain ⟨paras, hparas, rfl⟩ := h
  refine ⟨fun line hline hwords hesc => ?_, fun line hline hwords hne => ?_⟩
  · obtain ⟨para, hpara⟩ := exists_para hparas hline
    exact hpara.escape_fits hwords hesc
  · obtain ⟨rest, hlines⟩ := List.head?_eq_some_iff.1 hline
    have htext : text ≠ [] := by
      rintro rfl
      rw [units_nil, unitLines_last List.not_mem_nil] at hlines
      exact hne (List.cons.inj hlines).1.symm
    have hnl : text.head? ≠ some '\n' := by
      intro hhead
      obtain ⟨t, rfl⟩ := List.head?_eq_some_iff.1 hhead
      rw [units_newline] at hlines
      have hcons := unitLines_cons List.not_mem_nil (k.units t)
      rw [List.nil_append, hlines] at hcons
      exact hne (List.cons.inj hcons).1
    rw [hlines, List.forall₂_cons_left_iff] at hparas
    obtain ⟨para, ps, hpara, -, rfl⟩ := hparas
    cases para with
    | cons l ls => exact hpara.indent_fits hwords
    | nil =>
      cases hj : k.firstIndent with
      | zero => exact Nat.zero_le _
      | succ j =>
        have hinit := hindent htext hnl
        rw [hj] at hinit
        exact absurd hinit (no_indent ps j)

/-- Where the law holds, the run has stopped at the end of the text. -/
theorem FillsText.ends (h : FillsText k text st.output) (hst : FillInv k text st)
    (hdone : st.phase = .done) :
    ∀ line ∈ (unitLines (k.units text)).dropLast, lineEnd line ≠ .loose := by
  cases hst with
  | @ended done cur lines s n d hread hfills hs =>
    have hlines : unitLines (k.units text) =
        done.map Prod.fst ++ unitLines (cur ++ k.units s) := by
      rw [hread.read, unitLines_append hread.inLines]
    by_cases hnil : s = []
    · subst hnil
      rw [hlines, units_nil, List.append_nil, unitLines_last hread.inCur, List.dropLast_concat]
      intro line hline
      obtain ⟨d, hd, rfl⟩ := List.mem_map.1 hline
      exact hread.ends d hd
    · obtain ⟨hhead, -, front, e, hfront, he⟩ := hs hnil
      obtain ⟨t, rfl⟩ := List.head?_eq_some_iff.1 hhead
      rw [units_newline, unitLines_cons hread.inCur, ← List.singleton_append,
        ← List.append_assoc] at hlines
      obtain ⟨hread', hout⟩ := ended_paras hread hfills
      obtain ⟨paras, hparas, hfilled⟩ := h
      rw [hlines] at hparas
      have hink := (ink_filled hparas).symm
      rw [← hfilled, hout, ink_filled hread', List.flatMap_append, List.append_right_eq_self] at hink
      refine absurd ?_ (@filled_no_escape_end _ _ _ _ hparas (by simp) (List.splitOn_ne_nil _ _)
        (List.flatMap_eq_nil_iff.1 hink) (doneText done ++ front) _ he)
      rw [← hfilled, List.append_assoc, ← hfront]
  | _ => cases hdone

/-- The run fills the text where every line but the last ends well. -/
theorem FillInv.fillsText (hst : FillInv k text st) (hdone : st.phase = .done)
    (hends : ∀ line ∈ (unitLines (k.units text)).dropLast, lineEnd line ≠ .loose) :
    FillsText k text st.output := by
  cases hst with
  | @ended done cur lines s n d hread hfills hs =>
    obtain ⟨hread', hout⟩ := ended_paras hread hfills
    refine ⟨_, ?_, hout⟩
    have hlines : unitLines (k.units text) =
        done.map Prod.fst ++ unitLines (cur ++ k.units s) := by
      rw [hread.read, unitLines_append hread.inLines]
    by_cases hnil : s = []
    · subst hnil
      rwa [hlines, units_nil, List.append_nil, unitLines_last hread.inCur]
    · obtain ⟨hhead, hloose, -⟩ := hs hnil
      obtain ⟨t, rfl⟩ := List.head?_eq_some_iff.1 hhead
      rw [units_newline, unitLines_cons hread.inCur] at hlines
      refine absurd hloose (hends cur ?_)
      have hrest : unitLines (k.units t) ≠ [] := List.splitOn_ne_nil _ _
      rw [hlines, List.dropLast_append_of_ne_nil (List.cons_ne_nil _ _),
        List.dropLast_cons_of_ne_nil hrest]
      simp
  | _ => cases hdone

end Law

/-- What the run has put out when it ends. -/
theorem fillParagraphWCAux_end (k : FillConfig) (s : List Char) :
    ∃ st, (∀ n, 5 * s.length + 3 < n → k.fillParagraphWCAux n s = some st) ∧
      st.phase = .done ∧ (FillsWide k (unitLines (k.units s)) → FillInv k s st) ∧
      (s ≠ [] → s.head? ≠ some '\n' → List.replicate k.firstIndent ' ' <+: st.output) := by
  obtain ⟨st, hrun, hdone, hinv⟩ := fillParagraphWCAux_total k s
  refine ⟨st, hrun, hdone, fun hwide => ?_, fun hs hnl => ?_⟩
  · exact (hinv (fun st => FillInv k s st ∧ st.doublespace ≠ 0)
      ⟨fillInv_start k s, Nat.one_ne_zero⟩
      fun st h => ⟨h.1.step hwide h.2, doublespace_step h.2⟩).1
  · have hor := hinv (fun st => st = fillStart s ∨
        List.replicate k.firstIndent ' ' <+: st.output) (.inl rfl) ?_
    · rcases hor with rfl | hinit
      · cases hdone
      · exact hinit
    · rintro st (rfl | hinit)
      · right
        show _ <+: (k.lineStep ⟨s, [], 0, 1, .line⟩).output
        rw [lineStep_open hs hnl]
        exact List.prefix_refl _
      · exact .inr (hinit.trans (output_step st))

/-- `FillParagraphWCAux` ends, and its output is the text filled if and only if no line before the
last one ends in an escape sequence that stands alone and no line without words gets an indent
wider than a line. -/
theorem fillParagraph_fills_iff (k : FillConfig) (s : List Char) :
    ∃ st, (∀ n, 5 * s.length + 3 < n → k.fillParagraphWCAux n s = some st) ∧
      (FillsText k s st.output ↔ FillsWell k (unitLines (k.units s))) := by
  obtain ⟨st, hrun, hdone, hinv, hindent⟩ := fillParagraphWCAux_end k s
  refine ⟨st, hrun, fun h => ?_, fun h => (hinv h.toFillsWide).fillsText hdone h.ends⟩
  have hwide := h.wide hindent
  exact ⟨hwide, h.ends (hinv hwide) hdone⟩

/-- Characters of one column, lines of 72. -/
def plainFill : FillConfig where
  iswspace := isSpace
  wcwidth := fun _ => 1
  newline := by decide
  space := by decide
  escape := by decide
  width_space := rfl
  formWidth := 72
  firstIndent := 0
  subsIndent := 0
  endSent := ".?!".toList.map Char.toNat
  endSentIg := "\"')]\x7d>".toList.map Char.toNat

/-- A line is lost behind an escape sequence at the end of the one before it. -/
theorem fillParagraph_loses_line :
    ∃ st, plainFill.fillParagraphWCAux 100 "foo \x1b[0m\nbar".toList = some st ∧
      st.output = "foo\x1b[0m".toList ∧
      ¬ FillsText plainFill "foo \x1b[0m\nbar".toList st.output := by
  obtain ⟨st, hrun, hdone, hinv, -⟩ :=
    fillParagraphWCAux_end plainFill "foo \x1b[0m\nbar".toList
  have hwide : FillsWide plainFill (unitLines (plainFill.units "foo \x1b[0m\nbar".toList)) :=
    ⟨fun _ _ _ _ => Nat.zero_le _, fun _ _ _ _ => Nat.zero_le _⟩
  refine ⟨st, hrun 100 (by decide), ?_, fun h => ?_⟩
  · have hout : (plainFill.fillParagraphWCAux 100 "foo \x1b[0m\nbar".toList).map
        FillState.output = some "foo\x1b[0m".toList := by decide +kernel
    rw [hrun 100 (by decide)] at hout
    exact Option.some.inj hout
  · have hloose : ∃ line ∈ (unitLines
        (plainFill.units "foo \x1b[0m\nbar".toList)).dropLast, lineEnd line = .loose := by
      decide +kernel
    obtain ⟨line, hline, hend⟩ := hloose
    exact h.ends (hinv hwide) hdone line hline hend

end Remind
