import Remind.CellRows

/-!
# BoxLines — what a row of the calendar shows

From the rows of each column to what a reader sees: every entry's characters in order, each once,
words in one row where they fit, and boxes of one width.
-/

namespace Remind

open Lib

variable {k : CalConfig}

/-! ### What a column shows -/

section Shown

variable {column : List CalEntry} {rows : List BoxRow} {e : CalEntry} {texts : List (List Char)}

/-- The characters of an entry that are not blank. -/
def CalConfig.entryInk (k : CalConfig) (e : CalEntry) : List Char := (k.entryFace e).ink e.left

theorem rowInk_boxRow (row : List Char) : k.rowInk (e.boxRow row) = (k.entryFace e).ink row := by
  unfold CalEntry.boxRow CalConfig.entryFace
  split_ifs <;> rfl

theorem map_rowInk (texts : List (List Char)) :
    (texts.map e.boxRow).map k.rowInk = texts.map (k.entryFace e).ink := by
  rw [List.map_map]
  exact List.map_congr_left fun row _ => rowInk_boxRow row

theorem EntryRows_ink (h : k.EntryRows e rows) : (rows.map k.rowInk).flatten = k.entryInk e := by
  obtain ⟨texts, rfl, hw⟩ := h
  rw [map_rowInk, hw.ink_eq]
  rfl

/-- An entry that others follow shows nothing when it is at its end. -/
theorem ended_ink (h : if e.left = [] then rows = [] else k.EntryRows e rows) :
    (rows.map k.rowInk).flatten = k.entryInk e := by
  split_ifs at h with he
  · rw [h, CalConfig.entryInk, he]
    rfl
  · exact EntryRows_ink h

theorem separator_ink : ((k.separator).map k.rowInk).flatten = [] := by
  unfold CalConfig.separator
  split_ifs <;> rfl

/-- **A column shows the characters of its entries**, in order, each once. -/
theorem ColumnRows_ink (h : k.ColumnRows column rows) :
    (rows.map k.rowInk).flatten = (column.map k.entryInk).flatten := by
  induction h with
  | nil => rfl
  | last h => simpa using EntryRows_ink h
  | @more e column rows below _ h _ ih =>
    rw [List.map_append, List.flatten_append, List.map_append, List.flatten_append, ended_ink h,
      separator_ink, List.nil_append, ih, List.map_cons, List.flatten_cons]

/-- **A word that fits is shown in one row**, behind the characters that stand before it. -/
theorem ColumnRows_word (h : k.ColumnRows column rows) {above below : List CalEntry}
    {u w v : List Char} (hcolumn : column = above ++ e :: below) (he : e.left = u ++ (w ++ v))
    (hw : (k.entryFace e).IsWord u w v) (hfit : (k.entryFace e).span w ≤ k.cols) :
    ∃ front left right back, rows = front ++ e.boxRow (left ++ (w ++ right)) :: back ∧
      (front.map k.rowInk).flatten ++ (k.entryFace e).ink left =
        (above.map k.entryInk).flatten ++ (k.entryFace e).ink u := by
  have hin {rows : List BoxRow} (h : k.EntryRows e rows) :
      ∃ front left right back, rows = front ++ e.boxRow (left ++ (w ++ right)) :: back ∧
        (front.map k.rowInk).flatten ++ (k.entryFace e).ink left = (k.entryFace e).ink u := by
    obtain ⟨texts, rfl, hwrap⟩ := h
    obtain ⟨front, left, right, back, rfl, hink⟩ := hwrap.word_whole he hw hfit
    exact ⟨front.map e.boxRow, left, right, back.map e.boxRow, by simp, by rw [map_rowInk, hink]⟩
  have hleft : e.left ≠ [] := by
    rw [he]
    simp [hw.ne_nil]
  induction h generalizing above with
  | nil => simp at hcolumn
  | @last e' rows h =>
    obtain ⟨rfl, hcons⟩ : above = [] ∧ [e'] = e :: below := by
      cases above with
      | nil => exact ⟨rfl, hcolumn⟩
      | cons a above => simp at hcolumn
    obtain ⟨rfl, rfl⟩ := List.cons_eq_cons.1 hcons
    exact hin h
  | @more e' column rows rest _ h _ ih =>
    cases above with
    | nil =>
      obtain ⟨rfl, rfl⟩ := List.cons_eq_cons.1 hcolumn
      rw [if_neg hleft] at h
      obtain ⟨front, left, right, back, rfl, hink⟩ := hin h
      exact ⟨front, left, right, back ++ (k.separator ++ rest), by simp, hink⟩
    | cons a above =>
      obtain ⟨rfl, rfl⟩ := List.cons_eq_cons.1 hcolumn
      obtain ⟨front, left, right, back, rfl, hink⟩ := ih rfl
      refine ⟨rows ++ (k.separator ++ front), left, right, back, by simp, ?_⟩
      rw [List.map_append, List.flatten_append, List.map_append, List.flatten_append, ended_ink h,
        separator_ink, List.nil_append, List.append_assoc, hink, List.map_cons, List.flatten_cons,
        List.append_assoc]

end Shown

/-! ### The width of a line -/

section Width

variable {column : List CalEntry} {rows : List BoxRow} {e : CalEntry}

/-- The columns that an item takes. -/
def CalConfig.itemWidth (k : CalConfig) : CalItem → ℤ
  | .chr c => k.wcwidth c
  | .byte _ => 1
  | .draw _ => 1
  | _ => 0

/-- The columns that a text on the terminal takes. -/
def CalConfig.widthOf (k : CalConfig) (items : List CalItem) : ℤ := (items.map k.itemWidth).sum

@[simp] theorem widthOf_nil : k.widthOf [] = 0 := rfl

@[simp] theorem widthOf_cons (i : CalItem) (l : List CalItem) :
    k.widthOf (i :: l) = k.itemWidth i + k.widthOf l := List.sum_cons

@[simp] theorem widthOf_append (a b : List CalItem) :
    k.widthOf (a ++ b) = k.widthOf a + k.widthOf b := by
  simp [CalConfig.widthOf]

@[simp] theorem widthOf_replicate (n : ℕ) (i : CalItem) :
    k.widthOf (List.replicate n i) = n * k.itemWidth i := by
  simp [CalConfig.widthOf]

/-- The escape sequences take no column. -/
theorem widthOf_visible (items : List CalItem) : k.widthOf (visible items) = k.widthOf items := by
  induction items with
  | nil => rfl
  | cons i items ih =>
    cases i with
    | control c =>
      have h0 : k.itemWidth (.control c) = 0 := rfl
      rw [visible_control, ih, widthOf_cons, h0, zero_add]
    | _ => exact congrArg (k.itemWidth _ + ·) ih

/-- A row fills its box. -/
def CalConfig.Fills (k : CalConfig) (row : BoxRow) : Prop := k.widthOf (k.rowItems row) = k.cols

theorem fills_wide {row : List Char} (hrow : ∀ c ∈ row, 0 ≤ k.wcwidth c)
    (hfit : k.face.span row ≤ k.cols) : k.Fills (.wide row) := by
  have hwidth : k.widthOf (row.map k.printed) = k.face.span row := by
    clear hfit
    induction row with
    | nil => rfl
    | cons c row ih =>
      have hc := span_face_cons c (hrow c List.mem_cons_self)
      rw [List.map_cons, widthOf_cons, ih fun d hd => hrow d (List.mem_cons_of_mem _ hd),
        Face.span_cons, Nat.cast_add, hc]
      congr 1
      unfold CalConfig.printed CalConfig.written
      have h0 := hrow c List.mem_cons_self
      split_ifs with hb hw
      · rfl
      · rfl
      · exact (show k.wcwidth c = 0 by omega)
  unfold CalConfig.Fills CalConfig.rowItems
  rw [widthOf_append, hwidth, widthOf_replicate]
  simp only [CalConfig.itemWidth]
  omega

theorem fills_bytes {row : List Char} (hfit : k.byteFace.span row ≤ k.cols) :
    k.Fills (.bytes row) := by
  have hwidth : k.widthOf (row.map fun c => .byte (if k.isspace c then ' ' else c)) =
      k.byteFace.span row := by
    rw [span_byteFace]
    clear hfit
    induction row with
    | nil => rfl
    | cons c row ih =>
      rw [List.map_cons, widthOf_cons, ih, List.length_cons, CalConfig.itemWidth, Nat.cast_succ,
        add_comm]
  unfold CalConfig.Fills CalConfig.rowItems
  rw [widthOf_append, hwidth, widthOf_replicate]
  simp only [CalConfig.itemWidth]
  omega

theorem EntryRows_fills (hfits : k.Fits e) (h : k.EntryRows e rows) : ∀ row ∈ rows, k.Fills row := by
  obtain ⟨texts, rfl, hw⟩ := h
  intro row hrow
  obtain ⟨text, htext, rfl⟩ := List.mem_map.1 hrow
  have hfit := (hw.fits text htext).1
  unfold CalConfig.entryFace at hfit hw
  unfold CalEntry.boxRow
  by_cases hwide : e.wcText.isSome
  · rw [if_pos hwide] at hfit hw ⊢
    exact fills_wide (fun c hc => (hfits hwide c (left_of_wide hwide ▸ hw.mem htext hc)).1) hfit
  · rw [if_neg hwide] at hfit ⊢
    exact fills_bytes hfit

/-- **Every row of a column fills its box.** -/
theorem ColumnRows_fills (hfits : ∀ e ∈ column, k.Fits e) (h : k.ColumnRows column rows) :
    ∀ row ∈ rows, k.Fills row := by
  induction h with
  | nil => exact nofun
  | last h => exact EntryRows_fills (hfits _ List.mem_cons_self) h
  | @more e column rows below _ h _ ih =>
    intro row hrow
    rcases List.mem_append.1 hrow with hrow | hrow
    · split_ifs at h with he
      · rw [h] at hrow
        cases hrow
      · exact EntryRows_fills (hfits _ List.mem_cons_self) h row hrow
    rcases List.mem_append.1 hrow with hrow | hrow
    · unfold CalConfig.separator at hrow
      split_ifs at hrow
      · rw [List.mem_singleton.1 hrow]
        exact fills_wide nofun (Nat.zero_le _)
      · cases hrow
    · exact ih (fun e he => hfits e (List.mem_cons_of_mem _ he)) row hrow

end Width

/-! ### A row of the calendar -/

section Boxes

variable {bgcolor : BgColors} {colToDay : Fin 7 → ℤ} {columns : Columns}

/-- A line of the seven boxes, escape sequences apart. -/
def CalConfig.boxLine (k : CalConfig) (boxes : Fin 7 → BoxRow) : List CalItem :=
  .draw .tb :: (List.finRange 7).flatMap (fun i => k.rowItems (boxes i) ++ [CalItem.draw .tb]) ++
    [CalItem.newline]

/-- The lines show the rows of the columns side by side, no more lines than the longest needs. -/
structure CalConfig.Shows (k : CalConfig) (columns : Columns) (lines : List (List CalItem))
    (rows : Fin 7 → List BoxRow) : Prop where
  column : ∀ i, k.ColumnRows (columns i) (rows i)
  all : ∀ i, (rows i).length ≤ lines.length
  needed : ∀ j < lines.length, ∃ i, j < (rows i).length
  line : lines.map visible = (List.range lines.length).map fun j =>
    k.boxLine fun i => (rows i)[j]?.getD (.wide [])

theorem visible_lineOf (cells : Fin 7 → Option (List CalItem)) (boxes : Fin 7 → BoxRow)
    (h : ∀ i, visible ((cells i).getD (List.replicate k.cols (.byte ' '))) =
      k.rowItems (boxes i)) :
    visible (k.lineOf bgcolor colToDay cells) = k.boxLine boxes := by
  have hbar : visible drawBar = [.draw .tb] := rfl
  have hboxes (l : List (Fin 7)) : visible (l.flatMap fun i =>
      (k.backgroundize bgcolor (colToDay i) ++
        (cells i).getD (List.replicate k.cols (.byte ' ')) ++
        k.unBackgroundize bgcolor (colToDay i)) ++ drawBar) =
      l.flatMap fun i => k.rowItems (boxes i) ++ [CalItem.draw .tb] := by
    induction l with
    | nil => rfl
    | cons i l ih =>
      rw [List.flatMap_cons, List.flatMap_cons, visible_append, ih, visible_append, visible_append,
        visible_append, h, hbar, visible_backgroundize, visible_unBackgroundize, List.nil_append,
        List.append_nil]
  unfold CalConfig.lineOf CalConfig.boxLine
  rw [visible_append, visible_append, hboxes, hbar]
  rfl

/-- **A row of the calendar is written to its end**, and shows the entries of its seven columns. -/
theorem writeCalLines_shows (hcols : 0 < k.colSpaces) (hfits : ∀ i, ∀ e ∈ columns i, k.Fits e)
    {fuel : ℕ} (hfuel : ∀ i, columnLeft (columns i) < fuel) :
    ∃ lines rows, k.writeCalLines bgcolor colToDay fuel columns = some (lines, fun _ => []) ∧
      k.Shows columns lines rows := by
  choose cells rows hrun hrows hcells hlen using fun i : Fin 7 =>
    @column_spec k bgcolor (colToDay i) (columns i) hcols (hfits i)
  obtain ⟨lines, hlines, hall, hneeded, hget⟩ := writeCalLines_spec hrun fun i =>
    (hlen i).trans_lt (hfuel i)
  have hlength (i : Fin 7) : (cells i).length = (rows i).length := by
    simpa using congrArg List.length (hcells i)
  refine ⟨lines, rows, hlines, hrows, fun i => hlength i ▸ hall i, fun j hj => ?_, ?_⟩
  · obtain ⟨i, hi⟩ := hneeded j hj
    exact ⟨i, hlength i ▸ hi⟩
  · refine List.ext_getElem? fun j => ?_
    rw [List.getElem?_map, List.getElem?_map]
    by_cases hj : j < lines.length
    · rw [hget j hj, List.getElem?_range hj, Option.map_some, Option.map_some]
      refine congrArg some (visible_lineOf _ _ fun i => ?_)
      have hcell : (cells i)[j]?.map visible = (rows i)[j]?.map k.rowItems := by
        rw [← List.getElem?_map, ← List.getElem?_map, hcells i]
      cases hc : (cells i)[j]? with
      | none =>
        rw [hc, Option.map_none] at hcell
        rw [Option.map_eq_none_iff.1 hcell.symm, Option.getD_none, Option.getD_none, visible_pad]
        rfl
      | some cell =>
        rw [hc, Option.map_some] at hcell
        obtain ⟨row, hrow, hitems⟩ := Option.map_eq_some_iff.1 hcell.symm
        rw [hrow, Option.getD_some, Option.getD_some, hitems]
    · rw [List.getElem?_eq_none (by omega), List.getElem?_eq_none (by simpa using hj)]
      rfl

/-! ### What a row shows -/

/-- A character on the terminal that is not blank. -/
def CalItem.ink? : CalItem → Option Char
  | .chr c => some c
  | .byte c => if c = ' ' then none else some c
  | _ => none

/-- The characters of a text on the terminal that are not blank. -/
def inked (items : List CalItem) : List Char := items.filterMap CalItem.ink?

theorem inked_pad (n : ℕ) : inked (List.replicate n (.byte ' ')) = [] := by
  refine List.filterMap_eq_nil_iff.2 fun i hi => ?_
  rw [List.eq_of_mem_replicate hi]
  rfl

/-- A row as it is printed shows the ink of the row. -/
theorem inked_map {face : Face Char} {print : Char → CalItem}
    (hprint : ∀ c, (print c).ink? = if face.blank c then none else some c) (row : List Char) (n : ℕ) :
    inked (row.map print ++ List.replicate n (.byte ' ')) = face.ink row := by
  have hpad := inked_pad n
  unfold inked at hpad ⊢
  rw [List.filterMap_append, hpad, List.append_nil, List.filterMap_map]
  induction row with
  | nil => rfl
  | cons c row ih =>
    rw [List.filterMap_cons, Function.comp_apply, hprint, Face.ink, List.filter_cons, ih]
    cases face.blank c <;> rfl

theorem ink?_printed (c : Char) :
    (k.printed c).ink? = if k.face.blank c then none else some c := by
  have hblank : k.face.blank c = k.iswspace c := rfl
  unfold CalConfig.printed
  rw [hblank]
  split_ifs <;> rfl

theorem ink?_byte (c : Char) :
    (CalItem.byte (if k.isspace c then ' ' else c)).ink? =
      if k.byteFace.blank c then none else some c := by
  have hblank : k.byteFace.blank c = k.isspace c := rfl
  rw [hblank]
  split_ifs with hb
  · rfl
  · have hc : c ≠ ' ' := by
      rintro rfl
      exact hb k.spaceByte
    exact if_neg hc

theorem inked_rowItems (row : BoxRow) : inked (k.rowItems row) = k.rowInk row := by
  cases row with
  | wide row => exact inked_map ink?_printed row _
  | bytes row => exact inked_map ink?_byte row _

/-- A calendar with boxes of ten columns and a line between entries. -/
def sampleCalConfig : CalConfig where
  iswspace c := c = ' ' || c = '\n'
  wcwidth c := if c = 'Ｗ' then 2 else 1
  isspace c := c = ' ' || c = '\n'
  newline := rfl
  newlineByte := rfl
  spaceByte := rfl
  colSpaces := 10
  calSepLine := true
  useVTColors := false
  useBGVTColors := false
  terminalHyperlinks := false
  suppressLRM := true
  useUTF8Chars := true
  encodingIsUtf8 := true

theorem sampleCalConfig_wcwidth (c : Char) :
    0 ≤ sampleCalConfig.wcwidth c ∧ sampleCalConfig.wcwidth c ≤ 2 := by
  show 0 ≤ (if c = 'Ｗ' then (2 : ℤ) else 1) ∧ (if c = 'Ｗ' then (2 : ℤ) else 1) ≤ 2
  split_ifs <;> decide

/-- An entry with a text and nothing else. -/
def sampleEntry (text : List Char) : CalEntry where
  text := text
  pos := text
  wcText := some text
  wcPos := text
  isColor := false
  r := 0
  g := 0
  b := 0
  time := none
  duration := none
  priority := 5000
  passthru := []
  tags := []
  infos := []

local instance sampleColumnsDays : NeZero 7 := ⟨by decide⟩

/-- Two entries on a Tuesday. -/
def sampleColumns : Columns := fun i =>
  if i = 2 then [sampleEntry "Ｗater the garden".toList, sampleEntry "Rest".toList] else []

end Boxes

end Remind
