import Remind.CalendarCells

/-!
# CellRows — the texts of a box, row by row

`WriteOneColLine` sets one row of an entry as `Face.setRow` does, with wide characters or with bytes
of one column each.  A column of entries is then written in the rows of each, one entry below the
other, and the seven columns side by side, until the longest has come to its end.
-/

namespace Remind

open Lib

/-- Wide characters as they are set in a box. -/
def CalChars.face (k : CalChars) : Face Char where
  blank := k.iswspace
  newline c := c = '\n'
  width c := (k.wcwidth c).toNat
  newline_blank c hc := by rw [of_decide_eq_true hc, k.newline]

/-- Bytes as they are set in a box. -/
def CalChars.byteFace (k : CalChars) : Face Char where
  blank := k.isspace
  newline c := c = '\n'
  width _ := 1
  newline_blank c hc := by rw [of_decide_eq_true hc, k.newlineByte]

/-- A row of a box. -/
inductive BoxRow where
  | wide (row : List Char)
  | bytes (row : List Char)
deriving DecidableEq, Repr

variable (k : CalConfig)

/-- The width of a box. -/
def CalConfig.cols : ℕ := k.colSpaces.toNat

/-- A row as it is printed, escape sequences apart. -/
def CalConfig.rowItems : BoxRow → List CalItem
  | .wide row => row.map k.printed ++ List.replicate (k.cols - k.face.span row) (.byte ' ')
  | .bytes row => row.map (fun c => .byte (if k.isspace c then ' ' else c)) ++
      List.replicate (k.cols - k.byteFace.span row) (.byte ' ')

/-- The characters of a row that are not blank. -/
def CalConfig.rowInk : BoxRow → List Char
  | .wide row => k.face.ink row
  | .bytes row => k.byteFace.ink row

/-- What is printed, without the escape sequences. -/
def visible (items : List CalItem) : List CalItem :=
  items.filter fun i => match i with
    | .control _ => false
    | _ => true

/-- The face that an entry is set in. -/
def CalConfig.entryFace (e : CalEntry) : Face Char := if e.wcText.isSome then k.face else k.byteFace

/-- A row of an entry. -/
def CalEntry.boxRow (e : CalEntry) (row : List Char) : BoxRow :=
  if e.wcText.isSome then .wide row else .bytes row

/-- An entry with another rest of its text. -/
def CalEntry.setLeft (e : CalEntry) (s : List Char) : CalEntry :=
  if e.wcText.isSome then { e with wcPos := s } else { e with pos := s }

/-- The characters of an entry are wide enough to see and narrow enough to fit. -/
def CalConfig.Fits (e : CalEntry) : Prop :=
  e.wcText.isSome → ∀ c ∈ e.wcPos, 0 ≤ k.wcwidth c ∧ k.wcwidth c ≤ k.colSpaces

/-- What is left of an entry is set in `rows`. -/
def CalConfig.EntryRows (e : CalEntry) (rows : List BoxRow) : Prop :=
  ∃ texts, rows = texts.map e.boxRow ∧ (k.entryFace e).Wrap k.cols e.left texts

/-- The blank row between two entries. -/
def CalConfig.separator : List BoxRow := if k.calSepLine then [.wide []] else []

/-- A column of entries is set in `rows`: the rows of each entry, one entry below the other. -/
inductive CalConfig.ColumnRows : List CalEntry → List BoxRow → Prop
  | nil : ColumnRows [] []
  | last {e : CalEntry} {rows : List BoxRow} (h : k.EntryRows e rows) : ColumnRows [e] rows
  | more {e : CalEntry} {column : List CalEntry} {rows below : List BoxRow} (hne : column ≠ [])
      (h : if e.left = [] then rows = [] else k.EntryRows e rows)
      (hbelow : ColumnRows column below) : ColumnRows (e :: column) (rows ++ (k.separator ++ below))

/-- What `WriteOneColLine` writes for a column until nothing is left of it. -/
inductive CalConfig.ColumnRun (bgcolor : BgColors) (d : ℤ) :
    List CalEntry → List (List CalItem) → Prop
  | nil : ColumnRun bgcolor d [] []
  | cons {column : List CalEntry} {cells : List (List CalItem)} (hne : column ≠ [])
      (h : ColumnRun bgcolor d (k.writeOneColLine bgcolor d column).2 cells) :
      ColumnRun bgcolor d column ((k.writeOneColLine bgcolor d column).1 :: cells)

/-- A line of boxes, with `cells i` in box `i`. -/
def CalConfig.lineOf (bgcolor : BgColors) (colToDay : Fin 7 → ℤ)
    (cells : Fin 7 → Option (List CalItem)) : List CalItem :=
  drawBar ++ (List.finRange 7).flatMap (fun i =>
    (k.backgroundize bgcolor (colToDay i) ++
      (cells i).getD (List.replicate k.cols (.byte ' ')) ++
      k.unBackgroundize bgcolor (colToDay i)) ++ drawBar) ++ [CalItem.newline]

variable {k}

/-! ### One row as the library sets it -/

section Row

variable {s : List Char}

theorem span_face_cons (c : Char) (hc : 0 ≤ k.wcwidth c) : (k.face.cell c : ℤ) = k.written c := by
  unfold Face.cell CalConfig.written CalChars.face
  dsimp only
  split_ifs with hb hw
  · rfl
  · omega
  · omega

theorem findSpace_eq (hcols : 0 ≤ k.colSpaces) (hs : ∀ c ∈ s, 0 ≤ k.wcwidth c) (n w : ℕ)
    (found : Option ℕ) :
    k.findSpace n w found s = k.face.lastBreak k.cols n w found s := by
  have hle : ∀ m : ℕ, (m : ℤ) ≤ k.colSpaces ↔ ¬ k.cols < m := fun m => by
    unfold CalConfig.cols
    omega
  induction s generalizing n w found with
  | nil =>
    rw [CalConfig.findSpace, Face.lastBreak]
    by_cases h : k.cols < w
    · rw [if_neg (by rw [hle]; exact not_not.2 h), if_pos h]
    · rw [if_pos ((hle w).2 h), if_neg h]
  | cons c s ih =>
    have ih' := ih fun d hd => hs d (List.mem_cons_of_mem _ hd)
    have hc := hs c List.mem_cons_self
    have hwidth : k.face.width c = (k.wcwidth c).toNat := rfl
    rw [CalConfig.findSpace, Face.lastBreak]
    by_cases h : k.cols < w
    · rw [if_neg (by rw [hle]; exact not_not.2 h), if_pos h]
    rw [if_pos ((hle w).2 h), if_neg h]
    by_cases hn : c = '\n'
    · rw [if_pos hn, if_pos (show k.face.newline c = true from decide_eq_true hn)]
    rw [if_neg hn, if_neg (show ¬ k.face.newline c = true by simpa [CalChars.face] using hn)]
    by_cases hb : k.iswspace c = true
    · rw [if_pos hb, if_pos (show k.face.blank c = true from hb)]
      exact mod_cast ih' (n + 1) (w + 1) (some n)
    rw [if_neg hb, if_neg (show ¬ k.face.blank c = true from hb)]
    have hsum : (w : ℤ) + k.wcwidth c = ((w + k.face.width c : ℕ) : ℤ) := by omega
    by_cases h0 : k.wcwidth c = 0
    · have hw0 : k.face.width c = 0 := by omega
      rw [if_neg (not_not.2 h0), hw0, if_neg (show ¬ k.cols < w + 0 from h)]
      exact ih' (n + 1) w found
    · rw [if_pos h0, hsum]
      by_cases hover : k.cols < w + k.face.width c
      · rw [if_pos (not_le.1 (mt (hle _).1 (not_not.2 hover))), if_pos hover]
      · rw [if_neg (not_lt.2 ((hle _).2 hover)), if_neg hover]
        exact ih' (n + 1) (w + k.face.width c) found

theorem printBefore_eq (hs : ∀ c ∈ s, 0 ≤ k.wcwidth c) (w : ℤ) (n : ℕ) :
    k.printBefore w n s =
      ((s.take n).map k.printed, w + k.face.span (s.take n), s.drop n) := by
  induction s generalizing w n with
  | nil => cases n <;> simp [CalConfig.printBefore]
  | cons c s ih =>
    cases n with
    | zero => simp [CalConfig.printBefore]
    | succ n =>
      have hc := span_face_cons c (hs c List.mem_cons_self)
      rw [CalConfig.printBefore, ih fun d hd => hs d (List.mem_cons_of_mem _ hd)]
      simp only [List.take_succ_cons, List.drop_succ_cons, List.map_cons, Face.span_cons]
      rw [← hc]
      push_cast
      rw [add_assoc]

theorem printFitting_eq (hcols : 0 ≤ k.colSpaces) (hs : ∀ c ∈ s, 0 ≤ k.wcwidth c) (w : ℕ) :
    k.printFitting w s =
      ((s.take (k.face.fitting k.cols w s)).map k.printed,
        ((w + k.face.span (s.take (k.face.fitting k.cols w s)) : ℕ) : ℤ),
        s.drop (k.face.fitting k.cols w s)) := by
  induction s generalizing w with
  | nil => simp [CalConfig.printFitting]
  | cons c s ih =>
    have hc := span_face_cons c (hs c List.mem_cons_self)
    have hwritten : (w : ℤ) + k.written c = ((w + k.face.cell c : ℕ) : ℤ) := by omega
    -- the two tests of the loop are the one of `fitting`
    have htest : (w : ℤ) < k.colSpaces ∧ ¬ (!k.iswspace c && k.wcwidth c > 0 &&
        w + k.wcwidth c > k.colSpaces) = true ↔ w < k.cols ∧ w + k.face.cell c ≤ k.cols := by
      have hcell : (k.face.cell c : ℤ) =
          if k.iswspace c then 1 else if k.wcwidth c > 0 then k.wcwidth c else 0 := hc
      have hpos : ((k.cols : ℕ) : ℤ) = k.colSpaces := Int.toNat_of_nonneg hcols
      cases hb : k.iswspace c with
      | true =>
        rw [hb, if_pos rfl] at hcell
        simp only [Bool.not_true, Bool.false_and, Bool.false_eq_true, not_false_eq_true, and_true]
        omega
      | false =>
        have h0 := hs c List.mem_cons_self
        rw [hb, if_neg Bool.false_ne_true] at hcell
        simp only [Bool.not_false, Bool.true_and, Bool.and_eq_true, decide_eq_true_eq]
        split_ifs at hcell <;> omega
    rw [CalConfig.printFitting, Face.fitting]
    by_cases h : w < k.cols ∧ w + k.face.cell c ≤ k.cols
    · obtain ⟨h1, h2⟩ := htest.2 h
      rw [if_pos h1, if_neg h2, if_pos h, hwritten,
        ih fun d hd => hs d (List.mem_cons_of_mem _ hd)]
      simp only [List.take_succ_cons, List.drop_succ_cons, List.map_cons, Face.span_cons,
        Nat.add_assoc]
    · rw [if_neg h, List.take_zero, List.drop_zero, List.map_nil, Face.span_nil, Nat.add_zero]
      split_ifs with h1 h2
      · rfl
      · exact absurd (htest.1 ⟨h1, h2⟩) h
      · rfl

theorem findSpaceBytes_eq (hcols : 0 ≤ k.colSpaces) (n : ℕ) (found : Option ℕ) :
    k.findSpaceBytes n found s = k.byteFace.lastBreak k.cols n n found s := by
  have hle : ∀ m : ℕ, (m : ℤ) ≤ k.colSpaces ↔ ¬ k.cols < m := fun m => by
    unfold CalConfig.cols
    omega
  induction s generalizing n found with
  | nil =>
    rw [CalConfig.findSpaceBytes, Face.lastBreak]
    by_cases h : k.cols < n
    · rw [if_neg (by rw [hle]; exact not_not.2 h), if_pos h]
    · rw [if_pos ((hle n).2 h), if_neg h]
  | cons c s ih =>
    rw [CalConfig.findSpaceBytes, Face.lastBreak]
    by_cases h : k.cols < n
    · rw [if_neg (by rw [hle]; exact not_not.2 h), if_pos h]
    rw [if_pos ((hle n).2 h), if_neg h, ih]
    by_cases hn : c = '\n'
    · rw [if_pos hn, if_pos (show k.byteFace.newline c = true from decide_eq_true hn)]
    rw [if_neg hn, if_neg (show ¬ k.byteFace.newline c = true by simpa [CalChars.byteFace] using hn)]
    by_cases hb : k.isspace c = true
    · rw [if_pos hb, if_pos (show k.byteFace.blank c = true from hb)]
    rw [if_neg hb, if_neg (show ¬ k.byteFace.blank c = true from hb)]
    -- one column past the box the loop ends a round later
    have hwidth : k.byteFace.width c = 1 := rfl
    rw [hwidth]
    split_ifs with hover
    · cases s with
      | nil => rw [Face.lastBreak, if_pos hover]
      | cons d s => rw [Face.lastBreak, if_pos hover]
    · rfl

theorem cell_byteFace (c : Char) : k.byteFace.cell c = 1 := by
  unfold Face.cell CalChars.byteFace
  exact ite_self _

theorem span_byteFace (s : List Char) : k.byteFace.span s = s.length := by
  induction s with
  | nil => rfl
  | cons c s ih => rw [Face.span_cons, ih, cell_byteFace, List.length_cons, Nat.add_comm]

theorem fitting_byteFace (w : ℕ) (s : List Char) :
    k.byteFace.fitting k.cols w s = min (k.cols - w) s.length := by
  induction s generalizing w with
  | nil => rw [Face.fitting, List.length_nil, Nat.min_zero]
  | cons c s ih =>
    rw [Face.fitting, cell_byteFace, ih, List.length_cons]
    split_ifs <;> omega

end Row

/-! ### One row of an entry -/

section Entry

variable {bgcolor : BgColors} {d : ℤ} {e : CalEntry} {next : List CalEntry}

@[simp] theorem visible_append (a b : List CalItem) : visible (a ++ b) = visible a ++ visible b :=
  List.filter_append ..

@[simp] theorem visible_nil : visible [] = [] := rfl

@[simp] theorem visible_control (c : Control) (l : List CalItem) :
    visible (.control c :: l) = visible l := rfl

@[simp] theorem visible_pad (n : ℕ) (c : Char) :
    visible (List.replicate n (.byte c)) = List.replicate n (.byte c) :=
  List.filter_eq_self.2 fun i hi => by rw [List.eq_of_mem_replicate hi]

theorem visible_printed (row : List Char) : visible (row.map k.printed) = row.map k.printed := by
  refine List.filter_eq_self.2 fun i hi => ?_
  obtain ⟨c, -, rfl⟩ := List.mem_map.1 hi
  unfold CalConfig.printed
  split_ifs <;> rfl

theorem visible_bytes (f : Char → Char) (row : List Char) :
    visible (row.map fun c => .byte (f c)) = row.map fun c => .byte (f c) := by
  refine List.filter_eq_self.2 fun i hi => ?_
  obtain ⟨c, -, rfl⟩ := List.mem_map.1 hi
  rfl

@[simp] theorem visible_sendLrm : visible k.sendLrm = [] := by
  unfold CalConfig.sendLrm
  split_ifs <;> rfl

@[simp] theorem visible_backgroundize : visible (k.backgroundize bgcolor d) = [] := by
  unfold CalConfig.backgroundize
  split_ifs
  · rfl
  · rfl
  · cases bgcolor d <;> rfl

@[simp] theorem visible_unBackgroundize : visible (k.unBackgroundize bgcolor d) = [] := by
  unfold CalConfig.unBackgroundize
  split_ifs <;> rfl

@[simp] theorem visible_colorizeEntry (clamp : Bool) : visible (k.colorizeEntry e clamp) = [] := by
  unfold CalConfig.colorizeEntry
  split_ifs <;> rfl

@[simp] theorem visible_decolorizeEntry : visible (k.decolorizeEntry bgcolor d e) = [] := by
  unfold CalConfig.decolorizeEntry
  split_ifs
  · rw [visible_control, visible_backgroundize]
  · rfl

@[simp] theorem visible_link (url : Option (List Char)) (f : List Char → Control) :
    visible (url.map fun u => .control (f u)).toList = [] := by
  cases url <;> rfl

theorem printLeft_nil (n : ℤ) (pad : Char) :
    k.printLeft [] n pad = List.replicate n.toNat (.byte pad) := if_pos rfl

theorem printCentered_nil (n : ℤ) (pad : CalItem) :
    k.printCentered [] n pad = List.replicate n.toNat pad := if_pos rfl

theorem left_of_wide (h : e.wcText.isSome) : e.left = e.wcPos := if_pos h

theorem left_of_bytes (h : ¬ e.wcText.isSome) : e.left = e.pos := if_neg h

@[simp] theorem setLeft_left (s : List Char) : (e.setLeft s).left = s := by
  unfold CalEntry.setLeft CalEntry.left
  split_ifs <;> rfl

theorem setLeft_wcText (s : List Char) : (e.setLeft s).wcText = e.wcText := by
  unfold CalEntry.setLeft
  split_ifs <;> rfl

@[simp] theorem setLeft_boxRow (s : List Char) : (e.setLeft s).boxRow = e.boxRow := by
  funext row
  rw [CalEntry.boxRow, CalEntry.boxRow, setLeft_wcText]

@[simp] theorem setLeft_entryFace (s : List Char) :
    k.entryFace (e.setLeft s) = k.entryFace e := by
  rw [CalConfig.entryFace, CalConfig.entryFace, setLeft_wcText]

/-- A line of a box shows the row `row` of an entry. -/
theorem writeWide_spec (hcols : 0 ≤ k.colSpaces) (hwide : e.wcText.isSome) (hfits : k.Fits e) :
    visible (k.writeWide bgcolor d e next).1 =
        k.rowItems (.wide (k.face.setRow k.cols e.wcPos).1) ∧
      (k.writeWide bgcolor d e next).2 =
        if (k.face.setRow k.cols e.wcPos).2 = [] ∧ next = [] then []
        else { e with wcPos := (k.face.setRow k.cols e.wcPos).2 } :: next := by
  have hs : ∀ c ∈ e.wcPos, 0 ≤ k.wcwidth c := fun c hc => (hfits hwide c hc).1
  have hloop : k.printRow e.wcPos = ((k.face.setRow k.cols e.wcPos).1.map k.printed,
        ((k.face.span (k.face.setRow k.cols e.wcPos).1 : ℕ) : ℤ),
        e.wcPos.drop (k.face.rowLength k.cols e.wcPos)) := by
    have hfind := findSpace_eq hcols hs 0 0 none
    rw [Nat.cast_zero] at hfind
    unfold CalConfig.printRow Face.setRow Face.rowLength
    rw [hfind]
    cases k.face.lastBreak k.cols 0 0 none e.wcPos with
    | none =>
      have hfit := printFitting_eq hcols hs 0
      rw [Nat.cast_zero, Nat.zero_add] at hfit
      exact hfit
    | some n =>
      have hbefore := printBefore_eq hs 0 n
      rw [zero_add] at hbefore
      exact hbefore
  unfold CalConfig.writeWide
  rw [hloop]
  refine ⟨?_, rfl⟩
  have hpad : (k.colSpaces - ((k.face.span (k.face.setRow k.cols e.wcPos).1 : ℕ) : ℤ)).toNat =
      k.cols - k.face.span (k.face.setRow k.cols e.wcPos).1 := by
    unfold CalConfig.cols
    omega
  simp [CalConfig.rowItems, visible_printed, hpad]

theorem writeBytes_spec (hcols : 0 ≤ k.colSpaces) :
    visible (k.writeBytes bgcolor d e next).1 =
        k.rowItems (.bytes (k.byteFace.setRow k.cols e.pos).1) ∧
      (k.writeBytes bgcolor d e next).2 =
        if (k.byteFace.setRow k.cols e.pos).2 = [] ∧ next = [] then []
        else { e with pos := (k.byteFace.setRow k.cols e.pos).2 } :: next := by
  have hfit : k.byteFace.fitting k.cols 0 e.pos = min k.cols e.pos.length := by
    rw [fitting_byteFace, Nat.sub_zero]
  have hrow : k.byteFace.setRow k.cols e.pos =
      (e.pos.take ((k.findSpaceBytes 0 none e.pos).getD k.colSpaces.toNat),
        (e.pos.drop ((k.findSpaceBytes 0 none e.pos).getD k.colSpaces.toNat)).dropWhile
          k.isspace) := by
    unfold Face.setRow Face.rowLength
    rw [findSpaceBytes_eq hcols]
    cases k.byteFace.lastBreak k.cols 0 0 none e.pos with
    | some n => rfl
    | none =>
      rw [Option.getD_none, Option.getD_none, hfit, ← List.take_eq_take_min,
        ← List.drop_eq_drop_min]
      rfl
  rw [hrow]
  unfold CalConfig.writeBytes
  refine ⟨?_, rfl⟩
  have hpad (row : List Char) : (k.colSpaces - (row.length : ℤ)).toNat =
      k.cols - k.byteFace.span row := by
    rw [span_byteFace]
    unfold CalConfig.cols
    omega
  simp only [CalConfig.rowItems, hpad, visible_append, visible_bytes, visible_colorizeEntry,
    visible_decolorizeEntry, visible_pad, List.nil_append, List.append_nil]

/-- One line of an entry: the next row of its text, and the entry with the rest. -/
theorem writeOneColLine_entry (hcols : 0 ≤ k.colSpaces) (hfits : k.Fits e)
    (h : ¬ (e.left = [] ∧ next ≠ [])) :
    visible (k.writeOneColLine bgcolor d (e :: next)).1 =
        k.rowItems (e.boxRow ((k.entryFace e).setRow k.cols e.left).1) ∧
      (k.writeOneColLine bgcolor d (e :: next)).2 =
        if ((k.entryFace e).setRow k.cols e.left).2 = [] ∧ next = [] then []
        else e.setLeft ((k.entryFace e).setRow k.cols e.left).2 :: next := by
  rw [CalConfig.writeOneColLine, if_neg h]
  unfold CalConfig.entryFace CalEntry.boxRow CalEntry.setLeft
  by_cases hwide : e.wcText.isSome
  · rw [if_pos hwide, if_pos hwide, if_pos hwide, if_pos hwide, left_of_wide hwide]
    exact writeWide_spec hcols hwide hfits
  · rw [if_neg hwide, if_neg hwide, if_neg hwide, if_neg hwide, left_of_bytes hwide]
    exact writeBytes_spec hcols

theorem width_le (hcols : 0 < k.colSpaces) (hfits : k.Fits e) :
    ∀ c ∈ e.left, (k.entryFace e).width c ≤ k.cols := by
  intro c hc
  unfold CalConfig.cols
  by_cases hwide : e.wcText.isSome
  · rw [left_of_wide hwide] at hc
    have hle := (hfits hwide c hc).2
    have hwidth : (k.entryFace e).width c = (k.wcwidth c).toNat := by
      rw [CalConfig.entryFace, if_pos hwide]
      rfl
    omega
  · have hwidth : (k.entryFace e).width c = 1 := by
      rw [CalConfig.entryFace, if_neg hwide]
      rfl
    omega

theorem fits_setLeft {s : List Char} (hfits : k.Fits e) (hs : ∀ c ∈ s, c ∈ e.left) :
    k.Fits (e.setLeft s) := by
  intro hwide c hc
  have hwide' : e.wcText.isSome := by rw [← setLeft_wcText]; exact hwide
  have hpos : (e.setLeft s).wcPos = s := by rw [← left_of_wide hwide, setLeft_left]
  rw [hpos] at hc
  exact hfits hwide' c (left_of_wide hwide' ▸ hs c hc)

end Entry

/-! ### A column -/

section Column

variable {bgcolor : BgColors} {d : ℤ} {e : CalEntry} {next column : List CalEntry}
  {rows : List BoxRow}

/-- What is still to be written of a column: the characters of its entries, and the entries. -/
def columnLeft (column : List CalEntry) : ℕ := (column.map fun e => e.left.length + 1).sum

theorem columnLeft_cons : columnLeft (e :: next) = e.left.length + 1 + columnLeft next :=
  List.sum_cons

/-- A column of one entry more, when its first entry is at its end. -/
theorem ColumnRows_ended (hne : next ≠ []) (he : e.left = []) {below : List BoxRow}
    (hbelow : k.ColumnRows next below) : k.ColumnRows (e :: next) (k.separator ++ below) :=
  show k.ColumnRows (e :: next) ([] ++ (k.separator ++ below)) from
    .more hne (by rw [if_pos he]) hbelow

/-- A row is set before the rows of the rest. -/
theorem ColumnRows_row (h : ¬ (e.left = [] ∧ next ≠ [])) {gap rest row : List Char}
    (hrow : Face.IsRow (k.entryFace e) k.cols e.left row gap rest)
    (hbelow : k.ColumnRows (if rest = [] ∧ next = [] then [] else e.setLeft rest :: next) rows) :
    k.ColumnRows (e :: next) (e.boxRow row :: rows) := by
  -- the rows of the entry, from those of its rest
  have hentry (hrest : rest ≠ []) {rows : List BoxRow}
      (hr : k.EntryRows (e.setLeft rest) rows) : k.EntryRows e (e.boxRow row :: rows) := by
    obtain ⟨texts, rfl, hw⟩ := hr
    rw [setLeft_entryFace, setLeft_left] at hw
    exact ⟨row :: texts, by rw [setLeft_boxRow, List.map_cons], hrow.cut hrest hw⟩
  have hlast (hrest : rest = []) : k.EntryRows e [e.boxRow row] := by
    subst hrest
    exact ⟨[row], rfl, hrow.last⟩
  by_cases hnext : next = []
  · subst hnext
    by_cases hrest : rest = []
    · rw [if_pos ⟨hrest, rfl⟩] at hbelow
      cases hbelow
      exact .last (hlast hrest)
    · rw [if_neg (by simp [hrest])] at hbelow
      cases hbelow with
      | last hr => exact .last (hentry hrest hr)
      | more hne => exact absurd rfl hne
  · rw [if_neg (by simp [hnext])] at hbelow
    have hleft : e.left ≠ [] := fun he => h ⟨he, hnext⟩
    cases hbelow with
    | last hr => exact absurd rfl hnext
    | more hne hr hbelow =>
      rw [setLeft_left] at hr
      by_cases hrest : rest = []
      · rw [if_pos hrest] at hr
        subst hr
        rw [← List.singleton_append]
        exact .more hne (by rw [if_neg hleft]; exact hlast hrest) hbelow
      · rw [if_neg hrest] at hr
        rw [← List.cons_append]
        exact .more hne (by rw [if_neg hleft]; exact hentry hrest hr) hbelow

/-- Each row takes something of the column. -/
theorem columnLeft_lt (hcols : 0 < k.colSpaces) (hfits : k.Fits e)
    (h : ¬ (e.left = [] ∧ next ≠ [])) {row gap rest : List Char}
    (hrow : Face.IsRow (k.entryFace e) k.cols e.left row gap rest) :
    columnLeft (if rest = [] ∧ next = [] then [] else e.setLeft rest :: next) <
      columnLeft (e :: next) := by
  rw [columnLeft_cons]
  split_ifs with hend
  · exact Nat.lt_of_lt_of_le (Nat.succ_pos _) (Nat.le_add_right _ _)
  rw [columnLeft_cons, setLeft_left]
  by_cases he : e.left = []
  · -- the text is at its end, and no entry follows
    have hrest : rest = [] := by
      have hsplit := hrow.split
      rw [he] at hsplit
      exact (List.append_eq_nil_iff.1 (List.append_eq_nil_iff.1 hsplit.symm).2).2
    exact absurd ⟨hrest, by_contra fun hnext => h ⟨he, hnext⟩⟩ hend
  · have := hrow.length_lt (by unfold CalConfig.cols; omega) (width_le hcols hfits) he
    omega

theorem CalConfig.ColumnRun.of_step {left : List CalEntry} {cell : List CalItem}
    {cells : List (List CalItem)} (hne : column ≠ [])
    (h : k.writeOneColLine bgcolor d column = (cell, left)) (hrun : k.ColumnRun bgcolor d left cells) :
    k.ColumnRun bgcolor d column (cell :: cells) := by
  have hleft : (k.writeOneColLine bgcolor d column).2 = left := congrArg Prod.snd h
  have hcell : (k.writeOneColLine bgcolor d column).1 = cell := congrArg Prod.fst h
  exact hcell ▸ .cons hne (hleft ▸ hrun)

/-- **A column comes to its end**, and shows its entries row by row. -/
theorem column_spec (hcols : 0 < k.colSpaces) (hfits : ∀ e ∈ column, k.Fits e) :
    ∃ cells rows, k.ColumnRun bgcolor d column cells ∧ k.ColumnRows column rows ∧
      cells.map visible = rows.map k.rowItems ∧ cells.length ≤ columnLeft column := by
  induction hn : columnLeft column using Nat.strong_induction_on generalizing column with
  | _ n ih =>
    subst hn
    cases column with
    | nil => exact ⟨[], [], .nil, .nil, rfl, Nat.zero_le _⟩
    | cons e next =>
      have hfe := hfits e List.mem_cons_self
      have hfn : ∀ e ∈ next, k.Fits e := fun e he => hfits e (List.mem_cons_of_mem _ he)
      have hne : e :: next ≠ [] := List.cons_ne_nil e next
      by_cases h : e.left = [] ∧ next ≠ []
      · obtain ⟨cells, rows, hrun, hrows, hcells, hlen⟩ := ih _
          (by rw [columnLeft_cons]; omega) hfn rfl
        have hrows' := ColumnRows_ended h.2 h.1 hrows
        unfold CalConfig.separator at hrows'
        by_cases hsep : k.calSepLine
        · -- the blank line between two entries
          have hstep : k.writeOneColLine bgcolor d (e :: next) =
              (k.printLeft [] k.colSpaces ' ', next) := by
            rw [CalConfig.writeOneColLine, if_pos h, if_pos hsep]
          rw [if_pos hsep] at hrows'
          refine ⟨_, _, .of_step hne hstep hrun, hrows', ?_, ?_⟩
          · have hblank : visible (k.printLeft [] k.colSpaces ' ') = k.rowItems (.wide []) := by
              rw [printLeft_nil, visible_pad]
              rfl
            rw [List.map_cons, hblank, hcells]
            rfl
          · rw [List.length_cons, columnLeft_cons]
            omega
        · have hstep : k.writeOneColLine bgcolor d (e :: next) =
              k.writeOneColLine bgcolor d next := by
            rw [CalConfig.writeOneColLine, if_pos h, if_neg hsep]
          rw [if_neg hsep] at hrows'
          cases hrun with
          | nil => exact absurd rfl h.2
          | cons _ hrun =>
            exact ⟨_, _, .of_step hne hstep hrun, hrows', hcells, by rw [columnLeft_cons]; omega⟩
      · obtain ⟨hshown, hleft⟩ := @writeOneColLine_entry k bgcolor d e next hcols.le hfe h
        obtain ⟨gap, hrow⟩ := @Face.setRow_isRow Char (k.entryFace e) k.cols e.left
        set row := ((k.entryFace e).setRow k.cols e.left).1
        set rest := ((k.entryFace e).setRow k.cols e.left).2
        have hlt := columnLeft_lt hcols hfe h hrow
        have hfits' : ∀ x ∈ (if rest = [] ∧ next = [] then [] else e.setLeft rest :: next),
            k.Fits x := by
          split_ifs
          · exact List.forall_mem_nil _
          · exact List.forall_mem_cons.2 ⟨fits_setLeft hfe fun c hc => hrow.mem hc, hfn⟩
        obtain ⟨cells, rows, hrun, hrows, hcells, hlen⟩ := ih _ hlt hfits' rfl
        rw [← hleft] at hrun
        refine ⟨_, _, .cons hne hrun, ColumnRows_row h hrow hrows, ?_, ?_⟩
        · rw [List.map_cons, List.map_cons, hshown, hcells]
        · rw [List.length_cons]
          omega

end Column

/-! ### The seven columns side by side -/

section Lines

variable {bgcolor : BgColors} {colToDay : Fin 7 → ℤ} {columns : Columns}

theorem CalConfig.ColumnRun.nil_iff {column : List CalEntry} {cells : List (List CalItem)}
    {d : ℤ} (h : k.ColumnRun bgcolor d column cells) : column = [] ↔ cells = [] := by
  cases h with
  | nil => simp
  | cons hne => simp [hne]

theorem CalConfig.ColumnRun.tail {column : List CalEntry} {cells : List (List CalItem)} {d : ℤ}
    (h : k.ColumnRun bgcolor d column cells) :
    k.ColumnRun bgcolor d (k.writeOneColLine bgcolor d column).2 cells.tail := by
  cases h with
  | nil => exact .nil
  | cons _ h => exact h

theorem CalConfig.ColumnRun.head?_eq {column : List CalEntry} {cells : List (List CalItem)}
    {d : ℤ} (h : k.ColumnRun bgcolor d column cells) : cells.head? =
      if column ≠ [] then some (k.writeOneColLine bgcolor d column).1 else none := by
  cases h with
  | nil => rfl
  | cons hne => rw [if_pos hne, List.head?_cons]

/-- The lines of a row: as many as the longest column has. -/
theorem writeCalLines_spec {cells : Fin 7 → List (List CalItem)} {fuel : ℕ}
    (hrun : ∀ i, k.ColumnRun bgcolor (colToDay i) (columns i) (cells i))
    (hfuel : ∀ i, (cells i).length < fuel) :
    ∃ lines, k.writeCalLines bgcolor colToDay fuel columns = some (lines, fun _ => []) ∧
      (∀ i, (cells i).length ≤ lines.length) ∧
      (∀ j < lines.length, ∃ i, j < (cells i).length) ∧
      ∀ j < lines.length, lines[j]? =
        some (k.lineOf bgcolor colToDay fun i => (cells i)[j]?) := by
  induction fuel generalizing columns cells with
  | zero => exact absurd (hfuel 0) (Nat.not_lt_zero _)
  | succ fuel ih =>
    rw [CalConfig.writeCalLines, CalConfig.writeOneCalLine]
    by_cases hempty : ∀ i, columns i = []
    · rw [if_pos hempty]
      have hcells (i : Fin 7) : cells i = [] := (hrun i).nil_iff.1 (hempty i)
      refine ⟨[], ?_, fun i => by rw [hcells], nofun, nofun⟩
      rw [show columns = fun _ => [] from funext hempty]
      rfl
    rw [if_neg hempty]
    have hline : k.calLine bgcolor colToDay columns =
        k.lineOf bgcolor colToDay fun i => (cells i)[0]? := by
      unfold CalConfig.calLine CalConfig.lineOf
      refine congrArg (fun l => drawBar ++ l ++ [CalItem.newline])
        (List.flatMap_congr fun i _ => ?_)
      dsimp only
      rw [CalConfig.writeCell, ← List.head?_eq_getElem?, (hrun i).head?_eq]
      split_ifs with h
      · rfl
      · rw [Option.getD_none, printCentered_nil]
        rfl
    have htail (i : Fin 7) := (hrun i).tail
    set left : Columns := fun i => (k.writeOneColLine bgcolor (colToDay i) (columns i)).2
    by_cases hdone : ∀ i, left i = []
    · have hcells (i : Fin 7) : (cells i).tail = [] := (htail i).nil_iff.1 (hdone i)
      refine ⟨[k.calLine bgcolor colToDay columns], ?_, fun i => ?_, fun j hj => ?_,
        fun j hj => ?_⟩
      · simp only [if_pos hdone]
        rw [show left = fun _ => [] from funext hdone]
        rfl
      · have := congrArg List.length (hcells i)
        rw [List.length_tail, List.length_nil] at this
        rw [List.length_singleton]
        omega
      · obtain rfl : j = 0 := by simpa using hj
        obtain ⟨i, hi⟩ := not_forall.1 hempty
        exact ⟨i, List.length_pos_of_ne_nil fun h => hi ((hrun i).nil_iff.2 h)⟩
      · obtain rfl : j = 0 := by simpa using hj
        rw [hline]
        rfl
    · obtain ⟨i₀, hi₀⟩ := not_forall.1 hdone
      have hpos : 0 < fuel := by
        have := List.length_pos_of_ne_nil (mt (htail i₀).nil_iff.2 hi₀)
        have := hfuel i₀
        rw [List.length_tail] at *
        omega
      obtain ⟨lines, hlines, hall, hex, hget⟩ := ih htail fun i => by
        have := hfuel i
        rw [List.length_tail]
        omega
      refine ⟨k.calLine bgcolor colToDay columns :: lines, ?_, fun i => ?_, fun j hj => ?_,
        fun j hj => ?_⟩
      · simp only [if_neg hdone]
        rw [if_neg (by decide), if_neg (not_not.2 rfl), hlines]
        rfl
      · have := hall i
        rw [List.length_tail] at this
        rw [List.length_cons]
        omega
      · cases j with
        | zero =>
          obtain ⟨i, hi⟩ := not_forall.1 hempty
          exact ⟨i, List.length_pos_of_ne_nil fun h => hi ((hrun i).nil_iff.2 h)⟩
        | succ j =>
          obtain ⟨i, hi⟩ := hex j (by simpa using hj)
          rw [List.length_tail] at hi
          exact ⟨i, by omega⟩
      · cases j with
        | zero => rw [hline]; rfl
        | succ j =>
          rw [List.getElem?_cons_succ, hget j (by simpa using hj)]
          simp only [List.getElem?_tail]

end Lines

end Remind
