import Mathlib.Algebra.Order.BigOperators.Group.List
import Remind.CalendarRows

/-!
# CalendarRun — a whole calendar, row by row

A row is given by the day `o` of its first column: it has the days `o + i` of the month, each in
column `i`, whatever part of the week the month fills.  In this numbering a month is a walk
`o, o + 7, …` from the week of its first day to that of its last.
-/

namespace Remind

open Lib

variable {σ : Type} (k : CalSetup σ)

/-! ### Days and columns -/

/-- 0 where the week begins on a Monday, 1 where it begins on a Sunday. -/
def CalSetup.shift : ℤ := if k.mondayFirst then 0 else 1

/-- The column of a day. -/
def CalSetup.colOf (n : ℤ) : Fin 7 :=
  ⟨((n + k.shift) % 7).toNat, by omega⟩

/-- The day in the first column of the week of `n`. -/
def CalSetup.weekStart (n : ℤ) : ℤ := n - (k.colOf n : ℕ)

/-- The days from `a` to the one before `b`. -/
def dayList (a b : ℤ) : List ℤ := (List.range (b - a).toNat).map fun j : ℕ => a + j

/-- The columns of a row that have a day of `[a, b)`, with the day `o` in column 0. -/
def rowDays (a b o : ℤ) : List (Fin 7) :=
  (List.finRange 7).filter fun i : Fin 7 => a ≤ o + (i : ℕ) ∧ o + (i : ℕ) < b

variable {k}

theorem colOf_val (n : ℤ) : ((k.colOf n : ℕ) : ℤ) = (n + k.shift) % 7 := by
  unfold CalSetup.colOf
  dsimp only
  omega

theorem weekday_eq {n : ℤ} (hn : 0 ≤ n) : k.weekday n = (k.colOf n : ℕ) := by
  rw [colOf_val]
  unfold CalSetup.weekday CalSetup.shift
  by_cases hm : k.mondayFirst
  · rw [hm, if_neg (by decide), if_pos rfl, Int.tmod_eq_emod_of_nonneg hn, add_zero]
  · rw [if_pos (by simpa using hm), if_neg hm, Int.tmod_eq_emod_of_nonneg (by omega)]

theorem weekStart_le (n : ℤ) : k.weekStart n ≤ n ∧ n < k.weekStart n + 7 := by
  unfold CalSetup.weekStart
  have := (k.colOf n).isLt
  omega

/-- In a row each column is that of its day. -/
theorem colOf_row {n : ℤ} (i : Fin 7) : k.colOf (k.weekStart n + (i : ℕ)) = i := by
  refine Fin.ext (Int.natCast_inj.1 ?_)
  rw [colOf_val, CalSetup.weekStart, colOf_val]
  have := i.isLt
  omega

theorem weekStart_add (n : ℤ) (i : Fin 7) :
    k.weekStart (k.weekStart n + (i : ℕ)) = k.weekStart n := by
  rw [CalSetup.weekStart, colOf_row]
  omega

theorem weekStart_self (n : ℤ) : k.weekStart (k.weekStart n) = k.weekStart n := by
  simpa using weekStart_add (k := k) (n := n) 0

theorem weekStart_next (n : ℤ) : k.weekStart (k.weekStart n + 7) = k.weekStart n + 7 := by
  have hcol : k.colOf (k.weekStart n + 7) = k.colOf (k.weekStart n + ((0 : Fin 7) : ℕ)) := by
    refine Fin.ext (Int.natCast_inj.1 ?_)
    rw [colOf_val, colOf_val, Fin.val_zero]
    omega
  rw [CalSetup.weekStart, hcol, colOf_row, Fin.val_zero]
  omega

theorem dayList_append {a x b : ℤ} (hax : a ≤ x) (hxb : x ≤ b) :
    dayList a b = dayList a x ++ dayList x b := by
  unfold dayList
  have hlen : (b - a).toNat = (x - a).toNat + (b - x).toNat := by omega
  rw [hlen, List.range_add, List.map_append, List.map_map]
  refine congrArg _ (List.map_congr_left fun j _ => ?_)
  simp only [Function.comp_apply]
  omega

theorem mem_rowDays {a b o : ℤ} {i : Fin 7} :
    i ∈ rowDays a b o ↔ a ≤ o + (i : ℕ) ∧ o + (i : ℕ) < b := by
  simp [rowDays]

theorem takeWhile_columns : ∀ c t : Fin 8,
    ((List.finRange 7).drop c).takeWhile (fun i : Fin 7 => (i : ℕ) < (t : ℕ)) =
      (List.finRange 7).filter fun i : Fin 7 => (c : ℕ) ≤ i ∧ (i : ℕ) < (t : ℕ) := by
  decide

theorem map_columns : ∀ c t : Fin 8, ((List.finRange 7).filter fun i : Fin 7 =>
    (c : ℕ) ≤ i ∧ (i : ℕ) < (t : ℕ)).map (fun i : Fin 7 => (i : ℕ)) = List.range' c (t - c) := by
  decide

/-- A row as an interval of columns. -/
theorem rowDays_eq {b o : ℤ} (c : ℕ) : rowDays (o + c) b o = (List.finRange 7).filter
    fun i : Fin 7 => c ≤ i ∧ (i : ℕ) < min (b - o).toNat 7 := by
  refine List.filter_congr fun i _ => ?_
  have := i.isLt
  rw [decide_eq_decide]
  omega

/-- The columns are filled from the first day on, as long as there are days. -/
theorem rowDays_takeWhile {b o : ℤ} {c : ℕ} (hc : c ≤ 7) :
    ((List.finRange 7).drop c).takeWhile (fun i : Fin 7 => decide (o + (i : ℕ) < b)) =
      rowDays (o + c) b o := by
  have h := takeWhile_columns ⟨c, by omega⟩ ⟨min (b - o).toNat 7, by omega⟩
  rw [rowDays_eq, ← h]
  congr 1
  funext i
  have := i.isLt
  rw [decide_eq_decide]
  dsimp only
  omega

/-- The days of a row, from the day in column `c` on. -/
theorem rowDays_map {b o : ℤ} {c : ℕ} (hc : c ≤ 7) :
    (rowDays (o + c) b o).map (fun i : Fin 7 => o + (i : ℕ)) = dayList (o + c) (min b (o + 7)) := by
  have h := map_columns ⟨c, by omega⟩ ⟨min (b - o).toNat 7, by omega⟩
  have hcomp : (fun i : Fin 7 => o + ((i : ℕ) : ℤ)) = (fun n : ℕ => o + (n : ℤ)) ∘ fun i : Fin 7 => (i : ℕ) :=
    rfl
  rw [hcomp, ← List.map_map, rowDays_eq, h, List.range'_eq_map_range, List.map_map, dayList]
  have hlen : min (b - o).toNat 7 - c = (min b (o + 7) - (o + c)).toNat := by omega
  dsimp only
  rw [hlen]
  refine List.map_congr_left fun j _ => ?_
  simp only [Function.comp_apply]
  omega

/-! ### Filling the columns of a row -/

variable (k) in
/-- The entries are those that some run of `GenerateCalEntries` has put into a column. -/
def CalSetup.Generated (entries : List CalEntry) : Prop :=
  entries = [] ∨ ∃ world dse localDse col, entries = (k.generate world dse localDse col).2

theorem drop_columns {c : ℕ} (hc : c < 7) :
    (List.finRange 7).drop c = ⟨c, hc⟩ :: (List.finRange 7).drop (c + 1) := by
  rw [List.drop_eq_getElem_cons (by simpa using hc), List.getElem_finRange]
  rfl

theorem mem_drop_columns : ∀ (c : Fin 8) (i : Fin 7),
    i ∈ (List.finRange 7).drop c → (c : ℕ) ≤ i := by
  decide

/-- The loop over the columns: one run for each column shown, for the next day each time. -/
theorem fillColumns_spec {o o' : ℤ} {shown : Fin 7 → Bool} (c : ℕ) {s : CalState σ}
    (hday : s.dseToday = o + c) (hlocal : s.localDseToday = o' + c) :
    ∃ entries : Fin 7 → List CalEntry, (∀ i, k.Generated (entries i)) ∧
      (k.fillColumns shown ((List.finRange 7).drop c) s).1 =
        (((List.finRange 7).drop c).takeWhile shown).map (fun i : Fin 7 =>
          .generate (o + (i : ℕ)) (o' + (i : ℕ)) (some i) (entries i)) ∧
      (k.fillColumns shown ((List.finRange 7).drop c) s).2.dseToday =
        s.dseToday + (((List.finRange 7).drop c).takeWhile shown).length ∧
      (k.fillColumns shown ((List.finRange 7).drop c) s).2.localDseToday =
        s.localDseToday + (((List.finRange 7).drop c).takeWhile shown).length ∧
      ∀ i, (k.fillColumns shown ((List.finRange 7).drop c) s).2.columns i =
        if i ∈ ((List.finRange 7).drop c).takeWhile shown then
          k.collect (s.columns i) (entries i) else s.columns i := by
  induction hn : 7 - c generalizing c s with
  | zero =>
    have hdrop : (List.finRange 7).drop c = [] := List.drop_eq_nil_of_le (by simp; omega)
    rw [hdrop]
    exact ⟨fun _ => [], fun _ => .inl rfl, rfl, by simp [CalSetup.fillColumns],
      by simp [CalSetup.fillColumns], fun i => rfl⟩
  | succ n ih =>
    have hc : c < 7 := by omega
    rw [drop_columns hc, CalSetup.fillColumns]
    by_cases hshown : shown ⟨c, hc⟩ = true
    · -- a run for column `c`, and the columns behind it
      set col : Fin 7 := ⟨c, hc⟩
      set t : CalState σ := (k.generateCalEntries (some col) s).2
      obtain ⟨entries, hgen, hcalls, hdse, hloc, hcols⟩ := ih (c + 1)
        (s := { t with colToDay := Function.update t.colToDay col (dayOf s.dseToday)
                       dseToday := t.dseToday + 1
                       localDseToday := t.localDseToday + 1 })
        (by rw [show t.dseToday = s.dseToday from rfl]; push_cast; omega)
        (by rw [show t.localDseToday = s.localDseToday from rfl]; push_cast; omega) (by omega)
      have hbehind : ∀ i ∈ ((List.finRange 7).drop (c + 1)).takeWhile shown, i ≠ col := by
        rintro i hi rfl
        have := mem_drop_columns ⟨c + 1, by omega⟩ _ ((List.takeWhile_sublist _).subset hi)
        exact absurd this (Nat.not_succ_le_self c)
      have htake : (col :: (List.finRange 7).drop (c + 1)).takeWhile shown =
          col :: ((List.finRange 7).drop (c + 1)).takeWhile shown :=
        List.takeWhile_cons_of_pos hshown
      rw [if_neg (by simpa using hshown), htake]
      refine ⟨Function.update entries col
        (k.generate s.world s.dseToday s.localDseToday (some col)).2, fun i => ?_, ?_, ?_, ?_,
        fun i => ?_⟩
      · rcases eq_or_ne i col with rfl | hi
        · rw [Function.update_self]
          exact .inr ⟨_, _, _, _, rfl⟩
        · rw [Function.update_of_ne hi]
          exact hgen i
      · rw [List.map_cons, Function.update_self]
        refine congrArg₂ List.cons ?_ ?_
        · rw [show o + ((col : ℕ) : ℤ) = s.dseToday from hday.symm,
            show o' + ((col : ℕ) : ℤ) = s.localDseToday from hlocal.symm]
          rfl
        · refine hcalls.trans (List.map_congr_left fun i hi => ?_)
          rw [Function.update_of_ne (hbehind i hi)]
      · refine hdse.trans ?_
        rw [show t.dseToday = s.dseToday from rfl, List.length_cons]
        push_cast
        omega
      · refine hloc.trans ?_
        rw [show t.localDseToday = s.localDseToday from rfl, List.length_cons]
        push_cast
        omega
      · refine (hcols i).trans ?_
        rcases eq_or_ne i col with rfl | hi
        · rw [if_neg fun h => hbehind _ h rfl, if_pos List.mem_cons_self, Function.update_self]
          exact Function.update_self ..
        · have hsame : t.columns i = s.columns i := Function.update_of_ne hi ..
          simp only [List.mem_cons, hi, false_or, Function.update_of_ne hi, hsame]
    · have htake : (⟨c, hc⟩ :: (List.finRange 7).drop (c + 1)).takeWhile shown = [] :=
        List.takeWhile_cons_of_neg hshown
      rw [if_pos (by simpa using hshown), htake]
      exact ⟨fun _ => [], fun _ => .inl rfl, rfl, by simp, by simp, fun i => rfl⟩

/-! ### What a row is -/

section Row

variable (k)

/-- The lines of a row behind its labels, for the columns of entries. -/
def CalSetup.BodyOf (columns : Columns) (more : Bool) (body : List CalItem) : Prop :=
  ∃ (pad lines blanks : List (List CalItem)) (rows : Fin 7 → List BoxRow), body = pad.flatten ++ lines.flatten ++ blanks.flatten ++
      (if more then k.writeIntermediateCalLine else k.writeBottomCalLine) ∧
    k.Shows columns lines rows ∧ pad.length = k.calPad.toNat ∧
    blanks.length = (k.calLines - lines.length).toNat ∧
    ∀ line ∈ pad ++ blanks, visible line = k.boxLine fun _ => .wide []

/-- The labels of a row, over its days. -/
def CalSetup.labelsOf (label : ℤ → List CalItem) (a b o : ℤ) : List CalItem :=
  labelLine fun i =>
    if i ∈ rowDays a b o then label (o + (i : ℕ)) else k.printLeft [] k.colSpaces ' '

/-- A row: `GenerateCalEntries` for the days of `[a, b)` in the week of `o`, and the entries under the
dates, or the boxes with the labels, of those days. -/
def CalSetup.RowOf (label : σ → ℤ → List CalItem) (a b o : ℤ) (more : Bool)
    (events : List CalEvent) : Prop :=
  ∃ (entries : Fin 7 → List CalEntry) (shown : List CalEvent),
    (∀ i, k.Generated (entries i)) ∧ (∀ i ∉ rowDays a b o, entries i = []) ∧
    events = (rowDays a b o).map (fun i : Fin 7 =>
      CalEvent.generate (o + (i : ℕ)) (o + (i : ℕ)) (some i) (entries i)) ++ shown ∧
    if k.doSimpleCalendar then
      shown = (rowDays a b o).flatMap fun i : Fin 7 =>
        (k.collect [] (entries i)).map (.entry (fromDSE (o + (i : ℕ))))
    else ∃ world body, shown = (k.labelsOf (label world) a b o ++ body).map .print ∧
      k.BodyOf (fun i => k.collect [] (entries i)) more body

/-- The boxes have room for every character of the entries. -/
def CalSetup.Roomy : Prop :=
  0 < k.colSpaces ∧ ∀ entries, k.Generated entries → ∀ e ∈ entries, k.Fits e

variable {k}

theorem mem_collect {column entries : List CalEntry} {e : CalEntry} :
    e ∈ k.collect column entries ↔ e ∈ column ∨ e ∈ entries := by
  unfold CalSetup.collect
  induction entries generalizing column with
  | nil => simp
  | cons x entries ih =>
    rw [List.foldl_cons, ih, List.mem_orderedInsert, List.mem_cons]
    tauto

theorem visible_blankLine (s : CalState σ) :
    visible (k.blankLine s) = k.boxLine fun _ => .wide [] := by
  have hcell : k.lineOf (k.bgcolor s.world) s.colToDay (fun _ => none) = k.blankLine s := by
    unfold CalConfig.lineOf CalSetup.blankLine
    rw [printLeft_nil]
    rfl
  rw [← hcell]
  refine visible_lineOf _ _ fun i => ?_
  rw [Option.getD_none, visible_pad]
  rfl

/-- The lines of a row are written to their end. -/
theorem rowBody_spec (hroom : 0 < k.colSpaces) {s : CalState σ} (more : Bool)
    (hfits : ∀ i, ∀ e ∈ s.columns i, k.Fits e) :
    ∃ body, k.rowBody more s = some (body, { s with columns := fun _ => [] }) ∧
      k.BodyOf s.columns more body := by
  obtain ⟨lines, rows, hlines, hshows⟩ := @writeCalLines_shows k.toCalConfig
    (k.bgcolor s.world) s.colToDay s.columns hroom hfits
    ((List.finRange 7).map fun i => columnLeft (s.columns i) + 1).sum fun i => by
      have hle := List.le_sum_of_mem (List.mem_map_of_mem (f := fun i =>
        columnLeft (s.columns i) + 1) (List.mem_finRange i))
      omega
  unfold CalSetup.rowBody
  rw [hlines]
  refine ⟨_, rfl, _, lines, _, rows, rfl, hshows, List.length_replicate, List.length_replicate, ?_⟩
  intro line hline
  rcases List.mem_append.1 hline with h | h <;> rw [List.eq_of_mem_replicate h] <;>
    exact visible_blankLine s

/-- The loop over the columns that are written as simple entries. -/
theorem writeSimpleRow_spec {shown : Fin 7 → Bool} {day : Fin 7 → ℤ} (is : List (Fin 7))
    (hnodup : is.Nodup) (s : CalState σ) :
    writeSimpleRow shown day is s =
      ((is.takeWhile shown).flatMap fun i => (s.columns i).map (.entry (fromDSE (day i))),
        { s with columns := fun i => if i ∈ is.takeWhile shown then [] else s.columns i }) := by
  induction is generalizing s with
  | nil => rfl
  | cons i is ih =>
    rw [writeSimpleRow]
    by_cases hshown : shown i = true
    · rw [if_neg (by simpa using hshown), List.takeWhile_cons_of_pos hshown, writeSimpleEntries]
      dsimp only
      obtain ⟨hi, hnodup⟩ := List.nodup_cons.1 hnodup
      have hbehind : i ∉ is.takeWhile shown := fun h => hi ((List.takeWhile_sublist _).subset h)
      have hlines : ((is.takeWhile shown).flatMap fun j =>
          (Function.update s.columns i [] j).map (CalEvent.entry (fromDSE (day j)))) =
          (is.takeWhile shown).flatMap fun j => (s.columns j).map (.entry (fromDSE (day j))) :=
        List.flatMap_congr fun j hj => by
          rw [Function.update_of_ne (ne_of_mem_of_not_mem hj hbehind)]
      have hcols : (fun j => if j ∈ is.takeWhile shown then [] else
          Function.update s.columns i [] j) =
          fun j => if j ∈ i :: is.takeWhile shown then [] else s.columns j := by
        funext j
        rcases eq_or_ne j i with rfl | hj
        · simp
        · simp [hj]
      rw [ih hnodup, List.flatMap_cons]
      dsimp only
      rw [hlines, hcols]
    · rw [if_pos (by simpa using hshown), List.takeWhile_cons_of_neg hshown]
      simp

/-- The columns of a row are filled with the entries of its days. -/
theorem fillRow_spec {a b o : ℤ} {shown : Fin 7 → Bool} {c : ℕ} (hc : c ≤ 7)
    (his : ((List.finRange 7).drop c).takeWhile shown = rowDays a b o)
    (hrow : rowDays a b o = rowDays (o + c) b o) (hb : o + c ≤ b) {s : CalState σ}
    (hday : s.dseToday = o + c) (hlocal : s.localDseToday = s.dseToday)
    (hcolumns : s.columns = fun _ => []) :
    ∃ entries : Fin 7 → List CalEntry, (∀ i, k.Generated (entries i)) ∧
      (∀ i ∉ rowDays a b o, entries i = []) ∧
      (k.fillColumns shown ((List.finRange 7).drop c) s).1 = (rowDays a b o).map (fun i : Fin 7 =>
        .generate (o + (i : ℕ)) (o + (i : ℕ)) (some i) (entries i)) ∧
      (k.fillColumns shown ((List.finRange 7).drop c) s).2.dseToday = min b (o + 7) ∧
      (k.fillColumns shown ((List.finRange 7).drop c) s).2.localDseToday = min b (o + 7) ∧
      (k.fillColumns shown ((List.finRange 7).drop c) s).2.columns =
        fun i => k.collect [] (entries i) := by
  obtain ⟨entries, hgen, hcalls, hdse, hloc, hcols⟩ :=
    @fillColumns_spec σ k o o shown c s hday (hlocal.trans hday)
  have hlen : ((rowDays a b o).length : ℤ) = min b (o + 7) - (o + c) := by
    have := congrArg List.length (rowDays_map (b := b) (o := o) hc)
    rw [List.length_map, dayList, List.length_map, List.length_range] at this
    rw [hrow, this]
    omega
  rw [his] at hcalls hdse hloc hcols
  refine ⟨fun i => if i ∈ rowDays a b o then entries i else [], fun i => ?_, fun i hi => if_neg hi,
    hcalls.trans (List.map_congr_left fun i hi => by dsimp only; rw [if_pos hi]), by omega,
    by omega, funext fun i => ?_⟩
  · dsimp only
    split_ifs
    · exact hgen i
    · exact .inl rfl
  · rw [hcols, hcolumns]
    dsimp only
    split_ifs <;> rfl

/-- Behind the filling, the row is written, and its columns are empty. -/
theorem fits_collect (hroom : k.Roomy) {entries : Fin 7 → List CalEntry}
    (hgen : ∀ i, k.Generated (entries i)) : ∀ i, ∀ e ∈ k.collect [] (entries i), k.Fits e :=
  fun i e he => hroom.2 _ (hgen i) e ((mem_collect.1 he).resolve_left List.not_mem_nil)

variable (k) in
/-- The label of a day in the calendar of its month. -/
def CalSetup.monthLabelOf (world : σ) (n : ℤ) : List CalItem :=
  k.monthLabel world (fromDSE n).y (fromDSE n).m (fromDSE n).d

/-- **A row of a month**: the row of the week of its first day, and the state for the next row. -/
theorem writeCalendarRow_spec {M : ℤ} (hM : baseMonth ≤ M)
    (hroom : k.doSimpleCalendar = false → k.Roomy) {s : CalState σ}
    (hlocal : s.localDseToday = s.dseToday) (hcolumns : s.columns = fun _ => [])
    (hstart : s.dseToday = max (monthStart M) (k.weekStart s.dseToday))
    (hin : s.dseToday < monthStart (M + 1)) :
    ∃ events t, k.writeCalendarRow s =
        some (events, decide (k.weekStart s.dseToday + 7 < monthStart (M + 1)), t) ∧
      k.RowOf k.monthLabelOf (monthStart M) (monthStart (M + 1)) (k.weekStart s.dseToday)
        (decide (k.weekStart s.dseToday + 7 < monthStart (M + 1))) events ∧
      t.dseToday = min (monthStart (M + 1)) (k.weekStart s.dseToday + 7) ∧
      t.localDseToday = t.dseToday ∧ t.columns = fun _ => [] := by
  have hsucc := monthStart_succ (le_trans baseMonth_ge hM)
  have hdate := fromDSE_of_month hM (n := s.dseToday) (by omega) (by omega)
  have hnonneg : 0 ≤ s.dseToday := le_trans (monthStart_nonneg hM) (by omega)
  have hwd := weekday_eq (k := k) hnonneg
  have hlen : daysInMonth (M % 12) (M / 12) = monthLen M := rfl
  set o := k.weekStart s.dseToday with ho
  set a := monthStart M
  set b := monthStart (M + 1)
  set c : ℕ := (k.colOf s.dseToday).val
  have hc7 : c ≤ 7 := (k.colOf s.dseToday).isLt.le
  have hday : s.dseToday = o + c := by
    rw [ho, CalSetup.weekStart]
    omega
  -- the tests of the row are those of its days
  have hshown : (fun i : Fin 7 => decide (s.dseToday - a + 1 + ((i : ℕ) : ℤ) - c ≤
      daysInMonth (M % 12) (M / 12))) = fun i : Fin 7 => decide (o + (i : ℕ) < b) := by
    funext i
    rw [decide_eq_decide, hlen]
    omega
  have hmore : decide (s.dseToday - a + 1 + 7 - c ≤ daysInMonth (M % 12) (M / 12)) =
      decide (o + 7 < b) := by
    rw [decide_eq_decide, hlen]
    omega
  have hrow : rowDays a b o = rowDays (o + c) b o := by
    refine List.filter_congr fun i _ => ?_
    rw [decide_eq_decide]
    omega
  have his : ((List.finRange 7).drop c).takeWhile (fun i : Fin 7 => decide (s.dseToday - a + 1 +
      ((i : ℕ) : ℤ) - c ≤ daysInMonth (M % 12) (M / 12))) = rowDays a b o := by
    rw [hshown, rowDays_takeWhile hc7, hrow]
  obtain ⟨entries, hgen, hnone, hcalls, hdse, hloc, hcols⟩ :=
    fillRow_spec (k := k) hc7 his hrow (by omega) (s := { s with colToDay := fun _ => 0 }) hday
      hlocal hcolumns
  unfold CalSetup.writeCalendarRow
  rw [hdate]
  dsimp only
  rw [hwd, Int.toNat_natCast, hmore]
  generalize k.fillColumns _ _ _ = filled at hcalls hdse hloc hcols ⊢
  obtain ⟨calls, t⟩ := filled
  dsimp only at hcalls hdse hloc hcols ⊢
  by_cases hsimple : k.doSimpleCalendar = true
  · rw [if_pos hsimple, writeSimpleRow_spec _ ((List.nodup_finRange 7).sublist
      (List.drop_sublist _ _)), his]
    refine ⟨_, _, rfl, ⟨entries, _, hgen, hnone, congrArg (· ++ _) hcalls, ?_⟩, hdse,
      hloc.trans hdse.symm, ?_⟩
    · rw [if_pos hsimple]
      refine List.flatMap_congr fun i _ => ?_
      rw [hcols, show s.dseToday + ((i : ℕ) : ℤ) - c = o + (i : ℕ) by omega]
    · funext i
      dsimp only
      split_ifs with hi
      · rfl
      · rw [hcols]
        show k.collect [] (entries i) = []
        rw [hnone i hi]
        rfl
  · have hboxed : k.doSimpleCalendar = false := by simpa using hsimple
    have hfits := fits_collect (hroom hboxed) hgen
    obtain ⟨body, hbody, hbodyOf⟩ := rowBody_spec (hroom hboxed).1 (s := t) (decide (o + 7 < b))
      (by rw [hcols]; exact hfits)
    rw [if_neg hsimple, hbody]
    refine ⟨_, _, rfl, ⟨entries, _, hgen, hnone, congrArg (· ++ _) hcalls, ?_⟩, hdse,
      hloc.trans hdse.symm, rfl⟩
    rw [if_neg hsimple]
    refine ⟨t.world, body, ?_, hcols ▸ hbodyOf⟩
    refine congrArg (fun l => (l ++ body).map CalEvent.print) (congrArg labelLine ?_)
    funext i
    have hi : (decide (((i : ℕ) : ℤ) < c) || !decide (s.dseToday - a + 1 + ((i : ℕ) : ℤ) - c ≤
        daysInMonth (M % 12) (M / 12))) = true ↔ i ∉ rowDays a b o := by
      rw [mem_rowDays, hlen]
      simp only [Bool.or_eq_true, decide_eq_true_eq, Bool.not_eq_true', decide_eq_false_iff_not]
      omega
    by_cases hmem : i ∈ rowDays a b o
    · have hbounds := mem_rowDays.1 hmem
      have hdate' := fromDSE_of_month hM hbounds.1 (by omega)
      rw [if_neg (by rw [hi]; exact not_not.2 hmem), if_pos hmem, CalSetup.monthLabelOf, hdate']
      refine congrArg (k.monthLabel t.world (M / 12) (M % 12)) ?_
      dsimp only
      omega
    · rw [if_pos (hi.2 hmem), if_neg hmem]

end Row

/-! ### Months -/

section Months

variable (k)

/-- Rows from the week of `o` on, until the days of `[a, b)` are over. -/
inductive CalSetup.RowsOf (label : σ → ℤ → List CalItem) (a b : ℤ) : ℤ → List CalEvent → Prop
  | last {o : ℤ} {row : List CalEvent} (h : b ≤ o + 7) (hrow : k.RowOf label a b o false row) :
      RowsOf label a b o row
  | more {o : ℤ} {row rows : List CalEvent} (h : o + 7 < b) (hrow : k.RowOf label a b o true row)
      (hrows : RowsOf label a b (o + 7) rows) : RowsOf label a b o (row ++ rows)

/-- The calendar of month `M`. -/
def CalSetup.MonthOf (M : ℤ) (events : List CalEvent) : Prop :=
  ∃ rows, k.RowsOf k.monthLabelOf (monthStart M) (monthStart (M + 1)) (k.weekStart (monthStart M))
      rows ∧
    events = if k.doSimpleCalendar then rows
      else (k.writeCalHeader (monthStart M)).map .print ++ rows ++ [CalEvent.print .formFeed]

/-- The calendars of `n` months from month `M` on. -/
inductive CalSetup.MonthsOf : ℤ → ℕ → List CalEvent → Prop
  | nil {M : ℤ} : MonthsOf M 0 []
  | cons {M : ℤ} {n : ℕ} {month months : List CalEvent} (h : k.MonthOf M month)
      (hmonths : MonthsOf (M + 1) n months) : MonthsOf M (n + 1) (month ++ months)

/-- What the loops of the calendar find: both days the same, the columns empty. -/
structure CalState.At (s : CalState σ) (n : ℤ) : Prop where
  day : s.dseToday = n
  localDay : s.localDseToday = n
  empty : s.columns = fun _ => []

variable {k}

theorem writeRows_spec {M : ℤ} (hM : baseMonth ≤ M)
    (hroom : k.doSimpleCalendar = false → k.Roomy) (fuel : ℕ) {o : ℤ} (ho : k.weekStart o = o)
    {s : CalState σ} (hs : s.At (max (monthStart M) o)) (hlo : monthStart M < o + 7)
    (hhi : max (monthStart M) o < monthStart (M + 1)) (hfuel : monthStart (M + 1) ≤ o + 7 * fuel) :
    ∃ events t, k.writeRows fuel s = some (events, t) ∧
      k.RowsOf k.monthLabelOf (monthStart M) (monthStart (M + 1)) o events ∧
      t.At (monthStart (M + 1)) := by
  induction fuel generalizing o s with
  | zero => omega
  | succ fuel ih =>
    have hweek : k.weekStart s.dseToday = o := by
      obtain ⟨i, hi⟩ : ∃ i : Fin 7, s.dseToday = k.weekStart o + (i : ℕ) :=
        ⟨⟨(s.dseToday - o).toNat, by rw [hs.day]; omega⟩, by
          dsimp only
          rw [ho, hs.day]
          omega⟩
      rw [hi, weekStart_add, ho]
    obtain ⟨row, t, hrow, hrowOf, hday, hlocal, hempty⟩ := writeCalendarRow_spec hM hroom
      (hs.localDay.trans hs.day.symm) hs.empty (by rw [hweek, hs.day]) (by rw [hs.day]; exact hhi)
    rw [hweek] at hrow hrowOf hday
    rw [CalSetup.writeRows, hrow, Option.bind_some]
    by_cases hmore : o + 7 < monthStart (M + 1)
    · have hnext : k.weekStart (o + 7) = o + 7 := by
        conv_lhs => rw [← ho]
        rw [weekStart_next, ho]
      have ht : t.At (max (monthStart M) (o + 7)) :=
        ⟨by rw [hday]; omega, by rw [hlocal, hday]; omega, hempty⟩
      obtain ⟨rows, u, hrows, hrowsOf, hu⟩ := ih hnext ht (by omega) (by omega)
        (by push_cast at hfuel; omega)
      rw [decide_eq_true hmore] at hrowOf ⊢
      refine ⟨row ++ rows, u, ?_, .more hmore hrowOf hrowsOf, hu⟩
      dsimp only
      rw [if_pos rfl, hrows]
      rfl
    · rw [decide_eq_false hmore] at hrowOf ⊢
      refine ⟨row, t, rfl, .last (by omega) hrowOf, ⟨by rw [hday]; omega, ?_, hempty⟩⟩
      rw [hlocal, hday]
      omega

theorem doCalendarOneMonth_spec {M : ℤ} (hM : baseMonth ≤ M)
    (hroom : k.doSimpleCalendar = false → k.Roomy) {s : CalState σ} (hs : s.At (monthStart M)) :
    ∃ events t, k.doCalendarOneMonth s = some (events, t) ∧ k.MonthOf M events ∧
      t.At (monthStart (M + 1)) := by
  have hsucc := monthStart_succ (le_trans baseMonth_ge hM)
  have hlen := monthLen_bounds M
  have hweek := weekStart_le (k := k) (monthStart M)
  have hmax : max (monthStart M) (k.weekStart (monthStart M)) = monthStart M := max_eq_left hweek.1
  obtain ⟨rows, t, hrows, hrowsOf, ht⟩ := writeRows_spec hM hroom 7 (weekStart_self _)
    (s := { s with world := k.clear s.world })
    (by rw [hmax]; exact ⟨hs.day, hs.localDay, hs.empty⟩) hweek.2 (by omega) (by omega)
  unfold CalSetup.doCalendarOneMonth
  dsimp only
  by_cases hsimple : k.doSimpleCalendar = true
  · rw [if_pos hsimple, hrows]
    exact ⟨_, _, rfl, ⟨rows, hrowsOf, by rw [if_pos hsimple]⟩, ht⟩
  · rw [if_neg hsimple, hrows]
    refine ⟨_, _, rfl, ⟨rows, hrowsOf, ?_⟩, ht⟩
    rw [if_neg hsimple, hs.day]

theorem doMonths_spec (hroom : k.doSimpleCalendar = false → k.Roomy) (n : ℕ) {M : ℤ}
    (hM : baseMonth ≤ M) {s : CalState σ} (hs : s.At (monthStart M)) :
    ∃ events t, k.doMonths n s = some (events, t) ∧ k.MonthsOf M n events ∧
      t.At (monthStart (M + n)) := by
  induction n generalizing M s with
  | zero => exact ⟨[], s, rfl, .nil, by simpa using hs⟩
  | succ n ih =>
    obtain ⟨month, t, hmonth, hmonthOf, ht⟩ := doCalendarOneMonth_spec hM hroom hs
    obtain ⟨months, u, hmonths, hmonthsOf, hu⟩ := ih (by omega) ht
    rw [CalSetup.doMonths, hmonth, Option.bind_some]
    dsimp only
    rw [hmonths]
    refine ⟨_, _, rfl, .cons hmonthOf hmonthsOf, ?_⟩
    rwa [Nat.cast_succ, show M + ((n : ℤ) + 1) = M + 1 + n by omega]

/-- **A calendar of months**: after a run for no column, the calendar of each month from that of the
start on, row by row. -/
theorem produceCalendar_months (calMonths calWeeks : ℕ) (hn : calMonths ≠ 0) {s : CalState σ}
    (hday : 0 ≤ s.dseToday) (hempty : s.columns = fun _ => [])
    (hroom : k.doSimpleCalendar = false → k.measure.Roomy) :
    ∃ M entries events t, monthStart M ≤ s.dseToday ∧ s.dseToday < monthStart (M + 1) ∧
      baseMonth ≤ M ∧ k.produceCalendar calMonths calWeeks s =
        some (.generate (monthStart M) (monthStart M) none entries :: events, t) ∧
      k.measure.MonthsOf M calMonths events ∧ t.At (monthStart (M + calMonths)) := by
  obtain ⟨M, hM, hlo, hhi, hdate⟩ := fromDSE_month hday
  have hsucc := monthStart_succ (le_trans baseMonth_ge hM)
  unfold CalSetup.produceCalendar
  dsimp only
  rw [if_pos hn, hdate]
  have hstart : dse (M / 12) (M % 12) 1 = monthStart M := rfl
  dsimp only
  rw [hstart]
  set first := k.measure.generateCalEntries none
    { s with dseToday := monthStart M, localDseToday := monthStart M }
  obtain ⟨events, t, hmonths, hmonthsOf, ht⟩ := doMonths_spec (k := k.measure) hroom calMonths hM
    (s := first.2) ⟨rfl, rfl, hempty⟩
  exact ⟨M, _, events, t, hlo, by omega, hM, by rw [hmonths]; rfl, hmonthsOf, ht⟩

end Months

/-! ### Weeks -/

section Weeks

variable (k) in
/-- The calendars of `n` weeks from the day `o` on. -/
inductive CalSetup.WeeksOf : ℤ → ℕ → List CalEvent → Prop
  | nil {o : ℤ} : WeeksOf o 0 []
  | cons {o : ℤ} {n : ℕ} {week weeks : List CalEvent}
      (h : k.RowOf k.weekLabel o (o + 7) o (decide (n ≠ 0)) week)
      (hweeks : WeeksOf (o + 7) n weeks) : WeeksOf o (n + 1) (week ++ weeks)

theorem rowDays_week (o : ℤ) : rowDays o (o + 7) o = List.finRange 7 := by
  refine List.filter_eq_self.2 fun i _ => ?_
  have := i.isLt
  simp only [decide_eq_true_eq]
  omega

theorem colOf_weekStart {o : ℤ} (ho : k.weekStart o = o) : k.weekday (o + 7) = 0 ∨ o + 7 < 0 := by
  rcases lt_or_ge (o + 7) 0 with h | h
  · exact .inr h
  · have hnext := weekStart_next (k := k) o
    rw [ho] at hnext
    rw [CalSetup.weekStart] at hnext
    exact .inl (by rw [weekday_eq h]; omega)

theorem doCalendarOneWeek_spec {o : ℤ} (ho : k.weekStart o = o) (hnonneg : 0 ≤ o)
    (hroom : k.doSimpleCalendar = false → k.Roomy) (nleft : ℕ) {s : CalState σ} (hs : s.At o) :
    ∃ events t, k.doCalendarOneWeek nleft s = some (events, t) ∧
      k.RowOf k.weekLabel o (o + 7) o (decide (nleft ≠ 0)) events ∧ t.At (o + 7) := by
  have hall : ((List.finRange 7).drop 0).takeWhile (fun _ : Fin 7 => true) =
      rowDays o (o + 7) o := by
    rw [rowDays_week, List.drop_zero]
    exact List.takeWhile_eq_self_iff.2 fun _ _ => rfl
  obtain ⟨entries, hgen, hnone, hcalls, hdse, hloc, hcols⟩ :=
    fillRow_spec (k := k) (o := o) (b := o + 7) (c := 0) (by omega) hall (by simp) (by simp)
      (s := { s with world := k.clear s.world }) (by rw [hs.day]; simp)
      (hs.localDay.trans hs.day.symm) hs.empty
  rw [min_self] at hdse hloc
  rw [List.drop_zero] at hcalls hdse hloc hcols
  unfold CalSetup.doCalendarOneWeek
  generalize k.fillColumns _ _ _ = filled at hcalls hdse hloc hcols ⊢
  obtain ⟨calls, t⟩ := filled
  dsimp only at hcalls hdse hloc hcols ⊢
  have hwd : k.weekday t.dseToday = 0 := by
    rw [hdse]
    exact (colOf_weekStart ho).resolve_right (by omega)
  rw [hs.localDay, hwd]
  by_cases hsimple : k.doSimpleCalendar = true
  · rw [List.drop_zero] at hall
    rw [if_pos hsimple, writeSimpleRow_spec _ (List.nodup_finRange 7), hall]
    refine ⟨_, _, rfl, ⟨entries, _, hgen, hnone, congrArg (· ++ _) hcalls, ?_⟩, hdse, hloc, ?_⟩
    · rw [if_pos hsimple]
      refine List.flatMap_congr fun i _ => ?_
      rw [hcols, sub_zero]
    · funext i
      dsimp only
      rw [if_pos (by rw [rowDays_week]; exact List.mem_finRange i)]
  · have hboxed : k.doSimpleCalendar = false := by simpa using hsimple
    obtain ⟨body, hbody, hbodyOf⟩ := rowBody_spec (hroom hboxed).1 (s := t) (decide (nleft ≠ 0))
      (by rw [hcols]; exact fits_collect (hroom hboxed) hgen)
    rw [if_neg hsimple, hbody]
    refine ⟨_, _, rfl, ⟨entries, _, hgen, hnone, congrArg (· ++ _) hcalls, ?_⟩, hdse, hloc, rfl⟩
    rw [if_neg hsimple]
    refine ⟨t.world, body, ?_, hcols ▸ hbodyOf⟩
    refine congrArg (fun l => (l ++ body).map CalEvent.print) (congrArg labelLine ?_)
    funext i
    rw [if_pos (by rw [rowDays_week]; exact List.mem_finRange i)]

theorem doWeeks_spec (hroom : k.doSimpleCalendar = false → k.Roomy) (n : ℕ) {o : ℤ}
    (ho : k.weekStart o = o) (hnonneg : 0 ≤ o) {s : CalState σ} (hs : s.At o) :
    ∃ events t, k.doWeeks n s = some (events, t) ∧ k.WeeksOf o n events ∧ t.At (o + 7 * n) := by
  induction n generalizing o s with
  | zero => exact ⟨[], s, rfl, .nil, by simpa using hs⟩
  | succ n ih =>
    obtain ⟨week, t, hweek, hweekOf, ht⟩ := doCalendarOneWeek_spec ho hnonneg hroom n hs
    have hnext := weekStart_next (k := k) o
    rw [ho] at hnext
    obtain ⟨weeks, u, hweeks, hweeksOf, hu⟩ := ih hnext (by omega) ht
    rw [CalSetup.doWeeks, hweek, Option.bind_some]
    dsimp only
    rw [hweeks]
    refine ⟨_, _, rfl, .cons hweekOf hweeksOf, ?_⟩
    rwa [Nat.cast_succ, show o + 7 * ((n : ℤ) + 1) = o + 7 + 7 * n by omega]

/-- **A calendar of weeks**: after a run for no column, each week from that of the start on. -/
theorem produceCalendar_weeks (calWeeks : ℕ) {s : CalState σ} (hday : 0 ≤ k.weekStart s.dseToday)
    (hlocal : s.localDseToday = s.dseToday) (hempty : s.columns = fun _ => [])
    (hroom : k.doSimpleCalendar = false → k.measure.Roomy) :
    ∃ entries head events t, k.produceCalendar 0 calWeeks s =
        some (.generate (k.weekStart s.dseToday) (k.weekStart s.dseToday) none entries ::
          (head.map .print ++ events), t) ∧
      head = (if k.doSimpleCalendar then [] else k.measure.writeWeekHeaderLine ++
        k.measure.writeCalDays ++ k.measure.writeIntermediateCalLine) ∧
      k.measure.WeeksOf (k.weekStart s.dseToday) calWeeks events ∧
      t.At (k.weekStart s.dseToday + 7 * calWeeks) := by
  have hle := weekStart_le (k := k) s.dseToday
  have hwd : s.dseToday - k.weekday s.dseToday = k.weekStart s.dseToday := by
    rw [weekday_eq (by omega)]
    rfl
  unfold CalSetup.produceCalendar
  dsimp only
  rw [if_neg (not_not.2 rfl), hlocal, show k.measure.weekday = k.weekday from rfl, hwd]
  set first := k.measure.generateCalEntries none
    { s with dseToday := k.weekStart s.dseToday, localDseToday := k.weekStart s.dseToday }
  obtain ⟨events, t, hweeks, hweeksOf, ht⟩ := doWeeks_spec (k := k.measure) hroom calWeeks
    (o := k.weekStart s.dseToday) (weekStart_self (k := k) s.dseToday) hday (s := first.2) ⟨rfl, rfl, hempty⟩
  exact ⟨_, _, events, t, by rw [hweeks]; rfl, rfl, hweeksOf, ht⟩

end Weeks

end Remind
