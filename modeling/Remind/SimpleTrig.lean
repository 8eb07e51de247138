import Remind.Calendar
import Remind.Trigger

/-!
# SimpleTrig — the next date matching day, month, year and weekday (trigger.c: `NextSimpleTrig`)

`nextSimpleTrig start t` follows the C function branch by branch.  Its value is `none` when one of
its loops does not end, `some (.error _)` when `*err` is set and `some (.ok j)` when it returns
`j`; `-1` is the C function's "no such date".
-/

namespace Remind

/-- Enough tests for every month and year loop below: a month with the wanted day comes within
two months, a year with a 29 February within eight years. -/
def loopFuel : ℕ := 9

/-- `ADVANCE_TO_WD`.  Seven consecutive days meet every weekday, so a loop that has not ended
after seven tests never ends. -/
def advanceToWd (x : ℤ) (wd : WdSet) : Option ℤ :=
  Lib.whileFuel (fun x => !wd.has x) (fun x => x + 1) 7 x

/-- `DSEYear` -/
def dseYear (n : ℤ) : ℤ := (fromDSE n).y

/-- `DSEMonth` -/
def dseMonth (n : ℤ) : ℤ := (fromDSE n).m

/-- `while (trig->d > DaysInMonth(m, y)) { m++; if (m == 12) { m = 0; y++; } }` -/
def carryToMonth (td m y : ℤ) : Option (ℤ × ℤ) :=
  Lib.whileFuel (fun s : ℤ × ℤ => decide (td > daysInMonth s.1 s.2))
    (fun s => if s.1 + 1 = 12 then (0, s.2 + 1) else (s.1 + 1, s.2)) loopFuel (m, y)

/-- `while (trig->d > DaysInMonth(m, y)) m++` -/
def nextMonthWith (td m y : ℤ) : Option ℤ :=
  Lib.whileFuel (fun m => !decide (td ≤ daysInMonth m y)) (fun m => m + 1) loopFuel m

/-- `while (trig->d > DaysInMonth(m, y)) m--` -/
def prevMonthWith (td m y : ℤ) : Option ℤ :=
  Lib.whileFuel (fun m => !decide (td ≤ daysInMonth m y)) (fun m => m - 1) loopFuel m

/-- `while (trig->d > DaysInMonth(trig->m, y)) y++` -/
def nextYearWith (td tm y : ℤ) : Option ℤ :=
  Lib.whileFuel (fun y => !decide (td ≤ daysInMonth tm y)) (fun y => y + 1) loopFuel y

/-- `case GOT_DAY` -/
def nextDay (s : Ymd) (td : ℤ) : Option ℤ := do
  let (m, y) :=
    if s.d > td then (if s.m + 1 = 12 then (0, s.y + 1) else (s.m + 1, s.y)) else (s.m, s.y)
  let (m, y) ← carryToMonth td m y
  return dse y m td

/-- `case GOT_MON` -/
def nextMon (startdate : ℤ) (s : Ymd) (tm : ℤ) : ℤ :=
  if s.m = tm then startdate
  else if s.m > tm then dse (s.y + 1) tm 1
  else dse s.y tm 1

/-- `case GOT_YR` -/
def nextYr (startdate : ℤ) (s : Ymd) (ty : ℤ) : ℤ :=
  if s.y = ty then startdate
  else if s.y < ty then dse ty 0 1
  else -1

/-- `case GOT_DAY+GOT_MON`, after the check of the day. -/
def nextDayMon (s : Ymd) (td tm : ℤ) : Option ℤ := do
  let y := if s.m > tm ∨ (s.m = tm ∧ s.d > td) then s.y + 1 else s.y
  let y ← nextYearWith td tm y
  return dse y tm td

/-- `case GOT_DAY+GOT_YR` -/
def nextDayYr (s : Ymd) (td ty : ℤ) : Option ℤ := do
  if s.y < ty then return dse ty 0 td
  if s.y > ty then return -1
  let m := if s.d > td then s.m + 1 else s.m
  if s.d > td ∧ m = 12 then return -1
  let m ← nextMonthWith td m ty
  return dse ty m td

/-- `case GOT_MON+GOT_YR` -/
def nextMonYr (startdate : ℤ) (s : Ymd) (tm ty : ℤ) : ℤ :=
  if s.y > ty ∨ (s.y = ty ∧ s.m > tm) then -1
  else if s.y < ty then dse ty tm 1
  else if s.m = tm then startdate
  else dse ty tm 1

/-- `case GOT_YR+GOT_WD` -/
def nextYrWd (startdate : ℤ) (s : Ymd) (ty : ℤ) (wd : WdSet) : Option ℤ :=
  if s.y > ty then return -1
  else do
    let j ← advanceToWd (if s.y < ty then dse ty 0 1 else startdate) wd
    if dseYear j > ty then return -1 else return j

/-- `case GOT_MON+GOT_WD` -/
def nextMonWd (startdate : ℤ) (s : Ymd) (tm : ℤ) (wd : WdSet) : Option ℤ := do
  if s.m = tm then
    let j ← advanceToWd startdate wd
    if dseMonth j = tm then return j
  advanceToWd (if s.m ≥ tm then dse (s.y + 1) tm 1 else dse s.y tm 1) wd

/-- `if (trig->d <= DaysInMonth(m, y)) { j = DSE(y, m, trig->d); ADVANCE_TO_WD(j, trig->wd);
if (j >= startdate) return j; }` -/
def tryMonth (startdate y m td : ℤ) (wd : WdSet) : Option (Option ℤ) :=
  if td ≤ daysInMonth m y then do
    let j ← advanceToWd (dse y m td) wd
    return if j ≥ startdate then some j else none
  else return none

/-- "Try this month" and "Try next avail. month" of `case GOT_DAY+GOT_WD`. -/
def thisOrNextAvail (startdate : ℤ) (s : Ymd) (td : ℤ) (wd : WdSet) : Option ℤ := do
  if let some j ← tryMonth startdate s.y s.m td wd then return j
  let (m2, y) := if s.m + 1 > 11 then (0, s.y + 1) else (s.m + 1, s.y)
  let m2 ← nextMonthWith td m2 y
  advanceToWd (dse y m2 td) wd

/-- `case GOT_DAY+GOT_WD`: the previous month first. -/
def nextDayWd (startdate : ℤ) (s : Ymd) (td : ℤ) (wd : WdSet) : Option ℤ := do
  if s.m ≠ 0 ∨ s.y > baseYr then
    let (m2, y2) := if s.m - 1 < 0 then (11, s.y - 1) else (s.m - 1, s.y)
    if let some j ← tryMonth startdate y2 m2 td wd then return j
  thisOrNextAvail startdate s td wd

/-- "Must be next month" of `case GOT_WD+GOT_YR+GOT_DAY`.  The loop gives the day to
`DaysInMonth` where the year is meant. -/
def mustBeNextMonth (m td ty : ℤ) (wd : WdSet) : Option ℤ :=
  if m = 11 then return -1
  else do
    let m ← nextMonthWith td (m + 1) td
    let j ← advanceToWd (dse ty m td) wd
    if dseYear j > ty then return -1 else return j

/-- "Try this month" of `case GOT_WD+GOT_YR+GOT_DAY`, and what follows it. -/
def thisOrNextMonth (startdate : ℤ) (m td ty : ℤ) (wd : WdSet) : Option ℤ := do
  if td ≤ daysInMonth m ty then
    let j ← advanceToWd (dse ty m td) wd
    if dseYear j > ty then return -1
    if j ≥ startdate then return j
  mustBeNextMonth m td ty wd

/-- `case GOT_WD+GOT_YR+GOT_DAY` -/
def nextDayYrWd (startdate : ℤ) (s : Ymd) (td ty : ℤ) (wd : WdSet) : Option ℤ := do
  if s.y > ty + 1 ∨ (s.y > ty ∧ s.m > 0) then return -1
  if s.y > ty then
    let j ← advanceToWd (dse ty 11 td) wd
    if j ≥ startdate then return j
  else if s.y < ty then
    let j ← advanceToWd (dse ty 0 td) wd
    return j
  else if s.m > 0 then
    let m2 ← prevMonthWith td (s.m - 1) ty
    let j ← advanceToWd (dse ty m2 td) wd
    if dseYear j > ty then return -1
    if j ≥ startdate then return j
  thisOrNextMonth startdate s.m td ty wd

/-- `case GOT_DAY+GOT_MON+GOT_WD`, after the check of the day: last year, this year, next year. -/
def nextDayMonWd (startdate : ℤ) (s : Ymd) (td tm : ℤ) (wd : WdSet) : Option ℤ := do
  let y := if s.y > baseYr then s.y - 1 else s.y
  let y ← nextYearWith td tm y
  let j ← advanceToWd (dse y tm td) wd
  if j ≥ startdate then return j
  let y ← nextYearWith td tm (y + 1)
  let j ← advanceToWd (dse y tm td) wd
  if j ≥ startdate then return j
  let y ← nextYearWith td tm (y + 1)
  advanceToWd (dse y tm td) wd

/-- `case GOT_WD+GOT_MON+GOT_YR` -/
def nextMonYrWd (startdate : ℤ) (s : Ymd) (tm ty : ℤ) (wd : WdSet) : Option ℤ :=
  if s.y > ty ∨ (s.y = ty ∧ s.m > tm) then return -1
  else if ty > s.y ∨ (ty = s.y ∧ tm > s.m) then advanceToWd (dse ty tm 1) wd
  else do
    let j ← advanceToWd startdate wd
    if (fromDSE j).m = tm then return j else return -1

/-- `NextSimpleTrig` -/
def nextSimpleTrig (startdate : ℤ) (t : Trigger) : Option (Except ErrCode ℤ) :=
  let s := fromDSE startdate
  match t.d, t.m, t.y, decide (t.wd ≠ 0) with
  | none, none, none, false => some (.ok startdate)
  | none, none, none, true => (advanceToWd startdate t.wd).map .ok
  | some td, none, none, false => (nextDay s td).map .ok
  | none, some tm, none, false => some (.ok (nextMon startdate s tm))
  | none, none, some ty, false => some (.ok (nextYr startdate s ty))
  | some td, some tm, none, false =>
    if td > monthDays tm then some (.error .badDate) else (nextDayMon s td tm).map .ok
  | some td, none, some ty, false => (nextDayYr s td ty).map .ok
  | none, some tm, some ty, false => some (.ok (nextMonYr startdate s tm ty))
  | some td, some tm, some ty, false =>
    if td > daysInMonth tm ty then some (.error .badDate) else some (.ok (dse ty tm td))
  | none, none, some ty, true => (nextYrWd startdate s ty t.wd).map .ok
  | none, some tm, none, true => (nextMonWd startdate s tm t.wd).map .ok
  | some td, none, none, true => (nextDayWd startdate s td t.wd).map .ok
  | some td, none, some ty, true => (nextDayYrWd startdate s td ty t.wd).map .ok
  | some td, some tm, none, true =>
    if td > monthDays tm then some (.error .badDate)
    else (nextDayMonWd startdate s td tm t.wd).map .ok
  | none, some tm, some ty, true => (nextMonYrWd startdate s tm ty t.wd).map .ok
  | some td, some tm, some ty, true =>
    if td > daysInMonth tm ty then some (.error .badDate)
    else (advanceToWd (dse ty tm td) t.wd).map .ok

/-! ### What the loops do -/

theorem WdSet.exists_has {wd : WdSet} (h : wd ≠ 0) (x : ℤ) :
    ∃ j : ℕ, j < 7 ∧ wd.has (x + j) = true := by
  obtain ⟨i, hi, hb⟩ : ∃ i, i < 7 ∧ wd.getLsbD i = true := by
    by_contra hno
    push Not at hno
    refine h (BitVec.eq_of_getLsbD_eq fun i hi => ?_)
    simpa using hno i hi
  refine ⟨((i - x) % 7).toNat, by omega, ?_⟩
  unfold WdSet.has
  rw [show ((x + (((i - x) % 7).toNat : ℤ)) % 7).toNat = i by omega]
  exact hb

/-- `r` is the first day of `wd` on or after `x`. -/
def FirstOn (wd : WdSet) (x r : ℤ) : Prop := IsLeast {z | x ≤ z ∧ wd.has z = true} r

theorem FirstOn.le {wd : WdSet} {x r : ℤ} (h : FirstOn wd x r) : x ≤ r := h.1.1

theorem FirstOn.le_add {wd : WdSet} {x r : ℤ} (hwd : wd ≠ 0) (h : FirstOn wd x r) : r ≤ x + 6 := by
  obtain ⟨j, hj, hx⟩ := WdSet.exists_has hwd x
  have := h.2 ⟨show x ≤ x + (j : ℤ) by omega, hx⟩
  omega

theorem FirstOn.mono {wd : WdSet} {x x' r r' : ℤ} (h : FirstOn wd x r) (h' : FirstOn wd x' r')
    (hx : x ≤ x') : r ≤ r' :=
  h.2 ⟨le_trans hx h'.1.1, h'.1.2⟩

theorem FirstOn.unique {wd : WdSet} {x r r' : ℤ} (h : FirstOn wd x r) (h' : FirstOn wd x r') :
    r = r' := IsLeast.unique h h'

theorem advanceToWd_spec {wd : WdSet} (hwd : wd ≠ 0) (x : ℤ) :
    ∃ r, advanceToWd x wd = some r ∧ FirstOn wd x r :=
  Lib.whileFuel_scanUp_isLeast (WdSet.exists_has hwd x)

/-- The day `ADVANCE_TO_WD` stops at. -/
def firstOn (wd : WdSet) (x : ℤ) : ℤ := (advanceToWd x wd).getD x

theorem advanceToWd_eq {wd : WdSet} (hwd : wd ≠ 0) (x : ℤ) :
    advanceToWd x wd = some (firstOn wd x) := by
  obtain ⟨r, hr, -⟩ := advanceToWd_spec hwd x
  unfold firstOn
  rw [hr]
  rfl

theorem firstOn_spec {wd : WdSet} (hwd : wd ≠ 0) (x : ℤ) : FirstOn wd x (firstOn wd x) := by
  obtain ⟨r, hr, hf⟩ := advanceToWd_spec hwd x
  unfold firstOn
  rw [hr]
  exact hf

theorem prevMonthWith_spec {td m : ℤ} (h0 : 0 ≤ m) (h1 : m ≤ 11) (htd : td ≤ 31) (y : ℤ) :
    ∃ r, prevMonthWith td m y = some r ∧ 0 ≤ r ∧ r ≤ m ∧ td ≤ daysInMonth r y ∧
      ∀ z, r < z → z ≤ m → ¬ td ≤ daysInMonth z y := by
  have hshort : daysInMonth m y = 31 ∨ 0 < m ∧ daysInMonth (m - 1) y = 31 := by
    interval_cases m <;> simp [daysInMonth, monthDays]
  unfold prevMonthWith loopFuel
  by_cases h : td ≤ daysInMonth m y
  · exact ⟨m, Lib.whileFuel_exit _ (by simpa using h), h0, le_rfl, h, fun z hz hzm => by omega⟩
  · obtain ⟨hm, hlen⟩ := hshort.resolve_left (by omega)
    refine ⟨m - 1, ?_, by omega, by omega, by omega, ?_⟩
    · rw [Lib.whileFuel_step _ (by simpa using h)]
      exact Lib.whileFuel_exit _ (by simpa using (show td ≤ daysInMonth (m - 1) y by omega))
    · intro z hz hzm
      rwa [show z = m by omega]

theorem nextMonthWith_spec {td m : ℤ} (h0 : 0 ≤ m) (h1 : m ≤ 11) (htd : td ≤ 31) (y : ℤ) :
    ∃ r, nextMonthWith td m y = some r ∧ r ≤ 11 ∧
      IsLeast {z | m ≤ z ∧ td ≤ daysInMonth z y} r := by
  have hshort : daysInMonth m y = 31 ∨ m < 11 ∧ daysInMonth (m + 1) y = 31 := by
    interval_cases m <;> simp [daysInMonth, monthDays]
  obtain ⟨j, hj, hm, hd⟩ : ∃ j : ℕ, j < 2 ∧ m + j ≤ 11 ∧ td ≤ daysInMonth (m + j) y := by
    rcases hshort with h | ⟨h11, h⟩
    · exact ⟨0, by omega, by simpa using h1, by simp [h, htd]⟩
    · exact ⟨1, by omega, by push_cast; omega, by push_cast; omega⟩
  obtain ⟨r, hr, hl⟩ := Lib.whileFuel_scanUp_isLeast (p := fun m => decide (td ≤ daysInMonth m y))
    (x := m) (n := loopFuel) ⟨j, by unfold loopFuel; omega, by simpa using hd⟩
  have hl' : IsLeast {z | m ≤ z ∧ td ≤ daysInMonth z y} r := by simpa using hl
  exact ⟨r, hr, le_trans (hl'.2 ⟨by omega, hd⟩) hm, hl'⟩

theorem nextYearWith_spec {td tm : ℤ} (htd : td ≤ monthDays tm) (y : ℤ) :
    ∃ r, nextYearWith td tm y = some r ∧ IsLeast {z | y ≤ z ∧ td ≤ daysInMonth tm z} r := by
  obtain ⟨j, hj, hl⟩ := exists_leap y
  obtain ⟨r, hr, hl⟩ := Lib.whileFuel_scanUp_isLeast (p := fun y => decide (td ≤ daysInMonth tm y))
    (x := y) (n := loopFuel) ⟨j, by unfold loopFuel; omega, by simpa [daysInMonth_of_leap hl]⟩
  exact ⟨r, hr, by simpa using hl⟩

theorem carryToMonth_spec {td m y : ℤ} (h0 : 0 ≤ m) (h1 : m ≤ 11) (htd : td ≤ 31) :
    ∃ N, carryToMonth td m y = some (N % 12, N / 12) ∧
      IsLeast {z | monthNo y m ≤ z ∧ td ≤ monthLen z} N := by
  have hlen := monthLen_monthNo (y := y) h0 h1
  unfold carryToMonth loopFuel
  by_cases h : td ≤ daysInMonth m y
  · refine ⟨monthNo y m, ?_, ⟨le_rfl, by omega⟩, fun z hz => hz.1⟩
    rw [Lib.whileFuel_exit _ (by simpa using h), monthNo_div h0 h1, monthNo_mod h0 h1]
  · have hnext := monthLen_succ_of_lt (M := monthNo y m) (by omega)
    have hstep : (if m + 1 = 12 then ((0 : ℤ), y + 1) else (m + 1, y)) =
        ((monthNo y m + 1) % 12, (monthNo y m + 1) / 12) := by
      unfold monthNo
      split_ifs <;> simp only [Prod.mk.injEq] <;> omega
    refine ⟨monthNo y m + 1, ?_, ⟨by simp, by omega⟩, ?_⟩
    · rw [Lib.whileFuel_step _ (by simpa using h)]
      simp only [hstep]
      refine Lib.whileFuel_exit _ ?_
      unfold monthLen at hnext
      simp only [hnext, gt_iff_lt, decide_eq_false_iff_not, not_lt]
      omega
    · rintro z ⟨hz, hd⟩
      have : z ≠ monthNo y m := by rintro rfl; omega
      omega

end Remind
