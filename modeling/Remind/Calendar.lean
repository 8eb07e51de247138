import Remind.Lib.Loop
import Mathlib.Tactic.IntervalCases

/-!
# Calendar — day numbers and dates (main.c: `DSE`, `FromDSE`; globals.h)

A date is a day number, counted from 1 January 1990 = 0, which is a Monday.  `dse` and `fromDSE`
are `DSE` and `FromDSE` with exact integers; `/` of C is `Int.tdiv`.  Months run from 0 to 11.

The second half numbers the months consecutively (`12 * y + m`).  In that numbering the calendar
is one strictly increasing sequence `monthStart` with steps `monthLen`, and the year carries of
the C code disappear from the proofs.
-/

namespace Remind

/-- `BASE`: the first year, whose 1 January is a Monday. -/
def baseYr : ℤ := 1990

/-- `YR_RANGE` -/
def yrRange : ℤ := 4000

/-- `IsLeapYear` -/
def isLeapYear (y : ℤ) : ℤ :=
  if y % 4 ≠ 0 then 0 else if y % 100 = 0 ∧ y % 400 ≠ 0 then 0 else 1

/-- `DaysInYear` -/
def daysInYear (y : ℤ) : ℤ :=
  if y % 4 ≠ 0 then 365 else if y % 100 = 0 ∧ y % 400 ≠ 0 then 365 else 366

/-- `MonthDays[]`: the greatest length of each month. -/
def monthDays (m : ℤ) : ℤ :=
  [31, 29, 31, 30, 31, 30, 31, 31, 30, 31, 30, 31].getD m.toNat 0

/-- `DaysInMonth` -/
def daysInMonth (m y : ℤ) : ℤ := if m ≠ 1 then monthDays m else 28 + isLeapYear y

/-- `MonthIndex[][]`: days before each month; the second row is for leap years. -/
def monthIndex (leap m : ℤ) : ℤ :=
  if leap = 0 then [0, 31, 59, 90, 120, 151, 181, 212, 243, 273, 304, 334].getD m.toNat 0
  else [0, 31, 60, 91, 121, 152, 182, 213, 244, 274, 305, 335].getD m.toNat 0

/-- Days before 1 January of `year`: the part of `DSE` that `FromDSE` repeats inline. -/
def yearStart (year : ℤ) : ℤ :=
  let y1 := baseYr - 1
  let y2 := year - 1
  let y4 := y2.tdiv 4 - y1.tdiv 4
  let y100 := y2.tdiv 100 - y1.tdiv 100
  let y400 := y2.tdiv 400 - y1.tdiv 400
  365 * (year - baseYr) + y4 - y100 + y400

/-- `DSE` -/
def dse (year month day : ℤ) : ℤ :=
  yearStart year + monthIndex (isLeapYear year) month + day - 1

/-- A date taken apart: year, month 0..11, day 1..31. -/
structure Ymd where
  y : ℤ
  m : ℤ
  d : ℤ
  deriving DecidableEq, Repr

/-- The loop of `FromDSE` that moves the guessed year down. -/
def yearLoop (n tryYr tryDse : ℤ) : ℤ × ℤ :=
  (Lib.whileFuel (fun s : ℤ × ℤ => decide (s.2 > n))
    (fun s => (s.1 - 1, s.2 - daysInYear (s.1 - 1)))
    ((tryDse - n).toNat + 1) (tryYr, tryDse)).getD (tryYr, tryDse)

/-- The loop of `FromDSE` that counts off the months of the year. -/
def monthLoop (tryYr rest : ℤ) : ℤ × ℤ :=
  (Lib.whileFuel (fun s : ℤ × ℤ => decide (s.2 ≥ daysInMonth s.1 tryYr))
    (fun s => (s.1 + 1, s.2 - daysInMonth s.1 tryYr)) 13 (0, rest)).getD (0, rest)

/-- `FromDSE` -/
def fromDSE (n : ℤ) : Ymd :=
  let tryYr := n.tdiv 365 + baseYr
  let (y, tryDse) := yearLoop n tryYr (yearStart tryYr)
  let (m, rest) := monthLoop y (n - tryDse)
  ⟨y, m, rest + 1⟩

/-- `DateOK` -/
def dateOK (y m d : ℤ) : Bool :=
  !(d < 1 || m < 0 || y < baseYr || m > 11 || y > baseYr + yrRange || d > daysInMonth m y)

example : fromDSE (dse 2024 1 29) = ⟨2024, 1, 29⟩ := by decide

/-! ### Years and months -/

theorem isLeapYear_eq_or (y : ℤ) : isLeapYear y = 0 ∨ isLeapYear y = 1 := by
  unfold isLeapYear; split_ifs <;> simp

theorem daysInYear_eq (y : ℤ) : daysInYear y = 365 + isLeapYear y := by
  unfold daysInYear isLeapYear; split_ifs <;> rfl

theorem yearStart_base : yearStart baseYr = 0 := by decide

theorem yearStart_eq {y : ℤ} (hy : 1 ≤ y) :
    yearStart y = 365 * (y - 1990) + ((y - 1) / 4 - 497) - ((y - 1) / 100 - 19) +
      ((y - 1) / 400 - 4) := by
  simp only [yearStart, baseYr, Int.tdiv_eq_ediv_of_nonneg (show (0 : ℤ) ≤ y - 1 by omega),
    show (1990 - 1 : ℤ).tdiv 4 = 497 from rfl, show (1990 - 1 : ℤ).tdiv 100 = 19 from rfl,
    show (1990 - 1 : ℤ).tdiv 400 = 4 from rfl]

theorem yearStart_succ {y : ℤ} (hy : 1 ≤ y) : yearStart (y + 1) = yearStart y + daysInYear y := by
  rw [yearStart_eq hy, yearStart_eq (by omega)]
  unfold daysInYear
  split_ifs with h4 h100 <;> omega

/-- A valid day of a valid month from the base year on. -/
structure Valid (y m d : ℤ) : Prop where
  year : baseYr ≤ y
  monthLo : 0 ≤ m
  monthHi : m ≤ 11
  dayLo : 1 ≤ d
  dayHi : d ≤ daysInMonth m y

theorem daysInMonth_bounds {m : ℤ} (h0 : 0 ≤ m) (h1 : m ≤ 11) (y : ℤ) :
    28 ≤ daysInMonth m y ∧ daysInMonth m y ≤ 31 := by
  rcases isLeapYear_eq_or y with h | h <;> interval_cases m <;>
    simp [daysInMonth, monthDays, h]

/-- `MonthDays` is the greatest length a month has in any year. -/
theorem daysInMonth_le_monthDays {m : ℤ} (y : ℤ) : daysInMonth m y ≤ monthDays m := by
  unfold daysInMonth
  split_ifs with h
  · exact le_rfl
  · rcases isLeapYear_eq_or y with h' | h' <;> simp only [not_not.mp h, h'] <;> decide

/-- Only February is ever shorter than its entry in `MonthDays`. -/
theorem daysInMonth_of_leap {m y : ℤ} (h : isLeapYear y = 1) : daysInMonth m y = monthDays m := by
  unfold daysInMonth
  split_ifs with hm
  · rfl
  · rw [not_not.mp hm, h]; decide

theorem monthIndex_zero (y : ℤ) : monthIndex (isLeapYear y) 0 = 0 := by
  rcases isLeapYear_eq_or y with h | h <;> simp [monthIndex, h]

theorem monthIndex_succ {m : ℤ} (h0 : 0 ≤ m) (h1 : m < 11) (y : ℤ) :
    monthIndex (isLeapYear y) (m + 1) = monthIndex (isLeapYear y) m + daysInMonth m y := by
  rcases isLeapYear_eq_or y with h | h <;> interval_cases m <;>
    simp [daysInMonth, monthDays, monthIndex, h]

theorem monthIndex_dec (y : ℤ) : monthIndex (isLeapYear y) 11 + 31 = daysInYear y := by
  rw [daysInYear_eq]
  rcases isLeapYear_eq_or y with h | h <;> simp [monthIndex, h]

/-! ### Months numbered consecutively -/

/-- Consecutive number of a month. -/
def monthNo (y m : ℤ) : ℤ := 12 * y + m

/-- First day of the month with number `M`. -/
def monthStart (M : ℤ) : ℤ := dse (M / 12) (M % 12) 1

/-- Length of the month with number `M`. -/
def monthLen (M : ℤ) : ℤ := daysInMonth (M % 12) (M / 12)

/-- Number of the first month, January 1990. -/
def baseMonth : ℤ := 12 * baseYr

theorem monthNo_div {y m : ℤ} (h0 : 0 ≤ m) (h1 : m ≤ 11) : monthNo y m / 12 = y := by
  unfold monthNo; omega

theorem monthNo_mod {y m : ℤ} (h0 : 0 ≤ m) (h1 : m ≤ 11) : monthNo y m % 12 = m := by
  unfold monthNo; omega

theorem monthStart_monthNo {y m : ℤ} (h0 : 0 ≤ m) (h1 : m ≤ 11) :
    monthStart (monthNo y m) = dse y m 1 := by
  rw [monthStart, monthNo_div h0 h1, monthNo_mod h0 h1]

theorem monthLen_monthNo {y m : ℤ} (h0 : 0 ≤ m) (h1 : m ≤ 11) :
    monthLen (monthNo y m) = daysInMonth m y := by
  rw [monthLen, monthNo_div h0 h1, monthNo_mod h0 h1]

theorem dse_eq_monthStart {y m : ℤ} (h0 : 0 ≤ m) (h1 : m ≤ 11) (d : ℤ) :
    dse y m d = monthStart (monthNo y m) + d - 1 := by
  rw [monthStart_monthNo h0 h1]; unfold dse; omega

theorem monthLen_bounds (M : ℤ) : 28 ≤ monthLen M ∧ monthLen M ≤ 31 :=
  daysInMonth_bounds (by omega) (by omega) _

/-- The one step of the calendar: a month starts where the month before it ends. -/
theorem monthStart_succ {M : ℤ} (hM : 12 ≤ M) :
    monthStart (M + 1) = monthStart M + monthLen M := by
  unfold monthStart monthLen
  by_cases hm : M % 12 = 11
  · rw [show (M + 1) / 12 = M / 12 + 1 by omega, show (M + 1) % 12 = 0 by omega, hm]
    have hd := monthIndex_dec (M / 12)
    have hl : daysInMonth 11 (M / 12) = 31 := rfl
    simp only [dse, monthIndex_zero, yearStart_succ (show 1 ≤ M / 12 by omega), hl]
    omega
  · rw [show (M + 1) / 12 = M / 12 by omega, show (M + 1) % 12 = M % 12 + 1 by omega]
    simp only [dse, monthIndex_succ (show 0 ≤ M % 12 by omega) (show M % 12 < 11 by omega)]
    omega

theorem baseMonth_ge : (12 : ℤ) ≤ baseMonth := by decide

theorem monthStart_base : monthStart baseMonth = 0 := by decide

theorem monthStart_add_le {M : ℤ} (hM : 12 ≤ M) (k : ℕ) :
    monthStart M + 28 * k ≤ monthStart (M + k) := by
  induction k with
  | zero => simp
  | succ k ih =>
    have h1 := monthStart_succ (M := M + k) (by omega)
    have h2 := monthLen_bounds (M + k)
    rw [show M + ((k + 1 : ℕ) : ℤ) = M + k + 1 by push_cast; omega]
    push_cast
    omega

theorem monthStart_le {M N : ℤ} (hM : 12 ≤ M) (h : M ≤ N) :
    monthStart M + 28 * (N - M) ≤ monthStart N := by
  obtain ⟨k, hk⟩ := Int.le.dest h
  have := monthStart_add_le hM k
  rw [hk] at this
  omega

/-- A later month starts after the end of an earlier one. -/
theorem monthStart_add_monthLen_le {M N : ℤ} (hM : 12 ≤ M) (h : M < N) :
    monthStart M + monthLen M ≤ monthStart N := by
  rw [← monthStart_succ hM]
  have := monthStart_le (M := M + 1) (N := N) (by omega) (by omega)
  omega

theorem monthStart_mono {M N : ℤ} (hM : 12 ≤ M) (h : M ≤ N) : monthStart M ≤ monthStart N := by
  have := monthStart_le hM h
  omega

/-- A day that is not before month `M` and lies before the end of month `K`. -/
theorem month_le {K M n : ℤ} (hK : 12 ≤ K) (h1 : n < monthStart K + monthLen K)
    (h2 : monthStart M ≤ n) : M ≤ K := by
  by_contra hlt
  have := monthStart_add_monthLen_le hK (show K < M by omega)
  omega

theorem monthStart_nonneg {M : ℤ} (hM : baseMonth ≤ M) : 0 ≤ monthStart M := by
  have h := monthStart_le (M := baseMonth) (by decide) hM
  rw [monthStart_base] at h
  omega

/-! ### `FromDSE` inverts `DSE` -/

theorem yearLoop_spec {n t : ℤ} (ht : baseYr ≤ t) (hn : 0 ≤ n) (hhi : n < yearStart (t + 1)) :
    ∃ y, yearLoop n t (yearStart t) = (y, yearStart y) ∧ baseYr ≤ y ∧ yearStart y ≤ n ∧
      n < yearStart (y + 1) := by
  have hstep : ∀ s : ℤ × ℤ,
      (baseYr ≤ s.1 ∧ s.2 = yearStart s.1 ∧ n < yearStart (s.1 + 1)) → decide (s.2 > n) = true →
      (baseYr ≤ s.1 - 1 ∧ s.2 - daysInYear (s.1 - 1) = yearStart (s.1 - 1) ∧
        n < yearStart (s.1 - 1 + 1)) ∧
        (s.2 - daysInYear (s.1 - 1) - n).toNat < (s.2 - n).toNat := by
    rintro ⟨a, b⟩ ⟨h1, h2, h3⟩ hc
    simp only [gt_iff_lt, decide_eq_true_eq] at h1 h2 hc h3 ⊢
    have hne : a ≠ baseYr := by
      rintro rfl
      rw [yearStart_base] at h2
      omega
    have hs := yearStart_succ (y := a - 1) (by unfold baseYr at h1; omega)
    have hl := daysInYear_eq (a - 1)
    rw [show a - 1 + 1 = a by omega] at hs ⊢
    rcases isLeapYear_eq_or (a - 1) with h | h <;>
      exact ⟨⟨by omega, by omega, by omega⟩, by omega⟩
  obtain ⟨r, hr, ⟨h1, h2, h3⟩, hc⟩ := Lib.whileFuel_total
    (c := fun s : ℤ × ℤ => decide (s.2 > n)) (f := fun s => (s.1 - 1, s.2 - daysInYear (s.1 - 1)))
    (fun s => baseYr ≤ s.1 ∧ s.2 = yearStart s.1 ∧ n < yearStart (s.1 + 1))
    (fun s => (s.2 - n).toNat) hstep (n := (yearStart t - n).toNat + 1) (s := (t, yearStart t))
    ⟨ht, rfl, hhi⟩ (by simp)
  refine ⟨r.1, ?_, h1, ?_, h3⟩
  · unfold yearLoop; rw [hr, ← h2]; rfl
  · rw [← h2]; simpa using hc

theorem monthLoop_spec {y r : ℤ} (hr : 0 ≤ r) (hhi : r < daysInYear y) :
    ∃ m, monthLoop y r = (m, r - monthIndex (isLeapYear y) m) ∧ 0 ≤ m ∧ m ≤ 11 ∧
      monthIndex (isLeapYear y) m ≤ r ∧
      r < monthIndex (isLeapYear y) m + daysInMonth m y := by
  have hstep : ∀ s : ℤ × ℤ,
      (0 ≤ s.1 ∧ s.1 ≤ 11 ∧ s.2 = r - monthIndex (isLeapYear y) s.1 ∧ 0 ≤ s.2) →
      decide (s.2 ≥ daysInMonth s.1 y) = true →
      (0 ≤ s.1 + 1 ∧ s.1 + 1 ≤ 11 ∧
        s.2 - daysInMonth s.1 y = r - monthIndex (isLeapYear y) (s.1 + 1) ∧
        0 ≤ s.2 - daysInMonth s.1 y) ∧ (11 - (s.1 + 1)).toNat < (11 - s.1).toNat := by
    rintro ⟨a, b⟩ ⟨h1, h2, h3, h4⟩ hc
    simp only [ge_iff_le, decide_eq_true_eq] at h1 h2 h3 h4 hc ⊢
    have hne : a ≠ 11 := by
      rintro rfl
      have h5 := monthIndex_dec y
      have h6 : daysInMonth 11 y = 31 := rfl
      omega
    have hs := monthIndex_succ h1 (show a < 11 by omega) y
    exact ⟨⟨by omega, by omega, by omega, by omega⟩, by omega⟩
  obtain ⟨s, hs, ⟨h1, h2, h3, h4⟩, hc⟩ := Lib.whileFuel_total
    (c := fun s : ℤ × ℤ => decide (s.2 ≥ daysInMonth s.1 y))
    (f := fun s => (s.1 + 1, s.2 - daysInMonth s.1 y))
    (fun s => 0 ≤ s.1 ∧ s.1 ≤ 11 ∧ s.2 = r - monthIndex (isLeapYear y) s.1 ∧ 0 ≤ s.2)
    (fun s => (11 - s.1).toNat) hstep (n := 13) (s := (0, r))
    ⟨le_rfl, by simp, by simp [monthIndex_zero], hr⟩ (by simp)
  refine ⟨s.1, ?_, h1, h2, ?_, ?_⟩
  · unfold monthLoop; rw [hs, ← h3]; rfl
  · omega
  · simp only [ge_iff_le, decide_eq_false_iff_not, not_le] at hc
    omega

/-- `FromDSE` gives a valid date, and `DSE` of that date is the day number again. -/
theorem fromDSE_spec {n : ℤ} (hn : 0 ≤ n) :
    Valid (fromDSE n).y (fromDSE n).m (fromDSE n).d ∧
      dse (fromDSE n).y (fromDSE n).m (fromDSE n).d = n := by
  have ht : baseYr ≤ n.tdiv 365 + baseYr := by
    rw [Int.tdiv_eq_ediv_of_nonneg hn]; omega
  have hhi : n < yearStart (n.tdiv 365 + baseYr + 1) := by
    rw [Int.tdiv_eq_ediv_of_nonneg hn, yearStart_eq (by unfold baseYr; omega)]
    unfold baseYr
    omega
  obtain ⟨y, hy, hb, hlo, hup⟩ := yearLoop_spec ht hn hhi
  have hsucc := yearStart_succ (y := y) (by unfold baseYr at hb; omega)
  obtain ⟨m, hm, h0, h11, hmlo, hmhi⟩ :=
    monthLoop_spec (y := y) (r := n - yearStart y) (by omega) (by omega)
  have he : fromDSE n = ⟨y, m, n - yearStart y - monthIndex (isLeapYear y) m + 1⟩ := by
    unfold fromDSE; simp only [hy, hm]
  rw [he]
  refine ⟨⟨hb, h0, h11, ?_, ?_⟩, ?_⟩
  · show 1 ≤ n - yearStart y - monthIndex (isLeapYear y) m + 1
    omega
  · show n - yearStart y - monthIndex (isLeapYear y) m + 1 ≤ daysInMonth m y
    omega
  · show dse y m (n - yearStart y - monthIndex (isLeapYear y) m + 1) = n
    unfold dse
    omega

/-- Every day from 1990 on lies in one month, and `FromDSE` reads it off. -/
theorem fromDSE_month {n : ℤ} (hn : 0 ≤ n) :
    ∃ M, baseMonth ≤ M ∧ monthStart M ≤ n ∧ n < monthStart M + monthLen M ∧
      fromDSE n = ⟨M / 12, M % 12, n - monthStart M + 1⟩ := by
  obtain ⟨⟨h1, h2, h3, h4, h5⟩, h⟩ := fromDSE_spec hn
  generalize fromDSE n = s at *
  obtain ⟨y, m, d⟩ := s
  simp only at h h1 h2 h3 h4 h5
  rw [dse_eq_monthStart h2 h3] at h
  have hl := monthLen_monthNo (y := y) h2 h3
  refine ⟨monthNo y m, ?_, by omega, by omega, ?_⟩
  · unfold baseMonth monthNo; omega
  · rw [monthNo_div h2 h3, monthNo_mod h2 h3]
    simp only [Ymd.mk.injEq, true_and]
    omega

theorem fromDSE_of_month {M n : ℤ} (hM : baseMonth ≤ M) (h1 : monthStart M ≤ n)
    (h2 : n < monthStart M + monthLen M) :
    fromDSE n = ⟨M / 12, M % 12, n - monthStart M + 1⟩ := by
  have h12 : (12 : ℤ) ≤ baseMonth := by decide
  obtain ⟨N, hN, h3, h4, h⟩ := fromDSE_month (n := n) (le_trans (monthStart_nonneg hM) h1)
  have hMN : M = N := by
    rcases lt_trichotomy M N with hlt | heq | hlt
    · have := monthStart_add_monthLen_le (by omega) hlt; omega
    · exact heq
    · have := monthStart_add_monthLen_le (by omega) hlt; omega
  rw [h, hMN]

theorem fromDSE_monthStart_add {M d : ℤ} (hM : baseMonth ≤ M) (h1 : 1 ≤ d)
    (h2 : d ≤ monthLen M) : fromDSE (monthStart M + d - 1) = ⟨M / 12, M % 12, d⟩ := by
  rw [fromDSE_of_month hM (by omega) (by omega)]
  simp only [Ymd.mk.injEq, true_and]
  omega

/-- `FromDSE` inverts `DSE` on valid dates. -/
theorem fromDSE_dse {y m d : ℤ} (h : Valid y m d) : fromDSE (dse y m d) = ⟨y, m, d⟩ := by
  obtain ⟨h1, h2, h3, h4, h5⟩ := h
  rw [dse_eq_monthStart h2 h3, fromDSE_monthStart_add, monthNo_div h2 h3, monthNo_mod h2 h3]
  · unfold baseMonth monthNo; omega
  · exact h4
  · rwa [monthLen_monthNo h2 h3]

/-- A short month is followed by one of 31 days. -/
theorem monthLen_succ_of_lt {M : ℤ} (h : monthLen M < 31) : monthLen (M + 1) = 31 := by
  unfold monthLen at *
  obtain ⟨m, hm⟩ : ∃ m, M % 12 = m := ⟨_, rfl⟩
  have h0 : 0 ≤ m := by omega
  have h1 : m ≤ 11 := by omega
  rw [hm] at h
  have hs : (M + 1) % 12 = if m = 11 then 0 else m + 1 := by split_ifs <;> omega
  rw [hs]
  interval_cases m <;> simp_all [daysInMonth, monthDays]

/-- Every eight consecutive years contain a leap year. -/
theorem exists_leap (y : ℤ) : ∃ j : ℕ, j < 8 ∧ isLeapYear (y + j) = 1 := by
  have key : ∀ z : ℤ, z % 4 = 0 → isLeapYear z = 1 ∨ isLeapYear (z + 4) = 1 := by
    intro z hz
    unfold isLeapYear
    split_ifs <;> omega
  obtain ⟨j, hj, hz⟩ : ∃ j : ℕ, j < 4 ∧ (y + j) % 4 = 0 := ⟨((-y) % 4).toNat, by omega, by omega⟩
  rcases key _ hz with h | h
  · exact ⟨j, by omega, h⟩
  · exact ⟨j + 4, by omega, by rw [← h]; congr 1; push_cast; omega⟩

/-! ### The order of dates -/

/-- Year, month and day in this order. -/
def Ymd.Before (a b : Ymd) : Prop :=
  a.y < b.y ∨ a.y = b.y ∧ (a.m < b.m ∨ a.m = b.m ∧ a.d < b.d)

/-- The next day of the calendar. -/
def Ymd.tomorrow (a : Ymd) : Ymd :=
  if a.d < daysInMonth a.m a.y then ⟨a.y, a.m, a.d + 1⟩
  else if a.m < 11 then ⟨a.y, a.m + 1, 1⟩
  else ⟨a.y + 1, 0, 1⟩

theorem dse_lt {a b : Ymd} (ha : Valid a.y a.m a.d) (hb : Valid b.y b.m b.d) (h : a.Before b) :
    dse a.y a.m a.d < dse b.y b.m b.d := by
  obtain ⟨hay, ha0, ha11, ha1, hahi⟩ := ha
  obtain ⟨-, hb0, hb11, hb1, -⟩ := hb
  rw [dse_eq_monthStart ha0 ha11, dse_eq_monthStart hb0 hb11]
  rw [← monthLen_monthNo (y := a.y) ha0 ha11] at hahi
  by_cases hmonth : monthNo a.y a.m = monthNo b.y b.m
  · have hd : a.d < b.d := by
      unfold monthNo at hmonth
      unfold Ymd.Before at h
      omega
    rw [hmonth]
    omega
  · have hlt : monthNo a.y a.m < monthNo b.y b.m := by
      unfold monthNo at *
      unfold Ymd.Before at h
      omega
    have := monthStart_add_monthLen_le (by unfold monthNo baseYr at *; omega) hlt
    omega

theorem dse_tomorrow {a : Ymd} (ha : Valid a.y a.m a.d) :
    Valid a.tomorrow.y a.tomorrow.m a.tomorrow.d ∧
      dse a.tomorrow.y a.tomorrow.m a.tomorrow.d = dse a.y a.m a.d + 1 := by
  obtain ⟨hy, h0, h11, h1, hhi⟩ := ha
  unfold Ymd.tomorrow
  split_ifs with hd hm
  · refine ⟨⟨hy, h0, h11, by simp only; omega, hd⟩, ?_⟩
    simp only [dse]
    omega
  · have hlen := (daysInMonth_bounds (m := a.m + 1) (by omega) (by omega) a.y).1
    have hidx := monthIndex_succ h0 hm a.y
    refine ⟨⟨hy, by simp only; omega, by simp only; omega, le_rfl, by simp only; omega⟩, ?_⟩
    simp only [dse, hidx]
    omega
  · have hdec : a.m = 11 := by omega
    have hlen : daysInMonth 11 a.y = 31 := rfl
    have hlast : a.d = 31 := by
      rw [hdec, hlen] at hd hhi
      omega
    refine ⟨⟨by simp only; omega, le_rfl, by simp, le_rfl, ?_⟩, ?_⟩
    · change 1 ≤ daysInMonth 0 (a.y + 1)
      have := (daysInMonth_bounds (m := 0) le_rfl (by omega) (a.y + 1)).1
      omega
    · have hyear := yearStart_succ (y := a.y) (by unfold baseYr at hy; omega)
      have hidx := monthIndex_dec a.y
      simp only [dse, hdec, hlast, hyear, monthIndex_zero]
      omega

/-- **Day numbers and dates correspond.**  `DSE` and `FromDSE` are inverse to each other between the
valid dates from the base year on and the day numbers from 0 on, later dates have greater numbers,
and the next day has the next number. -/
theorem dates_correspond :
    (∀ y m d, Valid y m d → fromDSE (dse y m d) = ⟨y, m, d⟩) ∧
    (∀ n, 0 ≤ n → Valid (fromDSE n).y (fromDSE n).m (fromDSE n).d ∧
      dse (fromDSE n).y (fromDSE n).m (fromDSE n).d = n) ∧
    (∀ a b : Ymd, Valid a.y a.m a.d → Valid b.y b.m b.d → a.Before b →
      dse a.y a.m a.d < dse b.y b.m b.d) ∧
    (∀ a : Ymd, Valid a.y a.m a.d → Valid a.tomorrow.y a.tomorrow.m a.tomorrow.d ∧
      dse a.tomorrow.y a.tomorrow.m a.tomorrow.d = dse a.y a.m a.d + 1) :=
  ⟨fun _ _ _ h => fromDSE_dse h, fun _ h => fromDSE_spec h, fun _ _ ha hb h => dse_lt ha hb h,
    fun _ h => dse_tomorrow h⟩

end Remind
