import Mathlib
import Remind.Calendar

/-!
# HebCal — the Hebrew calendar (hbcal.c)

A year begins at `roshHashana`.  Its length is one of six, and `daysInHebMonths` lays that length
out in months, so that `hebToDSE` and `dseToHeb` are inverse to each other.  Months run from 0
(Tishrey) to 12 (Elul); Adar A has no days in a year that is not leap.
-/

namespace Remind

/-- `HOUR`, in parts. -/
def hebHour : ℤ := 1080

/-- `DAY` -/
def hebDay : ℤ := 24 * hebHour

/-- `WEEK` -/
def hebWeek : ℤ := 7 * hebDay

/-- `M(h,p)` -/
def hebParts (h p : ℤ) : ℤ := h * hebHour + p

/-- `MONTH`: what a month has over 28 days. -/
def hebMonth : ℤ := hebDay + hebParts 12 793

/-- `CORRECTION` -/
def hebCorrection : ℤ := 732774

/-- `DaysToHebYear` -/
def daysToHebYear (y : ℤ) : ℤ :=
  let l := y * 7 + 1
  let m := y * 12 + l.tdiv 19
  let nm := m * hebMonth + hebParts 1 779
  let s := m * 28 + nm.tdiv hebDay - 2
  let nm := nm.tmod hebWeek
  let l := l.tmod 19
  let dw := nm.tdiv hebDay
  let nm := nm.tmod hebDay
  -- special cases of Molad Zaken
  let late := nm ≥ 18 * hebHour ∨ (l < 12 ∧ dw = 3 ∧ nm ≥ hebParts 9 204) ∨
    (l < 7 ∧ dw = 2 ∧ nm ≥ hebParts 15 589)
  let s := if late then s + 1 else s
  let dw := if late then dw + 1 else dw
  -- ADU
  if dw = 1 ∨ dw = 4 ∨ dw = 6 then s + 1 else s

/-- `RoshHashana` -/
def roshHashana (i : ℤ) : ℤ := daysToHebYear (i - 3744) - hebCorrection

/-- `DaysInHebYear` -/
def daysInHebYear (y : ℤ) : ℤ := daysToHebYear (y - 3743) - daysToHebYear (y - 3744)

/-- `DaysInHebMonths`; 5 is Adar A, 2 is Kislev, 1 is Heshvan. -/
def daysInHebMonths (ylen : ℤ) : List ℤ :=
  let adarA := if ylen > 355 then 30 else 0
  let ylen := if ylen > 355 then ylen - 30 else ylen
  let kislev := if ylen = 353 then 29 else 30
  let heshvan := if ylen = 355 then 30 else 29
  [30, heshvan, kislev, 29, 30, adarA, 29, 30, 29, 30, 29, 30, 29, 29]

/-- The range check of `HebToDSE`. -/
def hebYearOK (hy : ℤ) : Bool := !(hy - 3761 < baseYr ∨ hy - 3760 > baseYr + yrRange)

/-- `HebToDSE` -/
def hebToDSE (hy : ℤ) (hm : ℕ) (hd : ℤ) : ℤ :=
  if hebYearOK hy then
    let monlens := daysInHebMonths (daysInHebYear hy)
    roshHashana hy + (monlens.take hm).sum + (hd - 1)
  else -1

/-- The loop of `DSEToHeb` over the months: the days left and the month. -/
def hebMonthLoop (monlen : List ℤ) (n : ℕ) (rest : ℤ) : Option (ℤ × ℕ) :=
  Lib.whileFuel (fun s : ℤ × ℕ => decide (s.1 ≥ monlen.getD s.2 0 ∨ monlen.getD s.2 0 = 0))
    (fun s => (s.1 - monlen.getD s.2 0, s.2 + 1)) n (rest, 0)

/-- `DSEToHeb`: year, month and day; `n` is fuel for each of its loops. -/
def dseToHeb (n : ℕ) (dse : ℤ) : Option (ℤ × ℕ × ℤ) :=
  -- over-estimate the year
  (Lib.whileFuel (fun y => decide (roshHashana y > dse)) (fun y => y - 1) n
    ((fromDSE dse).y + 3763)).bind fun y =>
      (hebMonthLoop (daysInHebMonths (daysInHebYear y)) n (dse - roshHashana y)).map fun s =>
        (y, s.2, s.1 + 1)

/-! ### The length of a year -/

/-- How far the beginning of a year is put off: `l` is its place in the cycle of 19, `dw` and `nm`
the day of the week and the parts of the day of its new moon. -/
def hebDelay (l dw nm : ℤ) : ℤ :=
  if nm ≥ 19440 ∨ (l < 12 ∧ dw = 3 ∧ nm ≥ 9924) ∨ (l < 7 ∧ dw = 2 ∧ nm ≥ 16789) then
    if dw = 0 ∨ dw = 3 ∨ dw = 5 then 2 else 1
  else if dw = 1 ∨ dw = 4 ∨ dw = 6 then 1 else 0

/-- The parts of the new moons before a year. -/
def hebMolad (y : ℤ) : ℤ := (y * 12 + (y * 7 + 1) / 19) * 39673 + 1859

theorem daysToHebYear_eq {y : ℤ} (hy : 0 ≤ y) :
    daysToHebYear y = (y * 12 + (y * 7 + 1) / 19) * 28 + hebMolad y / 25920 - 2 +
      hebDelay ((y * 7 + 1) % 19) (hebMolad y / 25920 % 7) (hebMolad y % 25920) := by
  have hm : 0 ≤ hebMolad y := by unfold hebMolad; omega
  have hdef : (y * 12 + (y * 7 + 1) / 19) * hebMonth + hebParts 1 779 = hebMolad y := rfl
  have hdiv : (hebMolad y).tdiv hebDay = hebMolad y / 25920 := Int.tdiv_eq_ediv_of_nonneg hm
  have hweek : (hebMolad y).tmod hebWeek = hebMolad y % 181440 := Int.tmod_eq_emod_of_nonneg hm
  have hdw : (hebMolad y % 181440).tdiv hebDay = hebMolad y / 25920 % 7 := by
    rw [Int.tdiv_eq_ediv_of_nonneg (by omega)]
    show hebMolad y % 181440 / 25920 = _
    omega
  have hnm : (hebMolad y % 181440).tmod hebDay = hebMolad y % 25920 := by
    rw [Int.tmod_eq_emod_of_nonneg (by omega)]
    show hebMolad y % 181440 % 25920 = _
    omega
  have hl : (y * 7 + 1).tmod 19 = (y * 7 + 1) % 19 := Int.tmod_eq_emod_of_nonneg (by omega)
  have hl' : (y * 7 + 1).tdiv 19 = (y * 7 + 1) / 19 := Int.tdiv_eq_ediv_of_nonneg (by omega)
  unfold daysToHebYear
  simp only [hl', hdef, hdiv, hweek, hdw, hnm, hl, show 18 * hebHour = 19440 from rfl,
    show hebParts 9 204 = 9924 from rfl, show hebParts 15 589 = 16789 from rfl]
  have hw : 0 ≤ hebMolad y / 25920 % 7 ∧ hebMolad y / 25920 % 7 < 7 := by omega
  unfold hebDelay
  generalize hebMolad y / 25920 % 7 = dw at hw
  generalize hebMolad y % 25920 = nm
  split_ifs <;> omega

/-- The new moon a year later. -/
theorem hebMolad_succ {y : ℤ} : hebMolad (y + 1) =
    if (y * 7 + 1) % 19 < 12 then hebMolad y + 476076 else hebMolad y + 515749 := by
  unfold hebMolad
  split_ifs <;> omega

/-- A year of 12 months is 354 days or 355 by its new moons, one of 13 months 383 or 384; the delays
of its two ends keep it one of six lengths. -/
theorem hebDelay_diff {l dw nm : ℤ} (hl : 0 ≤ l ∧ l < 19) (hw : 0 ≤ dw ∧ dw < 7)
    (hn : 0 ≤ nm ∧ nm < 25920) :
    (l < 12 → nm < 16404 →
      hebDelay (l + 7) ((dw + 4) % 7) (nm + 9516) - hebDelay l dw nm ∈ Set.Icc (-1 : ℤ) 1) ∧
    (l < 12 → 16404 ≤ nm →
      hebDelay (l + 7) ((dw + 5) % 7) (nm - 16404) - hebDelay l dw nm ∈ Set.Icc (-2 : ℤ) 0) ∧
    (12 ≤ l → nm < 2651 →
      hebDelay (l - 12) ((dw + 5) % 7) (nm + 23269) - hebDelay l dw nm ∈ Set.Icc (0 : ℤ) 2) ∧
    (12 ≤ l → 2651 ≤ nm →
      hebDelay (l - 12) ((dw + 6) % 7) (nm - 2651) - hebDelay l dw nm ∈ Set.Icc (-1 : ℤ) 1) := by
  obtain ⟨hw0, hw7⟩ := hw
  unfold hebDelay
  simp only [Set.mem_Icc]
  refine ⟨fun _ _ => ?_, fun _ _ => ?_, fun _ _ => ?_, fun _ _ => ?_⟩
  all_goals interval_cases dw <;> simp <;> split_ifs <;> omega

/-- The months of a year's length add up to it. -/
structure HebYearLength (ylen : ℤ) : Prop where
  sum : ((daysInHebMonths ylen).take 13).sum = ylen
  nonneg : ∀ k ∈ daysInHebMonths ylen, 0 ≤ k

theorem hebYearLength {ylen : ℤ}
    (h : (353 ≤ ylen ∧ ylen ≤ 355) ∨ (383 ≤ ylen ∧ ylen ≤ 385)) : HebYearLength ylen := by
  rcases h with ⟨h1, h2⟩ | ⟨h1, h2⟩ <;> interval_cases ylen <;> exact ⟨by decide, by decide⟩

theorem daysToHebYear_succ {y : ℤ} (hy : 0 ≤ y) :
    (353 ≤ daysToHebYear (y + 1) - daysToHebYear y ∧
      daysToHebYear (y + 1) - daysToHebYear y ≤ 355) ∨
    (383 ≤ daysToHebYear (y + 1) - daysToHebYear y ∧
      daysToHebYear (y + 1) - daysToHebYear y ≤ 385) := by
  have hm : 0 ≤ hebMolad y := by unfold hebMolad; omega
  obtain ⟨hA, hB, hC, hD⟩ := @hebDelay_diff ((y * 7 + 1) % 19) (hebMolad y / 25920 % 7)
    (hebMolad y % 25920) (by omega) (by omega) (by omega)
  rw [daysToHebYear_eq hy, daysToHebYear_eq (by omega : 0 ≤ y + 1), hebMolad_succ]
  simp only [Set.mem_Icc] at hA hB hC hD
  generalize hebMolad y = N at *
  by_cases hl : (y * 7 + 1) % 19 < 12
  · rw [if_pos hl, show ((y + 1) * 7 + 1) % 19 = (y * 7 + 1) % 19 + 7 by omega]
    by_cases hr : N % 25920 < 16404
    · have hA := hA hl hr
      rw [show (N + 476076) / 25920 % 7 = (N / 25920 % 7 + 4) % 7 by omega,
        show (N + 476076) % 25920 = N % 25920 + 9516 by omega]
      omega
    · have hB := hB hl (by omega)
      rw [show (N + 476076) / 25920 % 7 = (N / 25920 % 7 + 5) % 7 by omega,
        show (N + 476076) % 25920 = N % 25920 - 16404 by omega]
      omega
  · rw [if_neg hl, show ((y + 1) * 7 + 1) % 19 = (y * 7 + 1) % 19 - 12 by omega]
    by_cases hr : N % 25920 < 2651
    · have hC := hC (by omega) hr
      rw [show (N + 515749) / 25920 % 7 = (N / 25920 % 7 + 5) % 7 by omega,
        show (N + 515749) % 25920 = N % 25920 + 23269 by omega]
      omega
    · have hD := hD (by omega) (by omega)
      rw [show (N + 515749) / 25920 % 7 = (N / 25920 % 7 + 6) % 7 by omega,
        show (N + 515749) % 25920 = N % 25920 - 2651 by omega]
      omega

theorem daysInHebYear_eq (y : ℤ) : daysInHebYear y = roshHashana (y + 1) - roshHashana y := by
  unfold daysInHebYear roshHashana
  rw [show y - 3743 = y + 1 - 3744 by omega]
  omega

theorem hebYearLength_year {y : ℤ} (hy : 3744 ≤ y) : HebYearLength (daysInHebYear y) := by
  have h := daysToHebYear_succ (y := y - 3744) (by omega)
  unfold daysInHebYear
  rw [show y - 3743 = y - 3744 + 1 by omega]
  exact hebYearLength h

theorem roshHashana_lt_succ {y : ℤ} (hy : 3744 ≤ y) : roshHashana y < roshHashana (y + 1) := by
  have h := daysToHebYear_succ (y := y - 3744) (by omega)
  unfold roshHashana
  rw [show y + 1 - 3744 = y - 3744 + 1 by omega]
  omega

theorem roshHashana_mono {y z : ℤ} (hy : 3744 ≤ y) (hz : y ≤ z) :
    roshHashana y ≤ roshHashana z := by
  obtain ⟨k, rfl⟩ := Int.le.dest hz
  clear hz
  induction k with
  | zero => simp
  | succ k ih =>
    have h := roshHashana_lt_succ (y := y + k) (by omega)
    push_cast
    rw [← add_assoc]
    omega

/-- The year in which `DSEToHeb` begins is late enough. -/
theorem yearStart_le_roshHashana {y : ℤ} (hy : baseYr ≤ y) :
    yearStart (y + 1) ≤ roshHashana (y + 3763) := by
  have hy' : 1990 ≤ y := hy
  have hdelay : ∀ l dw nm, 0 ≤ hebDelay l dw nm := by
    intro l dw nm
    unfold hebDelay
    split_ifs <;> omega
  rw [yearStart_eq (by omega), roshHashana, daysToHebYear_eq (by omega)]
  have h := hdelay (((y + 3763 - 3744) * 7 + 1) % 19) (hebMolad (y + 3763 - 3744) / 25920 % 7)
    (hebMolad (y + 3763 - 3744) % 25920)
  unfold hebMolad hebCorrection at *
  omega

/-! ### The loops of `DSEToHeb` -/

theorem lt_yearStart_succ {n : ℤ} (hn : 0 ≤ n) : n < yearStart ((fromDSE n).y + 1) := by
  obtain ⟨⟨hb, h0, h11, h1, hlen⟩, hdse⟩ := fromDSE_spec hn
  have hb' : 1990 ≤ (fromDSE n).y := hb
  have hnext : monthStart (monthNo ((fromDSE n).y + 1) 0) = yearStart ((fromDSE n).y + 1) := by
    rw [monthStart_monthNo (le_refl 0) (by omega), dse, monthIndex_zero]
    omega
  have hle := monthStart_add_monthLen_le (M := monthNo (fromDSE n).y (fromDSE n).m)
    (N := monthNo ((fromDSE n).y + 1) 0) (by unfold monthNo; omega) (by unfold monthNo; omega)
  rw [monthLen_monthNo h0 h11, hnext] at hle
  rw [dse_eq_monthStart h0 h11] at hdse
  omega

/-- The search for the year: the last one that has begun. -/
theorem hebYearLoop_spec {n : ℤ} (hn : 0 ≤ n) {k : ℕ} (hk : (fromDSE n).y < k) :
    ∃ y, Lib.whileFuel (fun y => decide (roshHashana y > n)) (fun y => y - 1) k
        ((fromDSE n).y + 3763) = some y ∧ 5750 ≤ y ∧ roshHashana y ≤ n ∧ n < roshHashana (y + 1) := by
  have hb : 1990 ≤ (fromDSE n).y := (fromDSE_spec hn).1.1
  have hstart : n < roshHashana ((fromDSE n).y + 3763 + 1) :=
    calc n < yearStart ((fromDSE n).y + 1) := lt_yearStart_succ hn
      _ ≤ roshHashana ((fromDSE n).y + 3763) := yearStart_le_roshHashana hb
      _ < roshHashana ((fromDSE n).y + 3763 + 1) := roshHashana_lt_succ (by omega)
  obtain ⟨y, hy, ⟨hlo, hlt⟩, hexit⟩ := Lib.whileFuel_total
    (c := fun y => decide (roshHashana y > n)) (f := fun y => y - 1)
    (fun y => 5750 ≤ y ∧ n < roshHashana (y + 1)) (fun y => (y - 5750).toNat)
    (fun y ⟨hlo, _⟩ hc => by
      have hc : roshHashana y > n := by simpa using hc
      have hbase : roshHashana 5750 ≤ 0 := by decide
      have hne : y ≠ 5750 := by
        rintro rfl
        omega
      refine ⟨⟨by omega, ?_⟩, by omega⟩
      rwa [show y - 1 + 1 = y by omega]) (n := k) (s := (fromDSE n).y + 3763)
    ⟨by omega, hstart⟩ (by omega)
  exact ⟨y, hy, hlo, by simpa using hexit, hlt⟩

theorem sum_take_succ {ls : List ℤ} {m : ℕ} (hm : m < ls.length) :
    (ls.take (m + 1)).sum = (ls.take m).sum + ls.getD m 0 := by
  rw [List.take_succ_eq_append_getElem hm, List.sum_append, List.getD_eq_getElem _ _ hm]
  simp

theorem sum_take_mono {ls : List ℤ} (hls : ∀ k ∈ ls, 0 ≤ k) {m n : ℕ} (hmn : m ≤ n) :
    (ls.take m).sum ≤ (ls.take n).sum := by
  obtain ⟨k, rfl⟩ := Nat.le.dest hmn
  rw [List.take_add, List.sum_append]
  have hrest : 0 ≤ ((ls.drop m).take k).sum :=
    List.sum_nonneg fun x hx => hls x (List.mem_of_mem_drop (List.mem_of_mem_take hx))
  omega

/-- The search for the month in the months `ls` of a year: the first one that has not ended. -/
theorem hebMonthLoop_spec {ls : List ℤ} {d : ℤ} (hd : 0 ≤ d) (hlen : 13 ≤ ls.length)
    (hsum : d < (ls.take 13).sum) {k : ℕ} (hk : 13 < k) :
    ∃ r m, hebMonthLoop ls k d = some (r, m) ∧ m ≤ 12 ∧ 0 ≤ r ∧ r < ls.getD m 0 ∧
      (ls.take m).sum + r = d := by
  obtain ⟨⟨r, m⟩, hloop, ⟨hm, hr, hd'⟩, hexit⟩ := Lib.whileFuel_total
    (c := fun s : ℤ × ℕ => decide (s.1 ≥ ls.getD s.2 0 ∨ ls.getD s.2 0 = 0))
    (f := fun s => (s.1 - ls.getD s.2 0, s.2 + 1))
    (fun s => s.2 ≤ 12 ∧ 0 ≤ s.1 ∧ (ls.take s.2).sum + s.1 = d) (fun s => 13 - s.2)
    (fun s ⟨hm, hr, hs⟩ hc => by
      have hsucc : (ls.take (s.2 + 1)).sum = (ls.take s.2).sum + ls.getD s.2 0 :=
        sum_take_succ (by omega)
      have hge : s.1 ≥ ls.getD s.2 0 := by
        rcases of_decide_eq_true hc with hc | hc
        · exact hc
        · omega
      -- the last month ends where the year does
      have hlast : s.2 ≠ 12 := by
        intro h12
        rw [h12] at hsucc hge hs
        have hsucc : (ls.take 13).sum = (ls.take 12).sum + ls.getD 12 0 := hsucc
        omega
      refine ⟨⟨?_, ?_, ?_⟩, ?_⟩
      · show s.2 + 1 ≤ 12
        omega
      · show 0 ≤ s.1 - ls.getD s.2 0
        omega
      · show (ls.take (s.2 + 1)).sum + (s.1 - ls.getD s.2 0) = d
        omega
      · show 13 - (s.2 + 1) < 13 - s.2
        omega) (n := k) (s := (d, 0))
    ⟨by omega, hd, by simp⟩ (by omega)
  have hexit : ¬ (r ≥ ls.getD m 0 ∨ ls.getD m 0 = 0) := of_decide_eq_false hexit
  exact ⟨r, m, hloop, hm, hr, by omega, hd'⟩

theorem length_daysInHebMonths (ylen : ℤ) : (daysInHebMonths ylen).length = 14 := rfl

/-- `DSEToHeb` gives the year and the month that the day is in. -/
theorem dseToHeb_spec {n : ℤ} (hn : 0 ≤ n) {k : ℕ} (hk : (fromDSE n).y < k) :
    ∃ hy hm hd, dseToHeb k n = some (hy, hm, hd) ∧ 5750 ≤ hy ∧ hm ≤ 12 ∧ 1 ≤ hd ∧
      hd ≤ (daysInHebMonths (daysInHebYear hy)).getD hm 0 ∧
      roshHashana hy + ((daysInHebMonths (daysInHebYear hy)).take hm).sum + (hd - 1) = n := by
  have hb : 1990 ≤ (fromDSE n).y := (fromDSE_spec hn).1.1
  obtain ⟨y, hy, hlo, hle, hlt⟩ := hebYearLoop_spec hn hk
  have hlength := hebYearLength_year (y := y) (by omega)
  have hyear := daysInHebYear_eq y
  obtain ⟨r, m, hm, hm12, hr, hrlt, hsum⟩ := @hebMonthLoop_spec
    (daysInHebMonths (daysInHebYear y)) (n - roshHashana y) (by omega)
    (by rw [length_daysInHebMonths]; omega) (by rw [hlength.sum]; omega) k (by omega)
  refine ⟨y, m, r + 1, ?_, hlo, hm12, by omega, by omega, by omega⟩
  rw [dseToHeb, hy, Option.bind_some, hm]
  rfl

/-- The days of a year. -/
theorem hebDay_bounds {y : ℤ} {m : ℕ} {d : ℤ} (hy : 3744 ≤ y) (hm : m ≤ 12) (hd : 1 ≤ d)
    (hlen : d ≤ (daysInHebMonths (daysInHebYear y)).getD m 0) :
    roshHashana y ≤ roshHashana y + ((daysInHebMonths (daysInHebYear y)).take m).sum + (d - 1) ∧
      roshHashana y + ((daysInHebMonths (daysInHebYear y)).take m).sum + (d - 1) <
        roshHashana (y + 1) := by
  have hlength := hebYearLength_year hy
  have hyear := daysInHebYear_eq y
  have h0 := sum_take_mono hlength.nonneg (Nat.zero_le m)
  have hsucc := @sum_take_succ (daysInHebMonths (daysInHebYear y)) m
    (by rw [length_daysInHebMonths]; omega)
  have h13 := sum_take_mono hlength.nonneg (show m + 1 ≤ 13 by omega)
  rw [hlength.sum] at h13
  rw [List.take_zero, List.sum_nil] at h0
  omega

/-- A day is in one year only, and in one month only. -/
theorem hebDate_unique {y y' : ℤ} {m m' : ℕ} {d d' : ℤ} (hy : 3744 ≤ y) (hy' : 3744 ≤ y')
    (hm : m ≤ 12) (hm' : m' ≤ 12) (hd : 1 ≤ d) (hd' : 1 ≤ d')
    (hlen : d ≤ (daysInHebMonths (daysInHebYear y)).getD m 0)
    (hlen' : d' ≤ (daysInHebMonths (daysInHebYear y')).getD m' 0)
    (h : roshHashana y + ((daysInHebMonths (daysInHebYear y)).take m).sum + (d - 1) =
      roshHashana y' + ((daysInHebMonths (daysInHebYear y')).take m').sum + (d' - 1)) :
    y = y' ∧ m = m' ∧ d = d' := by
  have h1 := hebDay_bounds hy hm hd hlen
  have h2 := hebDay_bounds hy' hm' hd' hlen'
  obtain rfl : y = y' := by
    rcases lt_trichotomy y y' with hlt | heq | hlt
    · have := roshHashana_mono (y := y + 1) (z := y') (by omega) (by omega)
      omega
    · exact heq
    · have := roshHashana_mono (y := y' + 1) (z := y) (by omega) (by omega)
      omega
  have hnonneg := (hebYearLength_year hy).nonneg
  have hlast : ∀ {m m' : ℕ}, m ≤ 12 → m < m' →
      ((daysInHebMonths (daysInHebYear y)).take m).sum +
        (daysInHebMonths (daysInHebYear y)).getD m 0 ≤
        ((daysInHebMonths (daysInHebYear y)).take m').sum := by
    intro m m' hm hlt
    rw [← sum_take_succ (by rw [length_daysInHebMonths]; omega)]
    exact sum_take_mono hnonneg hlt
  obtain rfl : m = m' := by
    rcases lt_trichotomy m m' with hlt | heq | hlt
    · have := hlast hm hlt
      omega
    · exact heq
    · have := hlast hm' hlt
      omega
  exact ⟨rfl, rfl, by omega⟩

/-- **Hebrew dates correspond.**  `DSEToHeb` ends on every day and gives a day of a month there is,
from which `HebToDSE` gives the day again if the year passes its check; and on every day of every
month of a year that passes it, `HebToDSE` gives a day from which `DSEToHeb` gives the date again. -/
theorem hebDates_correspond :
    (∀ n, 0 ≤ n → ∀ k : ℕ, (fromDSE n).y < k → ∃ hy hm hd, dseToHeb k n = some (hy, hm, hd) ∧
      hm ≤ 12 ∧ 1 ≤ hd ∧ hd ≤ (daysInHebMonths (daysInHebYear hy)).getD hm 0 ∧
      (hebYearOK hy = true → hebToDSE hy hm hd = n)) ∧
    (∀ hy hm hd, hebYearOK hy = true → 0 ≤ hebToDSE hy hm hd → hm ≤ 12 → 1 ≤ hd →
      hd ≤ (daysInHebMonths (daysInHebYear hy)).getD hm 0 →
      ∀ k : ℕ, (fromDSE (hebToDSE hy hm hd)).y < k →
        dseToHeb k (hebToDSE hy hm hd) = some (hy, hm, hd)) := by
  constructor
  · intro n hn k hk
    obtain ⟨hy, hm, hd, hres, -, hm12, hd1, hlen, hday⟩ := dseToHeb_spec hn hk
    refine ⟨hy, hm, hd, hres, hm12, hd1, hlen, fun hok => ?_⟩
    rw [hebToDSE, if_pos hok]
    exact hday
  · intro hy hm hd hok hpos hm12 hd1 hlen k hk
    obtain ⟨y, m, d, hres, hlo, hm', hd', hlen', hday⟩ := dseToHeb_spec hpos hk
    have hy1 : 5751 ≤ hy := by
      have hin : ¬ (hy - 3761 < baseYr ∨ hy - 3760 > baseYr + yrRange) := by
        simpa [hebYearOK] using hok
      have hbase : baseYr = 1990 := rfl
      omega
    rw [hebToDSE, if_pos hok] at hday
    obtain ⟨rfl, rfl, rfl⟩ := hebDate_unique (by omega) (by omega) hm' hm12 hd' hd1 hlen' hlen hday
    exact hres

/-! ### The structure of a year -/

/-- `HebIsLeap[]` -/
def hebIsLeap : List ℤ := [0, 0, 1, 0, 0, 1, 0, 1, 0, 0, 1, 0, 0, 1, 0, 0, 1, 0, 1]

/-- The years of the cycle that the table marks are those of 13 new moons. -/
theorem hebIsLeap_iff {y : ℤ} : hebIsLeap.getD ((y - 1) % 19).toNat 0 = 1 ↔
    12 ≤ ((y - 3744) * 7 + 1) % 19 := by
  have hall : ∀ k < 19, hebIsLeap.getD k 0 = 1 ↔ 12 ≤ (((k : ℕ) : ℤ) * 7 + 1) % 19 := by decide
  have hk : ((((y - 1) % 19).toNat : ℕ) : ℤ) = (y - 1) % 19 := Int.toNat_of_nonneg (by omega)
  have hmod : ((y - 3744) * 7 + 1) % 19 = ((y - 1) % 19 * 7 + 1) % 19 := by
    omega
  rw [hall _ (by omega), hk, hmod]

/-- By the weekday that it is put off to, a year begins on no Sunday, Wednesday or Friday. -/
theorem hebDelay_weekday {l dw nm : ℤ} (hw : 0 ≤ dw ∧ dw < 7) :
    (dw + hebDelay l dw nm - 2) % 7 ≠ 6 ∧ (dw + hebDelay l dw nm - 2) % 7 ≠ 2 ∧
      (dw + hebDelay l dw nm - 2) % 7 ≠ 4 := by
  unfold hebDelay
  split_ifs <;> omega

/-- How long a year can be by its place in the cycle. -/
theorem daysToHebYear_leap {y : ℤ} (hy : 0 ≤ y) :
    355 < daysToHebYear (y + 1) - daysToHebYear y ↔ 12 ≤ (y * 7 + 1) % 19 := by
  have hm : 0 ≤ hebMolad y := by unfold hebMolad; omega
  have hdelay : ∀ l dw nm, 0 ≤ hebDelay l dw nm ∧ hebDelay l dw nm ≤ 2 := by
    intro l dw nm
    unfold hebDelay
    split_ifs <;> omega
  have h1 := hdelay ((y * 7 + 1) % 19) (hebMolad y / 25920 % 7) (hebMolad y % 25920)
  have h2 := hdelay (((y + 1) * 7 + 1) % 19) (hebMolad (y + 1) / 25920 % 7)
    (hebMolad (y + 1) % 25920)
  have hsix := daysToHebYear_succ hy
  rw [daysToHebYear_eq hy, daysToHebYear_eq (by omega : 0 ≤ y + 1)] at hsix ⊢
  rw [hebMolad_succ] at *
  split_ifs at * <;> omega

/-- **The structure of a Hebrew year**: its length is one of six, more than 355 in the leap years of
the cycle, its months add up to it, and it begins on no Sunday, Wednesday or Friday (a day number is
0 modulo 7 on Mondays). -/
theorem hebYear_structure {y : ℤ} (hy : 3744 ≤ y) :
    daysInHebYear y ∈ ([353, 354, 355, 383, 384, 385] : List ℤ) ∧
    (355 < daysInHebYear y ↔ hebIsLeap.getD ((y - 1) % 19).toNat 0 = 1) ∧
    ((daysInHebMonths (daysInHebYear y)).take 13).sum = daysInHebYear y ∧
    roshHashana y % 7 ∉ ([6, 2, 4] : List ℤ) := by
  have hlen : daysInHebYear y = daysToHebYear (y - 3744 + 1) - daysToHebYear (y - 3744) := by
    unfold daysInHebYear
    rw [show y - 3743 = y - 3744 + 1 by omega]
  have hsix := daysToHebYear_succ (y := y - 3744) (by omega)
  have hweek := @hebDelay_weekday (((y - 3744) * 7 + 1) % 19) (hebMolad (y - 3744) / 25920 % 7)
    (hebMolad (y - 3744) % 25920) (by omega)
  refine ⟨?_, ?_, (hebYearLength_year hy).sum, ?_⟩
  · rw [← hlen] at hsix
    simp only [List.mem_cons, List.not_mem_nil, or_false]
    omega
  · rw [hlen, hebIsLeap_iff]
    exact daysToHebYear_leap (by omega)
  · simp only [List.mem_cons, List.not_mem_nil, or_false, roshHashana, hebCorrection,
      daysToHebYear_eq (show 0 ≤ y - 3744 by omega)]
    omega

theorem hebYear_structure_5784 : daysInHebYear 5784 ∈ ([353, 354, 355, 383, 384, 385] : List ℤ) ∧
    355 < daysInHebYear 5784 := by
  obtain ⟨h1, h2, -, -⟩ := hebYear_structure (show (3744 : ℤ) ≤ 5784 by decide)
  exact ⟨h1, h2.mpr (by decide)⟩

end Remind
