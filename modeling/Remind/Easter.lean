import Mathlib.Tactic.IntervalCases
import Remind.WeekNo

/-!
# Easter — easterdate() and orthodoxeaster() (funcs.c: `FEasterdate`, `FOrthodoxeaster`)

The references are the Gregorian formula of Meeus, Jones and Butcher and the Julian computus, both
on day numbers.  The epact of the code and the age of the moon in the formula add up to 23 modulo 30.
-/

namespace Remind

/-! ### The references -/

/-- Days from 21 March to the full moon in the Gregorian formula, before its exceptions. -/
def meeusMoon (y : ℤ) : ℤ :=
  (19 * (y % 19) + y / 100 - y / 100 / 4 - (y / 100 - (y / 100 + 8) / 25 + 1) / 3 + 15) % 30

/-- Easter by the formula of Meeus, Jones and Butcher. -/
def meeusEaster (y : ℤ) : ℤ :=
  let e := y / 100 % 4
  let h := meeusMoon y
  let i := y % 100 / 4
  let k := y % 100 % 4
  let l := (32 + 2 * e + 2 * i - h - k) % 7
  let m := (y % 19 + 11 * h + 22 * l) / 451
  dse y ((h + l - 7 * m + 114) / 31 - 1) ((h + l - 7 * m + 114) % 31 + 1)

/-- The ecclesiastical full moon: the latest ones are a day earlier than the formula has it. -/
def fullMoon (y : ℤ) : ℤ :=
  dse y 2 (21 + (if meeusMoon y = 29 ∨ (meeusMoon y = 28 ∧ 10 < y % 19) then meeusMoon y - 1
    else meeusMoon y))

/-- The number of a day of the Julian calendar, whose 1 January 1990 is 14 January. -/
def julianDSE (y m d : ℤ) : ℤ :=
  13 + 365 * (y - 1990) + ((y - 1) / 4 - 497) + monthIndex (if y % 4 = 0 then 1 else 0) m + d - 1

/-- The full moon of the Julian computus. -/
def julianFullMoon (y : ℤ) : ℤ := julianDSE y 2 (21 + (19 * (y % 19) + 15) % 30)

/-- The first Sunday after a day; day 0 is a Monday. -/
def sundayAfter (n : ℤ) : ℤ := n + 7 - (n + 1) % 7

/-- Easter of the Julian computus. -/
def julianEaster (y : ℤ) : ℤ := sundayAfter (julianFullMoon y)

theorem sundayAfter_isLeast (n : ℤ) : IsLeast {x | n < x ∧ x % 7 = 6} (sundayAfter n) := by
  unfold sundayAfter
  refine ⟨⟨by omega, by omega⟩, fun x ⟨hx, hmod⟩ => ?_⟩
  omega

/-! ### Days of March and April -/

section Days

variable {y : ℤ}

theorem dse_march (hy : 1 ≤ y) (d : ℤ) :
    dse y 2 d = 365 * (y - 1990) + y / 4 - y / 100 + y / 400 + d - 424 := by
  have hidx : monthIndex (isLeapYear y) 2 = 59 + isLeapYear y := by
    rcases isLeapYear_eq_or y with h | h <;> rw [h] <;> rfl
  unfold dse
  rw [yearStart_eq hy, hidx]
  unfold isLeapYear
  split_ifs <;> omega

theorem dse_april (y d : ℤ) : dse y 3 d = dse y 2 (d + 31) := by
  have hidx : monthIndex (isLeapYear y) 3 = monthIndex (isLeapYear y) 2 + 31 := by
    rcases isLeapYear_eq_or y with h | h <;> rw [h] <;> rfl
  unfold dse
  omega

/-- Month and day as the formulas take them apart. -/
theorem dse_fold {d : ℤ} (hd : 1 ≤ d) (hd' : d ≤ 62) :
    dse y ((d + 92) / 31 - 1) ((d + 92) % 31 + 1) = dse y 2 d := by
  rcases le_or_gt d 31 with h | h
  · rw [show (d + 92) / 31 - 1 = 2 by omega, show (d + 92) % 31 + 1 = d by omega]
  · rw [show (d + 92) / 31 - 1 = 3 by omega, dse_april,
      show (d + 92) % 31 + 1 + 31 = d by omega]

end Days

/-! ### The Gregorian calendar -/

section Gregorian

variable {y : ℤ}

theorem moonShift (b : ℤ) : (b - (b + 8) / 25 + 1) / 3 = (8 * b + 13) / 25 := by
  obtain ⟨q, r, rfl, h0, h1⟩ : ∃ q r, b = 25 * q + r ∧ 0 ≤ r ∧ r ≤ 24 :=
    ⟨b / 25, b % 25, by omega, by omega, by omega⟩
  interval_cases r <;> omega

/-- The epact and the age of the moon. -/
theorem epact_add_moon (y : ℤ) :
    ((11 * (y % 19 + 1) + 20 + ((8 * (y / 100 + 1) + 5) / 25 - 5) -
      (3 * (y / 100 + 1) / 4 - 12)) % 30 + meeusMoon y) % 30 = 23 := by
  unfold meeusMoon
  rw [moonShift, show 8 * (y / 100 + 1) + 5 = 8 * (y / 100) + 13 by omega,
    show 3 * (y / 100 + 1) / 4 = y / 100 - y / 100 / 4 by omega]
  omega

theorem tmod_wrap (x : ℤ) : (if x.tmod 30 < 0 then x.tmod 30 + 30 else x.tmod 30) = x % 30 := by
  have h := Int.tmod_eq_emod (a := x) (b := 30)
  split_ifs at h ⊢ <;> omega

/-- What a round of `FEasterdate` computes, as a day of March. -/
theorem easterDate_eq (hy : baseYr ≤ y) : easterDate y = sundayAfter (fullMoon y) := by
  rw [show baseYr = 1990 from rfl] at hy
  have hepact := epact_add_moon y
  have hmoon : 0 ≤ meeusMoon y ∧ meeusMoon y < 30 := by
    unfold meeusMoon
    omega
  unfold easterDate fullMoon sundayAfter
  dsimp only
  rw [tmod_wrap]
  rw [Int.tmod_eq_emod_of_nonneg (show 0 ≤ y by omega),
    Int.tdiv_eq_ediv_of_nonneg (show 0 ≤ y by omega),
    Int.tdiv_eq_ediv_of_nonneg (show 0 ≤ 8 * (y / 100 + 1) + 5 by omega),
    Int.tdiv_eq_ediv_of_nonneg (show 0 ≤ 3 * (y / 100 + 1) by omega),
    Int.tdiv_eq_ediv_of_nonneg (show 0 ≤ 5 * y by omega)]
  have he : 0 ≤ (11 * (y % 19 + 1) + 20 + ((8 * (y / 100 + 1) + 5) / 25 - 5) -
    (3 * (y / 100 + 1) / 4 - 12)) % 30 ∧ (11 * (y % 19 + 1) + 20 +
    ((8 * (y / 100 + 1) + 5) / 25 - 5) - (3 * (y / 100 + 1) / 4 - 12)) % 30 < 30 := by omega
  generalize (11 * (y % 19 + 1) + 20 + ((8 * (y / 100 + 1) + 5) / 25 - 5) -
    (3 * (y / 100 + 1) / 4 - 12)) % 30 = e at hepact he
  generalize meeusMoon y = h at hepact hmoon
  -- the full moon of the code, in days of March
  have hfull : (if (44 - if e = 24 ∨ e = 25 ∧ y % 19 + 1 > 11 then e + 1 else e) < 21 then
      (44 - if e = 24 ∨ e = 25 ∧ y % 19 + 1 > 11 then e + 1 else e) + 30
      else 44 - if e = 24 ∨ e = 25 ∧ y % 19 + 1 > 11 then e + 1 else e) =
      21 + if h = 29 ∨ h = 28 ∧ 10 < y % 19 then h - 1 else h := by
    split_ifs <;> omega
  rw [hfull]
  generalize hn : 21 + (if h = 29 ∨ h = 28 ∧ 10 < y % 19 then h - 1 else h) = n
  have hlow : 21 ≤ n := by
    split_ifs at hn <;> omega
  clear hfull hn hepact
  rw [Int.tmod_eq_emod_of_nonneg (by omega)]
  have hcent : 3 * (y / 100 + 1) / 4 = y / 100 - y / 100 / 4 := by omega
  have hleap : 5 * y / 4 = y + y / 4 := by omega
  have h400 : y / 400 = y / 100 / 4 := by omega
  rw [hcent, dse_march (by omega), dse_april, dse_march (by omega), dse_march (by omega), hleap,
    h400]
  split_ifs <;> omega

/-- A day of March as the formula gives it: it is a Sunday, and the exceptions are those of the
full moon. -/
theorem meeusEaster_eq (hy : baseYr ≤ y) : meeusEaster y = sundayAfter (fullMoon y) := by
  rw [show baseYr = 1990 from rfl] at hy
  have hmoon : 0 ≤ meeusMoon y ∧ meeusMoon y < 30 := by
    unfold meeusMoon
    omega
  unfold meeusEaster fullMoon sundayAfter
  dsimp only
  generalize meeusMoon y = h at hmoon
  generalize hl : (32 + 2 * (y / 100 % 4) + 2 * (y % 100 / 4) - h - y % 100 % 4) % 7 = l
  have hl' : 0 ≤ l ∧ l < 7 := by omega
  have ha : 0 ≤ y % 19 ∧ y % 19 < 19 := by omega
  generalize y % 19 = a at ha
  -- the correction takes the last Sunday back by a week
  have hm : (a + 11 * h + 22 * l) / 451 =
      if l = 6 ∧ (h = 29 ∨ h = 28 ∧ 10 < a) then 1 else 0 := by
    split_ifs <;> omega
  rw [hm]
  have hday : h + l - 7 * (if l = 6 ∧ (h = 29 ∨ h = 28 ∧ 10 < a) then 1 else 0) + 114 =
      22 + h + l - 7 * (if l = 6 ∧ (h = 29 ∨ h = 28 ∧ 10 < a) then 1 else 0) + 92 := by omega
  rw [hday, dse_fold (by split_ifs <;> omega) (by split_ifs <;> omega), dse_march (by omega),
    dse_march (by omega)]
  have h400 : y / 400 = y / 100 / 4 := by omega
  have h4 : y / 4 = 25 * (y / 100) + y % 100 / 4 := by omega
  have hcent : y = 100 * (y / 100) + 4 * (y % 100 / 4) + y % 100 % 4 := by omega
  have hsun : (365 * (y - 1990) + y / 4 - y / 100 + y / 400 + (21 + h) - 424 + 1) % 7 = 6 - l := by
    omega
  split_ifs <;> omega

/-- Easter is between 22 March and 25 April. -/
theorem sundayAfter_fullMoon_bounds (y : ℤ) (hy : baseYr ≤ y) :
    dse y 2 22 ≤ sundayAfter (fullMoon y) ∧ sundayAfter (fullMoon y) ≤ dse y 3 25 := by
  rw [show baseYr = 1990 from rfl] at hy
  have hmoon : 0 ≤ meeusMoon y ∧ meeusMoon y < 30 := by
    unfold meeusMoon
    omega
  unfold fullMoon sundayAfter
  generalize meeusMoon y = h at hmoon
  rw [dse_april, dse_march (by omega), dse_march (by omega), dse_march (by omega)]
  split_ifs <;> omega

end Gregorian

/-! ### The Julian calendar -/

section Julian

variable {y : ℤ}

theorem julianDSE_march (y d : ℤ) : julianDSE y 2 d = 365 * (y - 1990) + y / 4 + d - 426 := by
  unfold julianDSE
  split_ifs
  · rw [show monthIndex 1 2 = 60 from rfl]
    omega
  · rw [show monthIndex 0 2 = 59 from rfl]
    omega

theorem julianToGregorianOffset_eq {m : ℤ} (hy : baseYr ≤ y) (hm : 2 ≤ m) :
    julianToGregorianOffset y m = y / 100 - y / 400 - 2 := by
  rw [show baseYr = 1990 from rfl] at hy
  unfold julianToGregorianOffset
  rw [if_neg (show ¬ (y.tmod 100 = 0 ∧ y.tmod 400 ≠ 0 ∧ m < 2) by omega)]
  split_ifs with h
  · rw [Int.tdiv_eq_ediv_of_nonneg (show 0 ≤ y - 2000 by omega),
      Int.tdiv_eq_ediv_of_nonneg (show 0 ≤ y - 2000 by omega)]
    omega
  · omega

/-- What a round of `FOrthodoxeaster` computes. -/
theorem orthodoxEasterDate_eq (hy : baseYr ≤ y) : orthodoxEasterDate y = julianEaster y := by
  have hy' : 1990 ≤ y := hy
  unfold orthodoxEasterDate julianEaster julianFullMoon sundayAfter
  dsimp only
  rw [julianDSE_march]
  rw [Int.tmod_eq_emod_of_nonneg (show 0 ≤ y by omega),
    Int.tmod_eq_emod_of_nonneg (show 0 ≤ y by omega),
    Int.tmod_eq_emod_of_nonneg (show 0 ≤ y by omega),
    Int.tmod_eq_emod_of_nonneg (show 0 ≤ 19 * (y % 19) + 15 by omega)]
  generalize hdd : (19 * (y % 19) + 15) % 30 = dd
  have hdd' : 0 ≤ dd ∧ dd < 30 := by omega
  rw [Int.tmod_eq_emod_of_nonneg (show 0 ≤ 2 * (y % 4) + 4 * (y % 7) - dd + 34 by omega)]
  generalize he : (2 * (y % 4) + 4 * (y % 7) - dd + 34) % 7 = e
  have he' : 0 ≤ e ∧ e < 7 := by omega
  rw [Int.tdiv_eq_ediv_of_nonneg (show 0 ≤ dd + e + 114 by omega),
    Int.tmod_eq_emod_of_nonneg (show 0 ≤ dd + e + 114 by omega),
    show dd + e + 114 = 22 + dd + e + 92 by omega, dse_fold (by omega) (by omega),
    dse_march (by omega), julianToGregorianOffset_eq hy (by omega)]
  have hsun : (365 * (y - 1990) + y / 4 + (21 + dd) - 426 + 1) % 7 = 6 - e := by omega
  omega

/-- Easter is between 22 March and 25 April of the Julian calendar. -/
theorem julianEaster_bounds (y : ℤ) :
    365 * (y - 1990) + y / 4 - 404 ≤ julianEaster y ∧
      julianEaster y ≤ 365 * (y - 1990) + y / 4 - 370 := by
  have hmoon : (19 * (y % 19) + 15) % 30 ≠ 29 := by omega
  unfold julianEaster julianFullMoon sundayAfter
  rw [julianDSE_march]
  omega

theorem julianEaster_lt {y y' : ℤ} (h : y < y') : julianEaster y < julianEaster y' := by
  have h1 := julianEaster_bounds y
  have h2 := julianEaster_bounds y'
  omega

end Julian

/-! ### The loops -/

section Loop

variable {date : ℤ → ℤ} {base : ℤ}

/-- From the year of the base on, two rounds find the first date that is not before it. -/
theorem easterLoop_two (hstart : ∀ y, baseYr ≤ y → yearStart y ≤ date y) (hbase : 0 ≤ base) :
    ∃ z, (z = (fromDSE base).y ∨ z = (fromDSE base).y + 1 ∧ date (fromDSE base).y < base) ∧
      base ≤ date z ∧ easterLoop date base 2 (fromDSE base).y = some (date z) := by
  obtain ⟨hy, -, hnext⟩ := fromDSE_year hbase
  have hsecond := hstart ((fromDSE base).y + 1) (by omega)
  rw [easterLoop]
  by_cases h : date (fromDSE base).y < base
  · refine ⟨_, Or.inr ⟨rfl, h⟩, by omega, ?_⟩
    rw [if_pos ⟨by omega, h⟩, easterLoop, if_neg (by omega)]
  · refine ⟨_, Or.inl rfl, by omega, ?_⟩
    rw [if_neg (by omega)]

/-- The date found is the first one of any year where that of the year before the base's is past. -/
theorem easterLoop_least_iff (hmono : ∀ y y', baseYr ≤ y → y < y' → date y < date y')
    (hstart : ∀ y, baseYr ≤ y → yearStart y ≤ date y) (hbase : 0 ≤ base) :
    (∃ r, easterLoop date base 2 (fromDSE base).y = some r ∧
        IsLeast {n | base ≤ n ∧ ∃ y, baseYr ≤ y ∧ date y = n} r) ↔
      (baseYr < (fromDSE base).y → date ((fromDSE base).y - 1) < base) := by
  obtain ⟨hy, -, -⟩ := fromDSE_year hbase
  obtain ⟨z, hz, hbz, hloop⟩ := easterLoop_two hstart hbase
  rw [hloop]
  constructor
  · rintro ⟨r, hr, -, hleast⟩ hlt
    by_contra hge
    cases hr
    have h1 := hleast ⟨not_lt.mp hge, _, by omega, rfl⟩
    have h2 := hmono ((fromDSE base).y - 1) z (by omega) (by omega)
    omega
  · intro hprev
    refine ⟨_, rfl, ⟨hbz, z, by omega, rfl⟩, ?_⟩
    rintro n ⟨hn, y, hby, rfl⟩
    rcases lt_trichotomy y z with hlt | rfl | hlt
    · exfalso
      rcases lt_trichotomy y (fromDSE base).y with hy' | rfl | hy'
      · have hbefore := hprev (by omega)
        rcases eq_or_lt_of_le (show y ≤ (fromDSE base).y - 1 by omega) with rfl | hlt'
        · omega
        · have := hmono _ _ hby hlt'
          omega
      · omega
      · omega
    · exact le_refl _
    · exact (hmono _ _ (by omega) hlt).le

end Loop

/-! ### The functions -/

/-- `date` is the Easter of the year by both descriptions of the reference, from `lo` to `hi`. -/
structure IsEaster (date reference moon lo hi : ℤ) : Prop where
  eq : date = reference
  sunday : IsLeast {n | moon < n ∧ n % 7 = 6} date
  lo : lo ≤ date
  hi : date ≤ hi

/-- Given a date, the function ends within two rounds with the next date of its kind. -/
def NextEaster (f : ℕ → ℤ → List Value → Option (Except ErrCode Value)) (easter : ℤ → ℤ)
    (today : ℤ) (v : Value) (base : ℤ) : Prop :=
  ∃ r, f 2 today [v] = some (.ok (.date r)) ∧
    IsLeast {n | base ≤ n ∧ ∃ y, baseYr ≤ y ∧ easter y = n} r

section Functions

variable {today base : ℤ} {v : Value}

theorem easterDate_isEaster {y : ℤ} (hy : baseYr ≤ y) :
    IsEaster (easterDate y) (meeusEaster y) (fullMoon y) (dse y 2 22) (dse y 3 25) := by
  rw [easterDate_eq hy]
  obtain ⟨hlo, hhi⟩ := sundayAfter_fullMoon_bounds y hy
  exact ⟨(meeusEaster_eq hy).symm, sundayAfter_isLeast _, hlo, hhi⟩

theorem orthodoxEasterDate_isEaster {y : ℤ} (hy : baseYr ≤ y) :
    IsEaster (orthodoxEasterDate y) (julianEaster y) (julianFullMoon y) (julianDSE y 2 22)
      (julianDSE y 3 25) := by
  have hapril : julianDSE y 3 25 = julianDSE y 2 56 := by
    have hleap : monthIndex 1 3 = monthIndex 1 2 + 31 := rfl
    have hcommon : monthIndex 0 3 = monthIndex 0 2 + 31 := rfl
    unfold julianDSE
    split_ifs <;> omega
  rw [orthodoxEasterDate_eq hy, hapril, julianDSE_march, julianDSE_march]
  obtain ⟨hlo, hhi⟩ := julianEaster_bounds y
  exact ⟨rfl, sundayAfter_isLeast _, by omega, by omega⟩

theorem easterDate_bounds {y : ℤ} (hy : baseYr ≤ y) :
    yearStart y ≤ easterDate y ∧ easterDate y < yearStart (y + 1) := by
  obtain ⟨-, -, hlo, hhi⟩ := easterDate_isEaster hy
  rw [show baseYr = 1990 from rfl] at hy
  rw [dse_april] at hhi
  rw [dse_march (by omega)] at hlo hhi
  rw [yearStart_eq (by omega), yearStart_eq (by omega)]
  omega

theorem fEaster_date {date : ℤ → ℤ} {n : ℕ} (hv : v.datePart = some base) :
    fEaster date n today [v] =
      (easterLoop date base n (fromDSE base).y).map fun d => .ok (.date d) := by
  unfold fEaster
  cases v with
  | date => simp only [hv]
  | datetime => simp only [hv]
  | _ => simp [Value.datePart] at hv

theorem nextEaster_iff {date easter : ℤ → ℤ} (heq : ∀ y, baseYr ≤ y → date y = easter y)
    (hv : v.datePart = some base) :
    NextEaster (fEaster date) easter today v base ↔
      ∃ r, easterLoop date base 2 (fromDSE base).y = some r ∧
        IsLeast {n | base ≤ n ∧ ∃ y, baseYr ≤ y ∧ date y = n} r := by
  have hset : {n | base ≤ n ∧ ∃ y, baseYr ≤ y ∧ easter y = n} =
      {n | base ≤ n ∧ ∃ y, baseYr ≤ y ∧ date y = n} := by
    ext n
    refine and_congr_right fun _ => exists_congr fun y => and_congr_right fun hy => ?_
    rw [heq y hy]
  unfold NextEaster
  rw [hset, fEaster_date hv]
  refine exists_congr fun r => and_congr_left fun _ => ?_
  cases easterLoop date base 2 (fromDSE base).y with
  | none => simp
  | some d => simp

/-- **easterdate()** gives the next Easter. -/
theorem fEasterdate_next (hv : v.datePart = some base) (hbase : 0 ≤ base) :
    NextEaster fEasterdate meeusEaster today v base := by
  have hmono : ∀ y y', baseYr ≤ y → y < y' → easterDate y < easterDate y' := by
    intro y y' hy h
    have h1 := easterDate_bounds hy
    have h2 := easterDate_bounds (hy.trans h.le)
    rcases eq_or_lt_of_le (show y + 1 ≤ y' by omega) with rfl | hlt
    · omega
    · have := yearStart_lt (y := y + 1) (by rw [show baseYr = 1990 from rfl] at hy; omega) hlt
      omega
  refine (nextEaster_iff (fun y hy => (easterDate_isEaster hy).eq) hv).mpr
    ((easterLoop_least_iff hmono (fun y hy => (easterDate_bounds hy).1) hbase).mpr fun hlt => ?_)
  have hend := (easterDate_bounds (y := (fromDSE base).y - 1) (by omega)).2
  have hfirst := (fromDSE_year hbase).2.1
  rw [Int.sub_add_cancel] at hend
  omega

/-- **orthodoxeaster()** gives the next Easter where that of the year before is past. -/
theorem fOrthodoxeaster_next_iff (hv : v.datePart = some base) (hbase : 0 ≤ base) :
    NextEaster fOrthodoxeaster julianEaster today v base ↔
      (baseYr < (fromDSE base).y → julianEaster ((fromDSE base).y - 1) < base) := by
  have hmono : ∀ y y', baseYr ≤ y → y < y' → orthodoxEasterDate y < orthodoxEasterDate y' := by
    intro y y' hy h
    rw [orthodoxEasterDate_eq hy, orthodoxEasterDate_eq (hy.trans h.le)]
    exact julianEaster_lt h
  have hstart : ∀ y, baseYr ≤ y → yearStart y ≤ orthodoxEasterDate y := by
    intro y hy
    have hlo := (julianEaster_bounds y).1
    rw [orthodoxEasterDate_eq hy]
    rw [show baseYr = 1990 from rfl] at hy
    rw [yearStart_eq (by omega)]
    omega
  refine (nextEaster_iff (fun y hy => orthodoxEasterDate_eq hy) hv).trans
    ((easterLoop_least_iff hmono hstart hbase).trans ?_)
  refine forall_congr' fun hlt => ?_
  rw [orthodoxEasterDate_eq (by omega)]

/-- **Easter**: the two functions agree with the references in every year, and given a date they
find the next Easter exactly where the Orthodox one of the year before is past. -/
theorem easter_iff (hv : v.datePart = some base) (hbase : 0 ≤ base) :
    (∀ y, baseYr ≤ y →
        IsEaster (easterDate y) (meeusEaster y) (fullMoon y) (dse y 2 22) (dse y 3 25) ∧
        IsEaster (orthodoxEasterDate y) (julianEaster y) (julianFullMoon y) (julianDSE y 2 22)
          (julianDSE y 3 25) ∧
        (y ≤ baseYr + yrRange →
          fEasterdate 1 today [.int y] = some (.ok (.date (easterDate y))) ∧
          fOrthodoxeaster 1 today [.int y] = some (.ok (.date (orthodoxEasterDate y))))) ∧
      NextEaster fEasterdate meeusEaster today v base ∧
      NextEaster fOrthodoxeaster julianEaster today v base ↔
    (baseYr < (fromDSE base).y → julianEaster ((fromDSE base).y - 1) < base) := by
  constructor
  · rintro ⟨-, -, h⟩
    exact (fOrthodoxeaster_next_iff hv hbase).mp h
  · intro h
    refine ⟨fun y hy => ⟨easterDate_isEaster hy, orthodoxEasterDate_isEaster hy, fun hmax => ?_⟩,
      fEasterdate_next hv hbase, (fOrthodoxeaster_next_iff hv hbase).mpr h⟩
    have hint : ∀ date : ℤ → ℤ, fEaster date 1 today [.int y] = some (.ok (.date (date y))) := by
      intro date
      unfold fEaster
      simp only
      rw [if_neg (by omega), if_neg (by omega), easterLoop, if_neg (by omega)]
      rfl
    exact ⟨hint _, hint _⟩

theorem easter_iff_2026 :
    NextEaster fOrthodoxeaster julianEaster 0 (.date (dse 2026 0 1)) (dse 2026 0 1) :=
  ((@easter_iff 0 (dse 2026 0 1) (.date (dse 2026 0 1)) rfl (by decide)).mpr
    fun _ => by
      rw [fromDSE_dse ⟨by decide, by decide, by decide, by decide, by decide⟩]
      decide).2.2

/-- The Easter of the year 39999 is in February of the next. -/
theorem orthodoxeaster_skips :
    ¬ NextEaster fOrthodoxeaster julianEaster 0 (.date (dse 40000 0 1)) (dse 40000 0 1) := by
  rw [fOrthodoxeaster_next_iff rfl (by decide)]
  rw [fromDSE_dse ⟨by decide, by decide, by decide, by decide, by decide⟩]
  decide

end Functions

end Remind
