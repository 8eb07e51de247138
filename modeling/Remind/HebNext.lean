import Mathlib.Data.Int.LeastGreatest
import Remind.HebCal
import Remind.Trigger

/-!
# HebNext — the next occurrence of a Hebrew date (hbcal.c: `GetValidHebDate`, `GetNextHebrewDate`)

The loop goes through slots: years, and for "both Adars" two in every year.  The occurrences of a
date come in the order of their slots, and a year in which it occurs recurs within 19 years.
-/

namespace Remind

/-- `JAHR_NONE`, `JAHR_FORWARD`, `JAHR_BACKWARD` -/
inductive JahrRule where
  | none
  | forward
  | backward
  deriving DecidableEq, Repr

/-- `ADAR2ADARA`, `ADAR2ADARB`, `ADAR2BOTH` -/
inductive AdarRule where
  | adarA
  | adarB
  | both
  deriving DecidableEq, Repr

/-- `MaxMonLen[]`; 13 is Adar. -/
def maxMonLen : List ℤ := [30, 30, 30, 29, 30, 30, 29, 30, 29, 30, 29, 30, 29, 29]

/-- The outcome of `GetValidHebDate`: there is no such date (`*dout` is -1), there is none in the
year, or the month and day. -/
inductive HebDay where
  | invalid (r : ErrCode)
  | missing (r : ErrCode)
  | day (m : ℕ) (d : ℤ)
  deriving DecidableEq, Repr

/-- "Convert ADAR as necessary" -/
def convertAdar (monlen : List ℤ) (min : ℕ) (adarbehave : AdarRule) : Option ℕ :=
  if min = 13 then
    match adarbehave with
    | .adarA => some (if monlen.getD 5 0 ≠ 0 then 5 else 6)
    | .adarB => some 6
    | .both => none
  else some min

/-- `GetValidHebDate` -/
def getValidHebDate (yin : ℤ) (min : ℕ) (din : ℤ) (adarbehave : AdarRule) (jahr : JahrRule) :
    HebDay :=
  if din < 1 ∨ din > maxMonLen.getD min 0 ∨ min > 13 then .invalid .badHebdate
  else
    let monlen := daysInHebMonths (daysInHebYear yin)
    match convertAdar monlen min adarbehave with
    | none => .missing .swerr
    | some min =>
      if din ≤ monlen.getD min 0 then .day min din
      else
        match jahr with
        | .none => .missing .badDate
        | .forward =>
          if min = 2 then .day 3 1
          else if min = 1 then .day 2 1
          else if min = 5 then (if din > 29 then .day 7 1 else .day 6 din)
          else .missing .swerr
        | .backward =>
          if min = 2 then .day 2 29
          else if min = 1 then .day 1 29
          else if min = 5 then (if din > 29 then .day 4 30 else .day 6 din)
          else .missing .swerr

/-- The year and the rule for Adar of the next round. -/
def nextSlot (hm : ℕ) (adarbehave : AdarRule) (yout : ℤ) (adarflag : AdarRule) : ℤ × AdarRule :=
  if adarbehave = .both ∧ hm = 13 then
    if adarflag = .adarA then (yout, .adarB) else (yout + 1, .adarA)
  else (yout + 1, adarflag)

section Next

variable (dsestart : ℤ) (hm : ℕ) (hd : ℤ) (jahr : JahrRule) (adarbehave : AdarRule)

/-- The loop of `GetNextHebrewDate`. -/
def nextHebLoop : ℕ → ℤ × AdarRule → Option (Except ErrCode ℤ)
  | 0, _ => none
  | k + 1, (yout, adarflag) =>
    match getValidHebDate yout hm hd adarflag jahr with
    | .invalid r => some (.error r)
    | .missing _ => nextHebLoop k (nextSlot hm adarbehave yout adarflag)
    | .day mout dout =>
      let dse := hebToDSE yout mout dout
      if dse < 0 then some (.error .dateOver)
      else if dse ≥ dsestart then some (.ok dse)
      else nextHebLoop k (nextSlot hm adarbehave yout adarflag)

/-- `GetNextHebrewDate`; `n` is fuel for each of its loops. -/
def getNextHebrewDate (n : ℕ) : Option (Except ErrCode ℤ) :=
  (dseToHeb n dsestart).bind fun s =>
    nextHebLoop dsestart hm hd jahr adarbehave n
      (s.1, if adarbehave = .both then .adarA else adarbehave)

end Next

/-! ### What the dates are -/

/-- The number of a day of a Hebrew year. -/
def hebDayNo (y : ℤ) (m : ℕ) (d : ℤ) : ℤ :=
  roshHashana y + ((daysInHebMonths (daysInHebYear y)).take m).sum + (d - 1)

/-- In some year, the date is on day `x` by the rules. -/
def HebOccurs (hm : ℕ) (hd : ℤ) (jahr : JahrRule) (adarbehave : AdarRule) (x : ℤ) : Prop :=
  ∃ y f m d, 3744 ≤ y ∧ f ≠ .both ∧ (adarbehave = .both ∨ f = adarbehave) ∧
    getValidHebDate y hm hd f jahr = .day m d ∧ x = hebDayNo y m d

/-- The last day that `HebToDSE` represents. -/
def lastHebDay : ℤ := roshHashana 9751 - 1

section Months

variable {y hd : ℤ} {hm : ℕ} {f : AdarRule} {jahr : JahrRule}

theorem monlen_eq (ylen : ℤ) {m : ℕ} (hm : m ≤ 12) (h1 : m ≠ 1) (h2 : m ≠ 2) (h5 : m ≠ 5) :
    (daysInHebMonths ylen).getD m 0 = maxMonLen.getD m 0 := by
  interval_cases m <;> first | rfl | contradiction

/-- The months that change their length. -/
theorem monlen_or (ylen : ℤ) :
    ((daysInHebMonths ylen).getD 1 0 = 29 ∨ (daysInHebMonths ylen).getD 1 0 = 30) ∧
      ((daysInHebMonths ylen).getD 2 0 = 29 ∨ (daysInHebMonths ylen).getD 2 0 = 30) ∧
      ((daysInHebMonths ylen).getD 5 0 = 0 ∨ (daysInHebMonths ylen).getD 5 0 = 30) := by
  unfold daysInHebMonths
  simp only [List.getD_cons_succ, List.getD_cons_zero]
  refine ⟨?_, ?_, ?_⟩ <;> split_ifs <;> simp

/-- A month and a day that it has in some year. -/
structure HebDate (hm : ℕ) (hd : ℤ) : Prop where
  month : hm ≤ 13
  lo : 1 ≤ hd
  hi : hd ≤ maxMonLen.getD hm 0

theorem convertAdar_spec (monlen : List ℤ) (hm13 : hm ≤ 13) (hf : f ≠ .both) :
    ∃ m, convertAdar monlen hm f = some m ∧ m ≤ 12 ∧
      (hm = 13 ∧ (m = 5 ∧ monlen.getD 5 0 ≠ 0 ∨ m = 6) ∨ hm ≠ 13 ∧ m = hm) := by
  unfold convertAdar
  by_cases h13 : hm = 13
  · rw [if_pos h13]
    cases f with
    | adarA =>
      by_cases hlen : monlen.getD 5 0 ≠ 0
      · exact ⟨5, by rw [if_pos hlen], by omega, Or.inl ⟨h13, Or.inl ⟨rfl, hlen⟩⟩⟩
      · exact ⟨6, by rw [if_neg hlen], by omega, Or.inl ⟨h13, Or.inr rfl⟩⟩
    | adarB => exact ⟨6, rfl, by omega, Or.inl ⟨h13, Or.inr rfl⟩⟩
    | both => exact absurd rfl hf
  · rw [if_neg h13]
    exact ⟨hm, rfl, by omega, Or.inr ⟨h13, rfl⟩⟩

/-- `GetValidHebDate` gives a day of the year, or the month is too short in it and there is no rule
for that. -/
theorem getValidHebDate_spec (hok : HebDate hm hd) (hf : f ≠ .both) :
    (∃ m d, getValidHebDate y hm hd f jahr = .day m d ∧ m ≤ 12 ∧ 1 ≤ d ∧
        d ≤ (daysInHebMonths (daysInHebYear y)).getD m 0) ∨
      ∃ r, getValidHebDate y hm hd f jahr = .missing r ∧ jahr = .none ∧
        (hm = 1 ∨ hm = 2 ∨ hm = 5) ∧ (daysInHebMonths (daysInHebYear y)).getD hm 0 < hd := by
  obtain ⟨hm13, hlo, hhi⟩ := hok
  obtain ⟨hheshvan, hkislev, hadarA⟩ := monlen_or (daysInHebYear y)
  have hfixed := fun m => @monlen_eq (daysInHebYear y) m
  have h3 := hfixed 3 (by omega) (by omega) (by omega) (by omega)
  have h4 := hfixed 4 (by omega) (by omega) (by omega) (by omega)
  have h6 := hfixed 6 (by omega) (by omega) (by omega) (by omega)
  have h7 := hfixed 7 (by omega) (by omega) (by omega) (by omega)
  simp only [maxMonLen, List.getD_cons_succ, List.getD_cons_zero] at h3 h4 h6 h7
  unfold getValidHebDate
  rw [if_neg (by omega)]
  dsimp only
  generalize daysInHebMonths (daysInHebYear y) = monlen at hheshvan hkislev hadarA hfixed h3 h4 h6 h7
  obtain ⟨m, hconv, hm12, hcase⟩ := convertAdar_spec monlen hm13 hf
  rw [hconv]
  dsimp only
  by_cases hlen : hd ≤ monlen.getD m 0
  · rw [if_pos hlen]
    exact Or.inl ⟨m, hd, rfl, hm12, hlo, hlen⟩
  rw [if_neg hlen]
  -- only the months that change their length can be too short
  have hshort : hm = m ∧ (m = 1 ∨ m = 2 ∨ m = 5) := by
    rcases hcase with ⟨rfl, hAdar⟩ | ⟨-, rfl⟩
    · have h13 : maxMonLen.getD 13 0 = 29 := rfl
      rcases hAdar with ⟨rfl, hne⟩ | rfl <;> omega
    · refine ⟨rfl, ?_⟩
      by_contra hne
      have := hfixed m hm12 (by omega) (by omega) (by omega)
      omega
  obtain ⟨rfl, hshort⟩ := hshort
  cases jahr with
  | none => exact Or.inr ⟨_, rfl, rfl, hshort, by omega⟩
  | forward =>
    refine Or.inl ?_
    dsimp only
    split_ifs
    · exact ⟨3, 1, rfl, by omega, by omega, by omega⟩
    · exact ⟨2, 1, rfl, by omega, by omega, by omega⟩
    · exact ⟨7, 1, rfl, by omega, by omega, by omega⟩
    · exact ⟨6, hd, rfl, by omega, by omega, by omega⟩
    · omega
  | backward =>
    refine Or.inl ?_
    dsimp only
    split_ifs
    · exact ⟨2, 29, rfl, by omega, by omega, by omega⟩
    · exact ⟨1, 29, rfl, by omega, by omega, by omega⟩
    · exact ⟨4, 30, rfl, by omega, by omega, by omega⟩
    · exact ⟨6, hd, rfl, by omega, by omega, by omega⟩
    · omega

/-- A month other than Adar does not ask for the rule. -/
theorem getValidHebDate_flag (h13 : hm ≠ 13) (f' : AdarRule) :
    getValidHebDate y hm hd f jahr = getValidHebDate y hm hd f' jahr := by
  unfold getValidHebDate convertAdar
  simp only [if_neg h13]

end Months

/-! ### The years in which a date occurs -/

section Recurs

variable {y hd : ℤ} {hm : ℕ} {jahr : JahrRule}

/-- In 19 years there is one of the greatest length. -/
theorem complete_recurs (hy : 3744 ≤ y) :
    ∃ i : ℕ, i < 19 ∧ (daysInHebYear (y + i) = 355 ∨ daysInHebYear (y + i) = 385) := by
  by_contra hnone
  push Not at hnone
  obtain ⟨z, hz, rfl⟩ : ∃ z : ℤ, 0 ≤ z ∧ y = z + 3744 := ⟨y - 3744, by omega, by omega⟩
  -- 19 years without one are too short
  have hsum : ∀ i : ℕ, i ≤ 19 → daysToHebYear (z + i) ≤ daysToHebYear z + 354 * i +
      30 * (((z + i) * 7 + 1) / 19 - (z * 7 + 1) / 19) := by
    intro i
    induction i with
    | zero => simp
    | succ i ih =>
      intro hi
      have ih := ih (by omega)
      obtain ⟨h355, h385⟩ := hnone i (by omega)
      have hlen : daysInHebYear (z + 3744 + i) =
          daysToHebYear (z + i + 1) - daysToHebYear (z + i) := by
        unfold daysInHebYear
        rw [show z + 3744 + i - 3743 = z + i + 1 by omega,
          show z + 3744 + i - 3744 = z + (i : ℤ) by omega]
      rw [hlen] at h355 h385
      have hsix := daysToHebYear_succ (y := z + i) (by omega)
      have hleap := daysToHebYear_leap (y := z + i) (by omega)
      rw [show z + ((i + 1 : ℕ) : ℤ) = z + i + 1 by omega]
      by_cases hl : 12 ≤ ((z + i) * 7 + 1) % 19
      · omega
      · have hnot := (not_congr hleap).mpr hl
        omega
  have h19 := hsum 19 (le_refl 19)
  rw [show z + ((19 : ℕ) : ℤ) = z + 19 by omega, daysToHebYear_eq hz,
    daysToHebYear_eq (by omega : 0 ≤ z + 19)] at h19
  have hdelay : ∀ l dw nm, 0 ≤ hebDelay l dw nm ∧ hebDelay l dw nm ≤ 2 := by
    intro l dw nm
    unfold hebDelay
    split_ifs <;> omega
  have h1 := hdelay ((z * 7 + 1) % 19) (hebMolad z / 25920 % 7) (hebMolad z % 25920)
  have h2 := hdelay (((z + 19) * 7 + 1) % 19) (hebMolad (z + 19) / 25920 % 7)
    (hebMolad (z + 19) % 25920)
  have hmolad : hebMolad (z + 19) = hebMolad z + 9323155 := by
    unfold hebMolad
    omega
  rw [hmolad] at h19 h2
  omega

/-- In three years there is a leap year. -/
theorem leap_recurs (hy : 3744 ≤ y) : ∃ i : ℕ, i < 3 ∧ 355 < daysInHebYear (y + i) := by
  obtain ⟨i, hi, hl⟩ : ∃ i : ℕ, i < 3 ∧ 12 ≤ ((y - 3744 + i) * 7 + 1) % 19 := by
    by_cases h0 : 12 ≤ ((y - 3744) * 7 + 1) % 19
    · exact ⟨0, by omega, by simpa using h0⟩
    · by_cases h1 : 12 ≤ ((y - 3744 + 1) * 7 + 1) % 19
      · exact ⟨1, by omega, by simpa using h1⟩
      · have h01 : ((y - 3744 + 1) * 7 + 1) % 19 = ((y - 3744) * 7 + 1) % 19 + 7 := by omega
        have h12 : ((y - 3744 + 2) * 7 + 1) % 19 = ((y - 3744 + 1) * 7 + 1) % 19 + 7 := by omega
        refine ⟨2, by omega, ?_⟩
        push_cast
        omega
  refine ⟨i, hi, ?_⟩
  have hlen : daysInHebYear (y + i) =
      daysToHebYear (y - 3744 + i + 1) - daysToHebYear (y - 3744 + i) := by
    unfold daysInHebYear
    rw [show y + i - 3743 = y - 3744 + i + 1 by omega, show y + i - 3744 = y - 3744 + (i : ℤ) by omega]
  rw [hlen]
  exact (daysToHebYear_leap (by omega)).mpr hl

/-- In 19 years there is one in which the date occurs. -/
theorem hebDate_recurs (hy : 3744 ≤ y) (hok : HebDate hm hd) :
    ∃ i : ℕ, i < 19 ∧ ∀ f, f ≠ .both → ∃ m d, getValidHebDate (y + i) hm hd f jahr = .day m d := by
  -- the month is long enough in one of the years
  have hlong : ∃ i : ℕ, i < 19 ∧ ¬ ((hm = 1 ∨ hm = 2 ∨ hm = 5) ∧
      (daysInHebMonths (daysInHebYear (y + i))).getD hm 0 < hd) := by
    by_cases h5 : hm = 5
    · obtain ⟨i, hi, hleap⟩ := leap_recurs hy
      refine ⟨i, by omega, fun ⟨_, hlt⟩ => ?_⟩
      subst h5
      have hhi : hd ≤ 30 := hok.hi
      unfold daysInHebMonths at hlt
      simp only [List.getD_cons_succ, List.getD_cons_zero, if_pos hleap] at hlt
      omega
    · obtain ⟨i, hi, hlen⟩ := complete_recurs hy
      refine ⟨i, hi, fun ⟨hm, hlt⟩ => ?_⟩
      have hhi : hd ≤ 30 := by
        rcases hm with rfl | rfl | rfl
        · exact hok.hi
        · exact hok.hi
        · exact hok.hi
      have hlens : (daysInHebMonths (daysInHebYear (y + i))).getD 1 0 = 30 ∧
          (daysInHebMonths (daysInHebYear (y + i))).getD 2 0 = 30 := by
        rcases hlen with hlen | hlen <;> rw [hlen] <;> decide
      rcases hm with rfl | rfl | rfl
      · omega
      · omega
      · exact h5 rfl
  obtain ⟨i, hi, hlong⟩ := hlong
  refine ⟨i, hi, fun f hf => ?_⟩
  rcases @getValidHebDate_spec (y + i) hd hm f jahr hok hf with
    ⟨m, d, hday, -⟩ | ⟨r, -, -, hm, hlt⟩
  · exact ⟨m, d, hday⟩
  · exact absurd ⟨hm, hlt⟩ hlong

end Recurs

/-! ### The loop -/

section Loop

variable {start y hd : ℤ} {hm : ℕ} {f : AdarRule} {jahr : JahrRule} {adarbehave : AdarRule}

theorem getValidHebDate_bounds (hok : HebDate hm hd) (hy : 3744 ≤ y) (hf : f ≠ .both) {m : ℕ}
    {d : ℤ} (h : getValidHebDate y hm hd f jahr = .day m d) :
    roshHashana y ≤ hebDayNo y m d ∧ hebDayNo y m d < roshHashana (y + 1) := by
  rcases @getValidHebDate_spec y hd hm f jahr hok hf with ⟨m', d', h', hm12, hd1, hlen⟩ | ⟨r, h', -⟩
  · rw [h] at h'
    cases h'
    exact hebDay_bounds hy hm12 hd1 hlen
  · rw [h] at h'
    cases h'

/-- The day in Adar A is not after that in Adar B. -/
theorem hebDayNo_adar (hok : HebDate hm hd) (hy : 3744 ≤ y) (h13 : hm = 13) {m m' : ℕ} {d d' : ℤ}
    (h : getValidHebDate y hm hd .adarA jahr = .day m d)
    (h' : getValidHebDate y hm hd .adarB jahr = .day m' d') : hebDayNo y m d ≤ hebDayNo y m' d' := by
  subst h13
  obtain ⟨-, hlo, hhi⟩ := hok
  have hhi : hd ≤ 29 := hhi
  have h6 : (daysInHebMonths (daysInHebYear y)).getD 6 0 = 29 :=
    monlen_eq _ (by omega) (by omega) (by omega) (by omega)
  have h5 := (monlen_or (daysInHebYear y)).2.2
  have hmono := @sum_take_mono _ (hebYearLength_year hy).nonneg 5 6 (by omega)
  unfold getValidHebDate at h h'
  rw [if_neg (by simp [maxMonLen]; omega)] at h h'
  unfold convertAdar at h h'
  simp only [if_true] at h h'
  rw [if_pos (by omega)] at h'
  cases h'
  split_ifs at h with hA hlen hlen <;> first | omega | (cases h; unfold hebDayNo; omega)

/-- The loop is at a slot: what it looks for has not come before. -/
structure AtSlot (start : ℤ) (hm : ℕ) (hd : ℤ) (jahr : JahrRule) (adarbehave : AdarRule)
    (s : ℤ × AdarRule) : Prop where
  year : 5750 ≤ s.1
  flag : s.2 ≠ .both
  rule : adarbehave = .both ∨ s.2 = adarbehave
  ahead : ∀ y f m d, 3744 ≤ y → f ≠ .both → (adarbehave = .both ∨ f = adarbehave) →
    getValidHebDate y hm hd f jahr = .day m d → start ≤ hebDayNo y m d →
    s.1 < y ∨ s.1 = y ∧ (adarbehave = .both → hm = 13 → s.2 = .adarB → f = .adarB)

theorem AdarRule.eq_or {f : AdarRule} (hf : f ≠ .both) : f = .adarA ∨ f = .adarB := by
  cases f with
  | adarA => exact Or.inl rfl
  | adarB => exact Or.inr rfl
  | both => exact absurd rfl hf

/-- An occurrence of the slot's year is that of the slot or the one in Adar B after it. -/
theorem AtSlot.same {s : ℤ × AdarRule} (h : AtSlot start hm hd jahr adarbehave s) (hf : f ≠ .both)
    (hrule : adarbehave = .both ∨ f = adarbehave)
    (hB : adarbehave = .both → hm = 13 → s.2 = .adarB → f = .adarB) :
    getValidHebDate y hm hd f jahr = getValidHebDate y hm hd s.2 jahr ∨
      adarbehave = .both ∧ hm = 13 ∧ s.2 = .adarA ∧ f = .adarB := by
  by_cases h13 : hm = 13
  · rcases hrule with hboth | rfl
    · rcases AdarRule.eq_or h.flag with hs | hs <;> rcases AdarRule.eq_or hf with hf' | hf'
      · exact Or.inl (by rw [hs, hf'])
      · exact Or.inr ⟨hboth, h13, hs, hf'⟩
      · rw [hB hboth h13 hs] at hf'
        cases hf'
      · exact Or.inl (by rw [hs, hf'])
    · rcases h.rule with hboth | hs
      · exact absurd hboth hf
      · exact Or.inl (by rw [hs])
  · exact Or.inl (getValidHebDate_flag h13 s.2)

/-- **A step of the loop**: where the date is not that of the slot, it is in a later one. -/
theorem AtSlot.next {s : ℤ × AdarRule} (h : AtSlot start hm hd jahr adarbehave s)
    (hno : ∀ m d, getValidHebDate s.1 hm hd s.2 jahr = .day m d → hebDayNo s.1 m d < start) :
    AtSlot start hm hd jahr adarbehave (nextSlot hm adarbehave s.1 s.2) := by
  have hlater : ∀ y f m d, 3744 ≤ y → f ≠ .both → (adarbehave = .both ∨ f = adarbehave) →
      getValidHebDate y hm hd f jahr = .day m d → start ≤ hebDayNo y m d →
      s.1 < y ∨ s.1 = y ∧ adarbehave = .both ∧ hm = 13 ∧ s.2 = .adarA ∧ f = .adarB := by
    intro y f m d hy hf hrule hday hge
    rcases h.ahead y f m d hy hf hrule hday hge with hlt | ⟨rfl, hB⟩
    · exact Or.inl hlt
    · rcases h.same (y := s.1) hf hrule hB with heq | hboth
      · have := hno m d (heq ▸ hday)
        omega
      · exact Or.inr ⟨rfl, hboth⟩
  have hyear := h.year
  unfold nextSlot
  split_ifs with hboth hA
  · exact ⟨h.year, by simp, Or.inl hboth.1, fun y f m d hy hf hrule hday hge =>
      (hlater y f m d hy hf hrule hday hge).imp_right fun hsame =>
        ⟨hsame.1, fun _ _ _ => hsame.2.2.2.2⟩⟩
  · refine ⟨by dsimp only; omega, by simp, Or.inl hboth.1, fun y f m d hy hf hrule hday hge => ?_⟩
    rcases hlater y f m d hy hf hrule hday hge with hlt | ⟨-, -, -, hs, -⟩
    · dsimp only
      rcases eq_or_lt_of_le (show s.1 + 1 ≤ y by omega) with heq | hlt'
      · exact Or.inr ⟨heq, nofun⟩
      · exact Or.inl hlt'
    · exact absurd hs hA
  · refine ⟨by dsimp only; omega, h.flag, h.rule, fun y f m d hy hf hrule hday hge => ?_⟩
    rcases hlater y f m d hy hf hrule hday hge with hlt | ⟨-, hb, h13, -⟩
    · dsimp only
      rcases eq_or_lt_of_le (show s.1 + 1 ≤ y by omega) with heq | hlt'
      · exact Or.inr ⟨heq, fun hb h13 => absurd ⟨hb, h13⟩ hboth⟩
      · exact Or.inl hlt'
    · exact absurd ⟨hb, h13⟩ hboth

/-- The occurrences from the start on. -/
def occurrences (start : ℤ) (hm : ℕ) (hd : ℤ) (jahr : JahrRule) (adarbehave : AdarRule) : Set ℤ :=
  {x | start ≤ x ∧ HebOccurs hm hd jahr adarbehave x}

/-- The date of the slot is the first one. -/
theorem AtSlot.found {s : ℤ × AdarRule} (h : AtSlot start hm hd jahr adarbehave s)
    (hok : HebDate hm hd) {m : ℕ} {d : ℤ}
    (hday : getValidHebDate s.1 hm hd s.2 jahr = .day m d) (hge : start ≤ hebDayNo s.1 m d) :
    IsLeast (occurrences start hm hd jahr adarbehave) (hebDayNo s.1 m d) := by
  have hy : 3744 ≤ s.1 := by have := h.year; omega
  refine ⟨⟨hge, s.1, s.2, m, d, hy, h.flag, h.rule, hday, rfl⟩, ?_⟩
  rintro x ⟨hx, y, f, m', d', hy', hf, hrule, hday', rfl⟩
  have hbounds := getValidHebDate_bounds hok hy h.flag hday
  have hbounds' := getValidHebDate_bounds hok hy' hf hday'
  rcases h.ahead y f m' d' hy' hf hrule hday' hx with hlt | ⟨rfl, hB⟩
  · have := roshHashana_mono (y := s.1 + 1) (z := y) (by omega) (by omega)
    omega
  · rcases h.same (y := s.1) hf hrule hB with heq | ⟨-, h13, hs, rfl⟩
    · rw [heq, hday] at hday'
      cases hday'
      exact le_refl _
    · rw [hs] at hday
      exact hebDayNo_adar hok hy h13 hday hday'

/-- There are occurrences from any day on. -/
theorem occurrences_within (hok : HebDate hm hd) (hy : 3744 ≤ y) (hstart : start ≤ roshHashana y) :
    ∃ x ∈ occurrences start hm hd jahr adarbehave, x < roshHashana (y + 19) := by
  obtain ⟨i, hi, hall⟩ := @hebDate_recurs y hd hm jahr hy hok
  obtain ⟨f, hf, hrule⟩ : ∃ f, f ≠ .both ∧ (adarbehave = .both ∨ f = adarbehave) := by
    cases adarbehave with
    | adarA => exact ⟨.adarA, by simp, by simp⟩
    | adarB => exact ⟨.adarB, by simp, by simp⟩
    | both => exact ⟨.adarA, by simp, by simp⟩
  obtain ⟨m, d, hday⟩ := hall f hf
  have hbounds := getValidHebDate_bounds hok (by omega) hf hday
  have h1 := roshHashana_mono (y := y) (z := y + i) (by omega) (by omega)
  have h2 := roshHashana_mono (y := y + i + 1) (z := y + 19) (by omega) (by omega)
  exact ⟨_, ⟨by omega, _, f, m, d, by omega, hf, hrule, hday, rfl⟩, by omega⟩

/-- Behind the years that `HebToDSE` takes, the first occurrence is behind the last day. -/
theorem AtSlot.beyond {s : ℤ × AdarRule} (h : AtSlot start hm hd jahr adarbehave s)
    (hok : HebDate hm hd) (hs : 9751 ≤ s.1) (hstart : start ≤ roshHashana (s.1 + 1)) :
    ∃ d, IsLeast (occurrences start hm hd jahr adarbehave) d ∧ lastHebDay < d := by
  obtain ⟨x, hx, -⟩ := @occurrences_within start (s.1 + 1) hd hm jahr adarbehave hok (by omega) hstart
  obtain ⟨d, hd, hleast⟩ := Int.exists_least_of_bdd
    (P := fun x => x ∈ occurrences start hm hd jahr adarbehave) ⟨start, fun z hz => hz.1⟩ ⟨x, hx⟩
  refine ⟨d, ⟨hd, fun z hz => hleast z hz⟩, ?_⟩
  obtain ⟨hge, y, f, m, d', hy, hf, hrule, hday, rfl⟩ := hd
  have hbounds := getValidHebDate_bounds hok hy hf hday
  have hyear : 9751 ≤ y := by
    rcases h.ahead y f m d' hy hf hrule hday hge with hlt | ⟨rfl, -⟩ <;> omega
  have := roshHashana_mono (y := 9751) (z := y) (by omega) hyear
  unfold lastHebDay
  omega

/-- The rounds that are left up to the year `T`. -/
def slotsLeft (T : ℤ) (s : ℤ × AdarRule) : ℕ := (2 * (T - s.1)).toNat + if s.2 = .adarA then 1 else 0

theorem slotsLeft_next {T : ℤ} {s : ℤ × AdarRule} (hs : s.1 < T) :
    slotsLeft T (nextSlot hm adarbehave s.1 s.2) < slotsLeft T s ∧
      (nextSlot hm adarbehave s.1 s.2).1 ≤ T := by
  unfold nextSlot slotsLeft
  split_ifs <;> simp_all <;> omega

/-- What GetNextHebrewDate is to return: the first occurrence from the start on, or `E_DATE_OVER`
where that lies behind the last day there is. -/
def NextHebDate (start : ℤ) (hm : ℕ) (hd : ℤ) (jahr : JahrRule) (adarbehave : AdarRule)
    (res : Option (Except ErrCode ℤ)) : Prop :=
  (∃ d, res = some (.ok d) ∧ IsLeast (occurrences start hm hd jahr adarbehave) d) ∨
    (res = some (.error .dateOver) ∧
      ∃ d, IsLeast (occurrences start hm hd jahr adarbehave) d ∧ lastHebDay < d)

theorem hebYearOK_iff : hebYearOK y = true ↔ 5751 ≤ y ∧ y ≤ 9750 := by
  unfold hebYearOK
  rw [show baseYr = 1990 from rfl, show yrRange = 4000 from rfl]
  simp only [Bool.not_eq_true', decide_eq_false_iff_not]
  omega

/-- **The loop** ends with the first occurrence, where that does not lie in the year before the
first one that `HebToDSE` takes. -/
theorem nextHebLoop_spec {T : ℤ} (hok : HebDate hm hd) (hT : start ≤ roshHashana T)
    (hvalid : ∀ f, f ≠ .both → ∃ m d, getValidHebDate T hm hd f jahr = .day m d) :
    ∀ (k : ℕ) (s : ℤ × AdarRule), AtSlot start hm hd jahr adarbehave s → s.1 ≤ T →
      slotsLeft T s < k → start ≤ roshHashana (s.1 + 1) →
      (s.1 = 5750 → ∀ m d, getValidHebDate s.1 hm hd s.2 jahr ≠ .day m d) →
      NextHebDate start hm hd jahr adarbehave
        (nextHebLoop start hm hd jahr adarbehave k s) := by
  intro k
  induction k with
  | zero => exact fun _ _ _ hk => absurd hk (Nat.not_lt_zero _)
  | succ k ih =>
    rintro ⟨y, f⟩ hat hle hk hstart hfirst
    have hyear : 5750 ≤ y := hat.year
    -- another round, from the year before `T`
    have hagain : y < T → (∀ m d, getValidHebDate y hm hd f jahr = .day m d → hebDayNo y m d < start) →
        NextHebDate start hm hd jahr adarbehave
          (nextHebLoop start hm hd jahr adarbehave k (nextSlot hm adarbehave y f)) := by
      intro hlt hno
      obtain ⟨hleft, hnext⟩ : slotsLeft T (nextSlot hm adarbehave y f) < slotsLeft T (y, f) ∧
          (nextSlot hm adarbehave y f).1 ≤ T := @slotsLeft_next hm adarbehave T (y, f) hlt
      have hmono : roshHashana (y + 1) ≤ roshHashana ((nextSlot hm adarbehave y f).1 + 1) ∧
          ((nextSlot hm adarbehave y f).1 = y ∧ adarbehave = .both ∧ hm = 13 ∨
            (nextSlot hm adarbehave y f).1 = y + 1) := by
        unfold nextSlot
        split_ifs with hboth
        · exact ⟨le_refl _, Or.inl ⟨rfl, hboth⟩⟩
        · exact ⟨roshHashana_mono (by omega) (by dsimp only; omega), Or.inr rfl⟩
        · exact ⟨roshHashana_mono (by omega) (by dsimp only; omega), Or.inr rfl⟩
      refine ih _ (hat.next hno) hnext (by omega) (hstart.trans hmono.1) fun h5750 => ?_
      rcases hmono.2 with ⟨hsame, -, h13⟩ | hsucc
      · -- a date of Adar occurs in every year
        have hy : y = 5750 := hsame.symm.trans h5750
        rcases @getValidHebDate_spec y hd hm f jahr hok hat.flag with ⟨m, d, hday, -⟩ | ⟨r, -, -, hm, -⟩
        · exact absurd hday (hfirst hy m d)
        · omega
      · omega
    rcases @getValidHebDate_spec y hd hm f jahr hok hat.flag with ⟨m, d, hday, -⟩ | ⟨r, hmiss, -⟩
    · have hbounds := getValidHebDate_bounds hok (by omega) hat.flag hday
      have h5751 : 5751 ≤ y := by
        by_contra hlt
        exact hfirst (show y = 5750 by omega) m d hday
      have hpos : 0 < roshHashana 5751 := by decide
      have hrosh := roshHashana_mono (y := 5751) (z := y) (by omega) h5751
      rw [nextHebLoop, hday]
      dsimp only
      by_cases hin : hebYearOK y = true
      · have hdse : hebToDSE y m d = hebDayNo y m d := by
          rw [hebToDSE, if_pos hin]
          rfl
        rw [hdse, if_neg (by omega)]
        by_cases hge : hebDayNo y m d ≥ start
        · rw [if_pos hge]
          exact Or.inl ⟨_, rfl, hat.found hok hday hge⟩
        · rw [if_neg hge]
          refine hagain ?_ fun m' d' hday' => ?_
          · by_contra hlast
            have hT' : y = T := by have : y ≤ T := hle; omega
            rw [hT'] at hbounds hge
            omega
          · rw [hday] at hday'
            cases hday'
            omega
      · have hdse : hebToDSE y m d = -1 := by rw [hebToDSE, if_neg hin]
        rw [hebYearOK_iff] at hin
        rw [hdse, if_pos (by omega)]
        exact Or.inr ⟨rfl, hat.beyond hok (by dsimp only; omega) hstart⟩
    · rw [nextHebLoop, hmiss]
      dsimp only
      refine hagain ?_ fun m d hday => ?_
      · by_contra hlast
        obtain ⟨m, d, hday⟩ := hvalid f hat.flag
        have hT' : y = T := by have : y ≤ T := hle; omega
        rw [← hT', hmiss] at hday
        cases hday
      · rw [hmiss] at hday
        cases hday

end Loop

/-! ### GetNextHebrewDate -/

section Function

variable {start hd : ℤ} {hm n : ℕ} {jahr : JahrRule} {adarbehave : AdarRule}

/-- The year of the start, where the loop begins. -/
theorem dseToHeb_year (hstart : 0 ≤ start) (hn : (fromDSE start).y < n) :
    ∃ s, dseToHeb n start = some s ∧ 5750 ≤ s.1 ∧ roshHashana s.1 ≤ start ∧
      start < roshHashana (s.1 + 1) := by
  obtain ⟨y, m, d, hres, hlo, hm12, hd1, hlen, hday⟩ := dseToHeb_spec hstart hn
  have hbounds := hebDay_bounds (by omega) hm12 hd1 hlen
  exact ⟨_, hres, hlo, by dsimp only; omega, by dsimp only; omega⟩

theorem atSlot_start (hok : HebDate hm hd) {y : ℤ} (hy : 5750 ≤ y) (hle : roshHashana y ≤ start) :
    AtSlot start hm hd jahr adarbehave
      (y, if adarbehave = .both then .adarA else adarbehave) := by
  refine ⟨hy, ?_, ?_, fun y' f m d hy' hf hrule hday hge => ?_⟩
  · dsimp only
    split_ifs with h
    · simp
    · exact h
  · dsimp only
    split_ifs with h
    · exact Or.inl h
    · exact Or.inr rfl
  · have hbounds := getValidHebDate_bounds hok hy' hf hday
    dsimp only
    rcases lt_trichotomy y y' with hlt | heq | hlt
    · exact Or.inl hlt
    · refine Or.inr ⟨heq, fun hboth _ hB => ?_⟩
      rw [if_pos hboth] at hB
      cases hB
    · have := roshHashana_mono (y := y' + 1) (z := y) (by omega) (by omega)
      omega

/-- In the year 5750 every date occurs but one of Adar A. -/
theorem getValidHebDate_5750 (hok : HebDate hm hd) {f : AdarRule} (hf : f ≠ .both) :
    (∃ m d, getValidHebDate 5750 hm hd f jahr = .day m d) ↔ ¬ (hm = 5 ∧ jahr = .none) := by
  have hlens : daysInHebMonths (daysInHebYear 5750) =
      [30, 30, 30, 29, 30, 0, 29, 30, 29, 30, 29, 30, 29, 29] := by decide
  have hhi := hok.hi
  have hlo := hok.lo
  rcases @getValidHebDate_spec 5750 hd hm f jahr hok hf with
    ⟨m, d, hday, -⟩ | ⟨r, hmiss, hnone, hm, hlt⟩
  · refine iff_of_true ⟨m, d, hday⟩ ?_
    rintro ⟨rfl, rfl⟩
    have hmax : maxMonLen.getD 5 0 = 30 := rfl
    have h5 : ([30, 30, 30, 29, 30, 0, 29, 30, 29, 30, 29, 30, 29, 29] : List ℤ).getD 5 0 = 0 := rfl
    have hconv (l : List ℤ) : convertAdar l 5 f = some 5 := rfl
    rw [getValidHebDate, hlens, if_neg (by omega)] at hday
    dsimp only at hday
    rw [hconv] at hday
    dsimp only at hday
    rw [h5, if_neg (by omega)] at hday
    cases hday
  · refine iff_of_false (fun ⟨m, d, hday⟩ => by rw [hmiss] at hday; cases hday) (not_not.mpr ?_)
    rw [hlens] at hlt
    rcases hm with rfl | rfl | rfl
    · have hhi : hd ≤ 30 := hhi
      simp only [List.getD_cons_succ, List.getD_cons_zero] at hlt
      omega
    · have hhi : hd ≤ 30 := hhi
      simp only [List.getD_cons_succ, List.getD_cons_zero] at hlt
      omega
    · exact ⟨rfl, hnone⟩

end Function

end Remind
