import Remind.Arith

/-!
# ArithExact — where the arithmetic of expressions is exact

On the values that evaluation produces, every operator ends with an error or with the exact result
and no overflow on the way, but for three places: a TIME minus an INT, a DATE made a DATETIME, and
far-future DATEs and endless strings on the way to a text.
-/

namespace Remind

open Lib (Traced intMax intMin InInt wrap)
open Lib.Traced (cint)

/-! ### The exact operators -/

/-- The text of a value. -/
def exactText (c : TextConfig) : Value → String
  | .str s => s
  | .int n => toString n
  | .time n => timeText c n
  | .date n => dateText c (fromDSE n)
  | .datetime n =>
    dateText c (fromDSE (n.tdiv minutesPerDay)) ++ c.dateTimeSep.toString ++
      timeText c (n.tmod minutesPerDay)

/-- `+` on exact integers. -/
def exactAdd (c : TextConfig) (v1 v2 : Value) : Option Value :=
  match v1, v2 with
  | .int a, .int b => some (.int (a + b))
  | .date a, .int b => some (.date (a + b))
  | .int a, .date b => some (.date (a + b))
  | .datetime a, .int b => some (.datetime (a + b))
  | .datetime a, .time b => some (.datetime (a + b))
  | .int a, .datetime b => some (.datetime (a + b))
  | .time a, .datetime b => some (.datetime (a + b))
  | .time a, .int b => some (.time ((a + b) % minutesPerDay))
  | .int a, .time b => some (.time ((a + b) % minutesPerDay))
  | .time a, .time b => some (.time ((a + b) % minutesPerDay))
  | .str a, v2 => some (.str (a ++ exactText c v2))
  | v1, .str b => some (.str (exactText c v1 ++ b))
  | _, _ => none

/-- Binary `-` on exact integers. -/
def exactSub (v1 v2 : Value) : Option Value :=
  match v1, v2 with
  | .int a, .int b => some (.int (a - b))
  | .date a, .int b => some (.date (a - b))
  | .datetime a, .int b => some (.datetime (a - b))
  | .datetime a, .time b => some (.datetime (a - b))
  | .time a, .int b => some (.time ((a - b) % minutesPerDay))
  | .time a, .time b => some (.int (a - b))
  | .datetime a, .datetime b => some (.int (a - b))
  | .date a, .date b => some (.int (a - b))
  | _, _ => none

/-- `*` on exact integers; a string is repeated. -/
def exactMul (v1 v2 : Value) : Option Value :=
  match v1, v2 with
  | .int a, .int b => some (.int (a * b))
  | .int a, .str s => some (.str (String.join (List.replicate a.toNat s)))
  | .str s, .int b => some (.str (String.join (List.replicate b.toNat s)))
  | _, _ => none

/-- `/` and `%` on exact integers: division that truncates. -/
def exactDivMod (isDiv : Bool) (v1 v2 : Value) : Option Value :=
  match v1, v2 with
  | .int a, .int b => some (.int (if isDiv then a.tdiv b else a.tmod b))
  | _, _ => none

/-- Unary `-` on exact integers. -/
def exactNeg : Value → Option Value
  | .int a => some (.int (-a))
  | _ => none

/-- What results are: DATEs and DATETIMEs are not negative, TIMEs are times of the day. -/
def Value.Canonical : Value → Prop
  | .date n => 0 ≤ n
  | .datetime n => 0 ≤ n
  | .time n => 0 ≤ n ∧ n < minutesPerDay
  | .int _ => True
  | .str _ => True

/-- A computation ends with an error, or it has the exact result and no operation overflows. -/
def ExactOrError (x : Traced (Except ErrCode Value)) (exact : Option Value) : Prop :=
  ∀ v, x.val = .ok v → exact = some v ∧ v.Canonical ∧ x.Safe

/-- The values that evaluation produces: `int`s, the TIMEs of a day, and DATEs that may be negative
only as the date of a negative DATETIME. -/
def Value.Produced : Value → Prop
  | .int n => InInt n
  | .time n => 0 ≤ n ∧ n < minutesPerDay
  | .date n => intMin.tdiv minutesPerDay ≤ n ∧ n ≤ intMax
  | .datetime n => InInt n
  | .str _ => True

theorem exactOrError_error {r : ErrCode} {exact : Option Value} :
    ExactOrError (pure (.error r)) exact := by
  intro v h
  cases h

theorem not_inInt_iff {n : ℤ} : ¬ InInt n ↔ n < intMin ∨ n > intMax := by
  unfold InInt
  omega

/-! ### `FromDSE` -/

theorem daysInYear_bounds (y : ℤ) : 365 ≤ daysInYear y ∧ daysInYear y ≤ 366 := by
  rcases isLeapYear_eq_or y with h | h <;> rw [daysInYear_eq, h] <;> omega

theorem daysInMonth_nonneg (m y : ℤ) : 0 ≤ daysInMonth m y := by
  unfold daysInMonth
  split_ifs
  · unfold monthDays
    by_cases hm : m.toNat < 12
    · interval_cases m.toNat <;> decide
    · rw [List.getD_eq_getElem?_getD, List.getElem?_eq_none (by simp; omega), Option.getD_none]
  · rcases isLeapYear_eq_or y with h | h <;> rw [h] <;> omega

/-- The loop over years stays between the day sought and its first guess. -/
theorem yearLoopInts_bounds {n y t c : ℤ} {k : ℕ} (hc : t - 365 * y ≤ c) :
    ∀ m ∈ yearLoopInts n k y t, (n - 366 ≤ m ∧ m ≤ t) ∨ (n - 366 - c ≤ 365 * m ∧ m ≤ y) := by
  induction k generalizing y t with
  | zero => simp [yearLoopInts]
  | succ k ih =>
    intro m hm
    obtain ⟨hlo, hhi⟩ := daysInYear_bounds (y - 1)
    unfold yearLoopInts at hm
    split_ifs at hm with hgt
    · rcases List.mem_cons.mp hm with rfl | hm
      · exact Or.inr ⟨by omega, by omega⟩
      rcases List.mem_cons.mp hm with rfl | hm
      · exact Or.inl ⟨by omega, by omega⟩
      · rcases ih (by omega) m hm with ⟨h1, h2⟩ | ⟨h1, h2⟩
        · exact Or.inl ⟨h1, by omega⟩
        · exact Or.inr ⟨h1, by omega⟩
    · cases hm

theorem monthLoopInts_bounds {y mon rest : ℤ} {k : ℕ} :
    ∀ m ∈ monthLoopInts y k mon rest, (0 ≤ m ∧ m ≤ rest) ∨ (mon ≤ m ∧ m ≤ mon + k) := by
  induction k generalizing mon rest with
  | zero => simp [monthLoopInts]
  | succ k ih =>
    intro m hm
    have hdays := daysInMonth_nonneg mon y
    unfold monthLoopInts at hm
    split_ifs at hm with hge
    · rcases List.mem_cons.mp hm with rfl | hm
      · exact Or.inl ⟨by omega, by omega⟩
      rcases List.mem_cons.mp hm with rfl | hm
      · exact Or.inr ⟨by omega, by push_cast; omega⟩
      · rcases ih m hm with ⟨h1, h2⟩ | ⟨h1, h2⟩
        · exact Or.inl ⟨h1, by omega⟩
        · exact Or.inr ⟨by omega, by push_cast; omega⟩
    · cases hm

/-- Where the loop over years ends. -/
theorem yearLoop_end (n y t : ℤ) :
    (yearLoop n y t).2 ≤ n ∧ ((yearLoop n y t).2 = t ∨ n - 366 ≤ (yearLoop n y t).2) := by
  have hstep : ∀ s : ℤ × ℤ, (s.2 = t ∨ n - 366 ≤ s.2) → decide (s.2 > n) = true →
      (s.2 - daysInYear (s.1 - 1) = t ∨ n - 366 ≤ s.2 - daysInYear (s.1 - 1)) ∧
        (s.2 - daysInYear (s.1 - 1) - n).toNat < (s.2 - n).toNat := by
    intro s _ hc
    obtain ⟨hlo, hhi⟩ := daysInYear_bounds (s.1 - 1)
    simp only [gt_iff_lt, decide_eq_true_eq] at hc
    exact ⟨Or.inr (by omega), by omega⟩
  obtain ⟨r, hr, hI, hc⟩ := Lib.whileFuel_total (c := fun s : ℤ × ℤ => decide (s.2 > n))
    (f := fun s => (s.1 - 1, s.2 - daysInYear (s.1 - 1))) (fun s => s.2 = t ∨ n - 366 ≤ s.2)
    (fun s => (s.2 - n).toNat) hstep (n := (t - n).toNat + 1) (s := (y, t)) (Or.inl rfl) (by simp)
  unfold yearLoop
  rw [hr]
  simp only [gt_iff_lt, decide_eq_false_iff_not, not_lt] at hc
  exact ⟨hc, hI⟩

theorem monthLoop_bounds (y : ℤ) {rest : ℤ} (hr : 0 ≤ rest) :
    0 ≤ (monthLoop y rest).1 ∧ (monthLoop y rest).1 ≤ 13 ∧ 0 ≤ (monthLoop y rest).2 ∧
      (monthLoop y rest).2 ≤ rest := by
  have hrun : ∀ (k : ℕ) (s r : ℤ × ℤ), 0 ≤ s.2 →
      Lib.whileFuel (fun s : ℤ × ℤ => decide (s.2 ≥ daysInMonth s.1 y))
        (fun s => (s.1 + 1, s.2 - daysInMonth s.1 y)) k s = some r →
      s.1 ≤ r.1 ∧ r.1 ≤ s.1 + k ∧ 0 ≤ r.2 ∧ r.2 ≤ s.2 := by
    intro k
    induction k with
    | zero => intro s r _ h; cases h
    | succ k ih =>
      intro s r hs h
      have hdays := daysInMonth_nonneg s.1 y
      unfold Lib.whileFuel at h
      split_ifs at h with hc
      · simp only [ge_iff_le, decide_eq_true_eq] at hc
        obtain ⟨h1, h2, h3, h4⟩ := ih _ r (by simp only; omega) h
        simp only at h1 h2 h4
        exact ⟨by omega, by push_cast; omega, h3, by omega⟩
      · cases h
        exact ⟨le_rfl, by omega, hs, le_rfl⟩
  unfold monthLoop
  rcases h : Lib.whileFuel (fun s : ℤ × ℤ => decide (s.2 ≥ daysInMonth s.1 y))
    (fun s => (s.1 + 1, s.2 - daysInMonth s.1 y)) 13 (0, rest) with _ | r
  · simp only [Option.getD_none]
    omega
  · obtain ⟨h1, h2, h3, h4⟩ := hrun 13 (0, rest) r hr h
    simp only [Option.getD_some]
    simp only at h1 h2 h4
    omega

/-- Division that truncates, between its bounds. -/
theorem tdiv_bounds (n : ℤ) {d : ℤ} (hd : 0 < d) :
    n - d < d * n.tdiv d ∧ d * n.tdiv d < n + d ∧ (0 ≤ n → 0 ≤ n.tdiv d ∧ d * n.tdiv d ≤ n) ∧
      (n ≤ 0 → n ≤ d * n.tdiv d) := by
  have h := Int.mul_tdiv_add_tmod n d
  have h1 := Int.tmod_lt_of_pos n hd
  have h2 := Int.lt_tmod_of_pos n hd
  refine ⟨by omega, by omega, fun hn => ⟨Int.tdiv_nonneg hn hd.le, ?_⟩, fun hn => ?_⟩
  · have := Int.tmod_nonneg d hn
    omega
  · have := Int.tmod_nonneg d (show 0 ≤ -n by omega)
    rw [Int.neg_tmod] at this
    omega

/-- The last DATE whose year `FromDSE` computes without overflow. -/
def lastTextDate : ℤ := 2146013849

/-- `FromDSE` computes in the range of `int` as long as 1 January of its first guess does, the year
1990 + n / 365. -/
theorem fromDSETraced_safe_iff {n : ℤ} (h1 : intMin.tdiv minutesPerDay ≤ n) (h2 : n ≤ intMax) :
    (fromDSETraced n).Safe ↔ n ≤ lastTextDate := by
  have hlo : -1491308 ≤ n := h1
  have hhi : n ≤ 2147483647 := h2
  obtain ⟨hk1, hk2, hk3, -⟩ := tdiv_bounds n (show (0 : ℤ) < 365 by omega)
  have hy4 := tdiv_bounds (n.tdiv 365 + 1990 - 1) (show (0 : ℤ) < 4 by omega)
  have hy100 := tdiv_bounds (n.tdiv 365 + 1990 - 1) (show (0 : ℤ) < 100 by omega)
  have hy400 := tdiv_bounds (n.tdiv 365 + 1990 - 1) (show (0 : ℤ) < 400 by omega)
  have hbase : baseYr = 1990 := rfl
  have hlast : lastTextDate = 2146013849 := rfl
  constructor
  · intro h
    have hsum := h (365 * (n.tdiv 365 + baseYr - baseYr) +
      ((n.tdiv 365 + baseYr - 1).tdiv 4 - (baseYr - 1).tdiv 4)) (by simp [fromDSETraced])
    rw [Lib.inInt_iff, hbase, show (1990 - 1 : ℤ).tdiv 4 = 497 from rfl] at hsum
    rw [hlast]
    omega
  · intro h
    have hstart : yearStart (n.tdiv 365 + baseYr) = 365 * n.tdiv 365 +
        ((n.tdiv 365 + 1990 - 1).tdiv 4 - 497) - ((n.tdiv 365 + 1990 - 1).tdiv 100 - 19) +
          ((n.tdiv 365 + 1990 - 1).tdiv 400 - 4) := by
      unfold yearStart baseYr
      simp only [show (1990 - 1 : ℤ).tdiv 4 = 497 from rfl,
        show (1990 - 1 : ℤ).tdiv 100 = 19 from rfl, show (1990 - 1 : ℤ).tdiv 400 = 4 from rfl]
      omega
    have hyears := @yearLoopInts_bounds n (n.tdiv 365 + baseYr) (yearStart (n.tdiv 365 + baseYr))
      2000000 ((yearStart (n.tdiv 365 + baseYr) - n).toNat + 1) (by omega)
    obtain ⟨hend, hend'⟩ := yearLoop_end n (n.tdiv 365 + baseYr) (yearStart (n.tdiv 365 + baseYr))
    have hmonths := @monthLoopInts_bounds
      (yearLoop n (n.tdiv 365 + baseYr) (yearStart (n.tdiv 365 + baseYr))).1 0
      (n - (yearLoop n (n.tdiv 365 + baseYr) (yearStart (n.tdiv 365 + baseYr))).2) 13
    obtain ⟨hm1, hm2, hm3, hm4⟩ := @monthLoop_bounds
      (yearLoop n (n.tdiv 365 + baseYr) (yearStart (n.tdiv 365 + baseYr))).1
      (n - (yearLoop n (n.tdiv 365 + baseYr) (yearStart (n.tdiv 365 + baseYr))).2) (by omega)
    have hday : (fromDSE n).d = (monthLoop
        (yearLoop n (n.tdiv 365 + baseYr) (yearStart (n.tdiv 365 + baseYr))).1
        (n - (yearLoop n (n.tdiv 365 + baseYr) (yearStart (n.tdiv 365 + baseYr))).2)).2 + 1 := rfl
    have hmon : (fromDSE n).m = (monthLoop
        (yearLoop n (n.tdiv 365 + baseYr) (yearStart (n.tdiv 365 + baseYr))).1
        (n - (yearLoop n (n.tdiv 365 + baseYr) (yearStart (n.tdiv 365 + baseYr))).2)).1 := rfl
    intro m hm
    rw [Lib.inInt_iff]
    simp only [fromDSETraced, List.mem_append, List.mem_cons, List.not_mem_nil, or_false] at hm
    rcases hm with (((hm | hm) | hm) | hm) | hm
    · rw [hstart] at hm
      simp only [hbase, show (1990 - 1 : ℤ).tdiv 4 = 497 from rfl,
        show (1990 - 1 : ℤ).tdiv 100 = 19 from rfl,
        show (1990 - 1 : ℤ).tdiv 400 = 4 from rfl] at hm
      clear hyears hend hend' hmonths hm1 hm2 hm3 hm4 hday hmon hstart h1 h2
      rcases hm with h | h | h | h | h | h | h | h | h | h | h | h | h | h <;> omega
    · rcases hyears m hm with h | h <;> omega
    · omega
    · rcases hmonths m hm with h | h <;> omega
    · omega

/-! ### Texts -/

/-- The DATEs whose text is computed without overflow, and all other values. -/
def TextFits : Value → Prop
  | .date n => n ≤ lastTextDate
  | _ => True

theorem tmod_bounds (n : ℤ) {d : ℤ} (hd : 0 < d) :
    -d < n.tmod d ∧ n.tmod d < d ∧ (0 ≤ n → 0 ≤ n.tmod d) :=
  ⟨Int.lt_tmod_of_pos n hd, Int.tmod_lt_of_pos n hd, Int.tmod_nonneg d⟩

/-- What the texts of TIMEs and DATETIMEs take apart stays in the range of `int`. -/
theorem timeParts_inInt {n : ℤ} (h : InInt n) :
    InInt (n.tdiv minutesPerDay) ∧ InInt (n.tmod minutesPerDay) ∧ InInt (n.tdiv 60) ∧
      InInt (n.tmod 60) := by
  obtain ⟨h1, h2, h3, -⟩ := tdiv_bounds n (show (0 : ℤ) < minutesPerDay by decide)
  obtain ⟨h4, h5, -⟩ := tmod_bounds n (show (0 : ℤ) < minutesPerDay by decide)
  obtain ⟨h6, h7, h8, -⟩ := tdiv_bounds n (show (0 : ℤ) < 60 by decide)
  obtain ⟨h9, h10, -⟩ := tmod_bounds n (show (0 : ℤ) < 60 by decide)
  simp only [Lib.inInt_iff, show minutesPerDay = 1440 from rfl] at *
  omega

theorem coerceString_val (c : TextConfig) {v : Value} (hv : v.Produced) :
    (coerceString c v).val = exactText c v := by
  cases v with
  | int n => rfl
  | str s => rfl
  | date n => rfl
  | time n =>
    obtain ⟨-, -, hdiv, hmod⟩ := timeParts_inInt (n := n) (by
      have h1 : 0 ≤ n := hv.1
      have h2 : n < 1440 := hv.2
      rw [Lib.inInt_iff]
      omega)
    simp only [coerceString, Lib.Traced.val_bind, Lib.Traced.val_cint, Lib.Traced.val_pure,
      Lib.wrap_of_inInt hdiv, Lib.wrap_of_inInt hmod]
    rfl
  | datetime n =>
    obtain ⟨hday, hrest, -, -⟩ := timeParts_inInt hv
    obtain ⟨-, -, hdiv, hmod⟩ := timeParts_inInt hrest
    simp only [coerceString, Lib.Traced.val_bind, Lib.Traced.val_cint, Lib.Traced.val_pure,
      Lib.wrap_of_inInt hday, Lib.wrap_of_inInt hrest, Lib.wrap_of_inInt hdiv,
      Lib.wrap_of_inInt hmod]
    simp only [exactText, timeText, String.append_assoc]
    rfl

theorem coerceString_safe_iff (c : TextConfig) {v : Value} (hv : v.Produced) :
    (coerceString c v).Safe ↔ TextFits v := by
  cases v with
  | int n => simp [coerceString, TextFits]
  | str s => simp [coerceString, TextFits]
  | date n =>
    simp only [coerceString, Lib.Traced.safe_bind, Lib.Traced.safe_pure, and_true]
    exact fromDSETraced_safe_iff hv.1 hv.2
  | time n =>
    obtain ⟨-, -, hdiv, hmod⟩ := timeParts_inInt (n := n) (by
      have h1 : 0 ≤ n := hv.1
      have h2 : n < 1440 := hv.2
      rw [Lib.inInt_iff]
      omega)
    simp [coerceString, TextFits, hdiv, hmod]
  | datetime n =>
    obtain ⟨hday, hrest, -, -⟩ := timeParts_inInt hv
    obtain ⟨-, -, hdiv, hmod⟩ := timeParts_inInt hrest
    have hdse : (fromDSETraced (n.tdiv minutesPerDay)).Safe := by
      obtain ⟨h1, h2, -, h5⟩ := tdiv_bounds n (show (0 : ℤ) < minutesPerDay by decide)
      have h3 : -2147483648 ≤ n := hv.1
      have h4 : n ≤ 2147483647 := hv.2
      have hmin : minutesPerDay = 1440 := rfl
      have hlo : intMin.tdiv minutesPerDay = -1491308 := rfl
      have hlast : lastTextDate = 2146013849 := rfl
      rw [hmin] at h1 h2 h5 hlo ⊢
      refine (fromDSETraced_safe_iff ?_ ?_).mpr ?_
      · rw [hmin, hlo]
        omega
      · show n.tdiv 1440 ≤ 2147483647
        omega
      · rw [hlast]
        omega
    simp [coerceString, TextFits, Lib.wrap_of_inInt hday, Lib.wrap_of_inInt hrest, hday, hrest, hdiv,
      hmod, hdse]

/-! ### The operators -/

section Operators

variable {c : TextConfig} {v1 v2 v : Value} {a b n : ℤ}

/-- One operation that is tested for overflow. -/
theorem exactOrError_cint {mk : ℤ → Value} (h : InInt n) (hmk : (mk n).Canonical) :
    ExactOrError (do let k ← cint n; pure (.ok (mk k))) (some (mk n)) := by
  intro v hv
  simp only [Lib.Traced.val_bind, Lib.Traced.val_cint, Lib.Traced.val_pure, Lib.wrap_of_inInt h]
    at hv
  cases hv
  exact ⟨rfl, hmk, by simp [h]⟩

theorem addOverflow_iff : addOverflow a b = true ↔ ¬ InInt (a + b) := by
  simp only [addOverflow, decide_eq_true_eq, not_inInt_iff]

theorem subOverflow_iff : subOverflow a b = true ↔ ¬ InInt (a - b) := by
  simp only [subOverflow, decide_eq_true_eq, not_inInt_iff]

theorem mulOverflow_iff : mulOverflow a b = true ↔ ¬ InInt (a * b) := by
  simp only [mulOverflow, decide_eq_true_eq, not_inInt_iff]
  omega

theorem moveBy_exact {mk : ℤ → Value} {overflow : Bool} (ho : overflow = true ↔ ¬ InInt n)
    (hmk : ∀ k, 0 ≤ k → (mk k).Canonical) :
    ExactOrError (moveBy mk overflow n) (some (mk n)) := by
  unfold moveBy
  split_ifs with h
  · exact exactOrError_error
  · have hn : InInt n := by
      by_contra hn
      exact h (ho.mpr hn)
    intro v hv
    simp only [Lib.Traced.val_bind, Lib.Traced.val_cint, Lib.wrap_of_inInt hn] at hv
    split_ifs at hv with hneg
    cases hv
    refine ⟨rfl, hmk n (by omega), ?_⟩
    simp [Lib.wrap_of_inInt hn, hneg, hn]

/-- The remainder of C, moved up when it is negative, is the remainder from 0 to 1439. -/
theorem timeModDay_exact (h : InInt n) :
    ExactOrError (timeModDay n) (some (.time (n % minutesPerDay))) ∧ (timeModDay n).Safe ∧
      ∃ v, (timeModDay n).val = .ok v := by
  obtain ⟨-, hmod, -, -⟩ := timeParts_inInt h
  have hmin : minutesPerDay = 1440 := rfl
  have hdm := Int.mul_tdiv_add_tmod n minutesPerDay
  obtain ⟨h1, h2, -⟩ := tmod_bounds n (show (0 : ℤ) < minutesPerDay by decide)
  rw [hmin] at hdm h1 h2
  have hup : InInt (n.tmod minutesPerDay + minutesPerDay) := by
    rw [Lib.inInt_iff, hmin]
    omega
  have hval : (timeModDay n).val = .ok (.time (n % minutesPerDay)) := by
    unfold timeModDay
    simp only [Lib.Traced.val_bind, Lib.Traced.val_cint, Lib.wrap_of_inInt hmod]
    split_ifs with hneg
    · simp only [Lib.Traced.val_bind, Lib.Traced.val_cint, Lib.Traced.val_pure,
        Lib.wrap_of_inInt hup]
      rw [show n.tmod minutesPerDay + minutesPerDay = n % minutesPerDay by rw [hmin] at hneg ⊢; omega]
    · simp only [Lib.Traced.val_pure]
      rw [show n.tmod minutesPerDay = n % minutesPerDay by rw [hmin] at hneg ⊢; omega]
  have hsafe : (timeModDay n).Safe := by
    unfold timeModDay
    simp only [Lib.Traced.safe_bind, Lib.Traced.safe_cint, Lib.Traced.val_cint,
      Lib.wrap_of_inInt hmod]
    refine ⟨hmod, ?_⟩
    split_ifs
    · simp [hup]
    · simp
  refine ⟨fun v hv => ?_, hsafe, _, hval⟩
  rw [hval] at hv
  cases hv
  refine ⟨rfl, ⟨?_, ?_⟩, hsafe⟩
  · rw [hmin]
    omega
  · rw [hmin]
    omega

theorem addTimes_exact : ExactOrError (addTimes a b) (some (.time ((a + b) % minutesPerDay))) := by
  unfold addTimes
  split_ifs with h
  · exact exactOrError_error
  · rw [addOverflow_iff, not_not] at h
    obtain ⟨hexact, hsafe, -⟩ := timeModDay_exact h
    intro v hv
    simp only [Lib.Traced.val_bind, Lib.Traced.val_cint, Lib.wrap_of_inInt h] at hv
    obtain ⟨h1, h2, -⟩ := hexact v hv
    exact ⟨h1, h2, by simp [h, hsafe, Lib.wrap_of_inInt h]⟩

theorem concatText_cases (c : TextConfig) (s1 s2 : String) :
    concatText c s1 s2 = .error .stringTooLong ∨ concatText c s1 s2 = .ok (.str (s1 ++ s2)) := by
  unfold concatText
  split_ifs
  · exact Or.inl rfl
  · exact Or.inr rfl

/-- A concatenation is an error, or both texts are exact, or one of them overflowed. -/
theorem addStrings_exact_iff (h1 : v1.Produced) (h2 : v2.Produced) :
    ExactOrError (addStrings c v1 v2) (some (.str (exactText c v1 ++ exactText c v2))) ↔
      concatText c (exactText c v1) (exactText c v2) = .error .stringTooLong ∨
        TextFits v1 ∧ TextFits v2 := by
  have hval : (addStrings c v1 v2).val = concatText c (exactText c v1) (exactText c v2) := by
    simp only [addStrings, Lib.Traced.val_bind, Lib.Traced.val_pure, coerceString_val c h1,
      coerceString_val c h2]
  have hsafe : (addStrings c v1 v2).Safe ↔ TextFits v1 ∧ TextFits v2 := by
    simp only [addStrings, Lib.Traced.safe_bind, Lib.Traced.safe_pure, and_true,
      coerceString_safe_iff c h1, coerceString_safe_iff c h2]
  unfold ExactOrError
  rw [hval, hsafe]
  rcases concatText_cases c (exactText c v1) (exactText c v2) with h | h
  · rw [h]
    exact ⟨fun _ => Or.inl rfl, fun _ v hv => by cases hv⟩
  · rw [h]
    constructor
    · exact fun hx => Or.inr (hx _ rfl).2.2
    · rintro (hx | hx) v hv
      · cases hx
      · cases hv
        exact ⟨rfl, trivial, hx⟩

/-- Where `+` meets a string, the texts of both operands are to be computed without overflow,
unless their concatenation is too long anyway. -/
def AddFits (c : TextConfig) (v1 v2 : Value) : Prop :=
  (∃ s, v1 = .str s ∨ v2 = .str s) →
    concatText c (exactText c v1) (exactText c v2) = .error .stringTooLong ∨
      TextFits v1 ∧ TextFits v2

theorem addValues_exact_iff (h1 : v1.Produced) (h2 : v2.Produced) :
    ExactOrError (addValues c v1 v2) (exactAdd c v1 v2) ↔ AddFits c v1 v2 := by
  have hstr : (∃ s, v1 = .str s ∨ v2 = .str s) → addValues c v1 v2 = addStrings c v1 v2 ∧
      exactAdd c v1 v2 = some (.str (exactText c v1 ++ exactText c v2)) := by
    rintro ⟨s, rfl | rfl⟩
    · exact ⟨rfl, rfl⟩
    · cases v1 <;> exact ⟨rfl, rfl⟩
  by_cases hs : ∃ s, v1 = .str s ∨ v2 = .str s
  · obtain ⟨hadd, hexact⟩ := hstr hs
    rw [hadd, hexact, addStrings_exact_iff h1 h2]
    exact ⟨fun h _ => h, fun h => h hs⟩
  refine ⟨fun _ h => (hs h).elim, fun _ => ?_⟩
  have hdate : ∀ k, 0 ≤ k → (Value.date k).Canonical := fun _ h => h
  have hdatetime : ∀ k, 0 ≤ k → (Value.datetime k).Canonical := fun _ h => h
  cases v1 with
  | int a =>
    cases v2 with
    | int b =>
      simp only [addValues, exactAdd]
      split_ifs with ho
      · exact exactOrError_error
      · rw [addOverflow_iff, not_not] at ho
        exact exactOrError_cint ho trivial
    | date b => exact moveBy_exact addOverflow_iff hdate
    | datetime b => exact moveBy_exact addOverflow_iff hdatetime
    | time b => exact addTimes_exact
    | str s => exact (hs ⟨s, Or.inr rfl⟩).elim
  | date a =>
    cases v2 with
    | int b => exact moveBy_exact addOverflow_iff hdate
    | str s => exact (hs ⟨s, Or.inr rfl⟩).elim
    | _ => exact exactOrError_error
  | datetime a =>
    cases v2 with
    | int b => exact moveBy_exact addOverflow_iff hdatetime
    | time b => exact moveBy_exact addOverflow_iff hdatetime
    | str s => exact (hs ⟨s, Or.inr rfl⟩).elim
    | _ => exact exactOrError_error
  | time a =>
    cases v2 with
    | int b => exact addTimes_exact
    | time b => exact addTimes_exact
    | datetime b => exact moveBy_exact addOverflow_iff hdatetime
    | str s => exact (hs ⟨s, Or.inr rfl⟩).elim
    | date b => exact exactOrError_error
  | str s => exact (hs ⟨s, Or.inl rfl⟩).elim

theorem difference_exact {r : ErrCode} : ExactOrError (difference r a b) (some (.int (a - b))) := by
  unfold difference
  split_ifs with h
  · exact exactOrError_error
  · rw [subOverflow_iff, not_not] at h
    exact exactOrError_cint h trivial

/-- A TIME minus an INT is not tested for overflow. -/
def SubFits (v1 v2 : Value) : Prop := ∀ a b, v1 = .time a → v2 = .int b → InInt (a - b)

theorem subtractValues_exact_iff :
    ExactOrError (subtractValues v1 v2) (exactSub v1 v2) ↔ SubFits v1 v2 := by
  by_cases ht : ∃ a b, v1 = .time a ∧ v2 = .int b
  · obtain ⟨a, b, rfl, rfl⟩ := ht
    have hfits : SubFits (.time a) (.int b) ↔ InInt (a - b) :=
      ⟨fun h => h a b rfl rfl, fun h x y hx hy => by cases hx; cases hy; exact h⟩
    rw [hfits]
    constructor
    · intro h
      obtain ⟨-, -, v, hv⟩ := timeModDay_exact (Lib.wrap_inInt (a - b))
      obtain ⟨-, -, hsafe⟩ := h v hv
      rw [subtractValues, Lib.Traced.safe_bind, Lib.Traced.safe_cint] at hsafe
      exact hsafe.1
    · intro h
      obtain ⟨hexact, hsafe, -⟩ := timeModDay_exact h
      intro v hv
      rw [subtractValues] at hv ⊢
      simp only [Lib.Traced.val_bind, Lib.Traced.val_cint, Lib.wrap_of_inInt h] at hv
      obtain ⟨h1, h2, -⟩ := hexact v hv
      exact ⟨h1, h2, by simp [h, hsafe, Lib.wrap_of_inInt h]⟩
  refine ⟨fun _ a b ha hb => (ht ⟨a, b, ha, hb⟩).elim, fun _ => ?_⟩
  have hdate : ∀ k, 0 ≤ k → (Value.date k).Canonical := fun _ h => h
  have hdatetime : ∀ k, 0 ≤ k → (Value.datetime k).Canonical := fun _ h => h
  cases v1 with
  | int a =>
    cases v2 with
    | int b => exact difference_exact
    | _ => exact exactOrError_error
  | date a =>
    cases v2 with
    | int b => exact moveBy_exact subOverflow_iff hdate
    | date b => exact difference_exact
    | _ => exact exactOrError_error
  | datetime a =>
    cases v2 with
    | int b => exact moveBy_exact subOverflow_iff hdatetime
    | time b => exact moveBy_exact subOverflow_iff hdatetime
    | datetime b => exact difference_exact
    | _ => exact exactOrError_error
  | time a =>
    cases v2 with
    | int b => exact (ht ⟨a, b, rfl, rfl⟩).elim
    | time b => exact difference_exact
    | _ => exact exactOrError_error
  | str s => cases v2 <;> exact exactOrError_error

/-- The `int` length of a string that is repeated is its length, unless the string is repeated
no times, is empty, or is found too long anyway. -/
def RepeatFits (c : TextConfig) (rep : ℤ) (s : String) : Prop :=
  rep ≤ 0 ∨ s = "" ∨ (s.utf8ByteSize : ℤ) ≤ intMax ∨
    repeatTooLong c (wrap s.utf8ByteSize) rep = true

theorem join_replicate_empty (n : ℕ) : String.join (List.replicate n "") = "" := by
  induction n with
  | zero => rfl
  | succ n ih => rw [List.replicate_succ, String.join_cons, ih]; rfl

theorem toULong_of_nonneg (h0 : 0 ≤ n) (h : n < 18446744073709551616) : toULong n = n :=
  Int.emod_eq_of_lt h0 h

/-- A string that passes the tests, with a length that fits, fits when it is repeated. -/
theorem repeat_inInt {l rep : ℤ} (h0 : 0 ≤ l) (hl : l ≤ intMax) (hr : 0 < rep) (hrep : rep ≤ intMax)
    (h : repeatTooLong c l rep = false) : InInt (l * rep) ∧ InInt (l * rep + 1) := by
  have hmax : intMax = 2147483647 := rfl
  have hpos : 0 ≤ l * rep := Int.mul_nonneg h0 hr.le
  have hbig : l * rep ≤ 2147483647 * 2147483647 := by
    rw [hmax] at hl hrep
    exact Int.mul_le_mul hl hrep hr.le (by omega)
  rw [hmax] at hl hrep
  unfold repeatTooLong at h
  rw [toULong_of_nonneg h0 (by omega), toULong_of_nonneg hr.le (by omega),
    toULong_of_nonneg hpos (by omega), hmax] at h
  simp only [decide_eq_false_iff_not, not_or, not_lt] at h
  rw [Lib.inInt_iff, Lib.inInt_iff]
  omega

theorem repeatNew_long {l size rep : ℤ} {s : String} (h : repeatTooLong c l rep = true) :
    (repeatNew c rep s l size).val = .error .stringTooLong := by
  unfold repeatNew
  rw [if_pos h]
  rfl

theorem repeatNew_val {l size rep : ℤ} {s : String} (h : ¬ repeatTooLong c l rep = true) :
    (repeatNew c rep s l size).val = .ok (.str (String.join (List.replicate rep.toNat s))) := by
  unfold repeatNew
  rw [if_neg h]
  rfl

theorem repeatNew_safe {l size rep : ℤ} {s : String} (h : ¬ repeatTooLong c l rep = true) :
    (repeatNew c rep s l size).Safe ↔ InInt (size + 1) := by
  unfold repeatNew
  rw [if_neg h, Lib.Traced.safe_bind, Lib.Traced.safe_cint, Lib.Traced.safe_pure, and_true]

theorem repeatString_exact_iff {rep : ℤ} {s : String} (hrep : rep ≤ intMax) :
    ExactOrError (repeatString c rep s)
        (some (.str (String.join (List.replicate rep.toNat s)))) ↔ RepeatFits c rep s := by
  unfold repeatString
  by_cases hneg : rep < 0
  · rw [if_pos hneg]
    exact ⟨fun _ => Or.inl (by omega), fun _ => exactOrError_error⟩
  rw [if_neg hneg]
  by_cases hempty : rep = 0 ∨ s = ""
  · rw [if_pos hempty]
    have hjoin : String.join (List.replicate rep.toNat s) = "" := by
      rcases hempty with rfl | rfl
      · rfl
      · exact join_replicate_empty _
    rw [hjoin]
    refine ⟨fun _ => ?_, fun _ v hv => ?_⟩
    · rcases hempty with h | h
      · exact Or.inl (by omega)
      · exact Or.inr (Or.inl h)
    · cases hv
      exact ⟨rfl, trivial, by simp⟩
  rw [if_neg hempty]
  rw [not_or] at hempty
  by_cases hlong : repeatTooLong c (wrap s.utf8ByteSize) rep = true
  · refine ⟨fun _ => Or.inr (Or.inr (Or.inr hlong)), fun _ v hv => ?_⟩
    simp only [Lib.Traced.val_bind, Lib.Traced.val_cint, repeatNew_long hlong] at hv
    cases hv
  have hfits : RepeatFits c rep s ↔ (s.utf8ByteSize : ℤ) ≤ intMax := by
    refine ⟨fun h => ?_, fun h => Or.inr (Or.inr (Or.inl h))⟩
    rcases h with h | h | h | h
    · omega
    · exact (hempty.2 h).elim
    · exact h
    · exact (hlong h).elim
  rw [hfits]
  constructor
  · intro h
    obtain ⟨-, -, hsafe⟩ := h (.str (String.join (List.replicate rep.toNat s))) (by
      simp only [Lib.Traced.val_bind, Lib.Traced.val_cint, repeatNew_val hlong])
    rw [Lib.Traced.safe_bind, Lib.Traced.safe_cint] at hsafe
    exact hsafe.1.2
  · intro h v hv
    have hlen : InInt (s.utf8ByteSize : ℤ) := by
      rw [Lib.inInt_iff]
      have : intMax = 2147483647 := rfl
      omega
    simp only [Lib.Traced.val_bind, Lib.Traced.val_cint, repeatNew_val hlong] at hv
    rw [Lib.wrap_of_inInt hlen] at hlong
    obtain ⟨hp, hp1⟩ := repeat_inInt (c := c) (by omega) h (by omega) hrep
      (by simpa using hlong)
    obtain rfl := Except.ok.inj hv
    refine ⟨rfl, trivial, ?_⟩
    simp only [Lib.Traced.safe_bind, Lib.Traced.safe_cint, Lib.Traced.val_cint,
      Lib.wrap_of_inInt hlen, Lib.wrap_of_inInt hp, repeatNew_safe hlong]
    exact ⟨hlen, hp, hp1⟩

/-- A string is repeated only with a length that fits. -/
def MulFits (c : TextConfig) (v1 v2 : Value) : Prop :=
  (∀ a s, v1 = .int a → v2 = .str s → RepeatFits c a s) ∧
    ∀ a s, v1 = .str s → v2 = .int a → RepeatFits c a s

theorem multiplyValues_exact_iff (h1 : v1.Produced) (h2 : v2.Produced) :
    ExactOrError (multiplyValues c v1 v2) (exactMul v1 v2) ↔ MulFits c v1 v2 := by
  have hnone : (∀ a s, v1 = .int a → v2 ≠ .str s) → (∀ a s, v1 = .str s → v2 ≠ .int a) →
      MulFits c v1 v2 := fun h1 h2 =>
    ⟨fun a s ha hs => (h1 a s ha hs).elim, fun a s hs ha => (h2 a s hs ha).elim⟩
  cases v1 with
  | int a =>
    cases v2 with
    | int b =>
      refine ⟨fun _ => hnone (by simp) (by simp), fun _ => ?_⟩
      simp only [multiplyValues, exactMul]
      split_ifs with hmin ho
      · exact exactOrError_error
      · exact exactOrError_error
      · rw [mulOverflow_iff, not_not] at ho
        exact exactOrError_cint ho trivial
    | str s =>
      refine (repeatString_exact_iff h1.2).trans ⟨fun h => ⟨?_, ?_⟩, fun h => h.1 a s rfl rfl⟩
      · rintro _ _ ⟨⟩ ⟨⟩
        exact h
      · rintro _ _ ⟨⟩
    | _ => exact ⟨fun _ => hnone (by simp) (by simp), fun _ => exactOrError_error⟩
  | str s =>
    cases v2 with
    | int b =>
      refine (repeatString_exact_iff h2.2).trans ⟨fun h => ⟨?_, ?_⟩, fun h => h.2 b s rfl rfl⟩
      · rintro _ _ ⟨⟩
      · rintro _ _ ⟨⟩ ⟨⟩
        exact h
    | _ => exact ⟨fun _ => hnone (by simp) (by simp), fun _ => exactOrError_error⟩
  | _ =>
    cases v2 <;> exact ⟨fun _ => hnone (by simp) (by simp), fun _ => exactOrError_error⟩

theorem tdiv_tmod_inInt (ha : InInt a) (hno : ¬ (b = -1 ∧ a = intMin)) :
    InInt (a.tdiv b) ∧ InInt (a.tmod b) := by
  have hdiv := Int.natAbs_tdiv_le_natAbs a b
  have hmod : (a.tmod b).natAbs ≤ a.natAbs := by
    rw [Int.natAbs_tmod]
    exact Nat.mod_le _ _
  have hlo : -2147483648 ≤ a := ha.1
  have hhi : a ≤ 2147483647 := ha.2
  have hmin : intMin = -2147483648 := rfl
  rw [hmin] at hno
  rw [Lib.inInt_iff, Lib.inInt_iff]
  by_cases ha' : a = -2147483648
  · -- the quotient is a positive 2^31 for the divisor -1 only
    subst ha'
    have hflipMod : (-2147483648 : ℤ).tmod b = -(2147483648 : ℤ).tmod b := Int.neg_tmod ..
    have hmodNonneg := Int.tmod_nonneg b (show (0 : ℤ) ≤ 2147483648 by omega)
    refine ⟨⟨by omega, ?_⟩, by omega⟩
    rcases lt_or_ge b 0 with hb | hb
    · have hb' : b ≠ -1 := fun h => hno ⟨h, rfl⟩
      have hflip : (-2147483648 : ℤ).tdiv b = 2147483648 / (-b) := by
        rw [← Int.tdiv_eq_ediv_of_nonneg (show (0 : ℤ) ≤ 2147483648 by omega), Int.tdiv_neg,
          ← Int.neg_tdiv]
      have hlt : (2147483648 : ℤ) / (-b) < 2147483648 := Int.ediv_lt_of_lt_mul (by omega) (by omega)
      omega
    · have hflip : (-2147483648 : ℤ).tdiv b = -(2147483648 : ℤ).tdiv b := Int.neg_tdiv ..
      have hnn := Int.tdiv_nonneg (show (0 : ℤ) ≤ 2147483648 by omega) hb
      omega
  · omega

theorem divideOrMod_exact {isDiv : Bool} (h1 : v1.Produced) :
    ExactOrError (divideOrMod isDiv v1 v2) (exactDivMod isDiv v1 v2) := by
  cases v1 with
  | int a =>
    cases v2 with
    | int b =>
      simp only [divideOrMod, exactDivMod]
      by_cases hzero : b = 0
      · rw [if_pos hzero]
        exact exactOrError_error
      rw [if_neg hzero]
      by_cases hmin : b = -1 ∧ a = intMin
      · rw [if_pos hmin]
        exact exactOrError_error
      · rw [if_neg hmin]
        obtain ⟨hdiv, hmod⟩ := tdiv_tmod_inInt h1 hmin
        refine exactOrError_cint ?_ (show (Value.int _).Canonical from trivial)
        cases isDiv
        · exact hmod
        · exact hdiv
    | _ => exact exactOrError_error
  | _ => cases v2 <;> exact exactOrError_error

theorem unaryMinus_exact (h : v.Produced) : ExactOrError (unaryMinus v) (exactNeg v) := by
  cases v with
  | int a =>
    simp only [unaryMinus, exactNeg]
    split_ifs with hmin
    · exact exactOrError_error
    · refine exactOrError_cint ?_ trivial
      have h1 : -2147483648 ≤ a := h.1
      have h2 : a ≤ 2147483647 := h.2
      have h3 : a ≠ -2147483648 := hmin
      rw [Lib.inInt_iff]
      omega
  | _ => exact exactOrError_error

/-- A DATE is made a DATETIME without a test. -/
theorem dateToDatetime_exact_iff :
    ExactOrError (dateToDatetime n) (some (.datetime (n * minutesPerDay))) ↔
      0 ≤ n ∧ n ≤ intMax.tdiv minutesPerDay := by
  have hmin : minutesPerDay = 1440 := rfl
  have hmax : intMax.tdiv minutesPerDay = 1491308 := rfl
  rw [hmax]
  constructor
  · intro h
    obtain ⟨hval, hcanon, hsafe⟩ := h _ rfl
    simp only [dateToDatetime, Lib.Traced.safe_bind, Lib.Traced.safe_cint, Lib.inInt_iff, hmin]
      at hsafe
    have hwrap := Option.some.inj hval
    simp only [Lib.Traced.val_cint, Value.datetime.injEq] at hwrap
    have hnn : 0 ≤ n * minutesPerDay := by
      rw [hwrap]
      exact hcanon
    rw [hmin] at hnn
    omega
  · rintro ⟨h0, hle⟩
    refine exactOrError_cint ?_ ?_
    · rw [Lib.inInt_iff, hmin]
      omega
    · show 0 ≤ n * minutesPerDay
      rw [hmin]
      omega

end Operators

end Remind
