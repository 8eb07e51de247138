import Remind.DoRem
import Remind.Lib.Scan

/-!
# Warn — warning days by a WARN function (dorem.c: `ShouldTriggerBasedOnWarn`)

The function is called with 1, 2, ..., as long as the absolute values of what it returns fall.  The
number of calls is bounded by the first value, and the answer is yes exactly when today is the date
of the reminder or one of the warning days that the values stand for.
-/

namespace Remind

/-- `x` is the day that the value `v` of a WARN function stands for: `v` days before the date `n`, or
for a negative `v` as many days before that are not omitted. -/
def WarnDay (om : ℤ → Bool) (n v x : ℤ) : Prop :=
  if 0 ≤ v then x = n - v else Lib.NthBefore om v.natAbs n x

instance (om : ℤ → Bool) (n v x : ℤ) : Decidable (WarnDay om n v x) :=
  inferInstanceAs (Decidable (if 0 ≤ v then x = n - v else Lib.NthBefore om v.natAbs n x))

/-- The absolute values of `w 1`, ..., `w i` fall. -/
def InPrefix (w : ℕ → ℤ) (i : ℕ) : Prop :=
  1 ≤ i ∧ ∀ j, 1 ≤ j → j < i → (w (j + 1)).natAbs < (w j).natAbs

theorem InPrefix.succ {w : ℕ → ℤ} {i : ℕ} (h : InPrefix w i)
    (hfall : (w (i + 1)).natAbs < (w i).natAbs) : InPrefix w (i + 1) := by
  refine ⟨by omega, fun j h1 hj => ?_⟩
  rcases Nat.lt_succ_iff_lt_or_eq.mp hj with hlt | rfl
  · exact h.2 j h1 hlt
  · exact hfall

section Monad

variable {m : Type → Type} [Monad m]

/-- `k` calls of the function, with `i`, `i + 1` and so on. -/
def calls (call : ℕ → m Unit) : ℕ → ℕ → m Unit
  | _, 0 => pure ()
  | i, k + 1 => do
    call i
    calls call (i + 1) k

/-- The WARN function of the reminder is defined; with `i` it does `call i` and returns `w i`. -/
structure WarnFunction (e : RemEnv m) (t : Trigger) (call : ℕ → m Unit) (w : ℕ → ℤ) : Prop where
  defined : e.userFuncExists t.warn = true
  value : ∀ i : ℕ, 1 ≤ i → e.evalUser t.warn i = do
    call i
    pure (.ok (.int (w i)))

/-- The walk from `n` back to `j`, the day of a negative value, stays below the iteration cap, and
`IsOmitted` answers as `om` does on the way. -/
structure WalksTo (e : RemEnv m) (t : Trigger) (om : ℤ → Bool) (n v j : ℤ) : Prop where
  nth : Lib.NthBefore om v.natAbs n j
  below : n - j ≤ e.maxSatIter
  asked : ∀ x, j ≤ x → x < n → e.isOmitted t.localomit t.omitfunc x = pure (.ok (om x))

/-- The values that are looked at because none before has been a warning for today have walks below
the cap. -/
def WalksEnd (e : RemEnv m) (t : Trigger) (om : ℤ → Bool) (w : ℕ → ℤ) (today n : ℤ) : Prop :=
  ∀ i, InPrefix w i → w i < 0 → (∀ j, 1 ≤ j → j < i → ¬ WarnDay om n (w j) today) →
    ∃ x, WalksTo e t om n (w i) x

variable [LawfulMonad m] {e : RemEnv m} {t : Trigger} {om : ℤ → Bool} {call : ℕ → m Unit}
  {w : ℕ → ℤ} {today n : ℤ}

/-- The walk back finds the day that it counts to. -/
theorem warnBack_nth {k : ℕ} {v j : ℤ} (hv : v < 0) (hj : Lib.NthBefore om v.natAbs n j)
    (hk : n - j ≤ k)
    (hask : ∀ x, j ≤ x → x < n → e.isOmitted t.localomit t.omitfunc x = pure (.ok (om x))) :
    warnBack e t (k + 1) v n = pure (some j) := by
  have hjn := hj.1
  induction k generalizing v n with
  | zero => omega
  | succ k ih =>
    unfold warnBack
    rw [hask (n - 1) (by omega) (by omega)]
    simp only [pure_bind]
    by_cases hb : om (n - 1) = true
    · have hrest := hj.of_blocked hb
      rw [if_pos hb, if_neg (show ¬ v = 0 by omega)]
      exact ih hv hrest (by omega) (fun x h1 h2 => hask x h1 (by omega)) hrest.1
    · rw [if_neg hb]
      rw [Bool.not_eq_true] at hb
      rw [show v.natAbs = (v + 1).natAbs + 1 by omega] at hj
      rcases hj.of_free hb with ⟨hlast, rfl⟩ | ⟨hmore, hrest⟩
      · rw [if_pos (show v + 1 = 0 by omega), if_neg (Nat.succ_ne_zero k)]
      · rw [if_neg (show ¬ v + 1 = 0 by omega)]
        exact ih (by omega) hrest (by omega) (fun x h1 h2 => hask x h1 (by omega)) hrest.1

/-- What one value decides: yes if today is its day, else nothing. -/
theorem warnTry_eq {v : ℤ} (hwalk : v < 0 → ∃ x, WalksTo e t om n v x) :
    warnTry e t today n v = pure (if WarnDay om n v today then some true else none) := by
  unfold warnTry WarnDay
  by_cases hv : 0 ≤ v
  · rw [if_pos hv]
    simp only [hv, if_true, show today + v = n ↔ today = n - v by omega]
  · obtain ⟨x, hx⟩ := hwalk (by omega)
    have hday : x = today ↔ Lib.NthBefore om v.natAbs n today :=
      ⟨fun h => h ▸ hx.nth, fun h => hx.nth.unique h⟩
    rw [if_neg hv, warnBack_nth (by omega) hx.nth hx.below hx.asked]
    simp only [pure_bind, hday, hv, if_false]

/-- The loop behind the `i`-th value: it calls the function `k` times more. -/
theorem warnLoop_eq (hw : WarnFunction e t call w) (hwalks : WalksEnd e t om w today n) {i : ℕ}
    (hi : InPrefix w i) (hno : ∀ j, 1 ≤ j → j ≤ i → ¬ WarnDay om n (w j) today) :
    ∃ k b, k ≤ (w i).natAbs + 1 ∧
      warnLoop e t today n (i + 1) (w i).natAbs = (do
        calls call (i + 1) k
        pure b) ∧
      (b = true ↔ n = today ∨ ∃ j, i < j ∧ InPrefix w j ∧ WarnDay om n (w j) today) := by
  induction hlast : (w i).natAbs using Nat.strong_induction_on generalizing i with
  | h last ih =>
    subst hlast
    unfold warnLoop
    rw [hw.value (i + 1) (by omega)]
    simp only [bind_assoc, pure_bind]
    by_cases hfall : (w (i + 1)).natAbs < (w i).natAbs
    · have hi' := hi.succ hfall
      rw [warnTry_eq fun hv => hwalks (i + 1) hi' hv fun j h1 hj => hno j h1 (by omega)]
      by_cases hday : WarnDay om n (w (i + 1)) today
      · refine ⟨1, true, by omega, ?_, iff_of_true rfl (Or.inr ⟨i + 1, by omega, hi', hday⟩)⟩
        simp [calls, hfall, hday]
      · have hno' : ∀ j, 1 ≤ j → j ≤ i + 1 → ¬ WarnDay om n (w j) today := fun j h1 hj => by
          rcases Nat.le_succ_iff.mp hj with hle | rfl
          · exact hno j h1 hle
          · exact hday
        obtain ⟨k, b, hk, hrun, hb⟩ := ih _ hfall hi' hno' rfl
        refine ⟨k + 1, b, by omega, ?_, hb.trans (or_congr_right ⟨?_, ?_⟩)⟩
        · simp [calls, hfall, hday, hrun]
        · rintro ⟨j, hj, hpre, hwarn⟩
          exact ⟨j, by omega, hpre, hwarn⟩
        · rintro ⟨j, hj, hpre, hwarn⟩
          have hne : j ≠ i + 1 := by
            rintro rfl
            exact hday hwarn
          exact ⟨j, by omega, hpre, hwarn⟩
    · refine ⟨1, decide (n = today), by omega, ?_, ?_⟩
      · simp [calls, hfall]
      · rw [decide_eq_true_iff]
        refine ⟨Or.inl, fun h => h.resolve_right ?_⟩
        rintro ⟨j, hj, hpre, -⟩
        exact hfall (hpre.2 i hi.1 hj)

/-- **A WARN function cannot hang or misfire.**  For an event it is called at most two times more than
its first value says, and the answer is yes exactly on the date and on the warning days of the values
whose absolute values fall. -/
theorem shouldTriggerBasedOnWarn_days (hevent : t.isTodo = false)
    (hw : WarnFunction e t call w) (hwalks : WalksEnd e t om w today n) :
    ∃ k b, k ≤ (w 1).natAbs + 2 ∧
      shouldTriggerBasedOnWarn e t today n = (do
        calls call 1 k
        pure b) ∧
      (b = true ↔ n = today ∨ ∃ i, InPrefix w i ∧ WarnDay om n (w i) today) := by
  have hone : InPrefix w 1 := ⟨le_rfl, fun j h1 hj => by omega⟩
  unfold shouldTriggerBasedOnWarn
  simp only [hevent, Bool.false_and, Bool.false_eq_true, if_false, hw.defined, Bool.not_true]
  rw [show (1 : ℤ) = ((1 : ℕ) : ℤ) by rfl, hw.value 1 le_rfl]
  simp only [bind_assoc, pure_bind]
  rw [warnTry_eq fun hv => hwalks 1 hone hv fun j h1 hj => by omega]
  by_cases hday : WarnDay om n (w 1) today
  · refine ⟨1, true, by omega, ?_, iff_of_true rfl (Or.inr ⟨1, hone, hday⟩)⟩
    simp [calls, hday]
  · obtain ⟨k, b, hk, hrun, hb⟩ := warnLoop_eq hw hwalks hone (fun j h1 hj => by
      obtain rfl : j = 1 := by omega
      exact hday)
    refine ⟨k + 1, b, by omega, ?_, hb.trans (or_congr_right ⟨?_, ?_⟩)⟩
    · simp [calls, hday, hrun]
    · rintro ⟨j, -, hpre, hwarn⟩
      exact ⟨j, hpre, hwarn⟩
    · rintro ⟨j, hpre, hwarn⟩
      have hne : j ≠ 1 := by
        rintro rfl
        exact hday hwarn
      have := hpre.1
      exact ⟨j, by omega, hpre, hwarn⟩

end Monad

/-- Weekends are omitted. -/
def isWeekend (n : ℤ) : Bool := decide (n % 7 = 5 ∨ n % 7 = 6)

/-- A WARN function: five days before, then the last working day before, then the day itself. -/
def fiveThenOne : ℕ → ℤ
  | 1 => 5
  | 2 => -1
  | _ => 0

def warnEnv : RemEnv Id where
  isOmitted _ _ n := pure (.ok (isWeekend n))
  enterTimezone _ := pure 0
  exitTimezone _ := pure 0
  tzConvert _ _ _ _ := none
  userFuncExists f := f = "w"
  evalUser _ i := pure (.ok (.int (fiveThenOne i.toNat)))
  satisfy _ := pure (.error .undefFunc)

/-- An event on a Monday is warned of on the Friday before. -/
theorem shouldTriggerBasedOnWarn_days_friday : ∃ k b, k ≤ 7 ∧
    shouldTriggerBasedOnWarn warnEnv { warn := "w" } 4 7 = (do
      calls (fun _ => pure ()) 1 k
      pure b) ∧
    (b = true ↔ (7 : ℤ) = 4 ∨
      ∃ i, InPrefix fiveThenOne i ∧ WarnDay isWeekend 7 (fiveThenOne i) 4) :=
  @shouldTriggerBasedOnWarn_days Id _ _ warnEnv { warn := "w" } isWeekend (fun _ => pure ())
    fiveThenOne 4 7 rfl ⟨by decide, fun i _ => rfl⟩ (by
      rintro (_ | _ | _ | i) - hneg -
      · exact absurd hneg (by decide)
      · exact absurd hneg (by decide)
      · exact ⟨4, by decide, by decide, fun _ _ _ => rfl⟩
      · exact absurd hneg (by simp [fiveThenOne]))

end Remind
