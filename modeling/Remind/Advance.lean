import Remind.DoRem
import Remind.SearchSpec

/-!
# Advance — advance warning by `+delta` (dorem.c: `ShouldTriggerReminder`)

The code walks back from the trigger date and counts down at each day that is not omitted.  It gets
to today exactly when the days strictly between that are not omitted are fewer than `delta`.
-/

namespace Remind

section Err

variable {m : Type → Type} [Monad m] (e : RemEnv m) (t : Trigger) (tim : TimeTrig) (today : ℤ)

/-- `DontIssueAts`: a timed reminder for today is not issued, with two or more -a options if its time
has passed. -/
def atSilenced (n : ℤ) : Bool :=
  match tim.ttime with
  | none => false
  | some ttime => decide (n = today ∧ e.modes.dontIssueAts ≠ 0 ∧
      (e.modes.dontIssueAts = 1 ∨ ttime < e.modes.minutesPastMidnight))

/-- What `*err` is behind the walk of `deltaBack`. -/
def deltaErr : ℕ → ℤ → ℤ → m (Option ErrCode)
  | 0, _, _ => pure (some .cantTrig)
  | k + 1, r, n =>
    if r = 0 ∨ n ≤ today then pure none
    else do
      match ← e.isOmitted t.localomit t.omitfunc (n - 1) with
      | .error err => pure (some err)
      | .ok omitted => deltaErr k (if omitted then r else r - 1) (n - 1)

/-- The `*err` of `ShouldTriggerReminder`, for a reminder without a WARN function. -/
def shouldTriggerErr (n : ℤ) : m (Option ErrCode) :=
  if onceDone e t today then pure none
  else
    match pastDecision e t today n with
    | some _ => pure none
    | none =>
      if atSilenced e tim today n then pure none
      else if e.modes.infiniteDelta || e.modes.nextMode then pure none
      else if e.modes.deltaOverride ≠ 0 then pure none
      else if t.delta ≤ 0 then pure none
      else deltaErr e t today (max e.maxSatIter (2 * t.delta).toNat) t.delta n

end Err

section Walk

variable {e : RemEnv Id} {t : Trigger} {tim : TimeTrig} {today : ℤ}

/-- The walk ends on a day exactly when it reports no error. -/
theorem deltaErr_eq_none {k : ℕ} {r n : ℤ} :
    deltaErr e t today k r n = none ↔ ∃ n', deltaBack e t today k r n = some n' := by
  induction k generalizing r n with
  | zero => simp [deltaErr, deltaBack, pure]
  | succ k ih =>
    unfold deltaErr deltaBack
    by_cases hstop : r = 0 ∨ n ≤ today
    · rw [if_pos hstop, if_pos hstop]
      exact ⟨fun _ => ⟨n, rfl⟩, fun _ => rfl⟩
    · rw [if_neg hstop, if_neg hstop]
      simp only [bind]
      rcases e.isOmitted t.localomit t.omitfunc (n - 1) with err | omitted
      · simp [pure]
      · exact ih

/-- **The walk gets to today** exactly when fewer days between are free than are to be counted. -/
theorem deltaBack_reaches {k : ℕ} {r n n' : ℤ} (hr : 0 ≤ r) (hn : today ≤ n)
    (h : deltaBack e t today k r n = some n') :
    n' ≤ today ↔ n = today ∨ (Lib.freeIn (e.env.om t) (today + 1) n : ℤ) < r := by
  induction k generalizing r n with
  | zero => cases h
  | succ k ih =>
    unfold deltaBack at h
    by_cases hstop : r = 0 ∨ n ≤ today
    · rw [if_pos hstop] at h
      cases h
      omega
    rw [if_neg hstop] at h
    obtain ⟨hr0, hlate⟩ := not_or.mp hstop
    simp only [bind] at h
    rcases ho : e.isOmitted t.localomit t.omitfunc (n - 1) with err | omitted
    · rw [ho] at h
      cases h
    rw [ho] at h
    have hom : e.env.om t (n - 1) = omitted := Env.om_of_ok ho
    have hrest := ih (by split_ifs <;> omega) (by omega) h
    by_cases hlast : n = today + 1
    · subst hlast
      rw [add_sub_cancel_right] at hrest
      rw [hrest, Lib.freeIn_self]
      exact iff_of_true (Or.inl rfl) (Or.inr (by omega))
    · have hpred := Lib.freeIn_pred (p := e.env.om t) (show today + 1 < n by omega)
      rw [hom] at hpred
      rw [hrest, hpred]
      split_ifs <;> push_cast <;> omega

theorem deltaBack_clauses {t' : Trigger} (hlocal : t'.localomit = t.localomit)
    (hfunc : t'.omitfunc = t.omitfunc) {k : ℕ} {r n : ℤ} :
    deltaBack e t today k r n = deltaBack e t' today k r n := by
  induction k generalizing r n with
  | zero => rfl
  | succ k ih =>
    unfold deltaBack
    simp only [hlocal, hfunc, ih]

/-- With a larger `delta` and no smaller a cap the walk gets to today as well. -/
theorem deltaBack_mono {k k' : ℕ} {r r' n n' : ℤ} (hk : k ≤ k') (hr0 : 0 ≤ r) (hr : r ≤ r')
    (h : deltaBack e t today k r n = some n') (hn' : n' ≤ today) :
    deltaBack e t today k' r' n = some n' := by
  induction k generalizing k' r r' n with
  | zero => cases h
  | succ k ih =>
    obtain ⟨k', rfl⟩ : ∃ j, k' = j + 1 := ⟨k' - 1, by omega⟩
    unfold deltaBack at h ⊢
    by_cases hnow : n ≤ today
    · rw [if_pos (Or.inr hnow)] at h
      rw [if_pos (Or.inr hnow)]
      exact h
    by_cases hzero : r = 0
    · rw [if_pos (Or.inl hzero)] at h
      cases h
      exact absurd hn' hnow
    rw [if_neg (not_or.mpr ⟨hzero, hnow⟩)] at h
    rw [if_neg (not_or.mpr ⟨by omega, hnow⟩)]
    simp only [bind] at h ⊢
    rcases ho : e.isOmitted t.localomit t.omitfunc (n - 1) with err | omitted
    · rw [ho] at h
      cases h
    · rw [ho] at h
      exact ih (by omega) (by split_ifs <;> omega) (by split_ifs <;> omega) h

end Walk

/-! ### The decision -/

section Decision

variable {e : RemEnv Id} {t : Trigger} {tim : TimeTrig} {today n : ℤ}

/-- `ShouldTriggerReminder` behind the rules for TODOs and for the past. -/
theorem shouldTriggerReminder_ahead (honce : onceDone e t today = false)
    (hpast : pastDecision e t today n = none) :
    shouldTriggerReminder e t tim today n =
      if atSilenced e tim today n then false else triggerAhead e t today n := by
  unfold shouldTriggerReminder atSilenced
  rw [honce, if_neg (by simp), hpast]
  rcases tim.ttime with _ | ttime
  · rfl
  · simp only [decide_eq_true_eq]
    rfl

/-- An event that is not over is left to the later rules. -/
theorem pastDecision_event (hevent : t.isTodo = false) (hn : today ≤ n) :
    pastDecision e t today n = none := by
  unfold pastDecision
  rw [hevent]
  simp only [Bool.false_and, Bool.false_eq_true, if_false]
  rw [if_neg (by omega)]

/-- The rules for the days before the trigger date, without a WARN function and a -t option. -/
theorem triggerAhead_delta (hwarn : t.warn = "") (hover : e.modes.deltaOverride = 0) :
    triggerAhead e t today n =
      if e.modes.infiniteDelta || e.modes.nextMode then true
      else if t.delta < 0 then decide (n + t.delta ≤ today)
      else if t.delta = 0 then decide (n ≤ today)
      else match deltaBack e t today (max e.maxSatIter (2 * t.delta).toNat) t.delta n with
        | none => false
        | some n => decide (n ≤ today) := by
  unfold triggerAhead
  rw [hover]
  simp only [hwarn, ne_eq, not_true_eq_false, if_false, lt_irrefl]
  rfl

/-- Without an error the walk has ended. -/
theorem walk_of_noErr (honce : onceDone e t today = false)
    (hpast : pastDecision e t today n = none) (hat : atSilenced e tim today n = false)
    (hmode : (e.modes.infiniteDelta || e.modes.nextMode) = false)
    (hover : e.modes.deltaOverride = 0) (hd : 0 < t.delta)
    (herr : shouldTriggerErr e t tim today n = none) :
    ∃ n', deltaBack e t today (max e.maxSatIter (2 * t.delta).toNat) t.delta n = some n' := by
  unfold shouldTriggerErr at herr
  rw [honce, hpast, hat, hmode, hover] at herr
  simp only [Bool.false_eq_true, if_false, ne_eq, not_true_eq_false] at herr
  rw [if_neg (by omega)] at herr
  exact deltaErr_eq_none.mp herr

/-- What decides about a reminder whose date is not over, besides the days between: it is silenced by
-a, or the mode shows everything ahead. -/
theorem shouldTriggerReminder_delta (hevent : t.isTodo = false) (honce : t.once = false)
    (hwarn : t.warn = "") (hover : e.modes.deltaOverride = 0) (hn : today ≤ n) (hd : 0 < t.delta)
    (herr : shouldTriggerErr e t tim today n = none) :
    shouldTriggerReminder e t tim today n = true ↔
      atSilenced e tim today n = false ∧ ((e.modes.infiniteDelta || e.modes.nextMode) = true ∨
        n = today ∨ (Lib.freeIn (e.env.om t) (today + 1) n : ℤ) < t.delta) := by
  have hdone : onceDone e t today = false := by simp [onceDone, honce]
  have hpast := pastDecision_event (e := e) hevent hn
  rw [shouldTriggerReminder_ahead hdone hpast, triggerAhead_delta hwarn hover]
  by_cases hat : atSilenced e tim today n = true
  · simp [hat]
  by_cases hmode : (e.modes.infiniteDelta || e.modes.nextMode) = true
  · simp [hat, hmode]
  rw [Bool.not_eq_true] at hat hmode
  obtain ⟨n', hwalk⟩ := walk_of_noErr hdone hpast hat hmode hover hd herr
  rw [hat, hmode, hwalk, if_neg (by omega : ¬ t.delta < 0), if_neg (by omega : ¬ t.delta = 0)]
  simp only [Bool.false_eq_true, if_false, true_and, false_or]
  exact decide_eq_true_iff.trans (deltaBack_reaches hd.le hn hwalk)

/-- A larger `delta` triggers where a smaller one does. -/
theorem triggerAhead_mono {t' : Trigger} (hlocal : t'.localomit = t.localomit)
    (hfunc : t'.omitfunc = t.omitfunc) (hwarn : t.warn = "") (hwarn' : t'.warn = "")
    (hover : e.modes.deltaOverride = 0) (hd : 0 < t.delta) (hd' : t.delta ≤ t'.delta)
    (h : triggerAhead e t today n = true) : triggerAhead e t' today n = true := by
  rw [triggerAhead_delta hwarn hover, if_neg (by omega : ¬ t.delta < 0),
    if_neg (by omega : ¬ t.delta = 0)] at h
  rw [triggerAhead_delta hwarn' hover, if_neg (by omega : ¬ t'.delta < 0),
    if_neg (by omega : ¬ t'.delta = 0)]
  split_ifs at h ⊢
  · rfl
  · rcases hwalk : deltaBack e t today (max e.maxSatIter (2 * t.delta).toNat) t.delta n with _ | n'
    · rw [hwalk] at h
      cases h
    · rw [hwalk] at h
      have hcap : max e.maxSatIter (2 * t.delta).toNat ≤ max e.maxSatIter (2 * t'.delta).toNat := by
        omega
      have hlonger := deltaBack_mono hcap hd.le hd' hwalk (of_decide_eq_true h)
      rw [deltaBack_clauses hlocal hfunc] at hlonger
      rw [hlonger]
      exact h

/-- Weekends are omitted. -/
def weekendEnv (o : Modes) : RemEnv Id where
  modes := o
  isOmitted _ _ n := pure (.ok (decide (n % 7 = 5 ∨ n % 7 = 6)))
  enterTimezone _ := pure 0
  exitTimezone _ := pure 0
  tzConvert _ _ _ _ := none
  userFuncExists _ := false
  evalUser _ _ := pure (.error .undefFunc)
  satisfy _ := pure (.error .undefFunc)

end Decision

end Remind
