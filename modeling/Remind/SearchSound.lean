import Remind.Omit
import Remind.SearchSpec
import Mathlib.Tactic.Ring

/-!
# SearchSound — what the search returns is a date of the trigger

Whatever the omit predicate says, a date that `ComputeTriggerNoAdjustDuration` returns is one that
a simple date is moved to by BACK, by some number of repeats, and by the skip rule.
-/

namespace Remind

/-- What `ParseRem` guarantees of the numbers in a trigger. -/
structure Trigger.Parsed (t : Trigger) : Prop extends t.InRange where
  rep : 0 ≤ t.rep

/-- `r` is where BACK, `k` repeats and the skip rule move some simple date. -/
def IsMoved (om : ℤ → Bool) (t : Trigger) (r : ℤ) : Prop :=
  ∃ b ∈ simpleDates t, ∃ x, Backed om t.back b x ∧
    ∃ k : ℕ, (t.rep = 0 → k = 0) ∧ Moved om t.skip (x + k * t.rep) r

/-- The surroundings of a search outside any time zone: an OMIT context and user functions. -/
def contextEnv (c : OmitContext) (funcs : String → Option (Ymd → Except ErrCode (Option ℤ)))
    (maxSatIter : ℕ) (calmode : Bool) : Env Id where
  weekdayOmits := c.weekday
  maxSatIter := maxSatIter
  calmode := calmode
  isOmitted localomit omitfunc n :=
    isOmitted c localomit (if omitfunc = "" then none else funcs omitfunc) n
  viewLocally t _ n := { trig := t, newResult := n, dseToday := 0 }

section Sound

variable {e : Env Id} {t : Trigger}

/-- The repeat adds some number of repeat periods. -/
theorem applyRep_eq (hrep : 0 ≤ t.rep) (start x : ℤ) :
    ∃ k : ℕ, (t.rep = 0 → k = 0) ∧ applyRep t start x = x + k * t.rep := by
  unfold applyRep
  by_cases h : t.rep ≠ 0 ∧ x < start
  · have hq : 0 ≤ (start - x).tdiv t.rep := Int.tdiv_nonneg (by omega) hrep
    obtain ⟨q, hq⟩ := Int.eq_ofNat_of_zero_le hq
    simp only [if_pos h, hq]
    split_ifs
    · exact ⟨q + 1, fun h0 => (h.1 h0).elim, by push_cast; ring⟩
    · exact ⟨q, fun h0 => (h.1 h0).elim, rfl⟩
  · rw [if_neg h]
    exact ⟨0, fun _ => rfl, by simp⟩

theorem LocalStart.nonneg {om : ℤ → Bool} {rule : SkipRule} {start s : ℤ}
    (h : LocalStart om rule start s) (hs : 0 ≤ start) : 0 ≤ s := by
  unfold LocalStart at h
  split_ifs at h
  · exact h.1
  · omega

/-- A date that `NextSimpleTrig` returns is a simple date. -/
theorem NextAnswer.mem {start j : ℤ} (h : NextAnswer t start j) (hj : j ≠ -1) :
    j ∈ simpleDates t := by
  cases h with
  | next hn _ => exact hn.elim (fun h => h.1.1) fun h => (hj h.1).elim
  | past hm _ _ _ => exact hm
  | overlooked _ _ hn _ => exact hn.elim (fun h => h.1.1.1) fun h => (hj h.1).elim

/-- The date that one look finds. -/
theorem Look.isMoved {start r ns : ℤ} (h : Look e t start (r, ns)) (hs : 0 ≤ start)
    (ht : t.Parsed) (hr : r ≠ -1) :
    IsMoved (e.om t) t r ∧ (∀ u, t.untilDate = some u → r ≤ u) ∧
      (t.skip = .before ∨ t.skip = .after → e.omitted t r = .ok false) := by
  obtain ⟨s, j, b, -, hls, hj, hneg, -, hb, hx, hom, hu⟩ := h.found hr
  obtain ⟨k, hk, heq⟩ := applyRep_eq ht.rep s b
  rw [heq] at hx
  have hmem := (nextSimpleTrig_nextAnswer (hls.nonneg hs) ht.toInRange hj).mem hneg
  refine ⟨⟨j, hmem, b, hb, k, hk, hx⟩, fun u hu' => ?_, hom⟩
  rw [hu'] at hu
  simpa [pastUntil] using hu

/-- The search loop returns -1 or a date that a look has found. -/
theorem searchLoop_found {tim : TimeTrig} {today dur start ns sns : ℤ} {n : ℕ} {f : Found}
    (htz : t.tz = none) (hs : 0 ≤ start)
    (h : searchLoop e tim today dur n t start ns sns = f) (herr : f.err = none) :
    f.result = -1 ∨ ∃ start' ns', 0 ≤ start' ∧ Look e t start' (f.result, ns') ∧
      today ≤ f.result + dur ∧ (t.skip = .skip → e.omitted t f.result = .ok false) := by
  induction n generalizing start ns with
  | zero =>
    subst h
    cases herr
  | succ n ih =>
    cases searchLoop_round htz hs h herr with
    | gone _ => exact Or.inl rfl
    | accepted hlook _ htoday hom => exact Or.inr ⟨start, _, hs, hlook, htoday, hom⟩
    | stopped _ _ _ _ _ => exact Or.inl rfl
    | rescan _ _ _ _ _ hlt _ hrest => exact ih (by omega) hrest

theorem searchLoop_expired {tim : TimeTrig} {today dur start ns sns : ℤ} {n : ℕ} {f : Found}
    (htz : t.tz = none) (hs : 0 ≤ start)
    (h : searchLoop e tim today dur n t start ns sns = f) (herr : f.err = none)
    (hneg : f.result = -1) : f.trig.expired = true := by
  induction n generalizing start ns with
  | zero =>
    subst h
    cases herr
  | succ n ih =>
    cases searchLoop_round htz hs h herr with
    | gone _ => rfl
    | accepted _ hr _ _ => exact (hr hneg).elim
    | stopped _ _ _ _ _ => rfl
    | rescan _ _ _ _ _ hlt _ hrest => exact ih (by omega) hrest

end Sound

/-- `REM 2024-01-08 -1 *1 OMIT Sat Sun`, -/
def workdayBefore : Trigger :=
  { d := some 8, m := some 0, y := some 2024, back := 1, rep := 1, localomit := 0x60 }

theorem workdayBefore_parsed : workdayBefore.Parsed where
  day := by rintro d ⟨⟩; decide
  mon := by rintro m ⟨⟩; decide
  yr := by rintro y ⟨⟩; decide
  rep := by decide

/-- searched on Saturday 6 January. -/
def saturdaySearch : Found :=
  computeTriggerNoAdjustDuration (contextEnv {} (fun _ => none) 10 false) workdayBefore
    (dse 2024 0 6) {} 0

end Remind
