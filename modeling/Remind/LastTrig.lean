import Remind.Lib.Yields
import Remind.SameZone
import Remind.TrigFuncs

/-!
# LastTrig — what the trigger functions leave of the last trigger

What the search saves does not change what it finds, so that the functions return what the pure
search does.  Without a TZ clause nothing is saved.  With one, the last trigger is lost as soon as
the search looks at a date in the local zone.
-/

namespace Remind

open Lib (Ends Yields)

/-! ### The search finds the same -/

section Same

variable {e : RemEnv Id}

theorem omitted_saving (t : Trigger) (n : ℤ) :
    e.saving.omitted t n = pure (e.env.omitted t n) := rfl

theorem backUpStart_saving (t : Trigger) (k : ℕ) (s : ℤ) :
    backUpStart e.saving t k s = pure (backUpStart e.env t k s) := by
  induction k generalizing s with
  | zero => rfl
  | succ k ih =>
    rw [backUpStart, backUpStart, omitted_saving, pure_bind]
    simp only [bind]
    cases e.env.omitted t (s - 1) with
    | error r => rfl
    | ok o =>
      dsimp only
      split_ifs
      · rfl
      · rfl
      · rfl
      · exact ih (s - 1)

theorem backLoop_saving (t : Trigger) (k : ℕ) (mod s : ℤ) :
    backLoop e.saving t k mod s = pure (backLoop e.env t k mod s) := by
  induction k generalizing mod s with
  | zero => rfl
  | succ k ih =>
    rw [backLoop, backLoop, omitted_saving, pure_bind]
    simp only [bind]
    split_ifs
    · rfl
    · rfl
    · cases e.env.omitted t (s - 1) with
      | error r => rfl
      | ok o => exact ih _ _

theorem beforeLoop_saving (t : Trigger) (k : ℕ) (s : ℤ) :
    beforeLoop e.saving t k s = pure (beforeLoop e.env t k s) := by
  induction k generalizing s with
  | zero => rfl
  | succ k ih =>
    rw [beforeLoop, beforeLoop, omitted_saving, pure_bind]
    simp only [bind]
    cases e.env.omitted t s with
    | error r => rfl
    | ok o =>
      dsimp only
      split_ifs
      · rfl
      · rfl
      · rfl
      · exact ih (s - 1)

theorem afterLoop_saving (t : Trigger) (k : ℕ) (s : ℤ) :
    afterLoop e.saving t k s = pure (afterLoop e.env t k s) := by
  induction k generalizing s with
  | zero => rfl
  | succ k ih =>
    rw [afterLoop, afterLoop, omitted_saving, pure_bind]
    simp only [bind]
    cases e.env.omitted t s with
    | error r => rfl
    | ok o =>
      dsimp only
      split_ifs
      · rfl
      · rfl
      · exact ih (s + 1)

theorem moveDate_saving (t : Trigger) (start s : ℤ) :
    moveDate e.saving t start s = pure (moveDate e.env t start s) := by
  have hback : applyBack e.saving t s = pure (applyBack e.env t s) := by
    unfold applyBack
    split_ifs
    · rfl
    · rfl
    · exact backLoop_saving t _ _ _
  have hskip : ∀ s, applySkip e.saving t s = pure (applySkip e.env t s) := by
    intro s
    unfold applySkip
    split
    · exact beforeLoop_saving t _ _
    · exact afterLoop_saving t _ _
    · rfl
    · rfl
  unfold moveDate
  rw [hback, pure_bind]
  simp only [bind]
  cases applyBack e.env t s with
  | error r => rfl
  | ok back => exact hskip _

theorem getNextTriggerDate_saving (t : Trigger) (s ns : ℤ) :
    getNextTriggerDate e.saving t s ns = pure (getNextTriggerDate e.env t s ns) := by
  have hlook : ∀ s, lookFrom e.saving t ns s = pure (lookFrom e.env t ns s) := by
    intro s
    unfold lookFrom
    rcases nextSimpleTrig s t with - | - | simple
    · rfl
    · rfl
    · dsimp only
      split_ifs
      · rfl
      · rw [moveDate_saving, pure_bind]
        simp only [bind]
        cases moveDate e.env t s simple <;> rfl
  unfold getNextTriggerDate
  rw [show e.saving.calmode = e.env.calmode from rfl,
    show e.saving.maxSatIter = e.env.maxSatIter from rfl, backUpStart_saving, pure_bind]
  simp only [bind]
  split_ifs
  · rfl
  · rfl
  · cases backUpStart e.env t (e.env.maxSatIter + 1) s with
    | error r => rfl
    | ok s => exact hlook s
  · exact hlook s

theorem skipOmitted_saving (t : Trigger) (r : ℤ) :
    skipOmitted e.saving t r = pure (skipOmitted e.env t r) := by
  unfold skipOmitted
  split_ifs <;> rfl

end Same

/-! ### What the search keeps -/

/-- The date that a search looks at first. -/
def firstLook (e : RemEnv Id) (t : Trigger) (start : ℤ) : Option ℤ :=
  match (getNextTriggerDate e.env t start 0 : Except ErrCode (ℤ × ℤ)) with
  | .error _ => none
  | .ok (r, _) =>
    match (skipOmitted e.env t r : Except ErrCode Bool) with
    | .error _ => none
    | .ok _ => some r

/-- The trigger is searched for, and from some day on it has a date that is not before day 0. -/
def HasDate (e : RemEnv Id) (t : Trigger) (tim : TimeTrig) : Prop :=
  ∃ start r, searchAllowed e t start tim 0 = true ∧ firstLook e t start = some r ∧ 0 ≤ r

/-- What is saved for a trigger does not end `P`, or nothing is. -/
def Safe (e : RemEnv Id) (P : LastInfo → Prop) (t : Trigger) (tim : TimeTrig) : Prop :=
  t.tz ≠ none →
    (∀ g t' tim n, P g → t'.tz = t.tz → P (saveAllTriggerInfo t' tim n tim.ttime true g)) ∨
      ¬ HasDate e t tim

section Kept

variable {e : RemEnv Id} {P Q : LastInfo → Prop} {t : Trigger} {tim : TimeTrig}

theorem getNextTriggerDate_nextstart {s ns r ns' : ℤ}
    (h : getNextTriggerDate e.env t s ns = .ok (r, ns')) (hr : r ≠ -1) (ns2 : ℤ) :
    getNextTriggerDate e.env t s ns2 = .ok (r, ns') := by
  have hlook : ∀ s, lookFrom e.env t ns s = .ok (r, ns') → lookFrom e.env t ns2 s = .ok (r, ns') := by
    intro s h
    unfold lookFrom at h ⊢
    rcases hsimple : nextSimpleTrig s t with _ | r' | simple
    · rw [hsimple] at h
      exact h
    · rw [hsimple] at h
      exact h
    · rw [hsimple] at h
      dsimp only at h ⊢
      split_ifs at h ⊢ with hneg
      · cases h
        exact absurd rfl hr
      · exact h
  unfold getNextTriggerDate at h ⊢
  split_ifs at h ⊢
  · cases h
    exact absurd rfl hr
  · cases h
    exact absurd rfl hr
  · simp only [bind] at h ⊢
    rcases hback : backUpStart e.env t (e.env.maxSatIter + 1) s with r' | s'
    · rw [hback] at h
      exact h
    · rw [hback] at h
      exact hlook s' h
  · exact hlook s h

theorem firstLook_eq {s ns r ns' : ℤ} {o : Bool}
    (hget : getNextTriggerDate e.env t s ns = .ok (r, ns')) (hr : r ≠ -1)
    (hskip : skipOmitted e.env t r = .ok o) : firstLook e t s = some r := by
  unfold firstLook
  rw [getNextTriggerDate_nextstart hget hr 0]
  dsimp only
  rw [hskip]

theorem firstLook_congr {t' : Trigger} (h : t'.searched = t.searched) (s : ℤ) :
    firstLook e t' s = firstLook e t s := by
  unfold firstLook
  rw [getNextTriggerDate_congr (core_of_searched h)]
  simp only [skipOmitted_congr (core_of_searched h)]

theorem searchAllowed_congr {t' : Trigger} (h : t'.searched = t.searched) (today dur : ℤ) :
    searchAllowed e t' today tim dur = searchAllowed e t today tim dur := by
  change searchAllowed e t'.searched today tim dur = searchAllowed e t.searched today tim dur
  rw [h]

theorem hasDate_congr {t' : Trigger} (h : t'.searched = t.searched) :
    HasDate e t' tim ↔ HasDate e t tim := by
  unfold HasDate
  simp only [searchAllowed_congr h, firstLook_congr h]

theorem Safe.congr {t' : Trigger} (h : t'.searched = t.searched) (hsafe : Safe e P t tim) :
    Safe e P t' tim := by
  have htz : t'.tz = t.tz := show t'.searched.tz = t.searched.tz by rw [h]
  intro hne
  rw [hasDate_congr h]
  exact (hsafe (by rwa [← htz])).imp_left
    fun hsave g u tim n hg hu => hsave g u tim n hg (hu.trans htz)

/-- Where a search is allowed, it is from every day on. -/
theorem searchAllowed_from {today dur : ℤ} (h : searchAllowed e t today tim dur = true) {s : ℤ}
    (hs : 0 ≤ s) : searchAllowed e t s tim 0 = true := by
  unfold searchAllowed at h ⊢
  simp only [Bool.not_eq_true', Bool.or_eq_false_iff, decide_eq_false_iff_not] at h ⊢
  exact ⟨⟨⟨h.1.1.1, by omega⟩, h.1.2⟩, h.2⟩

theorem adjustTriggerSaving_yields {n : ℤ}
    (h : t.tz ≠ none → 0 ≤ n → ∀ g t' tim n, P g → t'.tz = t.tz →
      P (saveAllTriggerInfo t' tim n tim.ttime true g)) :
    Yields P (adjustTriggerForTimeZone e t tim n) (adjustTriggerSaving e t tim n) := by
  unfold adjustTriggerForTimeZone adjustTriggerSaving
  cases htz : t.tz with
  | none => exact .of_pure _
  | some tz =>
    dsimp only
    split_ifs with hn
    · exact .of_pure _
    · rcases e.tzConvert (fromDSE n) (tim.ttimeOrig.getD 0 / 60) (tim.ttimeOrig.getD 0 % 60) tz with
        - | ⟨ymd, hour, minute⟩
      · exact .of_pure _
      · intro g hg
        exact ⟨rfl, h (by simp [htz]) (by omega) g _ _ _ hg htz.symm⟩

theorem acceptOrRescan_yields {today dur start ns r : ℤ} {o : Bool} {again : ℤ → ℤ → Id Found}
    {again' : ℤ → ℤ → StateM LastInfo Found}
    (h : ∀ s ns, start < s → Yields P (again s ns) (again' s ns)) :
    Yields P (acceptOrRescan (m := Id) t today dur start ns r o again)
      (acceptOrRescan t today dur start ns r o again') := by
  unfold acceptOrRescan
  split_ifs
  · exact .of_pure _
  · exact .of_pure _
  · exact .of_pure _
  · exact h _ _ (by omega)

/-- A look in the local zone, and what the search makes of it. -/
theorem tryDate_ends {today dur start ns sns r : ℤ} {o : Bool}
    {again : Trigger → ℤ → ℤ → ℤ → Id Found} {again' : Trigger → ℤ → ℤ → ℤ → StateM LastInfo Found}
    (htz : t.tz ≠ none) (hview : Ends P (e.env.viewLocally t tim r) Q (e.saving.viewLocally t tim r))
    (hagain : ∀ t' s ns sns, t'.searched = t.searched → start < s →
      Yields Q (again t' s ns sns) (again' t' s ns sns)) :
    Ends P (tryDate e.env tim t today dur start ns sns r o again) Q
      (tryDate e.saving tim t today dur start ns sns r o again') := by
  have hv : (e.env.viewLocally t tim r).trig.searched = t.searched := viewLocally_searched r
  unfold tryDate
  rw [if_neg htz, if_neg htz]
  refine hview.of_bind ?_
  change Yields Q _ _
  simp only [bind]
  split_ifs
  · exact .of_pure _
  · exact hagain _ _ _ _ hv (by omega)
  · exact acceptOrRescan_yields fun s ns hlt => hagain _ _ _ _ hv hlt

/-- One round of the search, where what it makes of a date is known. -/
theorem searchLoop_ends {today dur : ℤ} {k : ℕ} {start ns sns : ℤ}
    (hnone : (∀ r ns' o, getNextTriggerDate e.env t start ns = .ok (r, ns') → r ≠ -1 →
      skipOmitted e.env t r ≠ .ok o) → ∀ f : Found, Ends P f Q (pure f))
    (hdate : ∀ r ns' o, getNextTriggerDate e.env t start ns = .ok (r, ns') → r ≠ -1 →
      skipOmitted e.env t r = .ok o →
      Ends P (tryDate e.env tim t today dur start ns' sns r o (searchLoop e.env tim today dur k)) Q
        (tryDate e.saving tim t today dur start ns' sns r o
          (searchLoop e.saving tim today dur k))) :
    Ends P (searchLoop e.env tim today dur (k + 1) t start ns sns) Q
      (searchLoop e.saving tim today dur (k + 1) t start ns sns) := by
  unfold searchLoop
  rw [getNextTriggerDate_saving, pure_bind]
  simp only [bind]
  rcases hget : getNextTriggerDate e.env t start ns with r' | ⟨r, ns'⟩
  · exact hnone (fun r ns' o h => by rw [hget] at h; cases h) _
  · dsimp only
    split_ifs with hr
    · refine hnone (fun r' ns'' o h hr' => ?_) _
      rw [hget] at h
      cases h
      exact absurd hr hr'
    · rw [skipOmitted_saving]
      change Ends P _ Q (match skipOmitted e.env t r with
        | .error r => _
        | .ok omitted => _)
      rcases hskip : skipOmitted e.env t r with r' | o
      · refine hnone (fun r' ns'' o h _ hok => ?_) _
        rw [hget] at h
        cases h
        rw [hskip] at hok
        cases hok
      · exact hdate r ns' o hget hr hskip

theorem searchLoop_yields {today dur : ℤ} {k : ℕ} {start ns sns : ℤ} (hsafe : Safe e P t tim)
    (hallow : ∀ s, 0 ≤ s → searchAllowed e t s tim 0 = true) (hs : 0 ≤ start) :
    Yields P (searchLoop e.env tim today dur k t start ns sns)
      (searchLoop e.saving tim today dur k t start ns sns) := by
  induction k generalizing t start ns sns with
  | zero => exact .of_pure _
  | succ k ih =>
    refine searchLoop_ends (fun _ f => Yields.of_pure f) fun r ns' o hget hr hskip => ?_
    by_cases htz : t.tz = none
    · unfold tryDate
      rw [if_pos htz, if_pos htz]
      exact acceptOrRescan_yields fun s ns hlt => ih hsafe hallow (by omega)
    · refine tryDate_ends htz ?_ fun t' s ns sns ht' hlt => ih (hsafe.congr ht')
        (fun s hs => (searchAllowed_congr ht' s 0).trans (hallow s hs)) (by omega)
      refine Yields.of_bind (adjustTriggerSaving_yields fun htz hr0 g t' tim n hg ht' => ?_)
        (.of_pure _)
      rcases hsafe htz with hsave | hquiet
      · exact hsave g t' tim n hg ht'
      · exact absurd ⟨start, r, hallow start hs, firstLook_eq hget hr hskip, hr0⟩ hquiet

theorem search_ends {today dur : ℤ}
    (hnone : searchAllowed e t today tim dur = false → ∀ f : Found, Ends P f Q (pure f))
    (hloop : searchAllowed e t today tim dur = true →
      Ends P (searchLoop e.env tim today dur trigAttempts t.unexpired (today - dur) 0 0) Q
        (searchLoop e.saving tim today dur trigAttempts t.unexpired (today - dur) 0 0)) :
    Ends P (computeTriggerNoAdjustDuration e.env t today tim dur) Q
      (searchSaving e false t today tim dur) := by
  have hsearch : Ends P (computeTriggerNoAdjustDuration e.env t today tim dur) Q
      (computeTriggerNoAdjustDuration e.saving t today tim dur) := by
    unfold computeTriggerNoAdjustDuration
    rw [show e.saving.weekdayOmits = e.weekdayOmits from rfl,
      show e.env.weekdayOmits = e.weekdayOmits from rfl]
    split_ifs with h1 h2 h3 h4
    · exact hnone (by unfold searchAllowed; simp [h1]) _
    · exact hnone (by unfold searchAllowed; simp [h2]) _
    · exact hnone (by unfold searchAllowed; simp [h3]) _
    · exact hnone (by unfold searchAllowed; simp [h4]) _
    · exact hloop (by unfold searchAllowed; simp only [h1, h2, h3, h4]; rfl)
  unfold searchSaving
  exact Ends.of_bind (Yields.of_pure ()) (Ends.of_bind (Yields.of_pure ())
    (hsearch.of_bind (Ends.of_bind (Yields.of_pure ()) (Yields.of_pure _))))

theorem search_yields {today dur : ℤ} (hsafe : Safe e P t tim) :
    Yields P (computeTriggerNoAdjustDuration e.env t today tim dur)
      (searchSaving e false t today tim dur) := by
  refine search_ends (fun _ f => Yields.of_pure f) fun hallow => ?_
  have hstart : 0 ≤ today - dur := by
    unfold searchAllowed at hallow
    simp only [Bool.not_eq_true', Bool.or_eq_false_iff, decide_eq_false_iff_not] at hallow
    omega
  refine searchLoop_yields (@Safe.congr e P t tim t.unexpired rfl hsafe) (fun s hs => ?_) hstart
  exact (@searchAllowed_congr e t tim t.unexpired rfl s 0).trans (searchAllowed_from hallow hs)

theorem adjustDurationSaving_yields {today : ℤ} (f : Found) :
    Yields P (if f.err ≠ none then (⟨f.err, f.result, f.trig, tim⟩ : Computed)
      else ⟨none, (adjustTriggerForDuration today f.result f.trig tim).2.2,
        (adjustTriggerForDuration today f.result f.trig tim).1,
        (adjustTriggerForDuration today f.result f.trig tim).2.1⟩)
      (adjustDurationSaving false today tim f) := by
  unfold adjustDurationSaving
  split_ifs
  · exact .of_pure _
  · exact .of_bind (.of_pure ()) (.of_pure _)

theorem computeTriggerRestSaving_yields {today : ℤ} {f : Found} (hsafe : Safe e P f.trig tim) :
    Yields P (computeTriggerRest e today tim f) (computeTriggerRestSaving e false today tim f) := by
  unfold computeTriggerRest computeTriggerRestSaving
  by_cases herr : f.err ≠ none
  · rw [if_pos herr, if_pos herr]
    exact .of_pure _
  rw [if_neg herr, if_neg herr]
  by_cases hr : f.result = today
  · rw [if_pos hr, if_pos hr]
    exact .of_bind (.of_pure ()) (.of_pure _)
  rw [if_neg hr, if_neg hr]
  by_cases hdd : f.trig.durationDays ≠ 0
  · simp only [if_pos hdd]
    exact .of_bind (search_yields hsafe) (adjustDurationSaving_yields _)
  · simp only [if_neg hdd]
    exact adjustDurationSaving_yields f

theorem computeTriggerSaving_yields {today : ℤ} (hsafe : Safe e P t tim) :
    Yields P (computeTrigger e today t tim) (computeTriggerSaving e false today t tim) :=
  .of_bind (search_yields hsafe)
    (computeTriggerRestSaving_yields (hsafe.congr computeTriggerNoAdjustDuration_searched))

end Kept

/-! ### A trigger without a date -/

section NoDate

variable {e : RemEnv Id} {t : Trigger} {tim : TimeTrig}

theorem acceptOrRescan_noDate {today dur start ns r : ℤ} {o : Bool} {again : ℤ → ℤ → Id Found}
    (hr : r + dur < today) (h : ∀ s ns, start < s → (again s ns : Found).result = -1) :
    (acceptOrRescan (m := Id) t today dur start ns r o again : Found).result = -1 := by
  unfold acceptOrRescan
  rw [if_neg (by omega)]
  split_ifs
  · rfl
  · rfl
  · exact h _ _ (by omega)

theorem searchLoop_noDate {today dur : ℤ} {k : ℕ} {start ns sns : ℤ} (hno : ¬ HasDate e t tim)
    (hallow : ∀ s, 0 ≤ s → searchAllowed e t s tim 0 = true) (hs : 0 ≤ start)
    (hdur : 0 ≤ today - dur) :
    (searchLoop e.env tim today dur k t start ns sns : Found).result = -1 := by
  induction k generalizing t start ns sns with
  | zero => rfl
  | succ k ih =>
    unfold searchLoop
    simp only [bind]
    rcases hget : getNextTriggerDate e.env t start ns with r' | ⟨r, ns'⟩
    · rfl
    dsimp only
    split_ifs with hr
    · rfl
    rcases hskip : skipOmitted e.env t r with r' | o
    · rfl
    dsimp only
    have hr0 : r < 0 := by
      by_contra hge
      exact hno ⟨start, r, hallow start hs, firstLook_eq hget hr hskip, by omega⟩
    have hagain : ∀ t' s ns sns, t'.searched = t.searched → start < s →
        (searchLoop e.env tim today dur k t' s ns sns : Found).result = -1 :=
      fun t' s ns sns ht' hlt => ih (by rwa [hasDate_congr ht'])
        (fun s hs => (searchAllowed_congr ht' s 0).trans (hallow s hs)) (by omega)
    unfold tryDate
    by_cases htz : t.tz = none
    · rw [if_pos htz]
      exact acceptOrRescan_noDate (by omega) fun s ns hlt => hagain t s ns _ rfl hlt
    · rw [if_neg htz]
      have hv : (e.env.viewLocally t tim r).trig.searched = t.searched := viewLocally_searched r
      simp only [bind]
      split_ifs
      · rfl
      · exact hagain _ _ _ _ hv (by omega)
      · exact acceptOrRescan_noDate (by omega) fun s ns hlt => hagain _ s ns _ hv hlt

theorem search_noDate {today dur : ℤ} (hno : ¬ HasDate e t tim) :
    (computeTriggerNoAdjustDuration e.env t today tim dur : Found).result = -1 ∧
      ((computeTriggerNoAdjustDuration e.env t today tim dur : Found).err = none →
        0 ≤ today - dur) := by
  unfold computeTriggerNoAdjustDuration
  rw [show e.env.weekdayOmits = e.weekdayOmits from rfl]
  split_ifs with h1 h2 h3 h4
  · exact ⟨rfl, nofun⟩
  · exact ⟨rfl, nofun⟩
  · exact ⟨rfl, nofun⟩
  · exact ⟨rfl, nofun⟩
  · have hallow : searchAllowed e t today tim dur = true := by
      unfold searchAllowed
      simp only [h1, h2, h3, h4]
      rfl
    refine ⟨searchLoop_noDate (t := t.unexpired) ?_ (fun s hs => ?_) (by omega) (by omega),
      fun _ => by omega⟩
    · rwa [@hasDate_congr e t tim t.unexpired rfl]
    · exact (@searchAllowed_congr e t tim t.unexpired rfl s 0).trans (searchAllowed_from hallow hs)

/-- `ComputeTrigger` gives it no date either. -/
theorem computeTrigger_noDate {today : ℤ} (hno : ¬ HasDate e t tim) :
    (computeTrigger e today t tim : Computed).result = -1 := by
  obtain ⟨hres, hstart⟩ := @search_noDate e t tim today 0 hno
  have hsearched : (computeTriggerNoAdjustDuration e.env t today tim 0 : Found).trig.searched =
      t.searched := computeTriggerNoAdjustDuration_searched
  change (computeTriggerRest e today tim
    (computeTriggerNoAdjustDuration e.env t today tim 0) : Computed).result = -1
  generalize (computeTriggerNoAdjustDuration e.env t today tim 0 : Found) = f
    at hres hstart hsearched
  unfold computeTriggerRest
  by_cases herr : f.err ≠ none
  · rw [if_pos herr]
    exact hres
  have htoday := hstart (not_not.mp herr)
  rw [if_neg herr, if_neg (by omega)]
  simp only [bind]
  have hadjust : ∀ f : Found, f.result = -1 → f.trig.durationDays ≤ today →
      (adjustTriggerForDuration today f.result f.trig tim).2.2 = -1 := by
    intro f hf hdd
    unfold adjustTriggerForDuration
    rw [hf, if_neg (by omega)]
  by_cases hdd : f.trig.durationDays ≠ 0
  · rw [if_pos hdd]
    have hno' : ¬ HasDate e f.trig tim := by rwa [hasDate_congr hsearched]
    have hsearched' : (computeTriggerNoAdjustDuration e.env f.trig today tim
        f.trig.durationDays : Found).trig.searched = f.trig.searched :=
      computeTriggerNoAdjustDuration_searched
    obtain ⟨hres', hstart'⟩ := @search_noDate e f.trig tim today f.trig.durationDays hno'
    generalize (computeTriggerNoAdjustDuration e.env f.trig today tim
      f.trig.durationDays : Found) = f' at hres' hstart' hsearched'
    have hdd' : f'.trig.durationDays = f.trig.durationDays :=
      show f'.trig.searched.durationDays = f.trig.searched.durationDays by rw [hsearched']
    split_ifs with herr'
    · exact hres'
    · exact hadjust f' hres' (by have := hstart' (not_not.mp herr'); omega)
  · rw [if_neg hdd]
    split_ifs
    · exact hres
    · exact hadjust f hres (by omega)

end NoDate

/-! ### The functions -/

/-- The computation leaves the last trigger as it was, whatever that is. -/
def Undisturbed {α : Type} (x : StateM LastInfo α) : Prop := ∀ g, (x g).2 = g

/-- The argument is not accepted, has no TZ clause or has no date from day 0 on. -/
def Quiet (e : RemEnv Id) (parseRem : String → Except ErrCode (Trigger × TimeTrig)) (s : String) :
    Prop :=
  ∀ t tim, parseTrigArg parseRem s = .ok (t, tim) → t.tz = none ∨ ¬ HasDate e t tim

section Functions

variable {e : RemEnv Id} {parseRem : String → Except ErrCode (Trigger × TimeTrig)} {today : ℤ}
  {P : LastInfo → Prop} {t : Trigger} {tim : TimeTrig}

theorem undisturbed_of_yields {α : Type} {x : StateM LastInfo α}
    (h : ∀ g, ∃ a, Yields (fun g' => g' = g) a x) : Undisturbed x := fun g =>
  (h g).choose_spec.state

theorem Quiet.safe {s : String} (h : Quiet e parseRem s)
    (hparse : parseTrigArg parseRem s = .ok (t, tim)) : Safe e P t tim := fun htz =>
  Or.inr ((h t tim hparse).resolve_left htz)

/-- The trigger that `ComputeTrigger` leaves is as safe. -/
theorem Safe.computed {today : ℤ} (hsafe : Safe e P t tim) :
    (computeTrigger e today t tim : Computed).trig.tz ≠ none →
      0 ≤ (computeTrigger e today t tim : Computed).result →
      ∀ g t' tim' n, P g → t'.tz = (computeTrigger e today t tim : Computed).trig.tz →
        P (saveAllTriggerInfo t' tim' n tim'.ttime true g) := by
  have htz : (computeTrigger e today t tim : Computed).trig.tz = t.tz :=
    show (computeTrigger e today t tim : Computed).trig.clauses.tz = t.clauses.tz by
      rw [computeTrigger_clauses]
  rw [htz]
  intro hne hres
  refine (hsafe hne).resolve_right fun hno => ?_
  rw [computeTrigger_noDate hno] at hres
  omega

theorem evalTrigResult_yields {c : Computed}
    (h : c.trig.tz ≠ none → 0 ≤ c.result → ∀ g t' tim' n, P g → t'.tz = c.trig.tz →
      P (saveAllTriggerInfo t' tim' n tim'.ttime true g)) :
    ∃ a, Yields P a (evalTrigResult e c) := by
  unfold evalTrigResult
  by_cases hmaybe : c.err = some .cantTrig ∧ c.trig.maybeUncomputable = true
  · rw [if_pos hmaybe]
    exact ⟨_, .of_pure _⟩
  rw [if_neg hmaybe]
  split
  · exact ⟨_, .of_pure _⟩
  · split_ifs
    · exact ⟨_, .of_pure _⟩
    · split
      · exact ⟨_, .of_pure _⟩
      · exact ⟨_, .of_bind (adjustTriggerSaving_yields h) (.of_pure _)⟩

theorem evalTrig_yields {s : String}
    (hsafe : ∀ t tim, parseTrigArg parseRem s = .ok (t, tim) → Safe e P t tim)
    (scanfrom : Option ℤ) : ∃ a, Yields P a (evalTrig e parseRem s scanfrom) := by
  unfold evalTrig
  rcases hparse : parseTrigArg parseRem s with r | ⟨t, tim⟩
  · exact ⟨_, .of_pure _⟩
  · have h := hsafe t tim hparse
    obtain ⟨a, ha⟩ := evalTrigResult_yields (e := e) h.computed
    exact ⟨a, .of_bind (computeTriggerSaving_yields h) ha⟩

theorem multiTrigLoop_keeps {args : List String} (earliest : ℤ)
    (hsafe : ∀ s ∈ args, ∀ t tim, parseTrigArg parseRem s = .ok (t, tim) → Safe e P t tim) :
    ∃ a, Yields P a (multiTrigLoop e parseRem today args earliest) := by
  induction args generalizing earliest with
  | nil => exact ⟨_, .of_pure _⟩
  | cons s args ih =>
    unfold multiTrigLoop
    rcases hparse : parseTrigArg parseRem s with r | ⟨t, tim⟩
    · exact ⟨_, .of_pure _⟩
    · dsimp only
      split_ifs
      · exact ⟨_, .of_pure _⟩
      · have h := hsafe s List.mem_cons_self t tim hparse
        obtain ⟨a, ha⟩ := ih _ fun s' hs' => hsafe s' (List.mem_cons_of_mem _ hs')
        exact ⟨a, .of_bind (computeTriggerSaving_yields h) ha⟩

theorem trigLoop_keeps {args : List String} (lastTrig : ℤ)
    (hsafe : ∀ s ∈ args, ∀ t tim, parseTrigArg parseRem s = .ok (t, tim) → Safe e P t tim) :
    ∃ a, Yields P a (trigLoop e parseRem lastTrig args) := by
  induction args with
  | nil => exact ⟨_, .of_pure _⟩
  | cons s args ih =>
    obtain ⟨a, ha⟩ := ih fun s' hs' => hsafe s' (List.mem_cons_of_mem _ hs')
    unfold trigLoop
    rcases hparse : parseTrigArg parseRem s with r | ⟨t, tim⟩
    · exact ⟨_, .of_pure _⟩
    · have h := hsafe s List.mem_cons_self t tim hparse
      have hrest : ∀ c : Computed, (c.trig.tz ≠ none → 0 ≤ c.result → ∀ g t' tim' n, P g →
          t'.tz = c.trig.tz → P (saveAllTriggerInfo t' tim' n tim'.ttime true g)) →
          ∃ b, Yields P b (if c.err = some .cantTrig then trigLoop e parseRem lastTrig args
            else do
              let adj ← adjustTriggerSaving e c.trig c.tim c.result
              let triggers : Bool :=
                shouldTriggerReminder e adj.1 adj.2.1 (e.exitTimezone t.tz) adj.2.2
              if triggers then return (.ok adj.2.2, adj.2.2)
              else trigLoop e parseRem lastTrig args) := by
        intro c hc
        split_ifs
        · exact ⟨a, ha⟩
        · have hadj := @adjustTriggerSaving_yields e _ _ c.tim _ hc
          generalize adjustTriggerForTimeZone e c.trig c.tim c.result = adj at hadj
          by_cases htrig : (shouldTriggerReminder e adj.1 adj.2.1 (e.exitTimezone t.tz) adj.2.2 :
              Bool) = true
          · exact ⟨_, .of_bind hadj (by simp only [htrig, if_true]; exact .of_pure _)⟩
          · exact ⟨a, .of_bind hadj (by simp only [if_neg htrig]; exact ha)⟩
      obtain ⟨b, hb⟩ := hrest _ h.computed
      exact ⟨b, .of_bind (computeTriggerSaving_yields h) hb⟩

theorem evalTrig_undisturbed {s : String} (h : Quiet e parseRem s) (scanfrom : Option ℤ) :
    Undisturbed (evalTrig e parseRem s scanfrom) :=
  undisturbed_of_yields fun _ => evalTrig_yields (fun _ _ hparse => h.safe hparse) scanfrom

theorem strArgs_map (args : List String) : strArgs (args.map .str) = some args := by
  induction args with
  | nil => rfl
  | cons s args ih => rw [List.map_cons, strArgs, ih]; rfl

theorem fMultitrig_undisturbed {args : List String} (h : ∀ s ∈ args, Quiet e parseRem s) :
    Undisturbed (fMultitrig e parseRem today (args.map .str)) := by
  refine undisturbed_of_yields fun g => ?_
  obtain ⟨a, ha⟩ := @multiTrigLoop_keeps e _ today (fun g' => g' = g) _ (-1)
    fun s hs t tim hparse => (h s hs).safe hparse
  unfold fMultitrig
  rw [strArgs_map]
  rcases a with r | earliest
  · exact ⟨_, .of_bind ha (.of_pure _)⟩
  · exact ⟨_, .of_bind ha (.of_pure _)⟩

theorem fTrig_undisturbed {args : List String} (h : ∀ s ∈ args, Quiet e parseRem s)
    (lastTrig : ℤ) : Undisturbed (fTrig e parseRem lastTrig (args.map .str)) := by
  refine undisturbed_of_yields fun g => ?_
  obtain ⟨a, ha⟩ := trigLoop_keeps (e := e) (P := fun g' => g' = g) lastTrig
    fun s hs t tim hparse => (h s hs).safe hparse
  unfold fTrig
  rw [strArgs_map]
  cases args with
  | nil => exact ⟨_, .of_pure _⟩
  | cons s args => exact ⟨_, .of_bind ha (.of_pure _)⟩

/-! ### A trigger with a TZ clause and a date -/

/-- The look at a date in the local zone saves the trigger. -/
theorem viewLocally_saves {r : ℤ}
    (hconv : ∀ ymd hour minute tz, (e.tzConvert ymd hour minute tz).isSome) (htz : t.tz ≠ none)
    (hr : 0 ≤ r) :
    Ends (fun _ => True) (e.env.viewLocally t tim r) (fun g => g.trigger.tz = t.tz)
      (e.saving.viewLocally t tim r) := by
  have hsave : Ends (fun _ => True) (adjustTriggerForTimeZone e t tim r)
      (fun g => g.trigger.tz = t.tz) (adjustTriggerSaving e t tim r) := by
    unfold adjustTriggerForTimeZone adjustTriggerSaving
    obtain ⟨tz, htz⟩ := Option.ne_none_iff_exists'.mp htz
    rw [htz]
    dsimp only
    rw [if_neg (by omega), if_neg (by omega)]
    obtain ⟨⟨ymd, hour, minute⟩, hsome⟩ := Option.isSome_iff_exists.mp
      (hconv (fromDSE r) (tim.ttimeOrig.getD 0 / 60) (tim.ttimeOrig.getD 0 % 60) tz)
    rw [hsome]
    intro g _
    refine ⟨rfl, ?_⟩
    change (saveAllTriggerInfo _ _ _ _ _ g).trigger.tz = _
    unfold saveAllTriggerInfo
    dsimp only
    split_ifs <;> rfl
  exact hsave.of_bind (Yields.of_pure _)

/-- What is saved for triggers in one zone is a trigger in that zone. -/
theorem safe_sameZone : Safe e (fun g => g.trigger.tz = t.tz) t tim := fun _ => by
  refine Or.inl fun g t' tim' n _ ht' => ?_
  unfold saveAllTriggerInfo
  dsimp only
  split_ifs <;> exact ht'

theorem search_saves {start r : ℤ}
    (hconv : ∀ ymd hour minute tz, (e.tzConvert ymd hour minute tz).isSome) (htz : t.tz ≠ none)
    (hallow : searchAllowed e t start tim 0 = true) (hlook : firstLook e t start = some r)
    (hr : 0 ≤ r) :
    Ends (fun _ => True) (computeTriggerNoAdjustDuration e.env t start tim 0)
      (fun g => g.trigger.tz = t.tz) (searchSaving e false t start tim 0) := by
  obtain ⟨ns', o, hget, hskip⟩ : ∃ ns' o, getNextTriggerDate e.env t start 0 = .ok (r, ns') ∧
      skipOmitted e.env t r = .ok o := by
    unfold firstLook at hlook
    rcases hget : getNextTriggerDate e.env t start 0 with r' | ⟨r', ns'⟩
    · rw [hget] at hlook
      cases hlook
    · rcases hskip : skipOmitted e.env t r' with r'' | o
      · simp only [hget, hskip] at hlook
        cases hlook
      · simp only [hget, hskip] at hlook
        cases hlook
        exact ⟨ns', o, rfl, hskip⟩
  have hun : t.unexpired.core = t.core := core_of_searched (t := t.unexpired) rfl
  refine search_ends (fun hnot => by rw [hallow] at hnot; cases hnot) fun _ => ?_
  rw [Int.sub_zero]
  refine searchLoop_ends (k := 499) (fun hnone => ?_) fun r' ns'' o' hget' hr' hskip' => ?_
  · refine absurd ?_ (hnone r ns' o ?_ (by omega))
    · exact (skipOmitted_congr hun r).trans hskip
    · exact (getNextTriggerDate_congr hun start 0).trans hget
  · rw [getNextTriggerDate_congr hun, hget] at hget'
    cases hget'
    have hallowed : ∀ s, 0 ≤ s → searchAllowed e t.unexpired s tim 0 = true := fun s hs =>
      (@searchAllowed_congr e t tim t.unexpired rfl s 0).trans (searchAllowed_from hallow hs)
    have hstart : 0 ≤ start := by
      unfold searchAllowed at hallow
      simp only [Bool.not_eq_true', Bool.or_eq_false_iff, decide_eq_false_iff_not] at hallow
      omega
    exact tryDate_ends (t := t.unexpired) htz (viewLocally_saves hconv htz hr)
      fun t' s ns sns ht' hlt => searchLoop_yields
        (Safe.congr ht' (safe_sameZone (t := t.unexpired)))
        (fun s hs => (searchAllowed_congr ht' s 0).trans (hallowed s hs)) (by omega)

/-- The trigger is what evaltrig() leaves, where it is scanned from such a day. -/
theorem evalTrig_saves {s : String} {start r : ℤ}
    (hconv : ∀ ymd hour minute tz, (e.tzConvert ymd hour minute tz).isSome)
    (hparse : parseTrigArg parseRem s = .ok (t, tim)) (htz : t.tz ≠ none)
    (hallow : searchAllowed e t start tim 0 = true) (hlook : firstLook e t start = some r)
    (hr : 0 ≤ r) (g : LastInfo) : (evalTrig e parseRem s (some start) g).2.trigger.tz = t.tz := by
  have hsafe : Safe e (fun g => g.trigger.tz = t.tz) t tim := safe_sameZone
  have hcompute : Ends (fun _ => True) (computeTrigger e start t tim)
      (fun g => g.trigger.tz = t.tz) (computeTriggerSaving e false start t tim) :=
    Ends.of_bind (search_saves hconv htz hallow hlook hr)
      (computeTriggerRestSaving_yields (hsafe.congr computeTriggerNoAdjustDuration_searched))
  obtain ⟨a, ha⟩ := @evalTrigResult_yields e _ _ (@Safe.computed _ _ _ _ start hsafe)
  unfold evalTrig
  rw [hparse]
  exact ((Ends.of_bind hcompute ha) g trivial).2

end Functions

/-- `ParseRem` on a full date, with and without a time in a zone. -/
def parseZoned (s : String) : Except ErrCode (Trigger × TimeTrig) :=
  if s = "5 Jan 2026" then .ok ({ d := some 5, m := some 0, y := some 2026 }, {})
  else if s = "5 Jan 2026 AT 12:00 TZ Europe/Paris" then
    .ok ({ d := some 5, m := some 0, y := some 2026, tz := some "Europe/Paris" },
      { ttime := some 720, ttimeOrig := some 720 })
  else .error .parseErr

end Remind
