import Remind.DoRem
import Remind.SearchSound

/-!
# NoDate — reminders without a trigger date

`DoRem`, `DoIfTrig` and `DoCalRem` pass the date -1 on as if it were a date.  It is never queued and
never added to the OMIT context; it triggers exactly when `OverdueGone` holds, as a TODO that is
overdue since the day before the first one.
-/

namespace Remind

/-- What `ParseRem` guarantees of the numbers in a line. -/
structure RemLine.Parsed (l : RemLine) : Prop extends l.trig.Parsed where
  complete : ∀ c, l.trig.completeThrough = some c → 0 ≤ c
  attime : ∀ ttime, l.tim.ttime = some ttime → ttime < minutesPerDay

/-- A trigger without what the search writes into it. -/
def Trigger.searched (t : Trigger) : Trigger := { t with eventstart := none, expired := false }

/-- A trigger without what `ComputeTrigger` writes into it. -/
def Trigger.clauses (t : Trigger) : Trigger :=
  { t.searched with eventstartOrig := none, eventduration := none }

/-- The date -1 counts as overdue. -/
structure OverdueGone (e : RemEnv Id) (t : Trigger) (today : ℤ) : Prop where
  todo : t.isTodo = true
  notCal : (e.modes.calmode && !e.modes.hideCompletedTodos) = false
  incomplete : t.completeThrough = none
  notTooLate : ∀ x, t.maxOverdue = some x → today < x
  notOnce : onceDone e t today = false

section Clauses

variable {e : RemEnv Id} {t t' : Trigger} {tim : TimeTrig}

theorem adjustTriggerForTimeZone_searched (n : ℤ) :
    (adjustTriggerForTimeZone e t tim n).1.searched = t.searched := by
  unfold adjustTriggerForTimeZone
  split
  · rfl
  · split_ifs
    · rfl
    · simp only
      split <;> rfl

theorem clauses_of_searched (h : t.searched = t'.searched) : t.clauses = t'.clauses := by
  unfold Trigger.clauses
  rw [h]

theorem setEvent_clauses (n : ℤ) : (setEvent t tim n).clauses = t.clauses := by
  unfold setEvent
  split <;> rfl

theorem acceptOrRescan_searched {today dur start ns r : ℤ} {o : Bool} {again : ℤ → ℤ → Id Found}
    (hagain : ∀ a b, (again a b).trig.searched = t.searched) :
    (acceptOrRescan (m := Id) t today dur start ns r o again).trig.searched = t.searched := by
  unfold acceptOrRescan
  split_ifs
  · rfl
  · rfl
  · rfl
  · exact hagain _ _

theorem viewLocally_searched (n : ℤ) : (e.env.viewLocally t tim n).trig.searched = t.searched :=
  adjustTriggerForTimeZone_searched n

theorem tryDate_searched {today dur start ns sns r : ℤ} {o : Bool}
    {again : Trigger → ℤ → ℤ → ℤ → Id Found}
    (hagain : ∀ t a b c, (again t a b c).trig.searched = t.searched) :
    (tryDate e.env tim t today dur start ns sns r o again).trig.searched = t.searched := by
  have hv : (e.env.viewLocally t tim r).trig.searched = t.searched := viewLocally_searched r
  unfold tryDate
  by_cases htz : t.tz = none
  · rw [if_pos htz]
    exact acceptOrRescan_searched fun a b => hagain t a b _
  · rw [if_neg htz]
    simp only [bind]
    generalize e.env.viewLocally t tim r = v at *
    by_cases hretry : (t.scanfrom = none ∧ v.newResult < v.dseToday) ∨
        (r + dur ≥ today ∧ v.newResult + dur < today)
    · rw [if_pos hretry]
      by_cases hns : ns ≤ sns
      · rw [if_pos hns]
        exact hv
      · rw [if_neg hns]
        exact (hagain _ _ _ _).trans hv
    · rw [if_neg hretry]
      exact (acceptOrRescan_searched fun a b => hagain _ a b _).trans hv

/-- The search changes nothing of a trigger but the event data and the expired mark. -/
theorem searchLoop_searched {today dur start ns sns : ℤ} {n : ℕ} :
    (searchLoop e.env tim today dur n t start ns sns).trig.searched = t.searched := by
  induction n generalizing t start ns sns with
  | zero => rfl
  | succ n ih =>
    unfold searchLoop
    rcases getNextTriggerDate e.env t start ns with r | ⟨r, ns'⟩
    · rfl
    simp only [bind]
    split_ifs with hneg
    · rfl
    · rcases skipOmitted e.env t r with r' | o
      · rfl
      · exact tryDate_searched fun t a b c => ih

theorem computeTriggerNoAdjustDuration_searched {today dur : ℤ} :
    (computeTriggerNoAdjustDuration e.env t today tim dur).trig.searched = t.searched := by
  unfold computeTriggerNoAdjustDuration
  split_ifs
  · rfl
  · rfl
  · rfl
  · rfl
  · exact searchLoop_searched

theorem adjustTriggerForDuration_clauses (today n : ℤ) :
    (adjustTriggerForDuration today n t tim).1.clauses = t.clauses := by
  unfold adjustTriggerForDuration
  split_ifs
  · exact setEvent_clauses n
  · exact setEvent_clauses n

theorem computeTrigger_clauses {today : ℤ} :
    (computeTrigger e today t tim).trig.clauses = t.clauses := by
  have hsearch : ∀ t' d, (computeTriggerNoAdjustDuration e.env t' today tim d).trig.clauses =
      t'.clauses := fun t' d => clauses_of_searched computeTriggerNoAdjustDuration_searched
  have h1 := hsearch t 0
  unfold computeTrigger computeTriggerRest
  simp only [bind, pure]
  generalize computeTriggerNoAdjustDuration e.env t today tim 0 = f at *
  split_ifs
  · exact h1
  · exact (setEvent_clauses _).trans h1
  · exact (hsearch _ _).trans h1
  · exact (adjustTriggerForDuration_clauses _ _).trans ((hsearch _ _).trans h1)
  · exact (adjustTriggerForDuration_clauses _ _).trans h1

/-- ComputeTrigger leaves the time alone when it finds no date. -/
theorem computeTrigger_tim {today : ℤ} {f : Computed} (h : computeTrigger e today t tim = f)
    (herr : f.err = none) (hneg : f.result = -1) : f.tim = tim := by
  have hstart : ∀ t' d g, computeTriggerNoAdjustDuration e.env t' today tim d = g → g.err = none →
      0 ≤ today - d := fun t' d g hg hge => (computeTriggerNoAdjustDuration_ok hg hge).1
  have hadj : ∀ r t', (adjustTriggerForDuration today r t' tim).2.2 = -1 → 0 ≤ today →
      (adjustTriggerForDuration today r t' tim).2.1 = tim := by
    intro r t' h1 h2
    unfold adjustTriggerForDuration at h1 ⊢
    split_ifs with hmove
    · rw [if_pos hmove] at h1
      simp only at h1
      omega
    · rfl
  unfold computeTrigger computeTriggerRest at h
  simp only [bind, pure] at h
  have hs := hstart t 0
  generalize computeTriggerNoAdjustDuration e.env t today tim 0 = g at *
  split_ifs at h <;> subst h
  · rfl
  · rfl
  · rfl
  · exact hadj _ _ hneg (by have := hs g rfl (by tauto); omega)
  · exact hadj _ _ hneg (by have := hs g rfl (by tauto); omega)

end Clauses

section Gone

variable {e : RemEnv Id} {t : Trigger} {tim : TimeTrig} {today : ℤ}

theorem pastDecision_gone (h0 : 0 ≤ today) (hc : ∀ c, t.completeThrough = some c → 0 ≤ c) :
    ∃ b, pastDecision e t today (-1) = some b ∧
      (b = true ↔ t.isTodo = true ∧ (e.modes.calmode && !e.modes.hideCompletedTodos) = false ∧
        t.completeThrough = none ∧ ∀ x, t.maxOverdue = some x → today < x) := by
  unfold pastDecision
  by_cases htodo : (t.isTodo && !(e.modes.calmode && !e.modes.hideCompletedTodos)) = true
  · rw [if_pos htodo]
    rw [Bool.and_eq_true, Bool.not_eq_true'] at htodo
    rcases hcomp : t.completeThrough with _ | c
    · rcases hmax : t.maxOverdue with _ | x
      · exact ⟨true, by simp [todoOverdue, hcomp, hmax]; omega, by simp [htodo]⟩
      · refine ⟨decide (¬ -1 + x < today), by simp [todoOverdue, hcomp, hmax]; omega, ?_⟩
        simp only [decide_eq_true_eq, htodo, true_and, Option.some.injEq, forall_eq']
        omega
    · have := hc c hcomp
      refine ⟨false, ?_, by simp⟩
      simp only [decide_eq_true_eq]
      split_ifs
      · rfl
      · unfold todoOverdue
        rw [hcomp]
        simp only [decide_eq_true_eq]
        rw [if_neg (by omega)]
  · rw [if_neg htodo, if_pos (by omega)]
    refine ⟨false, rfl, by simp, ?_⟩
    rintro ⟨h1, h2, -⟩
    exact (htodo (by rw [h1, h2]; rfl)).elim

theorem shouldTriggerReminder_gone (h0 : 0 ≤ today)
    (hc : ∀ c, t.completeThrough = some c → 0 ≤ c) :
    shouldTriggerReminder e t tim today (-1) = true ↔ OverdueGone e t today := by
  obtain ⟨b, hb, hiff⟩ := pastDecision_gone (e := e) h0 hc
  unfold shouldTriggerReminder
  by_cases honce : onceDone e t today = true
  · rw [if_pos honce]
    constructor
    · intro h
      cases h
    · intro h
      rw [h.notOnce] at honce
      cases honce
  · rw [if_neg honce, hb]
    constructor
    · intro h
      obtain ⟨h1, h2, h3, h4⟩ := hiff.mp h
      exact ⟨h1, h2, h3, h4, by simpa using honce⟩
    · exact fun h => hiff.mpr ⟨h.todo, h.notCal, h.incomplete, h.notTooLate⟩

theorem shouldQueueReminder_gone (h0 : 0 ≤ today) (hnow : 0 ≤ e.modes.minutesPastMidnight)
    (hat : ∀ ttime, tim.ttime = some ttime → ttime < minutesPerDay) :
    shouldQueueReminder e t tim today (-1) = false := by
  unfold shouldQueueReminder
  rcases htt : tim.ttime with _ | ttime
  · rfl
  · have := hat ttime htt
    simp only
    split_ifs with h1 h2
    · rfl
    · rfl
    · unfold minutesPerDay at *
      omega
    · unfold minutesPerDay at *
      omega

theorem OverdueGone.congr {t' : Trigger} (h : t.clauses = t'.clauses) :
    OverdueGone e t today ↔ OverdueGone e t' today := by
  have key : ∀ {u u' : Trigger}, u.clauses = u'.clauses → OverdueGone e u today →
      OverdueGone e u' today := by
    intro u u' hu ho
    have htodo : u.isTodo = u'.isTodo := show u.clauses.isTodo = u'.clauses.isTodo by rw [hu]
    have hcomp : u.completeThrough = u'.completeThrough :=
      show u.clauses.completeThrough = u'.clauses.completeThrough by rw [hu]
    have hmax : u.maxOverdue = u'.maxOverdue :=
      show u.clauses.maxOverdue = u'.clauses.maxOverdue by rw [hu]
    have honce : u.once = u'.once := show u.clauses.once = u'.clauses.once by rw [hu]
    refine ⟨htodo ▸ ho.todo, ho.notCal, hcomp ▸ ho.incomplete, fun x hx => ?_, ?_⟩
    · exact ho.notTooLate x (hmax.trans hx)
    · have := ho.notOnce
      unfold onceDone at this ⊢
      rwa [← honce]
  exact ⟨key h, key h.symm⟩

theorem todoFiltered_congr {t' : Trigger} (h : t.clauses = t'.clauses) :
    todoFiltered e t = todoFiltered e t' := by
  have : t.isTodo = t'.isTodo := show t.clauses.isTodo = t'.clauses.isTodo by rw [h]
  unfold todoFiltered
  rw [this]

theorem addOmit_gone (c : OmitContext) (t : Trigger) : addOmit c t (-1) = (c, none) := by
  unfold addOmit
  split_ifs <;> rfl

end Gone

section Callers

variable {e : IssueEnv Id} {l : RemLine} {c : OmitContext} {t : Trigger} {tim : TimeTrig}
  {f : Computed} {today : ℤ}

theorem localFiring_gone (t : Trigger) (tim : TimeTrig) :
    localFiring e t tim (-1) = ⟨t, tim, -1⟩ := by
  unfold localFiring adjustTriggerForTimeZone
  rcases t.tz with _ | tz
  · rfl
  · simp only
    rw [if_pos (by omega)]

/-- What the three callers hand on when `ComputeTrigger` finds no date. -/
theorem computeInTimezone_gone (h : computeInTimezone e.toRemEnv t tim = (f, today))
    (herr : f.err = none) (hneg : f.result = -1) : f.trig.clauses = t.clauses ∧ f.tim = tim := by
  unfold computeInTimezone at h
  simp only [bind, pure] at h
  obtain ⟨rfl, -⟩ := Prod.mk.inj h
  exact ⟨computeTrigger_clauses, computeTrigger_tim rfl herr hneg⟩

/-- `DoRem` issues a reminder without a date. -/
structure RemIssues (e : IssueEnv Id) (l : RemLine) (today : ℤ) : Prop where
  overdue : OverdueGone e.toRemEnv l.trig today
  accepted : remError l = none
  notPurge : e.modes.purgeMode = false
  notDaemon : e.modes.daemon = false
  notFiltered : todoFiltered e.toRemEnv l.trig = false

theorem decideRem_gone {o : RemOutcome} (h0 : 0 ≤ today)
    (hnow : 0 ≤ e.modes.minutesPastMidnight) (hc : ∀ c, t.completeThrough = some c → 0 ≤ c)
    (hat : ∀ ttime, tim.ttime = some ttime → ttime < minutesPerDay)
    (h : decideRem e c today t tim (-1) = o) :
    o.queued = false ∧ o.omits = c ∧
      (o.issued = true ↔ OverdueGone e.toRemEnv t today ∧ e.modes.purgeMode = false ∧
        e.modes.daemon = false ∧ todoFiltered e.toRemEnv t = false) := by
  have htrig : shouldTriggerReminder e.toRemEnv t tim today (-1) = true ↔
      OverdueGone e.toRemEnv t today := shouldTriggerReminder_gone h0 hc
  unfold decideRem decideLocal issueRem at h
  simp only [localFiring_gone, addOmit_gone, bind, pure, shouldQueueReminder_gone h0 hnow hat] at h
  generalize shouldTriggerReminder e.toRemEnv t tim today (-1) = b at *
  by_cases hp : e.modes.purgeMode = true
  · rw [if_pos hp] at h
    subst h
    exact ⟨rfl, rfl, by simp [hp]⟩
  rw [if_neg hp] at h
  by_cases hd : e.modes.daemon = true
  · rw [if_pos hd] at h
    subst h
    exact ⟨rfl, rfl, by simp [hd]⟩
  rw [if_neg hd] at h
  cases b with
  | false =>
    simp only [Bool.false_eq_true, if_false] at h
    have hno : ¬ OverdueGone e.toRemEnv t today := fun ho => by cases htrig.mpr ho
    split_ifs at h <;> subst h <;> exact ⟨rfl, rfl, by simp [hno]⟩
  | true =>
    simp only [if_true] at h
    by_cases hf : todoFiltered e.toRemEnv t = true
    · rw [if_pos hf] at h
      subst h
      exact ⟨rfl, rfl, by simp [hf]⟩
    · rw [if_neg hf] at h
      subst h
      exact ⟨rfl, rfl, by simp [hp, hd, hf, htrig.mp rfl]⟩

/-- `dropEmptyTz` and the search change nothing that the decisions look at. -/
theorem computed_congr (e : IssueEnv Id) (today : ℤ)
    (h : f.trig.clauses = (dropEmptyTz t).clauses) :
    f.trig.completeThrough = t.completeThrough ∧
      (OverdueGone e.toRemEnv f.trig today ↔ OverdueGone e.toRemEnv t today) ∧
      todoFiltered e.toRemEnv f.trig = todoFiltered e.toRemEnv t := by
  have hdrop : ∀ u, OverdueGone e.toRemEnv (dropEmptyTz u) today ↔
      OverdueGone e.toRemEnv u today := by
    intro u
    unfold dropEmptyTz
    split_ifs
    · exact ⟨fun ho => ⟨ho.todo, ho.notCal, ho.incomplete, ho.notTooLate, ho.notOnce⟩,
        fun ho => ⟨ho.todo, ho.notCal, ho.incomplete, ho.notTooLate, ho.notOnce⟩⟩
    · exact Iff.rfl
  have hcomp : (dropEmptyTz t).completeThrough = t.completeThrough := by
    unfold dropEmptyTz
    split_ifs <;> rfl
  have hfilt : todoFiltered e.toRemEnv (dropEmptyTz t) = todoFiltered e.toRemEnv t := by
    unfold dropEmptyTz
    split_ifs <;> rfl
  refine ⟨?_, (OverdueGone.congr h).trans (hdrop t), (todoFiltered_congr h).trans hfilt⟩
  rw [← hcomp]
  exact show f.trig.clauses.completeThrough = (dropEmptyTz t).clauses.completeThrough by rw [h]

theorem doRem_gone {o : RemOutcome} (hl : l.Parsed) (hsat : l.trig.typ ≠ .sat) (h0 : 0 ≤ today)
    (hnow : 0 ≤ e.modes.minutesPastMidnight)
    (hf : computeInTimezone e.toRemEnv (dropEmptyTz l.trig) l.tim = (f, today))
    (herr : f.err = none) (hneg : f.result = -1) (h : doRem e c l = o) :
    o.queued = false ∧ o.omits = c ∧ (o.issued = true ↔ RemIssues e l today) := by
  obtain ⟨hclauses, htim⟩ := computeInTimezone_gone hf herr hneg
  obtain ⟨hcomp, hover, hfilt⟩ := computed_congr e today hclauses
  unfold doRem at h
  rcases hre : remError l with _ | r
  · simp only [hre, if_neg hsat, hf, bind, herr, hneg] at h
    obtain ⟨h1, h2, h3⟩ := decideRem_gone h0 hnow (by rw [hcomp]; exact hl.complete)
      (by rw [htim]; exact hl.attime) h
    refine ⟨h1, h2, h3.trans ?_⟩
    rw [hover, hfilt]
    exact ⟨fun ⟨a, b, d, g⟩ => ⟨a, hre, b, d, g⟩,
      fun hr => ⟨hr.overdue, hr.notPurge, hr.notDaemon, hr.notFiltered⟩⟩
  · simp only [hre, pure] at h
    subst h
    refine ⟨rfl, rfl, (fun hi => by cases hi), fun hr => ?_⟩
    rw [hr.accepted] at hre
    cases hre

/-- `DoIfTrig` executes a block without a date. -/
theorem doIfTrig_gone (hl : l.Parsed) (h0 : 0 ≤ today)
    (hf : computeInTimezone e.toRemEnv l.trig l.tim = (f, today)) (herr : f.err = none)
    (hneg : f.result = -1) :
    doIfTrig e l = .ok true ↔ l.trig.typ = .noType ∧ OverdueGone e.toRemEnv l.trig today := by
  obtain ⟨hclauses, htim⟩ := computeInTimezone_gone hf herr hneg
  have hcomp : f.trig.completeThrough = l.trig.completeThrough :=
    show f.trig.clauses.completeThrough = l.trig.clauses.completeThrough by rw [hclauses]
  have htrig : shouldTriggerReminder e.toRemEnv f.trig f.tim today (-1) = true ↔
      OverdueGone e.toRemEnv f.trig today :=
    shouldTriggerReminder_gone h0 (by rw [hcomp]; exact hl.complete)
  unfold doIfTrig
  by_cases htyp : l.trig.typ = .noType
  · rw [if_neg (not_not.mpr htyp)]
    simp only [hf, bind, pure, herr, ne_eq, not_true_eq_false, if_false, hneg]
    rw [if_neg (by omega)]
    constructor
    · intro h
      exact ⟨htyp, (OverdueGone.congr hclauses).mp (htrig.mp (Except.ok.inj h))⟩
    · rintro ⟨-, ho⟩
      exact congrArg Except.ok (htrig.mpr ((OverdueGone.congr hclauses).mpr ho))
  · rw [if_pos htyp]
    constructor
    · intro h
      cases h
    · exact fun h => (htyp h.1).elim

/-- `DoCalRem` enters a reminder without a date, which the search has left as `f`. -/
structure CalEnters (e : IssueEnv Id) (l : RemLine) (f : Computed) (today : ℤ) : Prop where
  overdue : OverdueGone e.toRemEnv l.trig today
  accepted : calRemError l = none
  untriggered : e.modes.parseUntriggered = true
  delta : e.modes.doSimpleCalDelta = true
  drawn : notDrawn e f.trig f.tim = false
  color : isColor (psToPassthru f.trig) = true → e.parseColor = none
  text : ∃ text, e.doSubst (psToPassthru f.trig) f.tim (-1) = .ok text ∧ text ≠ "" ∧
    e.shouldDedupe (-1) f.tim.ttime text = false

theorem psToPassthru_clauses (e : IssueEnv Id) (today : ℤ) (t : Trigger) :
    OverdueGone e.toRemEnv (psToPassthru t) today ↔ OverdueGone e.toRemEnv t today := by
  unfold psToPassthru
  split <;> exact ⟨fun ho => ⟨ho.todo, ho.notCal, ho.incomplete, ho.notTooLate, ho.notOnce⟩,
    fun ho => ⟨ho.todo, ho.notCal, ho.incomplete, ho.notTooLate, ho.notOnce⟩⟩

theorem enterCalRem_entered (e : IssueEnv Id) (g : Firing) {stay : RemOutcome} (hstay : stay.entered = false) :
    (enterCalRem e g stay).omits = stay.omits ∧ (enterCalRem e g stay).queued = stay.queued ∧
      ((enterCalRem e g stay).entered = true ↔
        ∃ text, e.doSubst g.trig g.tim g.dse = .ok text ∧ text ≠ "" ∧
          e.shouldDedupe g.dse g.tim.ttime text = false) := by
  unfold enterCalRem
  rcases hs : e.doSubst g.trig g.tim g.dse with r | text
  · refine ⟨rfl, rfl, ?_⟩
    simp [hstay, bind, pure]
  · refine ⟨rfl, rfl, ?_⟩
    simp only [bind, pure, ne_eq, Bool.and_eq_true, decide_eq_true_eq, Bool.not_eq_true']
    constructor
    · exact fun h => ⟨text, rfl, h⟩
    · rintro ⟨text', h, h'⟩
      rwa [← Except.ok.inj h] at h'

theorem decideCalRem_gone {o : RemOutcome} (h0 : 0 ≤ today)
    (hc : ∀ c, t.completeThrough = some c → 0 ≤ c)
    (h : decideCalRem e c today t tim (-1) = o) :
    o.queued = false ∧ o.omits = c ∧
      (o.entered = true ↔ OverdueGone e.toRemEnv t today ∧ e.modes.doSimpleCalDelta = true ∧
        notDrawn e t tim = false ∧ (isColor (psToPassthru t) = true → e.parseColor = none) ∧
        ∃ text, e.doSubst (psToPassthru t) tim (-1) = .ok text ∧ text ≠ "" ∧
          e.shouldDedupe (-1) tim.ttime text = false) := by
  have hcomp : (psToPassthru t).completeThrough = t.completeThrough := by
    unfold psToPassthru
    split <;> rfl
  have htrig : shouldTriggerReminder e.toRemEnv (psToPassthru t) tim today (-1) = true ↔
      OverdueGone e.toRemEnv (psToPassthru t) today :=
    shouldTriggerReminder_gone h0 (by rw [hcomp]; exact hc)
  have hps := psToPassthru_clauses e today t
  have htoday : (-1 : ℤ) ≠ today := by omega
  unfold decideCalRem decideCalLocal at h
  simp only [localFiring_gone, addOmit_gone, bind, pure, entersToday, if_neg htoday] at h
  by_cases hd : notDrawn e t tim = true
  · rw [if_pos hd] at h
    subst h
    exact ⟨rfl, rfl, by simp [hd]⟩
  rw [if_neg hd] at h
  have hd' : notDrawn e t tim = false := by simpa using hd
  by_cases hcol : isColor (psToPassthru t) = true → e.parseColor = none
  · have hnone : (if isColor (psToPassthru t) = true then e.parseColor else none) = none := by
      split_ifs with hi
      · exact hcol hi
      · rfl
    rw [hnone] at h
    simp only at h
    by_cases hdelta : e.modes.doSimpleCalDelta = true
    · rw [if_pos hdelta] at h
      by_cases ho : OverdueGone e.toRemEnv t today
      · rw [if_pos (htrig.mpr (hps.mpr ho))] at h
        obtain ⟨h1, h2, h3⟩ := enterCalRem_entered e ⟨psToPassthru t, tim, -1⟩
          (show ({ omits := c, firing := some ⟨t, tim, -1⟩ } : RemOutcome).entered = false from rfl)
        rw [h] at h1 h2 h3
        refine ⟨h2, h1, h3.trans ?_⟩
        exact ⟨fun hx => ⟨ho, hdelta, hd', hcol, hx⟩, fun hx => hx.2.2.2.2⟩
      · rw [if_neg (fun hx => ho (hps.mp (htrig.mp hx)))] at h
        subst h
        exact ⟨rfl, rfl, by simp [ho]⟩
    · rw [if_neg hdelta, if_neg (by simp)] at h
      subst h
      exact ⟨rfl, rfl, by simp [hdelta]⟩
  · have hsome : ∃ r, (if isColor (psToPassthru t) = true then e.parseColor else none) = some r := by
      rw [Classical.not_imp] at hcol
      rw [if_pos hcol.1]
      exact Option.ne_none_iff_exists'.mp hcol.2
    obtain ⟨r, hr⟩ := hsome
    rw [hr] at h
    subst h
    exact ⟨rfl, rfl, by simp [hcol]⟩

theorem doCalRem_gone {o : RemOutcome} (hl : l.Parsed) (hsat : l.trig.typ ≠ .sat) (h0 : 0 ≤ today)
    (hf : computeInTimezone e.toRemEnv (dropEmptyTz l.trig) l.tim = (f, today))
    (herr : f.err = none) (hneg : f.result = -1) (h : doCalRem e c l = o) :
    o.queued = false ∧ o.omits = c ∧ (o.entered = true ↔ CalEnters e l f today) := by
  obtain ⟨hclauses, -⟩ := computeInTimezone_gone hf herr hneg
  obtain ⟨hcomp, hover, -⟩ := computed_congr e today hclauses
  unfold doCalRem at h
  rcases hre : calRemError l with _ | r
  · simp only [hre, if_neg hsat, hf, bind, herr, hneg, goCalRem] at h
    by_cases hun : e.modes.parseUntriggered = true
    · rw [if_neg (by simp [hun])] at h
      obtain ⟨h1, h2, h3⟩ := decideCalRem_gone h0 (by rw [hcomp]; exact hl.complete) h
      refine ⟨h1, h2, h3.trans ?_⟩
      rw [hover]
      exact ⟨fun ⟨a, b, d, g, k⟩ => ⟨a, hre, hun, b, d, g, k⟩,
        fun hr => ⟨hr.overdue, hr.delta, hr.drawn, hr.color, hr.text⟩⟩
    · rw [if_pos ⟨by omega, by simpa using hun⟩] at h
      subst h
      exact ⟨rfl, rfl, (fun hi => by cases hi), fun hr => (hun hr.untriggered).elim⟩
  · simp only [hre, pure] at h
    subst h
    refine ⟨rfl, rfl, (fun hi => by cases hi), fun hr => ?_⟩
    rw [hr.accepted] at hre
    cases hre

/-- **A reminder without a trigger date**, that is, `ComputeTrigger` returns -1 and no error: what
the three callers do with it. -/
theorem no_date_outcome (hl : l.Parsed) (hsat : l.trig.typ ≠ .sat)
    (hnow : 0 ≤ e.modes.minutesPastMidnight) (h0 : 0 ≤ today) (herr : f.err = none)
    (hneg : f.result = -1) :
    (computeInTimezone e.toRemEnv (dropEmptyTz l.trig) l.tim = (f, today) →
      (∀ o, doRem e c l = o →
        (o.issued = false ∧ o.queued = false ∧ o.omits = c ↔ ¬ RemIssues e l today)) ∧
      ∀ o, doCalRem e c l = o →
        (o.entered = false ∧ o.queued = false ∧ o.omits = c ↔ ¬ CalEnters e l f today)) ∧
    (computeInTimezone e.toRemEnv l.trig l.tim = (f, today) →
      (doIfTrig e l ≠ .ok true ↔
        ¬ (l.trig.typ = .noType ∧ OverdueGone e.toRemEnv l.trig today))) := by
  refine ⟨fun hf => ⟨fun o ho => ?_, fun o ho => ?_⟩, fun hf => ?_⟩
  · obtain ⟨h1, h2, h3⟩ := doRem_gone hl hsat h0 hnow hf herr hneg ho
    rw [← h3]
    simp [h1, h2]
  · obtain ⟨h1, h2, h3⟩ := doCalRem_gone hl hsat h0 hf herr hneg ho
    rw [← h3]
    simp [h1, h2]
  · exact not_congr (doIfTrig_gone hl h0 hf herr hneg)

end Callers

/-- A run on `today` in one time zone, without user functions and omitted days; every body is
"x". -/
def plainEnv (modes : Modes) (today : ℤ) : IssueEnv Id where
  modes := modes
  isOmitted _ _ _ := .ok false
  enterTimezone _ := today
  exitTimezone _ := today
  tzConvert ymd hour minute _ := some (ymd, hour, minute)
  userFuncExists _ := false
  evalUser _ _ := .error .cantTrig
  satisfy _ := .ok (.int 1)
  triggerReminder _ _ _ := none
  parseRest := none
  parseColor := none
  doSubst _ _ _ := .ok "x"
  shouldDedupe _ _ _ := false

/-- `REM TODO 2024-06-01 UNTIL 2024-05-01 MSG x` -/
def untilTodo : RemLine where
  trig := { d := some 1, m := some 5, y := some 2024, untilDate := some (dse 2024 4 1), typ := .msg,
            isTodo := true }
  tim := {}

/-- The same without TODO. -/
def untilEvent : RemLine := { untilTodo with trig := { untilTodo.trig with isTodo := false } }

theorem untilEvent_parsed : untilEvent.Parsed where
  day := by rintro d ⟨⟩; decide
  mon := by rintro m ⟨⟩; decide
  yr := by rintro y ⟨⟩; decide
  rep := by decide
  complete := by rintro c ⟨⟩
  attime := by rintro ttime ⟨⟩

theorem untilTodo_issued :
    (computeInTimezone (plainEnv {} (dse 2024 6 1)).toRemEnv (dropEmptyTz untilTodo.trig)
        untilTodo.tim).1.err = none ∧
      (computeInTimezone (plainEnv {} (dse 2024 6 1)).toRemEnv (dropEmptyTz untilTodo.trig)
        untilTodo.tim).1.result = -1 ∧
      (doRem (plainEnv {} (dse 2024 6 1)) {} untilTodo).issued = true :=
  ⟨by decide, by decide, by decide⟩

theorem no_date_outcome_event :
    (doRem (plainEnv {} (dse 2024 6 1)) {} untilEvent).issued = false := by
  have h := (no_date_outcome (e := plainEnv {} (dse 2024 6 1)) (c := {}) untilEvent_parsed
    (by decide) (by decide) (show 0 ≤ dse 2024 6 1 by decide) (by decide) (by decide)).1 rfl
  refine ((h.1 _ rfl).mpr fun hi => ?_).1
  exact absurd hi.overdue.todo (by decide)

end Remind
