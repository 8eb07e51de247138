import Mathlib
import Remind.Advance
import Remind.Duration
import Remind.NoDate

/-!
# Todo — the days on which a TODO is shown (dorem.c: `get_scanfrom`, `ShouldTriggerReminder`)

A TODO is looked for behind COMPLETE-THROUGH, from FROM or SCANFROM on, or from the first day on; none
of these moves with today.  So its date stays what it is until it is completed, and it is shown from
its advance warning until MAX-OVERDUE runs out.
-/

namespace Remind

/-- The walk of a later day is a part of the walk of an earlier one. -/
theorem deltaBack_later {e : RemEnv Id} {t : Trigger} {today later : ℤ} (hlater : today ≤ later)
    {k : ℕ} {r n n' : ℤ} (h : deltaBack e t today k r n = some n') (hn' : n' ≤ today) :
    ∃ x, deltaBack e t later k r n = some x ∧ x ≤ later := by
  induction k generalizing r n with
  | zero => cases h
  | succ k ih =>
    unfold deltaBack at h ⊢
    by_cases hnow : n ≤ later
    · rw [if_pos (Or.inr hnow)]
      exact ⟨n, rfl, hnow⟩
    by_cases hzero : r = 0
    · rw [if_pos (Or.inl hzero)] at h
      cases h
      exact absurd hn' (by omega)
    rw [if_neg (not_or.mpr ⟨hzero, by omega⟩)] at h
    rw [if_neg (not_or.mpr ⟨hzero, hnow⟩)]
    simp only [bind] at h ⊢
    rcases ho : e.isOmitted t.localomit t.omitfunc (n - 1) with err | omitted
    · rw [ho] at h
      cases h
    · rw [ho] at h
      exact ih h

/-- A TODO as `ParseRem` accepts it, without a time, TZ, ONCE, a WARN function and a relative
SCANFROM. -/
structure PlainTodo (t : Trigger) (tim : TimeTrig) : Prop where
  todo : t.isTodo = true
  untimed : tim.ttime = none
  noTz : t.tz = none
  noOnce : t.once = false
  noWarn : t.warn = ""
  days : t.durationDays = computeTrigDuration tim
  scanfrom : ∀ s, t.scanfrom = some s → 0 ≤ s
  oneScan : t.fromDate = none ∨ t.scanfrom = none
  overdue : ∀ k, t.maxOverdue = some k → 0 ≤ k

/-- What `ComputeTrigger` finds from `get_scanfrom` on. -/
def scanned (e : RemEnv Id) (t : Trigger) (tim : TimeTrig) (today : ℤ) : Computed :=
  computeTrigger e (getScanfrom e.modes.calmode today t) t tim

/-- On `today` the date `n` is found, and no error is reported. -/
def FindsOn (e : RemEnv Id) (t : Trigger) (tim : TimeTrig) (today n : ℤ) : Prop :=
  (scanned e t tim today).err = none ∧ (scanned e t tim today).result = n ∧ 0 ≤ n

/-- `ShouldTriggerReminder` on `today`, for what is found. -/
def TriggersOn (e : RemEnv Id) (t : Trigger) (tim : TimeTrig) (today : ℤ) : Prop :=
  shouldTriggerReminder e (scanned e t tim today).trig (scanned e t tim today).tim today
    (scanned e t tim today).result = true

section Scan

variable {e : RemEnv Id} {t : Trigger} {tim : TimeTrig} {today n : ℤ}

theorem PlainTodo.durationDays_eq (h : PlainTodo t tim) : t.durationDays = 0 := by
  rw [h.days, computeTrigDuration, h.untimed]

/-- Completion moves no clause of a plain TODO but itself. -/
theorem PlainTodo.complete (h : PlainTodo t tim) (c : ℤ) :
    PlainTodo { t with completeThrough := some c } tim :=
  ⟨h.todo, h.untimed, h.noTz, h.noOnce, h.noWarn, h.days, h.scanfrom, h.oneScan, h.overdue⟩

/-- The start of the scan, for an absolute SCANFROM that is not the first day. -/
def todoStart (t : Trigger) : ℤ :=
  match t.completeThrough, t.fromDate, t.scanfrom with
  | some c, none, none => c + 1
  | some c, some f, _ => max (c + 1) f
  | some c, none, some s => max (c + 1) s
  | none, f, s => f.getD (s.getD 0)

/-- `get_scanfrom` does not depend on today, unless SCANFROM is day 0. -/
theorem getScanfrom_todo (h : PlainTodo t tim) (hscan : t.scanfrom ≠ some 0) :
    getScanfrom false today t = todoStart t := by
  have hpos : ∀ s, t.scanfrom = some s → s > 0 := fun s hs => by
    have h0 := h.scanfrom s hs
    have hne : s ≠ 0 := by
      rintro rfl
      exact hscan hs
    omega
  have hmax : ∀ c x : ℤ, (if c + 1 > x then c + 1 else x) = max (c + 1) x := fun c x => by
    split_ifs <;> omega
  unfold getScanfrom getRawScanfrom todoStart
  rw [h.todo]
  rcases hf : t.fromDate with _ | f
  · rcases hs : t.scanfrom with _ | s
    · rcases hc : t.completeThrough with _ | c
      · rfl
      · rfl
    · simp only [Bool.not_false, Bool.true_and, if_pos (hpos s hs)]
      rcases hc : t.completeThrough with _ | c
      · rfl
      · exact hmax c s
  · rcases hc : t.completeThrough with _ | c
    · rfl
    · exact hmax c f

/-- A TODO is scanned from behind COMPLETE-THROUGH on. -/
theorem getScanfrom_complete (h : PlainTodo t tim) {c : ℤ} (hc : t.completeThrough = some c) :
    c < getScanfrom false today t := by
  unfold getScanfrom getRawScanfrom
  rw [h.todo, hc]
  rcases hf : t.fromDate with _ | f
  · rcases hs : t.scanfrom with _ | s
    · simp
    · simp only [Bool.not_false, Bool.true_and]
      split_ifs <;> omega
  · simp only [Bool.not_false, Bool.true_and]
    split_ifs <;> omega

/-- With SCANFROM on day 0 a TODO is scanned from today on. -/
theorem getScanfrom_zero (h : PlainTodo t tim) (hscan : t.scanfrom = some 0) :
    today ≤ getScanfrom false today t := by
  have hfrom : t.fromDate = none := h.oneScan.resolve_right (by simp [hscan])
  unfold getScanfrom getRawScanfrom
  rw [h.todo, hfrom, hscan]
  rcases hc : t.completeThrough with _ | c
  · simp
  · simp only [Bool.not_false, Bool.true_and]
    split_ifs <;> omega

/-- Nothing is adjusted where there is no time. -/
theorem computeTriggerRest_untimed {f : Found} (htime : tim.ttime = none)
    (hdays : f.trig.durationDays = 0) :
    computeTriggerRest e today tim f = ⟨f.err, f.result, f.trig, tim⟩ := by
  have hset : ∀ r, setEvent f.trig tim r = f.trig := fun r => by
    unfold setEvent
    rw [htime]
  unfold computeTriggerRest adjustTriggerForDuration
  simp only [bind, pure, hset, hdays, ne_eq, not_true_eq_false, if_false, add_zero]
  rcases herr : f.err with _ | r
  · rw [if_neg (show ¬ (f.result < today ∧ f.result ≥ today) by omega)]
    split_ifs <;> rfl
  · rfl

/-- What is found is not before the start of the scan, and it is the trigger of the line but for what
the search writes into it. -/
theorem computeTrigger_untimed (h : PlainTodo t tim) {start : ℤ} {f : Computed}
    (hf : computeTrigger e start t tim = f) (herr : f.err = none) (hn : 0 ≤ f.result) :
    start ≤ f.result ∧ f.tim = tim ∧ f.trig.clauses = t.clauses := by
  have hclauses : (computeTrigger e start t tim).trig.clauses = t.clauses := computeTrigger_clauses
  rw [hf] at hclauses
  unfold computeTrigger at hf
  have hsearched : (computeTriggerNoAdjustDuration e.env t start tim 0).trig.searched = t.searched :=
    computeTriggerNoAdjustDuration_searched
  rcases hg : computeTriggerNoAdjustDuration e.env t start tim 0 with ⟨err, result, trig, last⟩
  rw [hg] at hsearched
  have hdays : trig.durationDays = 0 :=
    (congrArg (fun x : Trigger => x.durationDays) hsearched).trans h.durationDays_eq
  simp only [bind, hg] at hf
  rw [computeTriggerRest_untimed h.untimed hdays] at hf
  subst hf
  obtain ⟨hstart, -, hloop⟩ := computeTriggerNoAdjustDuration_ok hg herr
  rcases searchLoop_found (t := t.unexpired) h.noTz hstart hloop herr with hneg | ⟨_, _, _, _, hle, _⟩
  · simp only at hn hneg
    omega
  · simp only at hle ⊢
    exact ⟨by omega, trivial, hclauses⟩

/-- A date found is not before the start of the scan. -/
theorem FindsOn.start_le (h : PlainTodo t tim) (hfinds : FindsOn e t tim today n) :
    getScanfrom e.modes.calmode today t ≤ n := by
  obtain ⟨herr, hres, hn⟩ := hfinds
  have := (computeTrigger_untimed h rfl herr (hres ▸ hn)).1
  unfold scanned at hres
  omega

end Scan

/-! ### The decision -/

section Decision

variable {e : RemEnv Id} {t t' : Trigger} {tim : TimeTrig} {today n : ℤ}

theorem triggerAhead_congr (hwarn : t.warn = "") (hwarn' : t'.warn = "") (hdelta : t.delta = t'.delta)
    (hlocal : t.localomit = t'.localomit) (hfunc : t.omitfunc = t'.omitfunc) :
    triggerAhead e t today n = triggerAhead e t' today n := by
  have hback : deltaBack e t today = deltaBack e t' today := by
    funext k r n
    exact deltaBack_clauses hlocal.symm hfunc.symm
  unfold triggerAhead
  rw [hwarn, hwarn', hdelta, hback]
  rfl

/-- Nothing is asked of a reminder but its clauses. -/
theorem shouldTriggerReminder_clauses (hclauses : t.clauses = t'.clauses) (hwarn : t.warn = "") :
    shouldTriggerReminder e t tim today n = shouldTriggerReminder e t' tim today n := by
  have hfield : ∀ {α : Type} (f : Trigger → α), f t.clauses = f t'.clauses := fun f => by rw [hclauses]
  have htodo : t.isTodo = t'.isTodo := hfield (·.isTodo)
  have hcomp : t.completeThrough = t'.completeThrough := hfield (·.completeThrough)
  have hmax : t.maxOverdue = t'.maxOverdue := hfield (·.maxOverdue)
  have honce : t.once = t'.once := hfield (·.once)
  have hwarns : t.warn = t'.warn := hfield (·.warn)
  have hahead : triggerAhead e t today n = triggerAhead e t' today n :=
    triggerAhead_congr hwarn (hwarns ▸ hwarn) (hfield (·.delta)) (hfield (·.localomit))
      (hfield (·.omitfunc))
  have hpast : pastDecision e t today n = pastDecision e t' today n := by
    unfold pastDecision todoOverdue
    rw [htodo, hcomp, hmax]
  unfold shouldTriggerReminder onceDone
  rw [honce, hpast, hahead]

/-- The rules for TODOs, where the date comes behind the completion. -/
theorem pastDecision_todo (htodo : t.isTodo = true) (hcal : e.modes.calmode = false)
    (hcomp : ∀ c, t.completeThrough = some c → c < n) : pastDecision e t today n =
      if n < today then
        some (match t.maxOverdue with | some k => decide (¬ n + k < today) | none => true)
      else none := by
  unfold pastDecision todoOverdue
  rw [htodo, hcal]
  rcases hc : t.completeThrough with _ | c
  · simp only [Bool.false_and, Bool.not_false, Bool.and_self, if_true, Bool.false_eq_true, if_false]
    rcases t.maxOverdue with _ | k <;> rfl
  · have hlt := hcomp c hc
    simp only [Bool.false_and, Bool.not_false, Bool.and_self, if_true]
    rw [if_neg (by simp; omega), if_pos (by simpa using hlt)]
    rcases t.maxOverdue with _ | k <;> rfl

/-- A TODO with a date behind its completion is decided like an event until the date is over; then it
is shown until MAX-OVERDUE runs out. -/
theorem shouldTriggerReminder_todo (h : PlainTodo t tim) (hcal : e.modes.calmode = false)
    (hcomp : ∀ c, t.completeThrough = some c → c < n) :
    shouldTriggerReminder e t tim today n = true ↔
      (n < today ∧ ∀ k, t.maxOverdue = some k → today ≤ n + k) ∨
        (today ≤ n ∧ shouldTriggerReminder e { t with isTodo := false } tim today n = true) := by
  have hdone : onceDone e t today = false := by simp [onceDone, h.noOnce]
  have hdone' : onceDone e { t with isTodo := false } today = false := hdone
  have hpast : pastDecision e t today n = _ := pastDecision_todo h.todo hcal hcomp
  by_cases hover : n < today
  · rw [if_pos hover] at hpast
    have hdecide : shouldTriggerReminder e t tim today n =
        match t.maxOverdue with | some k => decide (¬ n + k < today) | none => true := by
      unfold shouldTriggerReminder
      rw [hdone, hpast]
      rfl
    rw [hdecide]
    rcases hk : t.maxOverdue with _ | k
    · simp [hover]
    · refine (decide_eq_true_iff (p := ¬ n + k < today)).trans ⟨fun hle => Or.inl ⟨hover, ?_⟩, ?_⟩
      · rintro _ ⟨rfl⟩
        omega
      · rintro (⟨-, hle⟩ | ⟨hle, -⟩)
        · have := hle k rfl
          omega
        · omega
  · rw [if_neg hover] at hpast
    have hevent : pastDecision e { t with isTodo := false } today n = none :=
      pastDecision_event (t := { t with isTodo := false }) rfl (by omega)
    have hsame : triggerAhead e { t with isTodo := false } today n = triggerAhead e t today n :=
      @triggerAhead_congr e { t with isTodo := false } t today n h.noWarn h.noWarn rfl rfl rfl
    rw [shouldTriggerReminder_ahead hdone hpast, shouldTriggerReminder_ahead hdone' hevent, hsame]
    refine ⟨fun hgo => Or.inr ⟨by omega, hgo⟩, ?_⟩
    rintro (⟨hlt, -⟩ | ⟨-, hgo⟩)
    · omega
    · exact hgo

/-- The advance warning of an event goes on until its date. -/
theorem triggerAhead_later {later : ℤ} (hwarn : t.warn = "") (hover : e.modes.deltaOverride = 0)
    (hle : today ≤ later) (h : triggerAhead e t today n = true) :
    triggerAhead e t later n = true := by
  rw [triggerAhead_delta hwarn hover] at h ⊢
  split_ifs at h ⊢
  · rfl
  · have hreach : n + t.delta ≤ today := of_decide_eq_true h
    exact decide_eq_true (show n + t.delta ≤ later by omega)
  · have hreach : n ≤ today := of_decide_eq_true h
    exact decide_eq_true (show n ≤ later by omega)
  · rcases hwalk : deltaBack e t today (max e.maxSatIter (2 * t.delta).toNat) t.delta n with _ | n'
    · rw [hwalk] at h
      cases h
    · rw [hwalk] at h
      obtain ⟨x, hx, hxle⟩ := deltaBack_later hle hwalk (of_decide_eq_true h)
      rw [hx]
      exact decide_eq_true hxle

/-- On its date an event triggers. -/
theorem triggerAhead_date (hwarn : t.warn = "") (hover : e.modes.deltaOverride = 0) :
    triggerAhead e t n n = true := by
  rw [triggerAhead_delta hwarn hover]
  split_ifs
  · rfl
  · exact decide_eq_true (show n + t.delta ≤ n by omega)
  · exact decide_eq_true le_rfl
  · obtain ⟨k, hk⟩ : ∃ k, max e.maxSatIter (2 * t.delta).toNat = k + 1 :=
      ⟨max e.maxSatIter (2 * t.delta).toNat - 1, by omega⟩
    rw [hk, deltaBack, if_pos (Or.inr le_rfl)]
    exact decide_eq_true le_rfl

end Decision

/-! ### The days of a TODO -/

/-- What is claimed of a TODO whose date is `n`. -/
structure StaysUntilDone (e : RemEnv Id) (t : Trigger) (tim : TimeTrig) (n : ℤ) : Prop where
  date : ∀ today, FindsOn e t tim today n
  behind : ∀ c, t.completeThrough = some c → c < n
  triggers : ∀ today, TriggersOn e t tim today ↔
    (n < today ∧ ∀ k, t.maxOverdue = some k → today ≤ n + k) ∨
      (today ≤ n ∧ shouldTriggerReminder e { t with isTodo := false } tim today n = true)
  interval : Set.OrdConnected {today | TriggersOn e t tim today}
  onDate : TriggersOn e t tim n
  ends : ∀ k, t.maxOverdue = some k → IsGreatest {today | TriggersOn e t tim today} (n + k)
  neverEnds : t.maxOverdue = none → ∀ today, n ≤ today → TriggersOn e t tim today
  done : ∀ c, n ≤ c → ∀ today n', FindsOn e { t with completeThrough := some c } tim today n' → c < n'

section Days

variable {e : RemEnv Id} {t : Trigger} {tim : TimeTrig} {today n : ℤ}

theorem FindsOn.behind (h : PlainTodo t tim) (hcal : e.modes.calmode = false)
    (hfinds : FindsOn e t tim today n) {c : ℤ} (hc : t.completeThrough = some c) : c < n := by
  have hstart := hfinds.start_le h
  have hcomp : c < getScanfrom false today t := getScanfrom_complete h hc
  rw [hcal] at hstart
  omega

/-- On a day on which `n` is found the decision is that on the line itself. -/
theorem FindsOn.triggers (h : PlainTodo t tim) (hfinds : FindsOn e t tim today n) :
    TriggersOn e t tim today ↔ shouldTriggerReminder e t tim today n = true := by
  obtain ⟨herr, hres, hn⟩ := hfinds
  obtain ⟨-, htim, hclauses⟩ := computeTrigger_untimed h rfl herr (hres ▸ hn)
  unfold TriggersOn
  rw [hres]
  unfold scanned
  rw [htim, ← shouldTriggerReminder_clauses hclauses.symm h.noWarn]

/-- The date found stays the same. -/
theorem FindsOn.every (h : PlainTodo t tim) (hcal : e.modes.calmode = false)
    (hscan : t.scanfrom ≠ some 0) (hfinds : FindsOn e t tim today n) (today' : ℤ) :
    FindsOn e t tim today' n := by
  unfold FindsOn scanned at hfinds ⊢
  rw [hcal, getScanfrom_todo h hscan] at hfinds ⊢
  exact hfinds

/-- The rule for events, where the date is not over and there is no time. -/
theorem PlainTodo.asEvent (h : PlainTodo t tim) (hle : today ≤ n) :
    shouldTriggerReminder e { t with isTodo := false } tim today n =
      triggerAhead e { t with isTodo := false } today n := by
  have hdone : onceDone e { t with isTodo := false } today = false := by simp [onceDone, h.noOnce]
  have hpast : pastDecision e { t with isTodo := false } today n = none :=
    pastDecision_event (t := { t with isTodo := false }) rfl hle
  have hat : atSilenced e tim today n = false := by
    unfold atSilenced
    rw [h.untimed]
  rw [shouldTriggerReminder_ahead hdone hpast, hat, if_neg (by simp)]

/-- The days on which a TODO is shown whose date does not move. -/
theorem staysUntilDone (h : PlainTodo t tim) (hcal : e.modes.calmode = false)
    (hover : e.modes.deltaOverride = 0) (hscan : t.scanfrom ≠ some 0)
    (hfinds : FindsOn e t tim today n) : StaysUntilDone e t tim n := by
  have hall := hfinds.every h hcal hscan
  have hbehind : ∀ c, t.completeThrough = some c → c < n := fun c => hfinds.behind h hcal
  have htriggers : ∀ today, TriggersOn e t tim today ↔
      (n < today ∧ ∀ k, t.maxOverdue = some k → today ≤ n + k) ∨
        (today ≤ n ∧ shouldTriggerReminder e { t with isTodo := false } tim today n = true) :=
    fun today => ((hall today).triggers h).trans (shouldTriggerReminder_todo h hcal hbehind)
  have honDate : TriggersOn e t tim n := by
    rw [htriggers, h.asEvent le_rfl]
    exact Or.inr ⟨le_rfl, triggerAhead_date (t := { t with isTodo := false }) h.noWarn hover⟩
  refine ⟨hall, hbehind, htriggers, ⟨fun a ha b hb x hx => ?_⟩, honDate, fun k hk => ⟨?_, ?_⟩,
    fun hk today hle => ?_, fun c hc today' n' hnext => ?_⟩
  · obtain ⟨hax, hxb⟩ := Set.mem_Icc.mp hx
    have ha' := (htriggers a).mp ha
    have hb' := (htriggers b).mp hb
    refine (htriggers x).mpr ?_
    by_cases hxn : n < x
    · refine Or.inl ⟨hxn, fun k hk => ?_⟩
      rcases hb' with ⟨-, hlimit⟩ | ⟨hle, -⟩
      · exact hxb.trans (hlimit k hk)
      · omega
    · refine Or.inr ⟨by omega, ?_⟩
      rcases ha' with ⟨hlt, -⟩ | ⟨hle, hgo⟩
      · omega
      · rw [h.asEvent hle] at hgo
        rw [h.asEvent (by omega)]
        exact triggerAhead_later (t := { t with isTodo := false }) h.noWarn hover hax hgo
  · have hk0 := h.overdue k hk
    rcases hk0.eq_or_lt with rfl | hpos
    · rw [add_zero]
      exact honDate
    · refine (htriggers (n + k)).mpr (Or.inl ⟨by omega, fun k' hk' => ?_⟩)
      rw [Option.some.inj (hk'.symm.trans hk)]
  · intro x hx
    have hk0 := h.overdue k hk
    rcases (htriggers x).mp hx with ⟨-, hlimit⟩ | ⟨hle, -⟩
    · exact hlimit k hk
    · omega
  · rcases hle.eq_or_lt with rfl | hlt
    · exact honDate
    · refine (htriggers today).mpr (Or.inl ⟨hlt, fun k hk' => ?_⟩)
      rw [hk] at hk'
      cases hk'
  · exact hnext.behind (h.complete c) hcal rfl

/-- With SCANFROM on day 0 the scan starts from today, and the date does not stay. -/
theorem FindsOn.moves (h : PlainTodo t tim) (hcal : e.modes.calmode = false)
    (hscan : t.scanfrom = some 0) : ¬ FindsOn e t tim (n + 1) n := by
  intro hfinds
  have hstart := hfinds.start_le h
  have hzero : n + 1 ≤ getScanfrom false (n + 1) t := getScanfrom_zero h hscan
  rw [hcal] at hstart
  omega

/-- `TODO Mon +2 COMPLETE-THROUGH 1990-01-08 MAX-OVERDUE 3` -/
def mondayTodo : Trigger :=
  { wd := 1, delta := 2, isTodo := true, completeThrough := some 7, maxOverdue := some 3 }

/-- `TODO Mon SCANFROM 1990-01-01` -/
def firstMondayTodo : Trigger := { wd := 1, isTodo := true, scanfrom := some 0 }

end Days

end Remind
