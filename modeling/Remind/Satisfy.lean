import Mathlib
import Remind.LastTrig
import Remind.SearchSound

/-!
# Satisfy — what a SATISFY expression sees (dorem.c: `DoSatRemind`)

The loop over the candidate dates, with what it writes to the globals that the expression reads, and
with a record of the evaluations.  The expression is any code: it may read and write the globals, and
a world of its own.
-/

namespace Remind

/-- `LastTriggerDate`, if `LastTrigValid`. -/
def LastInfo.lastDate (g : LastInfo) : Option ℤ := if g.valid then some g.date else none

/-- An evaluation of the expression: the start of the scan, the candidate, what is recorded of the
trigger, and the value. -/
structure SatEval where
  start : ℤ
  dse : ℤ
  seen : LastInfo
  value : Except ErrCode Value

/-- The evaluations of a run of the loop in their order, its outcome, and what it leaves. -/
structure SatRun (W : Type) where
  evals : List SatEval := []
  found : SatFound
  last : LastInfo
  world : W

section Loop

variable (e : RemEnv Id) {W : Type} (expr : StateM (LastInfo × W) (Except ErrCode Value))
  (zoneToday : ℤ) (tim : TimeTrig)

/-- What the loop does with a candidate `n` that the search from `start` has found. -/
def trySatisfySaving (start n : ℤ) (t : Trigger) (g : LastInfo) (w : W)
    (again : Trigger → ℤ → LastInfo → W → SatRun W) : SatRun W :=
  if n = -1 then
    { found := { err := some .expired, trig := t, tim := tim }
      last := { g with valid := false, date := -1 }
      world := w }
  else
    let out := expr (g, w)
    let ev : SatEval := ⟨start, n, g, out.1⟩
    let failed (r : ErrCode) : SatRun W :=
      { evals := [ev]
        found := { err := some r, trig := t, tim := tim, last := out.2.1.lastDate }
        last := out.2.1
        world := out.2.2 }
    match out.1 with
    | .error r => failed r
    | .ok v =>
      match v.truth with
      | .error r => failed r
      | .ok true =>
        let adj := adjustTriggerForDuration (getScanfrom e.modes.calmode zoneToday t) n t tim
        let g := saveAllTriggerInfo adj.1 adj.2.1 adj.2.2 adj.2.1.ttime true out.2.1
        { evals := [ev]
          found := { trig := adj.1, tim := adj.2.1, last := g.lastDate }
          last := g
          world := out.2.2 }
      | .ok false =>
        let run := again t
          (if n + t.durationDays < start then start + 1 else n + t.durationDays + 1)
          out.2.1 out.2.2
        { run with evals := ev :: run.evals }

/-- A search has failed: where it could not find a date, nothing has triggered. -/
def searchFailed (f : Found) (r : ErrCode) (g : LastInfo) (w : W) : SatRun W where
  found := { err := if r = .cantTrig then none else some r, trig := f.trig, tim := tim,
             last := g.lastDate }
  last := g
  world := w

/-- `while (iter++ < MaxSatIter)` of `DoSatRemind`, with what it saves. -/
def satLoopSaving : ℕ → Trigger → ℤ → LastInfo → W → SatRun W
  | 0, t, _, g, w =>
    { found := { err := some .cantTrig, trig := t, tim := tim }
      last := { g with valid := false }
      world := w }
  | k + 1, t, start, g, w =>
    let (f, g) := searchSaving e true t start tim 0 g
    match f.err with
    | some r => searchFailed tim f r g w
    | none =>
      if f.result = start then
        -- the source computes the event start from the return code, which is 0 here
        let t := setEvent f.trig tim 0
        let g := saveAllTriggerInfo t tim f.result tim.ttime true g
        trySatisfySaving e expr zoneToday tim start f.result t g w (satLoopSaving k)
      else if f.trig.durationDays = 0 then
        trySatisfySaving e expr zoneToday tim start f.result f.trig g w (satLoopSaving k)
      else
        let (f, g) := searchSaving e true f.trig start tim f.trig.durationDays g
        match f.err with
        | some r => searchFailed tim f r g w
        | none => trySatisfySaving e expr zoneToday tim start f.result f.trig g w (satLoopSaving k)

/-- `DoSatRemind`, for an expression that parses, with what it saves. -/
def doSatRemindSaving (t : Trigger) (g : LastInfo) (w : W) : SatRun W :=
  satLoopSaving e expr zoneToday tim e.maxSatIter t (getScanfrom e.modes.calmode zoneToday t) g w

end Loop

/-! ### The search without a time zone -/

section Search

variable {e : RemEnv Id} {t : Trigger} {tim : TimeTrig} {start dur : ℤ}

/-- A search that fails records no date. -/
theorem searchLoop_failed {today : ℤ} {n : ℕ} {ns sns : ℤ} (htz : t.tz = none) :
    (searchLoop e.env tim today dur n t start ns sns).err ≠ none →
      (searchLoop e.env tim today dur n t start ns sns).last = none := by
  induction n generalizing start ns with
  | zero => exact fun _ => rfl
  | succ n ih =>
    unfold searchLoop
    rcases getNextTriggerDate e.env t start ns with r | ⟨r, ns'⟩
    · exact fun _ => rfl
    simp only [bind]
    split_ifs with hneg
    · exact fun _ => rfl
    · rcases skipOmitted e.env t r with r' | o
      · exact fun _ => rfl
      · simp only [tryDate, acceptOrRescan, htz, if_true]
        split_ifs
        · exact fun herr => absurd rfl herr
        · exact fun herr => absurd rfl herr
        · exact fun herr => absurd rfl herr
        · exact ih

theorem search_failed (htz : t.tz = none)
    (herr : (computeTriggerNoAdjustDuration e.env t start tim dur).err ≠ none) :
    (computeTriggerNoAdjustDuration e.env t start tim dur).last = none := by
  unfold computeTriggerNoAdjustDuration at herr ⊢
  split_ifs at herr ⊢
  · rfl
  · rfl
  · rfl
  · rfl
  · exact searchLoop_failed (t := t.unexpired) htz herr

theorem search_allowed (herr : (computeTriggerNoAdjustDuration e.env t start tim dur).err = none) :
    searchAllowed e t start tim dur = true := by
  unfold computeTriggerNoAdjustDuration at herr
  rw [show e.env.weekdayOmits = e.weekdayOmits from rfl] at herr
  split_ifs at herr with h1 h2 h3 h4
  · cases herr
  · cases herr
  · cases herr
  · cases herr
  · unfold searchAllowed
    simp only [h1, h2, h3, h4]
    rfl

/-- The search writes nothing but the expired mark, and a date found is the one recorded. -/
theorem searchLoop_writes {today : ℤ} {n : ℕ} {ns sns : ℤ} {f : Found} (htz : t.tz = none)
    (hs : 0 ≤ start) (h : searchLoop e.env tim today dur n t start ns sns = f)
    (herr : f.err = none) : f.trig.unexpired = t.unexpired ∧
      (f.result ≠ -1 → f.trig = t ∧ f.last = some f.result ∧ today ≤ f.result + dur) := by
  induction n generalizing start ns with
  | zero =>
    subst h
    cases herr
  | succ n ih =>
    cases searchLoop_round htz hs h herr with
    | gone _ => exact ⟨rfl, fun hne => absurd rfl hne⟩
    | accepted _ _ hle _ => exact ⟨rfl, fun _ => ⟨rfl, rfl, hle⟩⟩
    | stopped _ _ _ _ _ => exact ⟨rfl, fun hne => absurd rfl hne⟩
    | rescan _ _ _ _ _ hlt _ hrest => exact ih (by omega) hrest

theorem saveIf_run (save : Bool) (f : LastInfo → LastInfo) (g : LastInfo) :
    saveIf save f g = ((), if save then f g else g) := by
  cases save <;> rfl

/-- What is found of a trigger without a time zone. -/
structure FoundHere (t : Trigger) (start dur : ℤ) (f : Found) : Prop where
  room : 0 ≤ start - dur
  trig : f.trig.unexpired = t.unexpired
  date : f.result ≠ -1 → f.trig = t.unexpired ∧ start ≤ f.result + dur

/-- What the search saves: a date is recorded exactly if it is found. -/
theorem searchSaving_run (htz : t.tz = none) (g : LastInfo) :
    ∃ f g', searchSaving e true t start tim dur g = (f, g') ∧
      f = computeTriggerNoAdjustDuration e.env t start tim dur ∧
      (f.err ≠ none → g'.valid = false) ∧
      (f.err = none → FoundHere t start dur f ∧
        (f.result ≠ -1 →
          g' = { g with trigger := t.unexpired, date := f.result, valid := true })) := by
  have hpure : ∀ g₁, computeTriggerNoAdjustDuration e.saving t start tim dur g₁ =
      (computeTriggerNoAdjustDuration e.env t start tim dur, g₁) := by
    intro g₁
    have hsafe : Safe e (fun g => g = g₁) t tim := fun hne => absurd htz hne
    obtain ⟨hval, hkeep⟩ := @search_yields _ _ _ _ start dur hsafe g₁ rfl
    exact Prod.ext hval hkeep
  have hrun : searchSaving e true t start tim dur g =
      (let f := computeTriggerNoAdjustDuration e.env t start tim dur
       let g₁ : LastInfo := { g with valid := false, date := -1 }
       let g₂ : LastInfo := if searchAllowed e t start tim dur then
         { g₁ with trigger := t.unexpired } else g₁
       (f, if f.last.isSome then { g₂ with date := f.last.getD (-1), valid := true } else g₂)) := by
    unfold searchSaving
    simp only [bind, StateT.bind, pure, StateT.pure, saveIf_run, hpure, Bool.true_and, if_true]
  refine ⟨_, _, hrun, rfl, fun herr => ?_, fun herr => ?_⟩
  · have hlast := search_failed htz herr
    simp only [hlast, Option.isSome_none, Bool.false_eq_true, if_false]
    split_ifs <;> rfl
  · obtain ⟨hroom, -, hloop⟩ := computeTriggerNoAdjustDuration_ok rfl herr
    obtain ⟨htrig, hdate⟩ := @searchLoop_writes e t.unexpired tim (start - dur) dur start _ _ _ _
      htz hroom hloop herr
    refine ⟨⟨hroom, htrig, fun hne => ⟨(hdate hne).1, (hdate hne).2.2⟩⟩, fun hne => ?_⟩
    have hlast := (hdate hne).2.1
    simp only [search_allowed herr, if_true, hlast, Option.isSome_some, Option.getD_some]

end Search

/-! ### A run of the loop -/

/-- The expression was true. -/
def SatEval.True (ev : SatEval) : Prop := ∃ v, ev.value = .ok v ∧ v.truth = .ok true

/-- What a run from `start` on evaluates and reports, where the scan of the line starts on `scan` and
the event reaches into `days` more days. -/
structure RunSees {W : Type} (scan days : ℤ) (tim : TimeTrig) (start : ℤ) (run : SatRun W) :
    Prop where
  rises : run.evals.Pairwise (fun a b => a.start < b.start)
  since : ∀ ev ∈ run.evals, start ≤ ev.start
  date : ∀ ev ∈ run.evals, ev.seen.lastDate = some ev.dse
  event : ∀ ev ∈ run.evals, ∀ ttime, tim.ttime = some ttime → ev.dse = ev.start →
    (ev.seen.trigger.eventstart = some (minutesPerDay * ev.dse + ttime) ↔ ev.dse = 0)
  reported : run.found.err = none → ∀ n, run.found.last = some n → ∃ ev ∈ run.evals, ev.True ∧
    n = if ev.dse < scan ∧ ev.dse + days ≥ scan then scan else ev.dse

/-- The trigger of a line in the loop: the event start is what an earlier round has left. -/
structure SatTrigger (t₀ t : Trigger) (tim : TimeTrig) : Prop where
  clauses : t.clauses = t₀.clauses
  stale : t.eventstart = none ∨ t.eventstart = tim.ttime

section Run

variable {e : RemEnv Id} {W : Type} {expr : StateM (LastInfo × W) (Except ErrCode Value)}
  {zoneToday : ℤ} {t₀ t : Trigger} {tim : TimeTrig} {start n : ℤ} {g : LastInfo} {w : W}

theorem getScanfrom_clauses {calmode : Bool} (h : t.clauses = t₀.clauses) :
    getScanfrom calmode zoneToday t = getScanfrom calmode zoneToday t₀ := by
  change getScanfrom calmode zoneToday t.clauses = getScanfrom calmode zoneToday t₀.clauses
  rw [h]

theorem SatTrigger.days (h : SatTrigger t₀ t tim) : t.durationDays = t₀.durationDays :=
  show t.clauses.durationDays = t₀.clauses.durationDays by rw [h.clauses]

theorem SatTrigger.of_unexpired {t' : Trigger} (h : SatTrigger t₀ t tim)
    (hsame : t'.unexpired = t.unexpired) : SatTrigger t₀ t' tim := by
  have hclauses : t'.clauses = t.clauses :=
    show t'.unexpired.clauses = t.unexpired.clauses by rw [hsame]
  have hstart : t'.eventstart = t.eventstart :=
    show t'.unexpired.eventstart = t.unexpired.eventstart by rw [hsame]
  exact ⟨hclauses.trans h.clauses, hstart ▸ h.stale⟩

/-- What the wrong event start leaves in the trigger. -/
theorem SatTrigger.setEvent (h : SatTrigger t₀ t tim) :
    SatTrigger t₀ (setEvent t tim 0) tim := by
  refine ⟨(setEvent_clauses 0).trans h.clauses, ?_⟩
  unfold Remind.setEvent
  rcases htime : tim.ttime with _ | ttime
  · have hstale := h.stale
    rw [htime] at hstale
    exact hstale
  · right
    simp only [mul_zero, zero_add]

theorem saveAllTriggerInfo_lastDate {time : Option ℤ} (hn : n ≠ -1) :
    (saveAllTriggerInfo t tim n time true g).lastDate = some n := by
  unfold saveAllTriggerInfo LastInfo.lastDate
  rw [if_pos hn]
  rfl

/-- A run without an evaluation, that reports nothing. -/
theorem runSees_nothing {scan days : ℤ} {run : SatRun W} (hevals : run.evals = [])
    (hlast : run.found.err = none → run.found.last = none) :
    RunSees scan days tim start run := by
  refine ⟨?_, ?_, ?_, ?_, fun herr n hn => ?_⟩
  · rw [hevals]
    exact List.Pairwise.nil
  · simp [hevals]
  · simp [hevals]
  · simp [hevals]
  · rw [hlast herr] at hn
    cases hn

/-- A run that begins with an evaluation. -/
theorem runSees_cons {scan days next : ℤ} {run rest : SatRun W} {ev : SatEval}
    (hevals : run.evals = ev :: rest.evals) (hfound : run.found = rest.found)
    (hstart : ev.start = start) (hnext : start < next) (hdate : ev.seen.lastDate = some ev.dse)
    (hevent : ∀ ttime, tim.ttime = some ttime → ev.dse = ev.start →
      (ev.seen.trigger.eventstart = some (minutesPerDay * ev.dse + ttime) ↔ ev.dse = 0))
    (hrest : RunSees scan days tim next rest) : RunSees scan days tim start run := by
  refine ⟨?_, ?_, ?_, ?_, fun herr n hn => ?_⟩
  · rw [hevals]
    exact hrest.rises.cons fun ev' hev' => by
      have := hrest.since ev' hev'
      omega
  · rw [hevals]
    refine List.forall_mem_cons.mpr ⟨hstart.ge, fun ev' hev' => ?_⟩
    have := hrest.since ev' hev'
    omega
  · rw [hevals]
    exact List.forall_mem_cons.mpr ⟨hdate, hrest.date⟩
  · rw [hevals]
    exact List.forall_mem_cons.mpr ⟨hevent, hrest.event⟩
  · rw [hfound] at herr hn
    obtain ⟨ev', hev', hreported⟩ := hrest.reported herr n hn
    exact ⟨ev', hevals ▸ List.mem_cons_of_mem _ hev', hreported⟩

/-- The evaluation of a candidate, with what follows it. -/
theorem trySatisfySaving_sees {again : Trigger → ℤ → LastInfo → W → SatRun W}
    (ht : SatTrigger t₀ t tim) (hn : n ≠ -1 → 0 ≤ n) (hdate : n ≠ -1 → g.lastDate = some n)
    (hevent : ∀ ttime, tim.ttime = some ttime → n = start →
      (g.trigger.eventstart = some (minutesPerDay * n + ttime) ↔ n = 0))
    (hagain : ∀ s g w, start < s →
      RunSees (getScanfrom e.modes.calmode zoneToday t₀) t₀.durationDays tim s (again t s g w)) :
    RunSees (getScanfrom e.modes.calmode zoneToday t₀) t₀.durationDays tim start
      (trySatisfySaving e expr zoneToday tim start n t g w again) := by
  unfold trySatisfySaving
  by_cases hneg : n = -1
  · rw [if_pos hneg]
    exact runSees_nothing rfl fun herr => by cases herr
  rw [if_neg hneg]
  have hdate := hdate hneg
  have hsingle : ∀ run : SatRun W, run.evals = [⟨start, n, g, (expr (g, w)).1⟩] →
      (run.found.err = none → (∃ v, (expr (g, w)).1 = .ok v ∧ v.truth = .ok true) ∧
        run.found.last = some (if n < getScanfrom e.modes.calmode zoneToday t₀ ∧
          n + t₀.durationDays ≥ getScanfrom e.modes.calmode zoneToday t₀ then
            getScanfrom e.modes.calmode zoneToday t₀ else n)) →
      RunSees (getScanfrom e.modes.calmode zoneToday t₀) t₀.durationDays tim start run := by
    intro run hevals hfound
    refine ⟨?_, ?_, ?_, ?_, fun herr n' hn' => ?_⟩
    · rw [hevals]
      exact List.pairwise_singleton _ _
    · rw [hevals]
      exact List.forall_mem_singleton.mpr le_rfl
    · rw [hevals]
      exact List.forall_mem_singleton.mpr hdate
    · rw [hevals]
      exact List.forall_mem_singleton.mpr hevent
    · obtain ⟨htrue, hlast⟩ := hfound herr
      refine ⟨⟨start, n, g, (expr (g, w)).1⟩, hevals ▸ List.mem_singleton.mpr rfl, htrue, ?_⟩
      exact Option.some.inj (hn'.symm.trans hlast)
  simp only
  rcases hvalue : (expr (g, w)).1 with r | v
  · exact hsingle _ (by rw [hvalue]) fun herr => by cases herr
  · simp only
    rcases htruth : v.truth with r | _ | _
    · exact hsingle _ (by rw [hvalue]) fun herr => by cases herr
    · have hnext : start < if n + t.durationDays < start then start + 1
          else n + t.durationDays + 1 := by
        split_ifs <;> omega
      exact runSees_cons rfl rfl rfl hnext hdate hevent (hagain _ _ _ hnext)
    · refine hsingle _ (by rw [hvalue]) fun _ => ⟨⟨v, hvalue, htruth⟩, ?_⟩
      have hadj : (adjustTriggerForDuration (getScanfrom e.modes.calmode zoneToday t) n t tim).2.2 =
          if n < getScanfrom e.modes.calmode zoneToday t₀ ∧
            n + t₀.durationDays ≥ getScanfrom e.modes.calmode zoneToday t₀ then
              getScanfrom e.modes.calmode zoneToday t₀ else n := by
        rw [getScanfrom_clauses ht.clauses, ← ht.days]
        unfold adjustTriggerForDuration
        split_ifs <;> rfl
      rw [saveAllTriggerInfo_lastDate, hadj]
      rw [hadj]
      have := hn hneg
      split_ifs <;> omega

/-- What a round of the loop comes to, with the record and without it: the search fails, or it has a
candidate, whose event start is right only on day 0 where the scan starts on it. -/
inductive SatRound (e : RemEnv Id) (expr : StateM (LastInfo × W) (Except ErrCode Value))
    (zoneToday : ℤ) (t₀ : Trigger) (tim : TimeTrig) (k : ℕ) (start : ℤ) (w : W) :
    SatRun W → Id SatFound → Prop
  | failed (f : Found) (r : ErrCode) {g : LastInfo} : g.valid = false →
      SatRound e expr zoneToday t₀ tim k start w (searchFailed tim f r g w)
        { err := if r = .cantTrig then none else some r, trig := f.trig, tim := tim }
  | tried {n : ℤ} {t : Trigger} {g : LastInfo} : SatTrigger t₀ t tim → (n ≠ -1 → 0 ≤ n) →
      (n ≠ -1 → g.lastDate = some n) →
      (0 ≤ t₀.durationDays → ∀ ttime, tim.ttime = some ttime → n = start →
        (g.trigger.eventstart = some (minutesPerDay * n + ttime) ↔ n = 0)) →
      SatRound e expr zoneToday t₀ tim k start w
        (trySatisfySaving e expr zoneToday tim start n t g w
          (satLoopSaving e expr zoneToday tim k))
        (trySatisfy e zoneToday start n t tim (satLoop e zoneToday tim k))

theorem SatTrigger.tz_eq (h : SatTrigger t₀ t tim) (htz : t₀.tz = none) : t.tz = none :=
  htz ▸ show t.clauses.tz = t₀.clauses.tz by rw [h.clauses]

theorem satLoop_round (htz : t₀.tz = none) (ht : SatTrigger t₀ t tim) (k : ℕ) :
    SatRound e expr zoneToday t₀ tim k start w
      (satLoopSaving e expr zoneToday tim (k + 1) t start g w)
      (satLoop e zoneToday tim (k + 1) t start) := by
  obtain ⟨f, g', hrun, hf, hfail, hfound⟩ := @searchSaving_run e t tim start 0 (ht.tz_eq htz) g
  unfold satLoopSaving satLoop
  rw [hrun, ← hf]
  simp only [bind]
  rcases herr : f.err with _ | r
  · simp only
    obtain ⟨hhere, hsaved⟩ := hfound herr
    have hroom := hhere.room
    have ht' : SatTrigger t₀ f.trig tim := ht.of_unexpired hhere.trig
    by_cases hstart : f.result = start
    · -- the branch with the wrong event start
      rw [if_pos hstart, if_pos hstart]
      have hres : f.result ≠ -1 := by omega
      refine .tried ht'.setEvent (fun _ => by omega)
        (fun _ => saveAllTriggerInfo_lastDate hres) (fun _ ttime htime _ => ?_)
      have hseen : (saveAllTriggerInfo (setEvent f.trig tim 0) tim f.result tim.ttime true
          g').trigger.eventstart = some ttime := by
        unfold saveAllTriggerInfo setEvent
        rw [if_pos hres, htime]
        simp only [mul_zero, zero_add]
      rw [hseen, Option.some.injEq]
      unfold minutesPerDay
      omega
    · rw [if_neg hstart, if_neg hstart]
      by_cases hone : f.trig.durationDays = 0
      · rw [if_pos hone, if_pos hone]
        refine .tried ht' (fun hres => ?_) (fun hres => ?_) (fun _ _ _ hn => absurd hn hstart)
        · have := (hhere.date hres).2
          omega
        · rw [hsaved hres]
          rfl
      · rw [if_neg hone, if_neg hone]
        obtain ⟨f', g'', hrun', hf', hfail', hfound'⟩ :=
          @searchSaving_run e f.trig tim start f.trig.durationDays (ht'.tz_eq htz) g'
        rw [hrun', ← hf']
        simp only
        rcases herr' : f'.err with _ | r
        · simp only
          obtain ⟨hhere', hsaved'⟩ := hfound' herr'
          have hroom' := hhere'.room
          refine .tried (ht'.of_unexpired hhere'.trig) (fun hres => ?_) (fun hres => ?_)
            (fun hdays ttime htime hn => ?_)
          · have := (hhere'.date hres).2
            omega
          · rw [hsaved' hres]
            rfl
          · -- the event start is that of an earlier round
            rw [ht'.days] at hone hroom'
            rw [hsaved' (by omega)]
            have hstale := ht'.stale
            rw [htime] at hstale
            unfold minutesPerDay
            refine iff_of_false (fun hseen => ?_) (by omega)
            have hseen : f.trig.eventstart = some (1440 * f'.result + ttime) := hseen
            rcases hstale with hnone | hsome
            · rw [hnone] at hseen
              cases hseen
            · rw [hsome, Option.some.injEq] at hseen
              omega
        · exact .failed f' r (hfail' (by simp [herr']))
  · exact .failed f r (hfail (by simp [herr]))

/-- **The loop shows the expression the date that it is tested for**, but the event start only on
day 0. -/
theorem satLoopSaving_sees (htz : t₀.tz = none) (hdays : 0 ≤ t₀.durationDays) {k : ℕ}
    (ht : SatTrigger t₀ t tim) :
    RunSees (getScanfrom e.modes.calmode zoneToday t₀) t₀.durationDays tim start
      (satLoopSaving e expr zoneToday tim k t start g w) := by
  induction k generalizing t start g w with
  | zero => exact runSees_nothing rfl fun herr => by cases herr
  | succ k ih =>
    have hround : SatRound e expr zoneToday t₀ tim k start w
        (satLoopSaving e expr zoneToday tim (k + 1) t start g w) _ := satLoop_round htz ht k
    generalize satLoopSaving e expr zoneToday tim (k + 1) t start g w = run at hround ⊢
    generalize satLoop e zoneToday tim (k + 1) t start = found at hround
    cases hround with
    | failed f r hvalid =>
      refine runSees_nothing rfl fun _ => ?_
      simp [searchFailed, LastInfo.lastDate, hvalid]
    | tried ht' hn hdate hevent =>
      exact trySatisfySaving_sees ht' hn hdate (hevent hdays) fun s g w _ => ih ht'

/-- The expression sees the date it is tested for, and where the scan starts on it the event start. -/
def SatEval.Sees (tim : TimeTrig) (ev : SatEval) : Prop :=
  ev.seen.lastDate = some ev.dse ∧ ∀ ttime, tim.ttime = some ttime → ev.dse = ev.start →
    ev.seen.trigger.eventstart = some (minutesPerDay * ev.dse + ttime)

/-- The scan has found its own start, not on day 0, and the reminder has a time. -/
def SatEval.AtStart (tim : TimeTrig) (ev : SatEval) : Prop :=
  tim.ttime ≠ none ∧ ev.dse = ev.start ∧ ev.dse ≠ 0

/-- **The expression sees the date that is tested**, in exactly the evaluations that are not about
the start of a scan of a timed reminder.  The scans start later and later, and what is reported is a
day of an event for whose date the expression was true. -/
theorem doSatRemind_sees_iff (htz : t.tz = none) (hdays : 0 ≤ t.durationDays)
    (hnew : t.eventstart = none) :
    (∀ ev ∈ (doSatRemindSaving e expr zoneToday tim t g w).evals,
      ev.Sees tim ↔ ¬ ev.AtStart tim) ∧
    (doSatRemindSaving e expr zoneToday tim t g w).evals.Pairwise (fun a b => a.start < b.start) ∧
    ((doSatRemindSaving e expr zoneToday tim t g w).found.err = none →
      ∀ n, (doSatRemindSaving e expr zoneToday tim t g w).found.last = some n →
        ∃ ev ∈ (doSatRemindSaving e expr zoneToday tim t g w).evals, ev.True ∧
          n = if ev.dse < getScanfrom e.modes.calmode zoneToday t ∧
              ev.dse + t.durationDays ≥ getScanfrom e.modes.calmode zoneToday t then
            getScanfrom e.modes.calmode zoneToday t else ev.dse) := by
  have hrun : RunSees (getScanfrom e.modes.calmode zoneToday t) t.durationDays tim
      (getScanfrom e.modes.calmode zoneToday t) (doSatRemindSaving e expr zoneToday tim t g w) :=
    satLoopSaving_sees htz hdays ⟨rfl, Or.inl hnew⟩
  refine ⟨fun ev hev => ?_, hrun.rises, hrun.reported⟩
  have hdate := hrun.date ev hev
  have hevent := hrun.event ev hev
  constructor
  · rintro ⟨-, hsees⟩ ⟨htimed, hstart, hne⟩
    obtain ⟨ttime, htime⟩ := Option.ne_none_iff_exists'.mp htimed
    exact hne ((hevent ttime htime hstart).mp (hsees ttime htime hstart))
  · intro hnot
    refine ⟨hdate, fun ttime htime hstart => (hevent ttime htime hstart).mpr ?_⟩
    by_contra hne
    exact hnot ⟨by simp [htime], hstart, hne⟩

/-! ### The loop without the record -/

/-- A round finds the same, where the expression reads no more than the date and writes nothing. -/
theorem trySatisfySaving_found {again : Trigger → ℤ → LastInfo → W → SatRun W}
    {again' : Trigger → ℤ → Id SatFound} (hdate : n ≠ -1 → g.lastDate = some n)
    (hn : n ≠ -1 → 0 ≤ n)
    (hagain : ∀ s, (again t s g w).found = again' t s) :
    (trySatisfySaving e (fun s => (e.satisfy s.1.date, s)) zoneToday tim start n t g w again).found =
      trySatisfy e zoneToday start n t tim again' := by
  unfold trySatisfySaving trySatisfy
  by_cases hneg : n = -1
  · rw [if_pos hneg, if_pos hneg]
    rfl
  rw [if_neg hneg, if_neg hneg]
  have hlast := hdate hneg
  have hsame : g.date = n := by
    unfold LastInfo.lastDate at hlast
    split_ifs at hlast
    exact Option.some.inj hlast
  simp only [bind, hsame]
  rcases e.satisfy n with r | v
  · simp only [hlast]
    rfl
  · simp only
    rcases v.truth with r | _ | _
    · simp only [hlast]
      rfl
    · exact hagain _
    · have hadj : (adjustTriggerForDuration (getScanfrom e.modes.calmode zoneToday t) n t
          tim).2.2 ≠ -1 := by
        have := hn hneg
        unfold adjustTriggerForDuration
        split_ifs
        · simp only
          omega
        · simp only
          omega
      simp only [saveAllTriggerInfo_lastDate hadj]
      rfl

theorem searchFailed_found {f : Found} {r : ErrCode} (hvalid : g.valid = false) :
    (searchFailed tim f r g w).found =
      { err := if r = .cantTrig then none else some r, trig := f.trig, tim := tim } := by
  simp [searchFailed, LastInfo.lastDate, hvalid]

/-- The loop with the record is the loop. -/
theorem satLoopSaving_found (htz : t₀.tz = none) {k : ℕ} (ht : SatTrigger t₀ t tim) :
    (satLoopSaving e (fun s => (e.satisfy s.1.date, s)) zoneToday tim k t start g w).found =
      satLoop e zoneToday tim k t start := by
  induction k generalizing t start g w with
  | zero => rfl
  | succ k ih =>
    have hround : SatRound e (fun s => (e.satisfy s.1.date, s)) zoneToday t₀ tim k start w
        (satLoopSaving e _ zoneToday tim (k + 1) t start g w) _ := satLoop_round htz ht k
    generalize satLoopSaving e _ zoneToday tim (k + 1) t start g w = run at hround ⊢
    generalize satLoop e zoneToday tim (k + 1) t start = found at hround ⊢
    cases hround with
    | failed f r hvalid => exact searchFailed_found hvalid
    | tried ht' hn hdate _ => exact trySatisfySaving_found hdate hn fun s => ih ht'

theorem doSatRemindSaving_found (htz : t.tz = none) (hnew : t.eventstart = none) :
    (doSatRemindSaving e (fun s => (e.satisfy s.1.date, s)) zoneToday tim t g w).found =
      doSatRemind e zoneToday t tim :=
  satLoopSaving_found htz ⟨rfl, Or.inl hnew⟩

end Run

/-- `REM Mon AT 10:00 SATISFY [1]` -/
def mondayAtTen : Trigger × TimeTrig :=
  ({ wd := 1, typ := .sat }, { ttime := some 600, ttimeOrig := some 600 })

/-- The run of it on day `today`. -/
def mondayAtTenRun (today : ℤ) : SatRun Unit :=
  doSatRemindSaving (plainEnv {} today).toRemEnv (fun s => (.ok (.int 1), s)) today mondayAtTen.2
    mondayAtTen.1 {} ()

/-- On the Tuesday after it the expression sees the Monday that is tested. -/
theorem doSatRemind_sees_monday :
    ∃ ev ∈ (mondayAtTenRun 8).evals, ev.dse = 14 ∧ ev.Sees mondayAtTen.2 := by
  have hevals : ∃ ev, (mondayAtTenRun 8).evals = [ev] ∧ ev.start = 8 ∧ ev.dse = 14 :=
    ⟨_, rfl, rfl, rfl⟩
  obtain ⟨ev, hev, hstart, hdse⟩ := hevals
  have hmem : ev ∈ (mondayAtTenRun 8).evals := by simp [hev]
  refine ⟨ev, hmem, hdse, ?_⟩
  refine ((doSatRemind_sees_iff (e := (plainEnv {} 8).toRemEnv) (t := mondayAtTen.1) rfl le_rfl
    rfl).1 ev hmem).mpr fun hat => ?_
  have hne : ev.dse = ev.start := hat.2.1
  omega

/-- On Monday 8 January 1990 the expression sees an event start on 1 January. -/
theorem satisfy_sees_firstDay : ∃ ev ∈ (mondayAtTenRun 7).evals, ev.start = 7 ∧ ev.dse = 7 ∧
    ev.seen.trigger.eventstart = some 600 ∧ ¬ ev.Sees mondayAtTen.2 := by
  have hevals : ∃ ev, (mondayAtTenRun 7).evals = [ev] ∧ ev.start = 7 ∧ ev.dse = 7 ∧
      ev.seen.trigger.eventstart = some 600 := ⟨_, rfl, rfl, rfl, rfl⟩
  obtain ⟨ev, hev, hstart, hdse, hseen⟩ := hevals
  refine ⟨ev, by simp [hev], hstart, hdse, hseen, fun hsees => ?_⟩
  have hright := hsees.2 600 rfl (hdse.trans hstart.symm)
  rw [hseen, hdse] at hright
  exact absurd hright (by decide)

end Remind
