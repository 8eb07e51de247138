import Remind.Search

/-!
# ComputeTrigger — the trigger date of a line (trigger.c: `ComputeTrigger`; dorem.c: the time zones,
# `get_scanfrom`, `DoSatRemind`)

A line is processed in surroundings `RemEnv`: the modes of the run, the operations that enter and
leave a time zone, and the user's functions and expressions.  Those may run any code, so they are
operations of a monad, like the ones the search uses.
-/

namespace Remind

/-- `TODOS_AND_EVENTS`, `ONLY_TODOS`, `ONLY_EVENTS` -/
inductive TodoFilter where
  | todosAndEvents
  | onlyTodos
  | onlyEvents
  deriving DecidableEq, Repr

/-- The modes of a run and its clock: the globals that are fixed while a line is processed. -/
structure Modes where
  doCalendar : Bool := false
  doSimpleCalendar : Bool := false
  hideCompletedTodos : Bool := false
  doSimpleCalDelta : Bool := false
  parseUntriggered : Bool := true
  purgeMode : Bool := false
  daemon : Bool := false
  nextMode : Bool := false
  infiniteDelta : Bool := false
  /-- Positive: `-t n`; negative: `-tz`; 0: none. -/
  deltaOverride : ℤ := 0
  /-- The number of `-a` options. -/
  dontIssueAts : ℕ := 0
  dontQueue : Bool := false
  runDisabled : Bool := false
  ignoreOnce : Bool := false
  /-- `GetOnceDate()` -/
  onceDate : ℤ := 0
  todoFilter : TodoFilter := .todosAndEvents
  /-- `MinutesPastMidnight(0)` -/
  minutesPastMidnight : ℤ := 0
  /-- Calendar only: the column of the day drawn is not negative. -/
  inCalendar : Bool := true
  psCal : Bool := false
  deriving DecidableEq, Repr

/-- `DoSimpleCalendar || DoCalendar` -/
def Modes.calmode (o : Modes) : Bool := o.doSimpleCalendar || o.doCalendar

/-- The surroundings of a line. -/
structure RemEnv (m : Type → Type) where
  modes : Modes := {}
  weekdayOmits : WdSet := 0
  /-- `$MaxSatIter` -/
  maxSatIter : ℕ := 1000
  /-- `IsOmitted(dse, localomit, omitfunc, &omit)` -/
  isOmitted : WdSet → String → ℤ → m (Except ErrCode Bool)
  /-- `EnterTimezone`, and the `DSEToday` it leaves. -/
  enterTimezone : Option String → m ℤ
  /-- `ExitTimezone`, and the `DSEToday` it leaves. -/
  exitTimezone : Option String → m ℤ
  /-- `tz_convert` of a date, hour and minute from a zone to the local one. -/
  tzConvert : Ymd → ℤ → ℤ → String → Option (Ymd × ℤ × ℤ)
  userFuncExists : String → Bool
  /-- The call of a user function with one INT. -/
  evalUser : String → ℤ → m (Except ErrCode Value)
  /-- The SATISFY expression, evaluated while the last trigger date is the one given. -/
  satisfy : ℤ → m (Except ErrCode Value)

section Trig

variable {m : Type → Type} [Monad m] (e : RemEnv m)

/-- `AdjustTriggerForTimeZone` -/
def adjustTriggerForTimeZone (t : Trigger) (tim : TimeTrig) (n : ℤ) : Trigger × TimeTrig × ℤ :=
  match t.tz with
  | none => (t, tim, n)
  | some tz =>
    if n < 0 then (t, tim, n)
    else
      -- a time zone requires an AT time
      let orig := tim.ttimeOrig.getD 0
      match e.tzConvert (fromDSE n) (orig / 60) (orig % 60) tz with
      | none => (t, tim, n)
      | some (ymd, hour, minute) =>
        let n := dse ymd.y ymd.m ymd.d
        let ttime := hour * 60 + minute
        ({ t with eventstart := some (n * minutesPerDay + ttime) }, { tim with ttime := some ttime },
          n)

/-- The surroundings of the search for the date of a line. -/
def RemEnv.env : Env m where
  weekdayOmits := e.weekdayOmits
  maxSatIter := e.maxSatIter
  calmode := e.modes.calmode && !e.modes.hideCompletedTodos
  isOmitted := e.isOmitted
  viewLocally t tim n := do
    let today ← e.exitTimezone t.tz
    let adj := adjustTriggerForTimeZone e t tim n
    let _ ← e.enterTimezone t.tz
    pure { trig := adj.1, newResult := adj.2.2, dseToday := today }

/-- `get_raw_scanfrom` -/
def getRawScanfrom (today : ℤ) (t : Trigger) : Option ℤ :=
  match t.fromDate with
  | some f => some (if f > today then f else today)
  | none =>
    match t.scanfrom with
    | none => none
    | some s => some (if s > 0 then s else today + s)

/-- `get_scanfrom` -/
def getScanfrom (calmode : Bool) (today : ℤ) (t : Trigger) : ℤ :=
  match !calmode && t.isTodo, t.fromDate with
  | true, some f =>
    match t.completeThrough with
    | some c => if c + 1 > f then c + 1 else f
    | none => f
  | _, _ =>
    match getRawScanfrom today t with
    | some s =>
      match !calmode, t.completeThrough with
      | true, some c => if c + 1 > s then c + 1 else s
      | _, _ => s
    | none =>
      match !calmode, t.completeThrough with
      | true, some c => c + 1
      | true, none => if t.isTodo then 0 else today
      | false, _ => today

/-- The event data of a trigger on date `r`. -/
def setEvent (t : Trigger) (tim : TimeTrig) (r : ℤ) : Trigger :=
  match tim.ttime with
  | none => t
  | some ttime =>
    { t with
      eventstart := some (minutesPerDay * r + ttime)
      eventstartOrig := some (minutesPerDay * r + ttime)
      eventduration := if tim.duration ≠ none then tim.duration else t.eventduration }

/-- `AdjustTriggerForDuration` -/
def adjustTriggerForDuration (today r : ℤ) (t : Trigger) (tim : TimeTrig) :
    Trigger × TimeTrig × ℤ :=
  if r < today ∧ r + t.durationDays ≥ today then
    -- Start at midnight of today
    (setEvent t tim r, { tim with
      duration := tim.duration.map fun d => d - (today - r) * minutesPerDay + tim.ttime.getD 0
      ttime := some 0 }, today)
  else (setEvent t tim r, tim, r)

/-- The outcome of `ComputeTrigger`: `*err`, the value returned, the trigger and its time. -/
structure Computed where
  err : Option ErrCode := none
  result : ℤ := -1
  trig : Trigger
  tim : TimeTrig

/-- `ComputeTrigger` after its first search. -/
def computeTriggerRest (today : ℤ) (tim : TimeTrig) (f : Found) : m Computed :=
  if f.err ≠ none then pure ⟨f.err, f.result, f.trig, tim⟩
  else if f.result = today then pure ⟨none, f.result, setEvent f.trig tim f.result, tim⟩
  else do
    let f ← if f.trig.durationDays ≠ 0 then
        computeTriggerNoAdjustDuration e.env f.trig today tim f.trig.durationDays
      else pure f
    if f.err ≠ none then pure ⟨f.err, f.result, f.trig, tim⟩
    else
      let adj := adjustTriggerForDuration today f.result f.trig tim
      pure ⟨none, adj.2.2, adj.1, adj.2.1⟩

/-- `ComputeTrigger` -/
def computeTrigger (today : ℤ) (t : Trigger) (tim : TimeTrig) : m Computed := do
  computeTriggerRest e today tim (← computeTriggerNoAdjustDuration e.env t today tim 0)

/-- `EnterTimezone`, `ComputeTrigger` from `get_scanfrom` on, `ExitTimezone`; and `DSEToday`. -/
def computeInTimezone (t : Trigger) (tim : TimeTrig) : m (Computed × ℤ) := do
  let zoneToday ← e.enterTimezone t.tz
  let c ← computeTrigger e (getScanfrom e.modes.calmode zoneToday t) t tim
  let today ← e.exitTimezone t.tz
  pure (c, today)

/-- The outcome of `DoSatRemind`: its return code, the trigger and its time, and `LastTriggerDate`
where `LastTrigValid` is set. -/
structure SatFound where
  err : Option ErrCode := none
  trig : Trigger
  tim : TimeTrig
  last : Option ℤ := none

/-- The value of a SATISFY expression counts as true. -/
def Value.truth : Value → Except ErrCode Bool
  | .int n => .ok (n ≠ 0)
  | .str s => .ok (s ≠ "")
  | _ => .error .badType

/-- What `DoSatRemind` does with a candidate date `n` that the search from `start` found. -/
def trySatisfy (zoneToday start n : ℤ) (t : Trigger) (tim : TimeTrig)
    (again : Trigger → ℤ → m SatFound) : m SatFound :=
  if n = -1 then pure { err := some .expired, trig := t, tim := tim }
  else do
    match ← e.satisfy n with
    | .error r => pure { err := some r, trig := t, tim := tim, last := some n }
    | .ok v =>
      match v.truth with
      | .error r => pure { err := some r, trig := t, tim := tim, last := some n }
      | .ok true =>
        let adj := adjustTriggerForDuration (getScanfrom e.modes.calmode zoneToday t) n t tim
        pure { trig := adj.1, tim := adj.2.1, last := some adj.2.2 }
      | .ok false =>
        again t (if n + t.durationDays < start then start + 1 else n + t.durationDays + 1)

/-- `while (iter++ < MaxSatIter)` of `DoSatRemind`. -/
def satLoop (zoneToday : ℤ) (tim : TimeTrig) : ℕ → Trigger → ℤ → m SatFound
  | 0, t, _ => pure { err := some .cantTrig, trig := t, tim := tim }
  | k + 1, t, start => do
    let f ← computeTriggerNoAdjustDuration e.env t start tim 0
    match f.err with
    | some r =>
      pure { err := if r = .cantTrig then none else some r, trig := f.trig, tim := tim }
    | none =>
      if f.result = start then
        -- the source computes the event start from the return code, which is 0 here
        let t := setEvent f.trig tim 0
        trySatisfy e zoneToday start f.result t tim (satLoop zoneToday tim k)
      else if f.trig.durationDays = 0 then
        trySatisfy e zoneToday start f.result f.trig tim (satLoop zoneToday tim k)
      else do
        let f ← computeTriggerNoAdjustDuration e.env f.trig start tim f.trig.durationDays
        match f.err with
        | some r =>
          pure { err := if r = .cantTrig then none else some r, trig := f.trig, tim := tim }
        | none => trySatisfy e zoneToday start f.result f.trig tim (satLoop zoneToday tim k)

/-- `DoSatRemind`, for a SATISFY expression that parses. -/
def doSatRemind (zoneToday : ℤ) (t : Trigger) (tim : TimeTrig) : m SatFound :=
  satLoop e zoneToday tim e.maxSatIter t (getScanfrom e.modes.calmode zoneToday t)

end Trig

end Remind
