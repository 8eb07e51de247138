import Remind.ComputeTrigger
import Remind.Omit

/-!
# DoRem — what becomes of a reminder (dorem.c: `DoRem`; main.c: `DoIfTrig`; calendar.c: `DoCalRem`)

The line has been parsed.  The three callers compute its trigger date and decide whether it is
issued or queued, whether the IFTRIG block is executed, and whether it is entered in the calendar.
What they print is left out.
-/

namespace Remind

/-- A line of a reminder as `ParseRem` leaves it; `rest` is the type and the word for SPECIAL that
follow a SATISFY clause, if anything does. -/
structure RemLine where
  trig : Trigger
  tim : TimeTrig
  rest : Except ErrCode (Option (RemType × String)) := .ok none

/-- The operations that `DoRem`, `DoIfTrig` and `DoCalRem` use besides. -/
structure IssueEnv (m : Type → Type) extends RemEnv m where
  /-- `TriggerReminder` on the rest of the line, for a trigger on a date. -/
  triggerReminder : Trigger → TimeTrig → ℤ → m (Option ErrCode)
  /-- `ParseChar` to the end of the line. -/
  parseRest : m (Option ErrCode)
  /-- The three color numbers of a SPECIAL COLOR. -/
  parseColor : m (Option ErrCode)
  /-- `DoSubst`, with `calprefix` and `calsuffix` applied to a text that is not empty. -/
  doSubst : Trigger → TimeTrig → ℤ → m (Except ErrCode String)
  /-- `DedupeReminders` and `ShouldDedupe` -/
  shouldDedupe : ℤ → Option ℤ → String → Bool

/-- What the decisions about a reminder are taken on. -/
structure Firing where
  trig : Trigger
  tim : TimeTrig
  dse : ℤ

/-- The outcome of a line: the return code, the OMIT context, and what becomes of the reminder. -/
structure RemOutcome where
  err : Option ErrCode := none
  omits : OmitContext
  firing : Option Firing := none
  queued : Bool := false
  issued : Bool := false
  entered : Bool := false

section Decide

variable {m : Type → Type} [Monad m] (e : RemEnv m) (t : Trigger) (tim : TimeTrig) (today : ℤ)

/-- A TODO not completed through its trigger date `n`, or complete: the decision, if it is taken
here. -/
def todoOverdue (n : ℤ) : Option Bool :=
  if (match t.completeThrough with | none => true | some c => decide (c < n)) then
    if n < today then
      match t.maxOverdue with
      | some x => some (decide (¬ n + x < today))
      | none => some true
    else none
  else some false

/-- `!IgnoreOnce && t->once != NO_ONCE && GetOnceDate() == DSEToday` -/
def onceDone : Bool :=
  !e.modes.ignoreOnce && t.once && decide (e.modes.onceDate = today)

/-- `todo_filtered` -/
def todoFiltered : Bool :=
  match e.modes.todoFilter with
  | .onlyEvents => t.isTodo
  | .onlyTodos => !t.isTodo
  | .todosAndEvents => false

/-- The walk back of a negative WARN value over days that are not omitted. -/
def warnBack : ℕ → ℤ → ℤ → m (Option ℤ)
  | 0, _, _ => pure none
  | k + 1, v, j => do
    match ← e.isOmitted t.localomit t.omitfunc (j - 1) with
    | .error _ => pure none
    | .ok omitted =>
      let v := if omitted then v else v + 1
      if v = 0 then pure (if k = 0 then none else some (j - 1)) else warnBack k v (j - 1)

/-- What one value of the WARN function decides, if anything. -/
def warnTry (n v : ℤ) : m (Option Bool) :=
  if v ≥ 0 then pure (if today + v = n then some true else none)
  else do
    match ← warnBack e t (e.maxSatIter + 1) v n with
    | none => pure (some (decide (n = today)))
    | some j => pure (if j = today then some true else none)

/-- The loop over the values of the WARN function, whose absolute values have to fall. -/
def warnLoop (n : ℤ) (i last : ℕ) : m Bool := do
  match ← e.evalUser t.warn i with
  | .ok (.int v) =>
    if _h : v.natAbs < last then
      match ← warnTry e t today n v with
      | some b => pure b
      | none => warnLoop n (i + 1) v.natAbs
    else pure (decide (n = today))
  | _ => pure (decide (n = today))
termination_by last

/-- `ShouldTriggerBasedOnWarn` (no caller looks at `*err`) -/
def shouldTriggerBasedOnWarn (n : ℤ) : m Bool :=
  let complete := match t.completeThrough with | some c => decide (c ≥ today) | none => false
  let todo := if t.isTodo && !e.modes.calmode then
      (if complete then some false else todoOverdue t today n) else none
  match todo with
  | some b => pure b
  | none =>
    if !e.userFuncExists t.warn then pure (decide (n = today))
    else do
      match ← e.evalUser t.warn 1 with
      | .ok (.int v) =>
        match ← warnTry e t today n v with
        | some b => pure b
        | none => warnLoop e t today n 2 v.natAbs
      | _ => pure (decide (n = today))

/-- "Move back by delta days", to a date not after `today` at most. -/
def deltaBack : ℕ → ℤ → ℤ → m (Option ℤ)
  | 0, _, _ => pure none
  | k + 1, r, n =>
    if r = 0 ∨ n ≤ today then pure (some n)
    else do
      match ← e.isOmitted t.localomit t.omitfunc (n - 1) with
      | .error _ => pure none
      | .ok omitted => deltaBack k (if omitted then r else r - 1) (n - 1)

/-- The end of `ShouldTriggerReminder`: the rules for a date that is not in the past. -/
def triggerAhead (n : ℤ) : m Bool :=
  if e.modes.infiniteDelta || e.modes.nextMode then pure true
  else if t.warn ≠ "" then
    if e.modes.deltaOverride > 0 ∧ n ≤ today + e.modes.deltaOverride then pure true
    else shouldTriggerBasedOnWarn e t today n
  else if e.modes.deltaOverride < 0 then pure (decide (n = today))
  else if e.modes.deltaOverride ≠ 0 then pure (decide (n - e.modes.deltaOverride ≤ today))
  else if t.delta < 0 then pure (decide (n + t.delta ≤ today))
  else if t.delta = 0 then pure (decide (n ≤ today))
  else do
    match ← deltaBack e t today (max e.maxSatIter (2 * t.delta).toNat) t.delta n with
    | none => pure false
    | some n => pure (decide (n ≤ today))

/-- The rules of `ShouldTriggerReminder` for a date in the past and for TODOs: the decision, if it is
taken here. -/
def pastDecision (n : ℤ) : Option Bool :=
  if t.isTodo && !(e.modes.calmode && !e.modes.hideCompletedTodos) then
    if (match t.completeThrough with
        | some c => decide (c ≥ today ∧ n ≤ c) | none => false) then some false
    else todoOverdue t today n
  else if n < today then some false
  else none

/-- `ShouldTriggerReminder` (no caller looks at `*err`) -/
def shouldTriggerReminder (n : ℤ) : m Bool :=
  if onceDone e t today then pure false
  else
    match pastDecision e t today n with
    | some b => pure b
    | none =>
      match tim.ttime with
      | some ttime =>
        if n = today ∧ e.modes.dontIssueAts ≠ 0 ∧
            (e.modes.dontIssueAts = 1 ∨ ttime < e.modes.minutesPastMidnight) then pure false
        else triggerAhead e t today n
      | none => triggerAhead e t today n

/-- `ShouldQueueReminder` -/
def shouldQueueReminder (n : ℤ) : m Bool :=
  match tim.ttime with
  | none => pure false
  | some ttime =>
    if (e.modes.dontQueue || t.noqueue) = true ∨ t.typ = .cal ∨
        t.typ = .run ∧ e.modes.runDisabled = true then
      pure false
    else if n * minutesPerDay + ttime < today * minutesPerDay + e.modes.minutesPastMidnight then
      pure false
    else do
      let endOfToday := today * minutesPerDay + minutesPerDay - 1
      let close ←
        if t.sched ≠ "" ∧ e.userFuncExists t.sched = true then do
          match ← e.evalUser t.sched 1 with
          | .error _ => pure false
          | .ok v =>
            let ahead := match v with | .int x => x | .time x => x | _ => ttime
            pure (decide (n * minutesPerDay + ahead ≤ endOfToday))
        else pure false
      pure ((close || decide (¬ n * minutesPerDay + ttime - tim.delta > endOfToday)) &&
        !todoFiltered e t && !onceDone e t today)

end Decide

/-- `FixSpecialType` -/
def fixSpecialType (t : Trigger) : Trigger :=
  if t.typ ≠ .passthru then t
  else
    match t.passthru.toLower with
    | "msg" => { t with typ := .msg }
    | "msf" => { t with typ := .msf }
    | "run" => { t with typ := .run }
    | "cal" => { t with typ := .cal }
    | "ps" => { t with typ := .ps }
    | "psfile" => { t with typ := .psf }
    | _ => t

section Rem

variable {m : Type → Type} [Monad m] (e : IssueEnv m)

/-- "An empty string for time zone is just a missing time zone" -/
def dropEmptyTz (t : Trigger) : Trigger :=
  if t.tz = some "" then { t with tz := none } else t

/-- The OMIT context after the ADDOMIT of a reminder on date `n`. -/
def addOmit (c : OmitContext) (t : Trigger) (n : ℤ) : OmitContext × Option ErrCode :=
  if t.addomit then addGlobalOmit c n else (c, none)

/-- `DoRem` issues a reminder, or parses the rest of its line. -/
def issueRem (c : OmitContext) (today : ℤ) (f : Firing) (queued : Bool) : m RemOutcome := do
  if ← shouldTriggerReminder e.toRemEnv f.trig f.tim today f.dse then
    if todoFiltered e.toRemEnv f.trig then
      pure { omits := c, firing := some f, queued := queued }
    else
      let r ← e.triggerReminder f.trig f.tim f.dse
      pure { err := r, omits := c, firing := some f, queued := queued, issued := true }
  else
    let r ← if e.modes.parseUntriggered then e.parseRest else pure none
    pure { err := r, omits := c, firing := some f, queued := queued }

/-- What `DoRem` does with a trigger date in the local zone: ADDOMIT, and the decisions. -/
def decideLocal (c : OmitContext) (today : ℤ) (f : Firing) : m RemOutcome :=
  match addOmit c f.trig f.dse with
  | (c, some r) => pure { err := some r, omits := c }
  | (c, none) =>
    if e.modes.purgeMode then pure { omits := c, firing := some f }
    else do
      let queued ← shouldQueueReminder e.toRemEnv f.trig f.tim today f.dse
      if e.modes.daemon then pure { omits := c, firing := some f, queued := queued }
      else issueRem e c today f queued

/-- A trigger date in the local time zone. -/
def localFiring (t : Trigger) (tim : TimeTrig) (n : ℤ) : Firing :=
  let adj := adjustTriggerForTimeZone e.toRemEnv t tim n
  ⟨adj.1, adj.2.1, adj.2.2⟩

/-- What `DoRem` does with a trigger date. -/
def decideRem (c : OmitContext) (today : ℤ) (t : Trigger) (tim : TimeTrig) (n : ℤ) :
    m RemOutcome :=
  decideLocal e c today (localFiring e t tim n)

/-- A line with a SATISFY clause, from `DoSatRemind` on: `go` takes the trigger date, with the type
that follows the clause. -/
def remSatisfy (c : OmitContext) (l : RemLine) (t : Trigger)
    (go : ℤ → Trigger → TimeTrig → ℤ → m RemOutcome) : m RemOutcome := do
  let zoneToday ← e.enterTimezone t.tz
  let f ← doSatRemind e.toRemEnv zoneToday t l.tim
  let today ← e.exitTimezone t.tz
  match f.err with
  | some r =>
    pure { err := if r = .cantTrig ∧ f.trig.maybeUncomputable = true ∨ r = .expired then none
                  else some r, omits := c }
  | none =>
    match f.last with
    | none => pure { omits := c }
    | some n =>
      match l.rest with
      | .error r => pure { err := some r, omits := c }
      | .ok none =>
        pure { err := (addOmit c f.trig n).2, omits := (addOmit c f.trig n).1 }
      | .ok (some (typ, passthru)) =>
        if typ = .sat then pure { err := some .parseErr, omits := c }
        else if typ = .passthru ∧ passthru = "" then pure { err := some .eoln, omits := c }
        else
          let passthru := if typ = .passthru then passthru else f.trig.passthru
          go today (fixSpecialType { f.trig with typ := typ, passthru := passthru }) f.tim n

/-- The checks of `DoRem` before the date is computed. -/
def remError (l : RemLine) : Option ErrCode :=
  if l.trig.tz ≠ none ∧ l.tim.ttime = none then some .tzNoAt
  else if l.trig.completeThrough ≠ none ∧ l.trig.isTodo = false then some .completeWithoutTodo
  else if l.trig.maxOverdue ≠ none ∧ l.trig.isTodo = false then some .maxOverdueWithoutTodo
  else if l.trig.typ = .noType then some .eoln
  else none

/-- The return code of a caller of `ComputeTrigger` that failed. -/
def computeError (f : Computed) (r : ErrCode) : Option ErrCode :=
  if r = .cantTrig ∧ f.trig.maybeUncomputable = true then none else some r

/-- `DoRem` -/
def doRem (c : OmitContext) (l : RemLine) : m RemOutcome :=
  match remError l with
  | some r => pure { err := some r, omits := c }
  | none =>
    if l.trig.typ = .sat then
      remSatisfy e c l (dropEmptyTz l.trig) fun today t tim n =>
        if e.modes.purgeMode then pure { omits := c } else decideRem e c today t tim n
    else do
      let (f, today) ← computeInTimezone e.toRemEnv (dropEmptyTz l.trig) l.tim
      match f.err with
      | some r => pure { err := computeError f r, omits := c }
      | none => decideRem e c today f.trig f.tim f.result

/-- `DoIfTrig`, where the line is not ignored and the stack of IFs is not full: whether the block is
executed. -/
def doIfTrig (l : RemLine) : m (Except ErrCode Bool) :=
  if l.trig.typ ≠ .noType then pure (.error .parseErr)
  else do
    let (f, today) ← computeInTimezone e.toRemEnv l.trig l.tim
    if f.err ≠ none then pure (.ok false)
    else
      let adj := if f.result ≥ 0 then adjustTriggerForTimeZone e.toRemEnv f.trig f.tim f.result
        else (f.trig, f.tim, f.result)
      let b ← shouldTriggerReminder e.toRemEnv adj.1 adj.2.1 today adj.2.2
      pure (.ok b)

/-- "Convert PS and PSF to PASSTHRU" -/
def psToPassthru (t : Trigger) : Trigger :=
  match t.typ with
  | .ps => { t with typ := .passthru, passthru := "PostScript" }
  | .psf => { t with typ := .passthru, passthru := "PSFile" }
  | _ => t

/-- `!strcasecmp(trig.passthru, "COLOR") || !strcasecmp(trig.passthru, "COLOUR")` -/
def isColor (t : Trigger) : Bool :=
  decide (t.typ = .passthru) && ["color", "colour"].contains t.passthru.toLower

/-- A reminder that gets no entry whatever its date: none are drawn, timed ones are left out, it is
filtered, or it is a SPECIAL that the calendar on screen does not draw. -/
def notDrawn (t : Trigger) (tim : TimeTrig) : Bool :=
  !e.modes.inCalendar || (decide (e.modes.dontIssueAts ≠ 0) && tim.ttime.isSome) ||
    todoFiltered e.toRemEnv t ||
    (decide ((psToPassthru t).typ = .passthru) && !e.modes.psCal && !isColor (psToPassthru t) &&
      decide ((psToPassthru t).passthru.toLower ≠ "moon"))

/-- The entry of the reminder: `stay` with it, unless its text is empty. -/
def enterCalRem (f : Firing) (stay : RemOutcome) : m RemOutcome := do
  match ← e.doSubst f.trig f.tim f.dse with
  | .error r => pure { stay with err := some r }
  | .ok text =>
    pure { stay with entered := text ≠ "" && !e.shouldDedupe f.dse f.tim.ttime text }

/-- "If trigger date == today, add it to the current entry" -/
def entersToday (today : ℤ) (f : Firing) : m Bool :=
  if f.dse = today then pure true
  else if e.modes.doSimpleCalDelta then
    shouldTriggerReminder e.toRemEnv f.trig f.tim today f.dse
  else pure false

/-- What `DoCalRem` does with a trigger date in the local zone.  The texts for SHADE, WEEK and MOON,
which are substituted on the date itself only, are left out. -/
def decideCalLocal (c : OmitContext) (today : ℤ) (f : Firing) : m RemOutcome :=
  match addOmit c f.trig f.dse with
  | (c, some r) => pure { err := some r, omits := c }
  | (c, none) =>
    let stay : RemOutcome := { omits := c, firing := some f }
    if notDrawn e f.trig f.tim then pure stay
    else do
      let t := psToPassthru f.trig
      match ← (if isColor t then e.parseColor else pure none) with
      | some r => pure { stay with err := some r }
      | none =>
        if ← entersToday e today { f with trig := t } then
          enterCalRem e { f with trig := t } stay
        else
          let r ← e.parseRest
          pure { stay with err := r }

/-- What `DoCalRem` does with a trigger date. -/
def decideCalRem (c : OmitContext) (today : ℤ) (t : Trigger) (tim : TimeTrig) (n : ℤ) :
    m RemOutcome :=
  decideCalLocal e c today (localFiring e t tim n)

/-- The checks of `DoCalRem` before the date is computed. -/
def calRemError (l : RemLine) : Option ErrCode :=
  if l.trig.tz ≠ none ∧ l.tim.ttime = none then some .tzNoAt
  else if l.trig.typ = .noType then some .eoln
  else none

/-- `DoCalRem` once the date is computed. -/
def goCalRem (c : OmitContext) (today : ℤ) (t : Trigger) (tim : TimeTrig) (n : ℤ) : m RemOutcome :=
  if n < 0 ∧ e.modes.parseUntriggered = false then pure { omits := c }
  else decideCalRem e c today t tim n

/-- `DoCalRem` -/
def doCalRem (c : OmitContext) (l : RemLine) : m RemOutcome :=
  match calRemError l with
  | some r => pure { err := some r, omits := c }
  | none =>
    if l.trig.typ = .sat then remSatisfy e c l (dropEmptyTz l.trig) (goCalRem e c)
    else do
      let (f, today) ← computeInTimezone e.toRemEnv (dropEmptyTz l.trig) l.tim
      match f.err with
      | some r => pure { err := computeError f r, omits := c }
      | none => goCalRem e c today f.trig f.tim f.result

end Rem

end Remind
