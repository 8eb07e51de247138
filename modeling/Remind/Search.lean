import Remind.SimpleTrig

/-!
# Search — the search for the trigger date (trigger.c: `GetNextTriggerDate` to `ComputeTrigger`)

The search asks its surroundings whether dates are omitted, and with a TZ clause it leaves and
enters the time zone.  Both may run user code, so they are operations of a monad `m`; with
`m := Id` the search is a plain function.

A C loop `while (iter++ <= max)` that must end by `break` runs its body at most `max + 1` times, and
a `break` in the last of these rounds counts as a failure too.
-/

namespace Remind

/-- `TRIG_ATTEMPTS` -/
def trigAttempts : ℕ := 500

/-- What the C function does between `ExitTimezone` and `EnterTimezone`: the trigger with its new
`eventstart`, the date in the local zone and `DSEToday` there. -/
structure LocalView where
  trig : Trigger
  newResult : ℤ
  dseToday : ℤ

/-- The surroundings of a search. -/
structure Env (m : Type → Type) where
  weekdayOmits : WdSet
  /-- `$MaxSatIter` -/
  maxSatIter : ℕ
  /-- `(DoSimpleCalendar || DoCalendar) && !HideCompletedTodos` -/
  calmode : Bool
  /-- `IsOmitted(dse, localomit, omitfunc, &omit)` -/
  isOmitted : WdSet → String → ℤ → m (Except ErrCode Bool)
  /-- `ExitTimezone`, `AdjustTriggerForTimeZone` on a copy of the time trigger, `EnterTimezone`. -/
  viewLocally : Trigger → TimeTrig → ℤ → m LocalView

/-- `until != NO_UNTIL && until < n` -/
def pastUntil (untilDate : Option ℤ) (n : ℤ) : Bool :=
  match untilDate with
  | some u => decide (u < n)
  | none => false

section Search

variable {m : Type → Type} [Monad m] (e : Env m) (t : Trigger)

/-- `IsOmitted` for the trigger. -/
def Env.omitted (n : ℤ) : m (Except ErrCode Bool) := e.isOmitted t.localomit t.omitfunc n

/-- "If it's an AFTER-type skip, back up until we're at the start of a block of holidays." -/
def backUpStart : ℕ → ℤ → m (Except ErrCode ℤ)
  | 0, _ => pure (.error .cantTrig)
  | k + 1, start => do
    match ← e.omitted t (start - 1) with
    | .error r => pure (.error r)
    | .ok omitted =>
      if !omitted then pure (if k = 0 then .error .cantTrig else .ok start)
      else if start - 1 < 0 then pure (.error .cantTrig)
      else backUpStart k (start - 1)

/-- Go back `mod` days that are not omitted. -/
def backLoop : ℕ → ℤ → ℤ → m (Except ErrCode ℤ)
  | 0, _, _ => pure (.error .cantTrig)
  | k + 1, mod, simple =>
    if mod = 0 then pure (if k = 0 then .error .cantTrig else .ok simple)
    else do
      match ← e.omitted t (simple - 1) with
      | .error r => pure (.error r)
      | .ok omitted => backLoop k (if omitted then mod else mod - 1) (simple - 1)

/-- "If there's a BACK, back up..." -/
def applyBack (simple : ℤ) : m (Except ErrCode ℤ) :=
  if t.back < 0 then pure (.ok (simple + t.back))
  else if t.back = 0 then pure (.ok simple)
  else backLoop e t (max e.maxSatIter (2 * t.back).toNat + 1) t.back simple

/-- "If there's a REP, calculate the next occurrence." -/
def applyRep (start simple : ℤ) : ℤ :=
  if t.rep ≠ 0 ∧ simple < start then
    let next := simple + (start - simple).tdiv t.rep * t.rep
    if next < start then next + t.rep else next
  else simple

/-- "If it's a BEFORE-type skip, back up." -/
def beforeLoop : ℕ → ℤ → m (Except ErrCode ℤ)
  | 0, _ => pure (.error .cantTrig)
  | k + 1, simple => do
    match ← e.omitted t simple with
    | .error r => pure (.error r)
    | .ok omitted =>
      if !omitted then pure (if k = 0 then .error .cantTrig else .ok simple)
      else if simple - 1 < 0 then pure (.error .cantTrig)
      else beforeLoop k (simple - 1)

/-- "If it's an AFTER-type skip, jump ahead." -/
def afterLoop : ℕ → ℤ → m (Except ErrCode ℤ)
  | 0, _ => pure (.error .cantTrig)
  | k + 1, simple => do
    match ← e.omitted t simple with
    | .error r => pure (.error r)
    | .ok omitted =>
      if !omitted then pure (if k = 0 then .error .cantTrig else .ok simple)
      else afterLoop k (simple + 1)

/-- The BEFORE and AFTER rules. -/
def applySkip (simple : ℤ) : m (Except ErrCode ℤ) :=
  match t.skip with
  | .before => beforeLoop e t (e.maxSatIter + 1) simple
  | .after => afterLoop e t (e.maxSatIter + 1) simple
  | .skip => pure (.ok simple)
  | .noSkip => pure (.ok simple)

/-- What follows `NextSimpleTrig` in `GetNextTriggerDate`. -/
def moveDate (start simple : ℤ) : m (Except ErrCode ℤ) := do
  match ← applyBack e t simple with
  | .error r => pure (.error r)
  | .ok back => applySkip e t (applyRep t start back)

/-- `GetNextTriggerDate` from "Find the next simple trigger" on. -/
def lookFrom (nextstart start : ℤ) : m (Except ErrCode (ℤ × ℤ)) :=
  match nextSimpleTrig start t with
  | none => pure (.error .diverges)
  | some (.error r) => pure (.error r)
  | some (.ok simple) =>
    if simple = -1 then pure (.ok (-1, nextstart))
    else do
      match ← moveDate e t start simple with
      | .error r => pure (.error r)
      | .ok moved => pure (.ok (if pastUntil t.untilDate moved then -1 else moved, simple + 1))

/-- `GetNextTriggerDate`: the date and `*nextstart`. -/
def getNextTriggerDate (start nextstart : ℤ) : m (Except ErrCode (ℤ × ℤ)) :=
  if !t.isTodo && pastUntil t.untilDate start then pure (.ok (-1, nextstart))
  else if !e.calmode && t.isTodo &&
      (match t.completeThrough with | some c => decide (c ≥ start) | none => false) then
    pure (.ok (-1, nextstart))
  else if t.skip = .after then do
    match ← backUpStart e t (e.maxSatIter + 1) start with
    | .error r => pure (.error r)
    | .ok start => lookFrom e t nextstart start
  else lookFrom e t nextstart start

/-- The outcome of a search: `*err`, the value returned, the trigger as the search leaves it, and
`LastTriggerDate` where `LastTrigValid` is set. -/
structure Found where
  err : Option ErrCode := none
  result : ℤ := -1
  trig : Trigger
  last : Option ℤ := none

def Found.failed (t : Trigger) (r : ErrCode) : Found := { err := some r, trig := t }

def Found.expire (t : Trigger) (last : Option ℤ) : Found :=
  { trig := { t with expired := true }, last := last }

/-- Where the search scans on: under SKIP an omitted date that is not before the start is passed. -/
def rescanStart (t : Trigger) (start nextstart result : ℤ) (omitted : Bool) : ℤ :=
  if t.skip = .skip ∧ omitted = true ∧ nextstart ≤ start ∧ result ≥ start then result + 1
  else nextstart

/-- The rest of a round of the search loop once the time zone has no objection.  `again` scans on
from a new start. -/
def acceptOrRescan (t : Trigger) (today dur start nextstart result : ℤ) (omitted : Bool)
    (again : ℤ → ℤ → m Found) : m Found :=
  if result + dur ≥ today ∧ (t.skip ≠ .skip ∨ omitted = false) then
    pure { result := result, trig := t, last := some result }
  else if t.back = 0 ∧ t.skip = .noSkip ∧ t.rep = 0 then pure (.expire t (some result))
  else if rescanStart t start nextstart result omitted ≤ start then pure (.expire t (some result))
  else
    again (rescanStart t start nextstart result omitted)
      (rescanStart t start nextstart result omitted)

/-- Whether the date found is omitted, where SKIP asks for it. -/
def skipOmitted (t : Trigger) (result : ℤ) : m (Except ErrCode Bool) :=
  if t.skip = .skip then e.omitted t result else pure (.ok false)

/-- The rest of a round of the search loop, for a date found.  With a time zone, a date that is over
in the local zone leads to another attempt from the next day on. -/
def tryDate (tim : TimeTrig) (t : Trigger) (today dur start nextstart saveNextstart result : ℤ)
    (omitted : Bool) (again : Trigger → ℤ → ℤ → ℤ → m Found) : m Found :=
  if t.tz = none then
    acceptOrRescan t today dur start nextstart result omitted
      fun start nextstart => again t start nextstart saveNextstart
  else do
    let v ← e.viewLocally t tim result
    if (t.scanfrom = none ∧ v.newResult < v.dseToday) ∨
        (result + dur ≥ today ∧ v.newResult + dur < today) then
      if nextstart ≤ saveNextstart then pure (.expire v.trig none)
      else again v.trig (start + 1) (start + 1) nextstart
    else
      acceptOrRescan v.trig today dur start nextstart result omitted
        fun start nextstart => again v.trig start nextstart saveNextstart

/-- `while (nattempts++ < TRIG_ATTEMPTS)`: the trigger, `start`, `nextstart`, `save_nextstart`. -/
def searchLoop (tim : TimeTrig) (today dur : ℤ) : ℕ → Trigger → ℤ → ℤ → ℤ → m Found
  | 0, t, _, _, _ => pure (.failed t .cantTrig)
  | n + 1, t, start, nextstart, saveNextstart => do
    match ← getNextTriggerDate e t start nextstart with
    | .error r => pure (.failed t r)
    | .ok (result, nextstart) =>
      if result = -1 then pure (.expire t none)
      else do
        match ← skipOmitted e t result with
        | .error r => pure (.failed t r)
        | .ok omitted =>
          tryDate e tim t today dur start nextstart saveNextstart result omitted
            (searchLoop tim today dur n)

/-- `trig->expired = 0` -/
def Trigger.unexpired (t : Trigger) : Trigger := { t with expired := false }

/-- `ComputeTriggerNoAdjustDuration` -/
def computeTriggerNoAdjustDuration (today : ℤ) (tim : TimeTrig) (dur : ℤ) : m Found :=
  if e.weekdayOmits ||| t.localomit = 0x7F then pure (.failed t.unexpired .tooManyLocalomit)
  else if today - dur < 0 then pure (.failed t.unexpired .dateOver)
  else if tim.duration ≠ none ∧ tim.ttime = none then pure (.failed t.unexpired .durationNoAt)
  else if t.rep ≠ 0 ∧ (t.d = none ∨ t.m = none ∨ t.y = none) then
    pure (.failed t.unexpired .repFulspec)
  else searchLoop e tim today dur trigAttempts t.unexpired (today - dur) 0 0

end Search

end Remind
