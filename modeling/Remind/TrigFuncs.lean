import Remind.DateFuncs
import Remind.DoRem

/-!
# TrigFuncs — evaltrig(), multitrig() and trig() (funcs.c: `FEvalTrig`, `FMultiTrig`, `FTrig`)

`LastInfo` holds what `SaveAllTriggerInfo` writes.  The functions call `ComputeTrigger` with
`save_in_globals` off; `AdjustTriggerForTimeZone` saves in any case, also where the search calls it.
The code of the user's functions is pure here.
-/

namespace Remind

/-- `LastTrigger`, `LastTimeTrig`, `LastTriggerDate`, `LastTriggerTime` and `LastTrigValid` -/
structure LastInfo where
  trigger : Trigger := {}
  timeTrig : TimeTrig := {}
  date : ℤ := -1
  time : Option ℤ := none
  valid : Bool := false
  deriving DecidableEq, Repr

/-- `SaveAllTriggerInfo` -/
def saveAllTriggerInfo (t : Trigger) (tim : TimeTrig) (trigdate : ℤ) (trigtime : Option ℤ)
    (valid : Bool) (g : LastInfo) : LastInfo :=
  let g := { g with trigger := t, timeTrig := tim, time := trigtime }
  if trigdate ≠ -1 then { g with date := trigdate, valid := valid } else g

/-- `if (save_in_globals)` -/
def saveIf (save : Bool) (f : LastInfo → LastInfo) : StateM LastInfo Unit :=
  if save then modify f else pure ()

section Saving

variable (e : RemEnv Id)

/-- `AdjustTriggerForTimeZone`, with what it saves. -/
def adjustTriggerSaving (t : Trigger) (tim : TimeTrig) (n : ℤ) :
    StateM LastInfo (Trigger × TimeTrig × ℤ) := do
  match t.tz with
  | none => return (t, tim, n)
  | some tz =>
    if n < 0 then return (t, tim, n)
    else
      let orig := tim.ttimeOrig.getD 0
      match e.tzConvert (fromDSE n) (orig / 60) (orig % 60) tz with
      | none => return (t, tim, n)
      | some (ymd, hour, minute) =>
        let n := dse ymd.y ymd.m ymd.d
        let tim := { tim with ttime := some (hour * 60 + minute) }
        let t := { t with eventstart := some (n * minutesPerDay + (hour * 60 + minute)) }
        modify (saveAllTriggerInfo t tim n tim.ttime true)
        return (t, tim, n)

/-- The surroundings of the search. -/
def RemEnv.saving : Env (StateM LastInfo) where
  weekdayOmits := e.weekdayOmits
  maxSatIter := e.maxSatIter
  calmode := e.modes.calmode && !e.modes.hideCompletedTodos
  isOmitted localomit omitfunc n := pure (e.isOmitted localomit omitfunc n)
  viewLocally t tim n := do
    let adj ← adjustTriggerSaving e t tim n
    return { trig := adj.1, newResult := adj.2.2, dseToday := e.exitTimezone t.tz }

/-- The checks that `ComputeTriggerNoAdjustDuration` begins with. -/
def searchAllowed (t : Trigger) (today : ℤ) (tim : TimeTrig) (dur : ℤ) : Bool :=
  !(decide (e.weekdayOmits ||| t.localomit = 0x7F) || decide (today - dur < 0) ||
    decide (tim.duration ≠ none ∧ tim.ttime = none) ||
    decide (t.rep ≠ 0 ∧ (t.d = none ∨ t.m = none ∨ t.y = none)))

/-- `ComputeTriggerNoAdjustDuration`, with what it saves. -/
def searchSaving (save : Bool) (t : Trigger) (today : ℤ) (tim : TimeTrig) (dur : ℤ) :
    StateM LastInfo Found := do
  saveIf save fun g => { g with valid := false, date := -1 }
  saveIf (save && searchAllowed e t today tim dur) fun g => { g with trigger := t.unexpired }
  let f ← computeTriggerNoAdjustDuration e.saving t today tim dur
  saveIf (save && f.last.isSome) fun g => { g with date := f.last.getD (-1), valid := true }
  return f

/-- The end of `ComputeTrigger`, where the last search found `f`. -/
def adjustDurationSaving (save : Bool) (today : ℤ) (tim : TimeTrig) (f : Found) :
    StateM LastInfo Computed :=
  if f.err ≠ none then return ⟨f.err, f.result, f.trig, tim⟩
  else do
    let adj := adjustTriggerForDuration today f.result f.trig tim
    saveIf save (saveAllTriggerInfo adj.1 adj.2.1 adj.2.2 adj.2.1.ttime true)
    return ⟨none, adj.2.2, adj.1, adj.2.1⟩

/-- `ComputeTrigger` after its first search, with what it saves. -/
def computeTriggerRestSaving (save : Bool) (today : ℤ) (tim : TimeTrig) (f : Found) :
    StateM LastInfo Computed :=
  if f.err ≠ none then return ⟨f.err, f.result, f.trig, tim⟩
  else if f.result = today then do
    let t := setEvent f.trig tim f.result
    saveIf save (saveAllTriggerInfo t tim f.result tim.ttime true)
    return ⟨none, f.result, t, tim⟩
  else if f.trig.durationDays ≠ 0 then do
    adjustDurationSaving save today tim
      (← searchSaving e save f.trig today tim f.trig.durationDays)
  else adjustDurationSaving save today tim f

/-- `ComputeTrigger`, with what it saves. -/
def computeTriggerSaving (save : Bool) (today : ℤ) (t : Trigger) (tim : TimeTrig) :
    StateM LastInfo Computed := do
  computeTriggerRestSaving e save today tim (← searchSaving e save t today tim 0)

end Saving

/-! ### The functions -/

section Functions

variable (e : RemEnv Id) (parseRem : String → Except ErrCode (Trigger × TimeTrig)) (today : ℤ)

/-- `ParseRem` on an argument, and the checks that follow it. -/
def parseTrigArg (s : String) : Except ErrCode (Trigger × TimeTrig) :=
  match parseRem s with
  | .error r => .error r
  | .ok (t, tim) =>
    if t.tz ≠ none ∧ tim.ttime = none then .error .tzNoAt
    else if t.typ ≠ .noType then .error .parseErr
    else .ok (t, tim)

/-- What `FEvalTrig` makes of the outcome of `ComputeTrigger`. -/
def evalTrigResult (c : Computed) : StateM LastInfo (Except ErrCode Value) :=
  if c.err = some .cantTrig ∧ c.trig.maybeUncomputable = true then return .ok (.int (-1))
  else
    match c.err with
    | some r => return .error r
    | none =>
      if c.result < 0 then return .ok (.int c.result)
      else
        match c.tim.ttime with
        | none => return .ok (.date c.result)
        | some _ => do
          let adj ← adjustTriggerSaving e c.trig c.tim c.result
          return .ok (.datetime (minutesPerDay * adj.2.2 + adj.2.1.ttime.getD 0))

/-- `FEvalTrig` on a trigger and the date it is scanned from, if that is given.  (The warning where
both that and a SCANFROM are given is left out.) -/
def evalTrig (s : String) (scanfrom : Option ℤ) : StateM LastInfo (Except ErrCode Value) :=
  match parseTrigArg parseRem s with
  | .error r => return .error r
  | .ok (t, tim) => do
    let zoneToday : ℤ := e.enterTimezone t.tz
    evalTrigResult e (← computeTriggerSaving e false
      (scanfrom.getD (getScanfrom e.modes.calmode zoneToday t)) t tim)

/-- `FEvalTrig` -/
def fEvaltrig : List Value → StateM LastInfo (Except ErrCode Value)
  | [.str s] => evalTrig e parseRem s none
  | .str s :: v :: _ =>
    match v.datePart with
    | none => return .error .badType
    | some n => evalTrig e parseRem s (some n)
  | _ => return .error .badType

/-- The loop of `FMultiTrig`. -/
def multiTrigLoop : List String → ℤ → StateM LastInfo (Except ErrCode ℤ)
  | [], earliest => return .ok earliest
  | s :: args, earliest =>
    match parseTrigArg parseRem s with
    | .error r => return .error r
    | .ok (t, tim) =>
      if tim.ttime ≠ none then return .error .parseErr
      else do
        let c ← computeTriggerSaving e false (getScanfrom e.modes.calmode today t) t tim
        multiTrigLoop args
          (if c.err ≠ some .cantTrig ∧ (c.result < earliest ∨ earliest < 0) then c.result
            else earliest)

/-- The arguments of `FMultiTrig` and `FTrig` are STRINGs. -/
def strArgs : List Value → Option (List String)
  | [] => some []
  | .str s :: args => (strArgs args).map (s :: ·)
  | _ :: _ => none

/-- `FMultiTrig` -/
def fMultitrig (args : List Value) : StateM LastInfo (Except ErrCode Value) :=
  match strArgs args with
  | none => return .error .badType
  | some args => do
    match ← multiTrigLoop e parseRem today args (-1) with
    | .error r => return .error r
    | .ok earliest => return .ok (.date (if earliest ≥ 0 then earliest else 0))

/-- The loop of `FTrig`: the value and `LastTrig`. -/
def trigLoop (lastTrig : ℤ) : List String → StateM LastInfo (Except ErrCode ℤ × ℤ)
  | [] => return (.ok 0, lastTrig)
  | s :: args =>
    match parseTrigArg parseRem s with
    | .error r => return (.error r, lastTrig)
    | .ok (t, tim) => do
      let zoneToday : ℤ := e.enterTimezone t.tz
      let c ← computeTriggerSaving e false (getScanfrom e.modes.calmode zoneToday t) t tim
      let today : ℤ := e.exitTimezone t.tz
      if c.err = some .cantTrig then trigLoop lastTrig args
      else
        let adj ← adjustTriggerSaving e c.trig c.tim c.result
        let triggers : Bool := shouldTriggerReminder e adj.1 adj.2.1 today adj.2.2
        if triggers then return (.ok adj.2.2, adj.2.2) else trigLoop lastTrig args

/-- `FTrig`: the value and `LastTrig`. -/
def fTrig (lastTrig : ℤ) (args : List Value) : StateM LastInfo (Except ErrCode Value × ℤ) :=
  match strArgs args with
  | none => return (.error .badType, lastTrig)
  | some [] => return (.ok (.date lastTrig), lastTrig)
  | some args => do
    let (r, lastTrig) ← trigLoop e parseRem lastTrig args
    return (r.map .date, lastTrig)

end Functions

end Remind
