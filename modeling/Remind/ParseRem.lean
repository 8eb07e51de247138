import Remind.DoRem
import Remind.Duration
import Remind.FindToken
import Remind.ParsePtr

/-!
# ParseRem — the clauses of a reminder (dorem.c: `ParseRem`, `GetFullDate`, `ParseTimeTrig`,
# `ParseLocalOmit`, `ParseUntil`, `ParseScanFrom`; trigger.c: `AppendTrigInfo`)

The words of a line are read with the expressions in it pasted in.  What is printed is left out, the
warnings too.  The loops take a bound on the words that they read.
-/

namespace Remind

/-- `PASSTHRU_LEN` -/
def passthruLen : ℕ := 32

/-- The global settings that `ParseRem` uses. -/
structure RemConfig (σ : Type) extends PasteEnv σ where
  seps : LiteralSeps := {}
  defaultDelta : ℤ := 0
  defaultPrio : ℤ := 5000
  defaultTDelta : ℤ := 0

/-- The trigger that `ParseRem` fills in, with the fields that nothing but the parsing needs here, and
its variable `seen_delta`. -/
structure ParsedRem where
  trig : Trigger
  tim : TimeTrig
  priority : ℤ
  tags : List Char := []
  infos : List (List Char) := []
  needWkday : Bool := false
  adjForLast : Bool := false
  seenDelta : Bool := false
  nonconstExpr : Bool := false
  exprHappened : Bool := false
  deriving DecidableEq, Repr

/-- How the loop of `ParseRem` goes on after a token: `parsed` is `parsing = 0`, `returned` is a
return with `OK`. -/
inductive RemNext where
  | parsing (p : ParsedRem)
  | parsed (p : ParsedRem)
  | returned (p : ParsedRem)

/-- A time as it is stored: `NO_TIME` is `INT_MAX`. -/
def storedTime (v : ℤ) : Option ℤ := if v = 2147483647 then none else some v

/-- A name as `StrnCpy` and `strtolower` leave it. -/
def funcName (buf : List Char) : String :=
  String.ofList ((strnCpy buf varNameLen).map Char.toLower)

/-! ### INFO and TAG -/

/-- `TrigInfoIsValid` -/
def trigInfoIsValid (info : List Char) : Bool :=
  let header := info.takeWhile (· ≠ ':')
  decide (':' ∈ info) && header ≠ [] &&
    header.all fun c => !(isSpace c || c.toNat < 32 || c.toNat = 127)

/-- `TrigInfoHeadersAreTheSame` -/
def trigInfoHeadersAreTheSame (i1 i2 : List Char) : Bool :=
  if ':' ∉ i1 ∨ ':' ∉ i2 then true
  else strcasecmp (i1.takeWhile (· ≠ ':')) (i2.takeWhile (· ≠ ':'))

/-- `AppendTrigInfo` -/
def appendTrigInfo (infos : List (List Char)) (info : List Char) :
    Except ErrCode (List (List Char)) :=
  if !trigInfoIsValid info then .error .parseErr
  else if infos.any (trigInfoHeadersAreTheSame info) then .error .parseErr
  else .ok (infos ++ [info])

/-- `AppendTag` -/
def appendTag (tags s : List Char) : List Char := if tags = [] then s else tags ++ ',' :: s

/-! ### Clauses of several words -/

section Parse

variable {σ : Type} (w : RemConfig σ) (n : ℕ)

/-- `ParseToken` and `FindToken`. -/
def nextToken : PtrM σ (RemToken × List Char) := do
  let buf ← parseToken w.toPasteEnv n
  return (findToken w.seps buf, buf)

/-- `PushToken` -/
def pushBack (buf : List Char) : PtrM σ Unit :=
  modify fun s => { s with ptr := pushToken buf s.ptr }

/-- `ParseTokenOrQuotedString` -/
def parseTokenOrQuotedString : PtrM σ (List Char) := do
  if (← parseNonSpaceChar w.toPasteEnv n true) = some '"' then parseQuotedString w.toPasteEnv n
  else parseToken w.toPasteEnv n

/-- An error code as the outcome of the parsing. -/
def fromExcept {α : Type} : Except ErrCode α → PtrM σ α
  | .ok a => return a
  | .error r => throw r

/-- The loop of `GetFullDate`. -/
def fullDateLoop : ℕ → DateParts → PtrM σ ℤ
  | 0, _ => throw .diverges
  | k + 1, p => do
    let (tok, buf) ← nextToken w n
    match tok with
    | .num (.year v) => if p.y ≠ none then throw .yrTwice else fullDateLoop k { p with y := some v }
    | .month v => if p.m ≠ none then throw .monTwice else fullDateLoop k { p with m := some v }
    | .num (.day v) => if p.d ≠ none then throw .dayTwice else fullDateLoop k { p with d := some v }
    | .num (.date v) =>
      if p.y ≠ none then throw .yrTwice
      else if p.m ≠ none then throw .monTwice
      else if p.d ≠ none then throw .dayTwice
      else return v
    | .num (.illegal (some r)) => throw r
    | _ =>
      match p.y, p.m, p.d with
      | some y, some m, some d =>
        if !dateOK y m d then throw .badDate
        else
          pushBack buf
          return dse y m d
      | _, _, _ => throw .incomplete

/-- `GetFullDate` -/
def getFullDate : PtrM σ ℤ := fullDateLoop w n n {}

/-- The loop of `ParseTimeTrig`. -/
def timeTrigLoop : ℕ → Bool → TimeTrig → PtrM σ TimeTrig
  | 0, _, _ => throw .diverges
  | k + 1, seenDelta, tim => do
    let (tok, buf) ← nextToken w n
    match tok with
    | .num (.time v) =>
      if tim.ttime ≠ none then throw .timeTwice
      else timeTrigLoop k seenDelta { tim with ttime := storedTime v, ttimeOrig := storedTime v }
    | .num (.delta v) =>
      if seenDelta then throw .deltaTwice
      else timeTrigLoop k true { tim with delta := if v ≥ 0 then v else Lib.wrap (-v) }
    | .num (.rep v) =>
      if tim.rep ≠ 0 then throw .repTwice else timeTrigLoop k seenDelta { tim with rep := v }
    | .num (.illegal (some r)) => throw r
    | _ =>
      if tim.ttime = none then throw .expectTime
      else
        pushBack buf
        return tim

/-- `ParseTimeTrig` -/
def parseTimeTrig (tim : TimeTrig) : PtrM σ TimeTrig := timeTrigLoop w n n false tim

/-- `ParseLocalOmit` -/
def localOmitLoop : ℕ → WdSet → PtrM σ WdSet
  | 0, _ => throw .diverges
  | k + 1, localomit => do
    let (tok, buf) ← nextToken w n
    match tok with
    | .wkDay v => localOmitLoop k (localomit ||| BitVec.twoPow 7 v)
    | _ =>
      if localomit = 0 then throw .expectingWeekday
      else
        pushBack buf
        return localomit

/-- `ParseUntil` -/
def parseUntil (p : ParsedRem) : PtrM σ ParsedRem := do
  if p.trig.untilDate ≠ none then throw .untilTwice
  else
    let dse ← getFullDate w n
    return { p with trig.untilDate := some dse }

/-- What a FROM or SCANFROM clause gives: a date, or days before today. -/
inductive ScanDate where
  | date (dse : ℤ)
  | back (v : ℤ)
  deriving DecidableEq

/-- The loop of `ParseScanFrom`. -/
def scanFromLoop (type : ScanType) : ℕ → DateParts → PtrM σ ScanDate
  | 0, _ => throw .diverges
  | k + 1, p => do
    let (tok, buf) ← nextToken w n
    match tok with
    | .num (.year v) =>
      if p.y ≠ none then throw .yrTwice else scanFromLoop type k { p with y := some v }
    | .month v =>
      if p.m ≠ none then throw .monTwice else scanFromLoop type k { p with m := some v }
    | .num (.day v) =>
      if p.d ≠ none then throw .dayTwice else scanFromLoop type k { p with d := some v }
    | .num (.date v) =>
      if p.y ≠ none then throw .yrTwice
      else if p.m ≠ none then throw .monTwice
      else if p.d ≠ none then throw .dayTwice
      else return .date v
    | .num (.back v) =>
      if type ≠ .scanfrom then throw .incomplete
      else if p.y ≠ none then throw .yrTwice
      else if p.m ≠ none then throw .monTwice
      else if p.d ≠ none then throw .dayTwice
      else return .back (if v > 0 then -v else v)
    | .num (.illegal (some r)) => throw r
    | _ =>
      match p.y, p.m, p.d with
      | some y, some m, some d =>
        if !dateOK y m d then throw .badDate
        else
          pushBack buf
          return .date (dse y m d)
      | _, _, _ => throw .incomplete

/-- `s->expr_happened = 1; s->nonconst_expr = 1;` -/
def markNonconst : PtrM σ Unit :=
  modify fun s => { s with ptr := { s.ptr with exprHappened := true, nonconstExpr := true } }

/-- `ParseScanFrom` -/
def parseScanFrom (type : ScanType) (p : ParsedRem) : PtrM σ ParsedRem := do
  if p.trig.scanfrom ≠ none ∨ p.trig.fromDate ≠ none then throw .scanTwice
  else
    match ← scanFromLoop w n type n {} with
    | .date dse =>
      if type = .from then return { p with trig.fromDate := some dse }
      else return { p with trig.scanfrom := some dse }
    | .back v =>
      markNonconst
      return { p with trig.scanfrom := some v, nonconstExpr := true }

/-! ### The loop of `ParseRem` -/

/-- `if (trig->d != NO_DAY) …; if (trig->m != NO_MON) …; if (trig->y != NO_YR) …` -/
def dateTwice (t : Trigger) : Option ErrCode :=
  if t.d ≠ none then some .dayTwice
  else if t.m ≠ none then some .monTwice
  else if t.y ≠ none then some .yrTwice
  else none

/-- The trigger with a full date. -/
def Trigger.setDate (t : Trigger) (n : ℤ) : Trigger :=
  { t with y := some (fromDSE n).y, m := some (fromDSE n).m, d := some (fromDSE n).d }

/-- `trig->duration_days = ComputeTrigDuration(tim);` -/
def ParsedRem.setDurationDays (p : ParsedRem) : ParsedRem :=
  { p with trig.durationDays := computeTrigDuration p.tim }

/-- The value of a token that may stand behind DURATION. -/
def durationVal : RemToken → Option ℤ
  | .num (.time v) => some v
  | .num (.longTime v) => some v
  | .num (.year v) => some v
  | .num (.day v) => some v
  | .num (.number v) => some v
  | _ => none

/-- The duration as it is stored. -/
def storedDuration (v : ℤ) : Option ℤ := if v ≠ 0 then storedTime v else none

/-- One round of the loop of `ParseRem`: what is done with a token; `buf` is its word. -/
def remClause (tok : RemToken) (buf : List Char) (p : ParsedRem) : PtrM σ RemNext := do
  match tok with
  | .todo =>
    if p.trig.isTodo then throw .todoTwice
    else return .parsing { p with trig.isTodo := true }
  | .in => return .parsing p
  | .ordinal v =>
    if p.trig.d ≠ none then throw .dayTwice
    else if v < 0 then
      if p.trig.back ≠ 0 then throw .backTwice
      else return .parsing { p with
        trig.back := -7, trig.d := some 1, adjForLast := true, needWkday := true }
    else return .parsing { p with trig.d := some (1 + 7 * v), needWkday := true }
  | .num (.date v) =>
    match dateTwice p.trig with
    | some r => throw r
    | none => return .parsing { p with trig := p.trig.setDate v }
  | .num (.dateTime v) =>
    match dateTwice p.trig with
    | some r => throw r
    | none => return .parsing { p with
        trig := p.trig.setDate (v.tdiv minutesPerDay)
        tim.ttime := some (v.tmod minutesPerDay)
        tim.ttimeOrig := some (v.tmod minutesPerDay) }
  | .wkDay v =>
    if p.trig.wd.getLsbD v then throw .wdTwice
    else return .parsing { p with trig.wd := p.trig.wd ||| BitVec.twoPow 7 v }
  | .month v =>
    if p.trig.m ≠ none then throw .monTwice
    else return .parsing { p with trig.m := some v }
  | .maybeUncomputable => return .parsing { p with trig.maybeUncomputable := true }
  | .skip v =>
    if p.trig.skip ≠ .noSkip then throw .skipErr
    else return .parsing { p with trig.skip := v }
  | .maxOverdue =>
    if p.trig.maxOverdue ≠ none then throw .maxOverdueTwice
    else
      match (← nextToken w n).1 with
      | .num (.illegal (some r)) => throw r
      -- `return -tok.val;` where no code was stored
      | .num (.illegal none) => return .returned p
      | .num (.day v) => maxOverdueVal v
      | .num (.year v) => maxOverdueVal v
      | .num (.number v) => maxOverdueVal v
      | _ => throw .expectingNumber
  | .priority =>
    let prio ← fromExcept (parsePriority (← parseToken w.toPasteEnv n))
    return .parsing { p with priority := prio }
  | .num (.time v) =>
    if p.tim.ttime ≠ none then throw .timeTwice
    else
      let tim ← parseTimeTrig w n { p.tim with ttime := storedTime v, ttimeOrig := storedTime v }
      return .parsing (ParsedRem.setDurationDays { p with tim := tim })
  | .«at» =>
    let tim ← parseTimeTrig w n p.tim
    return .parsing (ParsedRem.setDurationDays { p with tim := tim })
  | .scanfrom type => return .parsing (← parseScanFrom w n type p)
  | .remType v =>
    if (← get).ptr.nested.isSome then throw .cantNestRtype
    else if v = .passthru then
      let buf ← parseToken w.toPasteEnv n
      if buf = [] then throw .eoln
      else
        let t := { p.trig with typ := v, passthru := String.ofList (strnCpy buf passthruLen) }
        return .parsed { p with trig := fixSpecialType t }
    else
      let t := { p.trig with typ := v }
      return .parsed { p with trig := fixSpecialType t }
  | .through =>
    if p.trig.rep ≠ 0 then throw .repTwice
    else return .parsing (← parseUntil w n { p with trig.rep := 1 })
  | .completeThrough =>
    if p.trig.completeThrough ≠ none then throw .completeThroughTwice
    else
      let dse ← getFullDate w n
      return .parsing { p with trig.completeThrough := some dse }
  | .until => return .parsing (← parseUntil w n p)
  | .num (.number _) => throw .parseErr
  | .num (.year v) =>
    if p.trig.y ≠ none then throw .yrTwice
    else return .parsing { p with trig.y := some v }
  | .num (.day v) =>
    if p.trig.d ≠ none then throw .dayTwice
    else return .parsing { p with trig.d := some v }
  | .num (.rep v) =>
    if p.trig.rep ≠ 0 then throw .repTwice
    else return .parsing { p with trig.rep := v }
  | .num (.delta v) =>
    if p.seenDelta then throw .deltaTwice
    else return .parsing { p with trig.delta := v, seenDelta := true }
  | .num (.back v) =>
    if p.trig.back ≠ 0 then throw .backTwice
    else return .parsing { p with trig.back := v }
  | .num (.backAdj v) =>
    if p.trig.back ≠ 0 then throw .backTwice
    else if p.trig.d ≠ none then throw .dayTwice
    else return .parsing { p with trig.back := v, trig.d := some 1, adjForLast := true }
  | .once =>
    if p.trig.once then throw .onceTwice
    else return .parsing { p with trig.once := true }
  | .addOmit => return .parsing { p with trig.addomit := true }
  | .noQueue => return .parsing { p with trig.noqueue := true }
  | .omit =>
    let localomit ← localOmitLoop w n n p.trig.localomit
    return .parsing { p with trig.localomit := localomit }
  | .empty => return .parsed p
  | .omitFunc =>
    let buf ← parseToken w.toPasteEnv n
    markNonconst
    return .parsing { p with trig.omitfunc := funcName buf, nonconstExpr := true }
  | .warn =>
    let buf ← parseToken w.toPasteEnv n
    return .parsing { p with trig.warn := funcName buf }
  | .tz =>
    if p.trig.tz ≠ none then throw .tzSpecifiedTwice
    else
      let buf ← parseTokenOrQuotedString w n
      return .parsing { p with trig.tz := some (String.ofList buf) }
  | .info =>
    let buf ← parseQuotedString w.toPasteEnv n
    let infos ← fromExcept (appendTrigInfo p.infos buf)
    return .parsing { p with infos := infos }
  | .tag =>
    let buf ← parseToken w.toPasteEnv n
    if ',' ∈ buf then throw .parseErr
    else return .parsing { p with tags := appendTag p.tags buf }
  | .duration =>
    match durationVal (← nextToken w n).1 with
    | some v => return .parsing (ParsedRem.setDurationDays
        { p with tim.duration := storedDuration v })
    | none => throw .badTime
  | .sched =>
    let buf ← parseToken w.toPasteEnv n
    return .parsing { p with trig.sched := funcName buf }
  | .num (.longTime _) => throw .badTime
  | .num (.illegal (some r)) => throw r
  | _ =>
    pushBack buf
    if (← get).ptr.nested.isSome then throw .cantNestRtype
    else return .parsed { p with trig.typ := .msg }
where
  maxOverdueVal (v : ℤ) : PtrM σ RemNext :=
    if v < 0 then throw .tooLow else return .parsing { p with trig.maxOverdue := some v }

/-- The trigger at the start of `ParseRem`. -/
def initRem : ParsedRem where
  trig := { delta := -w.defaultDelta }
  tim := { delta := w.defaultTDelta }
  priority := w.defaultPrio

/-- The month behind the one given, and the year too behind December. -/
def ParsedRem.adjustLast (p : ParsedRem) : ParsedRem :=
  if p.adjForLast then
    match p.trig.m with
    | none => { p with adjForLast := false }
    | some m =>
      if m + 1 ≥ 12 then { p with
        trig.m := some 0, trig.y := p.trig.y.map (· + 1), adjForLast := false }
      else { p with trig.m := some (m + 1), adjForLast := false }
  else p

/-- "Remove leading ! from TZ spec" -/
def removeBang (tz : String) : String :=
  match tz.toList with
  | '!' :: s => String.ofList s
  | _ => tz

/-- "If we have a SCHED, ignore any time delta" -/
def ParsedRem.ignoreDelta (p : ParsedRem) : ParsedRem :=
  if p.trig.sched ≠ "" then { p with tim.delta := 0 } else p

/-- The flags of the parser, handed on. -/
def ParsedRem.addFlags (s : ParserPtr) (p : ParsedRem) : ParsedRem :=
  { p with
    nonconstExpr := p.nonconstExpr || s.nonconstExpr
    exprHappened := p.exprHappened || s.exprHappened }

/-- The time zone without the `!` that may precede it. -/
def ParsedRem.dropBang (p : ParsedRem) : ParsedRem :=
  { p with trig.tz := p.trig.tz.map removeBang }

/-- The end of `ParseRem`, after its loop. -/
def finishRem (s : ParserPtr) (p : ParsedRem) : Except ErrCode ParsedRem :=
  if p.needWkday ∧ p.trig.wd = 0 then .error .parseErr
  else .ok (p.addFlags s).adjustLast.ignoreDelta.dropBang

/-- The loop of `ParseRem`, and its end. -/
def remLoop : ℕ → ParsedRem → PtrM σ ParsedRem
  | 0, _ => throw .diverges
  | k + 1, p => do
    let (tok, buf) ← nextToken w n
    match ← remClause w n tok buf p with
    | .parsing p => remLoop k p
    | .parsed p => fromExcept (finishRem (← get).ptr p)
    | .returned p => return p

/-- `ParseRem` -/
def parseRem : PtrM σ ParsedRem := remLoop w n n (initRem w)

end Parse

end Remind
