import Remind.Lib.SortedArray
import Remind.Token
import Remind.SimpleTrig

/-!
# Omit — the global OMIT context (omit.c)

The arrays of the C file are the lists of their elements in use.  Commands return the new state and
an error code; a command that fails half way keeps what it has stored, as in the source.
-/

namespace Remind

/-- `MAX_FULL_OMITS` -/
def maxFullOmits : ℕ := 1000

/-- `FullOmitArray`, `PartialOmitArray` and `WeekdayOmits`. -/
structure OmitContext where
  full : List ℤ := []
  part : List ℤ := []
  weekday : WdSet := 0
  deriving DecidableEq, Repr

/-- The current context and the stack `SavedOmitContexts`. -/
structure OmitState where
  ctx : OmitContext := {}
  saved : List OmitContext := []
  deriving DecidableEq, Repr

/-- `(m << 5) + d`: a day of the year in `PartialOmitArray`. -/
def syndrome (m d : ℤ) : ℤ := 32 * m + d

/-- `IsOmitted`.  `omitfunc` is the user function when one is named and exists: its argument is the
date and its value an INT, if it is one. -/
def isOmitted (c : OmitContext) (localomit : WdSet)
    (omitfunc : Option (Ymd → Except ErrCode (Option ℤ))) (n : ℤ) : Except ErrCode Bool :=
  match omitfunc with
  | some f =>
    match f (fromDSE n) with
    | .error r => .error r
    | .ok (some v) => .ok (v ≠ 0)
    | .ok none => .ok false
  | none =>
    if localomit.has n then .ok true
    else if c.weekday.has n then .ok true
    else if Lib.bsearch c.full n then .ok true
    else if Lib.bsearch c.part (syndrome (fromDSE n).m (fromDSE n).d) then .ok true
    else .ok false

/-! ### The OMIT command -/

/-- Year, month and day as far as they are given. -/
structure DateParts where
  y : Option ℤ := none
  m : Option ℤ := none
  d : Option ℤ := none
  deriving DecidableEq, Repr

/-- What `DoOmit` gathers from the words of its line: `snd` is what follows THROUGH. -/
structure OmitLine where
  wd : WdSet := 0
  fst : DateParts := {}
  snd : DateParts := {}
  seenThrough : Bool := false
  deriving DecidableEq, Repr

/-- `y[seen_through]`, `m[seen_through]`, `d[seen_through]` -/
def OmitLine.cur (l : OmitLine) : DateParts := if l.seenThrough then l.snd else l.fst

def OmitLine.setCur (l : OmitLine) (p : DateParts) : OmitLine :=
  if l.seenThrough then { l with snd := p } else { l with fst := p }

/-- The parsing loop of `DoOmit`.  The Boolean says that the line goes on as a reminder; `none` is
the line `OMIT DUMPVARS`, which stores nothing. -/
def parseOmit (firstToken : Bool) (l : OmitLine) :
    Line → Except ErrCode (Option (OmitLine × Bool))
  | [] => .ok (some (l, false))
  | .error r :: _ => .error r
  | .ok tok :: rest =>
    match tok with
    | .wkDay v =>
      if l.wd.getLsbD v then .error .wdTwice
      else parseOmit false { l with wd := l.wd ||| BitVec.twoPow 7 v } rest
    | .dumpvars =>
      if !firstToken then .error .parseErr
      else match verifyEoln rest with
        | some r => .error r
        | none => .ok none
    | .date n =>
      if l.cur.y ≠ none then .error .yrTwice
      else if l.cur.m ≠ none then .error .monTwice
      else if l.cur.d ≠ none then .error .dayTwice
      else
        let s := fromDSE n
        parseOmit false (l.setCur { y := some s.y, m := some s.m, d := some s.d }) rest
    | .year v =>
      if l.cur.y ≠ none then .error .yrTwice
      else parseOmit false (l.setCur { l.cur with y := some v.val }) rest
    | .month v =>
      if l.cur.m ≠ none then .error .monTwice
      else parseOmit false (l.setCur { l.cur with m := some v.val }) rest
    | .day v =>
      if l.cur.d ≠ none then .error .dayTwice
      else parseOmit false (l.setCur { l.cur with d := some v.val }) rest
    | .delta _ => parseOmit false l rest
    | .through =>
      if l.wd ≠ 0 then .error .parseErr
      else if l.seenThrough then .error .untilTwice
      else parseOmit false { l with seenThrough := true } rest
    | .empty => .ok (some (l, false))
    | .comment => .ok (some (l, false))
    | .remType => .ok (some (l, true))
    | .priority => .ok (some (l, true))
    | .tag => .ok (some (l, true))
    | .info => .ok (some (l, true))
    | .duration => .ok (some (l, true))
    | .illegal _ => .error .unknownToken
    | .number _ => .error .unknownToken
    | .other => .error .unknownToken

/-- The first and the last day that a line without weekdays omits. -/
inductive OmitRange where
  | part (m0 d0 m1 d1 : ℤ)
  | full (y0 m0 d0 y1 m1 d1 : ℤ)
  deriving DecidableEq, Repr

/-- The second date of a line: what follows THROUGH; without THROUGH the first date again, so
that a missing day stands for the whole month. -/
def OmitLine.last (l : OmitLine) : DateParts := if l.seenThrough then l.snd else l.fst

/-- Fill in the missing days. -/
def OmitLine.range (l : OmitLine) : Except ErrCode OmitRange :=
  match l.fst.m, l.last.m with
  | some m0, some m1 =>
    match l.fst.y, l.last.y with
    | none, none => .ok (.part m0 (l.fst.d.getD 1) m1 (l.last.d.getD (monthDays m1)))
    | some y0, some y1 =>
      .ok (.full y0 m0 (l.fst.d.getD 1) y1 m1 (l.last.d.getD (daysInMonth m1 y1)))
    | _, _ => .error .badDate
  | _, _ => .error .specMon

/-- The day after `d` of month `m` in a year that has 29 February. -/
def nextPartial (s : ℤ × ℤ) : ℤ × ℤ :=
  if s.2 + 1 > monthDays s.1 then (if s.1 + 1 > 11 then (0, 1) else (s.1 + 1, 1))
  else (s.1, s.2 + 1)

/-- The `while (1)` loop for partial OMITs, from the first insertion on. -/
def addPartial (part : List ℤ) (m0 d0 m1 d1 : ℤ) : Option (List ℤ) :=
  (Lib.whileFuel (fun s : List ℤ × ℤ × ℤ => decide (s.2 ≠ (m1, d1)))
    (fun s =>
      let next := nextPartial s.2
      (Lib.insertNew s.1 (syndrome next.1 next.2), next))
    366 (Lib.insertNew part (syndrome m0 d0), m0, d0)).map Prod.fst

/-- `for (tmp = start; tmp <= end; tmp++)`, `n` rounds of it. -/
def addFull : ℕ → ℤ → List ℤ → List ℤ × Option ErrCode
  | 0, _, full => (full, none)
  | n + 1, tmp, full =>
    if Lib.bsearch full tmp then addFull n (tmp + 1) full
    else if full.length ≥ maxFullOmits then (full, some .tooManyFull)
    else addFull n (tmp + 1) (Lib.insertKey full tmp)

/-- `DoOmit` after its parsing loop. -/
def applyOmit (c : OmitContext) (l : OmitLine) : OmitContext × Option ErrCode :=
  if l.wd ≠ 0 then
    if l.fst.y ≠ none ∨ l.fst.m ≠ none ∨ l.fst.d ≠ none then (c, some .parseErr)
    else if c.weekday ||| l.wd = 0x7F then (c, some .tooManyLocalomit)
    else ({ c with weekday := c.weekday ||| l.wd }, none)
  else
    match l.range with
    | .error r => (c, some r)
    | .ok (.part m0 d0 m1 d1) =>
      if d0 > monthDays m0 then (c, some .badDate)
      else if d1 > monthDays m1 then (c, some .badDate)
      else match addPartial c.part m0 d0 m1 d1 with
        | some part => ({ c with part := part }, none)
        | none => (c, some .diverges)
    | .ok (.full y0 m0 d0 y1 m1 d1) =>
      if d0 > daysInMonth m0 y0 then (c, some .badDate)
      else if d1 > daysInMonth m1 y1 then (c, some .badDate)
      else if dse y1 m1 d1 < dse y0 m0 d0 then (c, some .badDate)
      else
        let (full, r) := addFull (dse y1 m1 d1 - dse y0 m0 d0 + 1).toNat (dse y0 m0 d0) c.full
        ({ c with full := full }, r)

/-- `DoOmit` -/
def doOmit (c : OmitContext) (line : Line) : OmitContext × Option ErrCode :=
  match parseOmit true {} line with
  | .error r => (c, some r)
  | .ok none => (c, none)
  | .ok (some (l, asRem)) =>
    match applyOmit c l with
    | (c', some r) => (c', some r)
    | (c', none) => (c', if asRem then some .parseAsRem else none)

/-- `AddGlobalOmit` -/
def addGlobalOmit (c : OmitContext) (n : ℤ) : OmitContext × Option ErrCode :=
  if n < 0 then (c, none)
  else if c.full.length = maxFullOmits then (c, some .tooManyFull)
  else ({ c with full := Lib.insertNew c.full n }, none)

/-- The commands that change the OMIT context; `addGlobalOmit n` is the ADDOMIT of a reminder that
triggers on `n`. -/
inductive OmitCmd where
  | doOmit (line : Line)
  | addGlobalOmit (n : ℤ)
  | doClear (line : Line)
  | push (line : Line)
  | pop (line : Line)

/-- `DoOmit`, `AddGlobalOmit`, `DoClear`, `PushOmitContext`, `PopOmitContext` -/
def OmitState.step (s : OmitState) : OmitCmd → OmitState × Option ErrCode
  | .doOmit line => let (c, r) := doOmit s.ctx line; ({ s with ctx := c }, r)
  | .addGlobalOmit n => let (c, r) := addGlobalOmit s.ctx n; ({ s with ctx := c }, r)
  | .doClear line => ({ s with ctx := {} }, verifyEoln line)
  | .push line => ({ s with saved := s.ctx :: s.saved }, verifyEoln line)
  | .pop line =>
    match s.saved with
    | [] => (s, some .popNoPush)
    | c :: rest => ({ ctx := c, saved := rest }, verifyEoln line)

/-- Run commands one after the other; `none` if one of them returns an error.  `E_PARSE_AS_REM` is
not one: the OMIT is done, and the caller reads the line again as a reminder. -/
def OmitState.run (s : OmitState) : List OmitCmd → Option OmitState
  | [] => some s
  | cmd :: rest =>
    match s.step cmd with
    | (s', none) => s'.run rest
    | (s', some .parseAsRem) => s'.run rest
    | (_, some _) => none

end Remind
