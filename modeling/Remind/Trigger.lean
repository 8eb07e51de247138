import Mathlib.Data.BitVec

/-!
# Trigger — the data of a reminder's trigger (types.h, err.h)

The in-band markers of the C structures (`NO_DAY`, `NO_UNTIL`, `NO_TIME`, ...) are `none` where
the field has no other use for them; the fields whose marker is 0 (`back`, `delta`, `rep`) stay
integers, because a clause such as `*0` really stores the marker.  A weekday set is its seven low
bits, Monday first.
-/

namespace Remind

/-- Return codes of the modelled functions; `OK` is the absence of one.  `usr` is an error code
returned by the evaluation of a user expression. -/
inductive ErrCode where
  | parseErr
  | cantTrig
  | badDate
  | dateOver
  | durationNoAt
  | repFulspec
  | specMon
  | yrTwice
  | monTwice
  | dayTwice
  | wdTwice
  | untilTwice
  | unknownToken
  | extraneousToken
  | tooManyLocalomit
  | tooManyFull
  | popNoPush
  | parseAsRem
  | badType
  | eoln
  | expired
  | tzNoAt
  | completeWithoutTodo
  | maxOverdueWithoutTodo
  | nestedIf
  | recursive
  | tooHigh
  | tooLow
  | divZero
  | stringTooLong
  | cantCoerce
  | cantModify
  | cantnestFdef
  | expectingEol
  | badNumber
  | badTime
  | expectingNumber
  | elseNoIf
  | endifNoIf
  | missEndif
  | nestedInclude
  | cantOpen
  | popvNoPush
  | illegalChar
  | expectingAtom
  | undefFunc
  | noSuchVar
  | tooFewArgs
  | tooManyArgs
  | runDisabled
  | swerr
  | badId
  | redefBuiltinFunc
  | popfNoPush
  | iifOdd
  | ioErr
  | opStkOver
  | noMem
  | missQuote
  | missEnd
  | expectComma
  | missRightParen
  | repeatedArg
  | expectingEoxpr
  | exprDisabled
  | lineTooLong
  | tooManyCachedLines
  | noMatchingRems
  | eof
  | cantParseWkday
  | badHebdate
  | cmdTooMuchOutput
  | todoTwice
  | onceTwice
  | backTwice
  | repTwice
  | deltaTwice
  | timeTwice
  | scanTwice
  | maxOverdueTwice
  | completeThroughTwice
  | tzSpecifiedTwice
  | skipErr
  | cantNestRtype
  | incomplete
  | badMbSeq
  | expectTime
  | expectingWeekday
  | usr (code : ℕ)
  /-- A loop of the C function does not end (no code of the source; see `nextSimpleTrig`). -/
  | diverges
  deriving DecidableEq, Repr

/-- A set of weekdays as in `trig->wd`, `trig->localomit` and `WeekdayOmits`. -/
abbrev WdSet := BitVec 7

/-- `wd & (1 << (n % 7))` -/
def WdSet.has (wd : WdSet) (n : ℤ) : Bool := wd.getLsbD (n % 7).toNat

/-- `NO_SKIP`, `SKIP_SKIP`, `BEFORE_SKIP`, `AFTER_SKIP` -/
inductive SkipRule where
  | noSkip
  | skip
  | before
  | after
  deriving DecidableEq, Repr

/-- `NO_TYPE`, `MSG_TYPE`, `RUN_TYPE`, `CAL_TYPE`, `SAT_TYPE`, `PS_TYPE`, `PSF_TYPE`, `MSF_TYPE`,
`PASSTHRU_TYPE` -/
inductive RemType where
  | noType
  | msg
  | run
  | cal
  | sat
  | ps
  | psf
  | msf
  | passthru
  deriving DecidableEq, Repr

/-- `Trigger`: the fields that the modelled functions read or write. -/
structure Trigger where
  wd : WdSet := 0
  d : Option ℤ := none
  m : Option ℤ := none
  y : Option ℤ := none
  /-- `n` for `-n` (omitted days are not counted), `-n` for `--n`; 0 is `NO_BACK`. -/
  back : ℤ := 0
  /-- `n` for `+n` (omitted days are not counted), `-n` for `++n`; 0 is `NO_DELTA`. -/
  delta : ℤ := 0
  /-- `*n`; 0 is `NO_REP`. -/
  rep : ℤ := 0
  localomit : WdSet := 0
  skip : SkipRule := .noSkip
  untilDate : Option ℤ := none
  typ : RemType := .noType
  once : Bool := false
  scanfrom : Option ℤ := none
  fromDate : Option ℤ := none
  isTodo : Bool := false
  completeThrough : Option ℤ := none
  maxOverdue : Option ℤ := none
  durationDays : ℤ := 0
  eventstart : Option ℤ := none
  eventstartOrig : Option ℤ := none
  eventduration : Option ℤ := none
  noqueue : Bool := false
  addomit : Bool := false
  maybeUncomputable : Bool := false
  /-- Name of the OMITFUNC; empty when there is none. -/
  omitfunc : String := ""
  warn : String := ""
  sched : String := ""
  passthru : String := ""
  tz : Option String := none
  /-- Set by the search. -/
  expired : Bool := false
  deriving DecidableEq, Repr

/-- `TimeTrig`: times in minutes. -/
structure TimeTrig where
  ttime : Option ℤ := none
  ttimeOrig : Option ℤ := none
  delta : ℤ := 0
  rep : ℤ := 0
  duration : Option ℤ := none
  deriving DecidableEq, Repr

/-- `Value`: what an expression evaluates to; dates are days, times minutes. -/
inductive Value where
  | int (n : ℤ)
  | time (n : ℤ)
  | date (n : ℤ)
  | datetime (n : ℤ)
  | str (s : String)
  deriving DecidableEq, Repr

/-- `MINUTES_PER_DAY` -/
def minutesPerDay : ℤ := 1440

end Remind
