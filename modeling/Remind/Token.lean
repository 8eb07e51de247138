import Remind.Calendar
import Remind.Trigger

/-!
# Token — the words of a reminder line (token.c: `FindToken`; types.h: `T_*`)

A line is the list of what `ParseToken` and `FindToken` make of its words, one after the other;
past its end `FindToken` sees the empty word and says `T_Empty`.  The value of a token is in the
range that `FindToken` checks before it chooses the type.
-/

namespace Remind

/-- `T_Day`: a number from 1 to 31. -/
abbrev DayNo := {d : ℤ // 1 ≤ d ∧ d ≤ 31}

/-- `T_Month`: January is 0. -/
abbrev MonNo := {m : ℤ // 0 ≤ m ∧ m ≤ 11}

/-- `T_Year`: a number from `BASE` to `BASE + YR_RANGE`. -/
abbrev YearNo := {y : ℤ // baseYr ≤ y ∧ y ≤ baseYr + yrRange}

/-- A token with its value. -/
inductive Token where
  | empty
  | comment
  /-- No token; the code is the one `token_error` stored, if any. -/
  | illegal (code : Option ErrCode)
  | wkDay (v : Fin 7)
  | month (v : MonNo)
  | day (v : DayNo)
  | year (v : YearNo)
  /-- A number that is neither a year nor a day. -/
  | number (v : ℕ)
  | date (dse : ℕ)
  /-- `+n` has a positive value, `++n` a negative one. -/
  | delta (v : ℤ)
  | through
  | dumpvars
  | remType
  | priority
  | tag
  | info
  | duration
  /-- Any other token. -/
  | other
  deriving DecidableEq

/-- The rest of a line: each word as a token, or the error code of `ParseToken` (a bad
expression in brackets). -/
abbrev Line := List (Except ErrCode Token)

/-- `VerifyEoln` -/
def verifyEoln : Line → Option ErrCode
  | [] => none
  | .error r :: _ => some r
  | .ok .empty :: _ => none
  | .ok .comment :: _ => none
  | .ok _ :: _ => some .extraneousToken

end Remind
