import Remind.Calendar
import Remind.Trigger
import Remind.Lib.CInt

/-!
# Literal — numbers, dates and times in texts (expr.c: `ParseLiteralTime`, `ParseLiteralDateOrTime`,
# `set_constant_value`, `DoCoerce`; token.c: `FindNumericToken`; dorem.c: `ParsePriority`)

All of them read digits into an `int`, which here goes round at `2^32`.
-/

namespace Remind

open Lib (wrap)

/-- `c - '0'` -/
def digitVal (c : Char) : ℤ := (c.toNat : ℤ) - 48

/-- `val *= 10; val += c - '0';` -/
def addDigit (val : ℤ) (c : Char) : ℤ := wrap (wrap (val * 10) + digitVal c)

/-- `while (isdigit(*s)) { val *= 10; val += *s++ - '0'; }` -/
def readDigits : ℤ → List Char → ℤ × List Char
  | val, [] => (val, [])
  | val, c :: s => if c.isDigit then readDigits (addDigit val c) s else (val, c :: s)

/-- The next character is a digit. -/
def digitNext : List Char → Bool
  | [] => false
  | c :: _ => c.isDigit

/-- `*s == ':' || *s == '.' || *s == TimeSep`, and the text after it. -/
def timeSepNext (sep : Char) : List Char → Option (List Char)
  | [] => none
  | c :: s => if c = ':' ∨ c = '.' ∨ c = sep then some s else none

/-- `a`, `am`, `p` or `pm` in either case: whether it is `p`, and the text after it. -/
def readAmPm : List Char → Option Bool × List Char
  | [] => (none, [])
  | c :: s =>
    let rest := match s with
      | c' :: s' => if c' = 'm' ∨ c' = 'M' then s' else c' :: s'
      | [] => []
    if c = 'A' ∨ c = 'a' then (some false, rest)
    else if c = 'P' ∨ c = 'p' then (some true, rest)
    else (none, c :: s)

/-- The hour of the day of an hour with `a` or `p`. -/
def amPmHour (ampm : Option Bool) (h : ℤ) : Except ErrCode ℤ :=
  match ampm with
  | none => .ok h
  | some isPm =>
    if h < 1 ∨ h > 12 then .error .badTime
    else if isPm then .ok (if h < 12 then h + 12 else h)
    else .ok (if h = 12 then 0 else h)

/-- `ParseLiteralTime`: the time and the rest of the text. -/
def parseLiteralTime (sep : Char) (s : List Char) : Except ErrCode (ℤ × List Char) :=
  if !digitNext s then .error .badTime
  else
    let (h, s) := readDigits 0 s
    match timeSepNext sep s with
    | none => .error .badTime
    | some s =>
      if !digitNext s then .error .badTime
      else
        let (m, s) := readDigits 0 s
        let (ampm, s) := readAmPm s
        if h > 23 ∨ m > 59 then .error .badTime
        else
          match amPmHour ampm h with
          | .error r => .error r
          | .ok h => .ok (wrap (wrap (h * 60) + m), s)

/-- `*s == '/' || *s == '-' || *s == DateSep`, and the text after it, which has to be a digit. -/
def dateSepNext (sep : Char) : List Char → Option (List Char)
  | [] => none
  | c :: s => if (c = '/' ∨ c = '-' ∨ c = sep) ∧ digitNext s = true then some s else none

/-- `TimeSep` and `DateSep` -/
structure LiteralSeps where
  timeSep : Char := ':'
  dateSep : Char := '-'

/-- The time part that may follow a date. -/
def literalTimePart (sep : Char) (s : List Char) : Except ErrCode (Option ℤ × List Char) :=
  match s with
  | c :: s' =>
    if c = ' ' ∨ c = '@' ∨ c = 'T' ∨ c = 't' then
      match parseLiteralTime sep s' with
      | .error r => .error r
      | .ok (tim, s) => .ok (some tim, s)
    else .ok (none, s)
  | [] => .ok (none, [])

/-- `ParseLiteralDateOrTime`: the date, the time, and the rest of the text. -/
def parseLiteralDateOrTime (c : LiteralSeps) (orig : List Char) :
    Except ErrCode (Option ℤ × Option ℤ × List Char) :=
  if !digitNext orig then .error .badDate
  else
    let (y, s) := readDigits 0 orig
    if (timeSepNext c.timeSep s).isSome then
      match parseLiteralTime c.timeSep orig with
      | .error r => .error r
      | .ok (tim, s) => .ok (none, some tim, s)
    else
      match dateSepNext c.dateSep s with
      | none => .error .badDate
      | some s =>
        let (m, s) := readDigits 0 s
        let m := wrap (m - 1)
        match dateSepNext c.dateSep s with
        | none => .error .badDate
        | some s =>
          let (d, s) := readDigits 0 s
          if dateOK y m d then
            match literalTimePart c.timeSep s with
            | .error r => .error r
            | .ok (tim, s) => .ok (some (dse y m d), tim, s)
          else .error .badDate

/-! ### Constants of expressions -/

/-- The loop over the digits of a decimal constant, with its test for overflow. -/
def decimalLoop : ℤ → List Char → Except ErrCode (ℤ × List Char)
  | val, [] => .ok (val, [])
  | val, c :: s =>
    if c.isDigit then
      if addDigit val c < val then .error .tooHigh else decimalLoop (addDigit val c) s
    else .ok (val, c :: s)

/-- `isxdigit` -/
def isHexDigit (c : Char) : Bool :=
  c.isDigit || ('a' ≤ c && c ≤ 'f') || ('A' ≤ c && c ≤ 'F')

/-- The value of a hexadecimal digit. -/
def hexVal (c : Char) : ℤ := if c.isDigit then digitVal c else ((c.toUpper).toNat : ℤ) - 65 + 10

/-- `val *= 16;`, and the digit added. -/
def addHexDigit (val : ℤ) (c : Char) : ℤ := wrap (wrap (val * 16) + hexVal c)

/-- The loop over the digits of a hexadecimal constant, with its test for overflow. -/
def hexLoop : ℤ → List Char → Except ErrCode (ℤ × List Char)
  | val, [] => .ok (val, [])
  | val, c :: s =>
    if isHexDigit c then
      if addHexDigit val c < val then .error .tooHigh else hexLoop (addHexDigit val c) s
    else .ok (val, c :: s)

/-- The TIME constant whose hour is `h`; `s` follows the separator. -/
def timeConstant (h : ℤ) (s : List Char) : Except ErrCode Value :=
  if !digitNext s then .error .badTime
  else
    let (m, s) := readDigits 0 s
    let (ampm, s) := readAmPm s
    if s ≠ [] ∨ h > 23 ∨ m > 59 then .error .badTime
    else
      match amPmHour ampm h with
      | .error r => .error r
      | .ok h => .ok (.time (wrap (wrap (h * 60) + m)))

/-- A constant that begins with a digit: a number or a time. -/
def numberConstant (sep : Char) (s : List Char) : Except ErrCode Value :=
  match s with
  | '0' :: x :: hex =>
    if x = 'x' ∨ x = 'X' then
      match hex with
      | [] => .error .badNumber
      | h :: _ =>
        if !isHexDigit h then .error .badNumber
        else
          match hexLoop 0 hex with
          | .error r => .error r
          | .ok (val, []) => .ok (.int val)
          | .ok (_, _ :: _) => .error .badNumber
    else decimal s
  | _ => decimal s
where
  decimal (s : List Char) : Except ErrCode Value :=
    match decimalLoop 0 s with
    | .error r => .error r
    | .ok (val, s) =>
      match timeSepNext sep s with
      | some s => timeConstant val s
      | none => if s ≠ [] then .error .badNumber else .ok (.int val)

/-- A literal between `'`: a date, a time or both. -/
def quotedConstant (c : LiteralSeps) (s : List Char) : Except ErrCode Value :=
  match parseLiteralDateOrTime c s with
  | .error r => .error r
  | .ok (day, tim, s) =>
    match s with
    | '\'' :: _ =>
      match day, tim with
      | some d, none => .ok (.date d)
      | none, tim => .ok (.time (tim.getD 0))
      | some d, some m => .ok (.datetime (wrap (wrap (d * minutesPerDay) + m)))
    | _ => .error (if day.isSome then .badDate else .badTime)

/-- `set_constant_value`, on the text of a token. -/
def setConstantValue (c : LiteralSeps) (s : List Char) : Except ErrCode Value :=
  match s with
  | [] => .error .eoln
  | '"' :: rest => .ok (.str (String.ofList rest.dropLast))
  | '\'' :: rest => quotedConstant c rest
  | ch :: rest =>
    if ch.isDigit then numberConstant c.timeSep (ch :: rest)
    else if "+-*/%&|=<>!)".toList.contains ch then .error .expectingAtom
    else .error .illegalChar

/-- `DoCoerce(INT_TYPE, v)` for a string. -/
def coerceStringToInt (s : List Char) : Except ErrCode ℤ :=
  let (mult, s) := match s with
    | '-' :: s' => ((-1 : ℤ), s')
    | _ => (1, s)
  let (i, s) := readDigits 0 s
  if s ≠ [] then .error .cantCoerce else .ok (wrap (i * mult))

/-! ### Numeric tokens -/

/-- What `FindNumericToken` makes of a word; the value of `illegal` is the code of `token_error`. -/
inductive NumToken where
  | illegal (code : Option ErrCode)
  | year (val : ℤ)
  | day (val : ℤ)
  | number (val : ℤ)
  | date (val : ℤ)
  | time (val : ℤ)
  | longTime (val : ℤ)
  | dateTime (val : ℤ)
  | rep (val : ℤ)
  | delta (val : ℤ)
  | back (val : ℤ)
  | backAdj (val : ℤ)
  deriving DecidableEq, Repr

/-- "Classify the number we've got" -/
def classifyNumber (val : ℤ) : NumToken :=
  if val ≥ baseYr ∧ val ≤ baseYr + yrRange then .year val
  else if val ≥ 1 ∧ val ≤ 31 then .day val
  else .number val

/-- The token of a time whose hour is `hour`; `s` follows the separator. -/
def timeToken (hour : ℤ) (s : List Char) : NumToken :=
  if !digitNext s then .illegal (some .badTime)
  else
    let (min, s) := readDigits 0 s
    if min > 59 then .illegal (some .badTime)
    else
      let (ampm, s) := readAmPm s
      if s ≠ [] then .illegal (some .badTime)
      else
        match amPmHour ampm hour with
        | .error r => .illegal (some r)
        | .ok hour =>
          let val := wrap (wrap (hour * 60) + min)
          if hour ≤ 23 then .time val else .longTime val

/-- The token of a date, or of a date and a time. -/
def dateToken (c : LiteralSeps) (orig : List Char) : NumToken :=
  match parseLiteralDateOrTime c orig with
  | .error r => .illegal (some r)
  | .ok (day, tim, s) =>
    if s ≠ [] then .illegal (some (if tim = none then .badDate else .badTime))
    else
      match day, tim with
      | day, none => .date (day.getD (-1))
      | none, some tim => .time tim
      | some d, some tim => .dateTime (wrap (wrap (minutesPerDay * d) + tim))

/-- A word that begins with a digit. -/
def digitToken (c : LiteralSeps) (orig : List Char) : NumToken :=
  let (val, s) := readDigits 0 orig
  match s with
  | [] => classifyNumber val
  | ch :: s' =>
    if ch = '-' ∨ ch = '/' then dateToken c orig
    else if ch = ',' ∧ s' = [] then classifyNumber val
    else
      match timeSepNext c.timeSep s with
      | some s => timeToken val s
      | none => .illegal (some .badNumber)

/-- The number after a sign, which may be doubled where `sign` is given. -/
def signedToken (mk : ℤ → NumToken) (sign : Option Char) (s : List Char) : NumToken :=
  let (mult, s) := match s with
    | c :: s' => if some c = sign then ((-1 : ℤ), s') else (1, s)
    | [] => (1, s)
  if !digitNext s then .illegal none
  else
    let (val, s) := readDigits 0 s
    if s ≠ [] then .illegal (some .badNumber) else mk (wrap (val * mult))

/-- `FindNumericToken` -/
def findNumericToken (c : LiteralSeps) (s : List Char) : NumToken :=
  match s with
  | [] => .illegal none
  | ch :: rest =>
    if ch.isDigit then digitToken c s
    else if ch = '*' then signedToken .rep none rest
    else if ch = '+' then signedToken .delta (some '+') rest
    else if ch = '-' then signedToken .back (some '-') rest
    else if ch = '~' then signedToken .backAdj (some '~') rest
    else .illegal none

/-- The digits of `ParsePriority`: `p = p*10 + *u - '0'`. -/
def priorityDigits : ℤ → List Char → ℤ × List Char
  | p, [] => (p, [])
  | p, c :: u =>
    if c.isDigit then priorityDigits (wrap (wrap (wrap (p * 10) + c.toNat) - 48)) u else (p, c :: u)

/-- `ParsePriority`, on the word it reads. -/
def parsePriority (u : List Char) : Except ErrCode ℤ :=
  if !digitNext u then .error .expectingNumber
  else
    let (p, u) := priorityDigits 0 u
    if u ≠ [] then .error .expectingNumber
    else if p < 0 ∨ p > 9999 then .error .tooHigh
    else .ok p

end Remind
