import Remind.Calendar
import Remind.Trigger
import Remind.Lib.CInt

/-!
# Arith — the arithmetic of expressions (expr.c: `add` to `unary_minus`, `DoCoerce`)

The operators take the values of their operands.  They compute with the `int` of C: `Traced` keeps
the exact value of each operation.  `exactAdd` and its siblings are the same operators on exact
integers.
-/

namespace Remind

open Lib (Traced intMax intMin InInt wrap)
open Lib.Traced (cint)

/-- `TimeSep`, `DateSep`, `DateTimeSep` and `$MaxStringLen`. -/
structure TextConfig where
  timeSep : Char := ':'
  dateSep : Char := '-'
  dateTimeSep : Char := '@'
  maxStringLen : ℤ := 65535

/-! ### Values as text -/

/-- The digits of `n` with zeros before them, at least `w` of them. -/
def zeroPad (w n : ℕ) : String :=
  String.ofList (List.replicate (w - (Nat.toDigits 10 n).length) '0' ++ Nat.toDigits 10 n)

/-- `%0wd` -/
def padInt (w : ℕ) (n : ℤ) : String :=
  if n < 0 then "-" ++ zeroPad (w - 1) n.natAbs else zeroPad w n.natAbs

/-- `%04d%c%02d%c%02d` of a date. -/
def dateText (c : TextConfig) (x : Ymd) : String :=
  padInt 4 x.y ++ c.dateSep.toString ++ padInt 2 (x.m + 1) ++ c.dateSep.toString ++ padInt 2 x.d

/-- `%02d%c%02d` of a time. -/
def timeText (c : TextConfig) (n : ℤ) : String :=
  padInt 2 (n.tdiv 60) ++ c.timeSep.toString ++ padInt 2 (n.tmod 60)

/-- The values that the loop of `FromDSE` over years computes. -/
def yearLoopInts (n : ℤ) : ℕ → ℤ → ℤ → List ℤ
  | 0, _, _ => []
  | k + 1, tryYr, tryDse =>
    if tryDse > n then
      (tryYr - 1) :: (tryDse - daysInYear (tryYr - 1)) ::
        yearLoopInts n k (tryYr - 1) (tryDse - daysInYear (tryYr - 1))
    else []

/-- The values that the loop of `FromDSE` over months computes. -/
def monthLoopInts (tryYr : ℤ) : ℕ → ℤ → ℤ → List ℤ
  | 0, _, _ => []
  | k + 1, tryMon, rest =>
    if rest ≥ daysInMonth tryMon tryYr then
      (rest - daysInMonth tryMon tryYr) :: (tryMon + 1) ::
        monthLoopInts tryYr k (tryMon + 1) (rest - daysInMonth tryMon tryYr)
    else []

/-- `FromDSE` with the values it computes. -/
def fromDSETraced (n : ℤ) : Traced Ymd :=
  let tryYr := n.tdiv 365 + baseYr
  let y1 := baseYr - 1
  let y2 := tryYr - 1
  let y4 := y2.tdiv 4 - y1.tdiv 4
  let y100 := y2.tdiv 100 - y1.tdiv 100
  let y400 := y2.tdiv 400 - y1.tdiv 400
  let tryDse := yearStart tryYr
  let year := yearLoop n tryYr tryDse
  { val := fromDSE n
    ints := [n.tdiv 365, tryYr, y2, y2.tdiv 4, y4, y2.tdiv 100, y100, y2.tdiv 400, y400,
        tryYr - baseYr, 365 * (tryYr - baseYr), 365 * (tryYr - baseYr) + y4,
        365 * (tryYr - baseYr) + y4 - y100, tryDse] ++
      yearLoopInts n ((tryDse - n).toNat + 1) tryYr tryDse ++ [n - year.2] ++
      monthLoopInts year.1 13 0 (n - year.2) ++ [(fromDSE n).d, (fromDSE n).m + 1] }

/-- `DoCoerce(STR_TYPE, v)` -/
def coerceString (c : TextConfig) : Value → Traced String
  | .str s => pure s
  | .int n => pure (toString n)
  | .time n => do
    let h ← cint (n.tdiv 60)
    let m ← cint (n.tmod 60)
    pure (padInt 2 h ++ c.timeSep.toString ++ padInt 2 m)
  | .date n => do
    let x ← fromDSETraced n
    pure (dateText c x)
  | .datetime n => do
    let i ← cint (n.tdiv minutesPerDay)
    let x ← fromDSETraced i
    let k ← cint (n.tmod minutesPerDay)
    let h ← cint (k.tdiv 60)
    let i ← cint (k.tmod 60)
    pure (dateText c x ++ c.dateTimeSep.toString ++ padInt 2 h ++ c.timeSep.toString ++ padInt 2 i)

/-- `DoCoerce(DATETIME_TYPE, v)` for a DATE. -/
def dateToDatetime (n : ℤ) : Traced (Except ErrCode Value) := do
  let k ← cint (n * minutesPerDay)
  pure (.ok (.datetime k))

/-! ### The operators -/

/-- `_private_add_overflow`: sums and products of two ints compare as doubles as they do exactly. -/
def addOverflow (a b : ℤ) : Bool := decide (a + b < intMin ∨ a + b > intMax)

/-- `_private_sub_overflow` -/
def subOverflow (a b : ℤ) : Bool := decide (a - b < intMin ∨ a - b > intMax)

/-- `_private_mul_overflow` -/
def mulOverflow (a b : ℤ) : Bool := decide (a * b > intMax ∨ a * b < intMin)

/-- A sum or difference `n` of values, which `overflow` tests: a DATE or DATETIME, made by `mk`. -/
def moveBy (mk : ℤ → Value) (overflow : Bool) (n : ℤ) : Traced (Except ErrCode Value) :=
  if overflow then pure (.error .dateOver)
  else do
    let n ← cint n
    if n < 0 then pure (.error .dateOver) else pure (.ok (mk n))

/-- `n % MINUTES_PER_DAY`, moved up when it is negative: a TIME. -/
def timeModDay (n : ℤ) : Traced (Except ErrCode Value) := do
  let r ← cint (n.tmod minutesPerDay)
  if r < 0 then do
    let r ← cint (r + minutesPerDay)
    pure (.ok (.time r))
  else pure (.ok (.time r))

/-- The concatenation of two texts, or `E_STRING_TOO_LONG`. -/
def concatText (c : TextConfig) (s1 s2 : String) : Except ErrCode Value :=
  if c.maxStringLen > 0 ∧ (s1.utf8ByteSize + s2.utf8ByteSize : ℤ) > c.maxStringLen then
    .error .stringTooLong
  else .ok (.str (s1 ++ s2))

/-- `+` with a string on one side. -/
def addStrings (c : TextConfig) (v1 v2 : Value) : Traced (Except ErrCode Value) := do
  let s1 ← coerceString c v1
  let s2 ← coerceString c v2
  pure (concatText c s1 s2)

/-- `+` of two TIMEs, or of a TIME and an INT. -/
def addTimes (a b : ℤ) : Traced (Except ErrCode Value) :=
  if addOverflow a b then pure (.error .dateOver)
  else do
    let n ← cint (a + b)
    timeModDay n

/-- `add` -/
def addValues (c : TextConfig) (v1 v2 : Value) : Traced (Except ErrCode Value) :=
  match v1, v2 with
  | .int a, .int b =>
    if addOverflow a b then pure (.error .tooHigh)
    else do
      let n ← cint (a + b)
      pure (.ok (.int n))
  | .date a, .int b => moveBy .date (addOverflow a b) (a + b)
  | .int a, .date b => moveBy .date (addOverflow a b) (a + b)
  | .datetime a, .int b => moveBy .datetime (addOverflow a b) (a + b)
  | .datetime a, .time b => moveBy .datetime (addOverflow a b) (a + b)
  | .int a, .datetime b => moveBy .datetime (addOverflow a b) (a + b)
  | .time a, .datetime b => moveBy .datetime (addOverflow a b) (a + b)
  | .time a, .int b => addTimes a b
  | .int a, .time b => addTimes a b
  | .time a, .time b => addTimes a b
  | .str a, v2 => addStrings c (.str a) v2
  | v1, .str b => addStrings c v1 (.str b)
  | _, _ => pure (.error .badType)

/-- A difference of two values of one type: an INT, or the error `r`. -/
def difference (r : ErrCode) (a b : ℤ) : Traced (Except ErrCode Value) :=
  if subOverflow a b then pure (.error r)
  else do
    let n ← cint (a - b)
    pure (.ok (.int n))

/-- `subtract` -/
def subtractValues (v1 v2 : Value) : Traced (Except ErrCode Value) :=
  match v1, v2 with
  | .int a, .int b => difference .tooHigh a b
  | .date a, .int b => moveBy .date (subOverflow a b) (a - b)
  | .datetime a, .int b => moveBy .datetime (subOverflow a b) (a - b)
  | .datetime a, .time b => moveBy .datetime (subOverflow a b) (a - b)
  | .time a, .int b => do
    -- no test for overflow here
    let n ← cint (a - b)
    timeModDay n
  | .time a, .time b => difference .dateOver a b
  | .datetime a, .datetime b => difference .dateOver a b
  | .date a, .date b => difference .dateOver a b
  | _, _ => pure (.error .badType)

/-- `(unsigned long) n` -/
def toULong (n : ℤ) : ℤ := n % 18446744073709551616

/-- The tests for a repeated string that is too long, on its `int` length `l`. -/
def repeatTooLong (c : TextConfig) (l rep : ℤ) : Bool :=
  decide (wrap (l * rep) < 0 ∨ toULong (toULong l * toULong rep) ≥ intMax ∨
    c.maxStringLen > 0 ∧ toULong (toULong l * toULong rep) > toULong c.maxStringLen)

/-- "Create the new value", for a string of length `l` and the product `size`. -/
def repeatNew (c : TextConfig) (rep : ℤ) (s : String) (l size : ℤ) :
    Traced (Except ErrCode Value) :=
  if repeatTooLong c l rep then pure (.error .stringTooLong)
  else do
    let _ ← cint (size + 1)
    pure (.ok (.str (String.join (List.replicate rep.toNat s))))

/-- A string times an INT. -/
def repeatString (c : TextConfig) (rep : ℤ) (s : String) : Traced (Except ErrCode Value) :=
  if rep < 0 then pure (.error .tooLow)
  else if rep = 0 ∨ s = "" then pure (.ok (.str ""))
  else do
    let l ← cint s.utf8ByteSize
    let size ← cint (l * rep)
    repeatNew c rep s l size

/-- `multiply` -/
def multiplyValues (c : TextConfig) (v1 v2 : Value) : Traced (Except ErrCode Value) :=
  match v1, v2 with
  | .int a, .int b =>
    if (b = -1 ∧ a = intMin) ∨ (a = -1 ∧ b = intMin) then pure (.error .tooHigh)
    else if mulOverflow a b then pure (.error .tooHigh)
    else do
      let n ← cint (a * b)
      pure (.ok (.int n))
  | .int a, .str s => repeatString c a s
  | .str s, .int b => repeatString c b s
  | _, _ => pure (.error .badType)

/-- `divide_or_mod`: `/` or `%`. -/
def divideOrMod (isDiv : Bool) (v1 v2 : Value) : Traced (Except ErrCode Value) :=
  match v1, v2 with
  | .int a, .int b =>
    if b = 0 then pure (.error .divZero)
    else if b = -1 ∧ a = intMin then pure (.error .tooHigh)
    else do
      let n ← cint (if isDiv then a.tdiv b else a.tmod b)
      pure (.ok (.int n))
  | _, _ => pure (.error .badType)

/-- `unary_minus` -/
def unaryMinus (v : Value) : Traced (Except ErrCode Value) :=
  match v with
  | .int a =>
    if a = intMin then pure (.error .tooLow)
    else do
      let n ← cint (-a)
      pure (.ok (.int n))
  | _ => pure (.error .badType)

end Remind
