import Remind.Lib.CInt
import Remind.Omit

/-!
# DateFuncs — built-in functions on dates (funcs.c: `FWeekno`, `FSlide`, `FNonomitted`,
# `FEasterdate`, `FOrthodoxeaster`)

Day numbers are exact integers.  The number of arguments is in the range that the table of functions
gives.
-/

namespace Remind

/-- `HASDATE` and `DATEPART` -/
def Value.datePart : Value → Option ℤ
  | .date n => some n
  | .datetime n => some (n.tdiv minutesPerDay)
  | _ => none

/-! ### Week numbers -/

/-- `while((candidate % 7) != wkstart) candidate++` -/
def weekFrom (wkstart candidate : ℤ) : ℤ :=
  (Lib.whileFuel (fun c => !decide (c.tmod 7 = wkstart)) (fun c => c + 1) 7 candidate).getD candidate

/-- The start of the numbering in the year `y`. -/
def weekCandidate (wkstart daystart y : ℤ) : ℤ :=
  weekFrom wkstart (dse y (if daystart ≤ 7 then 0 else 11) daystart)

/-- `FWeekno` on a date, with the first day of a week counted from Monday. -/
def weekno (n wkstart daystart : ℤ) : Except ErrCode ℤ :=
  let y := (fromDSE n).y
  let weeks (candidate : ℤ) : ℤ := (n - candidate).tdiv 7 + 1
  -- try this year
  if weekCandidate wkstart daystart y ≤ n then .ok (weeks (weekCandidate wkstart daystart y))
  else if y - 1 < baseYr then .error .dateOver
  else if weekCandidate wkstart daystart (y - 1) ≤ n then
    .ok (weeks (weekCandidate wkstart daystart (y - 1)))
  else if y - 2 < baseYr then .error .dateOver
  else .ok (weeks (weekCandidate wkstart daystart (y - 2)))

/-- The first argument of `FWeekno`: the date. -/
def weeknoDate (today : ℤ) : Option Value → Except ErrCode ℤ
  | none => .ok today
  | some v => match v.datePart with
    | none => .error .badType
    | some n => .ok n

/-- The second argument: the first day of a week, Sunday being 0. -/
def weeknoStart : Option Value → Except ErrCode ℤ
  | none => .ok 0
  | some (.int w) =>
    if w < 0 then .error .tooLow else if w > 6 then .error .tooHigh
    else .ok (if w - 1 < 0 then 6 else w - 1)
  | some _ => .error .badType

/-- The third argument: the day that the numbering starts on or after. -/
def weeknoDay : Option Value → Except ErrCode ℤ
  | none => .ok 29
  | some (.int d) => if d < 1 then .error .tooLow else if d > 31 then .error .tooHigh else .ok d
  | some _ => .error .badType

/-- What `FWeekno` accepts. -/
def weeknoArgs (today : ℤ) (args : List Value) : Except ErrCode (ℤ × ℤ × ℤ) := do
  let n ← weeknoDate today args[0]?
  let wkstart ← weeknoStart args[1]?
  let daystart ← weeknoDay args[2]?
  return (n, wkstart, daystart)

/-- `FWeekno` -/
def fWeekno (today : ℤ) (args : List Value) : Except ErrCode Value := do
  let (n, wkstart, daystart) ← weeknoArgs today args
  return .int (← weekno n wkstart daystart)

/-! ### Omitted days -/

/-- The names of weekdays at the end of the arguments: `localomit`. -/
def weekdayArgs (findToken : String → Token) : List Value → WdSet → Except ErrCode WdSet
  | [], localomit => .ok localomit
  | .str s :: args, localomit =>
    match findToken s with
    | .wkDay v => weekdayArgs findToken args (localomit ||| BitVec.twoPow 7 v)
    | _ => .error .cantParseWkday
  | _ :: _, _ => .error .badType

/-- The step, if there is one, and the weekdays. -/
def stepArgs (findToken : String → Token) (args : List Value) : Except ErrCode (ℤ × WdSet) :=
  match args with
  | .int step :: args =>
    if step < 1 then .error .tooLow else (weekdayArgs findToken args 0).map fun w => (step, w)
  | args => (weekdayArgs findToken args 0).map fun w => (1, w)

section Slide

variable (omitted : ℤ → Bool) (step : ℤ)

/-- The loop of `FSlide` into the future; `none` is a date outside of the `int` range. -/
def slideUp : ℕ → ℕ → ℤ → Option ℤ
  | _, 0, d => some d
  | 0, _ + 1, _ => none
  | n + 1, amt + 1, d =>
    if d + step > Lib.intMax then none
    else if omitted (d + step) then slideUp n (amt + 1) (d + step)
    else slideUp n amt (d + step)

/-- The loop of `FSlide` into the past. -/
def slideDown : ℕ → ℕ → ℤ → Except ErrCode ℤ
  | _, 0, d => .ok d
  | 0, _ + 1, _ => .error .diverges
  | n + 1, amt + 1, d =>
    if d - step < 0 then .error .dateOver
    else if omitted (d - step) then slideDown n (amt + 1) (d - step)
    else slideDown n amt (d - step)

/-- The loop of `FNonomitted`. -/
def nonomittedLoop (d2 : ℤ) : ℕ → ℤ → ℕ → Option ℕ
  | 0, _, _ => none
  | n + 1, d1, ans =>
    if d1 < d2 then nonomittedLoop d2 n (d1 + step) (if omitted d1 then ans else ans + 1)
    else some ans

end Slide

/-- `IsOmitted` without an OMITFUNC. -/
def omittedDay (c : OmitContext) (localomit : WdSet) (n : ℤ) : Bool :=
  match isOmitted c localomit none n with
  | .ok b => b
  | .error _ => false

/-- The loops of `FSlide`: no loop takes more rounds than there are days on its way. -/
def slide (omitted : ℤ → Bool) (step d amt : ℤ) : Option (Except ErrCode ℤ) :=
  if amt > 0 then
    (slideUp omitted step ((Lib.intMax - d).toNat + 1) amt.toNat d).map .ok
  else some (slideDown omitted step (d.toNat + 1) (-amt).toNat d)

/-- What `FSlide` accepts: the date, the amount, the step and the weekdays. -/
def slideArgs (c : OmitContext) (findToken : String → Token) :
    List Value → Except ErrCode (ℤ × ℤ × ℤ × WdSet)
  | v :: .int amt :: args =>
    match v.datePart with
    | none => .error .badType
    | some d =>
      if amt > 1000000 then .error .tooHigh
      else if amt < -1000000 then .error .tooLow
      else
        match stepArgs findToken args with
        | .error r => .error r
        | .ok (step, localomit) =>
          if c.weekday ||| localomit = BitVec.allOnes 7 ∧ amt ≠ 0 then .error .tooManyLocalomit
          else .ok (d, amt, step, localomit)
  | _ => .error .badType

/-- `FSlide`; `none` where the running date leaves the `int` range. -/
def fSlide (c : OmitContext) (findToken : String → Token) (args : List Value) :
    Option (Except ErrCode Value) :=
  match slideArgs c findToken args with
  | .error r => some (.error r)
  | .ok (d, amt, step, localomit) =>
    (slide (omittedDay c localomit) step d amt).map fun r => r.map .date

/-- The loop of `FNonomitted` between two dates, the earlier one first. -/
def nonomitted (omitted : ℤ → Bool) (step d1 d2 : ℤ) : Option ℕ :=
  nonomittedLoop omitted step (if d2 < d1 then d1 else d2)
    ((if d2 < d1 then d1 - d2 else d2 - d1).toNat + 1) (if d2 < d1 then d2 else d1) 0

/-- `FNonomitted`; `none` stands for a loop that does not end. -/
def fNonomitted (c : OmitContext) (findToken : String → Token) :
    List Value → Option (Except ErrCode Value)
  | v1 :: v2 :: args =>
    match v1.datePart, v2.datePart with
    | some d1, some d2 =>
      match stepArgs findToken args with
      | .error r => some (.error r)
      | .ok (step, localomit) =>
        (nonomitted (omittedDay c localomit) step d1 d2).map fun ans => .ok (.int ans)
    | _, _ => some (.error .badType)
  | _ => some (.error .badType)

/-! ### Easter -/

/-- One round of `FEasterdate`: Easter of the year `y`. -/
def easterDate (y : ℤ) : ℤ :=
  let g := y.tmod 19 + 1
  let c := y.tdiv 100 + 1
  let x := (3 * c).tdiv 4 - 12
  let z := (8 * c + 5).tdiv 25 - 5
  let d := (5 * y).tdiv 4 - x - 10
  -- epact
  let e := (11 * g + 20 + z - x).tmod 30
  let e := if e < 0 then e + 30 else e
  let e := if e = 24 ∨ (e = 25 ∧ g > 11) then e + 1 else e
  -- full moon
  let n := 44 - e
  let n := if n < 21 then n + 30 else n
  let d := n + 7 - (d + n).tmod 7
  if d ≤ 31 then dse y 2 d else dse y 3 (d - 31)

/-- `JulianToGregorianOffset` -/
def julianToGregorianOffset (y m : ℤ) : ℤ :=
  if y ≥ 2100 then
    let offset := 13 + ((y - 2000).tdiv 100 - (y - 2000).tdiv 400)
    if y.tmod 100 = 0 ∧ y.tmod 400 ≠ 0 ∧ m < 2 then offset - 1 else offset
  else 13

/-- One round of `FOrthodoxeaster`. -/
def orthodoxEasterDate (y : ℤ) : ℤ :=
  let a := y.tmod 4
  let b := y.tmod 7
  let c := y.tmod 19
  let dd := (19 * c + 15).tmod 30
  let e := (2 * a + 4 * b - dd + 34).tmod 7
  let f := dd + e + 114
  let m := f.tdiv 31 - 1
  let d := f.tmod 31 + 1
  dse y m d + julianToGregorianOffset y m

/-- The loops of the two functions: rounds from the year `y` on, up to the first date that is not
before `base`. -/
def easterLoop (date : ℤ → ℤ) (base : ℤ) : ℕ → ℤ → Option ℤ
  | 0, _ => none
  | n + 1, y => if base > -1 ∧ date y < base then easterLoop date base n (y + 1) else some (date y)

/-- `FEasterdate` and `FOrthodoxeaster`, for `n` rounds at most: `none` where these do not do. -/
def fEaster (date : ℤ → ℤ) (n : ℕ) (today : ℤ) : List Value → Option (Except ErrCode Value)
  | [] => (easterLoop date today n (fromDSE today).y).map fun d => .ok (.date d)
  | .int y :: _ =>
    if y < baseYr then some (.error .tooLow)
    else if y > baseYr + yrRange then some (.error .tooHigh)
    else (easterLoop date (-1) n y).map fun d => .ok (.date d)
  | v :: _ =>
    match v.datePart with
    | none => some (.error .badType)
    | some base => (easterLoop date base n (fromDSE base).y).map fun d => .ok (.date d)

/-- `FEasterdate` -/
def fEasterdate (n : ℕ) (today : ℤ) (args : List Value) : Option (Except ErrCode Value) :=
  fEaster easterDate n today args

/-- `FOrthodoxeaster` -/
def fOrthodoxeaster (n : ℕ) (today : ℤ) (args : List Value) : Option (Except ErrCode Value) :=
  fEaster orthodoxEasterDate n today args

end Remind
