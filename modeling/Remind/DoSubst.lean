import Remind.ParseRem

/-!
# DoSubst — the % sequences of a reminder (dosubst.c)

`DoSubst` works out the texts that depend on the date and the times once, user functions asked
first, and then puts the text of each sequence into the buffer.  What it prints, warnings too, is
left out.  A buffer is the list of its characters; `stack` is what an uninitialised pointer points
to.
-/

namespace Remind

/-- `NORMAL_MODE`, `CAL_MODE`, `ADVANCE_MODE` -/
inductive SubstMode where
  | normal
  | cal
  | advance
  deriving DecidableEq, Repr

/-- `QUOTE_MARKER` -/
def quoteMarker : Char := '\x01'

/-- The rest of the program, as `DoSubst` sees it. -/
structure SubstEnv (σ : Type) extends PasteEnv σ where
  /-- `EvalExprRunDisabled` -/
  evalRunDisabled : String → σ → Except ErrCode Value × σ
  /-- `FindUserFunc`: the number of arguments of the function. -/
  findUserFunc : String → Option ℕ
  tr : String → String
  /-- `GetTranslatedStringTryingVariants` -/
  translated : List Char → Option (List Char)
  /-- `get_day_name`, `get_month_name` -/
  dayName : ℤ → String
  monthName : ℤ → String
  dseToday : ℤ
  realToday : ℤ
  /-- `MinutesPastMidnight(0)` -/
  minutesPastMidnight : ℤ
  dynamicMplu : String
  dynamicHplu : String
  addBlankLines : Bool
  dontSuppressQuoteMarkers : Bool
  /-- `MsgCommand && *MsgCommand` -/
  msgCommand : Bool
  /-- `PsCal == PSCAL_LEVEL2 || PsCal == PSCAL_LEVEL3 || DoCalendar` -/
  calendarLines : Bool
  stack : String

/-- The trigger, with its INFO, and what `DoSubst` is called with. -/
structure SubstArgs where
  trig : Trigger
  infos : List (List Char) := []
  tt : Option TimeTrig
  dse : ℤ
  mode : SubstMode

/-- `snprintf` into a buffer of `n` characters. -/
def snprintf (n : ℕ) (s : String) : String := String.ofList (s.toList.take (n - 1))

/-- `UPPER` -/
def upperChar (c : Char) : Char := c.toUpper

/-- `get_function_override` -/
def getFunctionOverride (c : Char) (addx : Bool) : Option String :=
  let x := if addx then "x" else ""
  if c.isAlphanum ∨ c = '_' then some ("subst_" ++ c.toLower.toString ++ x)
  else
    match c with
    | ':' => some ("subst_colon" ++ x)
    | '!' => some ("subst_bang" ++ x)
    | '?' => some ("subst_question" ++ x)
    | '@' => some ("subst_at" ++ x)
    | '#' => some ("subst_hash" ++ x)
    | _ => none

/-- `FindTrigInfo` -/
def findTrigInfo (infos : List (List Char)) (header : List Char) : Option (List Char) :=
  if header = [] then none
  else
    (infos.find? fun info =>
      strcasecmp (info.take header.length) header && info[header.length]? = some ':').map
      fun info => (info.drop (header.length + 1)).dropWhile isSpace

/-- What `DoSubst` works out before it reads the body. -/
structure SubstVars where
  diff : ℤ
  rdiff : ℤ
  curtime : ℤ
  d : ℤ
  m : ℤ
  y : ℤ
  tim : ℤ
  h : ℤ
  min : ℤ
  hh : ℤ
  pm : String
  ch : ℤ
  cmin : ℤ
  chh : ℤ
  cpm : String
  plu : String
  dtDiff : ℤ

section Vars

variable {σ : Type} (w : SubstEnv σ)

/-- `DoCoerce(STR_TYPE, v)` -/
def coercedText (v : Value) : String := (coerceString w.text v).val

/-- The value of an expression that is evaluated with RUN disabled. -/
def evalSubst (expr : String) : PtrM σ (Except ErrCode Value) := fun s =>
  let (v, world) := w.evalRunDisabled expr s.world
  .ok v { s with world }

/-- A block that asks a user function of one argument: `r` is OK behind it, and the text that it has
stored. -/
def askFunction (name : String) (arg : ℤ) (r : Bool) : PtrM σ (Bool × Option String) :=
  if w.findUserFunc name = some 1 then do
    match ← evalSubst w (snprintf 256 (name ++ "(" ++ toString arg ++ ")")) with
    | .ok v => return (true, some (snprintf 64 (coercedText w v)))
    | .error _ => return (false, none)
  else return (r, none)

/-- The English suffix of a day. -/
def ordinalSuffix (d : ℤ) : String :=
  if d = 1 ∨ d = 21 ∨ d = 31 then "st"
  else if d = 2 ∨ d = 22 then "nd"
  else if d = 3 ∨ d = 23 then "rd"
  else "th"

/-- What a pointer is behind its block: the default where `r` is not OK. -/
def blockText (block : Bool × Option String) (default : String) : String :=
  if block.1 then block.2.getD w.stack else default

/-- `DoSubst` up to its loop. -/
def substVars (a : SubstArgs) : PtrM σ SubstVars := do
  let curtime := w.minutesPastMidnight
  let date := fromDSE a.dse
  let tim := ((a.tt.bind TimeTrig.ttime).getD curtime)
  let h := tim.tdiv 60
  let ampm ← askFunction w "subst_ampm" h false
  let ch := curtime.tdiv 60
  let campm ← askFunction w "subst_ampm" ch false
  -- `r` is not set back before the last block
  let ordinal ← askFunction w "subst_ordinal" date.d campm.1
  return {
    diff := a.dse - w.dseToday
    rdiff := a.dse - w.realToday
    curtime := curtime
    d := date.d
    m := date.m
    y := date.y
    tim := tim
    h := h
    min := tim.tmod 60
    hh := if h = 12 ∨ h = 0 then 12 else h.tmod 12
    pm := blockText w ampm (if h < 12 then w.tr "am" else w.tr "pm")
    ch := ch
    cmin := curtime.tmod 60
    chh := if ch = 0 ∨ ch = 12 then 12 else ch.tmod 12
    -- the source asks for `h` here too
    cpm := blockText w campm (if h < 12 then w.tr "am" else w.tr "pm")
    plu := blockText w ordinal (ordinalSuffix date.d)
    dtDiff := (a.dse * minutesPerDay + tim) - (w.dseToday * minutesPerDay + curtime) }

/-! ### The texts -/

/-- What a sequence puts into the buffer: a text made in `s`, a character, nothing, or the mark of
`%"`. -/
inductive SeqOutput where
  | text (s : String)
  | putc (c : Char)
  | nothing
  | quote

/-- A text that says the date: with the word for "on" before it, unless there is none or the
sequence has a star. -/
def withOn (altmode : Bool) (s : String) : String :=
  if altmode ∨ w.tr "on" = "" then s else w.tr "on" ++ " " ++ s

/-- `%02d%c%02d` and its siblings. -/
def joined (c : Char) (parts : List String) : String := c.toString.intercalate parts

/-- `tomorrow`, `yesterday` or `today`. -/
def nearDay (diff : ℤ) : String :=
  if diff = 1 then w.tr "tomorrow" else if diff = -1 then w.tr "yesterday" else w.tr "today"

/-- The sequences that say `today` and its like where the date is near. -/
def saysNearDay (c : Char) : Bool :=
  ['A', 'B', 'C', 'E', 'F', 'G', 'H', 'I', 'J', 'K', 'L', 'U', 'V'].contains (upperChar c)

/-- The text of `%1`. -/
def fromNowText (v : SubstVars) : String :=
  let adiff := (v.dtDiff.natAbs : ℤ) % minutesPerDay
  let mdiff := adiff % 60
  let hdiff := adiff / 60
  let mplu := if mdiff = 1 then "" else w.dynamicMplu
  let hplu := if hdiff = 1 then "" else w.dynamicHplu
  let dplu := if v.diff.natAbs = 1 then w.tr "day" else w.tr "days"
  let whenText := if v.dtDiff < 0 then w.tr "ago" else w.tr "from now"
  let minutes := toString mdiff ++ " " ++ w.tr "minute" ++ mplu
  let hours := toString hdiff ++ " " ++ w.tr "hour" ++ hplu
  let days := toString v.diff.natAbs ++ " " ++ dplu
  let and' := " " ++ w.tr "and" ++ " "
  if v.diff = 0 then
    if hdiff = 0 ∧ mdiff = 0 then w.tr "now"
    else if hdiff = 0 then minutes ++ " " ++ whenText
    else if mdiff = 0 then hours ++ " " ++ whenText
    else hours ++ and' ++ minutes ++ " " ++ whenText
  else
    if hdiff = 0 ∧ mdiff = 0 then days ++ " " ++ whenText
    else if hdiff = 0 then days ++ and' ++ minutes ++ " " ++ whenText
    else if mdiff = 0 then days ++ and' ++ hours ++ " " ++ whenText
    else days ++ ", " ++ hours ++ and' ++ minutes ++ " " ++ whenText

/-- The text of `%!` and `%?`. -/
def isWasText (a : SubstArgs) (v : SubstVars) (altmode : Bool) (c : Char) : String :=
  let isText := if c = '!' then w.tr "is" else w.tr "are"
  let wasText := if c = '!' then w.tr "was" else w.tr "were"
  let bangdiff := if altmode then a.dse - w.realToday else v.diff
  if bangdiff > 0 then isText
  else if bangdiff < 0 then wasText
  else if v.dtDiff ≥ 0 then isText else wasText

/-- `switch(UPPER(c))`: what a sequence puts into the buffer. -/
def sequenceOutput (a : SubstArgs) (v : SubstVars) (altmode : Bool) (c : Char) : SeqOutput :=
  let dayName := w.dayName (a.dse % 7)
  let monthName := w.monthName v.m
  let d := toString v.d
  let sep := w.text.dateSep
  let adiff := (v.dtDiff.natAbs : ℤ) % minutesPerDay
  match upperChar c with
  | 'A' => .text (withOn w altmode
      (dayName ++ ", " ++ d ++ " " ++ monthName ++ ", " ++ toString v.y))
  | 'B' => .text (if v.diff > 0 then "in " ++ toString v.diff ++ " days' time"
      else toString (-v.diff) ++ " days ago")
  | 'C' => .text (withOn w altmode dayName)
  | 'D' => .text d
  | 'E' => .text (withOn w altmode (joined sep [padInt 2 v.d, padInt 2 (v.m + 1), padInt 4 v.y]))
  | 'F' => .text (withOn w altmode (joined sep [padInt 2 (v.m + 1), padInt 2 v.d, padInt 4 v.y]))
  | 'G' => .text (withOn w altmode (dayName ++ ", " ++ d ++ " " ++ monthName))
  | 'H' => .text (withOn w altmode (joined sep [padInt 2 v.d, padInt 2 (v.m + 1)]))
  | 'I' => .text (withOn w altmode (joined sep [padInt 2 (v.m + 1), padInt 2 v.d]))
  | 'J' => .text (withOn w altmode
      (dayName ++ ", " ++ monthName ++ " " ++ d ++ v.plu ++ ", " ++ toString v.y))
  | 'K' => .text (withOn w altmode (dayName ++ ", " ++ monthName ++ " " ++ d ++ v.plu))
  | 'L' => .text (withOn w altmode (joined sep [padInt 4 v.y, padInt 2 (v.m + 1), padInt 2 v.d]))
  | 'M' => .text monthName
  | 'N' => .text (toString (v.m + 1))
  | 'O' => .text (if w.realToday = w.dseToday then " (" ++ w.tr "today" ++ ")" else "")
  | 'P' => .text (if v.diff = 1 then "" else "s")
  | 'Q' => .text (if v.diff = 1 then "'s" else "s'")
  | 'R' => .text (padInt 2 v.d)
  | 'S' => .text v.plu
  | 'T' => .text (padInt 2 (v.m + 1))
  | 'U' => .text (withOn w altmode
      (dayName ++ ", " ++ d ++ v.plu ++ " " ++ monthName ++ ", " ++ toString v.y))
  | 'V' => .text (withOn w altmode (dayName ++ ", " ++ d ++ v.plu ++ " " ++ monthName))
  | 'W' => .text dayName
  | 'X' => .text (toString v.diff)
  | 'Y' => .text (toString v.y)
  | 'Z' => .text (toString (v.y % 100))
  | ':' =>
    match a.trig.isTodo, a.trig.completeThrough with
    | true, some n => if n ≥ a.dse then .text (" (" ++ w.tr "done" ++ ")") else .nothing
    | _, _ => .nothing
  | '1' => .text (fromNowText w v)
  | '2' => .text (atText altmode
      (toString v.hh ++ w.text.timeSep.toString ++ padInt 2 v.min ++ v.pm))
  | '3' => .text (atText altmode (padInt 2 v.h ++ w.text.timeSep.toString ++ padInt 2 v.min))
  | '4' => .text (toString v.dtDiff)
  | '5' => .text (toString v.dtDiff.natAbs)
  | '6' => .text (if v.dtDiff < 0 then w.tr "ago" else w.tr "from now")
  | '7' => .text (toString (adiff / 60))
  | '8' => .text (toString (adiff % 60))
  | '9' => .text (if adiff % 60 = 1 then "" else w.dynamicMplu)
  | '0' => .text (if adiff / 60 = 1 then "" else w.dynamicHplu)
  | '!' => .text (isWasText w a v altmode c)
  | '?' => .text (isWasText w a v altmode c)
  | '@' => .text (toString v.chh ++ w.text.timeSep.toString ++ padInt 2 v.cmin ++ v.cpm)
  | '#' => .text (padInt 2 v.ch ++ w.text.timeSep.toString ++ padInt 2 v.cmin)
  | '_' => .text (if w.calendarLines ∨ (a.mode = .normal ∧ w.msgCommand = false) then "\n" else " ")
  | '\x01' => .nothing
  | '"' => .quote
  | _ => .putc c
where
  /-- With the word for "at" before it, unless the sequence has a star. -/
  atText (altmode : Bool) (s : String) : String :=
    if altmode then s else w.tr "at" ++ " " ++ s

/-! ### The loop -/

/-- The buffer that is filled, the scratch buffer `s`, and `has_quote`. -/
structure SubstBuf where
  dbuf : List Char
  s : String := ""
  hasQuote : Bool := false

/-- `DBufPuts` -/
def SubstBuf.puts (b : SubstBuf) (t : List Char) : SubstBuf := { b with dbuf := b.dbuf ++ t }

/-- `snprintf(s, ...); SHIP_OUT(s);` -/
def SubstBuf.ship (b : SubstBuf) (t : String) : SubstBuf :=
  { b with dbuf := b.dbuf ++ (snprintf 256 t).toList, s := snprintf 256 t }

/-- `if (isupper(c))`: a capital at the place where `s` began, if it is there. -/
def SubstBuf.capitalize (b : SubstBuf) (c : Char) : SubstBuf :=
  if c.isUpper ∧ b.s.length ≤ b.dbuf.length then
    { b with dbuf := b.dbuf.modify (b.dbuf.length - b.s.length) upperChar }
  else b

/-- How a round of the loop ends: `go` is another round. -/
inductive SubstStep where
  | go (b : SubstBuf)
  | done (b : SubstBuf)

/-- The characters up to `close` or to the end. -/
def readTo (close : Char) : ℕ → PtrM σ (List Char)
  | 0 => throw .diverges
  | n + 1 => do
    match ← parseChar w.toPasteEnv false with
    | none => return []
    | some c => if c = close then return [] else return c :: (← readTo close n)

/-- The call of a user function of three arguments. -/
def overrideCall (v : SubstVars) (altmode : Bool) (name : String) : String :=
  snprintf 256 (name ++ "(" ++ (if altmode then "1" else "0") ++ ",'" ++ padInt 4 v.y ++ "-" ++
    padInt 2 (v.m + 1) ++ "-" ++ padInt 2 v.d ++ "'," ++ padInt 2 v.h ++ ":" ++ padInt 2 v.min ++
    ")")

/-- A user function in place of a sequence: `true` where it has put its value. -/
def askOverride (v : SubstVars) (altmode : Bool) (name : Option String) (b : SubstBuf) :
    PtrM σ (Bool × SubstBuf) := do
  match name with
  | none => return (false, b)
  | some name =>
    if w.findUserFunc name = some 3 then
      let b := { b with s := overrideCall v altmode name }
      match ← evalSubst w b.s with
      | .error _ => return (false, b)
      | .ok (.int 0) => return (false, b)
      | .ok val => return (true, b.puts (coercedText w val).toList)
    else return (false, b)

/-- `%{...}` -/
def namedFunction (n : ℕ) (v : SubstVars) (altmode : Bool) (b : SubstBuf) : PtrM σ SubstBuf := do
  let chars ← readTo w '}' n
  let name := "subst_" ++ String.ofList ((chars.take 64).map Char.toLower)
  if w.findUserFunc name = some 3 then
    let b := { b with s := overrideCall v altmode name }
    match ← evalSubst w b.s with
    | .ok val => return b.puts (coercedText w val).toList
    | .error _ => return b
  else return { b with s := name }

/-- What `switch(UPPER(c))` does to the buffers. -/
def putSequence (a : SubstArgs) (v : SubstVars) (altmode : Bool) (c : Char) (b : SubstBuf) :
    SubstBuf :=
  match sequenceOutput w a v altmode c with
  | .text t => b.ship t
  | .putc c => b.puts [c]
  | .nothing => b
  | .quote =>
    if w.dontSuppressQuoteMarkers then b.puts ['%', c]
    else { b.puts [quoteMarker] with hasQuote := true }

/-- A sequence of one character `c`. -/
def substSequence (a : SubstArgs) (v : SubstVars) (altmode : Bool) (c : Char) (b : SubstBuf) :
    PtrM σ SubstBuf := do
  let (replaced, b) ← askOverride w v altmode (getFunctionOverride c false) b
  if replaced then return b
  else if v.diff.natAbs ≤ 1 ∧ saysNearDay c then return (b.ship (nearDay w v.diff)).capitalize c
  else
    let (replaced, b) ← askOverride w v altmode (getFunctionOverride c true) b
    if replaced then return b
    else return (putSequence w a v altmode c b).capitalize c

/-- What stands behind a %. -/
def percentSequence (n : ℕ) (a : SubstArgs) (v : SubstVars) (b : SubstBuf) :
    PtrM σ SubstStep := do
  match ← parseChar w.toPasteEnv false with
  | none => return .done b
  | some '<' =>
    let header ← readTo w '>' n
    return .go (b.puts ((findTrigInfo a.infos header).getD []))
  | some '(' =>
    let orig ← readTo w ')' n
    return .go (b.puts ((w.translated orig).getD orig))
  | some '*' =>
    match ← parseChar w.toPasteEnv false with
    | none => return .done b
    | some '{' => return .go (← namedFunction w n v true b)
    | some c => return .go (← substSequence w a v true c b)
  | some '{' => return .go (← namedFunction w n v false b)
  | some c => return .go (← substSequence w a v false c b)

/-- One round of `while(1)`. -/
def substRound (n : ℕ) (a : SubstArgs) (v : SubstVars) (b : SubstBuf) : PtrM σ SubstStep := do
  match ← parseChar w.toPasteEnv false with
  | none =>
    if w.addBlankLines ∧ a.mode = .normal ∧ a.trig.typ ≠ .run ∧ w.msgCommand = false then
      return .done (b.puts ['\n'])
    else return .done b
  | some '\n' => return .go b
  | some '%' => percentSequence w n a v { b with s := "" }
  | some c => return .go (b.puts [c])

/-- `while(1)` -/
def substLoop (n : ℕ) (a : SubstArgs) (v : SubstVars) : ℕ → SubstBuf → PtrM σ SubstBuf
  | 0, _ => throw .diverges
  | k + 1, b => do
    match ← substRound w n a v b with
    | .go b => substLoop n a v k b
    | .done b => return b

/-- The end of `DoSubst`: the marks of `%"`, and what they enclose. -/
def finishSubst (a : SubstArgs) (origLen : ℕ) (b : SubstBuf) : List Char :=
  if b.hasQuote = false then
    if a.mode ≠ .normal ∧ a.trig.typ = .run then [] else b.dbuf
  else
    let before := b.dbuf.take origLen
    let added := b.dbuf.drop origLen
    if a.mode = .cal then
      before ++ ((added.dropWhile (· ≠ quoteMarker)).drop 1).takeWhile (· ≠ quoteMarker)
    else before ++ added.filter (· ≠ quoteMarker)

/-- `DoSubst`, on a buffer that holds `dbuf` already. -/
def doSubst (n : ℕ) (a : SubstArgs) (dbuf : List Char) : PtrM σ (List Char) := do
  let v ← substVars w a
  return finishSubst a dbuf.length (← substLoop w n a v n ⟨dbuf, "", false⟩)

end Vars

end Remind
