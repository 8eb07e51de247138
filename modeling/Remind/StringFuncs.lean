import Remind.Coerce
import Remind.BufText

/-!
# StringFuncs — the string functions and their multibyte versions (funcs.c)

A pointer into a string is an index; behind its last character a string has a zero.  A function
comes to a value, to an error, or to nothing where it reaches outside of a string or a block.
-/

namespace Remind

open Lib

/-- The rest of the program, as the string functions see it.  There is memory for every block that
`malloc` may give. -/
structure StringEnv where
  text : TextConfig
  maxStringLen_int : text.maxStringLen ≤ intMax
  heap : Heap
  ample : ∀ n < 2 ^ 63, heap.malloc n ≠ none
  /-- What the array of a new buffer holds. -/
  staticBuf : List Char
  static : staticBuf.length = dbufStaticSize
  mbstowcs : List Char → Option (List Char)
  wcstombs : List Char → Option (List Char)
  mbstowcs_ascii : ∀ s, (∀ c ∈ s, 0 < c.toNat ∧ c.toNat < 128) → mbstowcs s = some s
  wcstombs_ascii : ∀ s, (∀ c ∈ s, 0 < c.toNat ∧ c.toNat < 128) → wcstombs s = some s

abbrev StringRun (α : Type) := ExceptT ErrCode Option α

/-- An access outside of a string or a block. -/
def outside {α : Type} : StringRun α := (none : Option (Except ErrCode α))

/-- What stays inside, as a step. -/
def inside {α : Type} : Option α → StringRun α
  | some a => pure a
  | none => outside

/-- `*p`: nothing at the zero behind the string. -/
def readAt (str : List Char) (p : ℤ) : StringRun (Option Char) :=
  if 0 ≤ p ∧ p ≤ str.length then pure str[p.toNat]? else outside

/-- The string from a pointer on. -/
def stringAt (str : List Char) (p : ℤ) : StringRun (List Char) :=
  if 0 ≤ p ∧ p ≤ str.length then pure (str.drop p.toNat) else outside

/-- `p + d` -/
def pointerAdd (str : List Char) (p d : ℤ) : StringRun ℤ :=
  if 0 ≤ p + d ∧ p + d ≤ str.length then pure (p + d) else outside

/-- `strstr` and `wcsstr`, from a pointer into the string. -/
def strstr (str : List Char) (p : ℤ) (needle : List Char) : StringRun (Option ℤ) := do
  let hay ← stringAt str p
  let found := (List.range (hay.length + 1)).find? fun q => needle.isPrefixOf (hay.drop q)
  return found.map fun q => p + q

/-- `mbstowcs`, with the length that it gives. -/
def StringEnv.wide (env : StringEnv) (s : List Char) : StringRun (List Char) :=
  match env.mbstowcs s with
  | some w => pure w
  | none => throw .badMbSeq

/-- A `size_t` -/
def sizeT (n : ℤ) : ℕ := (n % 2 ^ 64).toNat

/-- `calloc(n, sizeof(wchar_t))` -/
def callocWide (n : ℕ) : StringRun (List Char) :=
  if n * 4 < 2 ^ 63 then pure (List.replicate n '\x00') else throw .noMem

/-- A value with the text of a string. -/
def strVal (s : List Char) : Value := .str (String.ofList s)

/-! ### strlen -/

/-- `FStrlen` -/
def fStrlen (args : List Value) : StringRun Value :=
  match args with
  | [.str s] =>
    if (s.toList.length : ℤ) > intMax then throw .tooHigh else pure (.int s.toList.length)
  | _ => throw .badType

/-- `FMbstrlen` -/
def fMbstrlen (env : StringEnv) (args : List Value) : StringRun Value :=
  match args with
  | [.str s] => do
    let w ← env.wide s.toList
    if (w.length : ℤ) > intMax then throw .tooHigh else pure (.int w.length)
  | _ => throw .badType

/-! ### index -/

/-- `while (start < n) { if (!*s) break; s++; start++; }`, for the `k` values of `start` that are
left. -/
def startLoop (str : List Char) : ℕ → ℤ × ℤ → StringRun (ℤ × ℤ)
  | 0, p => pure p
  | k + 1, (s, start) => do
    match ← readAt str s with
    | none => pure (s, start)
    | some _ => startLoop str k (s + 1, start + 1)

/-- The value for what `strstr` or `wcsstr` has found. -/
def foundValue : Option ℤ → Value
  | none => .int 0
  | some s => .int (wrap (s + 1))

/-- `FIndex` behind the check of its arguments. -/
def findIndex (hay needle : List Char) (third : Option ℤ) : StringRun Value := do
  let s ← match third with
    | none => pure 0
    | some n => do
      let (s, _) ← startLoop hay (n - 1).toNat (0, 1)
      pure s
  return foundValue (← strstr hay s needle)

/-- `FIndex` -/
def fIndex (args : List Value) : StringRun Value :=
  match args with
  | [.str hay, .str needle] => findIndex hay.toList needle.toList none
  | [.str hay, .str needle, .int n] => findIndex hay.toList needle.toList (some n)
  | _ => throw .badType

/-- `FMbindex` behind the check of its arguments. -/
def findMbIndex (env : StringEnv) (hay needle : List Char) (third : Option ℤ) :
    StringRun Value := do
  let haystack ← env.wide hay
  let needle ← env.wide needle
  let s ← match third with
    | none => pure 0
    | some n =>
      if n > wrap haystack.length then pointerAdd haystack 0 haystack.length
      else pointerAdd haystack 0 (n - 1)
  return foundValue (← strstr haystack s needle)

/-- `FMbindex` -/
def fMbindex (env : StringEnv) (args : List Value) : StringRun Value :=
  match args with
  | [.str hay, .str needle] => findMbIndex env hay.toList needle.toList none
  | [.str hay, .str needle, .int n] => findMbIndex env hay.toList needle.toList (some n)
  | _ => throw .badType

/-! ### substr -/

/-- The string from `t` to `s`, where `*s = 0` has ended it. -/
def stringBetween (str : List Char) (t s : ℤ) : StringRun (List Char) :=
  stringAt (str.take s.toNat) t

/-- `FSubstr` behind the check of its arguments. -/
def subString (str : List Char) (first : ℤ) (last : Option ℤ) : StringRun Value := do
  let (s, start) ← startLoop str (first - 1).toNat (0, 1)
  match last with
  | none => return strVal (← stringAt str s)
  | some n =>
    match ← readAt str s with
    | none => return strVal (← stringAt str s)
    | some _ =>
      let (e, _) ← startLoop str (n - start + 1).toNat (s, start)
      return strVal (← stringBetween str s e)

/-- `FSubstr` -/
def fSubstr (args : List Value) : StringRun Value :=
  match args with
  | [.str s, .int first] => subString s.toList first none
  | [.str s, .int first, .int last] => subString s.toList first (some last)
  | _ => throw .badType

/-- `FMbsubstr` behind the check of its arguments. -/
def mbSubString (env : StringEnv) (str : List Char) (first : ℤ) (last : Option ℤ) :
    StringRun Value := do
  let str ← env.wide str
  let (t, start) ← startLoop str (first - 1).toNat (0, 1)
  let text ← match last with
    | none => stringAt str t
    | some n => do
      let (s, _) ← startLoop str (n - start + 1).toNat (t, start)
      stringBetween str t s
  match env.wcstombs text with
  | some converted => return strVal converted
  | none => throw .badMbSeq

/-- `FMbsubstr` -/
def fMbsubstr (env : StringEnv) (args : List Value) : StringRun Value :=
  match args with
  | [.str s, .int first] => mbSubString env s.toList first none
  | [.str s, .int first, .int last] => mbSubString env s.toList first (some last)
  | _ => throw .badType

/-! ### pad -/

/-- The loop over `i` that puts `n` characters of `pad` somewhere, around and around. -/
def padLoop {β : Type} (put : β → Char → StringRun β) (pad : List Char) :
    ℕ → ℤ → β → StringRun β
  | 0, _, b => pure b
  | n + 1, s, b => do
    let b ← put b ((← readAt pad s).getD '\x00')
    match ← readAt pad (s + 1) with
    | none => padLoop put pad n 0 b
    | some _ => padLoop put pad n (s + 1) b

/-- The text and `n` characters of the padding; the text is first where the padding goes to the
right. -/
def padAround {β : Type} (putText : β → StringRun β) (put : β → Char → StringRun β)
    (pad : List Char) (n : ℕ) (right : Bool) (b : β) : StringRun β :=
  if right then do
    let b ← putText b
    padLoop put pad n 0 b
  else do
    let b ← padLoop put pad n 0 b
    putText b

/-- The outcome of a call on a buffer. -/
def bufResult : Option (Option ErrCode × DynBuf) → StringRun DynBuf
  | none => outside
  | some (none, b) => pure b
  | some (some _, _) => throw .noMem

/-- `DBufPutc` in `FPad`. -/
def StringEnv.putChar (env : StringEnv) (b : DynBuf) (c : Char) : StringRun DynBuf :=
  bufResult (dbufPutc env.heap b c)

/-- `*d++ = c` -/
def putWide (d : List Char × ℕ) (c : Char) : StringRun (List Char × ℕ) := do
  let dest ← inside (writeCells d.1 d.2 [c])
  return (dest, d.2 + 1)

/-- `FPad` behind the check of its arguments. -/
def padString (env : StringEnv) (s pad : List Char) (width : ℤ) (right : Bool) :
    StringRun Value := do
  let wantlen := sizeT width
  if s.length ≥ wantlen then return strVal s
  else if pad = [] then throw .badType
  else if 0 < env.text.maxStringLen ∧ (wantlen : ℤ) > env.text.maxStringLen then
    throw .stringTooLong
  else
    let b ← inside (dbufInit env.staticBuf)
    let b ← padAround (fun b => bufResult (dbufPuts env.heap b s)) env.putChar pad
      (wantlen - s.length) right b
    return strVal (← inside (cString b.buffer))

/-- `FMbpad` behind the check of its arguments. -/
def mbPadString (env : StringEnv) (s pad : List Char) (width : ℤ) (right : Bool) :
    StringRun Value := do
  let wantlen := sizeT width
  let src ← env.wide s
  if src.length ≥ wantlen then return strVal s
  else if pad = [] then throw .badType
  else if 0 < env.text.maxStringLen ∧ (wantlen : ℤ) > env.text.maxStringLen then
    throw .stringTooLong
  else
    let _ ← callocWide (src.length + 1)
    let pad ← env.wide pad
    let _ ← callocWide (pad.length + 1)
    let dest ← callocWide (sizeT (wantlen + 1))
    let (dest, _) ← padAround (fun d => src.foldlM putWide d) putWide pad (wantlen - src.length) right
      (dest, 0)
    let text ← inside (cString dest)
    match env.wcstombs text with
    | some result => return strVal result
    | none => outside

/-- The string of the first argument of `pad` and `mbpad`. -/
def StringEnv.padText (env : StringEnv) (v : Value) : List Char :=
  (coerceString env.text v).val.toList

/-- The arguments of `pad` and `mbpad`: the fourth one pads on the right. -/
def padArgs (env : StringEnv) (pad : List Char → List Char → ℤ → Bool → StringRun Value)
    (args : List Value) : StringRun Value :=
  match args with
  | [v, .str p, .int width] => pad (env.padText v) p.toList width false
  | [v, .str p, .int width, .int right] => pad (env.padText v) p.toList width (right ≠ 0)
  | _ => throw .badType

/-- `FPad` -/
def fPad (env : StringEnv) (args : List Value) : StringRun Value := padArgs env (padString env) args

/-- `FMbpad` -/
def fMbpad (env : StringEnv) (args : List Value) : StringRun Value :=
  padArgs env (mbPadString env) args

end Remind
