import Remind.Lib.CInt
import Remind.Lib.CString
import Remind.Trigger

/-!
# DynBuf — dynamic buffers (dynbuf.c, dynbuf.h)

A buffer starts on an array of its own and moves to blocks of twice the size.  `none` is an access
outside of a block, or a loop that does not end; a result is the error code, if there is one, and
the buffer.
-/

namespace Remind

open Lib

/-- What `malloc` gives during a call: blocks with anything in them. -/
structure Heap where
  malloc : ℕ → Option (List Char)
  length_eq : ∀ {n block}, malloc n = some block → block.length = n
  /-- No block is larger than `PTRDIFF_MAX`. -/
  max : ∀ {n block}, malloc n = some block → n < 2 ^ 63

/-- `DynamicBuffer`: `buffer` is the block on the heap, or `staticBuf`. -/
structure DynBuf where
  staticBuf : List Char
  heap : Option (List Char) := none
  len : ℕ
  allocatedLen : ℕ
  deriving DecidableEq, Repr

/-- `DBUF_STATIC_SIZE` -/
def dbufStaticSize : ℕ := 32

/-- `dbuf->buffer` -/
def DynBuf.buffer (b : DynBuf) : List Char := b.heap.getD b.staticBuf

/-- The buffer with other characters in its block. -/
def DynBuf.withCells (b : DynBuf) (cells : List Char) : DynBuf :=
  match b.heap with
  | none => { b with staticBuf := cells }
  | some _ => { b with heap := some cells }

/-- `dbuf->buffer[i] = c` -/
def DynBuf.set (b : DynBuf) (i : ℕ) (c : Char) : Option DynBuf :=
  (writeCells b.buffer i [c]).map b.withCells

/-- `while (size <= n) size *= 2;` in `size_t`: after 64 rounds `size` is zero, and stays zero. -/
def growSize : ℕ → ℕ → ℕ → Option ℕ
  | 0, _, _ => none
  | k + 1, size, n => if size ≤ n then growSize k (size * 2 % 2 ^ 64) n else some size

/-- `DBufMakeRoom` -/
def dbufMakeRoom (h : Heap) (b : DynBuf) (n : ℕ) : Option (Option ErrCode × DynBuf) :=
  if b.allocatedLen > n then some (none, b)
  else do
    let size ← growSize 65 b.allocatedLen n
    match h.malloc size with
    | none => return (some .noMem, b)
    | some block =>
      let block ← strcpy block 0 (← cString b.buffer)
      return (none, { b with heap := some block, allocatedLen := size })

/-- `DBufInit`: the array may hold anything. -/
def dbufInit (staticBuf : List Char) : Option DynBuf :=
  DynBuf.set ⟨staticBuf, none, 0, dbufStaticSize⟩ 0 '\x00'

/-- `dbuf->buffer[dbuf->len++] = c; dbuf->buffer[dbuf->len] = 0;` -/
def DynBuf.append (b : DynBuf) (c : Char) : Option DynBuf := do
  let b' ← b.set b.len c
  let b' ← b'.set (b.len + 1) '\x00'
  return { b' with len := b.len + 1 }

/-- `DBufPutcFN` -/
def dbufPutcFN (h : Heap) (b : DynBuf) (c : Char) : Option (Option ErrCode × DynBuf) := do
  if b.allocatedLen = b.len + 1 then
    let (r, b) ← dbufMakeRoom h b (b.len + 1)
    if r ≠ none then return (some .noMem, b)
    else return (none, ← b.append c)
  else return (none, ← b.append c)

/-- `DBufPutc` -/
def dbufPutc (h : Heap) (b : DynBuf) (c : Char) : Option (Option ErrCode × DynBuf) := do
  if b.allocatedLen ≤ b.len + 1 then dbufPutcFN h b c
  else return (none, ← b.append c)

/-- `DBufPuts`: the length of the string goes through an `int`. -/
def dbufPuts (h : Heap) (b : DynBuf) (str : List Char) : Option (Option ErrCode × DynBuf) := do
  let l : ℤ := wrap str.length
  if l = 0 then return (none, b)
  else
    let sum : ℕ := ((b.len + l) % 2 ^ 64).toNat
    let (r, b) ← dbufMakeRoom h b sum
    if r ≠ none then return (some .noMem, b)
    else
      let cells ← strcpy b.buffer b.len str
      return (none, { b.withCells cells with len := sum })

/-- `DBufFree` -/
def dbufFree (b : DynBuf) : Option DynBuf := dbufInit b.staticBuf

/-- The loop of `DBufGets`, for at most `k` rounds; `tmp` may hold anything. -/
def dbufGetsLoop (h : Heap) (tmp : List Char) (maxlen : ℤ) :
    ℕ → DynBuf → List Char → Option (Option ErrCode × DynBuf × List Char)
  | 0, _, _ => none
  | k + 1, b, fp => do
    let (read, fp) ← fgets tmp 256 fp
    match read with
    | none => return (none, b, fp)
    | some tmp =>
      let chunk ← cString tmp
      if chunk = [] then return (none, b, fp)
      else
        let last := chunk.getLast? = some '\n'
        let (r, b) ← dbufPuts h b (if last then chunk.dropLast else chunk)
        if r ≠ none then return (some .noMem, b, fp)
        else if 0 < maxlen ∧ maxlen < b.len then return (some .lineTooLong, b, fp)
        else if last then return (none, b, fp)
        else dbufGetsLoop h tmp maxlen k b fp

/-- `DBufGets` -/
def dbufGets (h : Heap) (tmp : List Char) (b : DynBuf) (fp : List Char) (maxlen : ℤ) :
    Option (Option ErrCode × DynBuf × List Char) := do
  let b ← dbufFree b
  let (read, fp) ← fgets b.buffer b.allocatedLen fp
  match read with
  | none => return (none, b, fp)
  | some cells =>
    let b := b.withCells cells
    let s ← cString b.buffer
    if s = [] then return (none, b, fp)
    else if s.getLast? = some '\n' then
      let b ← b.set (s.length - 1) '\x00'
      let b := { b with len := s.length - 1 }
      if 0 < maxlen ∧ maxlen < b.len then return (some .lineTooLong, b, fp)
      else return (none, b, fp)
    else dbufGetsLoop h tmp maxlen (fp.length + 1) { b with len := s.length } fp

end Remind
