import Remind.Arith
import Remind.ExprToken

/-!
# ParsePtr — reading a line with expressions pasted in (main.c: `ParseChar` to `ParseToken`,
# `VerifyEoln`, `PushToken`)

A parser reads the text of a line; an expression in brackets is evaluated where it stands, and its
value is read in its place.  The evaluator is a parameter.  `0` for the end of the text is `none`.
The loops of the readers take a bound on the characters they read.
-/

namespace Remind

/-- `Parser`: `pos` is what is left of the text, `nested` what is left of a pasted value
(`isnested`, `epos`), `pushed` what is left of a token that was pushed back. -/
structure ParserPtr where
  pos : List Char
  nested : Option (List Char)
  allownested : Bool
  pushed : List Char
  exprHappened : Bool
  nonconstExpr : Bool

/-- `CreateParser` -/
def createParser (s : List Char) : ParserPtr := ⟨s, none, true, [], false, false⟩

/-- The parser and the rest of the program. -/
structure PtrState (σ : Type) where
  ptr : ParserPtr
  world : σ

abbrev PtrM (σ : Type) := EStateM ErrCode (PtrState σ)

/-- `EvalExpr`, with its flag `nonconst` and the text after the expression, and the separators of
`DoCoerce`. -/
structure PasteEnv (σ : Type) where
  evalExpr : List Char → σ → (Except ErrCode (Value × Bool) × List Char) × σ
  text : TextConfig

variable {σ : Type} (w : PasteEnv σ)

/-- `DestroyParser` -/
def destroyParser (p : ParserPtr) : ParserPtr := { p with nested := none }

/-- The evaluation of an expression in brackets; `pos` is the text after the `[`. -/
def pasteExpr (pos : List Char) : PtrM σ Unit := fun s =>
  let ((r, pos), world) := w.evalExpr pos s.world
  let p := { s.ptr with pos, exprHappened := true }
  match r with
  | .error r => .error r ⟨destroyParser p, world⟩
  | .ok (val, nonconst) =>
    let p := { p with nonconstExpr := p.nonconstExpr || nonconst }
    match pos.dropWhile isEmptyChar with
    | [] => .error .missEnd ⟨destroyParser { p with pos := [] }, world⟩
    | c :: pos =>
      if c = ']' then
        .ok () ⟨{ p with pos, nested := some (coerceString w.text val).val.toList }, world⟩
      else .error .parseErr ⟨destroyParser { p with pos := c :: pos }, world⟩

/-- A character is read, or only looked at. -/
def PtrState.take (s : PtrState σ) (peek : Bool) (c : Char) (p : ParserPtr) :
    EStateM.Result ErrCode (PtrState σ) (Option Char) :=
  .ok (some c) (if peek then s else { s with ptr := p })

/-- The loop of `ParseChar`. -/
def parseCharLoop (peek : Bool) : ℕ → PtrM σ (Option Char)
  | 0 => throw .diverges
  | n + 1 => fun s =>
    match s.ptr.nested with
    | some (c :: epos) => s.take peek c { s.ptr with nested := some epos }
    | _ =>
      -- the end of a pasted value
      let s := { s with ptr := { s.ptr with nested := none } }
      match s.ptr.pos with
      | [] => .ok none s
      | c :: pos =>
        if c ≠ '[' ∨ s.ptr.allownested = false then s.take peek c { s.ptr with pos }
        else
          match pos with
          | '[' :: pos => s.take peek '[' { s.ptr with pos }
          | pos => (do pasteExpr w pos; parseCharLoop peek n) s

/-- `ParseChar` -/
def parseChar (peek : Bool) : PtrM σ (Option Char) := fun s =>
  match s.ptr.pushed with
  | c :: pushed => s.take peek c { s.ptr with pushed }
  | [] => parseCharLoop w peek (s.ptr.pos.length + 1) s

/-- `isempty` of a character or the zero at the end. -/
def isEmptyAt (c : Option Char) : Bool := (c.map isEmptyChar).getD false

/-- The loop of `ParseNonSpaceChar`. -/
def nonSpaceLoop : ℕ → Option Char → PtrM σ (Option Char)
  | 0, _ => throw .diverges
  | n + 1, ch => do
    if isEmptyAt ch then
      let _ ← parseChar w false
      nonSpaceLoop n (← parseChar w true)
    else return ch

/-- `ParseNonSpaceChar` -/
def parseNonSpaceChar (n : ℕ) (peek : Bool) : PtrM σ (Option Char) := do
  let ch ← nonSpaceLoop w n (← parseChar w true)
  if peek then return ch else parseChar w false

/-- The character of a `\x` escape: `hexbuf` holds its digits. -/
def hexEscape (hexbuf : List Char) : PtrM σ Char :=
  if hexbufVal hexbuf = 0 then throw .parseErr else return Char.ofNat (hexbufVal hexbuf)

/-- `isxdigit` of a character or the zero at the end. -/
def isHexDigitAt (c : Option Char) : Bool := (c.map isHexDigit).getD false

/-- What stands behind a backslash in a quoted string; a backslash at the end puts a zero. -/
def quotedEscape : PtrM σ Char := do
  match ← parseChar w false with
  | none => return '\x00'
  | some c =>
    if c = 'x' then
      let c₁ ← parseChar w true
      if !isHexDigitAt c₁ then return 'x'
      else
        let _ ← parseChar w false
        let c₂ ← parseChar w true
        if isHexDigitAt c₂ then
          let _ ← parseChar w false
          hexEscape (c₁.toList ++ c₂.toList)
        else hexEscape c₁.toList
    else return letterEscape c

/-- The loop of `ParseQuotedString`; `c` is the character read last. -/
def quotedLoop : ℕ → Option Char → List Char → PtrM σ (List Char)
  | 0, _, _ => throw .diverges
  | n + 1, c, dbuf => do
    match c with
    | none => throw .missQuote
    | some c =>
      if c = '"' then return dbuf
      else
        let d ← if c = '\\' then quotedEscape w else pure c
        quotedLoop n (← parseChar w false) (dbuf ++ [d])

/-- `ParseQuotedString` -/
def parseQuotedString (n : ℕ) : PtrM σ (List Char) := do
  match ← parseNonSpaceChar w n false with
  | none => throw .eoln
  | some c => if c ≠ '"' then throw .missQuote else quotedLoop w n (← parseChar w false) []

/-- The second loop of `ParseToken`. -/
def tokenLoop : ℕ → Option Char → List Char → PtrM σ (List Char)
  | 0, _, _ => throw .diverges
  | n + 1, c, dbuf => do
    match c with
    | none => return dbuf
    | some c =>
      if isEmptyChar c then return dbuf
      else tokenLoop n (← parseChar w false) (dbuf ++ [c])

/-- The first loop of `ParseToken`. -/
def skipLoop : ℕ → Option Char → PtrM σ (Option Char)
  | 0, _ => throw .diverges
  | n + 1, c => do
    if isEmptyAt c then skipLoop n (← parseChar w false) else return c

/-- `ParseToken` -/
def parseToken (n : ℕ) : PtrM σ (List Char) := do
  tokenLoop w n (← skipLoop w n (← parseChar w false)) []

/-- `VerifyEoln` -/
def verifyEnd (n : ℕ) : PtrM σ Unit := do
  match ← parseToken w n with
  | [] => return ()
  | c :: _ => if c = '#' ∨ c = ';' then return () else throw .extraneousToken

/-! ### Text that is read as it stands -/

section Literal

variable {w} {s : PtrState σ} {pos : List Char} {c : Char}

/-- What is left is read as it stands: nothing was pushed back, no value is pasted in, and none will
be. -/
structure PtrState.Literal (s : PtrState σ) : Prop where
  pushed : s.ptr.pushed = []
  nested : s.ptr.nested = none
  plain : s.ptr.allownested = false ∨ '[' ∉ s.ptr.pos

/-- The parser at another place of the text. -/
def PtrState.moveTo (s : PtrState σ) (pos : List Char) : PtrState σ :=
  { s with ptr := { s.ptr with pos } }

@[simp] theorem PtrState.moveTo_pos : (s.moveTo pos).ptr.pos = pos := rfl

@[simp] theorem PtrState.moveTo_moveTo (pos pos' : List Char) :
    (s.moveTo pos).moveTo pos' = s.moveTo pos' := rfl

theorem PtrState.Literal.moveTo (h : s.Literal) (hpos : pos ⊆ s.ptr.pos) : (s.moveTo pos).Literal :=
  ⟨h.pushed, h.nested, h.plain.imp id fun hb hmem => hb (hpos hmem)⟩

/-- One character of such a text. -/
theorem parseChar_literal (h : s.Literal) (hpos : s.ptr.pos = c :: pos) (peek : Bool) :
    parseChar w peek s = .ok (some c) (if peek then s else s.moveTo pos) := by
  obtain ⟨⟨p, nested, allow, pushed, happened, nonconst⟩, world⟩ := s
  obtain ⟨h1, h2, h3⟩ := h
  simp only at h1 h2 h3 hpos
  subst h1 h2 hpos
  have hbracket : c ≠ '[' ∨ allow = false := by
    rcases h3 with h3 | h3
    · exact Or.inr h3
    · left
      rintro rfl
      exact h3 List.mem_cons_self
  unfold parseChar parseCharLoop
  simp only [hbracket, if_true]
  rfl

end Literal

/-- `PushToken` -/
def pushToken (tok : List Char) (p : ParserPtr) : ParserPtr := { p with pushed := tok ++ [' '] }

end Remind
