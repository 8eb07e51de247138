import Mathlib.Data.List.Forall2
import Remind.Lib.Loop

/-!
# FillParagraph — the filling of paragraphs (main.c: `FillParagraphWCAux`)

One round of the outer loop or of the loop over the words is one step of a state.  The end of the
text is the end of the list.  `iswspace` and `wcwidth` are those of the locale; a width is not
negative.
-/

namespace Remind

/-- `iswspace` and `wcwidth`. -/
structure CharClass where
  iswspace : Char → Bool
  wcwidth : Char → ℕ
  newline : iswspace '\n' = true
  space : iswspace ' ' = true
  escape : iswspace '\x1B' = false
  width_space : wcwidth ' ' = 1

/-- `FormWidth`, `FirstIndent`, `SubsIndent`; `EndSent` and `EndSentIg` as bytes. -/
structure FillConfig extends CharClass where
  formWidth : ℕ
  firstIndent : ℕ
  subsIndent : ℕ
  endSent : List ℕ
  endSentIg : List ℕ

/-- `ISWBLANK` -/
def CharClass.isWBlank (k : CharClass) (c : Char) : Bool := k.iswspace c && c != '\n'

/-- `*s < 0x40 || *s > 0x7E`: not the last character of an escape sequence. -/
def insideEscape (c : Char) : Bool := c.toNat < 0x40 || c.toNat > 0x7E

/-- `strchr`, which converts its argument to a character and finds the zero at the end too. -/
def strchr (bytes : List ℕ) (c : Char) : Bool := (0 :: bytes).contains (c.toNat % 256)

/-- What `OutputEscapeSequencesWS` passes over: `inside` behind the `[` of a sequence. -/
def escapeLength : Bool → List Char → ℕ
  | _, [] => 0
  | true, c :: s => if insideEscape c then escapeLength true s + 1 else escapeLength false s + 1
  | false, '\x1B' :: '[' :: s => escapeLength true s + 2
  | false, _ :: _ => 0

/-- The sequences of the text that are output, and the rest of the text. -/
def outputEscapeSequences (s : List Char) : List Char × List Char :=
  (s.take (escapeLength false s), s.drop (escapeLength false s))

/-- `while(ISWBLANK(*s)) s++;` -/
def CharClass.skipBlanks (k : CharClass) (s : List Char) : List Char := s.dropWhile k.isWBlank

/-- The loop that outputs the escape sequences before a word, and skips the blanks behind them. -/
def CharClass.escapesLoop (k : CharClass) : ℕ → List Char → List Char × List Char
  | 0, s => ([], s)
  | n + 1, s =>
    let (escapes, t) := outputEscapeSequences s
    if escapes = [] then ([], s)
    else
      let (more, s) := k.escapesLoop n (k.skipBlanks t)
      (escapes ++ more, s)

/-- The loop over a word: its number of characters, and its width.  The first `skip` characters are
those that `OutputEscapeSequencesWS` has passed over. -/
def CharClass.wordLoop (k : CharClass) : ℕ → List Char → ℕ × ℕ
  | _, [] => (0, 0)
  | skip + 1, _ :: s =>
    let (chars, len) := k.wordLoop skip s
    (chars + 1, len)
  | 0, c :: s =>
    if k.iswspace c then (0, 0)
    else
      match escapeLength false (c :: s) with
      | skip + 1 =>
        let (chars, len) := k.wordLoop skip s
        (chars + 1, len)
      | 0 =>
        let (chars, len) := k.wordLoop 0 s
        (chars + 1, len + k.wcwidth c)

/-- `doublespace` behind a word. -/
def FillConfig.sentenceSpace (k : FillConfig) (doublespace : ℕ) (word : List Char) : ℕ :=
  word.foldl (fun d c =>
    if strchr k.endSent c then 2 else if !strchr k.endSentIg c then 1 else d) doublespace

/-- Where `FillParagraphWCAux` is: at the top of its loop, at that of the loop over the words, or
at its end. -/
inductive FillPhase where
  | line
  | words (roomleft : ℤ) (pendspace : ℕ)
  | done
  deriving DecidableEq, Repr

structure FillState where
  s : List Char
  output : List Char
  line : ℕ
  doublespace : ℕ
  phase : FillPhase
  deriving DecidableEq, Repr

/-- A round of the loop over the words. -/
def FillConfig.wordStep (k : FillConfig) (roomleft : ℤ) (pendspace : ℕ) (st : FillState) :
    FillState :=
  let s := k.skipBlanks st.s
  if s.head? = some '\n' then { st with s, phase := .line }
  else
    let (escapes, t) := k.escapesLoop (s.length + 1) s
    let output := st.output ++ escapes
    let (chars, len) := k.wordLoop 0 t
    if chars = 0 then { st with s := t, output, phase := .done }
    else if pendspace = 0 ∨ (len : ℤ) + pendspace ≤ roomleft then
      let word := t.take chars
      let doublespace := k.sentenceSpace st.doublespace word
      { st with
        s := t.drop chars
        output := output ++ List.replicate pendspace ' ' ++ word
        doublespace
        phase := .words (roomleft - (len + doublespace)) doublespace }
    else
      { st with s := t, output := output ++ ['\n'], line := st.line + 1, phase := .line }

/-- The start of a line. -/
def FillConfig.lineStep (k : FillConfig) (st : FillState) : FillState :=
  match st.s with
  | '\n' :: s => { st with s := k.skipBlanks s, output := st.output ++ ['\n'], line := 0 }
  | [] => { st with phase := .done }
  | _ =>
    let j := if st.line = 0 then k.firstIndent else k.subsIndent
    { st with
      output := st.output ++ List.replicate j ' '
      phase := .words (k.formWidth - j) 0 }

def FillConfig.step (k : FillConfig) (st : FillState) : FillState :=
  match st.phase with
  | .line => k.lineStep st
  | .words roomleft pendspace => k.wordStep roomleft pendspace st
  | .done => st

/-- `FillParagraphWCAux` at its start. -/
def fillStart (s : List Char) : FillState := ⟨s, [], 0, 1, .line⟩

/-- `FillParagraphWCAux`, for at most `n` rounds. -/
def FillConfig.fillParagraphWCAux (k : FillConfig) (n : ℕ) (s : List Char) : Option FillState :=
  Lib.whileFuel (fun st => st.phase != .done) k.step n (fillStart s)

end Remind
