import Remind.Literal

/-!
# ExprToken — the tokens of expressions (expr.c: `parse_expr_token`)

Texts are without the zero at their end.  The messages that the function prints are left out.
-/

namespace Remind

/-- `isspace` -/
def isSpace (c : Char) : Bool := " \t\n\x0b\x0c\r".toList.contains c

/-- `isempty`: a backslash counts as white space. -/
def isEmptyChar (c : Char) : Bool := isSpace c || c = '\\'

/-- `ISID` -/
def isId (c : Char) : Bool := c.isAlphanum || c = '_'

/-- `DBufPutc`, and what is read after it. -/
def putc (c : Char) (r : Except ErrCode (List Char × List Char)) :
    Except ErrCode (List Char × List Char) :=
  r.map fun (buf, s) => (c :: buf, s)

/-- A backslash and a letter other than `x`. -/
def letterEscape (c : Char) : Char :=
  if c = 'a' then '\x07'
  else if c = 'b' then '\x08'
  else if c = 'f' then '\x0c'
  else if c = 'n' then '\n'
  else if c = 'r' then '\r'
  else if c = 't' then '\t'
  else if c = 'v' then '\x0b'
  else c

/-- `strtol(hexbuf, NULL, 16)` -/
def hexbufVal (hexbuf : List Char) : ℕ := (hexbuf.foldl (fun v c => v * 16 + hexVal c) 0).toNat

/-- The character of a hexadecimal escape; `\x00` is an error (`E_NO_MEM` is what the function
returns for it). -/
def putHex (hexbuf : List Char) (r : Except ErrCode (List Char × List Char)) :
    Except ErrCode (List Char × List Char) :=
  if hexbufVal hexbuf = 0 then .error .noMem else putc (Char.ofNat (hexbufVal hexbuf)) r

/-- The rest of a quoted string: what is put in the buffer, and the text after it.  `c` is the last
character read that was not behind a backslash. -/
def quotedToken (c : Char) : List Char → Except ErrCode (List Char × List Char)
  | [] => if c = '"' then .ok ([], []) else .error .missQuote
  | d :: s =>
    if d = '\\' then
      match s with
      | [] => .error .missQuote
      | e :: s =>
        if e = 'x' then
          match s with
          | [] => putc 'x' (quotedToken c [])
          | [h] => if isHexDigit h then putHex [h] (quotedToken c []) else putc 'x' (quotedToken c [h])
          | h :: h' :: s =>
            if !isHexDigit h then putc 'x' (quotedToken c (h :: h' :: s))
            else if isHexDigit h' then putHex [h, h'] (quotedToken c s)
            else putHex [h] (quotedToken c (h' :: s))
        else putc (letterEscape e) (quotedToken c s)
    else if d = '"' then .ok (['"'], s)
    else putc d (quotedToken d s)

/-- The rest of a date or time between `'`. -/
def quotedDateToken : List Char → Except ErrCode (List Char × List Char)
  | [] => .error .missQuote
  | d :: s => if d = '\'' then .ok (['\''], s) else putc d (quotedDateToken s)

/-- `ISID(**in) || **in == ':' || **in == '.' || **in == TimeSep` -/
def isIdOrTime (timeSep c : Char) : Bool := isId c || c = ':' || c = '.' || c = timeSep

/-- `parse_expr_token`: the token and the text after it. -/
def parseExprToken (timeSep : Char) (inp : List Char) : Except ErrCode (List Char × List Char) :=
  match inp.dropWhile isEmptyChar with
  | [] => .ok ([], [])
  | c :: s =>
    if ",]+-*/()%".toList.contains c then .ok ([c], s)
    else if "&|=".toList.contains c then
      match s with
      | d :: s' => if d = c then .ok ([c, c], s') else .error .parseErr
      | [] => .error .parseErr
    else if "!><".toList.contains c then
      match s with
      | d :: s' => if d = '=' then .ok ([c, '='], s') else .ok ([c], s)
      | [] => .ok ([c], [])
    else if c = '"' then
      if s = [] then .error .missQuote else putc '"' (quotedToken '"' s)
    else if c = '\'' then
      if s = [] then .error .missQuote else putc '\'' (quotedDateToken s)
    else if !isId c && c ≠ '$' then .error .illegalChar
    else if c = '$' && (s.head?.map Char.isAlpha).getD false then
      .ok (c :: s.takeWhile isId, s.dropWhile isId)
    else
      let buf := s.takeWhile (isIdOrTime timeSep)
      let s := (s.dropWhile (isIdOrTime timeSep)).dropWhile isEmptyChar
      -- an identifier followed by '(' is a function call
      match s with
      | d :: s' =>
        if (c.isAlpha || c = '_') && d = '(' then .ok (c :: buf ++ ['('], s') else .ok (c :: buf, s)
      | [] => .ok (c :: buf, [])

example : parseExprToken ':' "  foo (1)".toList = .ok ("foo(".toList, "1)".toList) := by decide +kernel

end Remind
