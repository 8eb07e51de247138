import Remind.ExprToken
import Remind.Evaluate
import Remind.Lib.DepthGuard

/-!
# ExprParse — the parser of expressions (expr.c: `parse_factor` to `parse_expression`)

A recursive descent with one function for each level of the grammar.  The functions take `aux`, the
calls of `parse_expression_aux` one nesting further in, and fuel for their loops; `parse_expression`
gives fuel enough (`parseExpression_total`).  `max` is the limit on the level of recursion, `none`
where nothing limits it.
-/

namespace Remind

open Lib (DepthM checkDepth unmarked)

/-- What is left of the text, and `ExprBuf`. -/
structure ParseState where
  inp : List Char
  buf : List Char

/-- What the parser finds around it: the separators, `FindBuiltinFunc`, `FindSysVar` (with
`constInt` of the node), and `ExpressionEvaluationDisabled`. -/
structure ParserEnv where
  seps : LiteralSeps
  findBuiltinFunc : List Char → Option BuiltinFunc
  findSysVar : List Char → Option (String × Bool)
  disabled : Bool

abbrev ParseM := DepthM ErrCode ParseState

/-- `MAX_PARSE_LEVEL` -/
def maxParseLevel : ℕ := 2000

/-- `VAR_NAME_LEN` of `strncasecmp` and `StrnCpy`. -/
def maxNameLen : ℕ := 64

section Parser

variable (env : ParserEnv) (max : Option ℕ) (locals : List (List Char))

/-- `DBufValue(&ExprBuf)` -/
def token : ParseM (List Char) := unmarked fun s => .ok s.buf s

/-- `GET_TOKEN` -/
def getToken : ParseM Unit := unmarked fun s =>
  match parseExprToken env.seps.timeSep s.inp with
  | .ok (buf, inp) => .ok () { inp, buf }
  | .error r => .error r s

/-- `PEEK_TOKEN` -/
def peekToken : ParseM Unit := unmarked fun s =>
  match parseExprToken env.seps.timeSep s.inp with
  | .ok (buf, _) => .ok () { s with buf }
  | .error r => .error r s

/-- `*r = ...; return NULL` where `b` holds. -/
def failIf (b : Bool) (r : ErrCode) : ParseM Unit := if b then throw r else pure ()

/-- `CHECK_PARSE_LEVEL` -/
def checkParseLevel (level : ℕ) : ParseM Unit := checkDepth .opStkOver max level

/-! ### Atoms -/

/-- `strncasecmp(s, name, VAR_NAME_LEN) == 0` -/
def sameName (s name : List Char) : Bool :=
  (s.take maxNameLen).map Char.toLower = (name.take maxNameLen).map Char.toLower

/-- `make_atom` -/
def makeAtom (s : List Char) : Except ErrCode Expr :=
  match s with
  | c :: rest =>
    if c.isAlpha || c = '_' then
      match locals.findIdx? (sameName s) with
      | some i => .ok (.localVar i)
      | none => .ok (.var (s.take maxNameLen))
    else if c = '$' && (rest.head?.map Char.isAlpha).getD false then
      match env.findSysVar rest with
      | some (name, constInt) => .ok (.sysvar name constInt)
      | none => .error .noSuchVar
    else (setConstantValue env.seps s).map .const
  | [] => (setConstantValue env.seps s).map .const

/-- `f->maxargs != NO_MAX_ARGS` and more than that. -/
def tooManyArgs (f : Option BuiltinFunc) (n : ℕ) : Bool :=
  ((f.bind (·.maxargs)).map fun k => decide (n > k)).getD false

/-- A result that is an error code or a node. -/
def ofExcept (x : Except ErrCode Expr) : ParseM Expr :=
  match x with
  | .ok node => pure node
  | .error r => throw r

/-- The loop over the arguments of a function. -/
def argLoop (aux : ℕ → ParseM Expr) (f : Option BuiltinFunc) (level : ℕ) :
    ℕ → List Expr → ParseM (List Expr)
  | 0, _ => throw .diverges
  | n + 1, args => do
    if (← token) = [')'] then return args
    else
      peekToken env
      if (← token) = [')'] then argLoop aux f level n args
      else
        let arg ← aux (level + 1)
        failIf (tooManyArgs f (args.length + 1)) .tooManyArgs
        peekToken env
        let t ← token
        failIf (t ≠ [')'] ∧ t ≠ [',']) .expectComma
        if t = [','] then
          getToken env
          peekToken env
          failIf ((← token) = [')']) .parseErr
          argLoop aux f level n (args ++ [arg])
        else argLoop aux f level n (args ++ [arg])

/-- `parse_function_call`; the token is the name with the `(`. -/
def parseFunctionCall (aux : ℕ → ParseM Expr) (n level : ℕ) : ParseM Expr := do
  checkParseLevel max level
  let s := (← token).dropLast
  let f := env.findBuiltinFunc s
  getToken env
  let args ← argLoop env aux f level n []
  getToken env
  match f with
  | some f =>
    failIf (args.length < f.minargs) .tooFewArgs
    return .builtin f args
  | none => return .user ((s.take maxNameLen).map Char.toLower) args

/-- `parse_atom` -/
def parseAtom (aux : ℕ → ParseM Expr) (n level : ℕ) : ParseM Expr := do
  checkParseLevel max level
  peekToken env
  let t ← token
  if t = ['('] then
    getToken env
    let node ← aux (level + 1)
    failIf ((← token) ≠ [')']) .missRightParen
    getToken env
    return node
  else
    match t with
    | [] => throw .eoln
    | c :: _ =>
      if !isId c && c ≠ '$' && c ≠ '"' && c ≠ '\'' then
        throw (if "+-*/%&|=<>!)".toList.contains c then .expectingAtom else .illegalChar)
      else if t.getLast? = some '(' then parseFunctionCall env max aux n (level + 1)
      else
        getToken env
        ofExcept (makeAtom env locals t)

/-! ### Operators -/

/-- A unary operator, folded into an integer constant; unary plus is dropped. -/
def applyUnary (op : List Char) (node : Expr) : Expr :=
  if op = ['+'] then node
  else
    match node with
    | .const (.int n) =>
      .const (.int (if op = ['-'] then Lib.wrap (-n) else if n = 0 then 1 else 0))
    | _ => .unop (if op = ['!'] then .logicalNot else .unaryMinus) node

/-- `parse_factor` -/
def parseFactor (aux : ℕ → ParseM Expr) : ℕ → ℕ → ParseM Expr
  | 0, _ => throw .diverges
  | n + 1, level => do
    checkParseLevel max level
    peekToken env
    let op ← token
    if op = ['!'] ∨ op = ['-'] ∨ op = ['+'] then
      getToken env
      let node ← parseFactor aux n (level + 1)
      return applyUnary op node
    else parseAtom env max locals aux n (level + 1)

/-- The loop over the operators of one level of the grammar. -/
def binaryLoop (ops : List (List Char × (Expr → Expr → Expr))) (operand : ParseM Expr) :
    ℕ → Expr → ParseM Expr
  | 0, _ => throw .diverges
  | n + 1, node => do
    match ops.lookup (← token) with
    | none => return node
    | some op =>
      getToken env
      let right ← operand
      binaryLoop ops operand n (op node right)

/-- One level of the grammar: operands with operators between them. -/
def binaryLevel (ops : List (List Char × (Expr → Expr → Expr))) (operand : ℕ → ParseM Expr)
    (n level : ℕ) : ParseM Expr := do
  checkParseLevel max level
  let node ← operand (level + 1)
  binaryLoop env ops (operand (level + 1)) n node

/-- The operators of `parse_term_expr`. -/
def termOps : List (List Char × (Expr → Expr → Expr)) :=
  [(['*'], .binop .multiply), (['/'], .binop .divide), (['%'], .binop .doMod)]

/-- The operators of `parse_cmp_expr`. -/
def cmpOps : List (List Char × (Expr → Expr → Expr)) :=
  [(['+'], .binop .add), (['-'], .binop .subtract)]

/-- The operators of `parse_eq_expr`. -/
def eqOps : List (List Char × (Expr → Expr → Expr)) :=
  [(['<', '='], .binop (.compare .le)), (['>', '='], .binop (.compare .ge)),
    (['<'], .binop (.compare .lt)), (['>'], .binop (.compare .gt))]

/-- The operators of `parse_and_expr`. -/
def andOps : List (List Char × (Expr → Expr → Expr)) :=
  [(['=', '='], .binop (.compare .eq)), (['!', '='], .binop (.compare .ne))]

/-- The operator of `parse_or_expr`. -/
def orOps : List (List Char × (Expr → Expr → Expr)) := [(['&', '&'], .logical true)]

/-- The operator of `parse_expression_aux`. -/
def exprOps : List (List Char × (Expr → Expr → Expr)) := [(['|', '|'], .logical false)]

/-- A factor of `parse_term_expr`, and the token behind it. -/
def termOperand (aux : ℕ → ParseM Expr) (n level : ℕ) : ParseM Expr := do
  let node ← parseFactor env max locals aux n level
  peekToken env
  return node

/-- `parse_term_expr` -/
def parseTermExpr (aux : ℕ → ParseM Expr) (n level : ℕ) : ParseM Expr :=
  binaryLevel env max termOps (termOperand env max locals aux n) n level

/-- `parse_cmp_expr` -/
def parseCmpExpr (aux : ℕ → ParseM Expr) (n level : ℕ) : ParseM Expr :=
  binaryLevel env max cmpOps (parseTermExpr env max locals aux n) n level

/-- `parse_eq_expr` -/
def parseEqExpr (aux : ℕ → ParseM Expr) (n level : ℕ) : ParseM Expr :=
  binaryLevel env max eqOps (parseCmpExpr env max locals aux n) n level

/-- `parse_and_expr` -/
def parseAndExpr (aux : ℕ → ParseM Expr) (n level : ℕ) : ParseM Expr :=
  binaryLevel env max andOps (parseEqExpr env max locals aux n) n level

/-- `parse_or_expr` -/
def parseOrExpr (aux : ℕ → ParseM Expr) (n level : ℕ) : ParseM Expr :=
  binaryLevel env max orOps (parseAndExpr env max locals aux n) n level

/-- `parse_expression_aux` -/
def parseExpressionAux : ℕ → ℕ → ParseM Expr
  | 0, _ => throw .diverges
  | n + 1, level =>
    binaryLevel env max exprOps (parseOrExpr env max locals (parseExpressionAux n) n) n level

/-! ### parse_expression -/

/-- The static variables of the parser: `ExprBuf` and `parse_level_high_water`. -/
structure ParserGlobals where
  exprBuf : List Char
  parseLevelHighWater : ℕ

/-- What `parse_expression` does with the outcome of `parse_expression_aux`: only white space, and
the end of the text or a `]`, may follow. -/
def endOfExpression :
    EStateM.Result ErrCode (Lib.Marked ParseState) Expr →
      Except ErrCode (Expr × List Char) × ParserGlobals
  | .error r s => (.error r, ⟨s.rest.buf, s.highWater⟩)
  | .ok node s =>
    let e := s.rest.inp.dropWhile isEmptyChar
    if e = [] ∨ e.head? = some ']' then (.ok (node, e), ⟨s.rest.buf, s.highWater⟩)
    else (.error .expectingEoxpr, ⟨s.rest.buf, s.highWater⟩)

/-- `parse_expression`: the tree and the text after the expression. -/
def parseExpression (inp : List Char) (g : ParserGlobals) :
    Except ErrCode (Expr × List Char) × ParserGlobals :=
  if env.disabled then (.error .exprDisabled, g)
  else
    endOfExpression
      (parseExpressionAux env max locals (inp.length + 3) 0
        ⟨⟨inp, g.exprBuf⟩, g.parseLevelHighWater⟩)

end Parser

end Remind
