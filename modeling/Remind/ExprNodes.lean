import Remind.ExprParse
import Remind.Lib.NodePool

/-!
# ExprNodes — the nodes of expression trees in memory (expr.c)

The parser of ExprParse once more, as it builds its trees: nodes come from the free list of
`alloc_expr_node`, every exit with an error frees what the function owns by then, and
`clone_expr_tree` and `free_expr_tree` work on the same memory.  `mem n` says whether the n-th
request to `malloc` or `calloc` is granted.
-/

namespace Remind

open Lib (Cell Pool)

/-- `ALLOC_CHUNK` -/
def allocChunk : ℕ := 256

/-- `SHORT_NAME_BUF` -/
def shortNameBuf : ℕ := 16

/-- `operator_func` -/
inductive NodeOp where
  | unary (op : UnOp)
  | binary (op : BinOp)
  | logical (isAnd : Bool)
  deriving DecidableEq, Repr

/-- `type` of an `expr_node`, with the member of the union `u` that goes with it. -/
inductive NodeKind where
  | free
  | error
  | constant (value : Value)
  | shortStr (name : List Char)
  | localVar (arg : ℕ)
  | shortVar (name : List Char)
  | variable (name : List Char)
  | sysvar (name : String) (constInt : Bool)
  | builtinFunc (f : BuiltinFunc)
  | shortUserFunc (name : List Char)
  | userFunc (name : List Char)
  | operator (op : NodeOp)
  deriving DecidableEq, Repr

abbrev ExprHeap := Pool NodeKind

/-- The text and the statics of the parser, the nodes, and how often memory was asked for. -/
structure NodeState where
  text : Lib.Marked ParseState
  heap : ExprHeap
  asked : ℕ

/-- `*r`, and the pointer that the function returns with it. -/
structure NodeFailure where
  r : ErrCode
  node : Option ℕ

abbrev NodeM := EStateM NodeFailure NodeState

section Nodes

variable (env : ParserEnv) (max : Option ℕ) (locals : List (List Char)) (mem : ℕ → Bool)

/-- What the parser does with the text alone. -/
def onText {α : Type} (x : ParseM α) : NodeM α := fun s =>
  match x s.text with
  | .ok a text => .ok a { s with text }
  | .error r text => .error ⟨r, none⟩ { s with text }

/-- `if (*r != OK) { ...; return ...; }` behind a call; `exit` gets the pointer that the call
returned. -/
def orReturn {α : Type} (x : NodeM α) (exit : Option ℕ → NodeM (Option ℕ)) : NodeM α := fun s =>
  match x s with
  | .ok a t => .ok a t
  | .error f t =>
    match exit f.node t with
    | .ok node u => .error ⟨f.r, node⟩ u
    | .error g u => .error g u

/-- `*r = ...; ...; return ...;` -/
def failWith {α : Type} (r : ErrCode) (exit : NodeM (Option ℕ)) : NodeM α :=
  orReturn (throw ⟨r, none⟩) fun _ => exit

/-! ### Memory -/

/-- A node read. -/
def nodeAt (a : ℕ) : NodeM (Cell NodeKind) := fun s => .ok (s.heap.cells a) s

/-- A node written. -/
def setNode (a : ℕ) (f : Cell NodeKind → Cell NodeKind) : NodeM Unit := fun s =>
  .ok () { s with heap := s.heap.modify a f }

/-- `node->type` and the member of the union -/
def setKind (a : ℕ) (kind : NodeKind) : NodeM Unit := setNode a fun c => { c with kind }

/-- `malloc` of a string. -/
def mallocString : NodeM Unit := fun s =>
  if mem s.asked then .ok () { s with asked := s.asked + 1 }
  else .error ⟨.noMem, none⟩ { s with asked := s.asked + 1 }

/-- `alloc_expr_node` -/
def allocExprNode : NodeM ℕ := fun s =>
  match s.heap.free with
  | some node => .ok node { s with heap := s.heap.take .error node }
  | none =>
    let s' := { s with asked := s.asked + 1 }
    if mem s.asked then
      .ok s.heap.allocated
        { s' with heap := (s.heap.grow .free allocChunk).take .error s.heap.allocated }
    else .error ⟨.noMem, none⟩ s'

/-- `add_child` -/
def addChild (parent child : ℕ) : NodeM Unit := fun s =>
  match s.heap.addChild parent child with
  | some heap => .ok () { s with heap }
  | none => .error ⟨.diverges, none⟩ s

/-- `free_expr_tree`; it always returns the null pointer. -/
def freeExprTree (node : Option ℕ) : NodeM (Option ℕ) := fun s =>
  match s.heap.freeTree .free s.heap.allocated node with
  | some heap => .ok none { s with heap }
  | none => .error ⟨.diverges, none⟩ s

/-- `free_expr_tree(node); return NULL;` -/
def freeThenNull (node : ℕ) : NodeM (Option ℕ) := do
  let _ ← freeExprTree (some node)
  return none

/-- `CopyValue`: a string needs memory. -/
def copyValue : NodeKind → NodeM Unit
  | .constant (.str _) | .variable _ | .userFunc _ => mallocString mem
  | _ => pure ()

/-- `dest->child = clone_expr_tree(src->child, r); if (!dest->child) { ... }`, and the same for the
sibling. -/
def cloneLink (clone : ℕ → NodeM ℕ) (dest : ℕ)
    (link : Cell NodeKind → Option ℕ → Cell NodeKind) : Option ℕ → NodeM Unit
  | none => pure ()
  | some src => do
    let copy ← orReturn (clone src) fun _ => freeThenNull dest
    setNode dest fun c => link c (some copy)

/-- `clone_expr_tree` -/
def cloneExprTree : ℕ → ℕ → NodeM ℕ
  | 0, _ => throw ⟨.diverges, none⟩
  | n + 1, src => do
    let dest ← allocExprNode mem
    let node ← nodeAt src
    setNode dest fun c => { c with kind := node.kind, numKids := node.numKids }
    if node.kind = .free ∨ node.kind = .error then failWith .swerr (freeThenNull dest)
    else
      orReturn (copyValue mem node.kind) fun _ => freeThenNull dest
      cloneLink (cloneExprTree n) dest (fun c p => { c with child := p }) node.child
      cloneLink (cloneExprTree n) dest (fun c p => { c with sibling := p }) node.sibling
      return dest

/-! ### Atoms -/

/-- `set_constant_value`, and what `make_atom` does where it fails. -/
def setConstantNode (node : ℕ) (s : List Char) : NodeM Unit :=
  match setConstantValue env.seps s with
  | .error r => do
    setKind node .error
    throw ⟨r, none⟩
  | .ok (.str str) =>
    if str.length < shortNameBuf then setKind node (.shortStr str.toList)
    else do
      setKind node .error
      mallocString mem
      setKind node (.constant (.str str))
  | .ok value => setKind node (.constant value)

/-- `make_atom` -/
def makeAtomNode (node : ℕ) (s : List Char) : NodeM Unit :=
  match s with
  | c :: rest =>
    if c.isAlpha || c = '_' then
      match locals.findIdx? (sameName s) with
      | some i => setKind node (.localVar i)
      | none =>
        if s.length < shortNameBuf then setKind node (.shortVar s)
        else do
          mallocString mem
          setKind node (.variable (s.take maxNameLen))
    else if c = '$' && (rest.head?.map Char.isAlpha).getD false then
      match env.findSysVar rest with
      | some (name, constInt) => setKind node (.sysvar name constInt)
      | none => throw ⟨.noSuchVar, none⟩
    else setConstantNode env mem node s
  | [] => setConstantNode env mem node s

/-- The loop over the arguments of a function, whose node is `node`. -/
def argNodes (aux : ℕ → NodeM ℕ) (f : Option BuiltinFunc) (node level : ℕ) : ℕ → NodeM Unit
  | 0 => failWith .diverges (freeThenNull node)
  | n + 1 => do
    if (← onText token) = [')'] then return ()
    else
      orReturn (onText (peekToken env)) fun _ => freeExprTree (some node)
      if (← onText token) = [')'] then argNodes aux f node level n
      else
        let arg ← orReturn (aux (level + 1)) fun _ => freeThenNull node
        addChild node arg
        let kids := (← nodeAt node).numKids
        if tooManyArgs f kids then failWith .tooManyArgs (freeThenNull node)
        else
          orReturn (onText (peekToken env)) fun _ => freeExprTree (some node)
          let t ← onText token
          if t ≠ [')'] ∧ t ≠ [','] then failWith .expectComma (freeExprTree (some node))
          else if t = [','] then
            orReturn (onText (getToken env)) fun _ => freeExprTree (some node)
            orReturn (onText (peekToken env)) fun _ => freeExprTree (some node)
            if (← onText token) = [')'] then failWith .parseErr (freeExprTree (some node))
            else argNodes aux f node level n
          else argNodes aux f node level n

/-- The kind of a function's node. -/
def setFunc (node : ℕ) (f : Option BuiltinFunc) (s : List Char) : NodeM Unit :=
  match f with
  | some f => setKind node (.builtinFunc f)
  | none =>
    if s.length < shortNameBuf then setKind node (.shortUserFunc (s.map Char.toLower))
    else do
      orReturn (mallocString mem) fun _ => freeExprTree (some node)
      setKind node (.userFunc ((s.take maxNameLen).map Char.toLower))

/-- "Check args for builtin funcs": there may be too few. -/
def tooFewArgs (f : Option BuiltinFunc) (n : ℕ) : Bool :=
  (f.map fun f => decide (n < f.minargs)).getD false

/-- `parse_function_call`; where `*e` stands after an error is left out. -/
def parseFunctionNode (aux : ℕ → NodeM ℕ) (n level : ℕ) : NodeM ℕ := do
  onText (checkParseLevel max level)
  let node ← allocExprNode mem
  let s := (← onText token).dropLast
  let f := env.findBuiltinFunc s
  setFunc mem node f s
  orReturn (onText (getToken env)) fun _ => freeThenNull node
  argNodes env aux f node level n
  orReturn (onText (getToken env)) fun _ => freeExprTree (some node)
  let kids := (← nodeAt node).numKids
  if tooFewArgs f kids then failWith .tooFewArgs (freeExprTree (some node))
  else return node

/-- `parse_atom` -/
def parseAtomNode (aux : ℕ → NodeM ℕ) (n level : ℕ) : NodeM ℕ := do
  onText (checkParseLevel max level)
  onText (peekToken env)
  let t ← onText token
  if t = ['('] then
    onText (getToken env)
    let node ← orReturn (aux (level + 1)) fun _ => pure none
    if (← onText token) ≠ [')'] then failWith .missRightParen (freeExprTree (some node))
    else
      orReturn (onText (getToken env)) fun _ => freeExprTree (some node)
      return node
  else
    match t with
    | [] => throw ⟨.eoln, none⟩
    | c :: _ =>
      if !isId c && c ≠ '$' && c ≠ '"' && c ≠ '\'' then
        throw ⟨if "+-*/%&|=<>!)".toList.contains c then .expectingAtom else .illegalChar, none⟩
      else if t.getLast? = some '(' then parseFunctionNode env max mem aux n (level + 1)
      else
        onText (getToken env)
        let node ← allocExprNode mem
        orReturn (makeAtomNode env locals mem node t) fun _ => freeExprTree (some node)
        return node

/-! ### Operators -/

/-- What `parse_factor` does with its operand. -/
def unaryNode (op : List Char) (node : ℕ) : NodeM ℕ := do
  if op = ['+'] then return node
  else
    match (← nodeAt node).kind with
    | .constant (.int n) =>
      setKind node
        (.constant (.int (if op = ['-'] then Lib.wrap (-n) else if n = 0 then 1 else 0)))
      return node
    | _ =>
      let top ← orReturn (allocExprNode mem) fun _ => freeThenNull node
      setKind top (.operator (.unary (if op = ['!'] then .logicalNot else .unaryMinus)))
      addChild top node
      return top

/-- `parse_factor`; the token that is pulled off has been peeked at. -/
def parseFactorNode (aux : ℕ → NodeM ℕ) : ℕ → ℕ → NodeM ℕ
  | 0, _ => throw ⟨.diverges, none⟩
  | n + 1, level => do
    onText (checkParseLevel max level)
    onText (peekToken env)
    let op ← onText token
    if op = ['!'] ∨ op = ['-'] ∨ op = ['+'] then
      onText (getToken env)
      let node ← orReturn (parseFactorNode aux n (level + 1)) fun _ => pure none
      unaryNode mem op node
    else parseAtomNode env max locals mem aux n (level + 1)

/-- A level of the grammar: its operators, whether the operator is pulled off before its node is
allocated, whether the pointer of an operand that failed is freed, and whether the token behind an
operand is peeked at. -/
structure NodeLevel where
  ops : List (List Char × NodeOp)
  tokenFirst : Bool
  freesOperand : Bool
  peeks : Bool

/-- `PEEK_TOKEN` behind an operand. -/
def peekBehind (l : NodeLevel) (node : ℕ) : NodeM Unit :=
  if l.peeks then orReturn (onText (peekToken env)) fun _ => freeExprTree (some node)
  else pure ()

/-- The node of an operator, with its first operand. -/
def operatorNode (op : NodeOp) (node : ℕ) : NodeM ℕ := do
  let top ← orReturn (allocExprNode mem) fun _ => freeExprTree (some node)
  setKind top (.operator op)
  addChild top node
  return top

/-- The node of an operator, and the token of the operator pulled off. -/
def startOperator (l : NodeLevel) (op : NodeOp) (node : ℕ) : NodeM ℕ :=
  if l.tokenFirst then do
    orReturn (onText (getToken env)) fun _ => freeExprTree (some node)
    operatorNode mem op node
  else do
    let top ← operatorNode mem op node
    orReturn (onText (getToken env)) fun _ => freeExprTree (some top)
    return top

/-- The loop over the operators of a level. -/
def operatorNodes (l : NodeLevel) (operand : NodeM ℕ) : ℕ → ℕ → NodeM ℕ
  | 0, node => failWith .diverges (freeExprTree (some node))
  | n + 1, node => do
    match l.ops.lookup (← onText token) with
    | none => return node
    | some op =>
      let top ← startOperator env mem l op node
      let right ← orReturn operand fun p =>
        if l.freesOperand then do
          let _ ← freeExprTree (some top)
          freeExprTree p
        else freeExprTree (some top)
      addChild top right
      peekBehind env l top
      operatorNodes l operand n top

/-- One level of the grammar. -/
def nodeLevel (l : NodeLevel) (operand : ℕ → NodeM ℕ) (n level : ℕ) : NodeM ℕ := do
  onText (checkParseLevel max level)
  let node ← orReturn (operand (level + 1)) freeExprTree
  peekBehind env l node
  operatorNodes env mem l (operand (level + 1)) n node

/-- The level of `parse_term_expr`. -/
def termLevel : NodeLevel where
  ops := [(['*'], .binary .multiply), (['/'], .binary .divide), (['%'], .binary .doMod)]
  tokenFirst := false
  freesOperand := false
  peeks := true

/-- The level of `parse_cmp_expr`. -/
def cmpLevel : NodeLevel where
  ops := [(['+'], .binary .add), (['-'], .binary .subtract)]
  tokenFirst := false
  freesOperand := false
  peeks := false

/-- The level of `parse_eq_expr`. -/
def eqLevel : NodeLevel where
  ops := [(['<', '='], .binary (.compare .le)), (['>', '='], .binary (.compare .ge)),
    (['<'], .binary (.compare .lt)), (['>'], .binary (.compare .gt))]
  tokenFirst := false
  freesOperand := true
  peeks := false

/-- The level of `parse_and_expr`. -/
def andLevel : NodeLevel where
  ops := [(['=', '='], .binary (.compare .eq)), (['!', '='], .binary (.compare .ne))]
  tokenFirst := false
  freesOperand := false
  peeks := false

/-- The level of `parse_or_expr`. -/
def orLevel : NodeLevel where
  ops := [(['&', '&'], .logical true)]
  tokenFirst := true
  freesOperand := true
  peeks := false

/-- The level of `parse_expression_aux`. -/
def exprLevel : NodeLevel where
  ops := [(['|', '|'], .logical false)]
  tokenFirst := true
  freesOperand := true
  peeks := false

/-- `parse_term_expr` -/
def parseTermNode (aux : ℕ → NodeM ℕ) (n level : ℕ) : NodeM ℕ :=
  nodeLevel env max mem termLevel (parseFactorNode env max locals mem aux n) n level

/-- `parse_cmp_expr` -/
def parseCmpNode (aux : ℕ → NodeM ℕ) (n level : ℕ) : NodeM ℕ :=
  nodeLevel env max mem cmpLevel (parseTermNode env max locals mem aux n) n level

/-- `parse_eq_expr` -/
def parseEqNode (aux : ℕ → NodeM ℕ) (n level : ℕ) : NodeM ℕ :=
  nodeLevel env max mem eqLevel (parseCmpNode env max locals mem aux n) n level

/-- `parse_and_expr` -/
def parseAndNode (aux : ℕ → NodeM ℕ) (n level : ℕ) : NodeM ℕ :=
  nodeLevel env max mem andLevel (parseEqNode env max locals mem aux n) n level

/-- `parse_or_expr` -/
def parseOrNode (aux : ℕ → NodeM ℕ) (n level : ℕ) : NodeM ℕ :=
  nodeLevel env max mem orLevel (parseAndNode env max locals mem aux n) n level

/-- `parse_expression_aux` -/
def parseAuxNode : ℕ → ℕ → NodeM ℕ
  | 0, _ => throw ⟨.diverges, none⟩
  | n + 1, level =>
    nodeLevel env max mem exprLevel (parseOrNode env max locals mem (parseAuxNode n) n) n level

/-- The text that is to be parsed. -/
def setText (inp : List Char) : NodeM Unit := fun s =>
  .ok () { s with text := { s.text with rest := { s.text.rest with inp } } }

/-- White space is skipped; the text from there on. -/
def skipEmpty : NodeM (List Char) := fun s =>
  let inp := s.text.rest.inp.dropWhile isEmptyChar
  .ok inp { s with text := { s.text with rest := { s.text.rest with inp } } }

/-- `parse_expression` -/
def parseExpressionNode (inp : List Char) : NodeM ℕ := do
  if env.disabled then throw ⟨.exprDisabled, none⟩
  else
    setText inp
    let node ← orReturn (parseAuxNode env max locals mem (inp.length + 3) 0) freeExprTree
    let e ← skipEmpty
    if e = [] ∨ e.head? = some ']' then return node
    else failWith .expectingEoxpr (freeThenNull node)

end Nodes

end Remind
