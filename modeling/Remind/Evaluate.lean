import Remind.Arith
import Remind.Vars
import Remind.Lib.Effects

/-!
# Evaluate — the evaluation of expression trees (expr.c, and the functions of funcs.c it runs through)

A tree is evaluated at a level of `FuncRecursionLevel`; `below` is the evaluation one level further
in.  Functions that only compute with their arguments, or that call back into the evaluator
through `EvalExpr`, are programs over the state (`OldFunc`).  The last four fields of the state are
observations: nothing of the program reads them.
-/

namespace Remind

open Lib (Effects attempt bracket)

/-! ### Trees and functions -/

/-- `RUN_IN_EVAL`, `RUN_UF`, `RUN_CB`: bits of `RunDisabled`. -/
def runInEval : BitVec 32 := 0x08#32
def runUf : BitVec 32 := 0x10#32
def runCb : BitVec 32 := 0x20#32

inductive CompareHow where
  | eq | ne | le | ge | lt | gt
  deriving DecidableEq, Repr

inductive BinOp where
  | multiply | divide | doMod | add | subtract
  | compare (how : CompareHow)
  deriving DecidableEq, Repr

inductive UnOp where
  | logicalNot | unaryMinus
  deriving DecidableEq, Repr

/-- `newfunc`: functions that evaluate their arguments themselves. -/
inductive NewFunc where
  | fCatch | fChoose | fIif | fIsAny | fIsconst | fValue
  deriving DecidableEq, Repr

/-- `func`; `other` is told apart by the name of the function. -/
inductive OldStyle where
  | fCatchErr | fEval | fNonconst | fOrd | fShell
  | other
  deriving DecidableEq, Repr

inductive Func where
  | new (f : NewFunc)
  | old (f : OldStyle)
  deriving DecidableEq, Repr

/-- A row of `Func[]`; `maxargs` is `none` for `NO_MAX_ARGS`. -/
structure BuiltinFunc where
  name : String
  minargs : ℕ
  maxargs : Option ℕ
  isConstant : Bool
  func : Func
  deriving DecidableEq, Repr

/-- `expr_node` -/
inductive Expr where
  | const (v : Value)
  | localVar (arg : ℕ)
  | var (name : List Char)
  | sysvar (name : String) (constInt : Bool)
  | builtin (f : BuiltinFunc) (args : List Expr)
  | user (name : List Char) (args : List Expr)
  | unop (op : UnOp) (e : Expr)
  | binop (op : BinOp) (e₁ e₂ : Expr)
  | logical (isAnd : Bool) (e₁ e₂ : Expr)

mutual

def Expr.same : Expr → Expr → Bool
  | .const v, .const w => v = w
  | .localVar i, .localVar j => i = j
  | .var m, .var n => m = n
  | .sysvar m b, .sysvar n c => m = n ∧ b = c
  | .builtin f as, .builtin g bs => f = g ∧ sameList as bs
  | .user m as, .user n bs => m = n ∧ sameList as bs
  | .unop o a, .unop p b => o = p ∧ a.same b
  | .binop o a₁ a₂, .binop p b₁ b₂ => o = p ∧ a₁.same b₁ ∧ a₂.same b₂
  | .logical x a₁ a₂, .logical y b₁ b₂ => x = y ∧ a₁.same b₁ ∧ a₂.same b₂
  | _, _ => false

def Expr.sameList : List Expr → List Expr → Bool
  | [], [] => true
  | a :: as, b :: bs => a.same b ∧ sameList as bs
  | _, _ => false

end

mutual

theorem Expr.same_iff : ∀ a b : Expr, a.same b = true ↔ a = b
  | .const v, b => by cases b <;> simp [Expr.same]
  | .localVar i, b => by cases b <;> simp [Expr.same]
  | .var m, b => by cases b <;> simp [Expr.same]
  | .sysvar m c, b => by cases b <;> simp [Expr.same]
  | .builtin f as, b => by cases b <;> simp [Expr.same, Expr.sameList_iff as]
  | .user m as, b => by cases b <;> simp [Expr.same, Expr.sameList_iff as]
  | .unop o a, b => by cases b <;> simp [Expr.same, Expr.same_iff a]
  | .binop o a₁ a₂, b => by cases b <;> simp [Expr.same, Expr.same_iff a₁, Expr.same_iff a₂]
  | .logical x a₁ a₂, b => by cases b <;> simp [Expr.same, Expr.same_iff a₁, Expr.same_iff a₂]

theorem Expr.sameList_iff : ∀ as bs : List Expr, Expr.sameList as bs = true ↔ as = bs
  | [], bs => by cases bs <;> simp [Expr.sameList]
  | a :: as, bs => by cases bs <;> simp [Expr.sameList, Expr.same_iff a, Expr.sameList_iff as]

end

instance : DecidableEq Expr := fun a b => decidable_of_iff _ (Expr.same_iff a b)

/-- `UserFunc`; `fsetRun` is what `RunDisabled` was at its FSET (observed, not stored). -/
structure UserFunc where
  name : List Char
  nargs : ℕ
  isConstant : Bool
  runDisabled : Bool
  beenPushed : Bool
  filename : String
  lineno : ℤ
  node : Expr
  fsetRun : BitVec 32
  deriving DecidableEq

/-! ### The state -/

/-- What an evaluation can be inside of and which touches `RunDisabled`. -/
inductive Frame where
  | eval
  | ordx
  | callback
  | userFunc (f : UserFunc)

/-- The bits that are set in `RunDisabled` meanwhile. -/
def Frame.bits : Frame → BitVec 32
  | .eval => runInEval
  | .ordx => runCb
  | .callback => runCb
  | .userFunc f => if f.runDisabled then runUf else 0

/-- An assignment to `RunDisabled`, or a call of `popen`. -/
inductive RunEvent where
  | assign (v : BitVec 32)
  | popen (frames : List Frame)

/-- What happens to one flag `*nonconst`: it is set, `const()` clears it, or an evaluation goes on
with a flag of its own.  `outside` is outside the arguments of `const()` and `isconst()`. -/
inductive Mark where
  | report (outside : Bool)
  | cleared
  | sub (marks : List Mark)

structure EvalState (σ : Type) where
  vars : VarTable
  runDisabled : BitVec 32
  /-- `*nonconst` of the evaluation that is going on -/
  nonconst : Bool
  inFord : Bool
  lastCatchError : Option ErrCode
  rest : σ
  frames : List Frame
  events : List RunEvent
  constArgs : ℕ
  marks : List Mark

abbrev EvalM (σ : Type) := EStateM ErrCode (EvalState σ)

/-- A function of the old style, as far as the evaluator is concerned: `evalExpr` is `EvalExpr` or
`EvalExprRunDisabled`, `ret` gives the result and `info->nonconst`. -/
inductive OldFunc (σ : Type) where
  | ret (r : Except ErrCode Value) (nonconst : Bool)
  | get (k : EvalState σ → OldFunc σ)
  | put (rest : σ) (k : OldFunc σ)
  | evalExpr (runDisabled : Bool) (e : String) (k : Except ErrCode Value → OldFunc σ)

/-- What the evaluator finds around it: the parser, the limits on time and nodes, the system
variables, the user functions, the rest of `Func[]`, the shell, and what the uninitialised flag
of `FOrd` holds. -/
structure EvalEnv (σ : Type) where
  text : TextConfig
  parse : σ → String → Except ErrCode Expr
  enter : σ → Option ErrCode × σ
  limitOn : σ → σ
  limitOff : σ → σ
  sysvar : String → EvalState σ → Except ErrCode Value × σ
  funcs : List Char → Option UserFunc
  old : BuiltinFunc → List Value → OldFunc σ
  popen : String → ℤ → σ → Except ErrCode String × σ
  englishErr : Option ErrCode → String
  junk : σ → Bool

/-! ### Values -/

/-- `truthy` -/
def truthy : Value → Bool
  | .str s => s ≠ ""
  | .int n | .time n | .date n | .datetime n => n ≠ 0

def compareInts (how : CompareHow) (a b : ℤ) : Bool :=
  match how with
  | .eq => a = b
  | .ne => a ≠ b
  | .le => a ≤ b
  | .ge => b ≤ a
  | .lt => a < b
  | .gt => b < a

/-- With `strcmp` -/
def compareStrs (how : CompareHow) (a b : String) : Bool :=
  match how with
  | .eq => a = b
  | .ne => a ≠ b
  | .le => ¬ b < a
  | .ge => ¬ a < b
  | .lt => a < b
  | .gt => b < a

/-- `compare`: values of different types are unequal and not ordered. -/
def compareValues (how : CompareHow) (v1 v2 : Value) : Except ErrCode Value :=
  let answer (b : Bool) : Except ErrCode Value := .ok (.int (if b then 1 else 0))
  match v1, v2 with
  | .str a, .str b => answer (compareStrs how a b)
  | .int a, .int b => answer (compareInts how a b)
  | .time a, .time b => answer (compareInts how a b)
  | .date a, .date b => answer (compareInts how a b)
  | .datetime a, .datetime b => answer (compareInts how a b)
  | _, _ =>
    match how with
    | .eq => answer false
    | .ne => answer true
    | _ => .error .badType

def binopValues (c : TextConfig) (op : BinOp) (v1 v2 : Value) : Except ErrCode Value :=
  match op with
  | .multiply => (multiplyValues c v1 v2).val
  | .divide => (divideOrMod true v1 v2).val
  | .doMod => (divideOrMod false v1 v2).val
  | .add => (addValues c v1 v2).val
  | .subtract => (subtractValues v1 v2).val
  | .compare how => compareValues how v1 v2

def unopValue (op : UnOp) (v : Value) : Except ErrCode Value :=
  match op with
  | .logicalNot => .ok (.int (if truthy v then 0 else 1))
  | .unaryMinus => (unaryMinus v).val

/-- The end of `FOrd`: the number with its suffix. -/
def ordText (v : ℤ) : String :=
  let t := if v < 0 then (Lib.wrap (-v)).tmod 100 else v.tmod 100
  let u := t.tmod 10
  toString v ++
    (if u = 3 ∧ t ≠ 13 then "rd" else if u = 2 ∧ t ≠ 12 then "nd"
      else if u = 1 ∧ t ≠ 11 then "st" else "th")

/-! ### Steps of an evaluation -/

section Steps

variable {σ α : Type} (env : EvalEnv σ)

def liftExcept (r : Except ErrCode α) : EvalM σ α :=
  match r with
  | .ok a => pure a
  | .error e => throw e

/-- `*nonconst = 1` -/
def report : EvalM σ PUnit :=
  modify fun s => { s with nonconst := true, marks := .report (s.constArgs = 0) :: s.marks }

def reportUnless (isConstant : Bool) : EvalM σ PUnit := if isConstant then pure () else report

/-- `*nonconst = 0` -/
def clearFlag : EvalM σ PUnit :=
  modify fun s => { s with nonconst := false, marks := .cleared :: s.marks }

/-- The special case of `const()`. -/
def makeConst (f : BuiltinFunc) : EvalM σ PUnit :=
  if f.name = "const" then clearFlag else pure ()

/-- In the argument of `const()` or `isconst()`. -/
def inConstArg (m : EvalM σ α) : EvalM σ α :=
  bracket (fun s => { s with constArgs := s.constArgs + 1 })
    (fun s s' => { s' with constArgs := s.constArgs }) m

/-- The arguments of an old-style function. -/
def argsOf (f : BuiltinFunc) (m : EvalM σ α) : EvalM σ α :=
  if f.name = "const" then inConstArg m else m

/-- `RunDisabled` is widened. -/
def enterFrame (fr : Frame) (s : EvalState σ) : EvalState σ where
  __ := s
  runDisabled := s.runDisabled ||| fr.bits
  frames := fr :: s.frames
  events := .assign (s.runDisabled ||| fr.bits) :: s.events

/-- `RunDisabled = old_rundisabled`, `s` being the state before the frame was entered. -/
def leaveFrame (s s' : EvalState σ) : EvalState σ where
  __ := s'
  runDisabled := s.runDisabled
  frames := s.frames
  events := .assign s.runDisabled :: s'.events

def withRun (fr : Frame) (m : EvalM σ α) : EvalM σ α := bracket (enterFrame fr) leaveFrame m

/-- The evaluation has its own flag, which begins as `start` and is part of the result. -/
def ownFlag (start : Bool) (m : EvalM σ α) : EvalM σ (Except ErrCode α × Bool) :=
  bracket (fun s => { s with nonconst := start, marks := [] })
    (fun s s' => { s' with nonconst := s.nonconst, marks := .sub s'.marks :: s.marks })
    (do
      let r ← attempt m
      let s ← get
      pure (r, s.nonconst))

def setRest (rest : σ) : EvalM σ PUnit := modify fun s => { s with rest := rest }

/-- The checks at the top of `evaluate_expr_node`. -/
def enterNode : EvalM σ PUnit := do
  let (err, rest) := env.enter (← get).rest
  setRest rest
  match err with
  | none => pure ()
  | some e => throw e

/-- `v->used_since_set = 1` for the variable that was found, and its value. -/
def readVar (name : List Char) (l : Link Var) : EvalM σ Value := do
  modify fun s => { s with vars := s.vars.touch name }
  reportUnless l.item.isConstant
  pure l.item.v

/-- `get_var` -/
def getVar (name : List Char) : EvalM σ Value := do
  match (← get).vars.findVar name with
  | none => throw .noSuchVar
  | some l => readVar name l

/-- `GetSysVar`, with the report of `evaluate_expr_node` before it. -/
def getSysVar (name : String) (constInt : Bool) : EvalM σ Value := do
  reportUnless constInt
  let (r, rest) := env.sysvar name (← get)
  setRest rest
  liftExcept r

/-! ### Functions -/

section Calls

variable (ev : Expr → List Value → EvalM σ Value)

/-- `FIif`, its loop -/
def iifLoop (locals : List Value) : List Expr → EvalM σ Value
  | [] => throw .swerr
  | [last] => ev last locals
  | c :: t :: rest => do
    let v ← ev c locals
    if truthy v then ev t locals else iifLoop locals rest

/-- `FIif` -/
def fIif (locals : List Value) (args : List Expr) : EvalM σ Value :=
  if args.length % 2 = 0 then throw .iifOdd else iifLoop ev locals args

/-- `FIsAny`, its loop: two values are the same when their types and their contents are. -/
def isAnyLoop (locals : List Value) (v : Value) : List Expr → EvalM σ Value
  | [] => pure (.int 0)
  | c :: rest => do
    let candidate ← ev c locals
    if candidate = v then pure (.int 1) else isAnyLoop locals v rest

/-- `FIsAny` -/
def fIsAny (locals : List Value) (args : List Expr) : EvalM σ Value :=
  match args with
  | [] => throw .swerr
  | a :: rest => do
    let v ← ev a locals
    isAnyLoop ev locals v rest

/-- `FChoose` -/
def fChoose (locals : List Value) (args : List Expr) : EvalM σ Value :=
  match args with
  | [] => throw .swerr
  | a :: rest => do
    match ← ev a locals with
    | .int n =>
      let n := if n < 1 then 1 else n
      let n := if n > (rest.length : ℤ) then (rest.length : ℤ) else n
      match rest[(n - 1).toNat]? with
      | none => throw .swerr
      | some e => ev e locals
    | _ => throw .badType

/-- `FCatch` -/
def fCatch (locals : List Value) (args : List Expr) : EvalM σ Value :=
  match args with
  | [a, b] =>
    tryCatch (ev a locals) fun r => do
      modify fun s => { s with lastCatchError := some r }
      ev b locals
  | _ => throw .swerr

/-- `FValue` -/
def fValue (locals : List Value) (args : List Expr) : EvalM σ Value :=
  match args with
  | [] => throw .swerr
  | a :: rest => do
    match ← ev a locals with
    | .str varname =>
      match (← get).vars.findVar varname.toList with
      | some l => readVar varname.toList l
      | none =>
        match rest with
        | [] => throw .noSuchVar
        | b :: _ => do
          report
          ev b locals
    | _ => throw .badType

/-- `FIsconst` -/
def fIsconst (locals : List Value) (args : List Expr) : EvalM σ Value :=
  match args with
  | [] => throw .swerr
  | a :: _ => do
    let (r, myNonconst) ← inConstArg (ownFlag false (ev a locals))
    let _ ← liftExcept r
    pure (.int (if myNonconst then 0 else 1))

def callNew (f : NewFunc) (locals : List Value) (args : List Expr) : EvalM σ Value :=
  match f with
  | .fCatch => fCatch ev locals args
  | .fChoose => fChoose ev locals args
  | .fIif => fIif ev locals args
  | .fIsAny => fIsAny ev locals args
  | .fIsconst => fIsconst ev locals args
  | .fValue => fValue ev locals args

/-- `EvalExpr(e, v, NULL)` -/
def evalExpr (e : String) : EvalM σ (Except ErrCode Value) := do
  match env.parse (← get).rest e with
  | .error r => pure (.error r)
  | .ok n => do
    modify fun s => { s with rest := env.limitOn s.rest }
    let (r, _) ← ownFlag false (ev n [])
    modify fun s => { s with rest := env.limitOff s.rest }
    pure r

/-- `EvalExprRunDisabled`, or `EvalExpr` -/
def evalExprRun (runDisabled : Bool) (e : String) : EvalM σ (Except ErrCode Value) :=
  if runDisabled then withRun .callback (evalExpr env ev e) else evalExpr env ev e

def runOld : OldFunc σ → EvalM σ (Except ErrCode Value × Bool)
  | .ret r nonconst => pure (r, nonconst)
  | .get k => do runOld (k (← get))
  | .put rest k => do
    setRest rest
    runOld k
  | .evalExpr runDisabled e k => do
    let r ← evalExprRun env ev runDisabled e
    runOld (k r)

/-- `FEval` -/
def fEval (args : List Value) : EvalM σ (Except ErrCode Value × Bool) :=
  match args with
  | .str e :: _ => do
    match env.parse (← get).rest e with
    | .error r => pure (.error r, true)
    | .ok n => ownFlag false (withRun .eval (ev n []))
  | _ => pure (.error .badType, false)

/-- `FOrd`, where `ordx` is called: the flag of the evaluation is not initialised. -/
def fOrdx (v : ℤ) : EvalM σ (Except ErrCode Value × Bool) := do
  match env.parse (← get).rest s!"ordx({v})" with
  | .error r => pure (.error r, false)
  | .ok n => do
    modify fun s => { s with inFord := true }
    let (r, nonconst) ← ownFlag (env.junk (← get).rest) (withRun .ordx (ev n []))
    modify fun s => { s with inFord := false }
    match r with
    | .error e => pure (.error e, false)
    | .ok val => pure (.ok (.str (coerceString env.text val).val), nonconst)

/-- `FOrd` -/
def fOrd (args : List Value) : EvalM σ (Except ErrCode Value × Bool) :=
  match args with
  | .int v :: _ => do
    if !(← get).inFord && (env.funcs "ordx".toList).any (·.nargs = 1) then fOrdx env ev v
    else pure (.ok (.str (ordText v)), false)
  | _ => pure (.error .badType, false)

/-- The length that `FShell` reads at most. -/
def shellMaxlen (c : TextConfig) (maxlen : ℤ) : ℤ :=
  if c.maxStringLen > 0 ∧ (maxlen ≤ 0 ∨ maxlen > c.maxStringLen) then c.maxStringLen else maxlen

/-- `popen` and what `FShell` reads from it. -/
def popenRead (cmd : String) (maxlen : ℤ) : EvalM σ (Except ErrCode Value × Bool) := do
  modify fun s => { s with events := .popen s.frames :: s.events }
  let (r, rest) := env.popen cmd maxlen (← get).rest
  setRest rest
  pure (r.map .str, false)

/-- `FShell` -/
def fShell (args : List Value) : EvalM σ (Except ErrCode Value × Bool) := do
  if (← get).runDisabled ≠ 0 then pure (.error .runDisabled, false)
  else
    match args with
    | [.str cmd] => popenRead env cmd (shellMaxlen env.text 511)
    | .str cmd :: .int maxlen :: _ => popenRead env cmd (shellMaxlen env.text maxlen)
    | _ => pure (.error .badType, false)

/-- `f->func(&info)`: the result and `info.nonconst`. -/
def callOld (f : BuiltinFunc) (func : OldStyle) (args : List Value) :
    EvalM σ (Except ErrCode Value × Bool) :=
  match func with
  | .fCatchErr => do pure (.ok (.str (env.englishErr (← get).lastCatchError)), false)
  | .fEval => fEval env ev args
  | .fNonconst => pure ((args.head?.map Except.ok).getD (.error .swerr), false)
  | .fOrd => fOrd env ev args
  | .fShell => fShell env args
  | .other => runOld env ev (env.old f args)

/-- `eval_builtin` once the arguments of an old-style function are there. -/
def finishOld (f : BuiltinFunc) (func : OldStyle) (args : List Value) : EvalM σ Value := do
  let (r, nonconst) ← callOld env ev f func args
  reportUnless !nonconst
  let v ← liftExcept r
  makeConst f
  pure v

end Calls

/-! ### Nodes -/

/-- The checks on the number of arguments in `eval_builtin`. -/
def checkArgs (f : BuiltinFunc) (n : ℕ) : EvalM σ PUnit :=
  if n < f.minargs then throw .tooFewArgs
  else if f.maxargs.any (n > ·) then throw .tooManyArgs
  else pure ()

/-- The user function of a call, with the right number of arguments. -/
def findCallee (name : List Char) (n : ℕ) : Except ErrCode UserFunc :=
  match env.funcs name with
  | none => .error .undefFunc
  | some f =>
    if n < f.nargs then .error .tooFewArgs
    else if n > f.nargs then .error .tooManyArgs
    else .ok f

/-- `eval_userfunc` once the arguments are there. -/
def callUser (ev : Expr → List Value → EvalM σ Value) (f : UserFunc) (args : List Value) :
    EvalM σ Value := do
  reportUnless f.isConstant
  withRun (.userFunc f) (ev f.node args)

variable (below : Option (Expr → List Value → EvalM σ Value)) (locals : List Value)

/-- `eval_builtin`; `vals` evaluates the arguments, for the functions of the old style. -/
def evalBuiltin (f : BuiltinFunc) (args : List Expr) (vals : EvalM σ (List Value)) :
    EvalM σ Value := do
  checkArgs f args.length
  match below with
  | none => throw .recursive
  | some ev =>
    match f.func with
    | .new func => callNew ev func locals args
    | .old func => do
      let vs ← argsOf f vals
      finishOld env ev f func vs

/-- `eval_userfunc` -/
def evalUserfunc (name : List Char) (n : ℕ) (vals : EvalM σ (List Value)) : EvalM σ Value :=
  match findCallee env name n with
  | .error e => throw e
  | .ok f => do
    let vs ← vals
    match below with
    | none => throw .recursive
    | some ev => callUser ev f vs

mutual

/-- `evaluate_expr_node`; `below` is `none` at `MAX_RECURSION_LEVEL`. -/
def evalNode : Expr → EvalM σ Value
  | .const v => do
    enterNode env
    pure v
  | .localVar arg => do
    enterNode env
    -- the source does not check that there is one: past the arguments it reads what is there
    match locals[arg]? with
    | none => throw .swerr
    | some v => pure v
  | .var name => do
    enterNode env
    getVar name
  | .sysvar name constInt => do
    enterNode env
    getSysVar env name constInt
  | .builtin f args => do
    enterNode env
    reportUnless f.isConstant
    evalBuiltin env below locals f args (evalArgs args)
  | .user name args => do
    enterNode env
    evalUserfunc env below name args.length (evalArgs args)
  | .unop op e => do
    enterNode env
    let v ← evalNode e
    liftExcept (unopValue op v)
  | .binop op e₁ e₂ => do
    enterNode env
    let v1 ← evalNode e₁
    let v2 ← evalNode e₂
    liftExcept (binopValues env.text op v1 v2)
  | .logical isAnd e₁ e₂ => do
    enterNode env
    let v ← evalNode e₁
    if truthy v = isAnd then evalNode e₂ else pure v

def evalArgs : List Expr → EvalM σ (List Value)
  | [] => pure []
  | e :: es => do
    let v ← evalNode e
    let vs ← evalArgs es
    pure (v :: vs)

end

/-- `evaluate_expr_node` with `level` calls left before `MAX_RECURSION_LEVEL`. -/
def evalLevel : ℕ → Expr → List Value → EvalM σ Value
  | 0, e, locals => evalNode env none locals e
  | level + 1, e, locals => evalNode env (some (evalLevel level)) locals e

end Steps

/-- `MAX_RECURSION_LEVEL` -/
def maxRecursionLevel : ℕ := 1000

/-! ### Rows of `Func[]`, and a world in which nothing else is known -/

def constRow : BuiltinFunc := ⟨"const", 1, some 1, true, .old .fNonconst⟩
def shellRow : BuiltinFunc := ⟨"shell", 1, some 2, false, .old .fShell⟩
def todayRow : BuiltinFunc := ⟨"today", 0, some 0, false, .old .other⟩

/-- Today is day `today`; every command prints its own text. -/
def bareEnv (today : ℤ) : EvalEnv Unit where
  text := {}
  parse _ _ := .error .parseErr
  enter u := (none, u)
  limitOn u := u
  limitOff u := u
  sysvar _ _ := (.error .noSuchVar, ())
  funcs _ := none
  old f _ := if f = todayRow then .ret (.ok (.date today)) false else .ret (.error .swerr) false
  popen cmd _ u := (.ok cmd, u)
  englishErr _ := ""
  junk _ := false

def EvalState.init {σ : Type} (rest : σ) : EvalState σ where
  vars := VarTable.init
  runDisabled := 0
  nonconst := false
  inFord := false
  lastCatchError := none
  rest := rest
  frames := []
  events := []
  constArgs := 0
  marks := []

end Remind
