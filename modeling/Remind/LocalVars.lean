import Remind.Idents
import Remind.ParsePtr
import Remind.UserFns

/-!
# LocalVars — the arguments of a user function (userfns.c: `DoFset`; expr.c: `eval_userfunc`)

FSET keeps the names of the arguments in an array, chained by its links for `make_atom`.  Each name
is linked to the entry behind it: the chain has one entry more than there are arguments, and the
name in it is whatever the array held before.
-/

namespace Remind

/-! ### Evaluation with arguments -/

section Evaluation

variable {σ : Type} {env : EvalEnv σ} {ev : Expr → List Value → EvalM σ Value}
  {locals locals' : List Value} {args : List Expr} {n : ℕ}

theorem iifLoop_congr (h : ∀ a ∈ args, ev a locals = ev a locals') :
    iifLoop ev locals args = iifLoop ev locals' args := by
  fun_induction iifLoop ev locals args with
  | case1 => rfl
  | case2 last => rw [iifLoop, h last List.mem_cons_self]
  | case3 c t rest ih =>
    rw [iifLoop, h c (by simp), h t (by simp), ih fun a ha => h a (by simp [ha])]

theorem isAnyLoop_congr (v : Value) (h : ∀ a ∈ args, ev a locals = ev a locals') :
    isAnyLoop ev locals v args = isAnyLoop ev locals' v args := by
  induction args with
  | nil => rfl
  | cons c rest ih =>
    rw [List.forall_mem_cons] at h
    rw [isAnyLoop, isAnyLoop, h.1, ih h.2]

theorem fChoose_congr (h : ∀ a ∈ args, ev a locals = ev a locals') :
    fChoose ev locals args = fChoose ev locals' args := by
  cases args with
  | nil => rfl
  | cons a rest =>
    rw [List.forall_mem_cons] at h
    unfold fChoose
    dsimp only
    rw [h.1]
    congr 1
    funext v
    cases v with
    | int k =>
      dsimp only
      split
      · rfl
      · next e he => exact h.2 e (List.mem_of_getElem? he)
    | _ => rfl

theorem fValue_congr (h : ∀ a ∈ args, ev a locals = ev a locals') :
    fValue ev locals args = fValue ev locals' args := by
  cases args with
  | nil => rfl
  | cons a rest =>
    rw [List.forall_mem_cons] at h
    unfold fValue
    dsimp only
    rw [h.1]
    cases rest with
    | nil => rfl
    | cons b rest =>
      dsimp only
      rw [h.2 b List.mem_cons_self]

/-- A function that evaluates its arguments itself evaluates nothing else. -/
theorem callNew_congr (f : NewFunc) (h : ∀ a ∈ args, ev a locals = ev a locals') :
    callNew ev f locals args = callNew ev f locals' args := by
  cases f with
  | fCatch =>
    unfold callNew fCatch
    dsimp only
    split
    · rw [h _ (by simp), h _ (by simp)]
    · rfl
  | fChoose => exact fChoose_congr h
  | fIif =>
    show fIif ev locals args = fIif ev locals' args
    rw [fIif, fIif, iifLoop_congr h]
  | fIsAny =>
    show fIsAny ev locals args = fIsAny ev locals' args
    cases args with
    | nil => rfl
    | cons a rest =>
      rw [List.forall_mem_cons] at h
      unfold fIsAny
      dsimp only
      rw [h.1]
      congr 1
      funext v
      exact isAnyLoop_congr v h.2
  | fIsconst =>
    show fIsconst ev locals args = fIsconst ev locals' args
    cases args with
    | nil => rfl
    | cons a rest =>
      unfold fIsconst
      dsimp only
      rw [h a List.mem_cons_self]
  | fValue => exact fValue_congr h

theorem mem_localVarsList {a : Expr} {i : ℕ} (ha : a ∈ args) (hi : i ∈ a.localVars) :
    i ∈ Expr.localVarsList args := by
  induction args with
  | nil => cases ha
  | cons b rest ih =>
    rw [Expr.localVarsList, List.mem_append]
    rcases List.mem_cons.mp ha with rfl | ha
    · exact Or.inl hi
    · exact Or.inr (ih ha)

variable {below : Option (Expr → List Value → EvalM σ Value)}

mutual

/-- The value of a tree depends on the arguments that its nodes name, and on no other. -/
theorem evalNode_congr (hl : ∀ i < n, locals[i]? = locals'[i]?)
    (hbelow : ∀ ev, below = some ev → ∀ e : Expr, (∀ i ∈ e.localVars, i < n) →
      ev e locals = ev e locals') :
    ∀ e : Expr, (∀ i ∈ e.localVars, i < n) →
      evalNode env below locals e = evalNode env below locals' e
  | .const v, _ => by rw [evalNode, evalNode]
  | .localVar arg, h => by
    rw [evalNode, evalNode, hl arg (h arg List.mem_cons_self)]
  | .var name, _ => by rw [evalNode, evalNode]
  | .sysvar name constInt, _ => by rw [evalNode, evalNode]
  | .builtin f args, h => by
    rw [Expr.localVars] at h
    rw [evalNode, evalNode, evalArgs_congr hl hbelow args h]
    unfold evalBuiltin
    cases below with
    | none => rfl
    | some ev =>
      dsimp only
      have hargs : ∀ a ∈ args, ev a locals = ev a locals' := fun a ha =>
        hbelow ev rfl a fun i hi => h i (mem_localVarsList ha hi)
      cases f.func with
      | new func =>
        dsimp only
        rw [callNew_congr func hargs]
      | old func => rfl
  | .user name args, h => by
    rw [Expr.localVars] at h
    rw [evalNode, evalNode, evalArgs_congr hl hbelow args h]
  | .unop op e, h => by
    rw [Expr.localVars] at h
    rw [evalNode, evalNode, evalNode_congr hl hbelow e h]
  | .binop op e₁ e₂, h => by
    rw [Expr.localVars, List.forall_mem_append] at h
    rw [evalNode, evalNode, evalNode_congr hl hbelow e₁ h.1, evalNode_congr hl hbelow e₂ h.2]
  | .logical isAnd e₁ e₂, h => by
    rw [Expr.localVars, List.forall_mem_append] at h
    rw [evalNode, evalNode, evalNode_congr hl hbelow e₁ h.1, evalNode_congr hl hbelow e₂ h.2]

theorem evalArgs_congr (hl : ∀ i < n, locals[i]? = locals'[i]?)
    (hbelow : ∀ ev, below = some ev → ∀ e : Expr, (∀ i ∈ e.localVars, i < n) →
      ev e locals = ev e locals') :
    ∀ args : List Expr, (∀ i ∈ Expr.localVarsList args, i < n) →
      evalArgs env below locals args = evalArgs env below locals' args
  | [], _ => by rw [evalArgs, evalArgs]
  | e :: es, h => by
    rw [Expr.localVarsList, List.forall_mem_append] at h
    rw [evalArgs, evalArgs, evalNode_congr hl hbelow e h.1, evalArgs_congr hl hbelow es h.2]

end

theorem evalLevel_congr (hl : ∀ i < n, locals[i]? = locals'[i]?) (level : ℕ) (e : Expr)
    (h : ∀ i ∈ e.localVars, i < n) : evalLevel env level e locals = evalLevel env level e locals' := by
  induction level generalizing e with
  | zero =>
    refine evalNode_congr hl ?_ e h
    rintro ev hev
    cases hev
  | succ level ih =>
    refine evalNode_congr hl ?_ e h
    rintro ev hev e h
    rw [← Option.some.inj hev]
    exact ih e h

end Evaluation

/-! ### DoFset -/

/-- A `Var` of `local_array`: its name, and its link as an index of the array. -/
structure LocalSlot where
  name : List Char
  next : Option ℕ

/-- `local_array`, with `MAX_FUNC_ARGS` entries. -/
abbrev LocalArray := ℕ → LocalSlot

/-- `MAX_FUNC_ARGS` -/
def maxFuncArgs : ℕ := 64

/-- The names that `make_atom` goes through from `v` on, `n` at most. -/
def LocalArray.chain (arr : LocalArray) : ℕ → Option ℕ → List (List Char)
  | 0, _ => []
  | _, none => []
  | n + 1, some v => (arr v).name :: arr.chain n (arr v).next

/-- Argument `i` goes into the array: `local_array[i+1].link.next = NULL` is the last assignment. -/
def LocalArray.enter (arr : LocalArray) (i : ℕ) (buf : List Char) : LocalArray :=
  let arr := Function.update arr i ⟨strnCpy buf varNameLen, some (i + 1)⟩
  Function.update arr (i + 1) { arr (i + 1) with next := none }

/-- What `DoFset` has read when it comes to the expression: `func->nargs`, `locals` and
`local_array`. -/
structure FsetHead where
  nargs : ℕ
  locals : Option ℕ
  array : LocalArray

/-- `func->args` -/
def FsetHead.args (h : FsetHead) : List (List Char) :=
  (List.range h.nargs).map fun i => (h.array i).name

section Fset

variable {σ : Type} (w : PasteEnv σ) (n : ℕ)

/-- The second loop of `ParseIdentifier`. -/
def identLoop : ℕ → List Char → PtrM σ (List Char)
  | 0, _ => throw .diverges
  | n + 1, dbuf => do
    match ← parseChar w true with
    | none => return dbuf
    | some c =>
      if c ≠ '_' && !c.isAlphanum then return dbuf
      else
        let _ ← parseChar w false
        identLoop n (dbuf ++ [c])

/-- `ParseIdentifier` -/
def parseIdentifier : PtrM σ (List Char) := do
  match ← skipLoop w n (← parseChar w false) with
  | none => throw .eoln
  | some c =>
    if c ≠ '$' && c ≠ '_' && !c.isAlpha then throw .badId else identLoop w n [c]

/-- `r = ...; return r` where `b` holds. -/
def leaveIf (b : Bool) (r : ErrCode) : PtrM σ Unit := if b then throw r else pure ()

/-- The `-` that FSET may have before the name. -/
def skipDash : PtrM σ Unit := do
  if (← parseNonSpaceChar w n true) = some '-' then
    leaveIf ((← parseToken w n) ≠ ['-']) .parseErr

/-- The name of the function, in lower case. -/
def fsetName : PtrM σ (List Char) := do
  skipDash w n
  let buf ← parseIdentifier w n
  return buf.map Char.toLower

/-- The loop over the arguments; the first number is what is left of `MAX_FUNC_ARGS`. -/
def fsetArgs : ℕ → ℕ → LocalArray → PtrM σ (ℕ × LocalArray)
  | 0, _, _ => throw .tooManyArgs
  | k + 1, nargs, arr => do
    let buf ← parseIdentifier w n
    leaveIf (isSysName buf) .badId
    -- `strncasecmp` with the arguments before
    leaveIf ((List.range nargs).any fun i => sameName buf (arr i).name) .repeatedArg
    leaveIf (nargs ≥ maxFuncArgs - 1) .tooManyArgs
    let arr := arr.enter nargs buf
    let c ← parseNonSpaceChar w n false
    if c = some ')' then return (nargs + 1, arr)
    else
      leaveIf (c ≠ some ',') .parseErr
      fsetArgs k (nargs + 1) arr

/-- What stands behind the `(`. -/
def fsetParens (junk : LocalArray) : PtrM σ FsetHead := do
  if (← parseNonSpaceChar w n true) = some ')' then
    let _ ← parseNonSpaceChar w n false
    return ⟨0, none, junk⟩
  else
    let (nargs, arr) ← fsetArgs w n maxFuncArgs 0 junk
    return ⟨nargs, some 0, arr⟩

/-- The `=` that may stand behind the arguments. -/
def skipEquals : PtrM σ Unit := do
  if (← parseNonSpaceChar w n true) = some '=' then
    let _ ← parseNonSpaceChar w n false

/-- The arguments in their parentheses, and the `=` behind them. -/
def fsetHead (junk : LocalArray) : PtrM σ FsetHead := do
  leaveIf ((← parseNonSpaceChar w n false) ≠ some '(') .parseErr
  let head ← fsetParens w n junk
  skipEquals w n
  return head

/-- The place of the expression: white space is skipped, and it may not come from a pasted value. -/
def fsetStart : PtrM σ Unit := fun s =>
  if s.ptr.nested.isSome then .error .parseErr s
  else if s.ptr.pos.dropWhile isSpace = [] then .error .eoln (s.moveTo [])
  else .ok () (s.moveTo (s.ptr.pos.dropWhile isSpace))

/-- `parse_expression(&(p->pos), &r, locals)` -/
def fsetExpr (env : ParserEnv) (max : Option ℕ) (g : ParserGlobals) (head : FsetHead) :
    PtrM σ Expr := fun s =>
  match (parseExpression env max (head.array.chain maxFuncArgs head.locals) s.ptr.pos g).1 with
  | .error r => .error r s
  | .ok (node, pos) => .ok node (s.moveTo pos)

/-- Nothing may stand behind the expression. -/
def fsetEnd : PtrM σ Unit := do
  leaveIf ((← parseNonSpaceChar w n true) ≠ none) .expectingEol

/-- The rest of the command, from the `(` to the end of the line: the number of arguments, and the
tree.  `junk` is what `local_array` holds at first. -/
def fsetBody (env : ParserEnv) (max : Option ℕ) (g : ParserGlobals) (junk : LocalArray) :
    PtrM σ (ℕ × Expr) := do
  let head ← fsetHead w n junk
  fsetStart
  let node ← fsetExpr env max g head
  fsetEnd w n
  return (head.nargs, node)

end Fset

/-- An FSET command: the parser on its line, what stands around it, the table, and what
`local_array` holds at first. -/
structure FsetCall (σ : Type) where
  paste : PasteEnv σ
  env : ParserEnv
  max : Option ℕ
  globals : ParserGlobals
  bound : ℕ
  junk : LocalArray
  start : PtrState σ
  state : FuncState
  isBuiltin : List Char → Bool
  ignoring : Bool
  inConstantContext : Bool
  filename : String
  lineno : ℤ

/-- A result, without the state. -/
def resultOf {ε τ α : Type} : EStateM.Result ε τ α → Except ε α
  | .ok a _ => .ok a
  | .error e _ => .error e

namespace FsetCall

variable {σ : Type} (c : FsetCall σ)

def line : Except ErrCode FsetLine :=
  match fsetName c.paste c.bound c.start with
  | .error r _ => .error r
  | .ok name t => .ok
    { name
      body := resultOf (fsetBody c.paste c.bound c.env c.max c.globals c.junk t)
      filename := c.filename
      lineno := c.lineno }

/-- `DoFset` -/
def run : FuncState × Option ErrCode :=
  match c.line with
  | .error r => (c.state, some r)
  | .ok line => doFset c.isBuiltin c.state c.ignoring c.inConstantContext line

/-- The function that `DoFset` gives to `FSet`, where it comes that far. -/
def installed : Option UserFunc :=
  match c.line with
  | .error _ => none
  | .ok line =>
    if isSysName line.name ∨ c.ignoring = true ∨ (c.state.funcs.findUserFunc line.name).any (fun f =>
        f.filename = line.filename ∧ f.filename ≠ "[cmdline]" ∧ f.lineno = line.lineno) ∨
        c.isBuiltin (strnCpy line.name varNameLen) then none
    else
      match line.body with
      | .error _ => none
      | .ok (nargs, node) => some (line.newFunc c.state.runDisabled c.inConstantContext nargs node)

end FsetCall

/-! ### The chain of the names -/

section Chain

variable {arr junk : LocalArray} {k : ℕ} {buf : List Char}

/-- `k` arguments have been entered. -/
structure Entered (junk : LocalArray) (k : ℕ) (arr : LocalArray) : Prop where
  linked : ∀ i < k, (arr i).next = some (i + 1)
  last : 0 < k → (arr k).next = none
  untouched : ∀ i, k ≤ i → (arr i).name = (junk i).name

theorem entered_zero (junk : LocalArray) : Entered junk 0 junk :=
  ⟨fun _ hi => absurd hi (Nat.not_lt_zero _), fun h => absurd h (lt_irrefl 0), fun _ _ => rfl⟩

theorem Entered.enter (h : Entered junk k arr) (buf : List Char) :
    Entered junk (k + 1) (arr.enter k buf) := by
  unfold LocalArray.enter
  refine ⟨fun i hi => ?_, fun _ => ?_, fun i hi => ?_⟩
  · rw [Function.update_of_ne (by omega)]
    rcases Nat.lt_succ_iff_lt_or_eq.mp hi with hi | rfl
    · rw [Function.update_of_ne (by omega), h.linked i hi]
    · rw [Function.update_self]
  · rw [Function.update_self]
  · rcases Nat.eq_or_lt_of_le hi with rfl | hi
    · rw [Function.update_self, Function.update_of_ne (by omega)]
      exact h.untouched _ (Nat.le_succ k)
    · rw [Function.update_of_ne (by omega), Function.update_of_ne (by omega)]
      exact h.untouched i (by omega)

theorem Entered.chain_from (h : Entered junk k arr) (hk : 0 < k) (d : ℕ) (hd : d ≤ k) {n : ℕ}
    (hn : d < n) : arr.chain n (some (k - d)) =
      ((List.range' (k - d) d).map fun i => (arr i).name) ++ [(junk k).name] := by
  induction d generalizing n with
  | zero =>
    obtain ⟨n, rfl⟩ := Nat.exists_eq_succ_of_ne_zero (Nat.pos_iff_ne_zero.mp hn)
    rw [Nat.sub_zero, LocalArray.chain, h.last hk, h.untouched k le_rfl]
    cases n <;> rfl
  | succ d ih =>
    obtain ⟨n, rfl⟩ := Nat.exists_eq_succ_of_ne_zero (show n ≠ 0 by omega)
    have hnext : k - (d + 1) + 1 = k - d := by omega
    rw [LocalArray.chain, h.linked _ (by omega), hnext, ih (by omega) (by omega), List.range'_succ,
      hnext]
    rfl

/-- The chain goes on behind the last argument, to an entry that still has its old name. -/
theorem Entered.chain (h : Entered junk k arr) (hk : 0 < k) (hmax : k < maxFuncArgs) :
    arr.chain maxFuncArgs (some 0) =
      ((List.range k).map fun i => (arr i).name) ++ [(junk k).name] := by
  have := h.chain_from hk k le_rfl hmax
  rwa [Nat.sub_self, ← List.range_eq_range'] at this

end Chain

section Head

variable {σ : Type} {w : PasteEnv σ} {n : ℕ} {junk : LocalArray} {t t' : PtrState σ}

theorem wp_leaveIf {b : Bool} {r : ErrCode} {Q : Unit → PtrState σ → Prop}
    (h : b = false → Q () t) : Lib.Wp (leaveIf b r) Q (fun _ => True) t := by
  cases b with
  | false => exact h rfl
  | true => trivial

theorem wp_any {α : Type} {x : PtrM σ α} {Q : α → PtrState σ → Prop} (h : ∀ a t, Q a t) :
    Lib.Wp x Q (fun _ => True) t := by
  unfold Lib.Wp
  cases x t with
  | ok a t => exact h a t
  | error e t => trivial

theorem fsetArgs_entered (k : ℕ) {nargs : ℕ} {arr : LocalArray} (h : Entered junk nargs arr) :
    Lib.Wp (fsetArgs w n k nargs arr)
      (fun p _ => Entered junk p.1 p.2 ∧ 0 < p.1 ∧ p.1 < maxFuncArgs) (fun _ => True) t := by
  induction k generalizing nargs arr t with
  | zero => trivial
  | succ k ih =>
    unfold fsetArgs
    simp only [Lib.wp_bind]
    refine wp_any fun buf t₁ => wp_leaveIf fun _ => wp_leaveIf fun _ => wp_leaveIf fun hmax => ?_
    have hmax : nargs + 1 < maxFuncArgs := by
      simp only [ge_iff_le, decide_eq_false_iff_not, not_le] at hmax
      omega
    refine wp_any fun c t₂ => ?_
    rw [Lib.wp_ite]
    refine ⟨fun _ => ⟨h.enter buf, Nat.succ_pos nargs, hmax⟩, fun _ => ?_⟩
    simp only [Lib.wp_bind]
    exact wp_leaveIf fun _ => ih (h.enter buf)

/-- The names that the expression can name: those of the arguments and, if there is an argument, the
name left behind them. -/
def FsetHead.Chained (junk : LocalArray) (h : FsetHead) : Prop :=
  h.nargs < maxFuncArgs ∧ h.array.chain maxFuncArgs h.locals =
    if h.nargs = 0 then [] else h.args ++ [(junk h.nargs).name]

theorem fsetParens_chained :
    Lib.Wp (fsetParens w n junk) (fun h _ => h.Chained junk) (fun _ => True) t := by
  unfold fsetParens
  simp only [Lib.wp_bind]
  refine wp_any fun c t₁ => ?_
  rw [Lib.wp_ite]
  refine ⟨fun _ => ?_, fun _ => ?_⟩
  · simp only [Lib.wp_bind]
    exact wp_any fun _ _ => ⟨Nat.succ_pos 63, rfl⟩
  · simp only [Lib.wp_bind]
    refine (fsetArgs_entered maxFuncArgs (entered_zero junk)).mono fun p t₂ hargs => ?_
    obtain ⟨h, hpos, hmax⟩ := hargs
    refine ⟨hmax, (h.chain hpos hmax).trans ?_⟩
    rw [if_neg (Nat.pos_iff_ne_zero.mp hpos)]
    rfl

theorem fsetHead_chained {head : FsetHead} (h : fsetHead w n junk t = .ok head t') :
    head.Chained junk := by
  have hwp : Lib.Wp (fsetHead w n junk) (fun h _ => h.Chained junk) (fun _ => True) t := by
    unfold fsetHead
    simp only [Lib.wp_bind]
    refine wp_any fun c t₁ => wp_leaveIf fun _ => fsetParens_chained.mono fun head t₂ hc => ?_
    exact wp_any fun _ _ => hc
  exact hwp.ok h

/-- There is a `]` where the expression ends. -/
def AtBracket (t : PtrState σ) : Prop := t.ptr.nested = none ∧ ∃ rest, t.ptr.pos = ']' :: rest

theorem parseChar_atBracket (h : AtBracket t) : ∃ c t₁,
    (∀ peek, parseChar w peek t = .ok (some c) (if peek then t else t₁)) ∧
      (isEmptyChar c = true → AtBracket t₁) := by
  obtain ⟨⟨pos, nested, allow, pushed, happened, nonconst⟩, world⟩ := t
  obtain ⟨hnested, rest, hpos⟩ := h
  obtain rfl : nested = none := hnested
  obtain rfl : pos = ']' :: rest := hpos
  cases pushed with
  | nil => exact ⟨']', ⟨⟨rest, none, allow, [], happened, nonconst⟩, world⟩, fun peek => rfl,
      fun h => absurd h (by decide)⟩
  | cons c pushed => exact ⟨c, ⟨⟨']' :: rest, none, allow, pushed, happened, nonconst⟩, world⟩,
      fun peek => rfl, fun _ => ⟨rfl, rest, rfl⟩⟩

/-- A `]` behind the expression is not overlooked. -/
theorem nonSpaceLoop_atBracket (h : AtBracket t) :
    Lib.Wp (parseChar w true >>= fun ch => nonSpaceLoop w n ch) (fun r _ => r ≠ none)
      (fun _ => True) t := by
  induction n generalizing t with
  | zero =>
    refine (Lib.wp_bind _ _ _).mpr (wp_any fun ch t₁ => ?_)
    trivial
  | succ n ih =>
    obtain ⟨c, t₁, hread, hblank⟩ := @parseChar_atBracket σ w t h
    refine (Lib.wp_bind _ _ _).mpr (Lib.Wp.of_ok (hread true) ?_)
    rw [nonSpaceLoop, Lib.wp_ite]
    refine ⟨fun hc => ?_, fun _ => Option.some_ne_none c⟩
    exact (Lib.wp_bind _ _ _).mpr (Lib.Wp.of_ok (hread false) (ih (hblank hc)))

theorem fsetEnd_bracket (h : fsetEnd w n t = .ok () t') : ¬ AtBracket t := by
  intro hb
  obtain ⟨r, t₁, hr, hleave⟩ := Lib.bind_eq_ok h
  have hwp : Lib.Wp (parseNonSpaceChar w n true) (fun r _ => r ≠ none) (fun _ => True) t := by
    have hassoc : parseNonSpaceChar w n true =
        (parseChar w true >>= fun ch => nonSpaceLoop w n ch) >>= fun ch => pure ch := by
      unfold parseNonSpaceChar
      simp only [bind_assoc, if_true]
    rw [hassoc]
    exact (Lib.wp_bind _ _ _).mpr (nonSpaceLoop_atBracket hb)
  have hfail : leaveIf (decide (r ≠ none)) .expectingEol t₁ = .error .expectingEol t₁ := by
    rw [decide_eq_true (hwp.ok hr)]
    rfl
  cases hfail.symm.trans hleave

theorem fsetStart_ok (h : fsetStart t = .ok () t') :
    t.ptr.nested = none ∧ t' = t.moveTo (t.ptr.pos.dropWhile isSpace) := by
  unfold fsetStart at h
  split_ifs at h with hnested hpos
  cases h
  exact ⟨Option.not_isSome_iff_eq_none.mp hnested, rfl⟩

theorem fsetExpr_ok {env : ParserEnv} {max : Option ℕ} {g : ParserGlobals} {head : FsetHead}
    {node : Expr} (h : fsetExpr env max g head t = .ok node t') : ∃ pos, t' = t.moveTo pos ∧
      (parseExpression env max (head.array.chain maxFuncArgs head.locals) t.ptr.pos g).1 =
        .ok (node, pos) := by
  unfold fsetExpr at h
  split at h
  · cases h
  · next node' pos hp =>
    cases h
    exact ⟨pos, rfl, hp⟩

/-- Where the command is read to its end, the expression has been read to its end. -/
theorem fsetBody_ok {env : ParserEnv} {max : Option ℕ} {g : ParserGlobals} {nargs : ℕ} {node : Expr}
    (h : fsetBody w n env max g junk t = .ok (nargs, node) t') :
    ∃ head t₁, fsetHead w n junk t = .ok head t₁ ∧ head.nargs = nargs ∧
      (parseExpression env max (head.array.chain maxFuncArgs head.locals)
        (t₁.ptr.pos.dropWhile isSpace) g).1 = .ok (node, []) := by
  unfold fsetBody at h
  obtain ⟨head, t₁, hhead, h⟩ := Lib.bind_eq_ok h
  obtain ⟨_, t₂, hstart, h⟩ := Lib.bind_eq_ok h
  obtain ⟨node', t₃, hexpr, h⟩ := Lib.bind_eq_ok h
  obtain ⟨_, t₄, hend, h⟩ := Lib.bind_eq_ok h
  cases h
  obtain ⟨hnested, rfl⟩ := fsetStart_ok hstart
  obtain ⟨pos, rfl, hparse⟩ := fsetExpr_ok hexpr
  have hpos : pos = [] := by
    obtain ⟨-, -, -, hpos | hpos⟩ := parseExpression_ok hparse
    · exact hpos
    · obtain ⟨rest, rfl⟩ := List.head?_eq_some_iff.mp hpos
      exact absurd ⟨hnested, rest, rfl⟩ (fsetEnd_bracket hend)
  subst hpos
  exact ⟨head, t₁, hhead, rfl, hparse⟩

end Head

/-! ### The arguments stay in bounds -/

/-- The nodes of a function name arguments that it has, and its value does not depend on what is
behind them. -/
structure LocalsInBounds (f : UserFunc) : Prop where
  nodes : ∀ i ∈ f.node.localVars, i < f.nargs
  evaluation : ∀ (τ : Type) (env : EvalEnv τ) (level : ℕ) (args beyond : List Value),
    args.length = f.nargs →
      evalLevel env level f.node (args ++ beyond) = evalLevel env level f.node args

/-- No identifier of the expression is the name left over behind the arguments, but where it is the
name of an argument or there are none. -/
def FsetCall.LeftoverUnused {σ : Type} (c : FsetCall σ) : Prop :=
  ∀ name t head t₁, fsetName c.paste c.bound c.start = .ok name t →
    fsetHead c.paste c.bound c.junk t = .ok head t₁ →
    ∀ tok ∈ bodyIdents c.env.seps.timeSep (t₁.ptr.pos.dropWhile isSpace),
      sameName tok (c.junk head.nargs).name = true →
        head.nargs = 0 ∨ ∃ a ∈ head.args, sameName tok a = true

section Bounds

variable {σ : Type} {c : FsetCall σ} {f : UserFunc}

theorem FsetCall.installed_ok (hf : c.installed = some f) : ∃ name t nargs node t₁,
    fsetName c.paste c.bound c.start = .ok name t ∧
    fsetBody c.paste c.bound c.env c.max c.globals c.junk t = .ok (nargs, node) t₁ ∧
    f.nargs = nargs ∧ f.node = node := by
  unfold installed line at hf
  cases hname : fsetName c.paste c.bound c.start with
  | error r t =>
    rw [hname] at hf
    cases hf
  | ok name t =>
    rw [hname] at hf
    dsimp only at hf
    split_ifs at hf
    cases hbody : fsetBody c.paste c.bound c.env c.max c.globals c.junk t with
    | error r t₁ =>
      rw [hbody] at hf
      cases hf
    | ok p t₁ =>
      rw [hbody] at hf
      cases hf
      exact ⟨name, t, p.1, p.2, t₁, rfl, hbody, rfl, rfl⟩

/-- The installed function takes the place of the one of its name. -/
theorem FsetCall.run_installed (hf : c.installed = some f) :
    c.run = ({ c.state with funcs := (c.state.funcs.fUnset f.name).fSet f }, none) := by
  unfold installed at hf
  unfold run
  cases hline : c.line with
  | error r =>
    rw [hline] at hf
    cases hf
  | ok line =>
    rw [hline] at hf
    dsimp only at hf ⊢
    split_ifs at hf with hstop
    simp only [not_or] at hstop
    obtain ⟨hsys, hign, hdef, hbuiltin⟩ := hstop
    unfold doFset fsetHere
    rw [if_neg hsys, if_neg hign, if_neg hdef, if_neg hbuiltin]
    cases hbody : line.body with
    | error r =>
      rw [hbody] at hf
      cases hf
    | ok p =>
      rw [hbody] at hf
      cases hf
      rfl

/-- Where no function is installed none gets another tree. -/
theorem FsetCall.run_keeps (hf : c.installed = none) :
    ∀ l ∈ c.run.1.funcs.tbl.links, ∃ l₀ ∈ c.state.funcs.tbl.links,
      l₀.item.nargs = l.item.nargs ∧ l₀.item.node = l.item.node := by
  have hsame : ∀ l ∈ c.state.funcs.tbl.links, ∃ l₀ ∈ c.state.funcs.tbl.links,
      l₀.item.nargs = l.item.nargs ∧ l₀.item.node = l.item.node :=
    fun l hl => ⟨l, hl, rfl, rfl⟩
  unfold installed at hf
  unfold run
  cases hline : c.line with
  | error r => exact hsame
  | ok line =>
    rw [hline] at hf
    dsimp only at hf ⊢
    unfold doFset fsetHere
    split_ifs with hsys hign hconst hdef hbuiltin
    · exact hsame
    · exact hsame
    · cases hl : c.state.funcs.findLink line.name with
      | none => exact hsame
      | some l =>
        intro m hm
        rcases FuncTable.mem_assign hm with hm | hm
        · exact ⟨l, (FuncTable.findLink_iff.mp hl).1, by rw [hm], by rw [hm]⟩
        · exact hsame m hm
    · exact hsame
    · exact hsame
    · rw [if_neg (by simp only [not_or]; exact ⟨hsys, hign, hdef, hbuiltin⟩)] at hf
      cases hbody : line.body with
      | error r => exact hsame
      | ok p =>
        rw [hbody] at hf
        cases hf

/-- An index in the chain: below the arguments, unless the name is that of the last entry alone. -/
theorem findIdx_chained {names : List (List Char)} {junk tok : List Char} :
    (∀ i, (names ++ [junk]).findIdx? (sameName tok) = some i → i < names.length) ↔
      (sameName tok junk = true → ∃ a ∈ names, sameName tok a = true) := by
  rw [List.findIdx?_append]
  cases hi : names.findIdx? (sameName tok) with
  | some i =>
    obtain ⟨hlt, hmatch, -⟩ := List.findIdx?_eq_some_iff_getElem.mp hi
    refine ⟨fun _ _ => ⟨_, List.getElem_mem hlt, hmatch⟩, fun _ j hj => ?_⟩
    rw [Option.some_or] at hj
    exact Option.some.inj hj ▸ hlt
  | none =>
    have hno := List.findIdx?_eq_none_iff.mp hi
    rw [Option.none_or]
    cases hjunk : sameName tok junk with
    | false => simp [List.findIdx?_cons, hjunk]
    | true =>
      simp only [List.findIdx?_cons, hjunk, if_true, Option.map_some, Nat.zero_add,
        Option.some.injEq, forall_eq', lt_irrefl, false_iff, forall_const, not_exists, not_and]
      intro a ha hmatch
      rw [hno a ha] at hmatch
      cases hmatch

theorem FsetHead.Chained.bounds_iff {junk : LocalArray} {head : FsetHead} (h : head.Chained junk)
    (toks : List (List Char)) :
    (∀ i ∈ toks.filterMap (fun tok =>
        (head.array.chain maxFuncArgs head.locals).findIdx? (sameName tok)), i < head.nargs) ↔
      ∀ tok ∈ toks, sameName tok (junk head.nargs).name = true →
        head.nargs = 0 ∨ ∃ a ∈ head.args, sameName tok a = true := by
  have hlen : head.args.length = head.nargs := by simp [FsetHead.args]
  rw [h.2]
  by_cases h0 : head.nargs = 0
  · simp [h0]
  · rw [if_neg h0]
    simp only [h0, false_or, List.mem_filterMap, ← findIdx_chained, hlen]
    exact ⟨fun hall tok htok i hi => hall i ⟨tok, htok, hi⟩,
      fun hall i ⟨tok, htok, hi⟩ => hall tok htok i hi⟩

/-- **DoFset** numbers the arguments within bounds, but for an identifier that happens to be the name
left over in `local_array`. -/
theorem fset_inBounds_iff (hf : c.installed = some f) : LocalsInBounds f ↔ c.LeftoverUnused := by
  obtain ⟨name, t, nargs, node, t₁, hname, hbody, rfl, rfl⟩ := c.installed_ok hf
  obtain ⟨head, t₂, hhead, hnargs, hparse⟩ := fsetBody_ok hbody
  have hbounds : (∀ i ∈ f.node.localVars, i < f.nargs) ↔ c.LeftoverUnused := by
    rw [parseExpression_localVars hparse, ← hnargs,
      (fsetHead_chained hhead).bounds_iff]
    constructor
    · intro h name' t' head' t₂' hname' hhead'
      cases hname.symm.trans hname'
      cases hhead.symm.trans hhead'
      exact h
    · exact fun h => h name t head t₂ hname hhead
  refine ⟨fun h => hbounds.mp h.nodes, fun h => ⟨hbounds.mpr h, ?_⟩⟩
  intro τ env level args beyond hargs
  refine evalLevel_congr (n := f.nargs) (fun i hi => ?_) level f.node (hbounds.mpr h)
  exact List.getElem?_append_left (by omega)

/-- FSET with the text, where the name is left over behind one argument. -/
def plainFset (text leftover : List Char) : FsetCall Unit where
  paste := ⟨fun pos u => ((.error .parseErr, pos), u), {}⟩
  env := ⟨⟨':', '-'⟩, fun _ => none, fun _ => none, false⟩
  max := some maxParseLevel
  globals := ⟨[], 0⟩
  bound := 20
  junk := fun i => ⟨if i = 1 then leftover else [], none⟩
  start := ⟨createParser text, ()⟩
  state := ⟨FuncTable.init, [], 0⟩
  isBuiltin := fun _ => false
  ignoring := false
  inConstantContext := true
  filename := "a.rem"
  lineno := 2

/-- In an array that has been cleared no identifier is left over. -/
theorem leftoverUnused_clear (text : List Char) : (plainFset text []).LeftoverUnused := by
  intro name t head t₁ _ _ tok htok hsame
  obtain ⟨-, hident⟩ := List.mem_filter.mp htok
  have hempty : tok = [] := by
    simpa [plainFset, sameName, maxNameLen] using hsame
  rw [hempty] at hident
  cases hident

theorem fset_inBounds_iff_clear : LocalsInBounds
    ⟨"f".toList, 1, true, false, false, "a.rem", 2, .binop .add (.localVar 0) (.var "b".toList), 0⟩ :=
  (fset_inBounds_iff (c := plainFset "f(x) x+b".toList []) (by decide +kernel)).mpr
    (leftoverUnused_clear _)

theorem plainFset_b : (plainFset "f(x) x+b".toList "b".toList).installed =
    some ⟨"f".toList, 1, true, false, false, "a.rem", 2, .binop .add (.localVar 0) (.localVar 1), 0⟩ := by
  decide +kernel

/-- `FSET g(a,b) a+b` may leave the name `b` behind: in `FSET f(x) x+b` it is argument 1 of one. -/
theorem fset_leftover :
    ∃ f, (plainFset "f(x) x+b".toList "b".toList).installed = some f ∧ ¬ LocalsInBounds f :=
  ⟨_, plainFset_b, fun h => absurd (h.nodes 1 (by decide)) (by decide)⟩

end Bounds

end Remind
