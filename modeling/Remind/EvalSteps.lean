import Remind.Evaluate

/-!
# EvalSteps — what every evaluation keeps, from what its steps keep

`StepsKeep R` says that the relation `R` between the states before and after holds of each
step that touches `RunDisabled`, the nonconst flag or the shell.  `evalLevel_effects`: then it holds
of every evaluation, of any tree, at any level, whether it succeeds or fails.
-/

namespace Remind

open Lib (Effects endState attempt bracket)

/-- The two states differ in nothing that is observed. -/
structure SameObs {σ : Type} (s s' : EvalState σ) : Prop where
  runDisabled : s'.runDisabled = s.runDisabled
  nonconst : s'.nonconst = s.nonconst
  frames : s'.frames = s.frames
  events : s'.events = s.events
  constArgs : s'.constArgs = s.constArgs
  marks : s'.marks = s.marks

structure StepsKeep {σ : Type} (env : EvalEnv σ) (R : EvalState σ → EvalState σ → Prop) : Prop where
  plain : ∀ s s', SameObs s s' → R s s'
  report : Effects R (report : EvalM σ PUnit)
  clearFlag : Effects R (clearFlag : EvalM σ PUnit)
  shell : ∀ args, Effects R (fShell env args)
  inConstArg : ∀ (α : Type) (m : EvalM σ α), Effects R m → Effects R (inConstArg m)
  ownFlag : ∀ (α : Type) (start : Bool) (m : EvalM σ α), Effects R m → Effects R (ownFlag start m)
  withRun : ∀ (α : Type) (fr : Frame) (m : EvalM σ α),
    (∀ f, fr = .userFunc f → ∃ name, env.funcs name = some f) → Effects R m →
      Effects R (withRun fr m)

section

variable {σ α β : Type} {env : EvalEnv σ} {R : EvalState σ → EvalState σ → Prop}
variable [Std.Refl R] [IsTrans (EvalState σ) R]

theorem liftExcept_effects (r : Except ErrCode α) : Effects R (liftExcept r : EvalM σ α) := by
  cases r with
  | ok a => exact Effects.of_pure a
  | error e => exact Effects.of_throw e

/-- Look at the state, then go on. -/
theorem get_effects {f : EvalState σ → EvalM σ α} (hf : ∀ s, Effects R (f s)) :
    Effects R (get >>= f) :=
  Effects.of_bind Effects.of_get hf

theorem ite_effects {c : Prop} [Decidable c] {m m' : EvalM σ α} (hm : Effects R m)
    (hm' : Effects R m') : Effects R (if c then m else m') := by
  split_ifs
  · exact hm
  · exact hm'

variable (h : StepsKeep env R)
include h

namespace StepsKeep

theorem modify {f : EvalState σ → EvalState σ} (hf : ∀ s, SameObs s (f s)) :
    Effects R (modify f : EvalM σ PUnit) :=
  Effects.of_modify fun s => h.plain s (f s) (hf s)

theorem setRest (rest : σ) : Effects R (setRest rest : EvalM σ PUnit) :=
  h.modify fun _ => ⟨rfl, rfl, rfl, rfl, rfl, rfl⟩

theorem reportUnless (isConstant : Bool) : Effects R (reportUnless isConstant : EvalM σ PUnit) :=
  ite_effects (Effects.of_pure _) h.report

theorem enterNode : Effects R (enterNode env) := by
  refine get_effects fun s => Effects.of_bind (h.setRest _) fun _ => ?_
  split
  · exact Effects.of_pure _
  · exact Effects.of_throw _

theorem readVar (name : List Char) (l : Link Var) : Effects R (readVar name l : EvalM σ Value) := by
  refine Effects.of_bind (h.modify fun _ => ⟨rfl, rfl, rfl, rfl, rfl, rfl⟩) fun _ => ?_
  exact Effects.of_bind (h.reportUnless _) fun _ => Effects.of_pure _

theorem getVar (name : List Char) : Effects R (getVar name : EvalM σ Value) := by
  refine get_effects fun s => ?_
  split
  · exact Effects.of_throw _
  · exact h.readVar name _

theorem getSysVar (name : String) (constInt : Bool) : Effects R (getSysVar env name constInt) := by
  refine Effects.of_bind (h.reportUnless _) fun _ => get_effects fun s => ?_
  exact Effects.of_bind (h.setRest _) fun _ => liftExcept_effects _

end StepsKeep

/-! ### Functions -/

section Calls

variable {ev : Expr → List Value → EvalM σ Value} (hev : ∀ e locals, Effects R (ev e locals))
include hev

omit h in
theorem iifLoop_effects (locals : List Value) (args : List Expr) :
    Effects R (iifLoop ev locals args) := by
  fun_induction iifLoop ev locals args with
  | case1 => exact Effects.of_throw _
  | case2 last => exact hev last locals
  | case3 c t rest ih =>
    exact Effects.of_bind (hev c locals) fun v => ite_effects (hev t locals) ih

omit h in
theorem isAnyLoop_effects (locals : List Value) (v : Value) (args : List Expr) :
    Effects R (isAnyLoop ev locals v args) := by
  induction args with
  | nil => exact Effects.of_pure _
  | cons c rest ih =>
    exact Effects.of_bind (hev c locals) fun _ => ite_effects (Effects.of_pure _) ih

omit h in
theorem fChoose_effects (locals : List Value) (args : List Expr) :
    Effects R (fChoose ev locals args) := by
  unfold fChoose
  split
  · exact Effects.of_throw _
  · refine Effects.of_bind (hev _ locals) fun v => ?_
    split
    · dsimp only
      split
      · exact Effects.of_throw _
      · exact hev _ locals
    · exact Effects.of_throw _

theorem fCatch_effects (locals : List Value) (args : List Expr) :
    Effects R (fCatch ev locals args) := by
  unfold fCatch
  split
  · refine Effects.of_tryCatch (hev _ locals) fun r => ?_
    exact Effects.of_bind (h.modify fun _ => ⟨rfl, rfl, rfl, rfl, rfl, rfl⟩) fun _ => hev _ locals
  · exact Effects.of_throw _

theorem fValue_effects (locals : List Value) (args : List Expr) :
    Effects R (fValue ev locals args) := by
  unfold fValue
  split
  · exact Effects.of_throw _
  · refine Effects.of_bind (hev _ locals) fun v => ?_
    split
    · refine get_effects fun s => ?_
      split
      · exact h.readVar _ _
      · split
        · exact Effects.of_throw _
        · exact Effects.of_bind h.report fun _ => hev _ locals
    · exact Effects.of_throw _

theorem fIsconst_effects (locals : List Value) (args : List Expr) :
    Effects R (fIsconst ev locals args) := by
  unfold fIsconst
  split
  · exact Effects.of_throw _
  · refine Effects.of_bind (h.inConstArg _ _ (h.ownFlag _ _ _ (hev _ locals))) fun p => ?_
    exact Effects.of_bind (liftExcept_effects _) fun _ => Effects.of_pure _

theorem callNew_effects (f : NewFunc) (locals : List Value) (args : List Expr) :
    Effects R (callNew ev f locals args) := by
  cases f with
  | fCatch => exact fCatch_effects h hev locals args
  | fChoose => exact fChoose_effects hev locals args
  | fIif => exact ite_effects (Effects.of_throw _) (iifLoop_effects hev locals args)
  | fIsAny =>
    change Effects R (fIsAny ev locals args)
    unfold fIsAny
    split
    · exact Effects.of_throw _
    · exact Effects.of_bind (hev _ locals) fun v => isAnyLoop_effects hev locals v _
  | fIsconst => exact fIsconst_effects h hev locals args
  | fValue => exact fValue_effects h hev locals args

theorem evalExprRun_effects (runDisabled : Bool) (e : String) :
    Effects R (evalExprRun env ev runDisabled e) := by
  have heval : Effects R (evalExpr env ev e) := by
    refine get_effects fun s => ?_
    split
    · exact Effects.of_pure _
    · refine Effects.of_bind (h.modify fun _ => ⟨rfl, rfl, rfl, rfl, rfl, rfl⟩) fun _ => ?_
      refine Effects.of_bind (h.ownFlag _ _ _ (hev _ _)) fun p => ?_
      exact Effects.of_bind (h.modify fun _ => ⟨rfl, rfl, rfl, rfl, rfl, rfl⟩) fun _ =>
        Effects.of_pure _
  exact ite_effects (h.withRun _ _ _ (by simp) heval) heval

theorem runOld_effects (p : OldFunc σ) : Effects R (runOld env ev p) := by
  induction p with
  | ret r nonconst => exact Effects.of_pure _
  | get k ih => exact get_effects ih
  | put rest k ih => exact Effects.of_bind (h.setRest rest) fun _ => ih
  | evalExpr runDisabled e k ih => exact Effects.of_bind (evalExprRun_effects h hev _ _) ih

theorem fEval_effects (args : List Value) : Effects R (fEval env ev args) := by
  unfold fEval
  split
  · refine get_effects fun s => ?_
    split
    · exact Effects.of_pure _
    · exact h.ownFlag _ _ _ (h.withRun _ _ _ (by simp) (hev _ _))
  · exact Effects.of_pure _

theorem fOrdx_effects (v : ℤ) : Effects R (fOrdx env ev v) := by
  refine get_effects fun s => ?_
  split
  · exact Effects.of_pure _
  · refine Effects.of_bind (h.modify fun _ => ⟨rfl, rfl, rfl, rfl, rfl, rfl⟩) fun _ => ?_
    refine get_effects fun s1 => ?_
    refine Effects.of_bind (h.ownFlag _ _ _ (h.withRun _ _ _ (by simp) (hev _ _))) fun p => ?_
    refine Effects.of_bind (h.modify fun _ => ⟨rfl, rfl, rfl, rfl, rfl, rfl⟩) fun _ => ?_
    split <;> exact Effects.of_pure _

theorem callOld_effects (f : BuiltinFunc) (func : OldStyle) (args : List Value) :
    Effects R (callOld env ev f func args) := by
  cases func with
  | fCatchErr => exact get_effects fun _ => Effects.of_pure _
  | fEval => exact fEval_effects h hev args
  | fNonconst => exact Effects.of_pure _
  | fOrd =>
    change Effects R (fOrd env ev args)
    unfold fOrd
    split
    · exact get_effects fun s => ite_effects (fOrdx_effects h hev _) (Effects.of_pure _)
    · exact Effects.of_pure _
  | fShell => exact h.shell args
  | other => exact runOld_effects h hev _

theorem finishOld_effects (f : BuiltinFunc) (func : OldStyle) (args : List Value) :
    Effects R (finishOld env ev f func args) := by
  refine Effects.of_bind (callOld_effects h hev f func args) fun p => ?_
  refine Effects.of_bind (h.reportUnless _) fun _ => ?_
  refine Effects.of_bind (liftExcept_effects _) fun v => ?_
  exact Effects.of_bind (ite_effects h.clearFlag (Effects.of_pure _)) fun _ => Effects.of_pure _

theorem callUser_effects {name : List Char} {f : UserFunc} (hf : env.funcs name = some f)
    (args : List Value) : Effects R (callUser ev f args) := by
  refine Effects.of_bind (h.reportUnless _) fun _ => h.withRun _ _ _ ?_ (hev _ _)
  rintro g hg
  cases hg
  exact ⟨name, hf⟩

end Calls

/-! ### Nodes -/

omit h in
theorem checkArgs_effects (f : BuiltinFunc) (n : ℕ) :
    Effects R (checkArgs f n : EvalM σ PUnit) :=
  ite_effects (Effects.of_throw _) (ite_effects (Effects.of_throw _) (Effects.of_pure _))

omit h [Std.Refl R] [IsTrans (EvalState σ) R] in
theorem funcs_of_findCallee {name : List Char} {n : ℕ} {f : UserFunc}
    (hf : findCallee env name n = .ok f) : env.funcs name = some f := by
  unfold findCallee at hf
  split at hf
  · cases hf
  · next g hg =>
    split_ifs at hf
    cases hf
    exact hg

section Nodes

variable {below : Option (Expr → List Value → EvalM σ Value)}
variable (hbelow : ∀ ev, below = some ev → ∀ e locals, Effects R (ev e locals))
include hbelow

theorem evalBuiltin_effects (locals : List Value) (f : BuiltinFunc) (args : List Expr)
    {vals : EvalM σ (List Value)} (hvals : Effects R vals) :
    Effects R (evalBuiltin env below locals f args vals) := by
  refine Effects.of_bind (checkArgs_effects f _) fun _ => ?_
  split
  · exact Effects.of_throw _
  · split
    · exact callNew_effects h (hbelow _ rfl) _ _ _
    · refine Effects.of_bind (ite_effects (h.inConstArg _ _ hvals) hvals) fun vs => ?_
      exact finishOld_effects h (hbelow _ rfl) _ _ _

theorem evalUserfunc_effects (name : List Char) (n : ℕ) {vals : EvalM σ (List Value)}
    (hvals : Effects R vals) : Effects R (evalUserfunc env below name n vals) := by
  unfold evalUserfunc
  split
  · exact Effects.of_throw _
  · next f hf =>
    refine Effects.of_bind hvals fun vs => ?_
    split
    · exact Effects.of_throw _
    · exact callUser_effects h (hbelow _ rfl) (funcs_of_findCallee hf) vs

mutual

theorem evalNode_effects (locals : List Value) :
    ∀ e : Expr, Effects R (evalNode env below locals e)
  | .const v => by
    rw [evalNode]
    exact Effects.of_bind h.enterNode fun _ => Effects.of_pure v
  | .localVar arg => by
    rw [evalNode]
    refine Effects.of_bind h.enterNode fun _ => ?_
    split
    · exact Effects.of_throw _
    · exact Effects.of_pure _
  | .var name => by
    rw [evalNode]
    exact Effects.of_bind h.enterNode fun _ => h.getVar name
  | .sysvar name constInt => by
    rw [evalNode]
    exact Effects.of_bind h.enterNode fun _ => h.getSysVar name constInt
  | .builtin f args => by
    rw [evalNode]
    refine Effects.of_bind h.enterNode fun _ => Effects.of_bind (h.reportUnless _) fun _ => ?_
    exact evalBuiltin_effects h hbelow locals f args (evalArgs_effects locals args)
  | .user name args => by
    rw [evalNode]
    refine Effects.of_bind h.enterNode fun _ => ?_
    exact evalUserfunc_effects h hbelow name _ (evalArgs_effects locals args)
  | .unop op e => by
    rw [evalNode]
    refine Effects.of_bind h.enterNode fun _ => ?_
    exact Effects.of_bind (evalNode_effects locals e) fun v => liftExcept_effects _
  | .binop op e₁ e₂ => by
    rw [evalNode]
    refine Effects.of_bind h.enterNode fun _ => ?_
    refine Effects.of_bind (evalNode_effects locals e₁) fun v1 => ?_
    exact Effects.of_bind (evalNode_effects locals e₂) fun v2 => liftExcept_effects _
  | .logical isAnd e₁ e₂ => by
    rw [evalNode]
    refine Effects.of_bind h.enterNode fun _ => ?_
    refine Effects.of_bind (evalNode_effects locals e₁) fun v => ?_
    exact ite_effects (evalNode_effects locals e₂) (Effects.of_pure v)

theorem evalArgs_effects (locals : List Value) :
    ∀ args : List Expr, Effects R (evalArgs env below locals args)
  | [] => by
    rw [evalArgs]
    exact Effects.of_pure _
  | e :: es => by
    rw [evalArgs]
    refine Effects.of_bind (evalNode_effects locals e) fun v => ?_
    exact Effects.of_bind (evalArgs_effects locals es) fun vs => Effects.of_pure _

end

end Nodes

/-- What the steps keep, every evaluation keeps; the induction is on the level, and below it on
the tree. -/
theorem evalLevel_effects (level : ℕ) (e : Expr) (locals : List Value) :
    Effects R (evalLevel env level e locals) := by
  induction level generalizing e locals with
  | zero => exact evalNode_effects h (by simp) locals e
  | succ level ih =>
    refine evalNode_effects h ?_ locals e
    rintro ev hev
    cases hev
    exact ih

end

end Remind
