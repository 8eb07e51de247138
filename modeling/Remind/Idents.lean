import Remind.ParseLevel

/-!
# Idents — the identifiers of an expression, and what the parser makes of them (expr.c: `make_atom`)

`exprTokens` are the tokens of a text, one behind the other.  The parser takes each of them
once and in this order, so the local variables of its tree are those of the tokens.
-/

namespace Remind

/-! ### Local variables and tokens -/

mutual

/-- The arguments of the `N_LOCAL_VAR` nodes, from the left. -/
def Expr.localVars : Expr → List ℕ
  | .const _ => []
  | .localVar arg => [arg]
  | .var _ => []
  | .sysvar _ _ => []
  | .builtin _ args => Expr.localVarsList args
  | .user _ args => Expr.localVarsList args
  | .unop _ e => e.localVars
  | .binop _ e₁ e₂ => e₁.localVars ++ e₂.localVars
  | .logical _ e₁ e₂ => e₁.localVars ++ e₂.localVars

def Expr.localVarsList : List Expr → List ℕ
  | [] => []
  | e :: es => e.localVars ++ Expr.localVarsList es

end

/-- A token that `make_atom` takes for a variable; with a `(` it is the name of a function. -/
def isIdent (tok : List Char) : Bool :=
  (tok.head?.map fun c => c.isAlpha || c = '_').getD false && tok.getLast? ≠ some '('

/-- The local variable that a token stands for. -/
def localIndex (locals : List (List Char)) (tok : List Char) : Option ℕ :=
  if isIdent tok then locals.findIdx? (sameName tok) else none

/-- The tokens of a text, `n` at most. -/
def exprTokens (sep : Char) : ℕ → List Char → List (List Char)
  | 0, _ => []
  | n + 1, inp =>
    match parseExprToken sep inp with
    | .error _ => []
    | .ok (tok, inp) => if tok = [] then [] else tok :: exprTokens sep n inp

/-- The identifiers of a text. -/
def bodyIdents (sep : Char) (inp : List Char) : List (List Char) :=
  (exprTokens sep inp.length inp).filter isIdent

example : bodyIdents ':' "x+foo(b, \"s\", 'c')".toList = ["x".toList, "b".toList] := by
  decide +kernel

/-- These tokens are read from `inp`, and `inp'` is what is left. -/
inductive ReadsTokens (sep : Char) : List Char → List (List Char) → List Char → Prop
  | nil (inp : List Char) : ReadsTokens sep inp [] inp
  | cons {inp inp₁ inp' tok : List Char} {toks : List (List Char)} :
      parseExprToken sep inp = .ok (tok, inp₁) → tok ≠ [] → ReadsTokens sep inp₁ toks inp' →
      ReadsTokens sep inp (tok :: toks) inp'

section Tokens

variable {sep : Char} {inp inp' inp'' : List Char} {toks toks' : List (List Char)}

theorem ReadsTokens.append (h : ReadsTokens sep inp toks inp')
    (h' : ReadsTokens sep inp' toks' inp'') : ReadsTokens sep inp (toks ++ toks') inp'' := by
  induction h with
  | nil inp => exact h'
  | cons hp hne h ih => exact .cons hp hne (ih h')

theorem ReadsTokens.length (h : ReadsTokens sep inp toks inp') :
    toks.length + inp'.length ≤ inp.length := by
  induction h with
  | nil inp => simp
  | cons hp hne h ih =>
    have hlt := (parseExprToken_length hp).2 hne
    rw [List.length_cons]
    omega

theorem ReadsTokens.exprTokens_eq (h : ReadsTokens sep inp toks inp') (k : ℕ) :
    exprTokens sep (toks.length + k) inp = toks ++ exprTokens sep k inp' := by
  induction h with
  | nil inp => rw [List.length_nil, Nat.zero_add, List.nil_append]
  | cons hp hne h ih =>
    rw [List.length_cons, Nat.add_right_comm, exprTokens, hp]
    dsimp only
    rw [if_neg hne, ih, List.cons_append]

theorem exprTokens_blank (hblank : inp.dropWhile isEmptyChar = []) (n : ℕ) :
    exprTokens sep n inp = [] := by
  cases n with
  | zero => rfl
  | succ n =>
    have hend : parseExprToken sep inp = .ok ([], []) := by
      unfold parseExprToken
      rw [hblank]
    rw [exprTokens, hend]
    rfl

/-- Tokens up to the end of a text are its tokens. -/
theorem ReadsTokens.eq_exprTokens (h : ReadsTokens sep inp toks inp')
    (hend : inp'.dropWhile isEmptyChar = []) : exprTokens sep inp.length inp = toks := by
  have hle := h.length
  obtain ⟨k, hk⟩ := Nat.exists_eq_add_of_le (show toks.length ≤ inp.length by omega)
  rw [hk, h.exprTokens_eq, exprTokens_blank hend, List.append_nil]

end Tokens

/-! ### The parser -/

section Parser

variable {env : ParserEnv} {max : Option ℕ} {locals : List (List Char)} {aux : ℕ → ParseM Expr}
  {ops : List (List Char × (Expr → Expr → Expr))} {s : Lib.Marked ParseState}
  {inp inp' inp'' : List Char} {is is' : List ℕ}

theorem localVarsList_append (as bs : List Expr) :
    Expr.localVarsList (as ++ bs) = Expr.localVarsList as ++ Expr.localVarsList bs := by
  induction as with
  | nil => rfl
  | cons a as ih => simp only [List.cons_append, Expr.localVarsList, ih, List.append_assoc]

theorem applyUnary_localVars (op : List Char) (e : Expr) :
    (applyUnary op e).localVars = e.localVars := by
  unfold applyUnary
  split
  · rfl
  · split <;> rfl

theorem makeAtom_localVars {tok : List Char} {e : Expr} (h : makeAtom env locals tok = .ok e)
    (hlast : tok.getLast? ≠ some '(') : e.localVars = (localIndex locals tok).toList := by
  have hconst : ∀ r : Except ErrCode Value, r.map Expr.const = .ok e → e.localVars = [] := by
    intro r hr
    cases r with
    | error _ => cases hr
    | ok v =>
      cases hr
      rfl
  unfold makeAtom at h
  cases tok with
  | nil => exact hconst _ h
  | cons c rest =>
    dsimp only at h
    by_cases hc : (c.isAlpha || c = '_') = true
    · have hident : isIdent (c :: rest) = true := by
        simpa [isIdent] using ⟨by simpa using hc, hlast⟩
      rw [if_pos hc] at h
      rw [localIndex, if_pos hident]
      split at h
      · next i hi =>
        cases h
        rw [hi]
        rfl
      · next hi =>
        cases h
        rw [hi]
        rfl
    · have hident : ¬ isIdent (c :: rest) = true := by
        intro hi
        simp only [isIdent, List.head?_cons, Option.map_some, Option.getD_some,
          Bool.and_eq_true] at hi
        exact hc hi.1
      rw [localIndex, if_neg hident]
      rw [if_neg hc] at h
      split_ifs at h
      · split at h
        · cases h
          rfl
        · cases h
      · exact hconst _ h

/-- Between the two texts are tokens that stand for these local variables. -/
def Resolved (env : ParserEnv) (locals : List (List Char)) (inp : List Char) (is : List ℕ)
    (inp' : List Char) : Prop :=
  ∃ toks, ReadsTokens env.seps.timeSep inp toks inp' ∧ toks.filterMap (localIndex locals) = is

theorem Resolved.refl (inp : List Char) : Resolved env locals inp [] inp := ⟨[], .nil inp, rfl⟩

theorem Resolved.trans (h : Resolved env locals inp is inp')
    (h' : Resolved env locals inp' is' inp'') : Resolved env locals inp (is ++ is') inp'' := by
  obtain ⟨toks, hr, rfl⟩ := h
  obtain ⟨toks', hr', rfl⟩ := h'
  exact ⟨toks ++ toks', hr.append hr', List.filterMap_append⟩

theorem Resolved.token {tok : List Char}
    (h : parseExprToken env.seps.timeSep inp = .ok (tok, inp')) (hne : tok ≠ []) :
    Resolved env locals inp (localIndex locals tok).toList inp' :=
  ⟨[tok], .cons h hne (.nil inp'), by cases hi : localIndex locals tok <;> simp [hi]⟩

/-- A token that is no identifier. -/
theorem Resolved.skip {tok : List Char}
    (h : parseExprToken env.seps.timeSep inp = .ok (tok, inp')) (hne : tok ≠ [])
    (hident : isIdent tok = false) : Resolved env locals inp [] inp' := by
  have := @Resolved.token env locals inp inp' tok h hne
  rwa [localIndex, if_neg (by rw [hident]; decide)] at this

/-- Whatever the computation returns satisfies `Q`; nothing is said of its errors. -/
abbrev Returns {α : Type} (x : ParseM α) (Q : α → Lib.Marked ParseState → Prop)
    (s : Lib.Marked ParseState) : Prop :=
  Lib.Wp x Q (fun _ => True) s

theorem returns_peekToken {Q : Unit → Lib.Marked ParseState → Prop}
    (h : ∀ t, t.rest.inp = s.rest.inp → Peeked env t → Q () t) : Returns (peekToken env) Q s := by
  refine (Lib.wp_unmarked _ _).mpr ?_
  unfold Lib.Wp
  cases hp : parseExprToken env.seps.timeSep s.rest.inp with
  | error r =>
    simp only [hp]
  | ok p =>
    simp only [hp]
    exact h _ rfl ⟨p.2, hp⟩

theorem returns_getToken {Q : Unit → Lib.Marked ParseState → Prop} (hpeek : Peeked env s)
    (h : ∀ t, parseExprToken env.seps.timeSep s.rest.inp = .ok (s.rest.buf, t.rest.inp) →
      t.rest.buf = s.rest.buf → Q () t) : Returns (getToken env) Q s := by
  refine (Lib.wp_unmarked _ _).mpr ?_
  obtain ⟨rest, hrest⟩ := hpeek
  unfold Lib.Wp
  simp only [hrest]
  exact h _ hrest rfl

theorem returns_failIf {b : Bool} {r : ErrCode} {Q : Unit → Lib.Marked ParseState → Prop}
    (h : b = false → Q () s) : Returns (failIf b r) Q s := by
  cases b with
  | false => exact h rfl
  | true => trivial

theorem returns_checkParseLevel {level : ℕ} {Q : Unit → Lib.Marked ParseState → Prop}
    (h : ∀ t, t.rest = s.rest → Q () t) : Returns (checkParseLevel max level) Q s :=
  Lib.wp_checkDepth (fun _ => trivial) fun _ => h _ rfl

/-- The tree has the local variables of the tokens that were read, and the next token is in
`ExprBuf`. -/
def Resolves (env : ParserEnv) (locals : List (List Char)) (x : ℕ → ParseM Expr) : Prop :=
  ∀ level s, Returns (x level)
    (fun e t => Resolved env locals s.rest.inp e.localVars t.rest.inp ∧ Peeked env t) s

theorem argLoop_resolves (haux : Resolves env locals aux) (f : Option BuiltinFunc) (level n : ℕ)
    (args : List Expr) (hbuf : s.rest.buf = [')'] → Peeked env s) :
    Returns (argLoop env aux f level n args) (fun es t => ∃ is, Resolved env locals s.rest.inp is
      t.rest.inp ∧ Expr.localVarsList es = Expr.localVarsList args ++ is ∧ Peeked env t ∧
      t.rest.buf = [')']) s := by
  induction n generalizing s args with
  | zero => trivial
  | succ n ih =>
    unfold argLoop
    simp only [Lib.wp_bind]
    refine wp_token ?_
    rw [Lib.wp_ite]
    refine ⟨fun hclose => ?_, fun _ => ?_⟩
    · exact ⟨[], .refl _, (List.append_nil _).symm, hbuf hclose, hclose⟩
    simp only [Lib.wp_bind]
    refine returns_peekToken fun t₁ h₁ hpeek₁ => wp_token ?_
    rw [Lib.wp_ite]
    refine ⟨fun _ => h₁ ▸ ih args fun _ => hpeek₁, fun _ => ?_⟩
    refine (Lib.wp_bind _ _ _).mpr ((haux _ t₁).mono fun arg t₂ ⟨harg, hpeek₂⟩ => ?_)
    rw [h₁] at harg
    simp only [Lib.wp_bind]
    refine returns_failIf fun _ => returns_peekToken fun t₃ h₃ hpeek₃ => wp_token ?_
    refine returns_failIf fun htok => ?_
    -- what the rest of the loop reads comes after the argument
    have hnext : ∀ (t₄ t₅ : Lib.Marked ParseState) (es : List Expr),
        Resolved env locals t₃.rest.inp [] t₄.rest.inp →
        (∃ is, Resolved env locals t₄.rest.inp is t₅.rest.inp ∧
          Expr.localVarsList es = Expr.localVarsList (args ++ [arg]) ++ is ∧ Peeked env t₅ ∧
          t₅.rest.buf = [')']) →
        ∃ is, Resolved env locals s.rest.inp is t₅.rest.inp ∧
          Expr.localVarsList es = Expr.localVarsList args ++ is ∧ Peeked env t₅ ∧
          t₅.rest.buf = [')'] := by
      rintro t₄ t₅ es hcomma ⟨is, hrest, hes, hend⟩
      refine ⟨arg.localVars ++ ([] ++ is), harg.trans (h₃ ▸ hcomma.trans hrest), ?_, hend⟩
      rw [hes, localVarsList_append]
      simp [Expr.localVarsList]
    rw [Lib.wp_ite]
    refine ⟨fun hcomma => ?_, fun hne => ?_⟩
    · simp only [Lib.wp_bind]
      refine returns_getToken hpeek₃ fun t₄ h₄ _ => ?_
      refine returns_peekToken fun t₅ h₅ hpeek₅ => wp_token (returns_failIf fun _ => ?_)
      refine (ih (args ++ [arg]) fun _ => hpeek₅).mono fun es t₆ hes => ?_
      refine hnext t₅ t₆ es ?_ hes
      rw [hcomma] at h₄
      rw [h₅]
      exact .skip h₄ (by simp) rfl
    · refine (ih (args ++ [arg]) fun _ => hpeek₃).mono fun es t₄ hes => ?_
      exact hnext t₃ t₄ es (.refl _) hes

theorem parseFunctionCall_resolves (haux : Resolves env locals aux) (n level : ℕ)
    (hpeek : Peeked env s) (hlast : s.rest.buf.getLast? = some '(') :
    Returns (parseFunctionCall env max aux n level)
      (fun e t => Resolved env locals s.rest.inp e.localVars t.rest.inp) s := by
  have hne : s.rest.buf ≠ [] := by
    intro h
    rw [h] at hlast
    cases hlast
  have hident : isIdent s.rest.buf = false := by simp [isIdent, hlast]
  unfold parseFunctionCall
  simp only [Lib.wp_bind]
  refine returns_checkParseLevel fun t₁ h₁ => wp_token ?_
  have hpeek₁ : Peeked env t₁ := by
    unfold Peeked
    rw [h₁]
    exact hpeek
  refine returns_getToken hpeek₁ fun t₂ h₂ hbuf₂ => ?_
  rw [h₁] at h₂ hbuf₂
  have hname : Resolved env locals s.rest.inp [] t₂.rest.inp := .skip h₂ hne hident
  have hopen : t₂.rest.buf = [')'] → Peeked env t₂ := by
    intro h
    rw [hbuf₂] at h
    rw [h] at hlast
    cases hlast
  refine (argLoop_resolves haux _ level n [] hopen).mono
    fun args t₃ hloop => ?_
  obtain ⟨is, hargs, his, hpeek₃, hbuf₃⟩ := hloop
  refine returns_getToken hpeek₃ fun t₄ h₄ _ => ?_
  rw [hbuf₃] at h₄
  have hclose : Resolved env locals t₃.rest.inp [] t₄.rest.inp := .skip h₄ (by simp) rfl
  have hall : Resolved env locals s.rest.inp (Expr.localVarsList args) t₄.rest.inp := by
    have := (hname.trans hargs).trans hclose
    rw [his]
    simpa [Expr.localVarsList] using this
  cases env.findBuiltinFunc t₁.rest.buf.dropLast with
  | none => exact hall
  | some f =>
    simp only [Lib.wp_bind]
    exact returns_failIf fun _ => hall

theorem parseAtom_resolves (haux : Resolves env locals aux) (n level : ℕ) :
    Returns (parseAtom env max locals aux n level)
      (fun e t => Resolved env locals s.rest.inp e.localVars t.rest.inp) s := by
  unfold parseAtom
  simp only [Lib.wp_bind]
  refine returns_checkParseLevel fun t₁ h₁ => returns_peekToken fun t₂ h₂ hpeek₂ => wp_token ?_
  rw [h₁] at h₂
  rw [← h₂, Lib.wp_ite]
  refine ⟨fun hopen => ?_, fun _ => ?_⟩
  · simp only [Lib.wp_bind]
    refine returns_getToken hpeek₂ fun t₃ h₃ _ => (haux _ t₃).mono fun node t₄ hinner => ?_
    obtain ⟨hnode, hpeek₄⟩ := hinner
    refine wp_token (returns_failIf fun hclose => returns_getToken hpeek₄ fun t₅ h₅ _ => ?_)
    rw [hopen] at h₃
    rw [show t₄.rest.buf = [')'] by simpa using hclose] at h₅
    have hopen' : Resolved env locals t₂.rest.inp [] t₃.rest.inp := .skip h₃ (by simp) rfl
    have hclose' : Resolved env locals t₄.rest.inp [] t₅.rest.inp := .skip h₅ (by simp) rfl
    simpa using (hopen'.trans hnode).trans hclose'
  · cases htok : t₂.rest.buf with
    | nil => trivial
    | cons c tok =>
      dsimp only
      rw [Lib.wp_ite]
      refine ⟨fun _ => ?_, fun _ => ?_⟩
      · split_ifs <;> trivial
      rw [← htok, Lib.wp_ite]
      refine ⟨fun hlast => parseFunctionCall_resolves haux n (level + 1) hpeek₂ hlast,
        fun hlast => ?_⟩
      simp only [Lib.wp_bind]
      refine returns_getToken hpeek₂ fun t₃ h₃ _ => ?_
      cases hatom : makeAtom env locals t₂.rest.buf with
      | error r => trivial
      | ok node =>
        show Resolved env locals t₂.rest.inp node.localVars t₃.rest.inp
        rw [makeAtom_localVars hatom hlast]
        exact .token h₃ (by rw [htok]; simp)

theorem parseFactor_resolves (haux : Resolves env locals aux) (n level : ℕ) :
    Returns (parseFactor env max locals aux n level)
      (fun e t => Resolved env locals s.rest.inp e.localVars t.rest.inp) s := by
  induction n generalizing s level with
  | zero => trivial
  | succ n ih =>
    unfold parseFactor
    simp only [Lib.wp_bind]
    refine returns_checkParseLevel fun t₁ h₁ => returns_peekToken fun t₂ h₂ hpeek₂ => wp_token ?_
    rw [h₁] at h₂
    rw [← h₂, Lib.wp_ite]
    refine ⟨fun hop => ?_, fun _ => parseAtom_resolves haux n (level + 1)⟩
    simp only [Lib.wp_bind]
    refine returns_getToken hpeek₂ fun t₃ h₃ _ => (ih (level + 1)).mono fun node t₄ hnode => ?_
    show Resolved env locals _ (applyUnary t₂.rest.buf node).localVars _
    rw [applyUnary_localVars]
    have hskip : Resolved env locals t₂.rest.inp [] t₃.rest.inp := by
      rcases hop with h | h | h <;> rw [h] at h₃ <;> exact .skip h₃ (by simp) rfl
    exact hskip.trans hnode

theorem termOperand_resolves (haux : Resolves env locals aux) (n : ℕ) :
    Resolves env locals (termOperand env max locals aux n) := by
  intro level s
  unfold termOperand
  simp only [Lib.wp_bind]
  refine (parseFactor_resolves haux n level).mono fun node t₁ h₁ => ?_
  refine returns_peekToken fun t₂ h₂ hpeek₂ => ?_
  exact ⟨h₂ ▸ h₁, hpeek₂⟩

/-- The operators of a level are no identifiers, and their nodes have the local variables of the
operands. -/
def OpsOrdered (ops : List (List Char × (Expr → Expr → Expr))) : Prop :=
  ∀ p ∈ ops, p.1 ≠ [] ∧ isIdent p.1 = false ∧
    ∀ a b, (p.2 a b).localVars = a.localVars ++ b.localVars

theorem binaryLoop_resolves {operand : ParseM Expr}
    (hop : ∀ s, Returns operand
      (fun e t => Resolved env locals s.rest.inp e.localVars t.rest.inp ∧ Peeked env t) s)
    (hops : OpsOrdered ops) (n : ℕ) (node : Expr) (hpeek : Peeked env s)
    (hnode : Resolved env locals inp node.localVars s.rest.inp) :
    Returns (binaryLoop env ops operand n node)
      (fun e t => Resolved env locals inp e.localVars t.rest.inp ∧ Peeked env t) s := by
  induction n generalizing s node with
  | zero => trivial
  | succ n ih =>
    unfold binaryLoop
    simp only [Lib.wp_bind]
    refine wp_token ?_
    cases hl : ops.lookup s.rest.buf with
    | none => exact ⟨hnode, hpeek⟩
    | some op =>
      obtain ⟨ops₁, ops₂, hsplit, -⟩ := List.lookup_eq_some_iff.mp hl
      obtain ⟨hne, hident, hvars⟩ := hops (s.rest.buf, op) (by simp [hsplit])
      simp only [Lib.wp_bind]
      refine returns_getToken hpeek fun t₁ h₁ _ => (hop t₁).mono fun right t₂ hright => ?_
      obtain ⟨h₂, hpeek₂⟩ := hright
      refine ih _ hpeek₂ ?_
      have hskip : Resolved env locals s.rest.inp [] t₁.rest.inp := .skip h₁ hne hident
      rw [hvars]
      simpa using (hnode.trans hskip).trans h₂

/-- A level of the grammar, over the level below it. -/
theorem binaryLevel_resolves {operand : ℕ → ParseM Expr} (hop : Resolves env locals operand)
    (hops : OpsOrdered ops) (n : ℕ) :
    Resolves env locals (binaryLevel env max ops operand n) := by
  intro level s
  unfold binaryLevel
  simp only [Lib.wp_bind]
  refine returns_checkParseLevel fun t₁ h₁ => (hop _ t₁).mono fun node t₂ hnode => ?_
  obtain ⟨h₂, hpeek⟩ := hnode
  exact binaryLoop_resolves (hop (level + 1)) hops n node hpeek (h₁ ▸ h₂)

theorem grammar_ordered : ∀ ops ∈ [termOps, cmpOps, eqOps, andOps, orOps, exprOps],
    OpsOrdered ops := by
  simp only [OpsOrdered, termOps, cmpOps, eqOps, andOps, orOps, exprOps, List.forall_mem_cons]
  simp +decide [Expr.localVars]

theorem parseExpressionAux_resolves (n : ℕ) :
    Resolves env locals (parseExpressionAux env max locals n) := by
  induction n with
  | zero => exact fun level s => trivial
  | succ n ih =>
    have hops := grammar_ordered
    simp only [List.forall_mem_cons] at hops
    obtain ⟨h1, h2, h3, h4, h5, h6, -⟩ := hops
    have hterm : Resolves env locals (parseTermExpr env max locals _ n) :=
      binaryLevel_resolves (termOperand_resolves ih n) h1 n
    have hcmp := @binaryLevel_resolves env max locals cmpOps _ hterm h2 n
    have heq := @binaryLevel_resolves env max locals eqOps _ hcmp h3 n
    have hand := @binaryLevel_resolves env max locals andOps _ heq h4 n
    have hor := @binaryLevel_resolves env max locals orOps _ hand h5 n
    exact binaryLevel_resolves hor h6 n

/-- A tree that `parse_expression` returns is that of `parse_expression_aux`, at the end of the text
or before a `]`. -/
theorem parseExpression_ok {g : ParserGlobals} {e : Expr} {pos : List Char}
    (h : (parseExpression env max locals inp g).1 = .ok (e, pos)) : ∃ t,
      parseExpressionAux env max locals (inp.length + 3) 0
        ⟨⟨inp, g.exprBuf⟩, g.parseLevelHighWater⟩ = .ok e t ∧
      t.rest.inp.dropWhile isEmptyChar = pos ∧ (pos = [] ∨ pos.head? = some ']') := by
  unfold parseExpression at h
  by_cases hd : env.disabled = true
  · rw [if_pos hd] at h
    cases h
  rw [if_neg hd] at h
  cases hrun : parseExpressionAux env max locals (inp.length + 3) 0
      ⟨⟨inp, g.exprBuf⟩, g.parseLevelHighWater⟩ with
  | error e t =>
    rw [hrun] at h
    cases h
  | ok node t =>
    rw [hrun] at h
    unfold endOfExpression at h
    dsimp only at h
    split_ifs at h with hend
    cases h
    exact ⟨t, rfl, rfl, hend⟩

/-- **parse_expression** makes the local variables of a text of its identifiers, where it reads the
text to the end. -/
theorem parseExpression_localVars {g : ParserGlobals} {e : Expr}
    (h : (parseExpression env max locals inp g).1 = .ok (e, [])) :
    e.localVars = (bodyIdents env.seps.timeSep inp).filterMap (fun tok =>
      locals.findIdx? (sameName tok)) := by
  obtain ⟨t, hrun, hrest, -⟩ := parseExpression_ok h
  obtain ⟨⟨toks, hread, hvars⟩, -⟩ := (parseExpressionAux_resolves _ 0 _).ok hrun
  rw [← hvars, bodyIdents, hread.eq_exprTokens hrest, List.filterMap_filter]
  rfl

end Parser

end Remind
