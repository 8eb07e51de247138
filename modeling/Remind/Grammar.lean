import Remind.Idents

/-!
# Grammar — the grammar of expressions, and the parser against it (expr.c: `parse_expression`)

The grammar is over tokens.  Level 0 is a factor; level `l + 1` has the binary operators of
`levelOps l`, the tightest first.  The parser returns a tree exactly where the tokens that it has
read derive it.
-/

namespace Remind

open Lib (Wp)

/-- The binary operators of a level. -/
def levelOps : ℕ → List (List Char × (Expr → Expr → Expr))
  | 0 => termOps
  | 1 => cmpOps
  | 2 => eqOps
  | 3 => andOps
  | 4 => orOps
  | 5 => exprOps
  | _ => []

/-- The node of a call: a built-in function takes the number of arguments that it is made for. -/
def callNode (env : ParserEnv) (name : List Char) (args : List Expr) : Option Expr :=
  match env.findBuiltinFunc name with
  | some f =>
    if f.minargs ≤ args.length ∧ tooManyArgs (some f) args.length = false then
      some (.builtin f args)
    else none
  | none => some (.user ((name.take maxNameLen).map Char.toLower) args)

/-- The tokens between the parentheses of a call. -/
def commas (args : List (List (List Char))) : List (List Char) := [[',']].intercalate args

/-- At level `l` these tokens are an expression with this tree. -/
inductive Derives (env : ParserEnv) (locals : List (List Char)) :
    ℕ → List (List Char) → Expr → Prop
  | atom {tok : List Char} {e : Expr} (hfirst : BeginsAtom tok) (hlast : tok.getLast? ≠ some '(')
      (h : makeAtom env locals tok = .ok e) : Derives env locals 0 [tok] e
  | paren {toks : List (List Char)} {e : Expr} (h : Derives env locals 6 toks e) :
      Derives env locals 0 (['('] :: (toks ++ [[')']])) e
  | call {name : List Char} {args : List (List (List Char) × Expr)} {e : Expr}
      (hfirst : BeginsAtom (name ++ ['('])) (hargs : ∀ p ∈ args, Derives env locals 6 p.1 p.2)
      (h : callNode env name (args.map Prod.snd) = some e) :
      Derives env locals 0 ((name ++ ['(']) :: (commas (args.map Prod.fst) ++ [[')']])) e
  | unary {op : List Char} {toks : List (List Char)} {e : Expr}
      (hop : op = ['!'] ∨ op = ['-'] ∨ op = ['+']) (h : Derives env locals 0 toks e) :
      Derives env locals 0 (op :: toks) (applyUnary op e)
  | operand {l : ℕ} {toks : List (List Char)} {e : Expr} (h : Derives env locals l toks e) :
      Derives env locals (l + 1) toks e
  | binary {l : ℕ} {left right : List (List Char)} {tok : List Char} {op : Expr → Expr → Expr}
      {a b : Expr} (hop : (levelOps l).lookup tok = some op)
      (ha : Derives env locals (l + 1) left a) (hb : Derives env locals l right b) :
      Derives env locals (l + 1) (left ++ tok :: right) (op a b)

section Tokens

variable {sep : Char} {inp inp' : List Char} {toks toks' : List (List Char)} {tok : List Char}

theorem readsTokens_nil : ReadsTokens sep inp [] inp' ↔ inp = inp' :=
  ⟨fun h => by cases h; rfl, fun h => h ▸ .nil inp⟩

theorem readsTokens_cons : ReadsTokens sep inp (tok :: toks) inp' ↔
    ∃ inp₁, parseExprToken sep inp = .ok (tok, inp₁) ∧ tok ≠ [] ∧ ReadsTokens sep inp₁ toks inp' :=
  ⟨fun h => by cases h with | cons hp hne h => exact ⟨_, hp, hne, h⟩,
    fun ⟨_, hp, hne, h⟩ => .cons hp hne h⟩

theorem readsTokens_append : ReadsTokens sep inp (toks ++ toks') inp' ↔
    ∃ inp₁, ReadsTokens sep inp toks inp₁ ∧ ReadsTokens sep inp₁ toks' inp' := by
  induction toks generalizing inp with
  | nil => simp [readsTokens_nil]
  | cons tok toks ih =>
    simp only [List.cons_append, readsTokens_cons, ih]
    constructor
    · rintro ⟨inp₁, hp, hne, inp₂, h, h'⟩
      exact ⟨inp₂, ⟨inp₁, hp, hne, h⟩, h'⟩
    · rintro ⟨inp₂, ⟨inp₁, hp, hne, h⟩, h'⟩
      exact ⟨inp₁, hp, hne, inp₂, h, h'⟩

/-- The token that is read next. -/
def NextToken (sep : Char) (inp tok : List Char) : Prop :=
  ∃ rest, parseExprToken sep inp = .ok (tok, rest)

theorem ReadsTokens.next (h : ReadsTokens sep inp (tok :: toks) inp') : NextToken sep inp tok := by
  obtain ⟨rest, hp, -⟩ := readsTokens_cons.1 h
  exact ⟨rest, hp⟩

theorem NextToken.unique (h : NextToken sep inp tok) {tok' : List Char}
    (h' : NextToken sep inp tok') : tok = tok' := by
  obtain ⟨rest, hp⟩ := h
  obtain ⟨rest', hp'⟩ := h'
  rw [hp] at hp'
  exact (Prod.mk.inj (Except.ok.inj hp')).1

theorem commas_cons {t : List (List Char)} {ts : List (List (List Char))} (hne : ts ≠ []) :
    commas (t :: ts) = t ++ [','] :: commas ts := by
  obtain ⟨t', ts, rfl⟩ := List.exists_cons_of_ne_nil hne
  simp [commas, List.intercalate, List.intersperse]

@[simp] theorem commas_nil : commas [] = [] := rfl

@[simp] theorem commas_one (t : List (List Char)) : commas [t] = t := by
  simp [commas, List.intercalate, List.intersperse]

end Tokens

/-! ### What the parser returns is derived -/

section Sound

variable {env : ParserEnv} {max : Option ℕ} {locals : List (List Char)} {aux : ℕ → ParseM Expr}
  {s : Lib.Marked ParseState} {inp inp' : List Char}

/-- Between the two texts stands an expression of level `l` with this tree. -/
def Spans (env : ParserEnv) (locals : List (List Char)) (l : ℕ) (inp : List Char) (e : Expr)
    (inp' : List Char) : Prop :=
  ∃ toks, ReadsTokens env.seps.timeSep inp toks inp' ∧ Derives env locals l toks e

/-- What the computation returns is derived from the tokens that it has taken. -/
def ReturnsDerived (env : ParserEnv) (locals : List (List Char)) (l : ℕ) (x : ℕ → ParseM Expr) :
    Prop :=
  ∀ level s, Returns (x level)
    (fun e t => Spans env locals l s.rest.inp e t.rest.inp ∧ Peeked env t) s

theorem tooManyArgs_zero (f : Option BuiltinFunc) : tooManyArgs f 0 = false := by
  unfold tooManyArgs
  cases f.bind (·.maxargs) <;> simp

theorem argLoop_derived (haux : ReturnsDerived env locals 6 aux) (f : Option BuiltinFunc)
    (level n : ℕ) (args : List Expr) (hbuf : s.rest.buf = [')'] → Peeked env s) :
    Returns (argLoop env aux f level n args) (fun es t =>
      Peeked env t ∧ t.rest.buf = [')'] ∧
      ∃ new : List (List (List Char) × Expr), es = args ++ new.map Prod.snd ∧
        (∀ p ∈ new, Derives env locals 6 p.1 p.2) ∧
        ReadsTokens env.seps.timeSep s.rest.inp (commas (new.map Prod.fst)) t.rest.inp ∧
        (new ≠ [] → tooManyArgs f es.length = false) ∧
        (Peeked env s → (new = [] ↔ s.rest.buf = [')']))) s := by
  induction n generalizing s args with
  | zero => trivial
  | succ n ih =>
    unfold argLoop
    simp only [Lib.wp_bind]
    refine wp_token ?_
    rw [Lib.wp_ite]
    refine ⟨fun hclose => ?_, fun hopen => ?_⟩
    · exact ⟨hbuf hclose, hclose, [], (List.append_nil _).symm, nofun, .nil _, fun h => absurd rfl h,
        fun _ => ⟨fun _ => hclose, fun _ => rfl⟩⟩
    simp only [Lib.wp_bind]
    refine returns_peekToken fun t₁ h₁ hpeek₁ => wp_token ?_
    have hsame (hs : Peeked env s) : s.rest.buf = t₁.rest.buf := by
      unfold Peeked at hpeek₁
      rw [h₁] at hpeek₁
      exact NextToken.unique hs hpeek₁
    rw [Lib.wp_ite]
    refine ⟨fun hclose => ?_, fun _ => ?_⟩
    · refine (ih args fun _ => hpeek₁).mono ?_
      rintro es t ⟨hpeek, hend, new, hes, hnew, hread, hmany, -⟩
      exact ⟨hpeek, hend, new, hes, hnew, h₁ ▸ hread, hmany,
        fun hs => absurd ((hsame hs).trans hclose) hopen⟩
    refine (Lib.wp_bind _ _ _).mpr ((haux _ t₁).mono fun arg t₂ ⟨⟨toks, hread, harg⟩, hpeek₂⟩ => ?_)
    rw [h₁] at hread
    simp only [Lib.wp_bind]
    refine returns_failIf fun hmany => returns_peekToken fun t₃ h₃ hpeek₃ => wp_token ?_
    refine returns_failIf fun htok => ?_
    rw [Lib.wp_ite]
    refine ⟨fun hcomma => ?_, fun hne => ?_⟩
    · -- another argument must follow
      simp only [Lib.wp_bind]
      refine returns_getToken hpeek₃ fun t₄ h₄ _ => returns_peekToken fun t₅ h₅ hpeek₅ =>
        wp_token (returns_failIf fun hmore => ?_)
      refine (ih (args ++ [arg]) fun _ => hpeek₅).mono ?_
      rintro es t ⟨hpeek, hend, new, rfl, hnew, hread', hmany', hnil⟩
      have hne : new ≠ [] := fun h => by simp [(hnil hpeek₅).1 h] at hmore
      refine ⟨hpeek, hend, (toks, arg) :: new, by simp, List.forall_mem_cons.2 ⟨harg, hnew⟩, ?_,
        fun _ => hmany' hne, fun _ => ⟨nofun, fun h => absurd h hopen⟩⟩
      rw [List.map_cons, commas_cons (by simpa using hne), readsTokens_append]
      rw [h₅] at hread'
      rw [hcomma, h₃] at h₄
      exact ⟨_, hread, .cons h₄ (by simp) hread'⟩
    · have hclose : t₃.rest.buf = [')'] := by simpa [hne] using htok
      refine (ih (args ++ [arg]) fun _ => hpeek₃).mono ?_
      rintro es t ⟨hpeek, hend, new, rfl, hnew, hread', -, hnil⟩
      obtain rfl : new = [] := (hnil hpeek₃).2 hclose
      rw [List.map_nil, commas_nil, readsTokens_nil, h₃] at hread'
      refine ⟨hpeek, hend, [(toks, arg)], by simp, List.forall_mem_singleton.2 harg, ?_, fun _ => ?_,
        fun _ => ⟨nofun, fun h => absurd h hopen⟩⟩
      · rw [List.map_singleton, commas_one, ← hread']
        exact hread
      · simpa using hmany

theorem parseFunctionCall_derived (haux : ReturnsDerived env locals 6 aux) (n level : ℕ)
    (hpeek : Peeked env s) (hfirst : BeginsAtom s.rest.buf)
    (hlast : s.rest.buf.getLast? = some '(') :
    Returns (parseFunctionCall env max aux n level)
      (fun e t => Spans env locals 0 s.rest.inp e t.rest.inp) s := by
  obtain ⟨name, hname⟩ : ∃ name, s.rest.buf = name ++ ['('] :=
    ⟨_, (List.dropLast_append_getLast? _ hlast).symm⟩
  unfold parseFunctionCall
  simp only [Lib.wp_bind]
  refine returns_checkParseLevel fun t₁ h₁ => wp_token ?_
  rw [show t₁.rest.buf.dropLast = name by rw [h₁, hname, List.dropLast_concat]]
  have hpeek₁ : Peeked env t₁ := by
    unfold Peeked
    rw [h₁]
    exact hpeek
  refine returns_getToken hpeek₁ fun t₂ h₂ hbuf₂ => ?_
  rw [h₁, hname] at h₂ hbuf₂
  have hopen : t₂.rest.buf ≠ [')'] := by
    intro h
    rw [hbuf₂] at h
    have := congrArg List.getLast? h
    simp at this
  refine (argLoop_derived haux _ level n [] (absurd · hopen)).mono ?_
  rintro args t₃ ⟨hpeek₃, hbuf₃, new, rfl, hnew, hread, hmany, -⟩
  refine returns_getToken hpeek₃ fun t₄ h₄ _ => ?_
  rw [hbuf₃] at h₄
  have htoks : ReadsTokens env.seps.timeSep s.rest.inp
      ((name ++ ['(']) :: (commas (new.map Prod.fst) ++ [[')']])) t₄.rest.inp :=
    .cons h₂ (by simp) (readsTokens_append.2 ⟨_, hread, .cons h₄ (by simp) (.nil _)⟩)
  have hcall (e : Expr) (he : callNode env name (new.map Prod.snd) = some e) :
      Spans env locals 0 s.rest.inp e t₄.rest.inp :=
    ⟨_, htoks, .call (hname ▸ hfirst) hnew he⟩
  rw [List.nil_append] at hmany ⊢
  cases hf : env.findBuiltinFunc name with
  | none => exact hcall _ (by rw [callNode, hf])
  | some f =>
    rw [hf] at hmany
    simp only [Lib.wp_bind]
    refine returns_failIf fun hfew => hcall _ ?_
    rw [callNode, hf]
    refine if_pos ⟨by simpa using hfew, ?_⟩
    rcases eq_or_ne new [] with rfl | hne
    · exact tooManyArgs_zero _
    · exact hmany hne

theorem parseAtom_derived (haux : ReturnsDerived env locals 6 aux) (n level : ℕ) :
    Returns (parseAtom env max locals aux n level)
      (fun e t => Spans env locals 0 s.rest.inp e t.rest.inp) s := by
  unfold parseAtom
  simp only [Lib.wp_bind]
  refine returns_checkParseLevel fun t₁ h₁ => returns_peekToken fun t₂ h₂ hpeek₂ => wp_token ?_
  rw [h₁] at h₂
  rw [← h₂, Lib.wp_ite]
  refine ⟨fun hopen => ?_, fun _ => ?_⟩
  · simp only [Lib.wp_bind]
    refine returns_getToken hpeek₂ fun t₃ h₃ _ => (haux _ t₃).mono ?_
    rintro e t₄ ⟨⟨toks, hread, he⟩, hpeek₄⟩
    refine wp_token (returns_failIf fun hclose => returns_getToken hpeek₄ fun t₅ h₅ _ => ?_)
    rw [hopen] at h₃
    rw [show t₄.rest.buf = [')'] by simpa using hclose] at h₅
    exact ⟨_, .cons h₃ (by simp) (readsTokens_append.2 ⟨_, hread, .cons h₅ (by simp) (.nil _)⟩),
      .paren he⟩
  · cases htok : t₂.rest.buf with
    | nil => trivial
    | cons c tok =>
      dsimp only
      rw [Lib.wp_ite]
      refine ⟨fun _ => ?_, fun hid => ?_⟩
      · split_ifs <;> trivial
      have hfirst : BeginsAtom t₂.rest.buf := by
        refine ⟨c, tok, htok, ?_⟩
        by_contra hnot
        simp only [not_or] at hnot
        exact hid (by simp [hnot])
      rw [← htok, Lib.wp_ite]
      refine ⟨fun hlast => parseFunctionCall_derived haux n (level + 1) hpeek₂ hfirst hlast,
        fun hlast => ?_⟩
      simp only [Lib.wp_bind]
      refine returns_getToken hpeek₂ fun t₃ h₃ _ => ?_
      cases hatom : makeAtom env locals t₂.rest.buf with
      | error r => trivial
      | ok e => exact ⟨_, .cons h₃ (by simp [htok]) (.nil _), .atom hfirst hlast hatom⟩

theorem parseFactor_derived (haux : ReturnsDerived env locals 6 aux) (n level : ℕ) :
    Returns (parseFactor env max locals aux n level)
      (fun e t => Spans env locals 0 s.rest.inp e t.rest.inp) s := by
  induction n generalizing s level with
  | zero => trivial
  | succ n ih =>
    unfold parseFactor
    simp only [Lib.wp_bind]
    refine returns_checkParseLevel fun t₁ h₁ => returns_peekToken fun t₂ h₂ hpeek₂ => wp_token ?_
    rw [h₁] at h₂
    rw [← h₂, Lib.wp_ite]
    refine ⟨fun hop => ?_, fun _ => parseAtom_derived haux n (level + 1)⟩
    simp only [Lib.wp_bind]
    refine returns_getToken hpeek₂ fun t₃ h₃ _ => (ih (level + 1)).mono ?_
    rintro e t₄ ⟨toks, hread, he⟩
    have hne : t₂.rest.buf ≠ [] := by rcases hop with h | h | h <;> rw [h] <;> simp
    exact ⟨_, .cons h₃ hne hread, .unary hop he⟩

theorem binaryLoop_derived {l : ℕ} {operand : ℕ → ParseM Expr}
    (hop : ReturnsDerived env locals l operand) (hops : (levelOps l).lookup [] = none)
    (level n : ℕ) (node : Expr) (hpeek : Peeked env s)
    (hnode : Spans env locals (l + 1) inp node s.rest.inp) :
    Returns (binaryLoop env (levelOps l) (operand level) n node)
      (fun e t => Spans env locals (l + 1) inp e t.rest.inp ∧ Peeked env t) s := by
  induction n generalizing s node with
  | zero => trivial
  | succ n ih =>
    unfold binaryLoop
    simp only [Lib.wp_bind]
    refine wp_token ?_
    cases hl : (levelOps l).lookup s.rest.buf with
    | none => exact ⟨hnode, hpeek⟩
    | some op =>
      have hne : s.rest.buf ≠ [] := by
        intro h
        rw [h, hops] at hl
        cases hl
      simp only [Lib.wp_bind]
      refine returns_getToken hpeek fun t₁ h₁ _ => (hop level t₁).mono ?_
      rintro right t₂ ⟨⟨toks, hread, hright⟩, hpeek₂⟩
      obtain ⟨left, hread', hleft⟩ := hnode
      exact ih _ hpeek₂ ⟨_, readsTokens_append.2 ⟨_, hread', .cons h₁ hne hread⟩,
        .binary hl hleft hright⟩

/-- A level of the grammar, over the level below it. -/
theorem binaryLevel_derived {l : ℕ} {operand : ℕ → ParseM Expr}
    (hop : ReturnsDerived env locals l operand) (hops : (levelOps l).lookup [] = none) (n : ℕ) :
    ReturnsDerived env locals (l + 1) (binaryLevel env max (levelOps l) operand n) := by
  intro level s
  unfold binaryLevel
  simp only [Lib.wp_bind]
  refine returns_checkParseLevel fun t₁ h₁ => (hop _ t₁).mono fun e t₂ h₂ => ?_
  obtain ⟨⟨toks, hread, he⟩, hpeek⟩ := h₂
  exact binaryLoop_derived hop hops _ n e hpeek ⟨toks, h₁ ▸ hread, .operand he⟩

/-- The parser of a level. -/
def levelParser (env : ParserEnv) (max : Option ℕ) (locals : List (List Char))
    (aux : ℕ → ParseM Expr) (n : ℕ) : ℕ → ℕ → ParseM Expr
  | 0 => termOperand env max locals aux n
  | l + 1 => binaryLevel env max (levelOps l) (levelParser env max locals aux n l) n

theorem levelOps_nil (l : ℕ) : (levelOps l).lookup [] = none := by
  unfold levelOps
  split <;> rfl

theorem levelParser_derived (haux : ReturnsDerived env locals 6 aux) (n l : ℕ) :
    ReturnsDerived env locals l (levelParser env max locals aux n l) := by
  induction l with
  | zero =>
    intro level s
    unfold levelParser termOperand
    simp only [Lib.wp_bind]
    refine (parseFactor_derived haux n level).mono fun e t₁ h₁ => ?_
    exact returns_peekToken fun t₂ h₂ hpeek₂ => ⟨h₂ ▸ h₁, hpeek₂⟩
  | succ l ih => exact binaryLevel_derived ih (levelOps_nil l) n

theorem parseExpressionAux_eq (n : ℕ) :
    parseExpressionAux env max locals (n + 1) =
      levelParser env max locals (parseExpressionAux env max locals n) n 6 := rfl

theorem parseExpressionAux_derived (n : ℕ) :
    ReturnsDerived env locals 6 (parseExpressionAux env max locals n) := by
  induction n with
  | zero => exact fun level s => trivial
  | succ n ih =>
    rw [@parseExpressionAux_eq env max locals n]
    exact levelParser_derived ih n 6

end Sound

/-! ### What is derived is returned -/

section Complete

variable {env : ParserEnv} {max : Option ℕ} {locals : List (List Char)} {aux : ℕ → ParseM Expr}
  {s : Lib.Marked ParseState} {inp inp' tok : List Char} {l : ℕ} {toks : List (List Char)} {e : Expr}

/-- The errors of a parse of derived tokens: no fuel, or too deep. -/
def LimitErr (max : Option ℕ) (r : ErrCode) : Prop := r = .diverges ∨ max ≠ none ∧ r = .opStkOver

theorem limit_check {level : ℕ} {Q : Unit → Lib.Marked ParseState → Prop}
    (h : ∀ t, t.rest = s.rest → Q () t) : Wp (checkParseLevel max level) Q (LimitErr max) s :=
  Lib.wp_checkDepth (fun hmax => .inr ⟨hmax, rfl⟩) fun _ => h _ rfl

theorem limit_peek {Q : Unit → Lib.Marked ParseState → Prop}
    (hnext : NextToken env.seps.timeSep s.rest.inp tok)
    (h : ∀ t, t.rest = ⟨s.rest.inp, tok⟩ → Q () t) : Wp (peekToken env) Q (LimitErr max) s := by
  obtain ⟨rest, hp⟩ := hnext
  exact wp_peekToken_eq hp (h _ rfl)

theorem limit_get {Q : Unit → Lib.Marked ParseState → Prop} {rest : List Char}
    (hp : parseExprToken env.seps.timeSep s.rest.inp = .ok (tok, rest))
    (h : ∀ t, t.rest = ⟨rest, tok⟩ → Q () t) : Wp (getToken env) Q (LimitErr max) s :=
  wp_getToken_eq hp (h _ rfl)

theorem limit_failIf {b : Bool} {r : ErrCode} {Q : Unit → Lib.Marked ParseState → Prop}
    (hb : b = false) (h : Q () s) : Wp (failIf b r) Q (LimitErr max) s := by
  rw [hb]
  exact h

/-- The token is no operator of a level below `l`. -/
def NoOpBelow (l : ℕ) (tok : List Char) : Prop := ∀ j < l, (levelOps j).lookup tok = none

/-- The computation takes the tokens and returns the tree, if no operator that could belong to it
comes next. -/
def Takes (env : ParserEnv) (max : Option ℕ) (l : ℕ) (x : ℕ → ParseM Expr)
    (toks : List (List Char)) (e : Expr) : Prop :=
  ∀ level s inp' tok, ReadsTokens env.seps.timeSep s.rest.inp toks inp' →
    NextToken env.seps.timeSep inp' tok → NoOpBelow l tok →
    Wp (x level) (fun e' t => e' = e ∧ t.rest = ⟨inp', tok⟩) (LimitErr max) s

/-- What the parser of a level does with the tokens: a factor is taken, and an expression with
operators is where the loop over these operators goes on from. -/
def TakenAt (env : ParserEnv) (max : Option ℕ) (locals : List (List Char)) :
    ℕ → List (List Char) → Expr → Prop
  | 0, toks, e => ∀ n m level s inp', ReadsTokens env.seps.timeSep s.rest.inp toks inp' →
      Wp (parseFactor env max locals (parseExpressionAux env max locals n) m level)
        (fun e' t => e' = e ∧ t.rest.inp = inp') (LimitErr max) s
  | l + 1, toks, e => ∀ n level s inp' tok Q, ReadsTokens env.seps.timeSep s.rest.inp toks inp' →
      NextToken env.seps.timeSep inp' tok → NoOpBelow l tok →
      (∀ m t, t.rest = ⟨inp', tok⟩ →
        Wp (binaryLoop env (levelOps l)
          (levelParser env max locals (parseExpressionAux env max locals n) n l (level + 1)) m e) Q
          (LimitErr max) t) →
      Wp (levelParser env max locals (parseExpressionAux env max locals n) n (l + 1) level) Q
        (LimitErr max) s

theorem binaryLoop_stops {ops : List (List Char × (Expr → Expr → Expr))} {operand : ParseM Expr}
    {Q : Expr → Lib.Marked ParseState → Prop} (hops : ops.lookup s.rest.buf = none) (hQ : Q e s)
    (m : ℕ) : Wp (binaryLoop env ops operand m e) Q (LimitErr max) s := by
  cases m with
  | zero => exact .inl rfl
  | succ m =>
    unfold binaryLoop
    simp only [Lib.wp_bind]
    refine wp_token ?_
    simp only [hops]
    exact hQ

theorem TakenAt.takes (h : TakenAt env max locals l toks e) (n : ℕ) :
    Takes env max l (levelParser env max locals (parseExpressionAux env max locals n) n l) toks e := by
  intro level s inp' tok hread hnext hno
  cases l with
  | zero =>
    unfold levelParser termOperand
    simp only [Lib.wp_bind]
    refine (h n n level s inp' hread).mono ?_
    rintro _ t ⟨rfl, rfl⟩
    exact limit_peek hnext fun t' ht' => ⟨rfl, ht'⟩
  | succ l =>
    refine h n level s inp' tok _ hread hnext (fun j hj => hno j (by omega)) fun m t ht => ?_
    exact binaryLoop_stops (by rw [ht]; exact hno l (by omega)) ⟨rfl, ht⟩ m

theorem TakenAt.aux_takes (h : TakenAt env max locals 6 toks e) (n : ℕ) :
    Takes env max 6 (parseExpressionAux env max locals n) toks e := by
  cases n with
  | zero => exact fun _ _ _ _ _ _ _ => .inl rfl
  | succ n =>
    rw [@parseExpressionAux_eq env max locals n]
    exact h.takes n

theorem BeginsAtom.ne {c : Char} (h : BeginsAtom tok)
    (hc : isId c = false ∧ c ≠ '$' ∧ c ≠ '"' ∧ c ≠ '\'') : tok ≠ [c] := by
  obtain ⟨d, t, rfl, hd⟩ := h
  rintro ht
  rw [(List.cons.inj ht).1, hc.1] at hd
  simp [hc] at hd

theorem BeginsAtom.not_unary (h : BeginsAtom tok) :
    ¬ (tok = ['!'] ∨ tok = ['-'] ∨ tok = ['+']) := by
  rintro (hop | hop | hop)
  · exact h.ne (by decide) hop
  · exact h.ne (by decide) hop
  · exact h.ne (by decide) hop

/-- An expression begins with a token other than `)`. -/
theorem Derives.head (h : Derives env locals l toks e) :
    ∃ tok rest, toks = tok :: rest ∧ tok ≠ [')'] := by
  induction h with
  | atom hfirst _ _ => exact ⟨_, _, rfl, hfirst.ne (by decide)⟩
  | paren _ _ => exact ⟨_, _, rfl, by simp⟩
  | call hfirst _ _ _ => exact ⟨_, _, rfl, hfirst.ne (by decide)⟩
  | unary hop _ _ => exact ⟨_, _, rfl, by rcases hop with h | h | h <;> rw [h] <;> simp⟩
  | operand _ ih => exact ih
  | binary _ _ _ ih _ =>
    obtain ⟨tok, rest, rfl, hne⟩ := ih
    exact ⟨tok, _, rfl, hne⟩

theorem tooManyArgs_mono {f : Option BuiltinFunc} {m n : ℕ} (hmn : m ≤ n)
    (h : tooManyArgs f n = false) : tooManyArgs f m = false := by
  unfold tooManyArgs at h ⊢
  cases hf : f.bind (·.maxargs) with
  | none => rfl
  | some k =>
    simp only [hf, Option.map_some, Option.getD_some, decide_eq_false_iff_not] at h ⊢
    omega

/-- The tokens of the operators of a level. -/
def opTokens (l : ℕ) : List (List Char) := (levelOps l).map Prod.fst

theorem mem_opTokens {op : Expr → Expr → Expr} (h : (levelOps l).lookup tok = some op) :
    tok ∈ opTokens l ∧ l < 6 := by
  obtain ⟨ops₁, ops₂, hsplit, -⟩ := List.lookup_eq_some_iff.1 h
  refine ⟨by simp [opTokens, hsplit], ?_⟩
  by_contra hl
  have hnil : levelOps l = [] := by
    unfold levelOps
    split <;> first | omega | rfl
  rw [hnil] at h
  cases h

/-- The operators of a level are not those of another. -/
theorem noOpBelow_op {op : Expr → Expr → Expr} (h : (levelOps l).lookup tok = some op) :
    NoOpBelow l tok := by
  have hapart : ∀ l < 6, ∀ j < l, ∀ t ∈ opTokens l, t ∉ opTokens j := by decide
  intro j hj
  obtain ⟨htok, hl⟩ := mem_opTokens h
  cases hlook : (levelOps j).lookup tok with
  | none => rfl
  | some op' => exact absurd (mem_opTokens hlook).1 (hapart l hl j hj tok htok)

theorem noOpBelow_of_mem {l : ℕ} (htok : ∀ j < 6, tok ∉ opTokens j) : NoOpBelow l tok := by
  intro j _
  cases hlook : (levelOps j).lookup tok with
  | none => rfl
  | some op => exact absurd (mem_opTokens hlook).1 (htok j (mem_opTokens hlook).2)

theorem argLoop_takes {new : List (List (List Char) × Expr)} (f : Option BuiltinFunc) (level n : ℕ)
    (args : List Expr) (haux : ∀ p ∈ new, Takes env max 6 aux p.1 p.2)
    (hhead : ∀ p ∈ new, ∃ tok rest, p.1 = tok :: rest ∧ tok ≠ [')'])
    (hmany : tooManyArgs f (args.length + new.length) = false)
    (hread : ReadsTokens env.seps.timeSep s.rest.inp (commas (new.map Prod.fst) ++ [[')']]) inp')
    (hbuf : s.rest.buf = [')'] → new = []) :
    Wp (argLoop env aux f level n args) (fun es t => es = args ++ new.map Prod.snd ∧
      ReadsTokens env.seps.timeSep t.rest.inp [[')']] inp') (LimitErr max) s := by
  induction n generalizing s args new with
  | zero => exact .inl rfl
  | succ n ih =>
    unfold argLoop
    simp only [Lib.wp_bind]
    refine wp_token ?_
    rw [Lib.wp_ite]
    refine ⟨fun hclose => ?_, fun hopen => ?_⟩
    · obtain rfl := hbuf hclose
      exact ⟨(List.append_nil _).symm, hread⟩
    simp only [Lib.wp_bind]
    cases new with
    | nil =>
      refine limit_peek hread.next fun t₁ h₁ => wp_token ?_
      rw [Lib.wp_ite, h₁]
      exact ⟨fun _ => ih args nofun nofun hmany (by rw [h₁]; exact hread) fun _ => rfl, absurd rfl⟩
    | cons p new =>
      obtain ⟨toks, arg⟩ := p
      obtain ⟨tok, rest, rfl, hne⟩ : ∃ tok rest, toks = tok :: rest ∧ tok ≠ [')'] :=
        hhead _ List.mem_cons_self
      obtain ⟨inp₁, harg, hrest⟩ : ∃ inp₁, ReadsTokens env.seps.timeSep s.rest.inp (tok :: rest) inp₁ ∧
          ReadsTokens env.seps.timeSep inp₁
            (if new = [] then [[')']] else [','] :: (commas (new.map Prod.fst) ++ [[')']])) inp' := by
        rcases eq_or_ne new [] with rfl | hnew
        · rw [List.map_singleton, commas_one, readsTokens_append] at hread
          exact hread
        · rw [List.map_cons, commas_cons (by simpa using hnew), List.append_assoc,
            readsTokens_append] at hread
          rw [if_neg hnew]
          exact hread
      have hlen : (args ++ [arg]).length + new.length = args.length + ((tok :: rest, arg) :: new).length := by
        simp only [List.length_append, List.length_cons, List.length_nil]
        omega
      rw [← hlen] at hmany
      have haux' := fun p hp => haux p (List.mem_cons_of_mem _ hp)
      have hhead' := fun p hp => hhead p (List.mem_cons_of_mem _ hp)
      have hes : args ++ ((tok :: rest, arg) :: new).map Prod.snd = (args ++ [arg]) ++ new.map Prod.snd := by
        simp
      rw [hes]
      refine limit_peek harg.next fun t₁ h₁ => wp_token ?_
      rw [Lib.wp_ite, h₁]
      refine ⟨fun h => absurd h hne, fun _ => ?_⟩
      have hmany₁ : tooManyArgs f (args.length + 1) = false :=
        tooManyArgs_mono (by rw [List.length_append, List.length_singleton]; omega) hmany
      rcases eq_or_ne new [] with rfl | hnew
      · -- the last argument
        rw [if_pos rfl] at hrest
        refine (Lib.wp_bind _ _ _).mpr ((haux _ List.mem_cons_self _ t₁ inp₁ [')']
          (by rw [h₁]; exact harg) hrest.next (noOpBelow_of_mem (by decide))).mono ?_)
        rintro _ t₂ ⟨rfl, h₂⟩
        simp only [Lib.wp_bind]
        refine limit_failIf hmany₁ (limit_peek (by rw [h₂]; exact hrest.next) fun t₃ h₃ => wp_token ?_)
        rw [h₂] at h₃
        refine limit_failIf (by rw [h₃]; rfl) ?_
        rw [Lib.wp_ite, h₃]
        exact ⟨fun h => by simp at h, fun _ => ih _ haux' hhead' hmany
          (by rw [h₃]; exact hrest) fun _ => rfl⟩
      · rw [if_neg hnew] at hrest
        obtain ⟨inp₂, hcomma, -, hrest'⟩ := readsTokens_cons.1 hrest
        refine (Lib.wp_bind _ _ _).mpr ((haux _ List.mem_cons_self _ t₁ inp₁ [',']
          (by rw [h₁]; exact harg) hrest.next (noOpBelow_of_mem (by decide))).mono ?_)
        rintro _ t₂ ⟨rfl, h₂⟩
        simp only [Lib.wp_bind]
        refine limit_failIf hmany₁ (limit_peek (by rw [h₂]; exact hrest.next) fun t₃ h₃ => wp_token ?_)
        rw [h₂] at h₃
        refine limit_failIf (by rw [h₃]; rfl) ?_
        rw [Lib.wp_ite, h₃]
        refine ⟨fun _ => ?_, absurd rfl⟩
        simp only [Lib.wp_bind]
        obtain ⟨p, new, rfl⟩ := List.exists_cons_of_ne_nil hnew
        obtain ⟨tok', rest', htoks', hne'⟩ := hhead' p List.mem_cons_self
        refine limit_get (by rw [h₃]; exact hcomma) fun t₄ h₄ => ?_
        have hnext : NextToken env.seps.timeSep inp₂ tok' := by
          have : ∃ more, commas ((p :: new).map Prod.fst) ++ [[')']] = tok' :: more := by
            rcases eq_or_ne new [] with rfl | hnew
            · exact ⟨rest' ++ [[')']], by simp [htoks']⟩
            · exact ⟨_, by rw [List.map_cons, commas_cons (by simpa using hnew), htoks']; rfl⟩
          obtain ⟨more, hmore⟩ := this
          rw [hmore] at hrest'
          exact hrest'.next
        refine limit_peek (by rw [h₄]; exact hnext) fun t₅ h₅ => wp_token ?_
        rw [h₄] at h₅
        refine limit_failIf (by rw [h₅]; simpa using hne') ?_
        exact ih _ haux' hhead' hmany (by rw [h₅]; exact hrest') fun h =>
          absurd (by rw [h₅] at h; exact h) hne'

/-- A factor that begins with no unary operator is an atom. -/
theorem factor_of_atom {n level : ℕ} {Q : Expr → Lib.Marked ParseState → Prop}
    (hnext : NextToken env.seps.timeSep s.rest.inp tok)
    (hop : ¬ (tok = ['!'] ∨ tok = ['-'] ∨ tok = ['+']))
    (h : ∀ n level t, t.rest.inp = s.rest.inp →
      Wp (parseAtom env max locals aux n level) Q (LimitErr max) t) :
    Wp (parseFactor env max locals aux n level) Q (LimitErr max) s := by
  cases n with
  | zero => exact .inl rfl
  | succ n =>
    unfold parseFactor
    simp only [Lib.wp_bind]
    refine limit_check fun t₁ h₁ => limit_peek (by rw [h₁]; exact hnext) fun t₂ h₂ => wp_token ?_
    rw [Lib.wp_ite, h₂]
    exact ⟨fun h => absurd h hop, fun _ => h n _ t₂ (by rw [h₂, h₁])⟩

/-- An atom that begins with no parenthesis is a call, a variable or a constant. -/
theorem atom_of_begins {n level : ℕ} {Q : Expr → Lib.Marked ParseState → Prop}
    (hnext : NextToken env.seps.timeSep s.rest.inp tok) (hfirst : BeginsAtom tok)
    (h : ∀ level t, t.rest = ⟨s.rest.inp, tok⟩ →
      Wp (if tok.getLast? = some '(' then parseFunctionCall env max aux n level
        else do
          getToken env
          ofExcept (makeAtom env locals tok)) Q (LimitErr max) t) :
    Wp (parseAtom env max locals aux n level) Q (LimitErr max) s := by
  obtain ⟨c, rest, htok, hc⟩ := id hfirst
  have hid : ¬ (!isId c && c ≠ '$' && c ≠ '"' && c ≠ '\'') = true := by
    simp only [Bool.and_eq_true, Bool.not_eq_true', decide_eq_true_eq, not_and]
    rcases hc with h | h | h | h <;> simp [h]
  unfold parseAtom
  simp only [Lib.wp_bind]
  refine limit_check fun t₁ h₁ => limit_peek (by rw [h₁]; exact hnext) fun t₂ h₂ => wp_token ?_
  rw [h₁] at h₂
  have hbody := h (level + 1) t₂ h₂
  rw [htok] at h₂ hbody
  rw [Lib.wp_ite, h₂]
  refine ⟨fun h => absurd (htok.trans h) (hfirst.ne (by decide)), fun _ => ?_⟩
  dsimp only
  rw [if_neg hid]
  exact hbody

theorem atom_taken (hfirst : BeginsAtom tok) (hlast : tok.getLast? ≠ some '(')
    (hatom : makeAtom env locals tok = .ok e) : TakenAt env max locals 0 [tok] e := by
  intro n m level s inp' hread
  obtain ⟨_, hp, -, hnil⟩ := readsTokens_cons.1 hread
  obtain rfl := readsTokens_nil.1 hnil
  refine factor_of_atom hread.next hfirst.not_unary fun _ _ t₁ h₁ => ?_
  refine atom_of_begins (by rw [h₁]; exact hread.next) hfirst fun _ t₂ h₂ => ?_
  rw [h₁] at h₂
  rw [if_neg hlast, Lib.wp_bind]
  refine limit_get (by rw [h₂]; exact hp) fun t₃ h₃ => ?_
  rw [hatom]
  exact ⟨rfl, by rw [h₃]⟩

theorem paren_taken (h : TakenAt env max locals 6 toks e) :
    TakenAt env max locals 0 (['('] :: (toks ++ [[')']])) e := by
  intro n m level s inp' hread
  have hnext := hread.next
  obtain ⟨inp₁, hp, -, hread⟩ := readsTokens_cons.1 hread
  obtain ⟨inp₂, hinner, hclose⟩ := readsTokens_append.1 hread
  obtain ⟨inp₃, hp', -, hnil⟩ := readsTokens_cons.1 hclose
  obtain rfl := readsTokens_nil.1 hnil
  refine factor_of_atom hnext (by simp) fun _ _ t₁ h₁ => ?_
  unfold parseAtom
  simp only [Lib.wp_bind]
  refine limit_check fun t₂ h₂ => limit_peek (by rw [h₂, h₁]; exact hnext) fun t₃ h₃ => wp_token ?_
  rw [h₂, h₁] at h₃
  rw [Lib.wp_ite, h₃]
  refine ⟨fun _ => ?_, absurd rfl⟩
  simp only [Lib.wp_bind]
  refine limit_get (by rw [h₃]; exact hp) fun t₄ h₄ => ?_
  refine (h.aux_takes n _ t₄ inp₂ [')'] (by rw [h₄]; exact hinner) hclose.next
    (noOpBelow_of_mem (by decide))).mono ?_
  rintro _ t₅ ⟨rfl, h₅⟩
  refine wp_token (limit_failIf (by rw [h₅]; rfl) (limit_get (by rw [h₅]; exact hp') fun t₆ h₆ => ?_))
  exact ⟨rfl, by rw [h₆]⟩

theorem call_taken {name : List Char} {args : List (List (List Char) × Expr)}
    (hfirst : BeginsAtom (name ++ ['('])) (hargs : ∀ p ∈ args, TakenAt env max locals 6 p.1 p.2)
    (hhead : ∀ p ∈ args, ∃ tok rest, p.1 = tok :: rest ∧ tok ≠ [')'])
    (hcall : callNode env name (args.map Prod.snd) = some e) :
    TakenAt env max locals 0 ((name ++ ['(']) :: (commas (args.map Prod.fst) ++ [[')']])) e := by
  intro n m level s inp' hread
  have hnext := hread.next
  obtain ⟨inp₁, hp, -, hread⟩ := readsTokens_cons.1 hread
  refine factor_of_atom hnext hfirst.not_unary fun _ _ t₁ h₁ => ?_
  refine atom_of_begins (by rw [h₁]; exact hnext) hfirst fun _ t₂ h₂ => ?_
  rw [h₁] at h₂
  rw [if_pos (by simp)]
  unfold parseFunctionCall
  simp only [Lib.wp_bind]
  refine limit_check fun t₃ h₃ => wp_token ?_
  rw [h₂] at h₃
  rw [show t₃.rest.buf.dropLast = name by rw [h₃]; exact List.dropLast_concat]
  refine limit_get (by rw [h₃]; exact hp) fun t₄ h₄ => ?_
  have hmany : tooManyArgs (env.findBuiltinFunc name) (([] : List Expr).length + args.length) =
      false := by
    rw [List.length_nil, Nat.zero_add]
    unfold callNode at hcall
    cases hf : env.findBuiltinFunc name with
    | none => rfl
    | some f =>
      simp only [hf, List.length_map] at hcall
      split_ifs at hcall with hnum
      exact hnum.2
  have hclose : t₄.rest.buf ≠ [')'] := by
    rw [h₄]
    exact hfirst.ne (by decide)
  refine (argLoop_takes (env.findBuiltinFunc name) _ _ []
    (fun p hp => (hargs p hp).aux_takes n) hhead hmany (by rw [h₄]; exact hread)
    (absurd · hclose)).mono ?_
  rintro _ t₅ ⟨rfl, h₅⟩
  obtain ⟨inp₂, hp', -, hnil⟩ := readsTokens_cons.1 h₅
  obtain rfl := readsTokens_nil.1 hnil
  refine limit_get hp' fun t₆ h₆ => ?_
  unfold callNode at hcall
  cases hf : env.findBuiltinFunc name with
  | none =>
    simp only [hf, Option.some.injEq] at hcall
    exact ⟨hcall, by rw [h₆]⟩
  | some f =>
    simp only [hf] at hcall
    split_ifs at hcall with hnum
    simp only [Lib.wp_bind]
    refine limit_failIf (by simpa using hnum.1) ⟨Option.some.inj hcall, by rw [h₆]⟩

theorem unary_taken {op : List Char} (hop : op = ['!'] ∨ op = ['-'] ∨ op = ['+'])
    (h : TakenAt env max locals 0 toks e) :
    TakenAt env max locals 0 (op :: toks) (applyUnary op e) := by
  intro n m level s inp' hread
  have hnext := hread.next
  obtain ⟨inp₁, hp, -, hread⟩ := readsTokens_cons.1 hread
  cases m with
  | zero => exact .inl rfl
  | succ m =>
    unfold parseFactor
    simp only [Lib.wp_bind]
    refine limit_check fun t₁ h₁ => limit_peek (by rw [h₁]; exact hnext) fun t₂ h₂ => wp_token ?_
    rw [h₁] at h₂
    rw [Lib.wp_ite, h₂]
    refine ⟨fun _ => ?_, fun hno => absurd hop hno⟩
    simp only [Lib.wp_bind]
    refine limit_get (by rw [h₂]; exact hp) fun t₃ h₃ => ?_
    refine (h n m _ t₃ inp' (by rw [h₃]; exact hread)).mono ?_
    rintro _ t₄ ⟨rfl, h₄⟩
    exact ⟨rfl, h₄⟩

theorem operand_taken (h : TakenAt env max locals l toks e) :
    TakenAt env max locals (l + 1) toks e := by
  intro n level s inp' tok Q hread hnext hno hloop
  unfold levelParser binaryLevel
  simp only [Lib.wp_bind]
  refine limit_check fun t₁ h₁ => ?_
  refine (h.takes n _ t₁ inp' tok (by rw [h₁]; exact hread) hnext hno).mono ?_
  rintro _ t₂ ⟨rfl, h₂⟩
  exact hloop n t₂ h₂

theorem binary_taken {left right : List (List Char)} {op : Expr → Expr → Expr} {a b : Expr}
    (hop : (levelOps l).lookup tok = some op) (ha : TakenAt env max locals (l + 1) left a)
    (hb : TakenAt env max locals l right b) :
    TakenAt env max locals (l + 1) (left ++ tok :: right) (op a b) := by
  intro n level s inp' next Q hread hnext hno hloop
  obtain ⟨inp₁, hleft, hread⟩ := readsTokens_append.1 hread
  have hnext₁ := hread.next
  obtain ⟨inp₂, hp, -, hright⟩ := readsTokens_cons.1 hread
  -- the loop goes on from the left operand with this operator
  refine ha n level s inp₁ tok Q hleft hnext₁ (noOpBelow_op hop) fun m t h₁ => ?_
  cases m with
  | zero => exact .inl rfl
  | succ m =>
    unfold binaryLoop
    simp only [Lib.wp_bind]
    refine wp_token ?_
    rw [h₁]
    simp only [hop, Lib.wp_bind]
    refine limit_get (by rw [h₁]; exact hp) fun t₂ h₂ => ?_
    refine (hb.takes n _ t₂ inp' next (by rw [h₂]; exact hright) hnext hno).mono ?_
    rintro _ t₃ ⟨rfl, h₃⟩
    exact hloop m t₃ h₃

theorem Derives.takenAt (h : Derives env locals l toks e) : TakenAt env max locals l toks e := by
  induction h with
  | atom hfirst hlast h => exact atom_taken hfirst hlast h
  | paren _ ih => exact paren_taken ih
  | call hfirst hargs h ih => exact call_taken hfirst ih (fun p hp => (hargs p hp).head) h
  | unary hop _ ih => exact unary_taken hop ih
  | operand _ ih => exact operand_taken ih
  | binary hop _ _ iha ihb => exact binary_taken hop iha ihb

end Complete

/-! ### The parser and the grammar -/

section Accepts

variable {env : ParserEnv} {max : Option ℕ} {locals : List (List Char)}

/-- The text is an expression with this tree, white space, and then `rest`, which is nothing or
begins with a `]`. -/
def IsExpression (env : ParserEnv) (locals : List (List Char)) (inp : List Char) (e : Expr)
    (rest : List Char) : Prop :=
  ∃ inp', Spans env locals 6 inp e inp' ∧ inp'.dropWhile isEmptyChar = rest ∧
    (rest = [] ∨ rest.head? = some ']')

/-- **The parser accepts exactly its grammar.**  A tree that `parse_expression` returns is derived
from the tokens of the text, and where they derive a tree it returns that tree, unless the limit on
nesting is in its way. -/
theorem parseExpression_grammar (hd : env.disabled = false) (inp : List Char) (g : ParserGlobals)
    (e : Expr) (rest : List Char) :
    ((parseExpression env max locals inp g).1 = .ok (e, rest) → IsExpression env locals inp e rest) ∧
      (IsExpression env locals inp e rest →
        (parseExpression env max locals inp g).1 = .ok (e, rest) ∨
          max ≠ none ∧ (parseExpression env max locals inp g).1 = .error .opStkOver) := by
  constructor
  · intro h
    obtain ⟨t, hrun, hrest, hend⟩ := parseExpression_ok h
    exact ⟨t.rest.inp, ((parseExpressionAux_derived _ 0 _).ok hrun).1, hrest, hend⟩
  · rintro ⟨inp', ⟨toks, hread, he⟩, hrest, hend⟩
    obtain ⟨tok, hnext, htok⟩ : ∃ tok, NextToken env.seps.timeSep inp' tok ∧
        ∀ j < 6, tok ∉ opTokens j := by
      rcases hend with hend | hend
      · have hnone : parseExprToken env.seps.timeSep inp' = .ok ([], []) := by
          unfold parseExprToken
          rw [hrest, hend]
        exact ⟨[], ⟨[], hnone⟩, by decide⟩
      · obtain ⟨more, rfl⟩ : ∃ more, rest = ']' :: more := by
          cases rest with
          | nil => cases hend
          | cons c more => exact ⟨more, by rw [Option.some.inj hend]⟩
        have hclose : parseExprToken env.seps.timeSep inp' = .ok ([']'], more) := by
          unfold parseExprToken
          rw [hrest]
          rfl
        exact ⟨[']'], ⟨more, hclose⟩, by decide⟩
    have htaken : TakenAt env max locals 6 toks e := he.takenAt
    have hwp := htaken.aux_takes (inp.length + 3) 0
      ⟨⟨inp, g.exprBuf⟩, g.parseLevelHighWater⟩ inp' tok hread hnext (noOpBelow_of_mem htok)
    have htotal := @parseExpression_total env max locals inp g
    unfold parseExpression at htotal ⊢
    rw [if_neg (by simp [hd])] at htotal ⊢
    unfold Lib.Wp at hwp
    cases hrun : parseExpressionAux env max locals (inp.length + 3) 0
        ⟨⟨inp, g.exprBuf⟩, g.parseLevelHighWater⟩ with
    | ok e' t =>
      rw [hrun] at hwp
      obtain ⟨rfl, h⟩ := hwp
      left
      unfold endOfExpression
      dsimp only
      rw [h]
      dsimp only
      rw [hrest, if_pos hend]
    | error r t =>
      rw [hrun] at hwp htotal
      rcases hwp with rfl | ⟨hmax, rfl⟩
      · exact absurd rfl (htotal .diverges rfl).1
      · exact .inr ⟨hmax, rfl⟩

/-- A text is an expression in one way only. -/
theorem IsExpression.unique (hd : env.disabled = false) {inp rest rest' : List Char} {e e' : Expr}
    (h : IsExpression env locals inp e rest) (h' : IsExpression env locals inp e' rest') :
    e = e' ∧ rest = rest' := by
  have hrun {e : Expr} {rest : List Char} (h : IsExpression env locals inp e rest) :
      (parseExpression env none locals inp ⟨[], 0⟩).1 = .ok (e, rest) :=
    ((parseExpression_grammar hd inp ⟨[], 0⟩ e rest).2 h).resolve_right fun h => h.1 rfl
  have heq := (hrun h).symm.trans (hrun h')
  exact ⟨(Prod.mk.inj (Except.ok.inj heq)).1, (Prod.mk.inj (Except.ok.inj heq)).2⟩

theorem Derives.lift {l m : ℕ} {toks : List (List Char)} {e : Expr}
    (h : Derives env locals l toks e) (hlm : l ≤ m) : Derives env locals m toks e := by
  induction hlm with
  | refl => exact h
  | step _ ih => exact .operand ih

/-- No functions and no system variables. -/
def variablesEnv : ParserEnv := ⟨{}, fun _ => none, fun _ => none, false⟩

/-- `a-b*c-d`: the product first, then the differences from the left. -/
theorem parseExpression_grammar_differences :
    (parseExpression variablesEnv none [] "a-b*c-d]".toList ⟨[], 0⟩).1 =
      .ok (.binop .subtract (.binop .subtract (.var ['a'])
        (.binop .multiply (.var ['b']) (.var ['c']))) (.var ['d']), [']']) := by
  have hatom {c : Char} (hc : c.isAlpha = true) : Derives variablesEnv [] 0 [[c]] (.var [c]) := by
    refine .atom ⟨c, [], rfl, .inl (by simp [isId, Char.isAlphanum, hc])⟩ ?_ ?_
    · rintro hlast
      obtain rfl : c = '(' := by simpa using hlast
      cases hc
    · unfold makeAtom
      dsimp only
      rw [if_pos (by simp [hc])]
      rfl
  have htimes : (levelOps 0).lookup ['*'] = some (.binop .multiply) := rfl
  have hminus : (levelOps 1).lookup ['-'] = some (.binop .subtract) := rfl
  have hproduct := Derives.binary htimes ((hatom (show 'b'.isAlpha = true from rfl)).lift
    (Nat.zero_le 1)) (hatom (show 'c'.isAlpha = true from rfl))
  have hboth := Derives.binary hminus (.binary hminus ((hatom (show 'a'.isAlpha = true from rfl)).lift
    (Nat.zero_le 2)) hproduct) ((hatom (show 'd'.isAlpha = true from rfl)).lift (Nat.zero_le 1))
  have hread {c : Char} {toks : List (List Char)} {inp inp' : List Char}
      (hp : parseExprToken ':' inp = .ok ([c], inp')) (h : ReadsTokens ':' inp' toks [']']) :
      ReadsTokens ':' inp ([c] :: toks) [']'] := .cons hp (by simp) h
  have htoks : ReadsTokens ':' "a-b*c-d]".toList
      [['a'], ['-'], ['b'], ['*'], ['c'], ['-'], ['d']] [']'] :=
    hread rfl <| hread rfl <| hread rfl <| hread rfl <| hread rfl <| hread rfl <| hread rfl (.nil _)
  exact ((parseExpression_grammar rfl _ _ _ _).2
    ⟨[']'], ⟨_, htoks, hboth.lift (by decide)⟩, rfl, .inr rfl⟩).resolve_right fun h => h.1 rfl

end Accepts

end Remind
