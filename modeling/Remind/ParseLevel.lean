import Remind.ExprParse
import Remind.LiteralExact
import Remind.Lib.Wp

/-!
# ParseLevel — the limit on nesting and the history of a run (expr.c: `CHECK_PARSE_LEVEL`,
# `parse_expression`)

`parse_level_high_water` outlives a call of `parse_expression`: the limit is tested only where the
level is a new greatest one of the whole run.
-/

namespace Remind

open Lib (Wp checkDepth)

/-! ### The errors of tokens and constants -/

/-- An error code other than the one of the limit and the mark of a loop that does not end. -/
def ErrCode.Lexical (r : ErrCode) : Prop := r ≠ .opStkOver ∧ r ≠ .diverges

instance (r : ErrCode) : Decidable r.Lexical := inferInstanceAs (Decidable (_ ∧ _))

/-- The error, if there is one, is of this kind. -/
def FailsLexically {α : Type} (x : Except ErrCode α) : Prop := ∀ r, x = .error r → r.Lexical

section Lexical

variable {α β : Type} {r : ErrCode}

@[simp] theorem failsLexically_ok (a : α) : FailsLexically (.ok a : Except ErrCode α) := nofun

@[simp] theorem failsLexically_error :
    FailsLexically (.error r : Except ErrCode α) ↔ r.Lexical :=
  ⟨fun h => h r rfl, fun h _ hr => Except.error.inj hr ▸ h⟩

theorem failsLexically_map {x : Except ErrCode α} (f : α → β) (h : FailsLexically x) :
    FailsLexically (x.map f) := by
  cases x with
  | ok a => exact failsLexically_ok _
  | error r => exact failsLexically_error.mpr (h r rfl)

theorem failsLexically_putc {x : Except ErrCode (List Char × List Char)} (c : Char)
    (h : FailsLexically x) : FailsLexically (putc c x) :=
  failsLexically_map _ h

theorem failsLexically_putHex {x : Except ErrCode (List Char × List Char)} (hexbuf : List Char)
    (h : FailsLexically x) : FailsLexically (putHex hexbuf x) := by
  unfold putHex
  split_ifs
  · exact failsLexically_error.mpr (by decide)
  · exact failsLexically_putc _ h

theorem quotedToken_lexical (c : Char) (s : List Char) : FailsLexically (quotedToken c s) := by
  fun_induction quotedToken c s with
  | case1 => exact failsLexically_ok _
  | case2 => exact failsLexically_error.mpr (by decide)
  | case3 => exact failsLexically_error.mpr (by decide)
  | case4 c ih => exact failsLexically_putc _ ih
  | case5 c h hx ih => exact failsLexically_putHex _ ih
  | case6 c h hx ih => exact failsLexically_putc _ ih
  | case7 c h h' s hx ih => exact failsLexically_putc _ ih
  | case8 c h h' s hx hx' ih => exact failsLexically_putHex _ ih
  | case9 c h h' s hx hx' ih => exact failsLexically_putHex _ ih
  | case10 c e s he ih => exact failsLexically_putc _ ih
  | case11 => exact failsLexically_ok _
  | case12 c e s he hq ih => exact failsLexically_putc _ ih

theorem quotedDateToken_lexical (s : List Char) : FailsLexically (quotedDateToken s) := by
  induction s with
  | nil => exact failsLexically_error.mpr (by decide)
  | cons d s ih =>
    unfold quotedDateToken
    split_ifs
    · exact failsLexically_ok _
    · exact failsLexically_putc _ ih

theorem parseExprToken_lexical (sep : Char) (s : List Char) :
    FailsLexically (parseExprToken sep s) := by
  have hq := fun c s => failsLexically_putc '"' (quotedToken_lexical c s)
  have hd := fun s => failsLexically_putc '\'' (quotedDateToken_lexical s)
  unfold parseExprToken
  dsimp only
  repeat' split
  all_goals first
    | exact failsLexically_ok _
    | exact failsLexically_error.mpr (by decide)
    | exact hq _ _
    | exact hd _

theorem amPmHour_lexical (ampm : Option Bool) (h : ℤ) : FailsLexically (amPmHour ampm h) := by
  unfold amPmHour
  repeat' split
  all_goals first
    | exact failsLexically_ok _
    | exact failsLexically_error.mpr (by decide)

theorem parseLiteralTime_lexical (sep : Char) (s : List Char) :
    FailsLexically (parseLiteralTime sep s) := by
  unfold parseLiteralTime
  repeat' split
  all_goals first
    | exact failsLexically_ok _
    | exact failsLexically_error.mpr (by decide)
    | exact failsLexically_error.mpr (amPmHour_lexical _ _ _ ‹_›)

theorem literalTimePart_lexical (sep : Char) (s : List Char) :
    FailsLexically (literalTimePart sep s) := by
  unfold literalTimePart
  repeat' split
  all_goals first
    | exact failsLexically_ok _
    | exact failsLexically_error.mpr (parseLiteralTime_lexical _ _ _ ‹_›)

theorem parseLiteralDateOrTime_lexical (c : LiteralSeps) (s : List Char) :
    FailsLexically (parseLiteralDateOrTime c s) := by
  unfold parseLiteralDateOrTime
  dsimp only
  repeat' split
  all_goals first
    | exact failsLexically_ok _
    | exact failsLexically_error.mpr (by decide)
    | exact failsLexically_error.mpr (parseLiteralTime_lexical _ _ _ ‹_›)
    | exact failsLexically_error.mpr (literalTimePart_lexical _ _ _ ‹_›)

theorem decimalLoop_lexical (v : ℤ) (s : List Char) : FailsLexically (decimalLoop v s) := by
  induction s generalizing v with
  | nil => exact failsLexically_ok _
  | cons c s ih =>
    unfold decimalLoop
    split_ifs
    · exact failsLexically_error.mpr (by decide)
    · exact ih _
    · exact failsLexically_ok _

theorem hexLoop_lexical (v : ℤ) (s : List Char) : FailsLexically (hexLoop v s) := by
  induction s generalizing v with
  | nil => exact failsLexically_ok _
  | cons c s ih =>
    unfold hexLoop
    split_ifs
    · exact failsLexically_error.mpr (by decide)
    · exact ih _
    · exact failsLexically_ok _

theorem timeConstant_lexical (h : ℤ) (s : List Char) : FailsLexically (timeConstant h s) := by
  unfold timeConstant
  repeat' split
  all_goals first
    | exact failsLexically_ok _
    | exact failsLexically_error.mpr (by decide)
    | exact failsLexically_error.mpr (amPmHour_lexical _ _ _ ‹_›)

theorem decimal_lexical (sep : Char) (s : List Char) :
    FailsLexically (numberConstant.decimal sep s) := by
  unfold numberConstant.decimal
  repeat' split
  all_goals first
    | exact failsLexically_ok _
    | exact failsLexically_error.mpr (by decide)
    | exact failsLexically_error.mpr (decimalLoop_lexical _ _ _ ‹_›)
    | exact timeConstant_lexical _ _

theorem numberConstant_lexical (sep : Char) (s : List Char) :
    FailsLexically (numberConstant sep s) := by
  unfold numberConstant
  repeat' split
  all_goals first
    | exact failsLexically_ok _
    | exact failsLexically_error.mpr (by decide)
    | exact failsLexically_error.mpr (hexLoop_lexical _ _ _ ‹_›)
    | exact decimal_lexical _ _

theorem setConstantValue_lexical (c : LiteralSeps) (s : List Char) :
    FailsLexically (setConstantValue c s) := by
  unfold setConstantValue quotedConstant
  repeat' split
  all_goals first
    | exact failsLexically_ok _
    | exact failsLexically_error.mpr (by decide)
    | exact failsLexically_error.mpr (parseLiteralDateOrTime_lexical _ _ _ ‹_›)
    | exact numberConstant_lexical _ _

theorem makeAtom_lexical (env : ParserEnv) (locals : List (List Char)) (s : List Char) :
    FailsLexically (makeAtom env locals s) := by
  unfold makeAtom
  repeat' split
  all_goals first
    | exact failsLexically_ok _
    | exact failsLexically_error.mpr (by decide)
    | exact failsLexically_map _ (setConstantValue_lexical _ _)

end Lexical

/-! ### The parser with a limit follows the one without -/

section Follows

variable {env : ParserEnv} {locals : List (List Char)} {m : ℕ} {aux aux' : ℕ → ParseM Expr}
  {ops : List (List Char × (Expr → Expr → Expr))}

theorem follows_token : Lib.Follows .opStkOver m token token := Lib.follows_unmarked _

theorem follows_getToken : Lib.Follows .opStkOver m (getToken env) (getToken env) :=
  Lib.follows_unmarked _

theorem follows_peekToken : Lib.Follows .opStkOver m (peekToken env) (peekToken env) :=
  Lib.follows_unmarked _

theorem follows_failIf (b : Bool) (r : ErrCode) :
    Lib.Follows .opStkOver m (failIf b r) (failIf b r) :=
  Lib.follows_ite (Lib.follows_throw r) (Lib.follows_pure ())

theorem follows_ofExcept (x : Except ErrCode Expr) :
    Lib.Follows .opStkOver m (ofExcept x) (ofExcept x) := by
  cases x with
  | ok node => exact Lib.follows_pure node
  | error r => exact Lib.follows_throw r

theorem follows_checkParseLevel (level : ℕ) :
    Lib.Follows .opStkOver m (checkParseLevel (some m) level) (checkParseLevel none level) :=
  Lib.follows_check level

theorem argLoop_follows (haux : ∀ level, Lib.Follows .opStkOver m (aux level) (aux' level))
    (f : Option BuiltinFunc) (level n : ℕ) (args : List Expr) :
    Lib.Follows .opStkOver m (argLoop env aux f level n args) (argLoop env aux' f level n args) := by
  induction n generalizing args with
  | zero => exact Lib.follows_throw _
  | succ n ih =>
    unfold argLoop
    refine Lib.follows_bind follows_token fun t => Lib.follows_ite (Lib.follows_pure _) ?_
    refine Lib.follows_bind follows_peekToken fun _ => ?_
    refine Lib.follows_bind follows_token fun t => Lib.follows_ite (ih args) ?_
    refine Lib.follows_bind (haux _) fun arg => ?_
    refine Lib.follows_bind (follows_failIf _ _) fun _ => ?_
    refine Lib.follows_bind follows_peekToken fun _ => ?_
    refine Lib.follows_bind follows_token fun t => ?_
    refine Lib.follows_bind (follows_failIf _ _) fun _ => Lib.follows_ite ?_ (ih _)
    refine Lib.follows_bind follows_getToken fun _ => ?_
    refine Lib.follows_bind follows_peekToken fun _ => ?_
    refine Lib.follows_bind follows_token fun t => ?_
    exact Lib.follows_bind (follows_failIf _ _) fun _ => ih _

theorem parseFunctionCall_follows (haux : ∀ level, Lib.Follows .opStkOver m (aux level) (aux' level))
    (n level : ℕ) :
    Lib.Follows .opStkOver m (parseFunctionCall env (some m) aux n level)
      (parseFunctionCall env none aux' n level) := by
  refine Lib.follows_bind (follows_checkParseLevel level) fun _ => ?_
  refine Lib.follows_bind follows_token fun t => ?_
  refine Lib.follows_bind follows_getToken fun _ => ?_
  refine Lib.follows_bind (argLoop_follows haux _ level n []) fun args => ?_
  refine Lib.follows_bind follows_getToken fun _ => ?_
  cases env.findBuiltinFunc t.dropLast with
  | none => exact Lib.follows_pure _
  | some f => exact Lib.follows_bind (follows_failIf _ _) fun _ => Lib.follows_pure _

theorem parseAtom_follows (haux : ∀ level, Lib.Follows .opStkOver m (aux level) (aux' level))
    (n level : ℕ) :
    Lib.Follows .opStkOver m (parseAtom env (some m) locals aux n level)
      (parseAtom env none locals aux' n level) := by
  refine Lib.follows_bind (follows_checkParseLevel level) fun _ => ?_
  refine Lib.follows_bind follows_peekToken fun _ => ?_
  refine Lib.follows_bind follows_token fun t => Lib.follows_ite ?_ ?_
  · refine Lib.follows_bind follows_getToken fun _ => ?_
    refine Lib.follows_bind (haux _) fun node => ?_
    refine Lib.follows_bind follows_token fun t => ?_
    refine Lib.follows_bind (follows_failIf _ _) fun _ => ?_
    exact Lib.follows_bind follows_getToken fun _ => Lib.follows_pure _
  · cases t with
    | nil => exact Lib.follows_throw _
    | cons c t =>
      refine Lib.follows_ite (Lib.follows_throw _) (Lib.follows_ite ?_ ?_)
      · exact parseFunctionCall_follows haux n (level + 1)
      · exact Lib.follows_bind follows_getToken fun _ => follows_ofExcept _

theorem parseFactor_follows (haux : ∀ level, Lib.Follows .opStkOver m (aux level) (aux' level))
    (n level : ℕ) :
    Lib.Follows .opStkOver m (parseFactor env (some m) locals aux n level)
      (parseFactor env none locals aux' n level) := by
  induction n generalizing level with
  | zero => exact Lib.follows_throw _
  | succ n ih =>
    unfold parseFactor
    refine Lib.follows_bind (follows_checkParseLevel level) fun _ => ?_
    refine Lib.follows_bind follows_peekToken fun _ => ?_
    refine Lib.follows_bind follows_token fun t => Lib.follows_ite ?_ ?_
    · refine Lib.follows_bind follows_getToken fun _ => ?_
      exact Lib.follows_bind (ih _) fun node => Lib.follows_pure _
    · exact parseAtom_follows haux n (level + 1)

theorem binaryLoop_follows {operand operand' : ParseM Expr}
    (hop : Lib.Follows .opStkOver m operand operand') (n : ℕ) (node : Expr) :
    Lib.Follows .opStkOver m (binaryLoop env ops operand n node)
      (binaryLoop env ops operand' n node) := by
  induction n generalizing node with
  | zero => exact Lib.follows_throw _
  | succ n ih =>
    unfold binaryLoop
    refine Lib.follows_bind follows_token fun t => ?_
    cases ops.lookup t with
    | none => exact Lib.follows_pure _
    | some op =>
      refine Lib.follows_bind follows_getToken fun _ => ?_
      exact Lib.follows_bind hop fun right => ih _

/-- One level of the grammar, over the level below it. -/
theorem binaryLevel_follows {operand operand' : ℕ → ParseM Expr}
    (hop : ∀ level, Lib.Follows .opStkOver m (operand level) (operand' level)) (n level : ℕ) :
    Lib.Follows .opStkOver m (binaryLevel env (some m) ops operand n level)
      (binaryLevel env none ops operand' n level) := by
  refine Lib.follows_bind (follows_checkParseLevel level) fun _ => ?_
  exact Lib.follows_bind (hop _) fun node => binaryLoop_follows (hop _) n node

theorem termOperand_follows (haux : ∀ level, Lib.Follows .opStkOver m (aux level) (aux' level))
    (n level : ℕ) :
    Lib.Follows .opStkOver m (termOperand env (some m) locals aux n level)
      (termOperand env none locals aux' n level) := by
  refine Lib.follows_bind (parseFactor_follows haux n level) fun node => ?_
  exact Lib.follows_bind follows_peekToken fun _ => Lib.follows_pure _

theorem parseExpressionAux_follows (n level : ℕ) :
    Lib.Follows .opStkOver m (parseExpressionAux env (some m) locals n level)
      (parseExpressionAux env none locals n level) := by
  induction n generalizing level with
  | zero => exact Lib.follows_throw _
  | succ n ih =>
    have hterm : ∀ level, Lib.Follows .opStkOver m (parseTermExpr env (some m) locals _ n level)
        (parseTermExpr env none locals _ n level) :=
      binaryLevel_follows (termOperand_follows ih n) n
    have hcmp := @binaryLevel_follows env m cmpOps _ _ hterm n
    have heq := @binaryLevel_follows env m eqOps _ _ hcmp n
    have hand := @binaryLevel_follows env m andOps _ _ heq n
    have hor := @binaryLevel_follows env m orOps _ _ hand n
    exact binaryLevel_follows hor n level

end Follows

/-! ### The parser ends -/

section Lengths

variable {sep : Char} {s buf rest : List Char}

theorem putc_ok {c : Char} {x : Except ErrCode (List Char × List Char)}
    (h : putc c x = .ok (buf, rest)) : ∃ buf', x = .ok (buf', rest) := by
  cases x with
  | error r => cases h
  | ok p =>
    obtain ⟨-, rfl⟩ := Prod.mk.inj (Except.ok.inj h)
    exact ⟨_, rfl⟩

theorem putHex_ok {hexbuf : List Char} {x : Except ErrCode (List Char × List Char)}
    (h : putHex hexbuf x = .ok (buf, rest)) : ∃ buf', x = .ok (buf', rest) := by
  unfold putHex at h
  split_ifs at h
  exact putc_ok h

theorem quotedToken_length {c : Char} (h : quotedToken c s = .ok (buf, rest)) :
    rest.length ≤ s.length := by
  fun_induction quotedToken c s generalizing buf with
  | case1 =>
    obtain ⟨-, rfl⟩ := Prod.mk.inj (Except.ok.inj h)
    exact le_rfl
  | case2 => cases h
  | case3 => cases h
  | case4 c ih => obtain ⟨buf', h⟩ := putc_ok h; exact le_trans (ih h) (by simp)
  | case5 c h' hx ih => obtain ⟨buf', h⟩ := putHex_ok h; exact le_trans (ih h) (by simp)
  | case6 c h' hx ih => obtain ⟨buf', h⟩ := putc_ok h; exact le_trans (ih h) (by simp)
  | case7 c h₁ h₂ s hx ih => obtain ⟨buf', h⟩ := putc_ok h; exact le_trans (ih h) (by simp)
  | case8 c h₁ h₂ s hx hx' ih =>
    obtain ⟨buf', h⟩ := putHex_ok h
    exact le_trans (ih h) (by simp only [List.length_cons]; omega)
  | case9 c h₁ h₂ s hx hx' ih => obtain ⟨buf', h⟩ := putHex_ok h; exact le_trans (ih h) (by simp)
  | case10 c e s he ih =>
    obtain ⟨buf', h⟩ := putc_ok h
    exact le_trans (ih h) (by simp only [List.length_cons]; omega)
  | case11 =>
    obtain ⟨-, rfl⟩ := Prod.mk.inj (Except.ok.inj h)
    simp
  | case12 c e s he hq ih =>
    obtain ⟨buf', h⟩ := putc_ok h
    exact le_trans (ih h) (by simp)

theorem quotedDateToken_length (h : quotedDateToken s = .ok (buf, rest)) :
    rest.length ≤ s.length := by
  induction s generalizing buf with
  | nil => cases h
  | cons d s ih =>
    unfold quotedDateToken at h
    split_ifs at h
    · obtain ⟨-, rfl⟩ := Prod.mk.inj (Except.ok.inj h)
      simp
    · obtain ⟨buf', h⟩ := putc_ok h
      exact le_trans (ih h) (by simp)

/-- A token is read off the text: there is less text after it, unless the text was at its end. -/
theorem parseExprToken_length (h : parseExprToken sep s = .ok (buf, rest)) :
    rest.length ≤ s.length ∧ (buf ≠ [] → rest.length < s.length) := by
  have hdrop : ∀ (p : Char → Bool) (l : List Char), (l.dropWhile p).length ≤ l.length :=
    fun p l => (List.dropWhile_sublist p).length_le
  unfold parseExprToken at h
  have hle := hdrop isEmptyChar s
  cases hs : s.dropWhile isEmptyChar with
  | nil =>
    rw [hs] at h
    obtain ⟨rfl, rfl⟩ := Prod.mk.inj (Except.ok.inj h)
    simp
  | cons c s' =>
    rw [hs, List.length_cons] at hle
    suffices rest.length ≤ s'.length by omega
    rw [hs] at h
    dsimp only at h
    have hid := le_trans (hdrop isEmptyChar (s'.dropWhile (isIdOrTime sep)))
      (hdrop (isIdOrTime sep) s')
    generalize (s'.dropWhile (isIdOrTime sep)).dropWhile isEmptyChar = g at h hid
    repeat' split at h
    all_goals first
      | (cases h; done)
      | exact (putc_ok h).elim fun _ h => quotedToken_length h
      | exact (putc_ok h).elim fun _ h => quotedDateToken_length h
      | obtain ⟨-, rfl⟩ := Prod.mk.inj (Except.ok.inj h)
        first
          | exact le_rfl
          | exact Nat.le_succ _
          | exact Nat.zero_le _
          | exact hdrop _ _
          | exact hid
          | exact le_trans (Nat.le_succ _) hid

end Lengths

section Ends

variable {env : ParserEnv} {max : Option ℕ} {locals : List (List Char)} {aux : ℕ → ParseM Expr}
  {ops : List (List Char × (Expr → Expr → Expr))} {s : Lib.Marked ParseState}

/-- The errors of the parser: it ends, and without a limit none is exceeded. -/
def ParserErr (max : Option ℕ) (r : ErrCode) : Prop :=
  r ≠ .diverges ∧ (max = none → r ≠ .opStkOver)

theorem ErrCode.Lexical.parserErr {r : ErrCode} (h : r.Lexical) : ParserErr max r :=
  ⟨h.2, fun _ => h.1⟩

/-- How much text is left. -/
def textLeft (s : Lib.Marked ParseState) : ℕ := s.rest.inp.length

/-- `ExprBuf` holds the next token. -/
def Peeked (env : ParserEnv) (s : Lib.Marked ParseState) : Prop :=
  ∃ rest, parseExprToken env.seps.timeSep s.rest.inp = .ok (s.rest.buf, rest)

theorem wp_token {Q : List Char → Lib.Marked ParseState → Prop} {E : ErrCode → Prop}
    (h : Q s.rest.buf s) : Wp token Q E s := h

theorem wp_peekToken {Q : Unit → Lib.Marked ParseState → Prop}
    (h : ∀ t, Peeked env t → textLeft t = textLeft s → Q () t) :
    Wp (peekToken env) Q (ParserErr max) s := by
  refine (Lib.wp_unmarked _ _).mpr ?_
  unfold Wp
  cases hp : parseExprToken env.seps.timeSep s.rest.inp with
  | error r =>
    simp only [hp]
    exact (parseExprToken_lexical _ _ r hp).parserErr
  | ok p =>
    simp only [hp]
    exact h _ ⟨p.2, hp⟩ rfl

theorem wp_getToken {Q : Unit → Lib.Marked ParseState → Prop}
    (h : ∀ t, textLeft t ≤ textLeft s →
      (Peeked env s → s.rest.buf ≠ [] → textLeft t < textLeft s) → Q () t) :
    Wp (getToken env) Q (ParserErr max) s := by
  refine (Lib.wp_unmarked _ _).mpr ?_
  unfold Wp
  cases hp : parseExprToken env.seps.timeSep s.rest.inp with
  | error r =>
    simp only [hp]
    exact (parseExprToken_lexical _ _ r hp).parserErr
  | ok p =>
    obtain ⟨hle, hlt⟩ := parseExprToken_length hp
    simp only [hp]
    refine h _ hle fun ⟨rest, hrest⟩ hne => hlt ?_
    rw [hp] at hrest
    rw [(Prod.mk.inj (Except.ok.inj hrest)).1]
    exact hne

theorem wp_failIf {b : Bool} {r : ErrCode} {Q : Unit → Lib.Marked ParseState → Prop}
    (hr : r.Lexical) (h : b = false → Q () s) : Wp (failIf b r) Q (ParserErr max) s := by
  cases b with
  | false => exact h rfl
  | true => exact hr.parserErr

theorem wp_ofExcept {x : Except ErrCode Expr} {Q : Expr → Lib.Marked ParseState → Prop}
    (hx : FailsLexically x) (h : ∀ node, Q node s) : Wp (ofExcept x) Q (ParserErr max) s := by
  cases x with
  | ok node => exact h node
  | error r => exact (hx r rfl).parserErr

theorem wp_checkParseLevel {level : ℕ} {Q : Unit → Lib.Marked ParseState → Prop}
    (h : ∀ t, t.rest = s.rest → Q () t) :
    Wp (checkParseLevel max level) Q (ParserErr max) s :=
  Lib.wp_checkDepth (fun hmax => ⟨by decide, fun hnone => absurd hnone hmax⟩) fun _ => h _ rfl

/-- `aux` does its work on texts of less than `k` characters: it takes something off the text, and it
leaves the next token in `ExprBuf`. -/
def Works (env : ParserEnv) (max : Option ℕ) (k : ℕ) (aux : ℕ → ParseM Expr) : Prop :=
  ∀ level s, textLeft s < k →
    Wp (aux level) (fun _ t => textLeft t < textLeft s ∧ Peeked env t) (ParserErr max) s

theorem argLoop_ends {k n level : ℕ} {f : Option BuiltinFunc} {args : List Expr}
    (haux : Works env max k aux) (hk : textLeft s < k)
    (hn : s.rest.buf = [')'] ∧ 1 ≤ n ∨ textLeft s + 2 ≤ n) :
    Wp (argLoop env aux f level n args) (fun _ t => textLeft t ≤ textLeft s) (ParserErr max) s := by
  induction n generalizing s args with
  | zero => omega
  | succ n ih =>
    unfold argLoop
    simp only [Lib.wp_bind]
    refine wp_token ?_
    rw [Lib.wp_ite]
    refine ⟨fun _ => le_rfl, fun hclose => ?_⟩
    have hleft : textLeft s + 1 ≤ n := by
      rcases hn with ⟨h, -⟩ | h
      · exact absurd h hclose
      · omega
    simp only [Lib.wp_bind]
    refine wp_peekToken fun t _ ht => wp_token ?_
    rw [Lib.wp_ite]
    refine ⟨fun hb => (ih (by omega) (Or.inl ⟨hb, by omega⟩)).mono fun _ _ h => by omega, fun _ => ?_⟩
    refine (Lib.wp_bind _ _ _).mpr ((haux _ t (by omega)).mono fun arg t₁ h₁ => ?_)
    simp only [Lib.wp_bind]
    refine wp_failIf (by decide) fun _ => wp_peekToken fun t₂ _ h₂ => wp_token ?_
    refine wp_failIf (by decide) fun htok => ?_
    rw [Lib.wp_ite]
    refine ⟨fun _ => ?_, fun hne => ?_⟩
    · -- a comma: the next argument
      simp only [Lib.wp_bind]
      refine wp_getToken fun t₃ h₃ _ => wp_peekToken fun t₄ _ h₄ => wp_token ?_
      refine wp_failIf (by decide) fun _ => ?_
      exact (ih (by omega) (Or.inr (by omega))).mono fun _ _ h => by omega
    · -- the closing parenthesis
      have hb : t₂.rest.buf = [')'] := by
        simpa [hne] using htok
      exact (ih (by omega) (Or.inl ⟨hb, by omega⟩)).mono fun _ _ h => by omega

theorem textLeft_congr {t : Lib.Marked ParseState} (h : t.rest = s.rest) :
    textLeft t = textLeft s := by
  unfold textLeft
  rw [h]

theorem parseFunctionCall_ends {k n level : ℕ} (haux : Works env max k aux) (hk : textLeft s ≤ k)
    (hn : textLeft s + 1 ≤ n) (hpeek : Peeked env s) (hb : s.rest.buf ≠ []) :
    Wp (parseFunctionCall env max aux n level) (fun _ t => textLeft t < textLeft s) (ParserErr max)
      s := by
  unfold parseFunctionCall
  simp only [Lib.wp_bind]
  refine wp_checkParseLevel fun t₁ h₁ => wp_token ?_
  have hleft := textLeft_congr h₁
  refine wp_getToken fun t₂ h₂ hlt => ?_
  have hlt : textLeft t₂ < textLeft t₁ := by
    refine hlt ?_ ?_
    · unfold Peeked
      rw [h₁]
      exact hpeek
    · rw [h₁]
      exact hb
  refine (argLoop_ends haux (by omega) (Or.inr (by omega))).mono fun args t₃ h₃ => ?_
  refine wp_getToken fun t₄ h₄ _ => ?_
  cases env.findBuiltinFunc t₁.rest.buf.dropLast with
  | none =>
    show textLeft t₄ < textLeft s
    omega
  | some f =>
    simp only [Lib.wp_bind]
    refine wp_failIf (by decide) fun _ => ?_
    show textLeft t₄ < textLeft s
    omega

theorem parseAtom_ends {k n level : ℕ} (haux : Works env max k aux) (hk : textLeft s ≤ k)
    (hn : textLeft s + 1 ≤ n) :
    Wp (parseAtom env max locals aux n level) (fun _ t => textLeft t < textLeft s) (ParserErr max)
      s := by
  unfold parseAtom
  simp only [Lib.wp_bind]
  refine wp_checkParseLevel fun t₁ h₁ => wp_peekToken fun t₂ hpeek h₂ => wp_token ?_
  have hleft := textLeft_congr h₁
  rw [Lib.wp_ite]
  refine ⟨fun hb => ?_, fun hb => ?_⟩
  · simp only [Lib.wp_bind]
    refine wp_getToken fun t₃ h₃ hlt => ?_
    have hlt := hlt hpeek (by rw [hb]; simp)
    refine (haux _ t₃ (by omega)).mono fun node t₄ hnode => wp_token ?_
    have h₄ := hnode.1
    refine wp_failIf (by decide) fun _ => wp_getToken fun t₅ h₅ _ => ?_
    show textLeft t₅ < textLeft s
    omega
  · cases htok : t₂.rest.buf with
    | nil => exact ErrCode.Lexical.parserErr (by decide)
    | cons c tok =>
      have hne : t₂.rest.buf ≠ [] := by rw [htok]; simp
      simp only
      rw [Lib.wp_ite]
      refine ⟨fun _ => ?_, fun _ => ?_⟩
      · show ParserErr max _
        split_ifs <;> exact ErrCode.Lexical.parserErr (by decide)
      · rw [Lib.wp_ite]
        refine ⟨fun _ => ?_, fun _ => ?_⟩
        · refine (parseFunctionCall_ends haux (by omega) (by omega) hpeek hne).mono fun _ _ h => ?_
          omega
        · simp only [Lib.wp_bind]
          refine wp_getToken fun t₃ h₃ hlt => ?_
          have hlt := hlt hpeek hne
          refine wp_ofExcept (makeAtom_lexical _ _ _) fun node => ?_
          omega

theorem parseFactor_ends {k n level : ℕ} (haux : Works env max k aux) (hk : textLeft s ≤ k)
    (hn : textLeft s + 2 ≤ n) :
    Wp (parseFactor env max locals aux n level) (fun _ t => textLeft t < textLeft s) (ParserErr max)
      s := by
  induction n generalizing s level with
  | zero => omega
  | succ n ih =>
    unfold parseFactor
    simp only [Lib.wp_bind]
    refine wp_checkParseLevel fun t₁ h₁ => wp_peekToken fun t₂ hpeek h₂ => wp_token ?_
    have hleft := textLeft_congr h₁
    rw [Lib.wp_ite]
    refine ⟨fun hop => ?_, fun _ => ?_⟩
    · have hne : t₂.rest.buf ≠ [] := by
        rcases hop with h | h | h <;> rw [h] <;> simp
      simp only [Lib.wp_bind]
      refine wp_getToken fun t₃ h₃ hlt => ?_
      have hlt := hlt hpeek hne
      refine (ih (by omega) (by omega)).mono fun node t₄ h₄ => ?_
      show textLeft t₄ < textLeft s
      omega
    · exact (parseAtom_ends haux (by omega) (by omega)).mono fun _ _ h => by omega

/-- An operand of a level of the grammar does its work. -/
theorem termOperand_works {k n : ℕ} (haux : Works env max k aux) (hn : k + 2 ≤ n) :
    Works env max (k + 1) (termOperand env max locals aux n) := by
  intro level s hs
  unfold termOperand
  simp only [Lib.wp_bind]
  refine (parseFactor_ends haux (by omega) (by omega)).mono fun node t₁ h₁ => ?_
  refine wp_peekToken fun t₂ hpeek h₂ => ?_
  exact ⟨by omega, hpeek⟩

theorem binaryLoop_ends {k n : ℕ} {operand : ParseM Expr} {node : Expr}
    (hop : ∀ s, textLeft s < k →
      Wp operand (fun _ t => textLeft t < textLeft s ∧ Peeked env t) (ParserErr max) s)
    (hops : ops.lookup [] = none) (hk : textLeft s < k) (hpeek : Peeked env s)
    (hn : textLeft s + 1 ≤ n) :
    Wp (binaryLoop env ops operand n node) (fun _ t => textLeft t ≤ textLeft s ∧ Peeked env t)
      (ParserErr max) s := by
  induction n generalizing s node with
  | zero => omega
  | succ n ih =>
    unfold binaryLoop
    simp only [Lib.wp_bind]
    refine wp_token ?_
    cases hl : ops.lookup s.rest.buf with
    | none => exact ⟨le_rfl, hpeek⟩
    | some op =>
      have hne : s.rest.buf ≠ [] := by
        intro hb
        rw [hb, hops] at hl
        cases hl
      simp only [Lib.wp_bind]
      refine wp_getToken fun t₁ h₁ hlt => ?_
      have hlt := hlt hpeek hne
      refine (hop t₁ (by omega)).mono fun right t₂ hright => ?_
      obtain ⟨h₂, hpeek₂⟩ := hright
      exact (ih (by omega) hpeek₂ (by omega)).mono fun _ _ h => ⟨by omega, h.2⟩

/-- A level of the grammar does its work when the level below does. -/
theorem binaryLevel_works {k n : ℕ} {operand : ℕ → ParseM Expr} (hop : Works env max k operand)
    (hops : ops.lookup [] = none) (hn : k ≤ n) :
    Works env max k (binaryLevel env max ops operand n) := by
  intro level s hs
  unfold binaryLevel
  simp only [Lib.wp_bind]
  refine wp_checkParseLevel fun t₁ h₁ => ?_
  have hleft := textLeft_congr h₁
  refine (hop _ t₁ (by omega)).mono fun node t₂ hnode => ?_
  obtain ⟨h₂, hpeek⟩ := hnode
  refine (binaryLoop_ends (hop (level + 1)) hops (by omega) hpeek (by omega)).mono
    fun _ _ h => ⟨by omega, h.2⟩

/-- With fuel for the whole text the parser does its work. -/
theorem parseExpressionAux_works {k n : ℕ} (hn : k + 2 ≤ n) :
    Works env max k (parseExpressionAux env max locals n) := by
  induction n generalizing k with
  | zero => omega
  | succ n ih =>
    cases k with
    | zero => exact fun level s hs => absurd hs (Nat.not_lt_zero _)
    | succ k =>
      have hterm : Works env max (k + 1) (parseTermExpr env max locals _ n) :=
        binaryLevel_works (termOperand_works (ih (by omega)) (by omega)) rfl (by omega)
      have hcmp := @binaryLevel_works env max cmpOps _ _ _ hterm rfl (show k + 1 ≤ n by omega)
      have heq := @binaryLevel_works env max eqOps _ _ _ hcmp rfl (show k + 1 ≤ n by omega)
      have hand := @binaryLevel_works env max andOps _ _ _ heq rfl (show k + 1 ≤ n by omega)
      have hor := @binaryLevel_works env max orOps _ _ _ hand rfl (show k + 1 ≤ n by omega)
      exact binaryLevel_works hor rfl (by omega)

/-- `parse_expression` ends, and without a limit it exceeds none. -/
theorem parseExpression_total (inp : List Char) (g : ParserGlobals) (r : ErrCode) :
    (parseExpression env max locals inp g).1 = .error r → ParserErr max r := by
  have hwork := @parseExpressionAux_works env max locals (inp.length + 1) (inp.length + 3)
    (by omega) 0
    ⟨⟨inp, g.exprBuf⟩, g.parseLevelHighWater⟩ (Nat.lt_succ_self _)
  unfold parseExpression
  by_cases hd : env.disabled = true
  · rw [if_pos hd]
    intro h
    rw [← Except.error.inj h]
    exact ErrCode.Lexical.parserErr (by decide)
  · rw [if_neg hd]
    unfold Wp at hwork
    cases hrun : parseExpressionAux env max locals (inp.length + 3) 0
        ⟨⟨inp, g.exprBuf⟩, g.parseLevelHighWater⟩ with
    | error e t =>
      rw [hrun] at hwork
      intro h
      rw [← Except.error.inj h]
      exact hwork
    | ok node t =>
      unfold endOfExpression
      dsimp only
      split_ifs
      · exact nofun
      · intro h
        rw [← Except.error.inj h]
        exact ErrCode.Lexical.parserErr (by decide)

end Ends

/-! ### ExprBuf makes no difference -/

section Buffer

variable {α β : Type} {env : ParserEnv} {max : Option ℕ} {locals : List (List Char)}
  {aux : ℕ → ParseM Expr} {ops : List (List Char × (Expr → Expr → Expr))}

/-- The same outcome; after an error only the mark counts. -/
def SameOutcome : EStateM.Result ErrCode (Lib.Marked ParseState) α →
    EStateM.Result ErrCode (Lib.Marked ParseState) α → Prop
  | .ok a s, .ok b t => a = b ∧ s = t
  | .error r s, .error r' t => r = r' ∧ s.highWater = t.highWater
  | _, _ => False

theorem SameOutcome.refl (u : EStateM.Result ErrCode (Lib.Marked ParseState) α) :
    SameOutcome u u := by
  cases u <;> exact ⟨rfl, rfl⟩

/-- What the buffer holds at the start makes no difference. -/
def BufFree (x : ParseM α) : Prop :=
  ∀ inp b b' h, SameOutcome (x ⟨⟨inp, b⟩, h⟩) (x ⟨⟨inp, b'⟩, h⟩)

theorem bufFree_throw (r : ErrCode) : BufFree (throw r : ParseM α) := fun _ _ _ _ => ⟨rfl, rfl⟩

theorem bufFree_bind {x : ParseM α} (f : α → ParseM β) (hx : BufFree x) : BufFree (x >>= f) := by
  intro inp b b' h
  have hsame := hx inp b b' h
  show SameOutcome (EStateM.bind x f _) (EStateM.bind x f _)
  unfold EStateM.bind
  cases hu : x ⟨⟨inp, b⟩, h⟩ <;> cases hv : x ⟨⟨inp, b'⟩, h⟩ <;> rw [hu, hv] at hsame
  · obtain ⟨rfl, rfl⟩ := hsame
    exact SameOutcome.refl _
  · exact hsame.elim
  · exact hsame.elim
  · exact hsame

theorem bufFree_peekToken : BufFree (peekToken env) := by
  intro inp b b' h
  unfold peekToken Lib.unmarked
  dsimp only
  cases parseExprToken env.seps.timeSep inp with
  | error r => exact ⟨rfl, rfl⟩
  | ok p => exact ⟨rfl, rfl⟩

/-- The check of the level does not look at the buffer. -/
theorem bufFree_check {level : ℕ} {f : Unit → ParseM β} (hf : BufFree (f ())) :
    BufFree (checkParseLevel max level >>= f) := by
  intro inp b b' h
  have hcheck : ∀ c, checkParseLevel max level ⟨⟨inp, c⟩, h⟩ =
      match checkParseLevel max level ⟨⟨inp, []⟩, h⟩ with
      | .ok _ t => .ok () ⟨⟨inp, c⟩, t.highWater⟩
      | .error r t => .error r ⟨⟨inp, c⟩, t.highWater⟩ := by
    intro c
    unfold checkParseLevel checkDepth
    cases max with
    | none => split_ifs <;> rfl
    | some m => by_cases h1 : level > h <;> by_cases h2 : level > m <;> simp [h1, h2]
  show SameOutcome (EStateM.bind _ f _) (EStateM.bind _ f _)
  unfold EStateM.bind
  rw [hcheck b, hcheck b']
  cases checkParseLevel max level ⟨⟨inp, []⟩, h⟩ with
  | ok _ t => exact hf inp b b' t.highWater
  | error r t => exact ⟨rfl, rfl⟩

theorem parseFactor_bufFree (n level : ℕ) : BufFree (parseFactor env max locals aux n level) := by
  cases n with
  | zero => exact bufFree_throw _
  | succ n => exact bufFree_check (bufFree_bind _ bufFree_peekToken)

theorem binaryLevel_bufFree {operand : ℕ → ParseM Expr} (hop : ∀ level, BufFree (operand level))
    (n level : ℕ) : BufFree (binaryLevel env max ops operand n level) :=
  bufFree_check (bufFree_bind _ (hop _))

theorem parseExpressionAux_bufFree (n level : ℕ) :
    BufFree (parseExpressionAux env max locals n level) := by
  cases n with
  | zero => exact bufFree_throw _
  | succ n =>
    have hterm : ∀ level, BufFree (parseTermExpr env max locals
        (parseExpressionAux env max locals n) n level) :=
      binaryLevel_bufFree (fun level => bufFree_bind _ (parseFactor_bufFree n level)) n
    have hcmp := @binaryLevel_bufFree env max cmpOps _ hterm n
    have heq := @binaryLevel_bufFree env max eqOps _ hcmp n
    have hand := @binaryLevel_bufFree env max andOps _ heq n
    have hor := @binaryLevel_bufFree env max orOps _ hand n
    exact binaryLevel_bufFree hor n level

/-- What `ExprBuf` holds from earlier makes no difference to `parse_expression`. -/
theorem parseExpression_bufFree (inp b b' : List Char) (h : ℕ) :
    (parseExpression env max locals inp ⟨b, h⟩).1 = (parseExpression env max locals inp ⟨b', h⟩).1 ∧
      (parseExpression env max locals inp ⟨b, h⟩).2.parseLevelHighWater =
        (parseExpression env max locals inp ⟨b', h⟩).2.parseLevelHighWater := by
  have hsame := @parseExpressionAux_bufFree env max locals
    (inp.length + 3) 0 inp b b' h
  unfold parseExpression
  split_ifs
  · exact ⟨rfl, rfl⟩
  · dsimp only
    cases hu : parseExpressionAux env max locals (inp.length + 3) 0 ⟨⟨inp, b⟩, h⟩ <;>
      cases hv : parseExpressionAux env max locals (inp.length + 3) 0 ⟨⟨inp, b'⟩, h⟩ <;>
        rw [hu, hv] at hsame
    · obtain ⟨rfl, rfl⟩ := hsame
      exact ⟨rfl, rfl⟩
    · exact hsame.elim
    · exact hsame.elim
    · obtain ⟨rfl, hmark⟩ := hsame
      exact ⟨rfl, hmark⟩

end Buffer

/-! ### Runs -/

section Runs

/-- A call of `parse_expression`. -/
structure ParseCall where
  env : ParserEnv
  locals : List (List Char)
  text : List Char

/-- The static variables at the start of the program. -/
def ParserGlobals.init : ParserGlobals := ⟨[], 0⟩

def ParseCall.run (c : ParseCall) (g : ParserGlobals) :
    Except ErrCode (Expr × List Char) × ParserGlobals :=
  parseExpression c.env (some maxParseLevel) c.locals c.text g

/-- The call without a limit. -/
def ParseCall.free (c : ParseCall) : Except ErrCode (Expr × List Char) × ParserGlobals :=
  parseExpression c.env none c.locals c.text .init

/-- The nesting of a text: the greatest level that the descent through it reaches where nothing
limits it. -/
def ParseCall.nesting (c : ParseCall) : ℕ := c.free.2.parseLevelHighWater

/-- The static variables after calls from the start of the program on. -/
def globalsAfter (history : List ParseCall) : ParserGlobals :=
  history.foldl (fun g c => (c.run g).2) .init

/-- The call gives the same result after any two histories, and a text nested too deeply is
rejected after each. -/
def ParseCall.HistoryFree (c : ParseCall) : Prop :=
  (∀ h₁ h₂, (c.run (globalsAfter h₁)).1 = (c.run (globalsAfter h₂)).1) ∧
    (maxParseLevel < c.nesting → ∀ h, (c.run (globalsAfter h)).1 = .error .opStkOver)

variable {c : ParseCall} {g : ParserGlobals}

theorem endOfExpression_mark (u : EStateM.Result ErrCode (Lib.Marked ParseState) Expr) :
    (endOfExpression u).2.parseLevelHighWater = Lib.mark u := by
  cases u with
  | error r s => rfl
  | ok node s =>
    unfold endOfExpression
    dsimp only
    split_ifs <;> rfl

/-- What `parse_expression` does with an outcome does not depend on the mark. -/
theorem endOfExpression_raise (h : ℕ) (u : EStateM.Result ErrCode (Lib.Marked ParseState) Expr) :
    (endOfExpression (Lib.raise h u)).1 = (endOfExpression u).1 := by
  cases u with
  | error r s => rfl
  | ok node s =>
    unfold Lib.raise endOfExpression
    dsimp only
    split_ifs <;> rfl

/-- A call of `parse_expression` by the mark it finds: with room for the text up to the mark or the
limit the result is the one without a limit; otherwise it is an error and the mark is passed. -/
theorem ParseCall.run_cases (c : ParseCall) (g : ParserGlobals) :
    (c.nesting ≤ max g.parseLevelHighWater maxParseLevel → (c.run g).1 = c.free.1 ∧
      (c.run g).2.parseLevelHighWater = max g.parseLevelHighWater c.nesting) ∧
      (max g.parseLevelHighWater maxParseLevel < c.nesting →
        (c.run g).1 = .error .opStkOver ∧
          max g.parseLevelHighWater maxParseLevel < (c.run g).2.parseLevelHighWater) := by
  obtain ⟨b, h⟩ := g
  have hbuf := @parseExpression_bufFree c.env (some maxParseLevel) c.locals c.text b [] h
  unfold ParseCall.run
  rw [hbuf.1, hbuf.2]
  unfold ParseCall.nesting ParseCall.free parseExpression
  split_ifs with hd
  · exact ⟨fun _ => ⟨rfl, (max_eq_left (Nat.zero_le h)).symm⟩, fun hlt => absurd hlt (Nat.not_lt_zero _)⟩
  · obtain ⟨h1, h2, h3⟩ := @parseExpressionAux_follows c.env c.locals
      maxParseLevel (c.text.length + 3) 0 ⟨c.text, []⟩ h
    rw [endOfExpression_mark]
    refine ⟨fun hle => ?_, fun hlt => ?_⟩
    · rw [h2 hle, h1, endOfExpression_mark, Lib.mark_raise]
      exact ⟨endOfExpression_raise h _, rfl⟩
    · obtain ⟨t, ht, hgt⟩ := h3 hlt
      rw [ht]
      exact ⟨rfl, hgt⟩

/-- Without a limit none is exceeded. -/
theorem ParseCall.free_ne (c : ParseCall) : c.free.1 ≠ .error .opStkOver := fun h =>
  (parseExpression_total _ _ _ h).2 rfl rfl

theorem globalsAfter_concat (history : List ParseCall) (c : ParseCall) :
    globalsAfter (history ++ [c]) = (c.run (globalsAfter history)).2 := by
  simp [globalsAfter]

/-- Each failure of a text that is nested too deeply passes the mark, until there is room for it. -/
theorem mark_replicate (c : ParseCall) (k : ℕ) :
    min k c.nesting ≤ (globalsAfter (List.replicate k c)).parseLevelHighWater := by
  induction k with
  | zero => exact le_trans (min_le_left _ _) (Nat.zero_le _)
  | succ k ih =>
    rw [List.replicate_succ', globalsAfter_concat]
    obtain ⟨hroom, hover⟩ := c.run_cases (globalsAfter (List.replicate k c))
    by_cases hle : c.nesting ≤ max (globalsAfter (List.replicate k c)).parseLevelHighWater
        maxParseLevel
    · rw [(hroom hle).2]
      exact le_trans (min_le_right _ _) (le_max_right _ _)
    · have := (hover (not_le.mp hle)).2
      omega

end Runs

/-! ### Texts of one operand -/

section Operand

variable {env : ParserEnv} {locals : List (List Char)} {aux : ℕ → ParseM Expr}
  {ops : List (List Char × (Expr → Expr → Expr))} {E : ErrCode → Prop}

theorem wp_peekToken_eq {s : ParseState} {h : ℕ} {buf rest : List Char}
    {Q : Unit → Lib.Marked ParseState → Prop}
    (htok : parseExprToken env.seps.timeSep s.inp = .ok (buf, rest)) (hQ : Q () ⟨⟨s.inp, buf⟩, h⟩) :
    Wp (peekToken env) Q E ⟨s, h⟩ := by
  refine (Lib.wp_unmarked _ _).mpr ?_
  unfold Wp
  simp only [htok]
  exact hQ

theorem wp_getToken_eq {s : ParseState} {h : ℕ} {buf rest : List Char}
    {Q : Unit → Lib.Marked ParseState → Prop}
    (htok : parseExprToken env.seps.timeSep s.inp = .ok (buf, rest)) (hQ : Q () ⟨⟨rest, buf⟩, h⟩) :
    Wp (getToken env) Q E ⟨s, h⟩ := by
  refine (Lib.wp_unmarked _ _).mpr ?_
  unfold Wp
  simp only [htok]
  exact hQ

/-- A token that begins a constant or the name of a variable. -/
def BeginsAtom (tok : List Char) : Prop :=
  ∃ c t, tok = c :: t ∧ (isId c = true ∨ c = '$' ∨ c = '"' ∨ c = '\'')

theorem parseAtom_token {inp tok rest b : List Char} {node : Expr} (n level h : ℕ)
    (htok : parseExprToken env.seps.timeSep inp = .ok (tok, rest)) (hfirst : BeginsAtom tok)
    (hlast : tok.getLast? ≠ some '(') (hatom : makeAtom env locals tok = .ok node) :
    Wp (parseAtom env none locals aux n level)
      (fun node' t => node' = node ∧ t = ⟨⟨rest, tok⟩, max h level⟩) E ⟨⟨inp, b⟩, h⟩ := by
  obtain ⟨c, t, rfl, hc⟩ := hfirst
  have hpar : c :: t ≠ ['('] := by
    rintro hpar
    rw [(List.cons.inj hpar).1] at hc
    exact absurd hc (by decide)
  have hid : ¬ (!isId c && c ≠ '$' && c ≠ '"' && c ≠ '\'') = true := by
    simp only [Bool.and_eq_true, Bool.not_eq_true', decide_eq_true_eq, not_and]
    rcases hc with h | h | h | h <;> simp [h]
  unfold parseAtom
  simp only [Lib.wp_bind]
  refine Lib.wp_checkDepth_none.mpr (wp_peekToken_eq htok (wp_token ?_))
  dsimp only
  rw [if_neg hpar, if_neg hid, if_neg hlast, Lib.wp_bind]
  refine wp_getToken_eq htok ?_
  rw [hatom]
  exact ⟨rfl, rfl⟩

theorem parseFactor_token {inp tok rest b : List Char} {node : Expr} (n level h : ℕ)
    (htok : parseExprToken env.seps.timeSep inp = .ok (tok, rest)) (hfirst : BeginsAtom tok)
    (hlast : tok.getLast? ≠ some '(') (hatom : makeAtom env locals tok = .ok node) :
    Wp (parseFactor env none locals aux (n + 1) level)
      (fun node' t => node' = node ∧ t = ⟨⟨rest, tok⟩, max h (level + 1)⟩) E ⟨⟨inp, b⟩, h⟩ := by
  have hop : ¬ (tok = ['!'] ∨ tok = ['-'] ∨ tok = ['+']) := by
    obtain ⟨c, t, rfl, hc⟩ := hfirst
    rintro (hop | hop | hop) <;> rw [(List.cons.inj hop).1] at hc <;> exact absurd hc (by decide)
  unfold parseFactor
  simp only [Lib.wp_bind]
  refine Lib.wp_checkDepth_none.mpr (wp_peekToken_eq htok (wp_token ?_))
  dsimp only
  rw [if_neg hop]
  refine (parseAtom_token _ _ _ htok hfirst hlast hatom).mono fun node' t hnode => ⟨hnode.1, ?_⟩
  rw [hnode.2]
  simp [max_assoc]

theorem binaryLevel_one {operand : ℕ → ParseM Expr} {n level d h : ℕ} {s t : ParseState}
    {node : Expr} (hn : n ≠ 0) (hops : ops.lookup t.buf = none)
    (hop : ∀ h, Wp (operand (level + 1))
      (fun node' t' => node' = node ∧ t' = ⟨t, max h (level + 1 + d)⟩) E ⟨s, h⟩) :
    Wp (binaryLevel env none ops operand n level)
      (fun node' t' => node' = node ∧ t' = ⟨t, max h (level + (d + 1))⟩) E ⟨s, h⟩ := by
  obtain ⟨n, rfl⟩ := Nat.exists_eq_succ_of_ne_zero hn
  unfold binaryLevel
  simp only [Lib.wp_bind]
  refine Lib.wp_checkDepth_none.mpr ((hop _).mono ?_)
  rintro _ _ ⟨rfl, rfl⟩
  unfold binaryLoop
  rw [Lib.wp_bind]
  refine wp_token ?_
  simp only [hops]
  refine ⟨rfl, ?_⟩
  simp only [Lib.Marked.mk.injEq, true_and]
  omega

/-- A text that is one factor is one expression. -/
theorem parseExpressionAux_factor {inp rest buf end' b : List Char} {node : Expr} {n d h : ℕ}
    (hn : n ≠ 0) (hend : parseExprToken env.seps.timeSep rest = .ok ([], end'))
    (hfactor : ∀ level h, Wp (parseFactor env none locals (parseExpressionAux env none locals n) n level)
      (fun node' t => node' = node ∧ t = ⟨⟨rest, buf⟩, max h (level + d)⟩) (fun _ => False)
      ⟨⟨inp, b⟩, h⟩) :
    parseExpressionAux env none locals (n + 1) 0 ⟨⟨inp, b⟩, h⟩ =
      .ok node ⟨⟨rest, []⟩, max h (d + 6)⟩ := by
  have hoperand : ∀ level h, Wp (termOperand env none locals (parseExpressionAux env none locals n) n
      level) (fun node' t => node' = node ∧ t = ⟨⟨rest, []⟩, max h (level + d)⟩) (fun _ => False)
      ⟨⟨inp, b⟩, h⟩ := by
    intro level h
    unfold termOperand
    simp only [Lib.wp_bind]
    refine (hfactor level h).mono ?_
    rintro _ _ ⟨rfl, rfl⟩
    exact wp_peekToken_eq hend ⟨rfl, rfl⟩
  have hterm := fun level h =>
    @binaryLevel_one env termOps (fun _ => False) _ _ level _ h _ _ _ hn rfl (hoperand (level + 1))
  have hcmp := fun level h =>
    @binaryLevel_one env cmpOps (fun _ => False) _ _ level _ h _ _ _ hn rfl (hterm (level + 1))
  have heq := fun level h =>
    @binaryLevel_one env eqOps (fun _ => False) _ _ level _ h _ _ _ hn rfl (hcmp (level + 1))
  have hand := fun level h =>
    @binaryLevel_one env andOps (fun _ => False) _ _ level _ h _ _ _ hn rfl (heq (level + 1))
  have hor := fun level h =>
    @binaryLevel_one env orOps (fun _ => False) _ _ level _ h _ _ _ hn rfl (hand (level + 1))
  have hexpr := @binaryLevel_one env exprOps (fun _ => False) _ _ 0 _ h _ _ _ hn rfl (hor 1)
  rw [Nat.zero_add] at hexpr
  exact hexpr.eq_ok

/-- A text of one token is read as its constant or variable, whatever was parsed before. -/
theorem ParseCall.run_token (c : ParseCall) (g : ParserGlobals) {tok rest end' : List Char}
    {node : Expr} (hd : c.env.disabled = false)
    (htok : parseExprToken c.env.seps.timeSep c.text = .ok (tok, rest)) (hfirst : BeginsAtom tok)
    (hlast : tok.getLast? ≠ some '(') (hatom : makeAtom c.env c.locals tok = .ok node)
    (hend : parseExprToken c.env.seps.timeSep rest = .ok ([], end'))
    (hrest : rest.dropWhile isEmptyChar = []) :
    (c.run g).1 = .ok (node, []) := by
  have hrun := parseExpressionAux_factor (h := 0) (b := []) (Nat.succ_ne_zero (c.text.length + 1)) hend
    fun level h => parseFactor_token (c.text.length + 1) level h htok hfirst hlast hatom
  have hfree : c.free = (.ok (node, []), ⟨[], 7⟩) := by
    unfold ParseCall.free parseExpression
    rw [if_neg (by rw [hd]; decide)]
    show endOfExpression (parseExpressionAux _ none _ (c.text.length + 1 + 1 + 1) 0 ⟨⟨c.text, []⟩, 0⟩) = _
    rw [hrun]
    unfold endOfExpression
    simp only [hrest, true_or, if_true]
    rfl
  have hnest : c.nesting = 7 := by
    unfold ParseCall.nesting
    rw [hfree]
  have hroom : c.nesting ≤ max g.parseLevelHighWater maxParseLevel :=
    le_trans (le_of_eq_of_le hnest (by decide)) (le_max_right _ _)
  rw [((c.run_cases g).1 hroom).1, hfree]

end Operand

/-! ### A text that is rejected once -/

section Minus

variable {env : ParserEnv} {locals : List (List Char)} {aux : ℕ → ParseM Expr}
  {E : ErrCode → Prop}

/-- `1` with `k` minus signs before it. -/
def minusText (k : ℕ) : List Char := List.replicate k '-' ++ ['1']

theorem minusText_length (k : ℕ) : (minusText k).length = k + 1 := by
  simp [minusText]

theorem parseExprToken_minus (sep : Char) (s : List Char) :
    parseExprToken sep ('-' :: s) = .ok (['-'], s) := rfl

theorem parseExprToken_one (sep : Char) : parseExprToken sep ['1'] = .ok (['1'], []) := rfl

theorem makeAtom_one : makeAtom env locals ['1'] = .ok (.const (.int 1)) := by
  have hdigits : ∀ c ∈ ['1'], c.isDigit = true := List.forall_mem_singleton.mpr rfl
  have hloop : decimalLoop 0 ['1'] = .ok (1, []) := by decide +kernel
  unfold makeAtom
  simp only
  rw [if_neg (by decide), if_neg (by decide), setConstantValue_digit (by decide) rfl,
    numberConstant_digits hdigits, numberConstant.decimal, hloop]
  rfl

theorem parseFactor_minus (k n level h : ℕ) (b : List Char) (hn : k < n) :
    Wp (parseFactor env none locals aux n level)
      (fun node t => node = .const (.int ((-1) ^ k)) ∧ t = ⟨⟨[], ['1']⟩, max h (level + k + 1)⟩) E
      ⟨⟨minusText k, b⟩, h⟩ := by
  induction k generalizing n level h b with
  | zero =>
    obtain ⟨n, rfl⟩ := Nat.exists_eq_succ_of_ne_zero (show n ≠ 0 by omega)
    exact parseFactor_token n level h (parseExprToken_one _) ⟨'1', [], rfl, Or.inl rfl⟩ (by decide)
      makeAtom_one
  | succ k ih =>
    obtain ⟨n, rfl⟩ := Nat.exists_eq_succ_of_ne_zero (show n ≠ 0 by omega)
    unfold parseFactor
    simp only [Lib.wp_bind]
    refine Lib.wp_checkDepth_none.mpr (wp_peekToken_eq (parseExprToken_minus _ _) (wp_token ?_))
    dsimp only
    rw [if_pos (by decide), Lib.wp_bind]
    refine wp_getToken_eq (parseExprToken_minus _ _) ?_
    rw [Lib.wp_bind]
    refine (ih n (level + 1) _ _ (by omega)).mono fun node t hnode => ?_
    obtain ⟨hnode, ht⟩ := hnode
    constructor
    · rw [hnode, pow_succ]
      rcases neg_one_pow_eq_or ℤ k with h1 | h1 <;> rw [h1] <;> rfl
    · rw [ht]
      simp only [Lib.Marked.mk.injEq, true_and]
      omega

/-- `k` minus signs take the descent to level `k + 7`. -/
theorem parseExpressionAux_minus (k n h : ℕ) (b : List Char) (hn : k < n) :
    parseExpressionAux env none locals (n + 1) 0 ⟨⟨minusText k, b⟩, h⟩ =
      .ok (.const (.int ((-1) ^ k))) ⟨⟨[], []⟩, max h (k + 7)⟩ :=
  parseExpressionAux_factor (by omega) rfl fun level h => parseFactor_minus k n level h b hn

/-- A call on `1` with `k` minus signs before it. -/
def minusCall (k : ℕ) : ParseCall :=
  ⟨⟨{}, fun _ => none, fun _ => none, false⟩, [], minusText k⟩

theorem minusCall_free (k : ℕ) :
    (minusCall k).free = (.ok (.const (.int ((-1) ^ k)), []), ⟨[], k + 7⟩) := by
  have hrun := @parseExpressionAux_minus (minusCall k).env
    (minusCall k).locals k ((minusText k).length + 2) 0 []
    (by rw [minusText_length]; omega)
  rw [Nat.zero_max] at hrun
  unfold ParseCall.free parseExpression
  rw [if_neg (show ¬ (minusCall k).env.disabled = true from nofun)]
  show endOfExpression (parseExpressionAux _ none _ ((minusText k).length + 2 + 1) 0
    ⟨⟨minusText k, []⟩, 0⟩) = _
  rw [hrun]
  rfl

theorem minusCall_nesting (k : ℕ) : (minusCall k).nesting = k + 7 := by
  unfold ParseCall.nesting
  rw [minusCall_free]

theorem minusCall_result (k : ℕ) :
    (minusCall k).free.1 = .ok (.const (.int ((-1) ^ k)), []) := by
  rw [minusCall_free]

end Minus

end Remind
