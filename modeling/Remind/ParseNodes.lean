import Remind.NodeRules
import Remind.ParseLevel

/-!
# ParseNodes — the parser on nodes owns what it has built

Each function of the parser on nodes does what its namesake in ExprParse does, the tree that it
returns stands for the expression of that one, and where it fails it has given back every node that
it took.
-/

namespace Remind

open Lib (Cell Pool NodeTree Holds)
open Lib.Pool (Keeps)

/-! ### What trees stand for -/

/-- An operator applied to its operands; a unary one has one. -/
def NodeOp.apply : NodeOp → Expr → Expr → Expr
  | .unary op, e, _ => .unop op e
  | .binary op, e, e' => .binop op e e'
  | .logical isAnd, e, e' => .logical isAnd e e'

/-- The expression of a node with its arguments. -/
def NodeKind.expr : NodeKind → List Expr → Option Expr
  | .constant value, [] => some (.const value)
  | .shortStr s, [] => some (.const (.str (String.ofList s)))
  | .localVar arg, [] => some (.localVar arg)
  | .shortVar name, [] => some (.var name)
  | .variable name, [] => some (.var name)
  | .sysvar name constInt, [] => some (.sysvar name constInt)
  | .builtinFunc f, args => some (.builtin f args)
  | .shortUserFunc name, args => some (.user name args)
  | .userFunc name, args => some (.user name args)
  | .operator (.unary op), [e] => some (.unop op e)
  | .operator (.binary op), [e, e'] => some (.binop op e e')
  | .operator (.logical isAnd), [e, e'] => some (.logical isAnd e e')
  | _, _ => none

/-- The expressions of a tree and of the siblings behind it. -/
def treeExprs : NodeTree NodeKind → Option (List Expr)
  | .nil => some []
  | .node _ k kids rest => do
    let args ← treeExprs kids
    let e ← k.expr args
    let es ← treeExprs rest
    return e :: es

theorem treeExprs_append {t u : NodeTree NodeKind} {es fs : List Expr} (ht : treeExprs t = some es)
    (hu : treeExprs u = some fs) : treeExprs (t.append u) = some (es ++ fs) := by
  induction t generalizing es with
  | nil =>
    cases ht
    exact hu
  | node a k kids rest _ ihr =>
    simp only [treeExprs, Option.bind_eq_bind, Option.bind_eq_some_iff] at ht
    obtain ⟨args, hargs, e, he, es', hes, hcons⟩ := ht
    cases hcons
    rw [NodeTree.append, treeExprs, hargs, ihr hes]
    simp only [Option.bind_eq_bind, Option.bind_some, he]
    rfl

/-- The node `a`, which belongs to nobody of `live`, stands for the expression `e`. -/
def StandsFor (live : Multiset ℕ) (e : Expr) (a : ℕ) (s : NodeState) : Prop :=
  ∃ k kids args, Owns s live a k kids ∧ treeExprs kids = some args ∧ k.expr args = some e

theorem treeExprs_single {a : ℕ} {k : NodeKind} {kids : NodeTree NodeKind} {args : List Expr}
    {e : Expr} (hargs : treeExprs kids = some args) (he : k.expr args = some e) :
    treeExprs (.node a k kids .nil) = some [e] := by
  rw [treeExprs, hargs]
  simp only [Option.bind_eq_bind, Option.bind_some, he]
  rfl

/-- The function on nodes does what the one on the text does. -/
def ParsesAs (p : ParseM Expr) (m : NodeM ℕ) : Prop := ∀ live s, Accounted s.heap live →
  Mirrors p m live s (StandsFor live) fun t => Accounted t.heap live

section Parser

variable {env : ParserEnv} {max : Option ℕ} {locals : List (List Char)} {mem : ℕ → Bool}
  {aux : ℕ → ParseM Expr} {aux' : ℕ → NodeM ℕ} {live : Multiset ℕ} {s : NodeState} {a n level : ℕ}
  {k : NodeKind} {kids : NodeTree NodeKind} {args : List Expr} {e : Expr}

/-! ### Atoms -/

/-- The node `a` has no children and stands for `e`. -/
def Leaf (live : Multiset ℕ) (a : ℕ) (e : Expr) (s : NodeState) : Prop :=
  ∃ k, Owns s live a k .nil ∧ k.expr [] = some e

/-- The node `a` can be given back. -/
def Returnable (live : Multiset ℕ) (a : ℕ) (s : NodeState) : Prop :=
  ∃ tree, Holds .free s.heap.cells (some a) tree ∧ Accounted s.heap (tree.addrs + live)

theorem NodeKind.ne_free (h : k.expr args = some e) : k ≠ .free := by
  rintro rfl
  cases h

theorem setLeaf_mirrors {q : NodeKind} (h : Owns s live a k .nil) (he : q.expr [] = some e)
    {E : NodeState → Prop} :
    Mirrors (pure e) (setKind a q) live s (fun e _ => Leaf live a e) E :=
  mirrors_value (mirrors_setKind h (NodeKind.ne_free he)) fun _ _ ht => ⟨q, ht.1, he⟩

/-- A leaf whose text does not fit into the node. -/
theorem mallocLeaf_mirrors {q : NodeKind} (h : Owns s live a k .nil) (he : q.expr [] = some e) :
    Mirrors (pure e) (do mallocString mem; setKind a q) live s (fun e _ => Leaf live a e)
      (Returnable live a) := by
  refine mirrors_seq (mirrors_mallocString fun n => ⟨_, h.holds, h.accounted⟩) ?_
  rintro - _ - ⟨n, rfl⟩
  exact setLeaf_mirrors (s := { s with asked := n }) ⟨h.holds, h.accounted⟩ he

/-- The node of a constant. -/
theorem setConstantNode_mirrors (h : Owns s live a .error .nil) (str : List Char) :
    Mirrors (ofExcept ((setConstantValue env.seps str).map .const))
      (setConstantNode env mem a str) live s (fun e _ => Leaf live a e) (Returnable live a) := by
  unfold setConstantNode
  have herror : ∀ {E : NodeState → Prop}, Mirrors (pure ()) (setKind a .error) live s
      (fun _ _ t => Owns t live a .error .nil) E := fun {E} =>
    mirrors_value (mirrors_setKind h nofun) fun _ _ ht => ht.1
  have hleaf : ∀ value, Mirrors (pure (.const value)) (setKind a (.constant value)) live s
      (fun e _ => Leaf live a e) (Returnable live a) := fun _ => setLeaf_mirrors h rfl
  cases hval : setConstantValue env.seps str with
  | error r =>
    refine mirrors_seq herror fun _ t _ ht => ?_
    exact mirrors_throw ⟨_, ht.holds, ht.accounted⟩
  | ok value =>
    cases value with
    | str text =>
      change Mirrors (pure (Expr.const (.str text))) _ _ _ _ _
      dsimp only
      split_ifs with hshort
      · refine setLeaf_mirrors h ?_
        rw [NodeKind.expr, String.ofList_toList]
      · refine mirrors_seq herror fun _ t _ ht => ?_
        exact mallocLeaf_mirrors ht rfl
    | int n => exact hleaf _
    | time n => exact hleaf _
    | date n => exact hleaf _
    | datetime n => exact hleaf _

/-- The node of an atom. -/
theorem makeAtomNode_mirrors (h : Owns s live a .error .nil) (str : List Char) :
    Mirrors (ofExcept (makeAtom env locals str)) (makeAtomNode env locals mem a str) live s
      (fun e _ => Leaf live a e) (Returnable live a) := by
  cases str with
  | nil => exact @setConstantNode_mirrors env mem _ _ _ h []
  | cons c rest =>
    unfold makeAtom makeAtomNode
    dsimp only
    by_cases hname : (c.isAlpha || decide (c = '_')) = true
    · rw [if_pos hname, if_pos hname]
      cases locals.findIdx? (sameName (c :: rest)) with
      | some i =>
        change Mirrors (pure (Expr.localVar i)) _ _ _ _ _
        exact setLeaf_mirrors h rfl
      | none =>
        change Mirrors (pure (Expr.var ((c :: rest).take maxNameLen))) _ _ _ _ _
        dsimp only
        split_ifs with hshort
        · refine setLeaf_mirrors h ?_
          rw [List.take_of_length_le (hshort.le.trans (by decide))]
          rfl
        · exact mallocLeaf_mirrors h rfl
    · rw [if_neg hname, if_neg hname]
      split_ifs with hvar
      · cases env.findSysVar rest with
        | some v =>
          change Mirrors (pure (Expr.sysvar v.1 v.2)) _ _ _ _ _
          exact setLeaf_mirrors h rfl
        | none => exact mirrors_throw ⟨_, h.holds, h.accounted⟩
      · exact setConstantNode_mirrors h _

/-! ### Functions -/

/-- The expression of a function and its arguments. -/
def funcExpr (f : Option BuiltinFunc) (str : List Char) (args : List Expr) : Expr :=
  match f with
  | some f => .builtin f args
  | none => .user ((str.take maxNameLen).map Char.toLower) args

theorem setFunc_mirrors (h : Owns s live a .error .nil) (f : Option BuiltinFunc)
    (str : List Char) :
    Mirrors (pure ()) (setFunc mem a f str) live s
      (fun _ _ t => ∃ k, Owns t live a k .nil ∧
        (t.heap.cells a).numKids = (s.heap.cells a).numKids ∧
        ∀ args, k.expr args = some (funcExpr f str args))
      fun t => Accounted t.heap live := by
  cases f with
  | some f =>
    exact mirrors_value (mirrors_setKind h nofun) fun _ _ ht => ⟨_, ht.1, ht.2, fun _ => rfl⟩
  | none =>
    unfold setFunc
    dsimp only
    split_ifs with hshort
    · refine mirrors_value (mirrors_setKind h nofun) fun _ _ ht => ⟨_, ht.1, ht.2, fun _ => ?_⟩
      rw [funcExpr, List.take_of_length_le (hshort.le.trans (by decide))]
      rfl
    · refine mirrors_seq (mirrors_orReturn rfl
        (mirrors_mallocString fun n => ⟨_, h.holds, h.accounted⟩)) ?_
      rintro - _ - ⟨n, rfl⟩
      have h' : Owns { s with asked := n } live a .error .nil := ⟨h.holds, h.accounted⟩
      exact mirrors_value (mirrors_setKind h' nofun) fun _ _ ht => ⟨_, ht.1, ht.2, fun _ => rfl⟩

theorem failIf_bind {α : Type} (b : Bool) (r : ErrCode) (x : Unit → ParseM α) :
    (failIf b r >>= x) = if b then throw r else x () := by
  cases b <;> rfl

/-- The loop over the arguments; the node of the function counts them. -/
theorem argNodes_mirrors (haux : ∀ level, ParsesAs (aux level) (aux' level))
    (f : Option BuiltinFunc) (h : Owns s live a k kids) (hargs : treeExprs kids = some args)
    (hnum : (s.heap.cells a).numKids = args.length) :
    Mirrors (argLoop env aux f level n args) (argNodes env aux' f a level n) live s
      (fun args _ t => ∃ kids, Owns t live a k kids ∧ treeExprs kids = some args ∧
        (t.heap.cells a).numKids = args.length)
      fun t => Accounted t.heap live := by
  induction n generalizing s kids args with
  | zero => exact mirrors_failWith h.holds (freeThenNull_eq a) h.accounted
  | succ n ih =>
    unfold argLoop argNodes
    refine mirrors_token fun tok => ?_
    by_cases htok : tok = [')']
    · rw [if_pos htok, if_pos htok]
      exact ⟨args, rfl, Keeps.refl _, kids, h, hargs, hnum⟩
    rw [if_neg htok, if_neg htok]
    refine mirrors_textOr h rfl fun _ text h => mirrors_token fun tok => ?_
    by_cases htok : tok = [')']
    · rw [if_pos htok, if_pos htok]
      exact ih h hargs hnum
    rw [if_neg htok, if_neg htok]
    -- an argument, while the node of the function is owned
    refine mirrors_bind (mirrors_orFree h.holds (freeThenNull_eq a)
      (haux (level + 1) _ _ h.accounted)) ?_
    rintro e arg t - ⟨⟨k', kids', args', harg, hargs', hexpr⟩, hkeeps⟩
    have hself : t.heap.cells a = s.heap.cells a :=
      hkeeps a (Multiset.mem_add.2 (.inl (Multiset.mem_cons_self _ _)))
    have hwide : Accounted t.heap ((NodeTree.node a k kids .nil).addrs +
        ((NodeTree.node arg k' kids' .nil).addrs + live)) := by
      rw [← Multiset.add_assoc, Multiset.add_comm (NodeTree.addrs _), Multiset.add_assoc]
      exact harg.accounted
    refine mirrors_seq (mirrors_addChild (h.keeps hkeeps) harg.holds hwide) ?_
    rintro - u - ⟨hu, hnumu⟩
    have hargsu := treeExprs_append hargs (treeExprs_single (a := arg) hargs' hexpr)
    have hnumu : (u.heap.cells a).numKids = (args ++ [e]).length := by
      rw [hnumu, hself, hnum, List.length_append]
      rfl
    refine mirrors_nodeAt ?_
    rw [hnumu, failIf_bind, List.length_append, List.length_singleton]
    by_cases hmany : tooManyArgs f (args.length + 1) = true
    · rw [if_pos hmany, if_pos hmany]
      exact mirrors_failWith hu.holds (freeThenNull_eq a) hu.accounted
    rw [if_neg hmany, if_neg hmany]
    refine mirrors_textOr hu rfl fun _ text hu => mirrors_token fun tok => ?_
    rw [failIf_bind]
    by_cases hbad : tok ≠ [')'] ∧ tok ≠ [',']
    · rw [if_pos (decide_eq_true hbad), if_pos hbad]
      exact mirrors_failWith hu.holds rfl hu.accounted
    rw [if_neg (by rw [decide_eq_true_eq]; exact hbad), if_neg hbad]
    by_cases hcomma : tok = [',']
    · rw [if_pos hcomma, if_pos hcomma]
      refine mirrors_textOr hu rfl fun _ text hu => mirrors_textOr hu rfl fun _ text hu =>
        mirrors_token fun tok => ?_
      rw [failIf_bind]
      by_cases hclose : tok = [')']
      · rw [if_pos (decide_eq_true hclose), if_pos hclose]
        exact mirrors_failWith hu.holds rfl hu.accounted
      · rw [if_neg (by rw [decide_eq_true_eq]; exact hclose), if_neg hclose]
        exact ih hu hargsu hnumu
    · rw [if_neg hcomma, if_neg hcomma]
      exact ih hu hargsu hnumu

theorem parseFunctionNode_parses (haux : ∀ level, ParsesAs (aux level) (aux' level)) :
    ParsesAs (parseFunctionCall env max aux n level)
      (parseFunctionNode env max mem aux' n level) := by
  intro live s h
  unfold parseFunctionCall parseFunctionNode
  refine mirrors_text h (fun _ h => h) fun _ text => ?_
  refine mirrors_seq (mirrors_allocExprNode h) ?_
  rintro a t - ⟨ht, hnum⟩
  refine mirrors_token fun tok => ?_
  dsimp only
  refine mirrors_seq (setFunc_mirrors ht _ _) ?_
  rintro - t - ⟨k, ht, hnum', hexpr⟩
  rw [hnum] at hnum'
  refine mirrors_textOr ht (freeThenNull_eq a) fun _ text ht => ?_
  refine mirrors_bind (argNodes_mirrors haux _ ht rfl hnum') ?_
  rintro args - t - ⟨kids, ht, hargs, hnum⟩
  refine mirrors_textOr ht rfl fun _ text ht => mirrors_nodeAt ?_
  dsimp only
  rw [hnum]
  have hexpr := hexpr args
  cases hf : env.findBuiltinFunc tok.dropLast with
  | none =>
    rw [hf] at hexpr
    exact mirrors_pure ⟨k, kids, args, ht, hargs, hexpr⟩
  | some f =>
    rw [hf] at hexpr
    dsimp only
    rw [failIf_bind, show tooFewArgs (some f) args.length = decide (args.length < f.minargs) from rfl]
    by_cases hfew : decide (args.length < f.minargs) = true
    · rw [if_pos hfew, if_pos hfew]
      exact mirrors_failWith ht.holds rfl ht.accounted
    · rw [if_neg hfew, if_neg hfew]
      exact mirrors_pure ⟨k, kids, args, ht, hargs, hexpr⟩

theorem parseAtomNode_parses (haux : ∀ level, ParsesAs (aux level) (aux' level)) :
    ParsesAs (parseAtom env max locals aux n level)
      (parseAtomNode env max locals mem aux' n level) := by
  intro live s h
  unfold parseAtom parseAtomNode
  refine mirrors_text h (fun _ h => h) fun _ text => ?_
  refine mirrors_text h (fun _ h => h) fun _ text => mirrors_token fun tok => ?_
  by_cases hopen : tok = ['(']
  · rw [if_pos hopen, if_pos hopen]
    refine mirrors_text h (fun _ h => h) fun _ text => ?_
    refine mirrors_bind (mirrors_orNull (fun _ => rfl) (haux (level + 1) _ _ h)) ?_
    rintro e a t - ⟨k, kids, args, ht, hargs, hexpr⟩
    refine mirrors_token fun tok => ?_
    rw [failIf_bind]
    by_cases hmiss : tok ≠ [')']
    · rw [if_pos (decide_eq_true hmiss), if_pos hmiss]
      exact mirrors_failWith ht.holds rfl ht.accounted
    · rw [if_neg (by rw [decide_eq_true_eq]; exact hmiss), if_neg hmiss]
      exact mirrors_textOr ht rfl fun _ text ht => mirrors_pure ⟨k, kids, args, ht, hargs, hexpr⟩
  rw [if_neg hopen, if_neg hopen]
  cases tok with
  | nil => exact mirrors_throw h
  | cons c rest =>
    dsimp only
    split_ifs with hlegal hcall
    · exact mirrors_throw h
    · exact mirrors_throw h
    · exact parseFunctionNode_parses haux _ _ h
    · refine mirrors_text h (fun _ h => h) fun _ text => ?_
      refine mirrors_seq (mirrors_allocExprNode h) ?_
      rintro a t - ⟨ht, -⟩
      rw [← bind_pure (ofExcept (makeAtom env locals (c :: rest)))]
      refine mirrors_bind (mirrors_orReturn rfl (makeAtomNode_mirrors ht _)) ?_
      rintro e - t - ⟨k, ht, hexpr⟩
      exact mirrors_pure ⟨k, .nil, [], ht, rfl, hexpr⟩

/-! ### Operators -/

/-- The node of an operator above its first operand. -/
theorem topNode_mirrors (exit : Option ℕ → NodeM (Option ℕ)) (op : NodeOp)
    (h : StandsFor live e a s) (hexit : exit none = freeExprTree (some a)) :
    Mirrors (pure ()) (do
        let top ← orReturn (allocExprNode mem) exit
        setKind top (.operator op)
        addChild top a
        return top) live s
      (fun _ top t => ∃ kids, Owns t live top (.operator op) kids ∧ treeExprs kids = some [e])
      fun t => Accounted t.heap live := by
  obtain ⟨k, kids, args, h, hargs, hexpr⟩ := h
  refine mirrors_seq (mirrors_orFree h.holds hexit (mirrors_allocExprNode h.accounted)) ?_
  rintro top t - ⟨⟨ht, -⟩, hkeeps⟩
  have hchild := h.keeps hkeeps
  refine mirrors_seq (mirrors_frame (mirrors_setKind (E := fun _ => False) ht nofun) nofun) ?_
  rintro - u - ⟨⟨hu, -⟩, hkeeps⟩
  have hchild : Holds .free u.heap.cells (some a) (.node a k kids .nil) :=
    hchild.congr fun b hb => hkeeps b (Multiset.mem_add.2 (.inl hb))
  refine mirrors_seq (mirrors_addChild hu.holds hchild hu.accounted) ?_
  rintro - v - ⟨hv, -⟩
  exact mirrors_pure ⟨_, hv, treeExprs_single hargs hexpr⟩

theorem NodeKind.eq_int {n : ℤ} (h : k.expr args = some (.const (.int n))) :
    k = .constant (.int n) ∧ args = [] := by
  unfold NodeKind.expr at h
  split at h <;> simp_all

/-- What `parse_factor` does with its operand. -/
theorem unaryNode_mirrors {op : List Char} (h : StandsFor live e a s) :
    Mirrors (pure (applyUnary op e)) (unaryNode mem op a) live s (StandsFor live)
      fun t => Accounted t.heap live := by
  unfold unaryNode applyUnary
  by_cases hplus : op = ['+']
  · rw [if_pos hplus, if_pos hplus]
    exact mirrors_pure h
  rw [if_neg hplus, if_neg hplus]
  have hnode := h
  obtain ⟨k, kids, args, h, hargs, hexpr⟩ := h
  refine mirrors_nodeAt ?_
  rw [show (s.heap.cells a).kind = k from h.holds.2.1]
  by_cases hint : ∃ n, e = .const (.int n)
  · -- a constant is changed in place
    obtain ⟨n, rfl⟩ := hint
    obtain ⟨rfl, rfl⟩ := NodeKind.eq_int hexpr
    dsimp only
    refine mirrors_seq (mirrors_setKind h nofun) ?_
    rintro - t - ⟨ht, -⟩
    exact mirrors_pure ⟨_, kids, [], ht, hargs, rfl⟩
  · have hk : ∀ n, k ≠ .constant (.int n) := by
      rintro n rfl
      cases args with
      | nil => exact hint ⟨n, (Option.some.inj hexpr).symm⟩
      | cons e' es => cases hexpr
    generalize (if op = ['!'] then UnOp.logicalNot else .unaryMinus) = u
    split
    · exact absurd ⟨_, rfl⟩ hint
    · split
      · exact (hk _ rfl).elim
      · refine mirrors_value (topNode_mirrors (fun _ => freeThenNull a) _ hnode
          (freeThenNull_eq a)) ?_
        rintro top t ⟨kids, ht, hargs⟩
        exact ⟨_, kids, _, ht, hargs, rfl⟩

theorem parseFactorNode_parses (haux : ∀ level, ParsesAs (aux level) (aux' level)) :
    ParsesAs (parseFactor env max locals aux n level)
      (parseFactorNode env max locals mem aux' n level) := by
  induction n generalizing level with
  | zero => exact fun live s h => mirrors_throw h
  | succ n ih =>
    intro live s h
    unfold parseFactor parseFactorNode
    refine mirrors_text h (fun _ h => h) fun _ text => ?_
    refine mirrors_text h (fun _ h => h) fun _ text => mirrors_token fun op => ?_
    split_ifs with hop
    · refine mirrors_text h (fun _ h => h) fun _ text => ?_
      refine mirrors_bind (mirrors_orNull (fun _ => rfl) (ih _ _ h)) ?_
      rintro e a t - ht
      exact unaryNode_mirrors ht
    · exact parseAtomNode_parses haux _ _ h

/-- An operand, and the token behind it where the level peeks at it. -/
def withPeek (env : ParserEnv) (peeks : Bool) (x : ParseM Expr) : ParseM Expr :=
  x >>= fun e => (if peeks then peekToken env else pure ()) >>= fun _ => pure e

theorem withPeek_bind {α : Type} (peeks : Bool) (x : ParseM Expr) (f : Expr → ParseM α) :
    (withPeek env peeks x >>= f) =
      x >>= fun e => (if peeks then peekToken env else pure ()) >>= fun _ => f e := by
  simp only [withPeek, bind_assoc, pure_bind]

/-- The operators of a level, as nodes and as expressions. -/
def SameOps (l : List (List Char × NodeOp)) (ops : List (List Char × (Expr → Expr → Expr))) : Prop :=
  List.Forall₂ (fun x y => x.1 = y.1 ∧
    ∀ e e', (NodeKind.operator x.2).expr [e, e'] = some (y.2 e e')) l ops

theorem SameOps.lookup {l : List (List Char × NodeOp)}
    {ops : List (List Char × (Expr → Expr → Expr))} (h : SameOps l ops) (tok : List Char) :
    l.lookup tok = none ∧ ops.lookup tok = none ∨ ∃ op f, l.lookup tok = some op ∧
      ops.lookup tok = some f ∧ ∀ e e', (NodeKind.operator op).expr [e, e'] = some (f e e') := by
  induction h with
  | nil => exact .inl ⟨rfl, rfl⟩
  | @cons x y l ops hxy _ ih =>
    obtain ⟨key, op⟩ := x
    obtain ⟨key', f⟩ := y
    obtain ⟨rfl, hf⟩ := hxy
    rw [List.lookup_cons, List.lookup_cons]
    cases tok == key with
    | true => exact .inr ⟨op, f, rfl, rfl, hf⟩
    | false => exact ih

/-- The node of an operator, with the token pulled off. -/
theorem startOperator_mirrors (l : NodeLevel) (op : NodeOp) (h : StandsFor live e a s) :
    Mirrors (getToken env) (startOperator env mem l op a) live s
      (fun _ top t => ∃ kids, Owns t live top (.operator op) kids ∧ treeExprs kids = some [e])
      fun t => Accounted t.heap live := by
  unfold startOperator
  nth_rewrite 1 [← bind_pure (getToken env)]
  split_ifs with hfirst
  · obtain ⟨k, kids, args, h, hargs, hexpr⟩ := h
    refine mirrors_textOr h rfl fun u text h => ?_
    exact topNode_mirrors _ op ⟨k, kids, args, h, hargs, hexpr⟩ rfl
  · rw [bind_pure]
    refine mirrors_seq (topNode_mirrors _ op h rfl) ?_
    rintro top t - ⟨kids, ht, hargs⟩
    nth_rewrite 1 [← bind_pure (getToken env)]
    exact mirrors_textOr ht rfl fun _ text ht => mirrors_pure ⟨kids, ht, hargs⟩

theorem peekBehind_mirrors (l : NodeLevel) (h : Owns s live a k kids) :
    Mirrors (if l.peeks then peekToken env else pure ()) (peekBehind env l a) live s
      (fun _ _ t => Owns t live a k kids) fun t => Accounted t.heap live := by
  unfold peekBehind
  split_ifs with hpeeks
  · nth_rewrite 1 [← bind_pure (peekToken env)]
    rw [← bind_pure (orReturn _ _)]
    exact mirrors_textOr h rfl fun _ text h => mirrors_pure h
  · exact mirrors_pure h

/-- The loop over the operators of a level. -/
theorem operatorNodes_mirrors {l : NodeLevel} {ops : List (List Char × (Expr → Expr → Expr))}
    {x : ParseM Expr} {y : NodeM ℕ} (hops : SameOps l.ops ops) (hxy : ParsesAs x y)
    (h : StandsFor live e a s) :
    Mirrors (binaryLoop env ops (withPeek env l.peeks x) n e) (operatorNodes env mem l y n a) live s
      (StandsFor live) fun t => Accounted t.heap live := by
  induction n generalizing s e a with
  | zero =>
    obtain ⟨k, kids, args, h, hargs, hexpr⟩ := h
    exact mirrors_failWith h.holds rfl h.accounted
  | succ n ih =>
    unfold binaryLoop operatorNodes
    refine mirrors_token fun tok => ?_
    obtain ⟨hl, hr⟩ | ⟨op, f, hl, hr, hf⟩ := hops.lookup tok
    · rw [hl, hr]
      exact mirrors_pure h
    rw [hl, hr]
    refine mirrors_bind (startOperator_mirrors l op h) ?_
    rintro - top t - ⟨kids, ht, hkids⟩
    -- the right operand, while the node of the operator is owned
    rw [withPeek_bind]
    have hexit : (if l.freesOperand = true then do
        let _ ← freeExprTree (some top)
        freeExprTree none
      else freeExprTree (some top)) = freeExprTree (some top) := by
      split_ifs
      · exact free_then_freeNull top
      · rfl
    refine mirrors_bind (mirrors_orFree ht.holds hexit (hxy _ _ ht.accounted)) ?_
    rintro e' right u - ⟨⟨k', kids', args', hright, hargs', hexpr'⟩, hkeeps⟩
    have hwide : Accounted u.heap ((NodeTree.node top (.operator op) kids .nil).addrs +
        ((NodeTree.node right k' kids' .nil).addrs + live)) := by
      rw [← Multiset.add_assoc, Multiset.add_comm (NodeTree.addrs _), Multiset.add_assoc]
      exact hright.accounted
    refine mirrors_seq (mirrors_addChild (ht.keeps hkeeps) hright.holds hwide) ?_
    rintro - v - ⟨hv, -⟩
    refine mirrors_bind (peekBehind_mirrors l hv) ?_
    rintro - - w - hw
    have hkids' := treeExprs_append hkids (treeExprs_single (a := right) hargs' hexpr')
    exact ih ⟨_, _, _, hw, hkids', hf e e'⟩

/-- A level of the grammar, on nodes and on the text. -/
theorem nodeLevel_parses {l : NodeLevel} {ops : List (List Char × (Expr → Expr → Expr))}
    {x : ℕ → ParseM Expr} {y : ℕ → NodeM ℕ} (hops : SameOps l.ops ops)
    (hxy : ∀ level, ParsesAs (x level) (y level)) :
    ParsesAs (binaryLevel env max ops (fun level => withPeek env l.peeks (x level)) n level)
      (nodeLevel env max mem l y n level) := by
  intro live s h
  unfold binaryLevel nodeLevel
  refine mirrors_text h (fun _ h => h) fun _ text => ?_
  dsimp only
  rw [withPeek_bind]
  refine mirrors_bind (mirrors_orNull freeExprTree_null (hxy _ _ _ h)) ?_
  rintro e a t - ⟨k, kids, args, ht, hargs, hexpr⟩
  refine mirrors_bind (peekBehind_mirrors l ht) ?_
  rintro - - u - hu
  exact operatorNodes_mirrors hops (hxy _) ⟨k, kids, args, hu, hargs, hexpr⟩

/-- A level that does not peek. -/
theorem nodeLevel_parses_plain {l : NodeLevel} {ops : List (List Char × (Expr → Expr → Expr))}
    {x : ℕ → ParseM Expr} {y : ℕ → NodeM ℕ} (hpeeks : l.peeks = false) (hops : SameOps l.ops ops)
    (hxy : ∀ level, ParsesAs (x level) (y level)) :
    ParsesAs (binaryLevel env max ops x n level) (nodeLevel env max mem l y n level) := by
  have hplain : (fun level => withPeek env l.peeks (x level)) = x := by
    funext level
    rw [hpeeks]
    exact bind_pure (x level)
  have hlevel := @nodeLevel_parses env max mem n level l ops x y hops hxy
  rwa [hplain] at hlevel

/-- The parser on nodes does what the parser on the text does. -/
theorem parseAuxNode_parses : ParsesAs (parseExpressionAux env max locals n level)
    (parseAuxNode env max locals mem n level) := by
  induction n generalizing level with
  | zero => exact fun live s h => mirrors_throw h
  | succ n ih =>
    have hterm : ∀ level, ParsesAs (parseTermExpr env max locals (parseExpressionAux env max locals n)
        n level) (parseTermNode env max locals mem (parseAuxNode env max locals mem n) n level) :=
      fun level => @nodeLevel_parses env max mem n level termLevel termOps _ _
        (.cons ⟨rfl, fun _ _ => rfl⟩ (.cons ⟨rfl, fun _ _ => rfl⟩
          (.cons ⟨rfl, fun _ _ => rfl⟩ .nil)))
        fun _ => parseFactorNode_parses fun _ => ih
    have hcmp : ∀ level, ParsesAs (parseCmpExpr env max locals (parseExpressionAux env max locals n)
        n level) (parseCmpNode env max locals mem (parseAuxNode env max locals mem n) n level) :=
      fun level => nodeLevel_parses_plain rfl
        (.cons ⟨rfl, fun _ _ => rfl⟩ (.cons ⟨rfl, fun _ _ => rfl⟩ .nil)) hterm
    have heq : ∀ level, ParsesAs (parseEqExpr env max locals (parseExpressionAux env max locals n)
        n level) (parseEqNode env max locals mem (parseAuxNode env max locals mem n) n level) :=
      fun level => nodeLevel_parses_plain rfl
        (.cons ⟨rfl, fun _ _ => rfl⟩ (.cons ⟨rfl, fun _ _ => rfl⟩
          (.cons ⟨rfl, fun _ _ => rfl⟩ (.cons ⟨rfl, fun _ _ => rfl⟩ .nil)))) hcmp
    have hand : ∀ level, ParsesAs (parseAndExpr env max locals (parseExpressionAux env max locals n)
        n level) (parseAndNode env max locals mem (parseAuxNode env max locals mem n) n level) :=
      fun level => nodeLevel_parses_plain rfl
        (.cons ⟨rfl, fun _ _ => rfl⟩ (.cons ⟨rfl, fun _ _ => rfl⟩ .nil)) heq
    have hor : ∀ level, ParsesAs (parseOrExpr env max locals (parseExpressionAux env max locals n)
        n level) (parseOrNode env max locals mem (parseAuxNode env max locals mem n) n level) :=
      fun level => nodeLevel_parses_plain rfl (.cons ⟨rfl, fun _ _ => rfl⟩ .nil) hand
    exact nodeLevel_parses_plain rfl (.cons ⟨rfl, fun _ _ => rfl⟩ .nil) hor

/-! ### parse_expression -/

/-- What `parse_expression` returns, and the statics that it leaves, besides the tree. -/
def parseOutcome (env : ParserEnv) (max : Option ℕ) (locals : List (List Char)) (inp : List Char)
    (text : Lib.Marked ParseState) : Except ErrCode (Expr × List Char) × ParserGlobals :=
  parseExpression env max locals inp ⟨text.rest.buf, text.highWater⟩

def statics (text : Lib.Marked ParseState) : ParserGlobals := ⟨text.rest.buf, text.highWater⟩

/-- **The parser on nodes builds what the parser on the text returns**: for every text, and whatever
memory there is, it returns a tree of its own that stands for the expression, or the null pointer
with the same error, or with `E_NO_MEM`, and then it has given back every node. -/
theorem parseExpressionNode_spec (inp : List Char) (h : Accounted s.heap live) :
    match parseExpressionNode env max locals mem inp s with
    | .ok a t => ∃ e, parseOutcome env max locals inp s.text =
        (.ok (e, t.text.rest.inp), statics t.text) ∧ StandsFor live e a t ∧
          Keeps live s.heap t.heap
    | .error f t => f.node = none ∧ (f.r = .noMem ∨ parseOutcome env max locals inp s.text =
        (.error f.r, statics t.text)) ∧ Accounted t.heap live ∧ Keeps live s.heap t.heap := by
  unfold parseExpressionNode parseOutcome parseExpression
  by_cases hdis : env.disabled = true
  · rw [if_pos hdis, if_pos hdis]
    exact ⟨rfl, .inr rfl, h, Keeps.refl _⟩
  rw [if_neg hdis, if_neg hdis]
  let s₁ : NodeState := { s with text := ⟨⟨inp, s.text.rest.buf⟩, s.text.highWater⟩ }
  have haux := mirrors_orNull freeExprTree_null
    (@parseAuxNode_parses env max locals mem (inp.length + 3) 0 live s₁ h)
  have hset : setText inp s = .ok () s₁ := rfl
  rw [Lib.bind_ok hset]
  unfold Mirrors at haux
  dsimp only
  cases hrun : orReturn (parseAuxNode env max locals mem (inp.length + 3) 0) freeExprTree s₁ with
  | error f t =>
    rw [hrun] at haux
    obtain ⟨hnull, hor, hkeeps, hacc⟩ := haux
    rw [Lib.bind_error hrun]
    refine ⟨hnull, hor.imp_right fun hp => ?_, hacc, hkeeps⟩
    rw [show parseExpressionAux env max locals (inp.length + 3) 0
      ⟨⟨inp, s.text.rest.buf⟩, s.text.highWater⟩ = _ from hp]
    rfl
  | ok a t =>
    rw [hrun] at haux
    obtain ⟨e, hp, hkeeps, ht⟩ := haux
    rw [Lib.bind_ok hrun, show parseExpressionAux env max locals (inp.length + 3) 0
      ⟨⟨inp, s.text.rest.buf⟩, s.text.highWater⟩ = _ from hp, endOfExpression]
    let t₁ : NodeState :=
      { t with text := ⟨⟨t.text.rest.inp.dropWhile isEmptyChar, t.text.rest.buf⟩, t.text.highWater⟩ }
    have hskip : skipEmpty t = .ok t₁.text.rest.inp t₁ := rfl
    rw [Lib.bind_ok hskip]
    obtain ⟨k, kids, args, ht, hargs, hexpr⟩ := ht
    have ht₁ : Owns t₁ live a k kids := ⟨ht.holds, ht.accounted⟩
    split_ifs with hend
    · exact ⟨e, rfl, ⟨k, kids, args, ht₁, hargs, hexpr⟩, hkeeps⟩
    · obtain ⟨heap, hfail, hacc, hkeeps'⟩ := @failWith_run ℕ live t₁ _ _ .expectingEoxpr _
        ht₁.holds (freeThenNull_eq a) ht₁.accounted
      rw [hfail]
      exact ⟨rfl, .inr rfl, hacc, hkeeps.trans hkeeps'⟩

/-- The parser on nodes ends. -/
theorem parseExpressionNode_ends {inp : List Char} {f : NodeFailure} {t : NodeState}
    (h : Accounted s.heap live)
    (hrun : parseExpressionNode env max locals mem inp s = .error f t) : f.r ≠ .diverges := by
  have hspec := @parseExpressionNode_spec env max locals mem live s inp h
  rw [hrun] at hspec
  obtain ⟨-, hr | hp, -⟩ := hspec
  · rw [hr]
    nofun
  · exact (parseExpression_total _ _ _ (congrArg Prod.fst hp)).1

end Parser

end Remind
