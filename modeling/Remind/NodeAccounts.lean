import Mathlib.Algebra.BigOperators.Group.List.Basic
import Mathlib.Algebra.Order.Group.Multiset
import Remind.ParseNodes

/-!
# NodeAccounts — expression nodes over whole runs

`clone_expr_tree` copies trees, and over any run of parses, clones and frees every node is in one
live tree or once on the free list.
-/

namespace Remind

open Lib (Cell Pool NodeTree Holds)
open Lib.Pool (Keeps)

section Clone

variable {mem : ℕ → Bool} {live : Multiset ℕ} {s : NodeState} {a b n : ℕ} {k : NodeKind}
  {kids rest t : NodeTree NodeKind} {es : List Expr} {E : NodeState → Prop}

theorem treeExprs_like {t u : NodeTree NodeKind} (h : t.Like u) : treeExprs t = treeExprs u := by
  induction h with
  | nil => rfl
  | node _ _ ihk ihr => rw [treeExprs, treeExprs, ihk, ihr]

theorem mirrors_copyValue (k : NodeKind) (he : ∀ n, E { s with asked := n }) :
    Mirrors (pure ()) (copyValue mem k) live s (fun _ _ t => ∃ n, t = { s with asked := n })
      E := by
  unfold copyValue
  split
  · exact mirrors_mallocString he
  · exact mirrors_mallocString he
  · exact mirrors_mallocString he
  · exact mirrors_pure ⟨s.asked, rfl⟩

theorem addrs_setChild (t : NodeTree NodeKind) :
    t.addrs + ((NodeTree.node a k .nil rest).addrs + live) =
      (NodeTree.node a k t rest).addrs + live := by
  rw [NodeTree.addrs_node, NodeTree.addrs_node, NodeTree.addrs_nil, Multiset.zero_add,
    Multiset.cons_add, Multiset.cons_add, Multiset.add_cons, Multiset.add_assoc]

theorem addrs_setSibling (t : NodeTree NodeKind) :
    t.addrs + ((NodeTree.node a k kids .nil).addrs + live) =
      (NodeTree.node a k kids t).addrs + live := by
  rw [NodeTree.addrs_node, NodeTree.addrs_node, NodeTree.addrs_nil, Multiset.add_zero,
    Multiset.cons_add, Multiset.cons_add, Multiset.add_cons, Multiset.add_comm kids.addrs t.addrs,
    Multiset.add_assoc]

/-- A link of a copy: `T u` is the copy with a link to `u`, and `t` is what the link of the source
leads to. -/
theorem cloneLink_mirrors {clone : ℕ → NodeM ℕ} {p : Option ℕ}
    {link : Cell NodeKind → Option ℕ → Cell NodeKind} {T : NodeTree NodeKind → NodeTree NodeKind}
    (htree : Holds .free s.heap.cells (some a) (T .nil))
    (hacc : Accounted s.heap ((T .nil).addrs + live)) (ht : Holds .free s.heap.cells p t)
    (hclone : ∀ q, p = some q → Mirrors (pure ()) (clone q) ((T .nil).addrs + live) s
      (fun _ c u => ∃ t', Holds .free u.heap.cells (some c) t' ∧ t'.Like t ∧
        Accounted u.heap (t'.addrs + ((T .nil).addrs + live)))
      fun u => Accounted u.heap ((T .nil).addrs + live))
    (hset : ∀ u c t', Holds .free u.heap.cells (some a) (T .nil) →
      Holds .free u.heap.cells (some c) t' →
      Accounted u.heap (t'.addrs + ((T .nil).addrs + live)) →
      Mirrors (pure ()) (setNode a fun cell => link cell (some c)) live u
        (fun _ _ v => Holds .free v.heap.cells (some a) (T t') ∧
          Accounted v.heap ((T t').addrs + live)) fun v => Accounted v.heap live) :
    Mirrors (pure ()) (cloneLink clone a link p) live s
      (fun _ _ v => ∃ t', t'.Like t ∧ Holds .free v.heap.cells (some a) (T t') ∧
        Accounted v.heap ((T t').addrs + live))
      fun v => Accounted v.heap live := by
  cases p with
  | none =>
    cases t with
    | node b k kids rest => cases ht.1
    | nil => exact mirrors_pure ⟨.nil, .nil, htree, hacc⟩
  | some q =>
    refine mirrors_seq (mirrors_orFree htree (freeThenNull_eq a) (hclone q rfl)) ?_
    rintro c u - ⟨⟨t', ht', hlike, hacc'⟩, hkeeps⟩
    have htree' : Holds .free u.heap.cells (some a) (T .nil) :=
      htree.congr fun b hb => hkeeps b (Multiset.mem_add.2 (.inl hb))
    refine mirrors_value (hset u c t' htree' ht' hacc') ?_
    rintro - v ⟨hv, haccv⟩
    exact ⟨t', hlike, hv, haccv⟩

/-- A tree of `live` is copied: the copy is a tree of its own with the same nodes. -/
theorem cloneExprTree_mirrors (ht : Holds .free s.heap.cells (some a) t)
    (hlive : ∀ b ∈ t.addrs, b ∈ live) (hexprs : treeExprs t = some es) (hn : t.size ≤ n)
    (hacc : Accounted s.heap live) :
    Mirrors (pure ()) (cloneExprTree mem n a) live s
      (fun _ c u => ∃ t', Holds .free u.heap.cells (some c) t' ∧ t'.Like t ∧
        Accounted u.heap (t'.addrs + live))
      fun u => Accounted u.heap live := by
  induction t generalizing n a s live es with
  | nil => cases ht
  | node a' k kids rest ihk ihr =>
    obtain ⟨ha, hkind, hfree, hkids, hrest⟩ := ht
    obtain rfl : a = a' := Option.some.inj ha
    simp only [treeExprs, Option.bind_eq_bind, Option.bind_eq_some_iff] at hexprs
    obtain ⟨args, hargs, e, he, es', hes, -⟩ := hexprs
    have hmem : ∀ b ∈ (NodeTree.node a k kids rest).addrs, b ∈ live := hlive
    have hmemK : ∀ b ∈ kids.addrs, b ∈ live := fun b hb =>
      hlive b (Multiset.mem_cons_of_mem (Multiset.mem_add.2 (.inl hb)))
    have hmemR : ∀ b ∈ rest.addrs, b ∈ live := fun b hb =>
      hlive b (Multiset.mem_cons_of_mem (Multiset.mem_add.2 (.inr hb)))
    have hmemA : a ∈ live := hlive a (Multiset.mem_cons_self _ _)
    rw [NodeTree.size] at hn
    cases n with
    | zero => exact absurd hn (Nat.not_succ_le_zero _)
    | succ n =>
      rw [cloneExprTree]
      refine mirrors_seq (mirrors_allocExprNode hacc) ?_
      rintro c t₁ hk₁ ⟨h₁, -⟩
      refine mirrors_nodeAt ?_
      rw [hk₁ a hmemA]
      obtain ⟨⟨-, -, -, hchild₁, hsib₁⟩, hacc₁⟩ := h₁
      refine mirrors_seq (mirrors_setNode (k := k) hkind hfree hchild₁ hsib₁ hacc₁) ?_
      rintro - t₂ hk₂ ⟨h₂, hacc₂, -⟩
      rw [if_neg (by rw [hkind]; rintro (rfl | rfl); exacts [hfree rfl, by cases he])]
      refine mirrors_seq (mirrors_orReturn (freeThenNull_eq c)
        (mirrors_copyValue _ fun n => ⟨_, h₂, hacc₂⟩)) ?_
      rintro - _ - ⟨m, rfl⟩
      have hk : Keeps live s.heap t₂.heap := hk₁.trans hk₂
      have hgrow : ∀ {more : Multiset ℕ} {b}, b ∈ live → b ∈ more + live := fun hb =>
        Multiset.mem_add.2 (.inr hb)
      -- the children
      refine mirrors_seq (cloneLink_mirrors (T := fun u => .node c k u .nil) h₂ hacc₂
        (hkids.congr fun b hb => hk b (hmemK b hb)) (fun q hq => ?_) fun u d t' htree ht' hacc' => ?_) ?_
      · rw [hq] at hkids
        exact ihk (hkids.congr fun b hb => hk b (hmemK b hb)) (fun b hb => hgrow (hmemK b hb))
          hargs (by omega) hacc₂
      · obtain ⟨-, hkind', hfree', -, hsib'⟩ := htree
        refine mirrors_value (mirrors_setNode (k := k) hkind' hfree' ht' hsib' ?_)
          fun _ _ h => ⟨h.1, h.2.1⟩
        rwa [addrs_setChild] at hacc'
      rintro - t₃ hk₃ ⟨kids', hlike, h₃, hacc₃⟩
      -- the siblings
      refine mirrors_seq (cloneLink_mirrors (T := fun u => .node c k kids' u) h₃ hacc₃
        (hrest.congr fun b hb => (hk.trans hk₃) b (hmemR b hb)) (fun q hq => ?_)
        fun u d t' htree ht' hacc' => ?_) ?_
      · rw [hq] at hrest
        exact ihr (hrest.congr fun b hb => (hk.trans hk₃) b (hmemR b hb))
          (fun b hb => hgrow (hmemR b hb)) hes (by omega) hacc₃
      · obtain ⟨-, hkind', hfree', hkids', -⟩ := htree
        refine mirrors_value (mirrors_setNode (k := k) hkind' hfree' hkids' ht' ?_)
          fun _ _ h => ⟨h.1, h.2.1⟩
        rwa [addrs_setSibling] at hacc'
      rintro - t₄ - ⟨rest', hlike', h₄, hacc₄⟩
      exact mirrors_pure ⟨_, h₄, .node hlike hlike', hacc₄⟩

end Clone

/-! ### Runs -/

/-- What the program does with the nodes: it parses a text, and it clones or frees one of the trees
that it has. -/
inductive NodeCall where
  | parse (env : ParserEnv) (locals : List (List Char)) (inp : List Char)
  | clone (i : ℕ)
  | free (i : ℕ)

/-- The nodes, and the roots of the trees that the program has. -/
structure NodeSession where
  state : NodeState
  trees : List ℕ

/-- What a call comes to. -/
inductive NodeOutcome where
  | tree (node : ℕ)
  | failed (f : NodeFailure)
  | freed (node : ℕ)
  | noTree

/-- The start of the program. -/
def NodeSession.start : NodeSession :=
  ⟨⟨⟨⟨[], []⟩, 0⟩, ⟨fun _ => ⟨.free, none, none, 0⟩, none, 0, 0, []⟩, 0⟩, []⟩

/-- A function that returns a tree. -/
def NodeSession.keep (s : NodeSession) (m : NodeM ℕ) : NodeOutcome × NodeSession :=
  match m s.state with
  | .ok a state => (.tree a, ⟨state, s.trees ++ [a]⟩)
  | .error f state => (.failed f, ⟨state, s.trees⟩)

def NodeSession.call (max : Option ℕ) (mem : ℕ → Bool) (s : NodeSession) :
    NodeCall → NodeOutcome × NodeSession
  | .parse env locals inp => s.keep (parseExpressionNode env max locals mem inp)
  | .clone i =>
    match s.trees[i]? with
    | none => (.noTree, s)
    | some src => s.keep (cloneExprTree mem s.state.heap.allocated src)
  | .free i =>
    match s.trees[i]? with
    | none => (.noTree, s)
    | some a =>
      match freeExprTree (some a) s.state with
      | .ok _ state => (.freed a, ⟨state, s.trees.eraseIdx i⟩)
      | .error f state => (.failed f, ⟨state, s.trees⟩)

/-- The calls one after the other. -/
def NodeSession.run (max : Option ℕ) (mem : ℕ → Bool) (calls : List NodeCall) : NodeSession :=
  calls.foldl (fun s c => (s.call max mem c).2) NodeSession.start

/-- Every node is in one of the trees of the program or on the free list, and once; the trees stand
for expressions, and `ExprNodesUsed` is the number of their nodes. -/
def NodeSession.Consistent (s : NodeSession) : Prop :=
  ∃ ts : List (NodeTree NodeKind), s.trees.map some = ts.map NodeTree.root ∧
    (∀ t ∈ ts, Holds .free s.state.heap.cells t.root t ∧ ∃ e, treeExprs t = some [e]) ∧
    Accounted s.state.heap (ts.map NodeTree.addrs).sum

/-- The change of `ExprNodesUsed` is the size of the tree returned or freed, and nothing where a
call fails. -/
def Balanced (s : NodeSession) : NodeOutcome × NodeSession → Prop
  | (.tree a, s') => ∃ t, Holds .free s'.state.heap.cells (some a) t ∧
      s'.state.heap.used = s.state.heap.used + t.size
  | (.failed f, s') => f.node = none ∧ f.r ≠ .diverges ∧ s'.state.heap.used = s.state.heap.used
  | (.freed a, s') => ∃ t, Holds .free s.state.heap.cells (some a) t ∧
      s'.state.heap.used = s.state.heap.used - t.size
  | (.noTree, s') => s' = s

section Runs

variable {max : Option ℕ} {mem : ℕ → Bool} {s : NodeSession} {ts : List (NodeTree NodeKind)}

theorem mem_addrs_sum {t : NodeTree NodeKind} (ht : t ∈ ts) {a : ℕ} (ha : a ∈ t.addrs) :
    a ∈ (ts.map NodeTree.addrs).sum := by
  induction ts with
  | nil => cases ht
  | cons u ts ih =>
    rw [List.map_cons, List.sum_cons, Multiset.mem_add]
    rcases List.mem_cons.1 ht with rfl | ht
    · exact .inl ha
    · exact .inr (ih ht)

/-- A call that returns a tree of its own, or fails and gives everything back. -/
theorem keep_spec {m : NodeM ℕ} (htrees : s.trees.map some = ts.map NodeTree.root)
    (hts : ∀ t ∈ ts, Holds .free s.state.heap.cells t.root t ∧ ∃ e, treeExprs t = some [e])
    (hacc : Accounted s.state.heap (ts.map NodeTree.addrs).sum)
    (hm : match m s.state with
      | .ok a state => Keeps (ts.map NodeTree.addrs).sum s.state.heap state.heap ∧
          ∃ t e, Holds .free state.heap.cells (some a) t ∧ treeExprs t = some [e] ∧
            Accounted state.heap (t.addrs + (ts.map NodeTree.addrs).sum)
      | .error f state => f.node = none ∧ f.r ≠ .diverges ∧
          Keeps (ts.map NodeTree.addrs).sum s.state.heap state.heap ∧
            Accounted state.heap (ts.map NodeTree.addrs).sum) :
    (s.keep m).2.Consistent ∧ Balanced s (s.keep m) := by
  have hothers : ∀ {state : NodeState}, Keeps (ts.map NodeTree.addrs).sum s.state.heap state.heap →
      ∀ t ∈ ts, Holds .free state.heap.cells t.root t ∧ ∃ e, treeExprs t = some [e] :=
    fun hkeeps t ht => ⟨(hts t ht).1.congr fun a ha => hkeeps a (mem_addrs_sum ht ha), (hts t ht).2⟩
  unfold NodeSession.keep
  cases hrun : m s.state with
  | ok a state =>
    rw [hrun] at hm
    obtain ⟨hkeeps, t, e, ht, he, hacc'⟩ := hm
    refine ⟨⟨ts ++ [t], ?_, ?_, ?_⟩, t, ht, ?_⟩
    · rw [List.map_append, List.map_append, htrees, List.map_singleton, List.map_singleton,
        ← ht.root_eq]
    · intro u hu
      rcases List.mem_append.1 hu with hu | hu
      · exact hothers hkeeps u hu
      · rw [List.mem_singleton.1 hu]
        exact ⟨ht.root_eq ▸ ht, e, he⟩
    · rw [List.map_append, List.sum_append, List.map_singleton, List.sum_singleton,
        Multiset.add_comm]
      exact hacc'
    · rw [hacc'.used, hacc.used, Multiset.card_add, NodeTree.card_addrs]
      push_cast
      exact Int.add_comm _ _
  | error f state =>
    rw [hrun] at hm
    obtain ⟨hnull, hends, hkeeps, hacc'⟩ := hm
    refine ⟨⟨ts, htrees, hothers hkeeps, hacc'⟩, hnull, hends, ?_⟩
    rw [hacc'.used, hacc.used]

/-- One tree and the others. -/
theorem addrs_split {i : ℕ} {t : NodeTree NodeKind} (ht : ts[i]? = some t) :
    (ts.map NodeTree.addrs).sum = t.addrs + ((ts.eraseIdx i).map NodeTree.addrs).sum := by
  induction ts generalizing i with
  | nil => cases ht
  | cons u ts ih =>
    cases i with
    | zero =>
      obtain rfl : u = t := Option.some.inj ht
      rfl
    | succ i =>
      rw [List.map_cons, List.sum_cons, ih ht, List.eraseIdx_cons_succ, List.map_cons,
        List.sum_cons, ← Multiset.add_assoc, Multiset.add_comm u.addrs, Multiset.add_assoc]

/-- The tree at the index. -/
theorem tree_at {i a : ℕ} (htrees : s.trees.map some = ts.map NodeTree.root)
    (hi : s.trees[i]? = some a) : ∃ t, ts[i]? = some t ∧ t.root = some a := by
  have hmap := congrArg (·[i]?) htrees
  simp only [List.getElem?_map, hi, Option.map_some] at hmap
  obtain ⟨t, ht, hroot⟩ := Option.map_eq_some_iff.1 hmap.symm
  exact ⟨t, ht, hroot⟩

/-- One of the trees of the program is copied. -/
theorem clone_mirrors {i a : ℕ} {t : NodeTree NodeKind} (ht : ts[i]? = some t)
    (hroot : t.root = some a)
    (hts : ∀ t ∈ ts, Holds .free s.state.heap.cells t.root t ∧ ∃ e, treeExprs t = some [e])
    (hacc : Accounted s.state.heap (ts.map NodeTree.addrs).sum) :
    Mirrors (pure ()) (cloneExprTree mem s.state.heap.allocated a) (ts.map NodeTree.addrs).sum
      s.state
      (fun _ b u => ∃ t', Holds .free u.heap.cells (some b) t' ∧ t'.Like t ∧
        Accounted u.heap (t'.addrs + (ts.map NodeTree.addrs).sum))
      fun u => Accounted u.heap (ts.map NodeTree.addrs).sum := by
  have hmem := List.mem_of_getElem? ht
  obtain ⟨hholds, e, he⟩ := hts t hmem
  have hle := hacc.sound.card_le
  rw [addrs_split ht, Multiset.card_add, NodeTree.card_addrs] at hle
  exact cloneExprTree_mirrors (hroot ▸ hholds) (fun b hb => mem_addrs_sum hmem hb) he
    (Nat.le_of_add_right_le hle) hacc

/-- Every call keeps the nodes consistent, and counts right. -/
theorem call_spec (h : s.Consistent) (c : NodeCall) :
    (s.call max mem c).2.Consistent ∧ Balanced s (s.call max mem c) := by
  have hs := h
  obtain ⟨ts, htrees, hts, hacc⟩ := h
  cases c with
  | parse env locals inp =>
    refine keep_spec htrees hts hacc ?_
    have hspec := @parseExpressionNode_spec env max locals mem _ _ inp hacc
    cases hrun : parseExpressionNode env max locals mem inp s.state with
    | ok a state =>
      rw [hrun] at hspec
      obtain ⟨e, -, ⟨k, kids, args, hown, hargs, he⟩, hkeeps⟩ := hspec
      exact ⟨hkeeps, _, e, hown.holds, treeExprs_single hargs he, hown.accounted⟩
    | error f state =>
      rw [hrun] at hspec
      obtain ⟨hnull, -, hacc', hkeeps⟩ := hspec
      exact ⟨hnull, parseExpressionNode_ends hacc hrun, hkeeps, hacc'⟩
  | clone i =>
    rw [NodeSession.call]
    cases hi : s.trees[i]? with
    | none => exact ⟨hs, rfl⟩
    | some src =>
      obtain ⟨t, ht, hroot⟩ := tree_at htrees hi
      obtain ⟨-, e, he⟩ := hts t (List.mem_of_getElem? ht)
      have hclone := @clone_mirrors mem s ts i src t ht hroot hts hacc
      refine keep_spec htrees hts hacc ?_
      unfold Mirrors at hclone
      cases hrun : cloneExprTree mem s.state.heap.allocated src s.state with
      | ok a state =>
        rw [hrun] at hclone
        obtain ⟨-, -, hkeeps, t', ht', hlike, hacc'⟩ := hclone
        exact ⟨hkeeps, t', e, ht', (treeExprs_like hlike).trans he, hacc'⟩
      | error f state =>
        rw [hrun] at hclone
        obtain ⟨hnull, hor, hkeeps, hacc'⟩ := hclone
        refine ⟨hnull, ?_, hkeeps, hacc'⟩
        rw [hor.resolve_right nofun]
        nofun
  | free i =>
    rw [NodeSession.call]
    cases hi : s.trees[i]? with
    | none => exact ⟨hs, rfl⟩
    | some a =>
      obtain ⟨t, ht, hroot⟩ := tree_at htrees hi
      have hholds := (hts t (List.mem_of_getElem? ht)).1
      rw [hroot] at hholds
      rw [addrs_split ht] at hacc
      obtain ⟨heap, hfree, hacc', hkeeps, hused⟩ := freeExprTree_spec hholds hacc
      dsimp only
      rw [hfree]
      refine ⟨⟨ts.eraseIdx i, ?_, fun u hu => ?_, hacc'⟩, t, hholds, hused⟩
      · rw [← List.eraseIdx_map, ← List.eraseIdx_map, htrees]
      · obtain ⟨hu', hexpr⟩ := hts u (List.mem_of_mem_eraseIdx hu)
        exact ⟨hu'.congr fun b hb => hkeeps b (mem_addrs_sum hu hb), hexpr⟩

theorem start_consistent : NodeSession.start.Consistent :=
  ⟨[], rfl, nofun, ⟨[], rfl, rfl, nofun, rfl⟩, rfl⟩

/-- The nodes are consistent over every run. -/
theorem run_consistent (calls : List NodeCall) : (NodeSession.run max mem calls).Consistent := by
  have hfold : ∀ s : NodeSession, s.Consistent →
      (calls.foldl (fun s c => (s.call max mem c).2) s).Consistent := by
    induction calls with
    | nil => exact fun s h => h
    | cons c calls ih => exact fun s h => ih _ (call_spec h c).1
  exact hfold _ start_consistent

end Runs

/-- **No expression node is leaked or freed twice.**  However the program parses texts, clones trees
and frees them, and whenever it runs out of memory: each node is in one tree or on the free list,
and once; no node is put on the list while it is on it; a call changes `ExprNodesUsed` by the size of
the tree it returns or frees, and a call that fails leaves it as it was. -/
theorem exprNodes_accounted (max : Option ℕ) (mem : ℕ → Bool) (calls : List NodeCall) :
    (NodeSession.run max mem calls).Consistent ∧ ∀ c : NodeCall,
      Balanced (NodeSession.run max mem calls) ((NodeSession.run max mem calls).call max mem c) :=
  ⟨run_consistent calls, fun c => (call_spec (run_consistent calls) c).2⟩

/-- **The tree of a parse stands for the expression of the text**, whatever has been parsed, cloned
and freed before; where there is no tree, the error is that of the text, or memory has run out. -/
theorem parsed_tree (max : Option ℕ) (mem : ℕ → Bool) (calls : List NodeCall) (env : ParserEnv)
    (locals : List (List Char)) (inp : List Char) :
    match (NodeSession.run max mem calls).call max mem (.parse env locals inp) with
    | (.tree a, s) => ∃ t e rest, Holds .free s.state.heap.cells (some a) t ∧
        treeExprs t = some [e] ∧
        (parseOutcome env max locals inp (NodeSession.run max mem calls).state.text).1 =
          .ok (e, rest)
    | (.failed f, _) => f.r = .noMem ∨
        (parseOutcome env max locals inp (NodeSession.run max mem calls).state.text).1 =
          .error f.r
    | _ => False := by
  obtain ⟨ts, -, -, hacc⟩ := @run_consistent max mem calls
  have hspec := @parseExpressionNode_spec env max locals mem _ _ inp hacc
  rw [NodeSession.call, NodeSession.keep]
  cases hrun : parseExpressionNode env max locals mem inp
      (NodeSession.run max mem calls).state with
  | ok a state =>
    rw [hrun] at hspec
    obtain ⟨e, hp, ⟨k, kids, args, hown, hargs, he⟩, -⟩ := hspec
    exact ⟨_, e, _, hown.holds, treeExprs_single hargs he, congrArg Prod.fst hp⟩
  | error f state =>
    rw [hrun] at hspec
    exact hspec.2.1.imp_right fun hp => congrArg Prod.fst hp

end Remind
