import Remind.ExprNodes
import Remind.Lib.Wp

/-!
# NodeRules — rules for functions that own nodes

`Mirrors p m live s Q E`: while the nodes of `live` belong to others, the function `m` on nodes does
what `p` does on the text alone, or it runs out of memory; `live` is as before.  It returns with
`Q`; with an error it returns the null pointer, with `E`.
-/

namespace Remind

open Lib (Cell Pool NodeTree Holds)
open Lib.Pool (Keeps)

/-- The nodes of `live` are in use, and counted in `ExprNodesUsed`; the others are free. -/
structure Accounted (h : ExprHeap) (live : Multiset ℕ) : Prop where
  sound : h.Sound .free live
  used : h.used = live.card

/-- The node `a` with its children, besides `live`. -/
structure Owns (s : NodeState) (live : Multiset ℕ) (a : ℕ) (k : NodeKind)
    (kids : NodeTree NodeKind) : Prop where
  holds : Holds .free s.heap.cells (some a) (.node a k kids .nil)
  accounted : Accounted s.heap ((NodeTree.node a k kids .nil).addrs + live)

def Mirrors {α β : Type} (p : ParseM β) (m : NodeM α) (live : Multiset ℕ) (s : NodeState)
    (Q : β → α → NodeState → Prop) (E : NodeState → Prop) : Prop :=
  match m s with
  | .ok a t => ∃ b, p s.text = .ok b t.text ∧ Keeps live s.heap t.heap ∧ Q b a t
  | .error f t => f.node = none ∧ (f.r = .noMem ∨ p s.text = .error f.r t.text) ∧
      Keeps live s.heap t.heap ∧ E t

section Rules

variable {α α' β β' : Type} {p : ParseM β} {p' : β → ParseM β'} {m : NodeM α} {m' : α → NodeM α'}
  {live more : Multiset ℕ} {s t : NodeState} {Q : β → α → NodeState → Prop}
  {Q' : β' → α' → NodeState → Prop} {E : NodeState → Prop} {a b : ℕ} {k kc : NodeKind}
  {kids kidsc tree : NodeTree NodeKind} {owner : Option ℕ}
  {exit : Option ℕ → NodeM (Option ℕ)}

theorem mirrors_pure {b : β} {a : α} (h : Q b a s) : Mirrors (pure b) (pure a) live s Q E :=
  ⟨b, rfl, Keeps.refl _, h⟩

theorem mirrors_throw {r : ErrCode} (h : E s) :
    Mirrors (throw r) (throw ⟨r, none⟩) live s Q E :=
  ⟨rfl, .inr rfl, Keeps.refl _, h⟩

theorem mirrors_bind (hm : Mirrors p m live s Q E)
    (hk : ∀ b a t, Keeps live s.heap t.heap → Q b a t → Mirrors (p' b) (m' a) live t Q' E) :
    Mirrors (p >>= p') (m >>= m') live s Q' E := by
  unfold Mirrors at hm ⊢
  cases hrun : m s with
  | error f t =>
    rw [hrun] at hm
    rw [Lib.bind_error hrun]
    refine ⟨hm.1, hm.2.1.imp_right fun hp => Lib.bind_error hp, hm.2.2⟩
  | ok a t =>
    rw [hrun] at hm
    obtain ⟨b, hp, hkeeps, hq⟩ := hm
    have hnext := hk b a t hkeeps hq
    rw [Lib.bind_ok hrun]
    unfold Mirrors at hnext
    cases hrun' : m' a t with
    | error f u =>
      rw [hrun'] at hnext
      obtain ⟨hnull, hor, hkeeps', he⟩ := hnext
      refine ⟨hnull, hor.imp_right fun hp' => ?_, hkeeps.trans hkeeps', he⟩
      rw [Lib.bind_ok hp]
      exact hp'
    | ok a' u =>
      rw [hrun'] at hnext
      obtain ⟨b', hp', hkeeps', hq'⟩ := hnext
      refine ⟨b', ?_, hkeeps.trans hkeeps', hq'⟩
      rw [Lib.bind_ok hp]
      exact hp'

/-- What has nothing to do with the text. -/
theorem mirrors_seq {Q : Unit → α → NodeState → Prop} {p : ParseM β'}
    (hm : Mirrors (pure ()) m live s Q E)
    (hk : ∀ a t, Keeps live s.heap t.heap → Q () a t → Mirrors p (m' a) live t Q' E) :
    Mirrors p (m >>= m') live s Q' E :=
  @mirrors_bind _ _ _ _ (pure ()) (fun _ => p) _ _ _ _ _ _ _ hm fun _ a t => hk a t

/-- What has nothing to do with the text, at the end. -/
theorem mirrors_value {Q : Unit → α → NodeState → Prop} {b : β} {Q' : β → α → NodeState → Prop}
    (hm : Mirrors (pure ()) m live s Q E) (hq : ∀ a t, Q () a t → Q' b a t) :
    Mirrors (pure b) m live s Q' E := by
  unfold Mirrors at hm ⊢
  cases hrun : m s with
  | error f t =>
    rw [hrun] at hm
    exact ⟨hm.1, .inl (hm.2.1.resolve_right nofun), hm.2.2⟩
  | ok a t =>
    rw [hrun] at hm
    obtain ⟨_, hp, hkeeps, h⟩ := hm
    have htext : s.text = t.text := (EStateM.Result.ok.inj hp).2
    exact ⟨b, congrArg (EStateM.Result.ok b) htext, hkeeps, hq a t h⟩

/-- Some of what belonged to others as well belongs to the function. -/
theorem mirrors_frame {E' : NodeState → Prop} (hm : Mirrors p m (more + live) s Q E)
    (hE : ∀ t, Keeps (more + live) s.heap t.heap → E t → E' t) :
    Mirrors p m live s (fun b a t => Q b a t ∧ Keeps (more + live) s.heap t.heap) E' := by
  have hle : live ≤ more + live := Multiset.le_add_left _ _
  unfold Mirrors at hm ⊢
  cases hrun : m s with
  | error f t =>
    rw [hrun] at hm
    exact ⟨hm.1, hm.2.1, hm.2.2.1.mono hle, hE t hm.2.2.1 hm.2.2.2⟩
  | ok a t =>
    rw [hrun] at hm
    obtain ⟨b, hp, hkeeps, hq⟩ := hm
    exact ⟨b, hp, hkeeps.mono hle, hq, hkeeps⟩

theorem mirrors_onText {x : ParseM α} {Q : α → α → NodeState → Prop} (he : E s)
    (hE : ∀ text, E s → E { s with text })
    (hq : ∀ a text, Q a a { s with text }) : Mirrors x (onText x) live s Q E := by
  unfold Mirrors onText
  cases hx : x s.text with
  | ok a text => exact ⟨a, rfl, Keeps.refl _, hq a text⟩
  | error r text => exact ⟨rfl, .inr rfl, Keeps.refl _, hE text he⟩

/-! ### Exits -/

/-- A tree is given back. -/
theorem freeExprTree_spec (ht : Holds .free s.heap.cells owner tree)
    (hacc : Accounted s.heap (tree.addrs + live)) :
    ∃ heap, freeExprTree owner s = .ok none { s with heap } ∧ Accounted heap live ∧
      Keeps live s.heap heap ∧ heap.used = s.heap.used - tree.size := by
  have hle := hacc.sound.card_le
  rw [Multiset.card_add, NodeTree.card_addrs] at hle
  obtain ⟨heap, hfree, hsound, hkeeps, hused⟩ :=
    hacc.sound.freeTree ht (Nat.le_of_add_right_le hle)
  refine ⟨heap, ?_, ⟨hsound, ?_⟩, hkeeps, hused⟩
  · rw [freeExprTree, hfree]
  · rw [hused, hacc.used, Multiset.card_add, NodeTree.card_addrs]
    push_cast
    omega

theorem freeThenNull_eq (a : ℕ) : freeThenNull a = freeExprTree (some a) := by
  funext s
  unfold freeThenNull freeExprTree
  simp only [bind, EStateM.bind]
  cases s.heap.freeTree .free s.heap.allocated (some a) <;> rfl

/-- Freeing the null pointer does nothing. -/
theorem freeExprTree_null (t : NodeState) : freeExprTree none t = .ok none t := by
  unfold freeExprTree
  cases t.heap.allocated <;> rfl

theorem free_then_freeNull (a : ℕ) :
    (do let _ ← freeExprTree (some a); freeExprTree none) = freeExprTree (some a) := by
  funext s
  simp only [bind, EStateM.bind]
  cases hfree : freeExprTree (some a) s with
  | error f t => rfl
  | ok q t =>
    unfold freeExprTree at hfree
    cases hheap : s.heap.freeTree .free s.heap.allocated (some a) with
    | none =>
      rw [hheap] at hfree
      cases hfree
    | some heap =>
      rw [hheap] at hfree
      cases hfree
      exact freeExprTree_null _

/-- An exit that frees the tree the function owns when the call fails. -/
theorem mirrors_orReturn (hexit : exit none = freeExprTree owner)
    (hm : Mirrors p m live s Q fun t => ∃ tree, Holds .free t.heap.cells owner tree ∧
      Accounted t.heap (tree.addrs + live)) :
    Mirrors p (orReturn m exit) live s Q fun t => Accounted t.heap live := by
  unfold Mirrors at hm ⊢
  unfold orReturn
  cases hrun : m s with
  | ok a t =>
    rw [hrun] at hm
    exact hm
  | error f t =>
    rw [hrun] at hm
    obtain ⟨hnull, hor, hkeeps, tree, ht, hacc⟩ := hm
    obtain ⟨heap, hfree, hacc', hkeeps', -⟩ := freeExprTree_spec ht hacc
    dsimp only
    rw [hnull, hexit, hfree]
    exact ⟨rfl, hor, hkeeps.trans hkeeps', hacc'⟩

/-- A call that touches neither what the function owns nor what belongs to others. -/
theorem mirrors_orFree (ht : Holds .free s.heap.cells owner tree)
    (hexit : exit none = freeExprTree owner)
    (hm : Mirrors p m (tree.addrs + live) s Q fun t => Accounted t.heap (tree.addrs + live)) :
    Mirrors p (orReturn m exit) live s
      (fun b a t => Q b a t ∧ Keeps (tree.addrs + live) s.heap t.heap)
      fun t => Accounted t.heap live := by
  refine mirrors_orReturn hexit (mirrors_frame hm fun t hkeeps hacc => ?_)
  exact ⟨tree, ht.congr fun a ha => hkeeps a (Multiset.mem_add.2 (.inl ha)), hacc⟩

/-- An exit of a function that owns nothing. -/
theorem mirrors_orNull (hexit : ∀ t, exit none t = .ok none t) (hm : Mirrors p m live s Q E) :
    Mirrors p (orReturn m exit) live s Q E := by
  unfold Mirrors at hm ⊢
  unfold orReturn
  cases hrun : m s with
  | ok a t =>
    rw [hrun] at hm
    exact hm
  | error f t =>
    rw [hrun] at hm
    dsimp only
    rw [hm.1, hexit]
    exact ⟨rfl, hm.2⟩

theorem failWith_eq (r : ErrCode) (exit : NodeM (Option ℕ)) :
    (failWith r exit : NodeM α) s =
      match exit s with
      | .ok node u => .error ⟨r, node⟩ u
      | .error g u => .error g u := rfl

/-- An exit with an error of the function's own. -/
theorem failWith_run {r : ErrCode} {exit : NodeM (Option ℕ)}
    (ht : Holds .free s.heap.cells owner tree) (hexit : exit = freeExprTree owner)
    (hacc : Accounted s.heap (tree.addrs + live)) :
    ∃ heap, (failWith r exit : NodeM α) s = .error ⟨r, none⟩ { s with heap } ∧
      Accounted heap live ∧ Keeps live s.heap heap := by
  obtain ⟨heap, hfree, hacc', hkeeps, -⟩ := freeExprTree_spec ht hacc
  subst hexit
  refine ⟨heap, ?_, hacc', hkeeps⟩
  rw [failWith_eq, hfree]

theorem mirrors_failWith {r : ErrCode} {exit : NodeM (Option ℕ)}
    (ht : Holds .free s.heap.cells owner tree) (hexit : exit = freeExprTree owner)
    (hacc : Accounted s.heap (tree.addrs + live)) :
    Mirrors (throw r) (failWith r exit) live s Q fun t => Accounted t.heap live := by
  obtain ⟨heap, hrun, hacc', hkeeps⟩ := @failWith_run α live s tree owner r exit ht hexit hacc
  unfold Mirrors
  rw [hrun]
  exact ⟨rfl, .inr rfl, hkeeps, hacc'⟩

theorem Owns.keeps (h : Owns s live a k kids)
    (hkeeps : Keeps ((NodeTree.node a k kids .nil).addrs + live) s.heap t.heap) :
    Holds .free t.heap.cells (some a) (.node a k kids .nil) :=
  h.holds.congr fun b hb => hkeeps b (Multiset.mem_add.2 (.inl hb))

/-- Reading the text while a node is owned, which an error gives back. -/
theorem mirrors_textOr {x : ParseM α} {p' : α → ParseM β'} (h : Owns s live a k kids)
    (hexit : exit none = freeExprTree (some a))
    (hk : ∀ b text, Owns { s with text } live a k kids →
      Mirrors (p' b) (m' b) live { s with text } Q' fun t => Accounted t.heap live) :
    Mirrors (x >>= p') (orReturn (onText x) exit >>= m') live s Q' fun t => Accounted t.heap live := by
  refine mirrors_bind (Q := fun b a t => b = a ∧ ∃ text, t = { s with text })
    (mirrors_orReturn hexit (mirrors_onText ⟨_, h.holds, h.accounted⟩ (fun _ h => h)
      fun b text => ⟨rfl, text, rfl⟩)) ?_
  rintro b _ _ - ⟨rfl, text, rfl⟩
  exact hk b text ⟨h.holds, h.accounted⟩

/-- Reading the text. -/
theorem mirrors_text {x : ParseM α} {p' : α → ParseM β'} (he : E s) (hE : ∀ text, E s → E { s with text })
    (hk : ∀ b text, Mirrors (p' b) (m' b) live { s with text } Q' E) :
    Mirrors (x >>= p') (onText x >>= m') live s Q' E := by
  refine mirrors_bind (Q := fun b a t => b = a ∧ ∃ text, t = { s with text })
    (mirrors_onText he hE fun b text => ⟨rfl, text, rfl⟩) ?_
  rintro b _ _ - ⟨rfl, text, rfl⟩
  exact hk b text

/-- Looking at the token. -/
theorem mirrors_token {p' : List Char → ParseM β'} {m' : List Char → NodeM α'}
    (hk : ∀ tok, Mirrors (p' tok) (m' tok) live s Q' E) :
    Mirrors (token >>= p') (onText token >>= m') live s Q' E := hk s.text.rest.buf

/-- Looking at a node. -/
theorem mirrors_nodeAt {p : ParseM β'} {m' : Cell NodeKind → NodeM α'}
    (hk : Mirrors p (m' (s.heap.cells a)) live s Q' E) :
    Mirrors p (nodeAt a >>= m') live s Q' E := hk

/-! ### Memory -/

theorem mirrors_mallocString {mem : ℕ → Bool} (he : ∀ n, E { s with asked := n }) :
    Mirrors (pure ()) (mallocString mem) live s (fun _ _ t => ∃ n, t = { s with asked := n })
      E := by
  unfold Mirrors mallocString
  by_cases hm : mem s.asked = true
  · rw [if_pos hm]
    exact ⟨(), rfl, Keeps.refl _, _, rfl⟩
  · rw [if_neg hm]
    exact ⟨rfl, .inl rfl, Keeps.refl _, he _⟩

theorem Accounted.take (h : Accounted s.heap live) (hfree : s.heap.free = some a) :
    Accounted (s.heap.take .error a) (a ::ₘ live) ∧
      Keeps live s.heap (s.heap.take NodeKind.error a) := by
  have hsound : (s.heap.take .error a).Sound .free (a ::ₘ live) := h.sound.take hfree
  refine ⟨⟨hsound, ?_⟩, Pool.keeps_take (Multiset.nodup_cons.1 hsound.nodup).1⟩
  rw [Multiset.card_cons]
  show s.heap.used + 1 = _
  rw [h.used]
  push_cast
  rfl

theorem owns_fresh {heap : ExprHeap} {n : ℕ} {text : Lib.Marked ParseState}
    (h : Accounted (heap.take .error a) (a ::ₘ live)) :
    Owns ⟨text, heap.take .error a, n⟩ live a .error .nil := by
  have hcell : (heap.take .error a).cells a = ⟨.error, none, none, 0⟩ := Function.update_self ..
  refine ⟨⟨rfl, ?_, nofun, ?_, ?_⟩, ?_⟩
  · rw [hcell]
  · rw [hcell]
    rfl
  · rw [hcell]
    rfl
  · rw [NodeTree.addrs_node, NodeTree.addrs_nil, Multiset.add_zero, Multiset.cons_add,
      Multiset.zero_add]
    exact h

/-- A node from the free list. -/
theorem mirrors_allocExprNode {mem : ℕ → Bool} (h : Accounted s.heap live) :
    Mirrors (pure ()) (allocExprNode mem) live s
      (fun _ a t => Owns t live a .error .nil ∧ (t.heap.cells a).numKids = 0)
      fun t => Accounted t.heap live := by
  unfold Mirrors allocExprNode
  cases hfree : s.heap.free with
  | some a =>
    obtain ⟨hacc, hkeeps⟩ := h.take hfree
    refine ⟨(), rfl, hkeeps, owns_fresh hacc, ?_⟩
    rw [show (s.heap.take NodeKind.error a).cells a = _ from Function.update_self ..]
  | none =>
    by_cases hm : mem s.asked = true
    · dsimp only
      rw [if_pos hm]
      have hgrow : Accounted (s.heap.grow .free allocChunk) live :=
        ⟨h.sound.grow hfree (by decide), h.used⟩
      obtain ⟨hacc, hkeeps⟩ := Accounted.take (s := { s with heap := s.heap.grow .free allocChunk })
        (a := s.heap.allocated) hgrow rfl
      refine ⟨(), rfl, h.sound.keeps_grow.trans hkeeps, owns_fresh hacc, ?_⟩
      rw [show ((s.heap.grow NodeKind.free allocChunk).take NodeKind.error
        s.heap.allocated).cells s.heap.allocated = _ from Function.update_self ..]
    · dsimp only
      rw [if_neg hm]
      exact ⟨rfl, .inl rfl, Keeps.refl _, h⟩

/-- Writing a node: it is the root of the trees that its links lead to. -/
theorem mirrors_setNode {f : Cell NodeKind → Cell NodeKind} {rest : NodeTree NodeKind}
    (hk : (f (s.heap.cells a)).kind = k) (hfree : k ≠ .free)
    (hkids : Holds .free s.heap.cells (f (s.heap.cells a)).child kids)
    (hrest : Holds .free s.heap.cells (f (s.heap.cells a)).sibling rest)
    (hacc : Accounted s.heap ((NodeTree.node a k kids rest).addrs + live)) :
    Mirrors (pure ()) (setNode a f) live s
      (fun _ _ t => Holds .free t.heap.cells (some a) (.node a k kids rest) ∧
        Accounted t.heap ((NodeTree.node a k kids rest).addrs + live) ∧
        t.heap.cells a = f (s.heap.cells a)) E := by
  have haddrs : (NodeTree.node a k kids rest).addrs + live =
      a ::ₘ (kids.addrs + (rest.addrs + live)) := by
    rw [NodeTree.addrs_node, Multiset.cons_add, Multiset.add_assoc]
  have hnot : a ∉ kids.addrs + (rest.addrs + live) :=
    (Multiset.nodup_cons.1 (haddrs ▸ hacc.sound.nodup)).1
  rw [Multiset.mem_add, Multiset.mem_add, not_or, not_or] at hnot
  have hcell : (s.heap.modify a f).cells a = f (s.heap.cells a) := Function.update_self ..
  refine ⟨(), rfl, Pool.keeps_modify hnot.2.2 f, ⟨rfl, ?_, hfree, ?_, ?_⟩, ⟨?_, hacc.used⟩, hcell⟩
  · rw [hcell, hk]
  · rw [hcell]
    exact hkids.congr fun b hb => Function.update_of_ne (ne_of_mem_of_not_mem hb hnot.1) _ _
  · rw [hcell]
    exact hrest.congr fun b hb => Function.update_of_ne (ne_of_mem_of_not_mem hb hnot.2.1) _ _
  · exact hacc.sound.modify (haddrs ▸ Multiset.mem_cons_self _ _) f

theorem mirrors_setKind (h : Owns s live a k kids) (hfree : kc ≠ .free) :
    Mirrors (pure ()) (setKind a kc) live s
      (fun _ _ t => Owns t live a kc kids ∧ (t.heap.cells a).numKids = (s.heap.cells a).numKids)
      E := by
  obtain ⟨⟨-, -, -, hkids, hsib⟩, hacc⟩ := h
  refine mirrors_value (mirrors_setNode (f := fun c => { c with kind := kc }) rfl hfree hkids hsib
    hacc) ?_
  rintro - t ⟨ht, hacc', hcell⟩
  exact ⟨⟨ht, hacc'⟩, by rw [hcell]⟩

/-- One tree under the root of another. -/
theorem mirrors_addChild
    (ha : Holds .free s.heap.cells (some a) (.node a k kids .nil))
    (hb : Holds .free s.heap.cells (some b) (.node b kc kidsc .nil))
    (hacc : Accounted s.heap ((NodeTree.node a k kids .nil).addrs +
      ((NodeTree.node b kc kidsc .nil).addrs + live))) :
    Mirrors (pure ()) (addChild a b) live s
      (fun _ _ t => Owns t live a k (kids.append (.node b kc kidsc .nil)) ∧
        (t.heap.cells a).numKids = (s.heap.cells a).numKids + 1) E := by
  obtain ⟨heap, hadd, hsound, hkeeps, hused, hnum, hholds⟩ := hacc.sound.addChild ha hb
  unfold Mirrors addChild
  rw [hadd]
  refine ⟨(), rfl, hkeeps, ⟨hholds, hsound, ?_⟩, hnum⟩
  rw [hused, hacc.used]
  congr 1
  simp only [Multiset.card_add, Multiset.card_cons, NodeTree.addrs_node, NodeTree.addrs_append]
  omega

end Rules

end Remind
