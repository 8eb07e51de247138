import Mathlib.Data.Multiset.Range
import Mathlib.Data.Multiset.UnionInter
import Remind.Lib.Chained

/-!
# Lib.NodePool — trees of linked nodes and the list of the free ones

A node has a kind, a pointer to its first child and one to its next sibling.  The nodes of no tree
are on the free list, linked through their `child` pointers; their kind is `freed`.  A `NodeTree` is
the shape of a tree in memory with the addresses of its nodes: `Holds` says that it is there, and
`Sound L` says that the nodes in use are those of `L`, each once, and all others are on the list.
-/

namespace Remind.Lib

/-- A node; `child` is the link of the free list as well. -/
structure Cell (κ : Type) where
  kind : κ
  child : Option ℕ
  sibling : Option ℕ
  numKids : ℕ

/-- What happens to the free list. -/
inductive FreeMove where
  | grow (first n : ℕ)
  | take (node : ℕ)
  | put (node : ℕ)

/-- The free list as a stack: it grows when it is empty, only its top is taken, and no node that is
on it is put on it again. -/
def FreeMove.apply : FreeMove → List ℕ → Option (List ℕ)
  | .grow first n, [] => some (List.range' first n)
  | .grow _ _, _ :: _ => none
  | .take _, [] => none
  | .take a, b :: l => if a = b then some l else none
  | .put a, l => if a ∈ l then none else some (a :: l)

/-- The stack after some moves, if all of them can be made. -/
def replay (moves : List FreeMove) : Option (List ℕ) := moves.foldlM (fun l m => m.apply l) []

/-- The memory of the nodes: those below `allocated`, the head of the free list, the number of nodes
in use, and, for the laws only, what has happened to the free list. -/
structure Pool (κ : Type) where
  cells : ℕ → Cell κ
  free : Option ℕ
  allocated : ℕ
  used : ℤ
  moves : List FreeMove

/-- The shape of a tree, and of the siblings behind its root. -/
inductive NodeTree (κ : Type) where
  | nil
  | node (addr : ℕ) (kind : κ) (kids rest : NodeTree κ)

variable {κ : Type}

/-! ### Operations -/

section Operations

variable (freed : κ)

/-- A node written. -/
def Pool.modify (h : Pool κ) (a : ℕ) (f : Cell κ → Cell κ) : Pool κ :=
  { h with cells := Function.update h.cells a (f (h.cells a)) }

/-- `n` new nodes, chained into a free list. -/
def Pool.grow (n : ℕ) (h : Pool κ) : Pool κ :=
  { h with
    cells := fun a =>
      if h.allocated ≤ a ∧ a < h.allocated + n then
        ⟨freed, if a + 1 < h.allocated + n then some (a + 1) else none, none, 0⟩
      else h.cells a
    free := some h.allocated
    allocated := h.allocated + n
    moves := h.moves ++ [FreeMove.grow h.allocated n] }

/-- The node `a` from the top of the free list, with the kind `fresh`. -/
def Pool.take (fresh : κ) (a : ℕ) (h : Pool κ) : Pool κ :=
  { h with
    cells := Function.update h.cells a ⟨fresh, none, none, 0⟩
    free := (h.cells a).child
    used := h.used + 1
    moves := h.moves ++ [FreeMove.take a] }

/-- The node `a` on the top of the free list. -/
def Pool.put (a : ℕ) (h : Pool κ) : Pool κ :=
  { h with
    cells := Function.update h.cells a { h.cells a with kind := freed, child := h.free }
    free := some a
    moves := h.moves ++ [FreeMove.put a] }

variable [DecidableEq κ]

/-- A tree is freed: the children, the siblings behind it, and then its root. -/
def Pool.freeTree : ℕ → Option ℕ → Pool κ → Option (Pool κ)
  | _, none, h => some h
  | 0, some _, _ => none
  | n + 1, some a, h =>
    if (h.cells a).kind = freed then some h
    else do
      let h := { h with used := h.used - 1 }
      let h ← Pool.freeTree n (h.cells a).child h
      let h ← Pool.freeTree n (h.cells a).sibling h
      return h.put freed a

end Operations

/-- The last of the siblings from `a` on. -/
def Pool.lastSibling (h : Pool κ) : ℕ → ℕ → Option ℕ
  | 0, _ => none
  | n + 1, a =>
    match (h.cells a).sibling with
    | none => some a
    | some b => h.lastSibling n b

/-- A child behind the others of a node. -/
def Pool.addChild (parent child : ℕ) (h : Pool κ) : Option (Pool κ) :=
  let h := h.modify parent fun c => { c with numKids := c.numKids + 1 }
  let h := h.modify child fun c => { c with sibling := none }
  match (h.cells parent).child with
  | none => some (h.modify parent fun c => { c with child := some child })
  | some first => do
    let last ← h.lastSibling h.allocated first
    return h.modify last fun c => { c with sibling := some child }

/-! ### Trees in memory -/

namespace NodeTree

/-- The addresses of the nodes. -/
def addrs : NodeTree κ → Multiset ℕ
  | nil => 0
  | node a _ kids rest => a ::ₘ (kids.addrs + rest.addrs)

/-- The number of nodes. -/
def size : NodeTree κ → ℕ
  | nil => 0
  | node _ _ kids rest => kids.size + rest.size + 1

/-- Siblings behind the siblings. -/
def append : NodeTree κ → NodeTree κ → NodeTree κ
  | nil, u => u
  | node a k kids rest, u => node a k kids (rest.append u)

/-- The address of the root. -/
def root : NodeTree κ → Option ℕ
  | nil => none
  | node a _ _ _ => some a

variable (t u : NodeTree κ)

@[simp] theorem addrs_nil : (nil : NodeTree κ).addrs = 0 := rfl

@[simp] theorem addrs_node (a : ℕ) (k : κ) :
    (node a k t u).addrs = a ::ₘ (t.addrs + u.addrs) := rfl

@[simp] theorem card_addrs : t.addrs.card = t.size := by
  induction t with
  | nil => rfl
  | node a k kids rest ihk ihr =>
    rw [addrs_node, Multiset.card_cons, Multiset.card_add, ihk, ihr, size]

@[simp] theorem addrs_append : (t.append u).addrs = t.addrs + u.addrs := by
  induction t with
  | nil => exact (Multiset.zero_add _).symm
  | node a k kids rest _ ihr =>
    rw [append, addrs_node, addrs_node, ihr, Multiset.cons_add, Multiset.add_assoc]

/-- The same tree at other addresses. -/
inductive Like : NodeTree κ → NodeTree κ → Prop where
  | nil : Like nil nil
  | node {a b : ℕ} {k : κ} {kids rest kids' rest' : NodeTree κ} (hkids : Like kids kids')
      (hrest : Like rest rest') : Like (node a k kids rest) (node b k kids' rest')

end NodeTree

/-- The pointer leads to the tree `t`, none of whose nodes is free. -/
def Holds (freed : κ) (cells : ℕ → Cell κ) : Option ℕ → NodeTree κ → Prop
  | p, .nil => p = none
  | p, .node a k kids rest =>
    p = some a ∧ (cells a).kind = k ∧ k ≠ freed ∧
      Holds freed cells (cells a).child kids ∧ Holds freed cells (cells a).sibling rest

/-- The nodes in use are those of `live`, each once; all others are on the free list, which is the
stack that its moves come to. -/
structure Pool.Sound (freed : κ) (h : Pool κ) (live : Multiset ℕ) : Prop where
  stack : ∃ l : List ℕ, replay h.moves = some l ∧
    Chained (fun a => (h.cells a).child) h.free l ∧ (∀ a ∈ l, (h.cells a).kind = freed) ∧
      (l : Multiset ℕ) + live = Multiset.range h.allocated

/-- The nodes of `live` are as they were. -/
def Pool.Keeps (live : Multiset ℕ) (h h' : Pool κ) : Prop := ∀ a ∈ live, h'.cells a = h.cells a

section Laws

variable {freed fresh : κ} {h h' h'' : Pool κ} {live more : Multiset ℕ} {a b n : ℕ} {p : Option ℕ}
  {cells cells' : ℕ → Cell κ} {t kids rest : NodeTree κ} {k : κ}

theorem Pool.Keeps.refl (h : Pool κ) : Pool.Keeps live h h := fun _ _ => rfl

theorem Pool.Keeps.trans (h₁ : Pool.Keeps live h h') (h₂ : Pool.Keeps live h' h'') :
    Pool.Keeps live h h'' := fun a ha => (h₂ a ha).trans (h₁ a ha)

theorem Pool.Keeps.mono (hk : Pool.Keeps more h h') (hle : live ≤ more) : Pool.Keeps live h h' :=
  fun a ha => hk a (Multiset.mem_of_le hle ha)

/-- A tree sees only its own nodes. -/
theorem Holds.congr (ht : Holds freed cells p t) (heq : ∀ a ∈ t.addrs, cells' a = cells a) :
    Holds freed cells' p t := by
  induction t generalizing p with
  | nil => exact ht
  | node a k kids rest ihk ihr =>
    obtain ⟨hp, hkind, hfree, hkids, hrest⟩ := ht
    rw [NodeTree.addrs_node] at heq
    have ha := heq a (Multiset.mem_cons_self _ _)
    refine ⟨hp, ?_, hfree, ?_, ?_⟩
    · rw [ha]
      exact hkind
    · rw [ha]
      exact ihk hkids fun b hb =>
        heq b (Multiset.mem_cons_of_mem (Multiset.mem_add.2 (.inl hb)))
    · rw [ha]
      exact ihr hrest fun b hb =>
        heq b (Multiset.mem_cons_of_mem (Multiset.mem_add.2 (.inr hb)))

theorem Holds.root_eq (ht : Holds freed cells p t) : p = t.root := by
  cases t with
  | nil => exact ht
  | node a k kids rest => exact ht.1

/-! ### The free list -/

/-- Nodes that each lead to the next one. -/
theorem chained_range' {next : ℕ → Option ℕ} {first : ℕ}
    (hnext : ∀ a, first ≤ a → a < first + n →
      next a = if a + 1 < first + n then some (a + 1) else none) :
    Chained next (if 0 < n then some first else none) (List.range' first n) := by
  induction n generalizing first with
  | zero => rfl
  | succ n ih =>
    rw [List.range'_succ, if_pos (Nat.succ_pos n)]
    refine ⟨rfl, ?_⟩
    rw [hnext first le_rfl (Nat.lt_add_of_pos_right (Nat.succ_pos n))]
    have hpos : first + 1 < first + (n + 1) ↔ 0 < n := by omega
    rw [if_congr hpos rfl rfl]
    refine ih fun a h1 h2 => ?_
    rw [hnext a (by omega) (by omega), Nat.add_right_comm first 1 n, Nat.add_assoc first n 1]

namespace Pool.Sound

/-- What is in use is in use once. -/
theorem nodup (hs : h.Sound freed live) : live.Nodup := by
  obtain ⟨l, -, -, -, hall⟩ := hs
  exact Multiset.nodup_of_le (hall ▸ Multiset.le_add_left _ _) (Multiset.nodup_range h.allocated)

theorem lt_allocated (hs : h.Sound freed live) (ha : a ∈ live) : a < h.allocated := by
  obtain ⟨l, -, -, -, hall⟩ := hs
  exact Multiset.mem_range.1 (hall ▸ Multiset.mem_add.2 (.inr ha))

theorem card_le (hs : h.Sound freed live) : live.card ≤ h.allocated := by
  obtain ⟨l, -, -, -, hall⟩ := hs
  rw [← Multiset.card_range h.allocated, ← hall, Multiset.card_add]
  exact Nat.le_add_left _ _

/-- What counts is not touched by the number of nodes in use. -/
theorem withUsed (hs : h.Sound freed live) (n : ℤ) :
    Pool.Sound freed { h with used := n } live := ⟨hs.stack⟩

/-- A node in use may be written. -/
theorem modify (hs : h.Sound freed live) (ha : a ∈ live) (f : Cell κ → Cell κ) :
    (h.modify a f).Sound freed live := by
  obtain ⟨l, hmoves, hchain, hkind, hall⟩ := hs
  have hnot : a ∉ l := fun hl =>
    (Multiset.disjoint_left.1 (Multiset.nodup_add.1 (hall ▸ Multiset.nodup_range _)).2.2)
      (Multiset.mem_coe.2 hl) ha
  have hcell : ∀ b ∈ l, (h.modify a f).cells b = h.cells b := fun b hb =>
    Function.update_of_ne (ne_of_mem_of_not_mem hb hnot) _ _
  refine ⟨l, hmoves, hchain.congr fun b hb => ?_, fun b hb => ?_, hall⟩
  · rw [hcell b hb]
  · rw [hcell b hb]
    exact hkind b hb

/-- The top of the free list comes into use. -/
theorem take (hs : h.Sound freed live) (hfree : h.free = some a) :
    (h.take fresh a).Sound freed (a ::ₘ live) := by
  obtain ⟨l, hmoves, hchain, hkind, hall⟩ := hs
  cases l with
  | nil => cases hfree.symm.trans hchain
  | cons b l =>
    obtain ⟨hb, hchain⟩ := hchain
    obtain rfl : a = b := Option.some.inj (hfree.symm.trans hb)
    have hnodup : (a :: l).Nodup :=
      Multiset.coe_nodup.1 (Multiset.nodup_of_le (hall ▸ Multiset.le_add_right _ _)
        (Multiset.nodup_range h.allocated))
    have hcell : ∀ b ∈ l, (h.take fresh a).cells b = h.cells b := fun b hb =>
      Function.update_of_ne (ne_of_mem_of_not_mem hb (List.nodup_cons.1 hnodup).1) _ _
    refine ⟨l, ?_, hchain.congr fun b hb => ?_, fun b hb => ?_, ?_⟩
    · rw [replay, Pool.take, List.foldlM_append, ← replay, hmoves]
      simp [FreeMove.apply]
    · rw [hcell b hb]
    · rw [hcell b hb]
      exact hkind b (List.mem_cons_of_mem _ hb)
    · rw [← Multiset.cons_coe, Multiset.cons_add] at hall
      rw [Multiset.add_cons]
      exact hall

/-- A node goes out of use. -/
theorem put (hs : h.Sound freed (a ::ₘ live)) : (h.put freed a).Sound freed live := by
  obtain ⟨l, hmoves, hchain, hkind, hall⟩ := hs
  have hnot : a ∉ l := fun hl =>
    (Multiset.disjoint_left.1 (Multiset.nodup_add.1 (hall ▸ Multiset.nodup_range _)).2.2)
      (Multiset.mem_coe.2 hl) (Multiset.mem_cons_self _ _)
  have hcell : ∀ b ∈ l, (h.put freed a).cells b = h.cells b := fun b hb =>
    Function.update_of_ne (ne_of_mem_of_not_mem hb hnot) _ _
  have hself : (h.put freed a).cells a = { h.cells a with kind := freed, child := h.free } :=
    Function.update_self ..
  refine ⟨a :: l, ?_, ⟨rfl, ?_⟩, fun b hb => ?_, ?_⟩
  · rw [replay, Pool.put, List.foldlM_append, ← replay, hmoves]
    simp [FreeMove.apply, hnot]
  · show Chained _ ((h.put freed a).cells a).child l
    rw [hself]
    exact hchain.congr fun b hb => by rw [hcell b hb]
  · rcases List.mem_cons.1 hb with rfl | hb
    · rw [hself]
    · rw [hcell b hb]
      exact hkind b hb
  · rw [← Multiset.cons_coe, Multiset.cons_add, ← Multiset.add_cons]
    exact hall

/-- New nodes, where there is no free one. -/
theorem grow (hs : h.Sound freed live) (hfree : h.free = none) (hn : 0 < n) :
    (h.grow freed n).Sound freed live := by
  obtain ⟨l, hmoves, hchain, hkind, hall⟩ := hs
  cases l with
  | cons b l => cases hfree.symm.trans hchain.1
  | nil =>
    rw [Multiset.coe_nil, Multiset.zero_add] at hall
    have hcell : ∀ a, h.allocated ≤ a → a < h.allocated + n → (h.grow freed n).cells a =
        ⟨freed, if a + 1 < h.allocated + n then some (a + 1) else none, none, 0⟩ := fun a h1 h2 =>
      if_pos ⟨h1, h2⟩
    refine ⟨List.range' h.allocated n, ?_, ?_, fun a ha => ?_, ?_⟩
    · rw [replay, Pool.grow, List.foldlM_append, ← replay, hmoves]
      rfl
    · have hchain' := @chained_range' n (fun a => ((h.grow freed n).cells a).child) h.allocated
        fun a h1 h2 => by rw [hcell a h1 h2]
      rwa [if_pos hn] at hchain'
    · obtain ⟨h1, h2⟩ := List.mem_range'_1.1 ha
      rw [hcell a h1 h2]
    · rw [Pool.grow, Multiset.range_add, List.range'_eq_map_range, hall, Multiset.add_comm]
      rfl

end Pool.Sound

theorem Pool.keeps_modify (ha : a ∉ live) (f : Cell κ → Cell κ) : Keeps live h (h.modify a f) :=
  fun _ hb => Function.update_of_ne (ne_of_mem_of_not_mem hb ha) _ _

theorem Pool.keeps_take (ha : a ∉ live) : Keeps live h (h.take fresh a) :=
  fun _ hb => Function.update_of_ne (ne_of_mem_of_not_mem hb ha) _ _

theorem Pool.keeps_put (ha : a ∉ live) : Keeps live h (h.put freed a) :=
  fun _ hb => Function.update_of_ne (ne_of_mem_of_not_mem hb ha) _ _

theorem Pool.Sound.keeps_grow (hs : h.Sound freed live) : Pool.Keeps live h (h.grow freed n) :=
  fun _ hb => if_neg fun hge => absurd (hs.lt_allocated hb) (Nat.not_lt.2 hge.1)

/-! ### Freeing a tree -/

/-- A tree in use is freed, each of its nodes once, and nothing else is. -/
theorem Pool.Sound.freeTree [DecidableEq κ] (hs : h.Sound freed (t.addrs + live))
    (ht : Holds freed h.cells p t) (hn : t.size ≤ n) :
    ∃ h', Pool.freeTree freed n p h = some h' ∧ h'.Sound freed live ∧ Keeps live h h' ∧
      h'.used = h.used - t.size := by
  induction t generalizing n p h live with
  | nil =>
    obtain rfl : p = none := ht
    refine ⟨h, ?_, by rwa [NodeTree.addrs_nil, Multiset.zero_add] at hs, Keeps.refl h, ?_⟩
    · cases n <;> rfl
    · exact (Int.sub_zero _).symm
  | node a k kids rest ihk ihr =>
    obtain ⟨rfl, hkind, hfree, hkids, hrest⟩ := ht
    cases n with
    | zero => exact absurd hn (Nat.not_succ_le_zero _)
    | succ n =>
      rw [NodeTree.size] at hn ⊢
      rw [NodeTree.addrs_node] at hs
      have hnodup := hs.nodup
      have hperm : (a ::ₘ (kids.addrs + rest.addrs)) + live =
          kids.addrs + (rest.addrs + (a ::ₘ live)) := by
        rw [Multiset.cons_add, Multiset.add_cons, Multiset.add_cons, Multiset.add_assoc]
      rw [hperm] at hs
      obtain ⟨h₁, hfree₁, hs₁, hk₁, hu₁⟩ := ihk (n := n) (hs.withUsed (h.used - 1)) hkids (by omega)
      have hrest₁ : Holds freed h₁.cells (h₁.cells a).sibling rest := by
        rw [hk₁ a (Multiset.mem_add.2 (.inr (Multiset.mem_cons_self _ _)))]
        exact hrest.congr fun b hb => hk₁ b (Multiset.mem_add.2 (.inl hb))
      obtain ⟨h₂, hfree₂, hs₂, hk₂, hu₂⟩ := ihr (n := n) hs₁ hrest₁ (by omega)
      refine ⟨h₂.put freed a, ?_, hs₂.put, ?_, ?_⟩
      · rw [Pool.freeTree, if_neg (hkind ▸ hfree)]
        dsimp only
        rw [hfree₁]
        dsimp only [Option.bind_eq_bind, Option.bind_some]
        rw [hfree₂]
        rfl
      · have hlive : live ≤ rest.addrs + (a ::ₘ live) :=
          (Multiset.le_cons_self _ _).trans (Multiset.le_add_left _ _)
        have hnot : a ∉ live := (Multiset.nodup_cons.1 hs₂.nodup).1
        exact (hk₁.mono hlive : Keeps live h h₁).trans
          ((hk₂.mono (Multiset.le_cons_self _ _)).trans (keeps_put hnot))
      · show h₂.used = _
        rw [hu₂, hu₁]
        dsimp only
        omega

/-! ### Siblings -/

/-- The siblings end in a node whose link, when it is written, makes others follow them. -/
theorem Holds.lastSibling (ht : Holds freed h.cells (some a) t) (hnodup : t.addrs.Nodup)
    (hn : t.size ≤ n) : ∃ z ∈ t.addrs, h.lastSibling n a = some z ∧ ∀ cells' c u,
      cells' z = { h.cells z with sibling := c } → (∀ b ∈ t.addrs, b ≠ z → cells' b = h.cells b) →
      Holds freed cells' c u → Holds freed cells' (some a) (t.append u) := by
  induction t generalizing n a with
  | nil => cases ht
  | node a' k kids rest _ ihr =>
    obtain ⟨ha, hkind, hfree, hkids, hrest⟩ := ht
    obtain rfl : a = a' := Option.some.inj ha
    rw [NodeTree.addrs_node] at hnodup ⊢
    obtain ⟨hnot, hnodup⟩ := Multiset.nodup_cons.1 hnodup
    obtain ⟨-, hnodupR, hdisj⟩ := Multiset.nodup_add.1 hnodup
    rw [Multiset.mem_add, not_or] at hnot
    have hinK : ∀ b ∈ kids.addrs, b ∈ a ::ₘ (kids.addrs + rest.addrs) := fun b hb =>
      Multiset.mem_cons_of_mem (Multiset.mem_add.2 (.inl hb))
    have hinR : ∀ b ∈ rest.addrs, b ∈ a ::ₘ (kids.addrs + rest.addrs) := fun b hb =>
      Multiset.mem_cons_of_mem (Multiset.mem_add.2 (.inr hb))
    rw [NodeTree.size] at hn
    cases n with
    | zero => exact absurd hn (Nat.not_succ_le_zero _)
    | succ n =>
      rw [Pool.lastSibling]
      cases hsib : (h.cells a).sibling with
      | none =>
        -- the root is the last one
        rw [hsib] at hrest
        cases rest with
        | node b k' kids' rest' => cases hrest.1
        | nil =>
          refine ⟨a, Multiset.mem_cons_self _ _, rfl, fun cells' c u hz hsame hu => ?_⟩
          refine ⟨rfl, by rw [hz]; exact hkind, hfree, ?_, ?_⟩
          · rw [hz]
            exact hkids.congr fun b hb => hsame b (hinK b hb) (ne_of_mem_of_not_mem hb hnot.1)
          · rw [hz]
            exact hu
      | some b =>
        rw [hsib] at hrest
        obtain ⟨z, hz, hlast, hput⟩ := ihr hrest hnodupR (n := n) (by omega)
        refine ⟨z, hinR z hz, hlast, fun cells' c u hcz hsame hu => ?_⟩
        have ha := hsame a (Multiset.mem_cons_self _ _) (ne_of_mem_of_not_mem hz hnot.2).symm
        refine ⟨rfl, by rw [ha]; exact hkind, hfree, ?_, ?_⟩
        · rw [ha]
          refine hkids.congr fun b hb => hsame b (hinK b hb) fun heq => ?_
          exact Multiset.disjoint_left.1 hdisj hb (heq ▸ hz)
        · rw [ha, hsib]
          exact hput cells' c u hcz (fun b hb => hsame b (hinR b hb)) hu

/-- The tree of `b` becomes the last child of `a`. -/
theorem Pool.Sound.addChild {kc : κ} {kidsc : NodeTree κ}
    (hs : h.Sound freed ((NodeTree.node a k kids .nil).addrs +
      ((NodeTree.node b kc kidsc .nil).addrs + live)))
    (ha : Holds freed h.cells (some a) (.node a k kids .nil))
    (hb : Holds freed h.cells (some b) (.node b kc kidsc .nil)) :
    ∃ h', h.addChild a b = some h' ∧
      h'.Sound freed ((NodeTree.node a k (kids.append (.node b kc kidsc .nil)) .nil).addrs + live) ∧
      Keeps live h h' ∧ h'.used = h.used ∧ (h'.cells a).numKids = (h.cells a).numKids + 1 ∧
      Holds freed h'.cells (some a) (.node a k (kids.append (.node b kc kidsc .nil)) .nil) := by
  have haddrs : (NodeTree.node a k kids .nil).addrs +
      ((NodeTree.node b kc kidsc .nil).addrs + live) =
        a ::ₘ (kids.addrs + ((NodeTree.node b kc kidsc .nil).addrs + live)) := by
    rw [NodeTree.addrs_node, NodeTree.addrs_nil, Multiset.add_zero, Multiset.cons_add]
  have haddrs' : (NodeTree.node a k (kids.append (.node b kc kidsc .nil)) .nil).addrs + live =
      a ::ₘ (kids.addrs + ((NodeTree.node b kc kidsc .nil).addrs + live)) := by
    rw [NodeTree.addrs_node, NodeTree.addrs_append, NodeTree.addrs_nil, Multiset.add_zero,
      Multiset.cons_add, Multiset.add_assoc]
  rw [haddrs] at hs
  rw [haddrs']
  obtain ⟨hnotA, hnodup⟩ := Multiset.nodup_cons.1 hs.nodup
  obtain ⟨hnodupK, -, hdisj⟩ := Multiset.nodup_add.1 hnodup
  rw [Multiset.mem_add, Multiset.mem_add, not_or, not_or] at hnotA
  obtain ⟨hnotK, hnotB, hnotL⟩ := hnotA
  obtain ⟨-, hkind, hfree, hkids, hsib⟩ := ha
  have hbIn : b ∈ (NodeTree.node b kc kidsc .nil).addrs := Multiset.mem_cons_self _ _
  have hba : b ≠ a := ne_of_mem_of_not_mem hbIn hnotB
  -- the link of `b` is null before
  let h₂ := (h.modify a fun c => { c with numKids := c.numKids + 1 }).modify b
    fun c => { c with sibling := none }
  have hcellA : h₂.cells a = { h.cells a with numKids := (h.cells a).numKids + 1 } := by
    rw [show h₂.cells a = _ from Function.update_of_ne hba.symm _ _]
    exact Function.update_self ..
  have hother : ∀ x, x ≠ a → h₂.cells x = h.cells x := by
    intro x hx
    by_cases hxb : x = b
    · subst hxb
      have hnull : (h.cells x).sibling = none := hb.2.2.2.2
      rw [show h₂.cells x = _ from Function.update_self ..,
        show (h.modify a _).cells x = _ from Function.update_of_ne hx _ _, ← hnull]
    · rw [show h₂.cells x = _ from Function.update_of_ne hxb _ _]
      exact Function.update_of_ne hx _ _
  have hs₂ : h₂.Sound freed (a ::ₘ (kids.addrs + ((NodeTree.node b kc kidsc .nil).addrs + live))) :=
    (hs.modify (Multiset.mem_cons_self _ _) _).modify
      (Multiset.mem_cons_of_mem (Multiset.mem_add.2 (.inr (Multiset.mem_add.2 (.inl hbIn))))) _
  have hkeeps₂ : Keeps live h h₂ := fun x hx => hother x (ne_of_mem_of_not_mem hx hnotL)
  rw [Pool.addChild]
  change ∃ h', (match (h₂.cells a).child with
    | none => some (h₂.modify a fun c => { c with child := some b })
    | some first => do
      let last ← h₂.lastSibling h₂.allocated first
      return h₂.modify last fun c => { c with sibling := some b }) = some h' ∧ _
  rw [hcellA]
  cases hchild : (h.cells a).child with
  | none =>
    -- the first child
    rw [hchild] at hkids
    cases kids with
    | node c k' kids' rest' => cases hkids.1
    | nil =>
      let h₃ := h₂.modify a fun c => { c with child := some b }
      have hself : h₃.cells a = { h₂.cells a with child := some b } := Function.update_self ..
      have hother₃ : ∀ x, x ≠ a → h₃.cells x = h.cells x := fun x hx =>
        (Function.update_of_ne hx _ _ : h₃.cells x = h₂.cells x).trans (hother x hx)
      refine ⟨h₃, rfl, hs₂.modify (Multiset.mem_cons_self _ _) _,
        fun x hx => hother₃ x (ne_of_mem_of_not_mem hx hnotL), rfl, ?_, rfl, ?_, hfree, ?_, ?_⟩
      · rw [hself, hcellA]
      · rw [hself, hcellA]
        exact hkind
      · rw [hself]
        exact hb.congr fun x hx => hother₃ x (ne_of_mem_of_not_mem hx hnotB)
      · rw [hself, hcellA]
        exact hsib
  | some first =>
    rw [hchild] at hkids
    have hkids₂ : Holds freed h₂.cells (some first) kids :=
      hkids.congr fun x hx => hother x (ne_of_mem_of_not_mem hx hnotK)
    have hsize : kids.size ≤ h₂.allocated := by
      have hle := hs₂.card_le
      rw [Multiset.card_cons, Multiset.card_add, NodeTree.card_addrs] at hle
      omega
    obtain ⟨z, hz, hlast, hput⟩ := hkids₂.lastSibling hnodupK hsize
    let h₃ := h₂.modify z fun c => { c with sibling := some b }
    have hotherZ : ∀ x, x ≠ z → h₃.cells x = h₂.cells x := fun x hx => Function.update_of_ne hx _ _
    have hcellA₃ : h₃.cells a = h₂.cells a := hotherZ a (ne_of_mem_of_not_mem hz hnotK).symm
    have houtside : ∀ x ∈ (NodeTree.node b kc kidsc .nil).addrs + live, x ≠ z := fun x hx heq =>
      Multiset.disjoint_left.1 hdisj hz (heq ▸ hx)
    refine ⟨h₃, ?_, hs₂.modify (Multiset.mem_cons_of_mem (Multiset.mem_add.2 (.inl hz))) _,
      fun x hx => ?_, rfl, ?_, rfl, ?_, hfree, ?_, ?_⟩
    · dsimp only
      rw [hlast]
      rfl
    · rw [hotherZ x (houtside x (Multiset.mem_add.2 (.inr hx)))]
      exact hkeeps₂ x hx
    · rw [hcellA₃, hcellA]
    · rw [hcellA₃, hcellA]
      exact hkind
    · rw [hcellA₃, hcellA, hchild]
      refine hput h₃.cells (some b) _ (Function.update_self ..) (fun x _ hx => hotherZ x hx) ?_
      refine hb.congr fun x hx => ?_
      rw [hotherZ x (houtside x (Multiset.mem_add.2 (.inl hx)))]
      exact hother x (ne_of_mem_of_not_mem hx hnotB)
    · rw [hcellA₃, hcellA]
      exact hsib

end Laws

end Remind.Lib
