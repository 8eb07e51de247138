import Mathlib.Data.Multiset.Filter
import Remind.HashTab
import Remind.Lib.Chained

/-!
# LinkedTable — the hash table in memory (hashtab.c)

The links of a table are in its items: an item is a pointer, and `link p` is what `LINK(t, p)`
points to.  `memory` says whether the `malloc` of `hash_table_resize` succeeds.  The loops follow
the links with fuel; `Holds` keeps the links of a table in chains, so that they end.
-/

namespace Remind

open Lib
open scoped List

/-- `struct hash_link` -/
structure HashLink (ι : Type) where
  next : Option ι
  hashval : ℕ

/-- `hash_table`, and the links in the items. -/
structure LinkedTable (ι : Type) where
  bucketChoiceIndex : ℕ
  numEntries : ℕ
  numGrowths : ℕ
  numShrinks : ℕ
  buckets : List (Option ι)
  link : ι → HashLink ι

/-- The new buckets in `hash_table_resize`, and the links. -/
structure Moving (ι : Type) where
  newBuckets : List (Option ι)
  link : ι → HashLink ι

namespace LinkedTable

variable {ι : Type} [DecidableEq ι]

/-- `NUM_BUCKETS(t)` -/
def numBuckets (t : LinkedTable ι) : ℕ := bucketChoices.getD t.bucketChoiceIndex 0

/-- The pointer in `LINK(t, p)`. -/
def next (link : ι → HashLink ι) (p : ι) : Option ι := (link p).next

/-- The hash value in `LINK(t, p)`. -/
def hashval (link : ι → HashLink ι) (p : ι) : ℕ := (link p).hashval

/-- `hash_table_init`; the items' links are not written. -/
def init (link : ι → HashLink ι) : LinkedTable ι where
  bucketChoiceIndex := 0
  numEntries := 0
  numGrowths := 0
  numShrinks := 0
  buckets := List.replicate (bucketChoices.getD 0 0) none
  link := link

/-- One item moved to the new buckets. -/
def relink (numNewBuckets : ℕ) (m : Moving ι) (p : ι) : Moving ι :=
  let l := m.link p
  let j := l.hashval % numNewBuckets
  { link := Function.update m.link p { l with next := m.newBuckets.getD j none }
    newBuckets := m.newBuckets.set j (some p) }

/-- `while (p)` in `hash_table_resize`. -/
def moveChain (numNewBuckets : ℕ) : ℕ → Moving ι → Option ι → Option (Moving ι)
  | 0, _, _ => none
  | _ + 1, m, none => some m
  | fuel + 1, m, some p =>
    moveChain numNewBuckets fuel (relink numNewBuckets m p) (m.link p).next

/-- `hash_table_resize` -/
def resize (memory : Bool) (fuel : ℕ) (t : LinkedTable ι) (dir : ℤ) : Option (LinkedTable ι) :=
  if dir ≠ 1 ∧ dir ≠ -1 then some t
  else if (dir = -1 ∧ t.bucketChoiceIndex = 0) ∨
      (dir = 1 ∧ t.bucketChoiceIndex = numBucketChoices - 1) then some t
  else if memory = false then some t
  else
    let index := (t.bucketChoiceIndex + dir).toNat
    let numNewBuckets := bucketChoices.getD index 0
    let t1 := if dir = 1 then { t with numGrowths := t.numGrowths + 1 }
      else { t with numShrinks := t.numShrinks + 1 }
    (t.buckets.foldlM (moveChain numNewBuckets fuel)
      ⟨List.replicate numNewBuckets none, t.link⟩).map fun m =>
        { t1 with buckets := m.newBuckets, link := m.link, bucketChoiceIndex := index }

/-- `hash_table_insert`: its value and the table. -/
def insert (hashfunc : ι → ℕ) (memory : Bool) (fuel : ℕ) (t : LinkedTable ι) :
    Option ι → Option (ℤ × LinkedTable ι)
  | none => some (-1, t)
  | some item =>
    let v := hashfunc item
    let t1 := { t with
      link := Function.update t.link item ⟨t.buckets.getD (v % t.numBuckets) none, v⟩
      buckets := t.buckets.set (v % t.numBuckets) (some item)
      numEntries := t.numEntries + 1 }
    -- grow for a load factor over 2
    if t1.bucketChoiceIndex < numBucketChoices - 1 ∧ t1.numEntries > 2 * t1.numBuckets then
      (t1.resize memory fuel 1).map fun t2 => (0, t2)
    else some (0, t1)

/-- `while (ptr)` in `hash_table_find`; `compare` is its result being 0. -/
def findFrom (compare : ι → ι → Bool) (link : ι → HashLink ι) (candidate : ι) :
    ℕ → Option ι → Option (Option ι)
  | 0, _ => none
  | _ + 1, none => some none
  | fuel + 1, some ptr =>
    if compare candidate ptr then some (some ptr)
    else findFrom compare link candidate fuel (link ptr).next

/-- `hash_table_find` -/
def find (hashfunc : ι → ℕ) (compare : ι → ι → Bool) (fuel : ℕ) (t : LinkedTable ι) :
    Option ι → Option (Option ι)
  | none => some none
  | some candidate =>
    findFrom compare t.link candidate fuel
      (t.buckets.getD (hashfunc candidate % t.numBuckets) none)

/-- `while (ptr)` in `hash_table_delete_helper`: the item whose link points to `item`. -/
def findBefore (link : ι → HashLink ι) (item : ι) : ℕ → Option ι → Option (Option ι)
  | 0, _ => none
  | _ + 1, none => some none
  | fuel + 1, some ptr =>
    if (link ptr).next = some item then some (some ptr)
    else findBefore link item fuel (link ptr).next

/-- The end of a deletion: shrink for a load factor under 1. -/
def shrink (memory : Bool) (fuel : ℕ) (resizeOk : Bool) (t : LinkedTable ι) :
    Option (ℤ × LinkedTable ι) :=
  if resizeOk = true ∧ t.bucketChoiceIndex > 0 ∧ t.numEntries < t.numBuckets / 2 then
    (t.resize memory fuel (-1)).map fun t1 => (0, t1)
  else some (0, t)

/-- `hash_table_delete_helper` -/
def deleteHelper (memory : Bool) (fuel : ℕ) (resizeOk : Bool) (t : LinkedTable ι) :
    Option ι → Option (ℤ × LinkedTable ι)
  | none => some (-1, t)
  | some item =>
    let l := t.link item
    let v := l.hashval % t.numBuckets
    if t.buckets.getD v none = some item then
      shrink memory fuel resizeOk
        { t with buckets := t.buckets.set v l.next, numEntries := t.numEntries - 1 }
    else
      match findBefore t.link item fuel (t.buckets.getD v none) with
      | none => none
      -- ENOENT
      | some none => some (-1, t)
      | some (some ptr) =>
        shrink memory fuel resizeOk
          { t with
            link := Function.update t.link ptr { t.link ptr with next := l.next }
            numEntries := t.numEntries - 1 }

/-- `hash_table_delete` -/
def delete (memory : Bool) (fuel : ℕ) (t : LinkedTable ι) (item : Option ι) :
    Option (ℤ × LinkedTable ι) := t.deleteHelper memory fuel true item

/-- `hash_table_delete_no_resize` -/
def deleteNoResize (fuel : ℕ) (t : LinkedTable ι) (item : Option ι) :
    Option (ℤ × LinkedTable ι) := t.deleteHelper true fuel false item

/-- The first item in the buckets from `startBucket` on. -/
def firstFrom (t : LinkedTable ι) (startBucket : ℕ) : Option ι :=
  ((t.buckets.take t.numBuckets).drop startBucket).findSome? id

/-- `hash_table_next` -/
def hashTableNext (t : LinkedTable ι) : Option ι → Option ι
  | none => t.firstFrom 0
  | some cur =>
    match (t.link cur).next with
    | some p => some p
    | none => t.firstFrom ((t.link cur).hashval % t.numBuckets + 1)

/-- An iteration from `cur` on.  The items that `drop` tells are removed after their successor has
been fetched.  Gives the items visited and the table left. -/
def visit (drop : ι → Bool) (fuel : ℕ) :
    ℕ → LinkedTable ι → Option ι → Option (List ι × LinkedTable ι)
  | 0, _, _ => none
  | _ + 1, t, none => some ([], t)
  | n + 1, t, some cur =>
    let nxt := t.hashTableNext (some cur)
    (if drop cur then (t.deleteNoResize fuel (some cur)).map Prod.snd else some t).bind fun t1 =>
      (visit drop fuel n t1 nxt).map fun r => (cur :: r.1, r.2)

/-- The links are in chains, every item in the chain of its hash value, none twice, and they are
counted. -/
structure Holds (t : LinkedTable ι) (cs : List (List ι)) : Prop where
  index : t.bucketChoiceIndex < numBucketChoices
  length : cs.length = t.numBuckets
  heads : Heads (next t.link) t.buckets cs
  placed : Placed (hashval t.link) t.numBuckets cs
  nodup : cs.flatten.Nodup
  count : t.numEntries = cs.flatten.length

section Write

omit [DecidableEq ι] in
@[simp] theorem next_apply (link : ι → HashLink ι) (p : ι) : next link p = (link p).next := rfl

omit [DecidableEq ι] in
@[simp] theorem hashval_apply (link : ι → HashLink ι) (p : ι) :
    hashval link p = (link p).hashval := rfl

theorem next_update (link : ι → HashLink ι) (p : ι) (l : HashLink ι) :
    next (Function.update link p l) = Function.update (next link) p l.next := by
  funext q
  by_cases hq : q = p
  · subst hq
    simp
  · simp [Function.update_of_ne hq]

theorem hashval_update (link : ι → HashLink ι) (p : ι) (l : HashLink ι) :
    hashval (Function.update link p l) = Function.update (hashval link) p l.hashval := by
  funext q
  by_cases hq : q = p
  · subst hq
    simp
  · simp [Function.update_of_ne hq]

theorem hashval_update_next (link : ι → HashLink ι) (p : ι) (q : Option ι) :
    hashval (Function.update link p { link p with next := q }) = hashval link := by
  rw [hashval_update]
  exact Function.update_eq_self ..

end Write

section Resize

variable {n : ℕ} {m : Moving ι} {bs : List (List ι)}

/-- One item moved: it is at the head of its new chain. -/
theorem relink_spec (hheads : Heads (next m.link) m.newBuckets bs) {p : ι} (hp : p ∉ bs.flatten) :
    Heads (next (relink n m p).link) (relink n m p).newBuckets
        (place (hashval m.link) n bs p) ∧
      hashval (relink n m p).link = hashval m.link := by
  refine ⟨?_, hashval_update_next ..⟩
  unfold relink place
  simp only [next_update, hashval_apply]
  exact hheads.push hp _

/-- A chain moved, item by item; the links outside the chain are as they were. -/
theorem moveChain_spec (hn : 0 < n) {c : List ι} {p : Option ι} {fuel : ℕ}
    (hc : Chained (next m.link) p c) (hheads : Heads (next m.link) m.newBuckets bs)
    (hlen : bs.length = n) (hnodup : (c ++ bs.flatten).Nodup) (hfuel : c.length < fuel) :
    ∃ m', moveChain n fuel m p = some m' ∧
      Heads (next m'.link) m'.newBuckets (c.foldl (place (hashval m.link) n) bs) ∧
      hashval m'.link = hashval m.link ∧ ∀ z ∉ c, m'.link z = m.link z := by
  induction c generalizing m bs p fuel with
  | nil =>
    obtain ⟨fuel, rfl⟩ : ∃ k, fuel = k + 1 := ⟨fuel - 1, by omega⟩
    subst hc
    exact ⟨m, rfl, hheads, rfl, fun _ _ => rfl⟩
  | cons x c ih =>
    obtain ⟨fuel, rfl⟩ : ∃ k, fuel = k + 1 := ⟨fuel - 1, by omega⟩
    obtain ⟨rfl, hrest⟩ := hc
    rw [List.cons_append] at hnodup
    obtain ⟨hx, hnodup'⟩ := List.nodup_cons.mp hnodup
    rw [List.mem_append, not_or] at hx
    obtain ⟨hheads', hval⟩ := relink_spec (n := n) hheads hx.2
    have hrest' : Chained (next (relink n m x).link) (m.link x).next c := by
      rw [relink, next_update]
      exact hrest.update hx.1 _
    have hperm : (c ++ (place (hashval m.link) n bs x).flatten).Perm (x :: (c ++ bs.flatten)) :=
      ((place_perm hn hlen x).append_left c).trans List.perm_middle
    obtain ⟨m', hm', hheads'', hval', hframe⟩ := ih hrest' hheads' (by rw [length_place, hlen])
      (hperm.nodup_iff.mpr hnodup) (by simpa using hfuel)
    refine ⟨m', hm', ?_, hval'.trans hval, fun z hz => ?_⟩
    · rw [hval] at hheads''
      exact hheads''
    · rw [List.mem_cons, not_or] at hz
      rw [hframe z hz.2]
      exact Function.update_of_ne hz.1 _ _

/-- All the chains moved. -/
theorem moveChains_spec (hn : 0 < n) {old : List (List ι)} {ps : List (Option ι)} {fuel : ℕ}
    (hold : Heads (next m.link) ps old) (hheads : Heads (next m.link) m.newBuckets bs)
    (hlen : bs.length = n) (hplaced : Placed (hashval m.link) n bs)
    (hnodup : (old.flatten ++ bs.flatten).Nodup) (hfuel : old.flatten.length < fuel) :
    ∃ m', ps.foldlM (moveChain n fuel) m = some m' ∧
      Heads (next m'.link) m'.newBuckets (rehash (hashval m.link) n old bs) ∧
      hashval m'.link = hashval m.link := by
  induction old generalizing m bs ps with
  | nil =>
    cases hold
    exact ⟨m, rfl, hheads, rfl⟩
  | cons c old ih =>
    cases hold with
    | @cons p _ ps _ hc hrest =>
    rw [List.flatten_cons] at hnodup hfuel
    rw [List.length_append] at hfuel
    have hperm : (old.flatten ++ (c ++ bs.flatten)).Perm (c ++ old.flatten ++ bs.flatten) := by
      rw [← List.append_assoc]
      exact List.perm_append_comm.append_right _
    have hnodup' := hperm.nodup_iff.mpr hnodup
    obtain ⟨m1, hm1, hheads1, hval1, hframe⟩ := moveChain_spec hn hc hheads hlen
      (List.nodup_append.mp hnodup').2.1 (by omega : c.length < fuel)
    obtain ⟨hmoved, hplaced1⟩ := foldl_place_spec hn hlen hplaced c
    have hdisj := List.disjoint_of_nodup_append hnodup'
    have hrest1 : Heads (next m1.link) ps old := by
      refine Heads.congr hrest fun z hz => ?_
      rw [next_apply, hframe z fun hzc => hdisj hz (List.mem_append_left _ hzc), next_apply]
    obtain ⟨m2, hm2, hheads2, hval2⟩ := ih hrest1 hheads1 (by rw [length_foldl_place, hlen])
      (by rw [hval1]; exact hplaced1) ((hmoved.append_left _).nodup_iff.mpr hnodup') (by omega)
    refine ⟨m2, ?_, ?_, hval2.trans hval1⟩
    · rw [List.foldlM_cons, hm1]
      exact hm2
    · rw [hval1] at hheads2
      exact hheads2

/-- `hash_table_resize` keeps the items, wherever it puts them. -/
theorem Holds.resize {t : LinkedTable ι} {cs : List (List ι)} (h : t.Holds cs) (memory : Bool)
    {fuel : ℕ} (hfuel : cs.flatten.length < fuel) (dir : ℤ) :
    ∃ t' cs', t.resize memory fuel dir = some t' ∧ t'.Holds cs' ∧ cs'.flatten ~ cs.flatten ∧
      hashval t'.link = hashval t.link := by
  unfold LinkedTable.resize
  split_ifs with hdir hend hmem
  · exact ⟨t, cs, rfl, h, .refl _, rfl⟩
  · exact ⟨t, cs, rfl, h, .refl _, rfl⟩
  · exact ⟨t, cs, rfl, h, .refl _, rfl⟩
  all_goals
    have hidx := h.index
    have hin : (t.bucketChoiceIndex + dir).toNat < numBucketChoices := by omega
    have hpos := HashTable.bucketChoices_pos hin
    generalize hn : bucketChoices.getD (t.bucketChoiceIndex + dir).toNat 0 = n at hpos
    have hlen := List.length_replicate (n := n) (a := ([] : List ι))
    obtain ⟨m, hm, hheads, hval⟩ := moveChains_spec (m := ⟨List.replicate n none, t.link⟩) hpos
      h.heads (heads_replicate n) hlen (placed_replicate n) (by simpa using h.nodup) hfuel
    obtain ⟨hlen', hperm, hplaced⟩ := rehash_spec hpos hlen
      (show Placed (hashval t.link) n _ from placed_replicate n) cs
    have hperm' : (rehash (hashval t.link) n cs (List.replicate n [])).flatten ~ cs.flatten := by
      simpa using hperm
    refine ⟨_, _, by simp only [hn, hm]; rfl, ⟨hin, ?_, hheads, ?_, hperm'.nodup_iff.mpr h.nodup,
      ?_⟩, hperm', hval⟩
    · exact hlen'.trans hn.symm
    · rw [hval]
      show Placed _ (bucketChoices.getD (t.bucketChoiceIndex + dir).toNat 0) _
      rw [hn]
      exact hplaced
    · simpa [hperm'.length_eq] using h.count

end Resize

section Operations

variable {t : LinkedTable ι} {cs : List (List ι)} {fuel : ℕ}

omit [DecidableEq ι] in
theorem Holds.numBuckets_pos (h : t.Holds cs) : 0 < t.numBuckets :=
  HashTable.bucketChoices_pos h.index

omit [DecidableEq ι] in
theorem Holds.mem_chain_iff (h : t.Holds cs) {x : ι} :
    x ∈ chain cs (hashval t.link x % t.numBuckets) ↔ x ∈ cs.flatten := by
  rw [mem_flatten_iff_chain]
  constructor
  · exact fun hx => ⟨_, hx⟩
  · rintro ⟨i, hx⟩
    rwa [h.placed i x hx]

omit [DecidableEq ι] in
/-- The items in one chain are items of the table. -/
theorem Holds.chain_lt (h : t.Holds cs) (i : ℕ) (hfuel : cs.flatten.length < fuel) :
    (chain cs i).length < fuel := by
  by_cases hi : i < cs.length
  · have hlen := (flatten_perm_chain hi).length_eq
    rw [List.length_append] at hlen
    omega
  · rw [chain, List.getD_eq_default _ _ (by omega)]
    exact Nat.zero_lt_of_lt hfuel

/-- Inserting an item that is not in the table. -/
theorem Holds.insert (h : t.Holds cs) (hashfunc : ι → ℕ) (memory : Bool) {x : ι}
    (hx : x ∉ cs.flatten) (hfuel : cs.flatten.length + 1 < fuel) :
    ∃ t' cs', t.insert hashfunc memory fuel (some x) = some (0, t') ∧ t'.Holds cs' ∧
      cs'.flatten ~ x :: cs.flatten ∧
      hashval t'.link = Function.update (hashval t.link) x (hashfunc x) := by
  have hpos := h.numBuckets_pos
  have hplace : ∀ v, cs.modify (v % t.numBuckets) (x :: ·) =
      place (Function.update (hashval t.link) x v) t.numBuckets cs x := by
    intro v
    rw [place, Function.update_self]
  have hval := hashval_update t.link x
    ⟨t.buckets.getD (hashfunc x % t.numBuckets) none, hashfunc x⟩
  have hperm : (place (Function.update (hashval t.link) x (hashfunc x)) t.numBuckets cs x).flatten ~
      x :: cs.flatten := place_perm hpos h.length x
  have hplaced : Placed (Function.update (hashval t.link) x (hashfunc x)) t.numBuckets cs := by
    intro i y hy
    have hyx : y ≠ x := ne_of_mem_of_not_mem (mem_flatten_iff_chain.mpr ⟨i, hy⟩) hx
    rw [Function.update_of_ne hyx]
    exact h.placed i y hy
  have h1 : Holds { t with
      link := Function.update t.link x
        ⟨t.buckets.getD (hashfunc x % t.numBuckets) none, hashfunc x⟩
      buckets := t.buckets.set (hashfunc x % t.numBuckets) (some x)
      numEntries := t.numEntries + 1 }
      (place (Function.update (hashval t.link) x (hashfunc x)) t.numBuckets cs x) := by
    refine ⟨h.index, (length_place x).trans h.length, ?_, ?_, ?_, ?_⟩
    · rw [next_update, ← hplace]
      exact h.heads.push hx _
    · rw [hval]
      exact placed_place hpos h.length hplaced x
    · exact hperm.nodup_iff.mpr (List.nodup_cons.mpr ⟨hx, h.nodup⟩)
    · rw [hperm.length_eq, List.length_cons]
      exact congrArg (· + 1) h.count
  unfold LinkedTable.insert
  simp only
  split_ifs with hgrow
  · obtain ⟨t', cs', ht', h', hperm', hval'⟩ := h1.resize memory
      (show _ < fuel by rw [hperm.length_eq, List.length_cons]; exact hfuel) 1
    exact ⟨t', cs', by rw [ht']; rfl, h', hperm'.trans hperm, hval'.trans hval⟩
  · exact ⟨_, _, rfl, h1, hperm, hval⟩

omit [DecidableEq ι] in
theorem findFrom_spec (compare : ι → ι → Bool) {link : ι → HashLink ι} {p : Option ι} {c : List ι}
    (hc : Chained (next link) p c) (candidate : ι) (hfuel : c.length < fuel) :
    findFrom compare link candidate fuel p = some (c.find? (compare candidate)) := by
  induction c generalizing p fuel with
  | nil =>
    obtain ⟨fuel, rfl⟩ : ∃ k, fuel = k + 1 := ⟨fuel - 1, by omega⟩
    subst hc
    rfl
  | cons x c ih =>
    obtain ⟨fuel, rfl⟩ : ∃ k, fuel = k + 1 := ⟨fuel - 1, by omega⟩
    obtain ⟨rfl, hrest⟩ := hc
    rw [findFrom, List.find?_cons]
    cases compare candidate x with
    | true => rfl
    | false => exact ih hrest (by simpa using hfuel)

omit [DecidableEq ι] in
/-- `hash_table_find` gives the first item of the bucket that compares equal. -/
theorem Holds.find (h : t.Holds cs) (hashfunc : ι → ℕ) (compare : ι → ι → Bool) (candidate : ι)
    (hfuel : cs.flatten.length < fuel) :
    t.find hashfunc compare fuel (some candidate) =
      some ((chain cs (hashfunc candidate % t.numBuckets)).find? (compare candidate)) :=
  findFrom_spec compare (h.heads.chain _) candidate (h.chain_lt _ hfuel)

theorem findBefore_spec {link : ι → HashLink ι} {p : Option ι} {c : List ι} {item : ι}
    (hc : Chained (next link) p c) (hhead : p ≠ some item) (hfuel : c.length < fuel) :
    (item ∉ c ∧ findBefore link item fuel p = some none) ∨
      ∃ a ptr b, c = a ++ ptr :: item :: b ∧ findBefore link item fuel p = some (some ptr) := by
  induction c generalizing p fuel with
  | nil =>
    obtain ⟨fuel, rfl⟩ : ∃ k, fuel = k + 1 := ⟨fuel - 1, by omega⟩
    subst hc
    exact .inl ⟨List.not_mem_nil, rfl⟩
  | cons x c ih =>
    obtain ⟨fuel, rfl⟩ : ∃ k, fuel = k + 1 := ⟨fuel - 1, by omega⟩
    obtain ⟨rfl, hrest⟩ := hc
    rw [findBefore]
    by_cases hnext : (link x).next = some item
    · right
      cases c with
      | nil => simp [hnext] at hrest
      | cons y c =>
        have hy : y = item := by simpa [hnext] using hrest.1.symm
        subst hy
        exact ⟨[], x, c, rfl, by rw [if_pos hnext]⟩
    · rw [if_neg hnext]
      rcases ih hrest hnext (by simpa using hfuel) with ⟨hno, hf⟩ | ⟨a, ptr, b, rfl, hf⟩
      · refine .inl ⟨fun hmem => ?_, hf⟩
        rcases List.mem_cons.mp hmem with rfl | hmem
        · exact hhead rfl
        · exact hno hmem
      · exact .inr ⟨x :: a, ptr, b, rfl, hf⟩

/-- A table from whose chains an item has been taken out. -/
theorem Holds.erase (h : t.Holds cs) (t1 : LinkedTable ι) {x : ι} (hx : x ∈ cs.flatten)
    (hindex : t1.bucketChoiceIndex = t.bucketChoiceIndex)
    (hval : hashval t1.link = hashval t.link) (hcount : t1.numEntries = t.numEntries - 1)
    (hheads : Heads (next t1.link) t1.buckets
      (cs.modify (hashval t.link x % t.numBuckets) (·.erase x))) :
    t1.Holds (cs.modify (hashval t.link x % t.numBuckets) (·.erase x)) := by
  have hnum : t1.numBuckets = t.numBuckets := by rw [numBuckets, hindex, numBuckets]
  have hflat := flatten_modify_erase h.nodup (h.mem_chain_iff.mpr hx)
  refine ⟨hindex ▸ h.index, ?_, hheads, ?_, ?_, ?_⟩
  · rw [List.length_modify, hnum, h.length]
  · rw [hval, hnum]
    intro i y hy
    rw [chain_modify _ _ (by rw [h.length]; exact Nat.mod_lt _ h.numBuckets_pos)] at hy
    split_ifs at hy with hi
    · exact h.placed i y (List.mem_of_mem_erase hy)
    · exact h.placed i y hy
  · rw [hflat]
    exact h.nodup.erase x
  · rw [hflat, List.length_erase_of_mem hx, hcount, h.count]

theorem Holds.shrink (h : t.Holds cs) (memory resizeOk : Bool)
    (hfuel : cs.flatten.length < fuel) :
    ∃ t' cs', t.shrink memory fuel resizeOk = some (0, t') ∧ t'.Holds cs' ∧
      cs'.flatten ~ cs.flatten ∧ hashval t'.link = hashval t.link ∧
      (resizeOk = false → cs'.flatten = cs.flatten) := by
  unfold LinkedTable.shrink
  split_ifs with hshrink
  · obtain ⟨t', cs', ht', h', hperm, hval⟩ := h.resize memory hfuel (-1)
    exact ⟨t', cs', by rw [ht']; rfl, h', hperm, hval, fun hno => by simp [hno] at hshrink⟩
  · exact ⟨t, cs, rfl, h, .refl _, rfl, fun _ => rfl⟩

/-- Deleting an item of the table.  Without resizing the other items keep their order. -/
theorem Holds.deleteHelper (h : t.Holds cs) (memory resizeOk : Bool) {x : ι}
    (hx : x ∈ cs.flatten) (hfuel : cs.flatten.length < fuel) :
    ∃ t' cs', t.deleteHelper memory fuel resizeOk (some x) = some (0, t') ∧ t'.Holds cs' ∧
      cs'.flatten ~ cs.flatten.erase x ∧ hashval t'.link = hashval t.link ∧
      (resizeOk = false → cs'.flatten = cs.flatten.erase x) := by
  have hchain : x ∈ chain cs ((t.link x).hashval % t.numBuckets) := h.mem_chain_iff.mpr hx
  have hlinked := h.heads.chain ((t.link x).hashval % t.numBuckets)
  have hflat := flatten_modify_erase h.nodup hchain
  have hlen : (cs.modify ((t.link x).hashval % t.numBuckets) (·.erase x)).flatten.length <
      fuel := by
    rw [hflat, List.length_erase_of_mem hx]
    omega
  unfold LinkedTable.deleteHelper
  simp only
  split_ifs with hhead
  · -- the item is the first of its chain
    cases hc : chain cs ((t.link x).hashval % t.numBuckets) with
    | nil => rw [hc] at hchain; simp at hchain
    | cons y c =>
      rw [hc, hhead] at hlinked
      obtain rfl : x = y := by simpa using hlinked.1
      have h1 := h.erase { t with
          buckets := t.buckets.set ((t.link x).hashval % t.numBuckets) (t.link x).next
          numEntries := t.numEntries - 1 } hx rfl rfl rfl (h.heads.set (by
            rw [hc, List.erase_cons_head]; exact hlinked.2))
      obtain ⟨t', cs', ht', h', hperm, hval, heq⟩ := h1.shrink memory resizeOk hlen
      rw [hashval_apply, hflat] at hperm heq
      exact ⟨t', cs', ht', h', hperm, hval, heq⟩
  · -- it is behind another one
    rcases findBefore_spec hlinked hhead (h.chain_lt _ hfuel) with ⟨hno, -⟩ | ⟨a, ptr, b, hc, hf⟩
    · exact (hno hchain).elim
    · have hnodup : (a ++ ptr :: x :: b).Nodup := by
        rw [← hc]
        exact (flatten_perm_chain (by rw [h.length]; exact Nat.mod_lt _ h.numBuckets_pos)
          |>.nodup_iff.mp h.nodup).of_append_left
      have hunlink := (hc ▸ hlinked).unlink hnodup
      have hxa : x ∉ a := fun hxa =>
        List.disjoint_of_nodup_append hnodup hxa (List.mem_cons_of_mem _ List.mem_cons_self)
      have hptr : ptr ≠ x := fun hptr =>
        (List.nodup_cons.mp (List.nodup_append.mp hnodup).2.1).1 (hptr ▸ List.mem_cons_self)
      have hheads : Heads (Function.update (next t.link) ptr (next t.link x)) t.buckets
          (cs.modify ((t.link x).hashval % t.numBuckets) (·.erase x)) := by
        refine h.heads.write h.nodup (x := ptr) (by rw [hc]; simp)
          (fun z hz => Function.update_of_ne hz _ _) ?_
        rwa [hc, List.erase_append_right _ hxa, List.erase_cons_tail (by simpa using hptr),
          List.erase_cons_head]
      rw [hf]
      have h1 := h.erase { t with
          link := Function.update t.link ptr ⟨(t.link x).next, (t.link ptr).hashval⟩
          numEntries := t.numEntries - 1 } hx rfl (hashval_update_next ..) rfl
          (by rw [next_update]; exact hheads)
      obtain ⟨t', cs', ht', h', hperm, hval, heq⟩ := h1.shrink memory resizeOk hlen
      rw [hashval_apply, hflat] at hperm heq
      exact ⟨t', cs', ht', h', hperm, hval.trans (hashval_update_next ..), heq⟩

/-- Deleting an item that is not in the table does nothing. -/
theorem Holds.deleteHelper_absent (h : t.Holds cs) (memory resizeOk : Bool) {x : ι}
    (hx : x ∉ cs.flatten) (hfuel : cs.flatten.length < fuel) :
    t.deleteHelper memory fuel resizeOk (some x) = some (-1, t) := by
  have hchain : ∀ i, x ∉ chain cs i := fun i hi => hx (mem_flatten_iff_chain.mpr ⟨i, hi⟩)
  have hlinked := h.heads.chain ((t.link x).hashval % t.numBuckets)
  have hhead : t.buckets.getD ((t.link x).hashval % t.numBuckets) none ≠ some x := by
    intro hhead
    rw [hlinked.head_eq] at hhead
    exact hchain _ (List.mem_of_head? hhead)
  unfold LinkedTable.deleteHelper
  simp only [if_neg hhead]
  rcases findBefore_spec hlinked hhead (h.chain_lt _ hfuel) with ⟨-, hf⟩ | ⟨a, ptr, b, hc, -⟩
  · rw [hf]
  · exact (hchain _ (by rw [hc]; simp)).elim

omit [DecidableEq ι] in
theorem Holds.firstFrom (h : t.Holds cs) (i : ℕ) :
    t.firstFrom i = (cs.drop i).flatten.head? := by
  have htake : t.buckets.take t.numBuckets = t.buckets :=
    List.take_of_length_le (by rw [List.Forall₂.length_eq h.heads, h.length])
  rw [LinkedTable.firstFrom, htake]
  exact Heads.findSome?_eq (List.forall₂_drop i h.heads)

/-- `hash_table_next` goes through the items chain by chain. -/
theorem Holds.hashTableNext (h : t.Holds cs) {x : ι} {pre post : List ι}
    (hflat : cs.flatten = pre ++ x :: post) : t.hashTableNext (some x) = post.head? := by
  have hchain : x ∈ chain cs ((t.link x).hashval % t.numBuckets) :=
    h.mem_chain_iff.mpr (by rw [hflat]; simp)
  have hlinked := h.heads.chain ((t.link x).hashval % t.numBuckets)
  have hi : (t.link x).hashval % t.numBuckets < cs.length := by
    rw [h.length]
    exact Nat.mod_lt _ h.numBuckets_pos
  obtain ⟨a, b, hab⟩ := List.append_of_mem hchain
  rw [hab] at hlinked
  have hnext : (t.link x).next = b.head? := hlinked.next_eq.head_eq
  have hcs : cs.flatten = ((cs.take ((t.link x).hashval % t.numBuckets)).flatten ++ a) ++
      x :: (b ++ (cs.drop ((t.link x).hashval % t.numBuckets + 1)).flatten) := by
    conv_lhs => rw [← List.take_append_drop ((t.link x).hashval % t.numBuckets) cs]
    rw [List.drop_eq_getElem_cons hi]
    rw [chain, List.getD_eq_getElem _ _ hi] at hab
    simp [hab]
  have hnodup := h.nodup
  rw [hcs] at hnodup
  have hx := (List.nodup_cons.mp (List.nodup_middle.mp hnodup)).1
  rw [List.mem_append, not_or] at hx
  rw [hflat] at hcs
  obtain ⟨-, -, rfl⟩ := (List.append_cons_inj_of_notMem hx.1 hx.2).mp hcs.symm
  unfold LinkedTable.hashTableNext
  cases b with
  | nil => simp only [hnext, List.head?_nil, h.firstFrom, List.nil_append]
  | cons y b => simp only [hnext, List.head?_cons, List.cons_append]

/-- An iteration visits what is there from `cur` on, whatever it removes. -/
theorem Holds.visit (h : t.Holds cs) (drop : ι → Bool) {n : ℕ} {kept todo : List ι}
    (hflat : cs.flatten = kept ++ todo) (hfuel : cs.flatten.length < fuel) (hn : todo.length < n) :
    ∃ t' cs', t.visit drop fuel n todo.head? = some (todo, t') ∧ t'.Holds cs' ∧
      cs'.flatten = kept ++ todo.filter (!drop ·) := by
  induction todo generalizing t cs kept n with
  | nil =>
    obtain ⟨n, rfl⟩ : ∃ k, n = k + 1 := ⟨n - 1, by omega⟩
    exact ⟨t, cs, rfl, h, by simpa using hflat⟩
  | cons x todo ih =>
    obtain ⟨n, rfl⟩ : ∃ k, n = k + 1 := ⟨n - 1, by omega⟩
    have hnext := h.hashTableNext hflat
    rw [List.head?_cons, LinkedTable.visit]
    simp only [hnext]
    by_cases hdrop : drop x = true
    · have hx : x ∉ kept := fun hx =>
        List.disjoint_of_nodup_append (hflat ▸ h.nodup) hx List.mem_cons_self
      obtain ⟨t1, cs1, ht1, h1, -, -, heq⟩ := h.deleteHelper true false (x := x)
        (by rw [hflat]; simp) hfuel
      have hflat1 : cs1.flatten = kept ++ todo := by
        rw [heq rfl, hflat, List.erase_append_right _ hx, List.erase_cons_head]
      obtain ⟨t', cs', ht', h', hflat'⟩ := ih h1 hflat1
        (by rw [hflat] at hfuel; rw [hflat1]; simp at hfuel ⊢; omega) (by simpa using hn)
      refine ⟨t', cs', ?_, h', ?_⟩
      · simp only [hdrop, if_true, deleteNoResize, ht1, Option.map_some, Option.bind_some, ht']
      · simpa [hdrop] using hflat'
    · have hkept : cs.flatten = (kept ++ [x]) ++ todo := by simpa using hflat
      obtain ⟨t', cs', ht', h', hflat'⟩ := ih h hkept hfuel (by simpa using hn)
      refine ⟨t', cs', ?_, h', ?_⟩
      · simp only [if_neg hdrop, Option.bind_some, ht', Option.map_some]
      · simpa [hdrop] using hflat'

end Operations

end LinkedTable

/-- A call of one of the operations. -/
inductive TableOp (ι : Type) where
  | insert (item : Option ι) (memory : Bool)
  | find (candidate : Option ι)
  | delete (item : Option ι) (memory : Bool)
  | deleteNoResize (item : Option ι)

namespace TableOp

variable {ι : Type} [DecidableEq ι]

/-- The table after a call. -/
def apply (hashfunc : ι → ℕ) (compare : ι → ι → Bool) (fuel : ℕ) (t : LinkedTable ι) :
    TableOp ι → Option (LinkedTable ι)
  | insert item memory => (t.insert hashfunc memory fuel item).map Prod.snd
  | find candidate => (t.find hashfunc compare fuel candidate).map fun _ => t
  | delete item memory => (t.delete memory fuel item).map Prod.snd
  | deleteNoResize item => (t.deleteNoResize fuel item).map Prod.snd

/-- What a call makes of the items inserted and not yet deleted. -/
def held (items : Multiset ι) : TableOp ι → Multiset ι
  | insert (some item) _ => item ::ₘ items
  | delete (some item) _ | deleteNoResize (some item) => items.erase item
  | _ => items

/-- An item has one link: it is inserted only while it is not in the table. -/
def Fresh (items : Multiset ι) : TableOp ι → Prop
  | insert (some item) _ => item ∉ items
  | _ => True

/-- Every call of a run inserts a fresh item. -/
def AllFresh (items : Multiset ι) : List (TableOp ι) → Prop
  | [] => True
  | op :: ops => op.Fresh items ∧ AllFresh (op.held items) ops

end TableOp

namespace LinkedTable

variable {ι : Type} [DecidableEq ι] {hashfunc : ι → ℕ} {compare : ι → ι → Bool} {fuel : ℕ}
  {t : LinkedTable ι} {items : Multiset ι}

/-- The table holds the items, each under its hash. -/
def HoldsItems (hashfunc : ι → ℕ) (t : LinkedTable ι) (items : Multiset ι) : Prop :=
  ∃ cs, t.Holds cs ∧ (cs.flatten : Multiset ι) = items ∧
    ∀ x ∈ cs.flatten, hashval t.link x = hashfunc x

omit [DecidableEq ι] in
theorem holds_init (link : ι → HashLink ι) :
    (init link).Holds (List.replicate (bucketChoices.getD 0 0) []) where
  index := Nat.zero_lt_succ _
  length := List.length_replicate
  heads := heads_replicate _
  placed := placed_replicate _
  nodup := by simp
  count := by simp [init]

omit [DecidableEq ι] in
/-- Of the hash function only the values on the items matter. -/
theorem HoldsItems.congr {hashfunc' : ι → ℕ} (h : HoldsItems hashfunc t items)
    (heq : ∀ x ∈ items, hashfunc x = hashfunc' x) : HoldsItems hashfunc' t items := by
  obtain ⟨cs, hcs, rfl, hval⟩ := h
  exact ⟨cs, hcs, rfl, fun x hx => (hval x hx).trans (heq x hx)⟩

theorem HoldsItems.insert (h : HoldsItems hashfunc t items) (memory : Bool) {x : ι}
    (hx : x ∉ items) (hfuel : items.card + 1 < fuel) :
    ∃ t', t.insert hashfunc memory fuel (some x) = some (0, t') ∧
      HoldsItems hashfunc t' (x ::ₘ items) := by
  obtain ⟨cs, hcs, rfl, hval⟩ := h
  obtain ⟨t', cs', ht', h', hperm, hval'⟩ := hcs.insert hashfunc memory hx hfuel
  refine ⟨t', ht', cs', h', Multiset.coe_eq_coe.mpr hperm, fun y hy => ?_⟩
  rw [hval']
  rcases List.mem_cons.mp (hperm.mem_iff.mp hy) with rfl | hy
  · exact Function.update_self ..
  · rw [Function.update_of_ne (ne_of_mem_of_not_mem hy hx)]
    exact hval y hy

theorem HoldsItems.deleteHelper (h : HoldsItems hashfunc t items) (memory resizeOk : Bool) (x : ι)
    (hfuel : items.card < fuel) :
    ∃ r t', t.deleteHelper memory fuel resizeOk (some x) = some (r, t') ∧
      HoldsItems hashfunc t' (items.erase x) := by
  obtain ⟨cs, hcs, rfl, hval⟩ := h
  by_cases hx : x ∈ cs.flatten
  · obtain ⟨t', cs', ht', h', hperm, hval', -⟩ := hcs.deleteHelper memory resizeOk hx hfuel
    refine ⟨0, t', ht', cs', h', Multiset.coe_eq_coe.mpr hperm, fun y hy => ?_⟩
    rw [hval']
    exact hval y (List.mem_of_mem_erase (hperm.mem_iff.mp hy))
  · refine ⟨-1, t, hcs.deleteHelper_absent memory resizeOk hx hfuel, cs, hcs, ?_, hval⟩
    rw [Multiset.erase_of_notMem (by simpa using hx)]

theorem HoldsItems.find (h : HoldsItems hashfunc t items) (compare : ι → ι → Bool) (key : ι)
    (hfuel : items.card < fuel) :
    ∃ r, t.find hashfunc compare fuel (some key) = some r ∧
      (∀ x, r = some x → x ∈ items ∧ compare key x = true) ∧
      ((∀ x, compare key x = true → hashfunc x = hashfunc key) →
        (∃ x ∈ items, compare key x = true) → r.isSome = true) := by
  obtain ⟨cs, hcs, rfl, hval⟩ := h
  refine ⟨_, hcs.find hashfunc compare key hfuel, fun x hx => ⟨?_, List.find?_some hx⟩, ?_⟩
  · exact mem_flatten_iff_chain.mpr ⟨_, List.mem_of_find?_eq_some hx⟩
  · rintro hhash ⟨x, hx, hcmp⟩
    have hchain := hcs.mem_chain_iff.mpr hx
    rw [hval x hx, hhash x hcmp] at hchain
    exact List.find?_isSome.mpr ⟨x, hchain, hcmp⟩

theorem HoldsItems.visit (h : HoldsItems hashfunc t items) (drop : ι → Bool)
    (hfuel : items.card < fuel) :
    ∃ visited t', t.visit drop fuel fuel (t.hashTableNext none) = some (visited, t') ∧
      (visited : Multiset ι) = items ∧
      ∃ cs, t'.Holds cs ∧ (cs.flatten : Multiset ι) = items.filter (fun x => drop x = false) := by
  obtain ⟨cs, hcs, rfl, hval⟩ := h
  have hfirst : t.hashTableNext none = cs.flatten.head? := hcs.firstFrom 0
  obtain ⟨t', cs', hvisit, h', hflat⟩ := hcs.visit drop (List.nil_append _).symm hfuel hfuel
  refine ⟨cs.flatten, t', by rw [hfirst]; exact hvisit, rfl, cs', h', ?_⟩
  rw [hflat, List.nil_append, Multiset.filter_coe]
  simp

end LinkedTable

namespace TableOp

open LinkedTable

variable {ι : Type} [DecidableEq ι]

/-- One call. -/
theorem apply_holds (hashfunc : ι → ℕ) (compare : ι → ι → Bool) {fuel : ℕ} {t : LinkedTable ι}
    {items : Multiset ι} (h : HoldsItems hashfunc t items) (op : TableOp ι)
    (hfresh : op.Fresh items) (hfuel : items.card + 1 < fuel) :
    ∃ t', op.apply hashfunc compare fuel t = some t' ∧ HoldsItems hashfunc t' (op.held items) ∧
      (op.held items).card ≤ items.card + 1 := by
  have hdelete : ∀ memory resizeOk x, ∃ t', (t.deleteHelper memory fuel resizeOk (some x)).map
      Prod.snd = some t' ∧ HoldsItems hashfunc t' (items.erase x) := by
    intro memory resizeOk x
    obtain ⟨r, t', ht', h'⟩ := h.deleteHelper memory resizeOk x (by omega : items.card < fuel)
    exact ⟨t', by rw [ht']; rfl, h'⟩
  have herase : ∀ x, (items.erase x).card ≤ items.card + 1 := fun x =>
    (Multiset.card_le_card (Multiset.erase_le x items)).trans (Nat.le_succ _)
  cases op with
  | insert item memory =>
    cases item with
    | none => exact ⟨t, rfl, h, Nat.le_succ _⟩
    | some x =>
      obtain ⟨t', ht', h'⟩ := h.insert memory hfresh hfuel
      exact ⟨t', by rw [apply, ht']; rfl, h', by rw [held, Multiset.card_cons]⟩
  | find candidate =>
    cases candidate with
    | none => exact ⟨t, rfl, h, Nat.le_succ _⟩
    | some key =>
      obtain ⟨r, hr, -⟩ := h.find compare key (by omega : items.card < fuel)
      exact ⟨t, by rw [apply, hr]; rfl, h, Nat.le_succ _⟩
  | delete item memory =>
    cases item with
    | none => exact ⟨t, rfl, h, Nat.le_succ _⟩
    | some x =>
      obtain ⟨t', ht', h'⟩ := hdelete memory true x
      exact ⟨t', ht', h', herase x⟩
  | deleteNoResize item =>
    cases item with
    | none => exact ⟨t, rfl, h, Nat.le_succ _⟩
    | some x =>
      obtain ⟨t', ht', h'⟩ := hdelete true false x
      exact ⟨t', ht', h', herase x⟩

/-- A run of calls. -/
theorem run_holds (hashfunc : ι → ℕ) (compare : ι → ι → Bool) {fuel : ℕ} {t : LinkedTable ι}
    {items : Multiset ι} (h : HoldsItems hashfunc t items) (ops : List (TableOp ι))
    (hfresh : AllFresh items ops) (hfuel : items.card + ops.length < fuel) :
    ∃ t', ops.foldlM (TableOp.apply hashfunc compare fuel) t = some t' ∧
      HoldsItems hashfunc t' (ops.foldl TableOp.held items) ∧
      (ops.foldl TableOp.held items).card < fuel := by
  induction ops generalizing t items with
  | nil => exact ⟨t, rfl, h, hfuel⟩
  | cons op ops ih =>
    rw [List.length_cons] at hfuel
    obtain ⟨hop, hrest⟩ := hfresh
    obtain ⟨t1, ht1, h1, hcard⟩ := apply_holds hashfunc compare h op hop
      (by omega : items.card + 1 < fuel)
    obtain ⟨t', ht', h'⟩ := ih h1 hrest (by omega)
    exact ⟨t', by rw [List.foldlM_cons, ht1]; exact ht', h'⟩

end TableOp

open LinkedTable in
/-- **The hash table.**  After every run of calls that inserts an item only while it is not in the
table, the items inserted and not yet deleted are in the table, each once and in the bucket of its
hash value, and are counted; `hash_table_find` finds an item that compares equal when there is one
and only then; an iteration visits every item once, whichever it removes on the way.  `find` wants
of the hash function that items which compare equal to the key have its hash. -/
theorem hashTable_exact {ι : Type} [DecidableEq ι] (hashfunc : ι → ℕ) (compare : ι → ι → Bool)
    (link : ι → HashLink ι) (ops : List (TableOp ι)) (hfresh : TableOp.AllFresh 0 ops)
    {fuel : ℕ} (hfuel : ops.length < fuel) :
    ∃ t, ops.foldlM (TableOp.apply hashfunc compare fuel) (LinkedTable.init link) = some t ∧
      (∃ cs : List (List ι), (cs.flatten : Multiset ι) = ops.foldl TableOp.held 0 ∧
        cs.length = t.numBuckets ∧ Heads (next t.link) t.buckets cs ∧ cs.flatten.Nodup ∧
        ∀ i, ∀ x ∈ chain cs i, (t.link x).hashval % t.numBuckets = i ∧
          (t.link x).hashval = hashfunc x) ∧
      t.numEntries = (ops.foldl TableOp.held 0).card ∧
      (∀ key, ∃ r, t.find hashfunc compare fuel (some key) = some r ∧
        (∀ x, r = some x → x ∈ ops.foldl TableOp.held 0 ∧ compare key x = true) ∧
        ((∀ x, compare key x = true → hashfunc x = hashfunc key) →
          (∃ x ∈ ops.foldl TableOp.held 0, compare key x = true) → r.isSome = true)) ∧
      ∀ drop : ι → Bool, ∃ visited t',
        t.visit drop fuel fuel (t.hashTableNext none) = some (visited, t') ∧
        (visited : Multiset ι) = ops.foldl TableOp.held 0 ∧
        ∃ cs : List (List ι), t'.Holds cs ∧
          (cs.flatten : Multiset ι) =
            (ops.foldl TableOp.held 0).filter fun x => drop x = false := by
  have hinit : HoldsItems hashfunc (LinkedTable.init link) 0 :=
    ⟨_, holds_init link, by simp, by simp⟩
  obtain ⟨t, ht, h, hcard⟩ := TableOp.run_holds hashfunc compare hinit ops hfresh
    (show (0 : Multiset ι).card + ops.length < fuel by simpa using hfuel)
  obtain ⟨cs, hcs, hflat, hval⟩ := id h
  refine ⟨t, ht, ⟨cs, hflat, hcs.length, hcs.heads, hcs.nodup, fun i x hx => ⟨hcs.placed i x hx,
    hval x (mem_flatten_iff_chain.mpr ⟨i, hx⟩)⟩⟩, ?_, fun key => h.find compare key hcard,
    fun drop => h.visit drop hcard⟩
  rw [hcs.count, ← hflat, Multiset.coe_card]

/-- Items that share a bucket, one of them deleted. -/
theorem hashTable_exact_three : ∃ t,
    [TableOp.insert (some 1) true, .insert (some 8) true, .insert (some 3) true,
      .delete (some 8) true].foldlM (TableOp.apply id (· == ·) 9)
      (LinkedTable.init fun _ => ⟨none, 0⟩) = some t ∧ t.numEntries = 2 := by
  obtain ⟨t, ht, -, hcount, -⟩ := hashTable_exact id (· == ·) (fun _ => ⟨none, 0⟩)
    [TableOp.insert (some 1) true, .insert (some 8) true, .insert (some 3) true,
      .delete (some 8) true]
    (by simp [TableOp.AllFresh, TableOp.Fresh, TableOp.held]) (show 4 < 9 by decide)
  exact ⟨t, ht, hcount.trans (by decide)⟩

end Remind
