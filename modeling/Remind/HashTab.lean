import Mathlib.Data.Int.Order.Basic
import Mathlib.Data.List.Nodup
import Remind.Lib.Buckets

/-!
# HashTab — the hash table (hashtab.c)

A pointer to an item is a `Link`: the item and the `hash_link` in it.  A chain is the list of the
links from the bucket on.  `Wf` is what every operation keeps; under it a table is known by the
items in it, whatever their chains.
-/

namespace Remind

open Lib
open scoped List

/-- An item in a table and the hash value kept with it. -/
structure Link (α : Type) where
  hashval : ℕ
  item : α
  deriving DecidableEq, Repr

/-- `hashfunc` and `compare` of a table (`compare` gives 0): items are compared by a key, and the
hash is one of the key. -/
structure Hashing (α κ : Type) where
  hashfunc : α → ℕ
  compare : α → α → Bool
  key : α → κ
  compare_iff : ∀ a b, compare a b = true ↔ key a = key b
  hash_congr : ∀ a b, key a = key b → hashfunc a = hashfunc b

/-- `bucket_choices` -/
def bucketChoices : List ℕ :=
  [7, 17, 37, 79, 163, 331, 673, 1361, 2729, 5471, 10949, 21911, 43853, 87719,
    175447, 350899, 701819, 1403641, 2807303, 5614657, 11229331, 22458671,
    44917381, 89834777, 179669557, 359339171, 718678369, 1437356741]

/-- `NUM_BUCKET_CHOICES` -/
def numBucketChoices : ℕ := bucketChoices.length

/-- `hash_table`, without its statistics. -/
structure HashTable (α : Type) where
  bucketChoiceIndex : ℕ
  numEntries : ℕ
  buckets : List (List (Link α))
  deriving Repr

theorem replace_perm {α : Type} [DecidableEq α] {c : List α} {a b : α} (ha : a ∈ c) :
    c.replace a b ~ b :: c.erase a := by
  induction c with
  | nil => simp at ha
  | cons x c ih =>
    by_cases hx : x = a
    · subst hx
      simp
    · have hac : a ∈ c := by
        rcases List.mem_cons.mp ha with rfl | hac
        · exact (hx rfl).elim
        · exact hac
      have hbeq : (a == x) = false := by simpa using Ne.symm hx
      rw [List.replace_cons, hbeq, List.erase_cons_tail (by simpa using hx)]
      exact ((ih hac).cons x).trans (.swap ..)

theorem mem_replace {α : Type} [DecidableEq α] {c : List α} {a b x : α}
    (hx : x ∈ c.replace a b) : x = b ∨ x ∈ c := by
  induction c with
  | nil => simp at hx
  | cons y c ih =>
    rw [List.replace_cons] at hx
    split at hx
    · rcases List.mem_cons.mp hx with rfl | hx
      · exact .inl rfl
      · exact .inr (List.mem_cons_of_mem _ hx)
    · rcases List.mem_cons.mp hx with rfl | hx
      · exact .inr List.mem_cons_self
      · rcases ih hx with rfl | hx
        · exact .inl rfl
        · exact .inr (List.mem_cons_of_mem _ hx)

namespace HashTable

variable {α κ : Type}

/-- `NUM_BUCKETS(t)` -/
def numBuckets (t : HashTable α) : ℕ := bucketChoices.getD t.bucketChoiceIndex 0

/-- `hash_table_init` -/
def init : HashTable α where
  bucketChoiceIndex := 0
  numEntries := 0
  buckets := List.replicate (bucketChoices.getD 0 0) []

/-- `hash_table_resize`; `dir` is 1 or -1.  There is always memory for the new buckets. -/
def resize (t : HashTable α) (dir : ℤ) : HashTable α :=
  if dir ≠ 1 ∧ dir ≠ -1 then t
  else if (dir = -1 ∧ t.bucketChoiceIndex = 0) ∨
      (dir = 1 ∧ t.bucketChoiceIndex = numBucketChoices - 1) then t
  else
    let index := (t.bucketChoiceIndex + dir).toNat
    let numNewBuckets := bucketChoices.getD index 0
    { t with
      bucketChoiceIndex := index
      buckets := rehash Link.hashval numNewBuckets t.buckets (List.replicate numNewBuckets []) }

/-- `hash_table_insert` -/
def insert (h : Hashing α κ) (t : HashTable α) (item : α) : HashTable α :=
  let t1 := { t with
    buckets := place Link.hashval t.numBuckets t.buckets ⟨h.hashfunc item, item⟩
    numEntries := t.numEntries + 1 }
  -- grow for a load factor over 2
  if t1.bucketChoiceIndex < numBucketChoices - 1 ∧ t1.numEntries > 2 * t1.numBuckets then
    t1.resize 1
  else t1

/-- `hash_table_find` -/
def find (h : Hashing α κ) (t : HashTable α) (candidate : α) : Option (Link α) :=
  (chain t.buckets (h.hashfunc candidate % t.numBuckets)).find?
    (fun l => h.compare candidate l.item)

section
variable [DecidableEq α]

/-- `hash_table_delete_helper` -/
def deleteHelper (t : HashTable α) (l : Link α) (resizeOk : Bool) : HashTable α :=
  let v := l.hashval % t.numBuckets
  if l ∈ chain t.buckets v then
    let t1 := { t with
      buckets := t.buckets.modify v (·.erase l)
      numEntries := t.numEntries - 1 }
    -- shrink for a load factor under 1
    if resizeOk = true ∧ t1.bucketChoiceIndex > 0 ∧ t1.numEntries < t1.numBuckets / 2 then
      t1.resize (-1)
    else t1
  else t

/-- `hash_table_delete` -/
def delete (t : HashTable α) (l : Link α) : HashTable α := t.deleteHelper l true

/-- `*item = x` for an item in the table. -/
def assign (t : HashTable α) (l : Link α) (x : α) : HashTable α :=
  { t with
    buckets := t.buckets.modify (l.hashval % t.numBuckets) (·.replace l ⟨l.hashval, x⟩) }

end

/-- All the items in the table. -/
def links (t : HashTable α) : List (Link α) := t.buckets.flatten

/-- Every item is in its chain under its own hash, no two have the same key, and they are
counted. -/
structure Wf (h : Hashing α κ) (t : HashTable α) : Prop where
  index : t.bucketChoiceIndex < numBucketChoices
  length : t.buckets.length = t.numBuckets
  placed : Placed Link.hashval t.numBuckets t.buckets
  hashed : ∀ l ∈ t.links, l.hashval = h.hashfunc l.item
  keys : (t.links.map fun l => h.key l.item).Nodup
  count : t.numEntries = t.links.length

theorem bucketChoices_pos {i : ℕ} (hi : i < numBucketChoices) : 0 < bucketChoices.getD i 0 := by
  have hall : ∀ n ∈ bucketChoices, 0 < n := by decide
  rw [List.getD_eq_getElem _ _ hi]
  exact hall _ (List.getElem_mem hi)

section Wf

variable {h : Hashing α κ} {t : HashTable α}

theorem Wf.numBuckets_pos (hw : Wf h t) : 0 < t.numBuckets := bucketChoices_pos hw.index

theorem wf_init : Wf h (init : HashTable α) where
  index := Nat.zero_lt_succ _
  length := by simp [init, numBuckets]
  placed := placed_replicate _
  hashed := by simp [links, init]
  keys := by simp [links, init]
  count := by simp [links, init]

/-- Two items in the table with the same key are the same. -/
theorem Wf.unique (hw : Wf h t) {l m : Link α} (hl : l ∈ t.links) (hm : m ∈ t.links)
    (hkey : h.key l.item = h.key m.item) : l = m :=
  List.inj_on_of_nodup_map hw.keys hl hm hkey

theorem Wf.mem_chain_iff (hw : Wf h t) {l : Link α} :
    l ∈ chain t.buckets (l.hashval % t.numBuckets) ↔ l ∈ t.links := by
  unfold links
  rw [mem_flatten_iff_chain]
  constructor
  · exact fun hl => ⟨_, hl⟩
  · rintro ⟨i, hl⟩
    rwa [hw.placed i l hl]

/-- `hash_table_find` finds the item of the candidate's key, if there is one. -/
theorem Wf.find_iff (hw : Wf h t) {c : α} {l : Link α} :
    find h t c = some l ↔ l ∈ t.links ∧ h.key l.item = h.key c := by
  unfold find
  constructor
  · intro hf
    have hmem := List.mem_of_find?_eq_some hf
    have hcmp := List.find?_some hf
    exact ⟨mem_flatten_iff_chain.mpr ⟨_, hmem⟩, ((h.compare_iff _ _).mp hcmp).symm⟩
  · rintro ⟨hl, hkey⟩
    have hchain : l ∈ chain t.buckets (h.hashfunc c % t.numBuckets) := by
      rw [← h.hash_congr _ _ hkey, ← hw.hashed l hl]
      exact hw.mem_chain_iff.mpr hl
    cases hf : (chain t.buckets (h.hashfunc c % t.numBuckets)).find?
        (fun l => h.compare c l.item) with
    | none =>
      have hno := List.find?_eq_none.mp hf l hchain
      exact (hno ((h.compare_iff _ _).mpr hkey.symm)).elim
    | some m =>
      have hmem := mem_flatten_iff_chain.mpr ⟨_, List.mem_of_find?_eq_some hf⟩
      have hcmp : h.compare c m.item = true := by simpa using List.find?_some hf
      rw [hw.unique hl hmem (hkey.trans ((h.compare_iff c m.item).mp hcmp))]

theorem Wf.find_none_iff (hw : Wf h t) {c : α} :
    find h t c = none ↔ ∀ l ∈ t.links, h.key l.item ≠ h.key c := by
  rw [Option.eq_none_iff_forall_ne_some]
  constructor
  · exact fun hno l hl hkey => hno l (hw.find_iff.mpr ⟨hl, hkey⟩)
  · exact fun hno l hf => hno l (hw.find_iff.mp hf).1 (hw.find_iff.mp hf).2

/-- What a table holds decides the rest of its invariant. -/
theorem wf_of_perm {t' : HashTable α} {ls : List (Link α)} (hlinks : t'.links ~ ls)
    (hindex : t'.bucketChoiceIndex < numBucketChoices)
    (hlength : t'.buckets.length = t'.numBuckets)
    (hplaced : Placed Link.hashval t'.numBuckets t'.buckets)
    (hhashed : ∀ l ∈ ls, l.hashval = h.hashfunc l.item)
    (hkeys : (ls.map fun l => h.key l.item).Nodup) (hcount : t'.numEntries = ls.length) :
    Wf h t' where
  index := hindex
  length := hlength
  placed := hplaced
  hashed l hl := hhashed l (hlinks.mem_iff.mp hl)
  keys := (hlinks.map _).nodup_iff.mpr hkeys
  count := by rw [hcount, hlinks.length_eq]

theorem Wf.resize (hw : Wf h t) (dir : ℤ) :
    Wf h (t.resize dir) ∧ (t.resize dir).links ~ t.links := by
  unfold HashTable.resize
  split_ifs with hdir hend
  · exact ⟨hw, .refl _⟩
  · exact ⟨hw, .refl _⟩
  · have hidx := hw.index
    have hin : (t.bucketChoiceIndex + dir).toNat < numBucketChoices := by omega
    have hpos := bucketChoices_pos hin
    obtain ⟨hlen, hperm, hplaced⟩ := rehash_spec hpos
      (List.length_replicate (n := bucketChoices.getD (t.bucketChoiceIndex + dir).toNat 0))
      (@placed_replicate (Link α) Link.hashval _ _) t.buckets
    have hlinks : (rehash Link.hashval (bucketChoices.getD (t.bucketChoiceIndex + dir).toNat 0)
        t.buckets (List.replicate (bucketChoices.getD (t.bucketChoiceIndex + dir).toNat 0)
          [])).flatten ~ t.links := by
      simpa [links] using hperm
    exact ⟨wf_of_perm hlinks hin hlen hplaced hw.hashed hw.keys hw.count, hlinks⟩

/-- Inserting an item whose key is not there. -/
theorem Wf.insert (hw : Wf h t) {x : α} (hx : find h t x = none) :
    Wf h (insert h t x) ∧ (insert h t x).links ~ ⟨h.hashfunc x, x⟩ :: t.links := by
  have hperm : (place Link.hashval t.numBuckets t.buckets ⟨h.hashfunc x, x⟩).flatten ~
      ⟨h.hashfunc x, x⟩ :: t.links := place_perm hw.numBuckets_pos hw.length _
  have hfresh : ∀ l ∈ t.links, h.key l.item ≠ h.key x := hw.find_none_iff.mp hx
  have hw1 : Wf h { t with
      buckets := place Link.hashval t.numBuckets t.buckets ⟨h.hashfunc x, x⟩
      numEntries := t.numEntries + 1 } := by
    refine wf_of_perm hperm hw.index ?_ (placed_place hw.numBuckets_pos hw.length hw.placed _)
      ?_ ?_ ?_
    · rw [length_place]
      exact hw.length
    · intro l hl
      rcases List.mem_cons.mp hl with rfl | hl
      · rfl
      · exact hw.hashed l hl
    · rw [List.map_cons, List.nodup_cons]
      refine ⟨fun hmem => ?_, hw.keys⟩
      obtain ⟨l, hl, hkey⟩ := List.mem_map.mp hmem
      exact hfresh l hl hkey
    · rw [List.length_cons]
      exact congrArg (· + 1) hw.count
  unfold HashTable.insert
  simp only
  split_ifs with hgrow
  · obtain ⟨hw2, hlinks⟩ := hw1.resize 1
    exact ⟨hw2, hlinks.trans hperm⟩
  · exact ⟨hw1, hperm⟩

/-- A chain that loses or changes one of its items, the rest of the table being left alone. -/
theorem Wf.modify_chain (hw : Wf h t) {l : Link α} (f : List (Link α) → List (Link α)) :
    (t.buckets.modify (l.hashval % t.numBuckets) f).flatten ~
      f (chain t.buckets (l.hashval % t.numBuckets)) ++
        (t.buckets.eraseIdx (l.hashval % t.numBuckets)).flatten ∧
    t.links ~ chain t.buckets (l.hashval % t.numBuckets) ++
        (t.buckets.eraseIdx (l.hashval % t.numBuckets)).flatten := by
  have hi : l.hashval % t.numBuckets < t.buckets.length := by
    rw [hw.length]
    exact Nat.mod_lt _ hw.numBuckets_pos
  exact ⟨flatten_modify_perm f hi, flatten_perm_chain hi⟩

variable [DecidableEq α]

theorem Wf.delete (hw : Wf h t) {l : Link α} (hl : l ∈ t.links) :
    Wf h (t.delete l) ∧ t.links ~ l :: (t.delete l).links := by
  have hchain := hw.mem_chain_iff.mpr hl
  obtain ⟨hmod, hall⟩ := hw.modify_chain (l := l) (·.erase l)
  have hperm : t.links ~ l :: (t.buckets.modify (l.hashval % t.numBuckets) (·.erase l)).flatten :=
    calc t.links
        ~ chain t.buckets (l.hashval % t.numBuckets) ++ _ := hall
      _ ~ (l :: (chain t.buckets (l.hashval % t.numBuckets)).erase l) ++ _ :=
        (List.perm_cons_erase hchain).append_right _
      _ ~ l :: (t.buckets.modify (l.hashval % t.numBuckets) (·.erase l)).flatten :=
        (hmod.symm).cons l
  have hkeys := (hperm.map fun l => h.key l.item).nodup_iff.mp hw.keys
  have hw1 : Wf h { t with
      buckets := t.buckets.modify (l.hashval % t.numBuckets) (·.erase l)
      numEntries := t.numEntries - 1 } := by
    refine wf_of_perm (.refl _) hw.index ?_ ?_ ?_ ?_ ?_
    · rw [List.length_modify]
      exact hw.length
    · intro i m hm
      rw [chain_modify _ _ (by rw [hw.length]; exact Nat.mod_lt _ hw.numBuckets_pos)] at hm
      split_ifs at hm with hi
      · exact hw.placed i m (List.mem_of_mem_erase hm)
      · exact hw.placed i m hm
    · exact fun m hm => hw.hashed m (hperm.mem_iff.mpr (List.mem_cons_of_mem _ hm))
    · exact (List.nodup_cons.mp hkeys).2
    · have hlen := hperm.length_eq
      rw [List.length_cons, ← hw.count] at hlen
      exact Nat.sub_eq_of_eq_add hlen
  unfold HashTable.delete deleteHelper
  simp only [if_pos hchain]
  split_ifs with hshrink
  · obtain ⟨hw2, hlinks⟩ := hw1.resize (-1)
    exact ⟨hw2, hperm.trans (hlinks.symm.cons l)⟩
  · exact ⟨hw1, hperm⟩

/-- Writing to an item without changing its key. -/
theorem Wf.assign (hw : Wf h t) {l : Link α} (hl : l ∈ t.links) {x : α}
    (hkey : h.key x = h.key l.item) :
    Wf h (t.assign l x) ∧ (t.assign l x).links ~ ⟨l.hashval, x⟩ :: t.links.erase l := by
  have hchain := hw.mem_chain_iff.mpr hl
  obtain ⟨hmod, hall⟩ := hw.modify_chain (l := l) (·.replace l ⟨l.hashval, x⟩)
  have hperm : (t.assign l x).links ~ ⟨l.hashval, x⟩ :: t.links.erase l :=
    calc (t.assign l x).links
        ~ (chain t.buckets (l.hashval % t.numBuckets)).replace l ⟨l.hashval, x⟩ ++ _ := hmod
      _ ~ (⟨l.hashval, x⟩ :: (chain t.buckets (l.hashval % t.numBuckets)).erase l) ++ _ :=
        (replace_perm hchain).append_right _
      _ ~ ⟨l.hashval, x⟩ :: t.links.erase l := by
        refine .cons _ ?_
        have herase := (hall.erase l).symm
        rwa [List.erase_append_left _ hchain] at herase
  refine ⟨wf_of_perm hperm hw.index ?_ ?_ ?_ ?_ ?_, hperm⟩
  · exact (List.length_modify ..).trans hw.length
  · intro i m hm
    rw [HashTable.assign, chain_modify _ _
      (by rw [hw.length]; exact Nat.mod_lt _ hw.numBuckets_pos)] at hm
    split_ifs at hm with hi
    · rcases mem_replace hm with rfl | hm
      · exact hi
      · exact hw.placed i m hm
    · exact hw.placed i m hm
  · intro m hm
    rcases List.mem_cons.mp hm with rfl | hm
    · exact (hw.hashed l hl).trans (h.hash_congr _ _ hkey.symm)
    · exact hw.hashed m (List.mem_of_mem_erase hm)
  · have hsplit := (List.perm_cons_erase hl).map fun l => h.key l.item
    have hnodup := hsplit.nodup_iff.mp hw.keys
    rw [List.map_cons] at hnodup ⊢
    rwa [hkey]
  · rw [List.length_cons, List.length_erase_of_mem hl, ← hw.count]
    have hpos := List.length_pos_of_mem hl
    rw [← hw.count] at hpos
    exact (Nat.sub_add_cancel hpos).symm

end Wf

section Find

variable {h : Hashing α κ} {t : HashTable α} [DecidableEq κ]

/-- A search sees the items only, in whatever order. -/
theorem Wf.find_eq (hw : Wf h t) {ls : List (Link α)} (hperm : t.links ~ ls) (c : α) :
    find h t c = ls.find? (fun l => h.key l.item = h.key c) := by
  have hkeys := (hperm.map fun l => h.key l.item).nodup_iff.mp hw.keys
  apply Option.ext
  intro l
  rw [hw.find_iff, hperm.mem_iff]
  constructor
  · rintro ⟨hl, hkey⟩
    cases hf : ls.find? (fun l => h.key l.item = h.key c) with
    | none => simpa [hkey] using List.find?_eq_none.mp hf l hl
    | some m =>
      have hm : h.key m.item = h.key c := by simpa using List.find?_some hf
      rw [List.inj_on_of_nodup_map hkeys hl (List.mem_of_find?_eq_some hf) (hkey.trans hm.symm)]
  · intro hf
    exact ⟨List.mem_of_find?_eq_some hf, by simpa using List.find?_some hf⟩

theorem Wf.find_cons (hw : Wf h t) {l : Link α} {ls : List (Link α)} (hperm : t.links ~ l :: ls)
    (c : α) : find h t c = if h.key l.item = h.key c then some l
      else ls.find? (fun l => h.key l.item = h.key c) := by
  rw [hw.find_eq hperm, List.find?_cons]
  split_ifs with hkey <;> simp [hkey]

theorem Wf.find_insert (hw : Wf h t) {x : α} (hx : find h t x = none) (c : α) :
    find h (HashTable.insert h t x) c =
      if h.key x = h.key c then some ⟨h.hashfunc x, x⟩ else find h t c := by
  obtain ⟨hw', hperm⟩ := hw.insert hx
  rw [hw'.find_cons hperm, ← hw.find_eq (.refl _)]

variable [DecidableEq α]

theorem Wf.find_delete (hw : Wf h t) {l : Link α} (hl : l ∈ t.links) (c : α) :
    find h (t.delete l) c = if h.key l.item = h.key c then none else find h t c := by
  obtain ⟨hw', hperm⟩ := hw.delete hl
  rw [hw'.find_eq (.refl _), hw.find_cons hperm]
  split_ifs with hkey
  · have hkeys := (hperm.map fun l => h.key l.item).nodup_iff.mp hw.keys
    rw [List.map_cons, List.nodup_cons] at hkeys
    refine List.find?_eq_none.mpr fun m hm hmc => hkeys.1 ?_
    rw [hkey, ← of_decide_eq_true hmc]
    exact List.mem_map_of_mem (f := fun l => h.key l.item) hm
  · rfl

theorem Wf.find_assign (hw : Wf h t) {l : Link α} (hl : l ∈ t.links) {x : α}
    (hx : h.key x = h.key l.item) (c : α) :
    find h (t.assign l x) c =
      if h.key l.item = h.key c then some ⟨l.hashval, x⟩ else find h t c := by
  obtain ⟨hw', hperm⟩ := hw.assign hl hx
  rw [hw'.find_cons hperm, hw.find_cons (List.perm_cons_erase hl), hx]
  split_ifs <;> rfl

end Find

end HashTable

end Remind
