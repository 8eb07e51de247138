import Mathlib.Data.List.Basic
import Mathlib.Data.List.GetD
import Mathlib.Data.List.Nodup
import Mathlib.Data.List.Perm.Basic
import Mathlib.Tactic.Common

/-!
# Lib.Buckets — arrays of chains

`bs` is an array of chains.  `place slot n bs x` puts `x` at the head of the chain
`slot x % n`; what all the chains hold together is `bs.flatten`, up to order.
-/

namespace Remind.Lib

open scoped List

variable {α : Type*}

/-- Chain `i`; past the end it is empty. -/
def chain (bs : List (List α)) (i : ℕ) : List α := bs.getD i []

/-- Put `x` at the head of its chain. -/
def place (slot : α → ℕ) (n : ℕ) (bs : List (List α)) (x : α) : List (List α) :=
  bs.modify (slot x % n) (x :: ·)

/-- Every element is in the chain of its slot. -/
def Placed (slot : α → ℕ) (n : ℕ) (bs : List (List α)) : Prop :=
  ∀ i, ∀ x ∈ chain bs i, slot x % n = i

section Modify

variable {bs : List (List α)} {i : ℕ}

theorem mem_flatten_iff_chain {x : α} : x ∈ bs.flatten ↔ ∃ i, x ∈ chain bs i := by
  unfold chain
  rw [List.mem_flatten]
  constructor
  · rintro ⟨c, hc, hx⟩
    obtain ⟨i, hi, rfl⟩ := List.mem_iff_getElem.mp hc
    exact ⟨i, by rwa [List.getD_eq_getElem _ _ hi]⟩
  · rintro ⟨i, hx⟩
    by_cases hi : i < bs.length
    · rw [List.getD_eq_getElem _ _ hi] at hx
      exact ⟨bs[i], List.getElem_mem hi, hx⟩
    · rw [List.getD_eq_default _ _ (by omega)] at hx
      simp at hx

theorem chain_modify (f : List α → List α) (j : ℕ) (hi : i < bs.length) :
    chain (bs.modify i f) j = if i = j then f (chain bs j) else chain bs j := by
  unfold chain
  rw [List.getD_eq_getElem?_getD, List.getElem?_modify, List.getD_eq_getElem?_getD]
  by_cases hij : i = j
  · subst hij
    simp [List.getElem?_eq_getElem hi]
  · simp [hij]

/-- All the chains together are chain `i` and the rest. -/
theorem flatten_perm_chain (hi : i < bs.length) :
    bs.flatten.Perm (chain bs i ++ (bs.eraseIdx i).flatten) := by
  induction bs generalizing i with
  | nil => simp at hi
  | cons c bs ih =>
    cases i with
    | zero => simp [chain]
    | succ i =>
      have hperm := ih (i := i) (by simpa using hi)
      simp only [List.flatten_cons, List.eraseIdx_cons_succ]
      calc c ++ bs.flatten
          ~ c ++ (chain bs i ++ (bs.eraseIdx i).flatten) := hperm.append_left c
        _ ~ chain bs i ++ (c ++ (bs.eraseIdx i).flatten) := by
            rw [← List.append_assoc, ← List.append_assoc]
            exact List.perm_append_comm.append_right _

/-- A change of one chain. -/
theorem flatten_modify_perm (f : List α → List α) (hi : i < bs.length) :
    (bs.modify i f).flatten.Perm (f (chain bs i) ++ (bs.eraseIdx i).flatten) := by
  have hperm := @flatten_perm_chain _ (bs.modify i f) i (by simpa using hi)
  have herase : (bs.modify i f).eraseIdx i = bs.eraseIdx i := by
    apply List.ext_getElem?
    intro j
    rw [List.getElem?_eraseIdx, List.getElem?_eraseIdx]
    split_ifs with hj
    · simp [show i ≠ j by omega]
    · simp [show i ≠ j + 1 by omega]
  rwa [chain_modify f i hi, if_pos rfl, herase] at hperm

/-- Removing an element from the chain it is in. -/
theorem flatten_modify_erase [DecidableEq α] {x : α} (hnodup : bs.flatten.Nodup)
    (hx : x ∈ chain bs i) : (bs.modify i (·.erase x)).flatten = bs.flatten.erase x := by
  unfold chain at hx
  induction bs generalizing i with
  | nil => simp at hx
  | cons c bs ih =>
    cases i with
    | zero =>
      have hc : x ∈ c := by simpa using hx
      simp [List.erase_append_left _ hc]
    | succ i =>
      have hx' : x ∈ chain bs i := by simpa [chain] using hx
      rw [List.flatten_cons] at hnodup
      have hc : x ∉ c := fun hc =>
        List.disjoint_of_nodup_append hnodup hc (mem_flatten_iff_chain.mpr ⟨i, hx'⟩)
      rw [List.modify_succ_cons, List.flatten_cons, List.flatten_cons,
        List.erase_append_right _ hc, ih (List.nodup_append.mp hnodup).2.1 hx']

end Modify

section Place

variable {slot : α → ℕ} {n : ℕ} {bs : List (List α)}

@[simp] theorem length_place (x : α) : (place slot n bs x).length = bs.length := by
  simp [place]

theorem place_perm (hn : 0 < n) (hlen : bs.length = n) (x : α) :
    (place slot n bs x).flatten.Perm (x :: bs.flatten) := by
  have hi : slot x % n < bs.length := by rw [hlen]; exact Nat.mod_lt _ hn
  calc (place slot n bs x).flatten
      ~ (x :: chain bs (slot x % n)) ++ (bs.eraseIdx (slot x % n)).flatten :=
        flatten_modify_perm _ hi
    _ ~ x :: bs.flatten := ((flatten_perm_chain hi).symm).cons x

theorem placed_place (hn : 0 < n) (hlen : bs.length = n) (hp : Placed slot n bs) (x : α) :
    Placed slot n (place slot n bs x) := by
  intro i y hy
  have hi : slot x % n < bs.length := by rw [hlen]; exact Nat.mod_lt _ hn
  rw [place, chain_modify _ _ hi] at hy
  split_ifs at hy with hi
  · rcases List.mem_cons.mp hy with rfl | hy
    · exact hi
    · exact hp i y hy
  · exact hp i y hy

/-- Move every element of the chains `old` into the chains `bs`. -/
def rehash (slot : α → ℕ) (n : ℕ) (old : List (List α)) (bs : List (List α)) : List (List α) :=
  old.foldl (fun new c => c.foldl (place slot n) new) bs

@[simp] theorem length_foldl_place (c : List α) :
    (c.foldl (place slot n) bs).length = bs.length := by
  induction c generalizing bs with
  | nil => rfl
  | cons x c ih => rw [List.foldl_cons, ih, length_place]

/-- What moving a chain does: nothing is lost, everything is in its place. -/
theorem foldl_place_spec (hn : 0 < n) (hlen : bs.length = n) (hp : Placed slot n bs)
    (c : List α) :
    (c.foldl (place slot n) bs).flatten.Perm (c ++ bs.flatten) ∧
      Placed slot n (c.foldl (place slot n) bs) := by
  induction c generalizing bs with
  | nil => exact ⟨.refl _, hp⟩
  | cons x c ih =>
    obtain ⟨hperm, hplaced⟩ := ih (by rw [length_place, hlen]) (placed_place hn hlen hp x)
    refine ⟨?_, hplaced⟩
    calc (c.foldl (place slot n) (place slot n bs x)).flatten
        ~ c ++ (place slot n bs x).flatten := hperm
      _ ~ c ++ x :: bs.flatten := (place_perm hn hlen x).append_left c
      _ ~ x :: c ++ bs.flatten := List.perm_middle

theorem rehash_spec (hn : 0 < n) (hlen : bs.length = n) (hp : Placed slot n bs)
    (old : List (List α)) :
    (rehash slot n old bs).length = n ∧
      (rehash slot n old bs).flatten.Perm (old.flatten ++ bs.flatten) ∧
      Placed slot n (rehash slot n old bs) := by
  unfold rehash
  induction old generalizing bs with
  | nil => exact ⟨hlen, .refl _, hp⟩
  | cons c old ih =>
    obtain ⟨hc, hpc⟩ := foldl_place_spec hn hlen hp c
    obtain ⟨h1, h2, h3⟩ := ih (by rw [length_foldl_place, hlen]) hpc
    refine ⟨h1, ?_, h3⟩
    calc (old.foldl (fun new c => c.foldl (place slot n) new) (c.foldl (place slot n) bs)).flatten
        ~ old.flatten ++ (c.foldl (place slot n) bs).flatten := h2
      _ ~ old.flatten ++ (c ++ bs.flatten) := hc.append_left _
      _ ~ (c :: old).flatten ++ bs.flatten := by
        rw [List.flatten_cons, ← List.append_assoc]
        exact List.perm_append_comm.append_right _

theorem placed_replicate (m : ℕ) : Placed slot n (List.replicate m []) := by
  intro i x hx
  unfold chain at hx
  rw [List.getD_eq_getElem?_getD, List.getElem?_replicate] at hx
  split_ifs at hx <;> simp at hx

end Place

end Remind.Lib
