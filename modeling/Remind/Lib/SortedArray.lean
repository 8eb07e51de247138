import Mathlib.Data.List.Sort
import Mathlib.Data.Int.Order.Basic
import Mathlib.Order.Basic
import Mathlib.Tactic.Common

/-!
# Lib.SortedArray — strictly increasing arrays: binary search and insertion

An array is the list of its elements in use.  `bsearch` halves a window of indices with both ends
included; `insertKey` moves the greater elements up one place from the end on.  On a strictly
increasing array the search decides membership, and inserting a key that is not there keeps the
array strictly increasing.
-/

namespace Remind.Lib

variable {α : Type*} [LinearOrder α]

/-- `while (top >= bot) { mid = (top+bot)/2; ... }`.  A round makes the window smaller, so the
window is empty when `n`, its size at the start, is used up. -/
def bsearchLoop (a : List α) (key : α) : ℕ → ℤ → ℤ → Bool
  | 0, _, _ => false
  | n + 1, bot, top =>
    if top ≥ bot then
      let mid := (top + bot) / 2
      match a[mid.toNat]? with
      | some x =>
        if x = key then true
        else if x > key then bsearchLoop a key n bot (mid - 1)
        else bsearchLoop a key n (mid + 1) top
      | none => false
    else false

/-- Binary search for `key` in the whole array. -/
def bsearch (a : List α) (key : α) : Bool := bsearchLoop a key a.length 0 (a.length - 1)

/-- Insert `key` below the greater elements at the end of the array. -/
def insertKey (a : List α) (key : α) : List α :=
  (a.reverse.orderedInsert (fun x y => y ≤ x) key).reverse

/-- Insert `key` unless the search finds it. -/
def insertNew (a : List α) (key : α) : List α :=
  if bsearch a key then a else insertKey a key

theorem bsearchLoop_iff {a : List α} {key : α} (ha : a.Pairwise (· < ·)) {n : ℕ} {bot top : ℤ}
    (hbot : 0 ≤ bot) (htop : top < a.length) (hn : top + 1 - bot ≤ n) :
    bsearchLoop a key n bot top = true ↔
      ∃ i : ℕ, bot ≤ i ∧ (i : ℤ) ≤ top ∧ a[i]? = some key := by
  have hlt := List.pairwise_iff_getElem.mp ha
  induction n generalizing bot top with
  | zero =>
    simp only [bsearchLoop, Bool.false_eq_true, false_iff]
    rintro ⟨i, h1, h2, -⟩
    omega
  | succ n ih =>
    unfold bsearchLoop
    by_cases hwin : top ≥ bot
    · obtain ⟨k, hk⟩ : ∃ k : ℕ, (top + bot) / 2 = k := ⟨((top + bot) / 2).toNat, by omega⟩
      have hka : k < a.length := by omega
      simp only [if_pos hwin, hk, Int.toNat_natCast, List.getElem?_eq_getElem hka]
      by_cases heq : a[k] = key
      · rw [if_pos heq]
        exact ⟨fun _ => ⟨k, by omega, by omega, by rw [List.getElem?_eq_getElem hka, heq]⟩,
          fun _ => rfl⟩
      rw [if_neg heq]
      -- the half that is dropped holds no key, since the array increases
      by_cases hgt : a[k] > key
      · rw [if_pos hgt]
        refine (ih hbot (by omega) (by omega)).trans (exists_congr fun i =>
          ⟨fun ⟨h1, h2, h3⟩ => ⟨h1, by omega, h3⟩, ?_⟩)
        rintro ⟨h1, h2, h3⟩
        obtain ⟨hi, hai⟩ := List.getElem?_eq_some_iff.mp h3
        refine ⟨h1, ?_, h3⟩
        by_contra hik
        rcases eq_or_lt_of_le (show k ≤ i by omega) with rfl | hki
        · exact heq hai
        · have := hlt k i hka hi hki
          rw [hai] at this
          exact lt_asymm this hgt
      · rw [if_neg hgt]
        refine (ih (by omega) htop (by omega)).trans (exists_congr fun i =>
          ⟨fun ⟨h1, h2, h3⟩ => ⟨by omega, h2, h3⟩, ?_⟩)
        rintro ⟨h1, h2, h3⟩
        obtain ⟨hi, hai⟩ := List.getElem?_eq_some_iff.mp h3
        refine ⟨?_, h2, h3⟩
        by_contra hik
        rcases eq_or_lt_of_le (show i ≤ k by omega) with rfl | hki
        · exact heq hai
        · have := hlt i k hi hka hki
          rw [hai] at this
          exact hgt this
    · simp only [if_neg hwin, Bool.false_eq_true, false_iff]
      rintro ⟨i, h1, h2, -⟩
      omega

/-- On a strictly increasing array the binary search decides membership. -/
theorem bsearch_iff {a : List α} {key : α} (ha : a.Pairwise (· < ·)) :
    bsearch a key = true ↔ key ∈ a := by
  unfold bsearch
  rw [bsearchLoop_iff ha le_rfl (by omega) (by omega), List.mem_iff_getElem?]
  refine exists_congr fun i => ⟨fun h => h.2.2, fun h => ⟨by omega, ?_, h⟩⟩
  obtain ⟨hi, -⟩ := List.getElem?_eq_some_iff.mp h
  omega

theorem mem_insertKey {a : List α} {key x : α} : x ∈ insertKey a key ↔ x = key ∨ x ∈ a := by
  simp [insertKey, List.mem_orderedInsert]

theorem length_insertKey (a : List α) (key : α) : (insertKey a key).length = a.length + 1 := by
  simp [insertKey, List.orderedInsert_length]

theorem insertKey_pairwise {a : List α} {key : α} (ha : a.Pairwise (· < ·)) (hk : key ∉ a) :
    (insertKey a key).Pairwise (· < ·) := by
  have hge : (a.reverse).Pairwise (fun x y => y ≤ x) :=
    List.pairwise_reverse.mpr (ha.imp fun h => le_of_lt h)
  have hsorted : (insertKey a key).Pairwise (· ≤ ·) :=
    List.pairwise_reverse.mpr (List.Pairwise.orderedInsert key _ hge)
  have hperm : (insertKey a key).Perm (key :: a) :=
    (List.reverse_perm _).trans ((List.perm_orderedInsert _ key _).trans
      (List.Perm.cons key (List.reverse_perm a)))
  have hnodup : (insertKey a key).Nodup :=
    hperm.nodup_iff.mpr (List.nodup_cons.mpr ⟨hk, ha.imp fun h => ne_of_lt h⟩)
  exact (hsorted.and hnodup).imp fun h => lt_of_le_of_ne h.1 h.2

theorem mem_insertNew {a : List α} {key x : α} (ha : a.Pairwise (· < ·)) :
    x ∈ insertNew a key ↔ x = key ∨ x ∈ a := by
  unfold insertNew
  split_ifs with h
  · have := (bsearch_iff ha).mp h
    exact ⟨Or.inr, fun hx => hx.elim (fun hx => hx ▸ this) id⟩
  · exact mem_insertKey

theorem insertNew_pairwise {a : List α} {key : α} (ha : a.Pairwise (· < ·)) :
    (insertNew a key).Pairwise (· < ·) := by
  unfold insertNew
  split_ifs with h
  · exact ha
  · exact insertKey_pairwise ha fun hmem => h ((bsearch_iff ha).mpr hmem)

end Remind.Lib
