import Mathlib.Data.List.Forall2
import Mathlib.Data.List.Sort
import Mathlib.Tactic.Common

/-!
# Lib.StableInsert — insertion behind the equals

`r` is a total preorder and `s` its strict part, so that `List.orderedInsert s` puts an element
behind all that are not greater.  `StableSort r xs l`: `l` is `xs` sorted by `r`, the elements of one
rank in the order they have in `xs`.
-/

namespace Remind.Lib

variable {α β : Type*}

/-- `l` is `xs` in the order of `r`, and what `r` does not tell apart is in the order of `xs`. -/
structure StableSort (r : α → α → Prop) (xs l : List α) : Prop where
  sorted : l.Pairwise r
  perm : l.Perm xs
  stable : ∀ p : α → Bool, (∀ a b, p a → p b → r a b) → l.filter p = xs.filter p

section Insert

variable {r s : α → α → Prop} [DecidableRel s] [Std.Total r] [IsTrans α r] {x : α} {xs l : List α}

omit [DecidableRel s] [Std.Total r] [IsTrans α r] in
/-- What is not strictly before is not after. -/
theorem rel_of_not_strict (hs : ∀ a b, s a b ↔ ¬ r b a) {a b : α} (h : ¬ s a b) : r b a := by
  rw [hs, not_not] at h
  exact h

theorem pairwise_orderedInsert_strict (hs : ∀ a b, s a b ↔ ¬ r b a) (h : l.Pairwise r) (x : α) :
    (l.orderedInsert s x).Pairwise r := by
  induction l with
  | nil => exact List.pairwise_singleton r x
  | cons y l ih =>
    obtain ⟨hy, hl⟩ := List.pairwise_cons.mp h
    rw [List.orderedInsert_cons]
    split_ifs with hxy
    · have hle : r x y := (Std.Total.total x y).resolve_right ((hs x y).mp hxy)
      refine List.pairwise_cons.mpr ⟨fun z hz => ?_, h⟩
      rcases List.mem_cons.mp hz with rfl | hz
      · exact hle
      · exact Trans.trans hle (hy z hz)
    · refine List.pairwise_cons.mpr ⟨fun z hz => ?_, ih hl⟩
      rcases (List.mem_orderedInsert s).mp hz with rfl | hz
      · exact rel_of_not_strict hs hxy
      · exact hy z hz

omit [Std.Total r] in
/-- Among the elements of one rank the new one is the last. -/
theorem filter_orderedInsert_strict (hs : ∀ a b, s a b ↔ ¬ r b a) (h : l.Pairwise r) (x : α)
    {p : α → Bool} (hp : ∀ a b, p a → p b → r a b) :
    (l.orderedInsert s x).filter p = (l ++ [x]).filter p := by
  induction l with
  | nil => rfl
  | cons y l ih =>
    obtain ⟨hy, hl⟩ := List.pairwise_cons.mp h
    rw [List.orderedInsert_cons, List.cons_append]
    split_ifs with hxy
    · by_cases hx : p x = true
      · -- all that follows is greater, and so of another rank
        have hnone : (y :: l).filter p = [] := by
          refine List.filter_eq_nil_iff.mpr fun z hz hpz => (hs x y).mp hxy ?_
          rcases List.mem_cons.mp hz with rfl | hz
          · exact hp _ _ hpz hx
          · exact Trans.trans (hy z hz) (hp _ _ hpz hx)
        rw [← List.cons_append, List.filter_append, List.filter_cons_of_pos hx, hnone,
          List.filter_cons_of_pos hx, List.filter_nil, List.nil_append]
      · rw [← List.cons_append, List.filter_append, List.filter_cons_of_neg hx,
          List.filter_cons_of_neg hx, List.filter_nil, List.append_nil]
    · rw [List.filter_cons, List.filter_cons, ih hl]

/-- One more element inserted. -/
theorem StableSort.insert (hs : ∀ a b, s a b ↔ ¬ r b a) (h : StableSort r xs l) (x : α) :
    StableSort r (xs ++ [x]) (l.orderedInsert s x) where
  sorted := pairwise_orderedInsert_strict hs h.sorted x
  perm := (List.perm_orderedInsert s x l).trans
    ((h.perm.cons x).trans (List.perm_append_singleton x xs).symm)
  stable p hp := by
    rw [filter_orderedInsert_strict hs h.sorted x hp, List.filter_append, List.filter_append,
      h.stable p hp]

/-- All the elements inserted, one after the other. -/
theorem StableSort.foldl (hs : ∀ a b, s a b ↔ ¬ r b a) (h : StableSort r xs l) (ys : List α) :
    StableSort r (xs ++ ys) (ys.foldl (fun l x => l.orderedInsert s x) l) := by
  induction ys generalizing xs l with
  | nil => simpa using h
  | cons y ys ih => simpa using ih (h.insert hs y)

omit [Std.Total r] [IsTrans α r] in
theorem stableSort_nil : StableSort r [] [] where
  sorted := List.Pairwise.nil
  perm := .refl _
  stable _ _ := rfl

end Insert

section Related

variable {s : α → α → Prop} {t : β → β → Prop} [DecidableRel s] [DecidableRel t]
  {R : α → β → Prop} {l : List α} {m : List β}

/-- Insertions by related elements go to the same place. -/
theorem forall₂_orderedInsert (hR : ∀ a a' b b', R a b → R a' b' → (s a a' ↔ t b b'))
    (h : List.Forall₂ R l m) {x : α} {y : β} (hxy : R x y) :
    List.Forall₂ R (l.orderedInsert s x) (m.orderedInsert t y) := by
  induction h with
  | nil => exact .cons hxy .nil
  | @cons a b l m hab hlm ih =>
    rw [List.orderedInsert_cons, List.orderedInsert_cons]
    by_cases hs : s x a
    · rw [if_pos hs, if_pos ((hR _ _ _ _ hxy hab).mp hs)]
      exact .cons hxy (.cons hab hlm)
    · rw [if_neg hs, if_neg fun ht => hs ((hR _ _ _ _ hxy hab).mpr ht)]
      exact .cons hab ih

theorem forall₂_foldl_orderedInsert (hR : ∀ a a' b b', R a b → R a' b' → (s a a' ↔ t b b'))
    (h : List.Forall₂ R l m) {xs : List α} {ys : List β} (hxy : List.Forall₂ R xs ys) :
    List.Forall₂ R (xs.foldl (fun l x => l.orderedInsert s x) l)
      (ys.foldl (fun l x => l.orderedInsert t x) m) := by
  induction hxy generalizing l m with
  | nil => exact h
  | cons hab _ ih => exact ih (forall₂_orderedInsert hR h hab)

end Related

end Remind.Lib
