import Mathlib

/-!
# Lib.PrefixSearch — comparing a key with the beginning of one

`prefixCmp` compares a key with a word as far as the word goes, so that all keys that the word begins
compare equal.  Along keys in increasing order it does not decrease: these keys stand side by side.
-/

namespace Remind.Lib

variable {α : Type*} [LinearOrder α] {k k' s : List α}

/-- How a key stands to a word. -/
def prefixCmp : List α → List α → Ordering
  | _, [] => .eq
  | [], _ :: _ => .lt
  | k :: ks, c :: s => (compare k c).then (prefixCmp ks s)

theorem prefixCmp_eq_iff : prefixCmp k s = .eq ↔ s <+: k := by
  induction k generalizing s with
  | nil => cases s <;> simp [prefixCmp]
  | cons c k ih =>
    cases s with
    | nil => simp [prefixCmp]
    | cons d s =>
      rw [prefixCmp, Ordering.then_eq_eq, compare_eq_iff_eq, ih, List.cons_prefix_cons, eq_comm]

/-- Behind a key that is greater than the word there are only such keys. -/
theorem prefixCmp_gt_of_lt (h : k < k') (hk : prefixCmp k s = .gt) : prefixCmp k' s = .gt := by
  induction k generalizing k' s with
  | nil => cases s <;> cases hk
  | cons c k ih =>
    cases s with
    | nil => cases hk
    | cons d s =>
      cases k' with
      | nil => cases h
      | cons c' k' =>
        rw [prefixCmp, Ordering.then_eq_gt, compare_gt_iff_gt, compare_eq_iff_eq] at hk ⊢
        rcases List.cons_lt_cons_iff.mp h with hc | ⟨rfl, htail⟩
        · left
          rcases hk with hk | ⟨rfl, -⟩
          · exact hk.trans hc
          · exact hc
        · exact hk.imp id fun ⟨hd, hk⟩ => ⟨hd, ih htail hk⟩

/-- Before a key that is less than the word there are only such keys. -/
theorem prefixCmp_lt_of_lt (h : k < k') (hk : prefixCmp k' s = .lt) : prefixCmp k s = .lt := by
  induction k' generalizing k s with
  | nil => cases h
  | cons c' k' ih =>
    cases s with
    | nil => cases hk
    | cons d s =>
      cases k with
      | nil => rfl
      | cons c k =>
        rw [prefixCmp, Ordering.then_eq_lt, compare_lt_iff_lt, compare_eq_iff_eq] at hk ⊢
        rcases List.cons_lt_cons_iff.mp h with hc | ⟨rfl, htail⟩
        · left
          rcases hk with hk | ⟨rfl, -⟩
          · exact hc.trans hk
          · exact hc
        · exact hk.imp id fun ⟨hd, hk⟩ => ⟨hd, ih htail hk⟩

/-- The keys that a word begins stand side by side. -/
theorem prefixCmp_between {k₁ k₂ k₃ : List α} (h₁ : k₁ < k₂) (h₂ : k₂ < k₃)
    (hk₁ : prefixCmp k₁ s = .eq) (hk₃ : prefixCmp k₃ s = .eq) : prefixCmp k₂ s = .eq := by
  cases hk : prefixCmp k₂ s with
  | eq => rfl
  | lt => rw [prefixCmp_lt_of_lt h₁ hk] at hk₁; cases hk₁
  | gt => rw [prefixCmp_gt_of_lt h₂ hk] at hk₃; cases hk₃

end Remind.Lib
