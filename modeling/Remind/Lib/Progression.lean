import Mathlib.Data.Nat.Count
import Mathlib.Data.Nat.Find
import Mathlib.Data.Int.Order.Basic
import Mathlib.Tactic.Common
import Mathlib.Tactic.Ring

/-!
# Lib.Progression — counting along an arithmetic progression

`tally p d s k` counts the points with `p` among `d + s`, `d + 2 * s`, …, `d + k * s`, and `Nth` is
the point at which a walk from `d` in steps of `s` has counted `n` of them.
-/

namespace Remind.Lib

variable {p : ℤ → Bool} {d s r : ℤ}

/-- The number of points with `p` in the first `k` steps from `d`. -/
def tally (p : ℤ → Bool) (d s : ℤ) (k : ℕ) : ℕ :=
  Nat.count (fun i : ℕ => p (d + s * (i + 1)) = true) k

/-- `r` is the last of the points from `d` up to the `n`-th with `p`. -/
def Nth (p : ℤ → Bool) (d s : ℤ) (n : ℕ) (r : ℤ) : Prop :=
  ∃ k : ℕ, r = d + s * k ∧ tally p d s k = n ∧ (k = 0 ∨ p r = true)

@[simp] theorem tally_zero : tally p d s 0 = 0 := Nat.count_zero _

theorem tally_succ (k : ℕ) :
    tally p d s (k + 1) = tally p d s k + if p (d + s * (k + 1)) = true then 1 else 0 :=
  Nat.count_succ _ _

theorem tally_succ' (k : ℕ) :
    tally p d s (k + 1) = tally p (d + s) s k + if p (d + s) = true then 1 else 0 := by
  have hshift : (fun i : ℕ => p (d + s * ((i + 1 : ℕ) + 1)) = true) =
      fun i : ℕ => p (d + s + s * (i + 1)) = true := by
    funext i
    rw [show d + s * ((i + 1 : ℕ) + 1) = d + s + s * (i + 1) by push_cast; ring]
  unfold tally
  rw [Nat.count_succ']
  simp only [hshift, Nat.cast_zero, zero_add, mul_one]

/-- The walk back counts the same points. -/
theorem tally_reverse (k : ℕ) : tally p d s k = tally p (d + s * (k + 1)) (-s) k := by
  induction k with
  | zero => rfl
  | succ k ih =>
    rw [tally_succ, tally_succ', ih]
    rw [show d + s * ((k + 1 : ℕ) + 1) + -s = d + s * (k + 1) by push_cast; ring]

theorem tally_mono {k k' : ℕ} (h : k ≤ k') : tally p d s k ≤ tally p d s k' :=
  Nat.count_monotone _ h

theorem tally_eq_zero (h : ∀ i : ℕ, p (d + s * (i + 1)) = false) (k : ℕ) : tally p d s k = 0 := by
  induction k with
  | zero => rfl
  | succ k ih => rw [tally_succ, ih, if_neg (by simp [h k])]

theorem nth_zero_iff : Nth p d s 0 r ↔ r = d := by
  constructor
  · rintro ⟨k, rfl, hk, hp⟩
    cases k with
    | zero => simp
    | succ k =>
      rw [tally_succ] at hk
      rcases hp with hp | hp
      · omega
      · rw [Nat.cast_succ] at hp
        rw [if_pos hp] at hk
        omega
  · rintro rfl
    exact ⟨0, by simp, rfl, Or.inl rfl⟩

/-- One step of the walk. -/
theorem nth_succ_iff {n : ℕ} : Nth p d s (n + 1) r ↔
    if p (d + s) = true then Nth p (d + s) s n r else Nth p (d + s) s (n + 1) r := by
  constructor
  · rintro ⟨k, rfl, hk, hp⟩
    cases k with
    | zero => simp at hk
    | succ k =>
      rw [tally_succ'] at hk
      have hr : d + s * (k + 1 : ℕ) = d + s + s * k := by push_cast; ring
      have hp' : k = 0 ∧ p (d + s) = true ∨ p (d + s * (k + 1 : ℕ)) = true := by
        rcases hp with hp | hp
        · omega
        · exact Or.inr hp
      split_ifs at hk ⊢ with h
      · refine ⟨k, hr, by omega, ?_⟩
        rcases hp' with ⟨rfl, -⟩ | hp'
        · exact Or.inl rfl
        · exact Or.inr hp'
      · refine ⟨k, hr, by omega, ?_⟩
        rcases hp' with ⟨-, hp'⟩ | hp'
        · exact absurd hp' h
        · exact Or.inr hp'
  · intro h
    split_ifs at h with hd
    · obtain ⟨k, rfl, hk, hp⟩ := h
      refine ⟨k + 1, by push_cast; ring, by rw [tally_succ', if_pos hd]; omega, Or.inr ?_⟩
      rcases hp with rfl | hp
      · simpa using hd
      · exact hp
    · obtain ⟨k, rfl, hk, hp⟩ := h
      refine ⟨k + 1, by push_cast; ring, by rw [tally_succ', if_neg hd]; omega, Or.inr ?_⟩
      rcases hp with rfl | hp
      · simp at hk
      · exact hp

/-- A walk that counts at least as much as is asked for passes the point. -/
theorem exists_nth_iff {n m : ℕ} :
    (∃ k ≤ m, tally p d s k = n ∧ (k = 0 ∨ p (d + s * k) = true)) ↔ n ≤ tally p d s m := by
  constructor
  · rintro ⟨k, hk, rfl, -⟩
    exact tally_mono hk
  · induction m with
    | zero =>
      intro h
      rw [tally_zero] at h
      exact ⟨0, le_refl _, by rw [tally_zero]; omega, Or.inl rfl⟩
    | succ m ih =>
      intro h
      by_cases hm : n ≤ tally p d s m
      · obtain ⟨k, hk, hn⟩ := ih hm
        exact ⟨k, by omega, hn⟩
      · have hcount := tally_succ (p := p) (d := d) (s := s) m
        split_ifs at hcount with hp
        · exact ⟨m + 1, le_refl _, by omega, Or.inr (by exact_mod_cast hp)⟩
        · omega

/-- The way back from the point ends where it started, if that is a point with `p`. -/
theorem Nth.reverse {n : ℕ} (h : Nth p d s n r) (hd : p d = true) : Nth p r (-s) n d := by
  obtain ⟨k, rfl, hk, hp⟩ := h
  refine ⟨k, by ring, ?_, Or.inr hd⟩
  cases k with
  | zero => simpa using hk
  | succ k =>
    rcases hp with hp | hp
    · omega
    · have hend : d + s * (k + 1 : ℕ) + -s * (k + 1) = d := by push_cast; ring
      rw [tally_succ, if_pos (by rwa [Nat.cast_succ] at hp)] at hk
      have hrev := tally_reverse (p := p) (d := d) (s := s) k
      rw [tally_succ, hend, if_pos hd, ← hk, hrev, Nat.cast_succ]

theorem Nth.le {n : ℕ} (h : Nth p d s n r) (hs : 0 ≤ s) : d ≤ r := by
  obtain ⟨k, rfl, -⟩ := h
  have := Int.mul_nonneg hs (Int.natCast_nonneg k)
  omega

theorem Nth.ge {n : ℕ} (h : Nth p d s n r) (hs : s ≤ 0) : r ≤ d := by
  obtain ⟨k, rfl, -⟩ := h
  have := Int.mul_nonneg (show 0 ≤ -s by omega) (Int.natCast_nonneg k)
  rw [Int.neg_mul] at this
  omega

end Remind.Lib
