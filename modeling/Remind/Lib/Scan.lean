import Mathlib.Data.Nat.Count
import Mathlib.Order.Bounds.Basic
import Mathlib.Tactic.Common

/-!
# Lib.Scan — free points of the integers

A predicate `p` blocks some integers; the others are free.  The first free point from `x` on, the
last free point up to `x` and the `n`-th free point before `b` are what scans that step over
blocked points find; all three keep order.
-/

namespace Remind.Lib

variable {p : ℤ → Bool}

/-- `r` is the first free point from `x` on. -/
def FirstFree (p : ℤ → Bool) (x r : ℤ) : Prop := IsLeast {n | x ≤ n ∧ p n = false} r

/-- `r` is the last free point up to `x`. -/
def LastFree (p : ℤ → Bool) (x r : ℤ) : Prop := IsGreatest {n | n ≤ x ∧ p n = false} r

theorem FirstFree.mono {x x' r r' : ℤ} (h : FirstFree p x r) (h' : FirstFree p x' r')
    (hx : x ≤ x') : r ≤ r' :=
  h.2 ⟨le_trans hx h'.1.1, h'.1.2⟩

theorem LastFree.mono {x x' r r' : ℤ} (h : LastFree p x r) (h' : LastFree p x' r')
    (hx : x ≤ x') : r ≤ r' :=
  h'.2 ⟨le_trans h.1.1 hx, h.1.2⟩

theorem firstFree_self {x : ℤ} (h : p x = false) : FirstFree p x x :=
  ⟨⟨le_rfl, h⟩, fun _ hn => hn.1⟩

theorem lastFree_self {x : ℤ} (h : p x = false) : LastFree p x x :=
  ⟨⟨le_rfl, h⟩, fun _ hn => hn.1⟩

/-- A blocked point does not change the first free point after it. -/
theorem FirstFree.step {x r : ℤ} (hx : p x = true) (h : FirstFree p (x + 1) r) :
    FirstFree p x r := by
  have hr : x + 1 ≤ r := h.1.1
  refine ⟨⟨by omega, h.1.2⟩, ?_⟩
  rintro n ⟨hn, hp⟩
  have hne : n ≠ x := by rintro rfl; simp [hx] at hp
  exact h.2 ⟨by omega, hp⟩

theorem LastFree.step {x r : ℤ} (hx : p x = true) (h : LastFree p (x - 1) r) :
    LastFree p x r := by
  have hr : r ≤ x - 1 := h.1.1
  refine ⟨⟨by omega, h.1.2⟩, ?_⟩
  rintro n ⟨hn, hp⟩
  have hne : n ≠ x := by rintro rfl; simp [hx] at hp
  exact h.2 ⟨by omega, hp⟩

/-- Everything between `x` and the first free point is blocked. -/
theorem FirstFree.blocked {x r n : ℤ} (h : FirstFree p x r) (hx : x ≤ n) (hn : n < r) :
    p n = true := by
  by_contra hp
  have := h.2 ⟨hx, by simpa using hp⟩
  omega

theorem LastFree.blocked {x r n : ℤ} (h : LastFree p x r) (hx : n ≤ x) (hn : r < n) :
    p n = true := by
  by_contra hp
  have := h.2 ⟨hx, by simpa using hp⟩
  omega

/-- The number of free points in `[x, b)`. -/
def freeIn (p : ℤ → Bool) (x b : ℤ) : ℕ := Nat.count (fun i => p (x + i) = false) (b - x).toNat

theorem freeIn_self (p : ℤ → Bool) (x : ℤ) : freeIn p x x = 0 := by simp [freeIn]

theorem freeIn_add {x y b : ℤ} (hxy : x ≤ y) (hyb : y ≤ b) :
    freeIn p x b = freeIn p x y + freeIn p y b := by
  unfold freeIn
  rw [show (b - x).toNat = (y - x).toNat + (b - y).toNat by omega, Nat.count_add]
  congr 2
  ext i
  rw [show x + ((y - x).toNat + i : ℕ) = y + i by push_cast; omega]

theorem freeIn_succ (p : ℤ → Bool) (x : ℤ) :
    freeIn p x (x + 1) = if p x = true then 0 else 1 := by
  unfold freeIn
  rw [show (x + 1 - x).toNat = 1 by omega, Nat.count_one]
  by_cases hp : p x = true <;> simp [hp]

theorem freeIn_pred {x b : ℤ} (h : x < b) :
    freeIn p x b = freeIn p x (b - 1) + if p (b - 1) = true then 0 else 1 := by
  have hlast := freeIn_succ p (b - 1)
  rw [show b - 1 + 1 = b by omega] at hlast
  rw [freeIn_add (y := b - 1) (by omega) (by omega), hlast]

/-- `x` is the `n`-th free point before `b`. -/
def NthBefore (p : ℤ → Bool) (n : ℕ) (b x : ℤ) : Prop := x < b ∧ p x = false ∧ freeIn p x b = n

theorem NthBefore.mono {n : ℕ} {b b' x x' : ℤ} (h : NthBefore p n b x) (h' : NthBefore p n b' x')
    (hb : b ≤ b') : x ≤ x' := by
  obtain ⟨hxb, -, hn⟩ := h
  obtain ⟨hxb', hfree, hn'⟩ := h'
  by_contra hlt
  -- then `[x', b')` has all the free points of `[x, b)` and `x'` besides
  have h1 := freeIn_add (p := p) (x := x') (y := x' + 1) (b := b') (by omega) (by omega)
  have h2 := freeIn_add (p := p) (x := x' + 1) (y := x) (b := b') (by omega) (by omega)
  have h3 := freeIn_add (p := p) (x := x) (y := b) (b := b') (by omega) hb
  have h4 := freeIn_succ p x'
  rw [if_neg (by simp [hfree])] at h4
  omega

/-- Going back over a blocked point counts nothing. -/
theorem NthBefore.step_blocked {n : ℕ} {b x : ℤ} (hb : p (b - 1) = true)
    (h : NthBefore p n (b - 1) x) : NthBefore p n b x := by
  obtain ⟨hx, hp, hn⟩ := h
  refine ⟨by omega, hp, ?_⟩
  rw [freeIn_pred (by omega), if_pos hb, hn, Nat.add_zero]

theorem NthBefore.step_free {n : ℕ} {b x : ℤ} (hb : p (b - 1) = false)
    (h : NthBefore p n (b - 1) x) : NthBefore p (n + 1) b x := by
  obtain ⟨hx, hp, hn⟩ := h
  refine ⟨by omega, hp, ?_⟩
  rw [freeIn_pred (by omega), if_neg (by simp [hb]), hn]

theorem nthBefore_one {b : ℤ} (hb : p (b - 1) = false) : NthBefore p 1 b (b - 1) := by
  refine ⟨by omega, hb, ?_⟩
  rw [freeIn_pred (by omega), if_neg (by simp [hb]), freeIn_self]

instance (p : ℤ → Bool) (n : ℕ) (b x : ℤ) : Decidable (NthBefore p n b x) :=
  inferInstanceAs (Decidable (_ ∧ _ ∧ _))

theorem NthBefore.unique {n : ℕ} {b x y : ℤ} (hx : NthBefore p n b x) (hy : NthBefore p n b y) :
    x = y :=
  le_antisymm (hx.mono hy le_rfl) (hy.mono hx le_rfl)

/-- The day before is blocked: it is the same point that is looked for. -/
theorem NthBefore.of_blocked {n : ℕ} {b x : ℤ} (hb : p (b - 1) = true) (h : NthBefore p n b x) :
    NthBefore p n (b - 1) x := by
  obtain ⟨hx, hp, hn⟩ := h
  rw [freeIn_pred hx, if_pos hb, Nat.add_zero] at hn
  have hne : x ≠ b - 1 := by
    rintro rfl
    rw [hp] at hb
    cases hb
  exact ⟨by omega, hp, hn⟩

theorem NthBefore.pos {n : ℕ} {b x : ℤ} (h : NthBefore p n b x) : 0 < n := by
  obtain ⟨hx, hp, rfl⟩ := h
  rw [freeIn_add (y := x + 1) (by omega) (by omega), freeIn_succ, if_neg (by simp [hp])]
  omega

/-- The day before is free: it is the first point, and the others come before it. -/
theorem NthBefore.of_free {n : ℕ} {b x : ℤ} (hb : p (b - 1) = false)
    (h : NthBefore p (n + 1) b x) :
    (n = 0 ∧ x = b - 1) ∨ (n ≠ 0 ∧ NthBefore p n (b - 1) x) := by
  obtain ⟨hx, hp, hn⟩ := h
  rw [freeIn_pred hx, if_neg (by simp [hb])] at hn
  by_cases hlast : x = b - 1
  · rw [hlast, freeIn_self] at hn
    exact Or.inl ⟨by omega, hlast⟩
  · have hrest : NthBefore p n (b - 1) x := ⟨by omega, hp, by omega⟩
    exact Or.inr ⟨hrest.pos.ne', hrest⟩

end Remind.Lib
