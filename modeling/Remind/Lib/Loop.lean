import Mathlib.Order.Bounds.Basic
import Mathlib.Data.Int.Order.Basic
import Mathlib.Data.Nat.Find
import Mathlib.Tactic.Common

/-!
# Lib.Loop — fuelled `while` loops and least elements of integer sets

`whileFuel c f n s` runs `while (c s) s := f s` and gives `none` when the test has not failed
after `n` rounds.  A `some` result is therefore a real exit of the loop through its test.  The
rules below are the ones the calendar loops use: partial correctness from an invariant, total
correctness from an invariant and a variant, and the scan of an integer upwards or downwards to
the first point where a test holds.
-/

namespace Remind.Lib

variable {σ : Type*}

/-- `while (c s) s := f s`, for at most `n` tests. -/
def whileFuel (c : σ → Bool) (f : σ → σ) : ℕ → σ → Option σ
  | 0, _ => none
  | n + 1, s => if c s then whileFuel c f n (f s) else some s

variable {c : σ → Bool} {f : σ → σ}

theorem whileFuel_exit {s : σ} (n : ℕ) (h : c s = false) : whileFuel c f (n + 1) s = some s := by
  simp [whileFuel, h]

theorem whileFuel_step {s : σ} (n : ℕ) (h : c s = true) :
    whileFuel c f (n + 1) s = whileFuel c f n (f s) := by
  simp [whileFuel, h]

/-- Total correctness: an invariant kept by every round and a variant that every round lowers. -/
theorem whileFuel_total (I : σ → Prop) (μ : σ → ℕ)
    (hstep : ∀ s, I s → c s = true → I (f s) ∧ μ (f s) < μ s) {n : ℕ} {s : σ} (hI : I s)
    (hn : μ s < n) : ∃ r, whileFuel c f n s = some r ∧ I r ∧ c r = false := by
  induction n generalizing s with
  | zero => omega
  | succ n ih =>
    by_cases hc : c s = true
    · obtain ⟨hI', hμ⟩ := hstep s hI hc
      rw [whileFuel_step n hc]
      exact ih hI' (by omega)
    · have hc' : c s = false := by simpa using hc
      exact ⟨s, whileFuel_exit n hc', hI, hc'⟩

/-- More rounds do not change an exit. -/
theorem whileFuel_mono {n m : ℕ} {s r : σ} (h : whileFuel c f n s = some r) (hnm : n ≤ m) :
    whileFuel c f m s = some r := by
  induction n generalizing m s with
  | zero => cases h
  | succ n ih =>
    obtain ⟨m, rfl⟩ : ∃ m', m = m' + 1 := ⟨m - 1, by omega⟩
    by_cases hc : c s = true
    · rw [whileFuel_step n hc] at h
      rw [whileFuel_step m hc]
      exact ih h (by omega)
    · have hc' : c s = false := by simpa using hc
      rw [whileFuel_exit n hc'] at h
      rw [whileFuel_exit m hc', h]

/-- What every round keeps holds at the exit. -/
theorem whileFuel_invariant {I : σ → Prop} (hstep : ∀ s, I s → c s = true → I (f s)) {n : ℕ}
    {s r : σ} (hI : I s) (h : whileFuel c f n s = some r) : I r ∧ c r = false := by
  induction n generalizing s with
  | zero => cases h
  | succ n ih =>
    by_cases hc : c s = true
    · rw [whileFuel_step n hc] at h
      exact ih (hstep s hI hc) h
    · have hc' : c s = false := by simpa using hc
      rw [whileFuel_exit n hc'] at h
      cases h
      exact ⟨hI, hc'⟩

/-- Upward scan: if the test `p` first holds `k` steps above `x`, the loop `while (!p x) x++`
stops there. -/
theorem whileFuel_scanUp {p : ℤ → Bool} {x : ℤ} {k n : ℕ} (hk : p (x + k) = true)
    (hlt : ∀ j : ℕ, j < k → p (x + j) = false) (hn : k < n) :
    whileFuel (fun x => !p x) (fun x => x + 1) n x = some (x + k) := by
  induction k generalizing x n with
  | zero =>
    obtain ⟨n, rfl⟩ : ∃ n', n = n' + 1 := ⟨n - 1, by omega⟩
    simpa using whileFuel_exit (c := fun x => !p x) (f := fun x => x + 1) n (by simpa using hk)
  | succ k ih =>
    obtain ⟨n, rfl⟩ : ∃ n', n = n' + 1 := ⟨n - 1, by omega⟩
    have h0 : p x = false := by simpa using hlt 0 (by omega)
    rw [whileFuel_step n (by simp [h0]), ih (x := x + 1) ?_ ?_ (by omega)]
    · congr 1; push_cast; omega
    · rw [← hk]; congr 1; push_cast; omega
    · intro j hj
      rw [← hlt (j + 1) (by omega)]; congr 1; push_cast; omega

/-- If the test holds somewhere in the next `n` points, the upward scan stops at the least point
from `x` on where it holds. -/
theorem whileFuel_scanUp_isLeast {p : ℤ → Bool} {x : ℤ} {n : ℕ}
    (h : ∃ j : ℕ, j < n ∧ p (x + j) = true) :
    ∃ r, whileFuel (fun x => !p x) (fun x => x + 1) n x = some r ∧
      IsLeast {z | x ≤ z ∧ p z = true} r := by
  classical
  have hex : ∃ j : ℕ, p (x + j) = true := ⟨h.choose, h.choose_spec.2⟩
  have hlt : ∀ j : ℕ, j < Nat.find hex → p (x + j) = false := by
    intro j hj
    simpa using Nat.find_min hex hj
  have hfuel : Nat.find hex < n :=
    lt_of_le_of_lt (Nat.find_min' hex h.choose_spec.2) h.choose_spec.1
  refine ⟨x + Nat.find hex, whileFuel_scanUp (Nat.find_spec hex) hlt hfuel,
    ⟨show x ≤ x + (Nat.find hex : ℤ) by omega, Nat.find_spec hex⟩, ?_⟩
  rintro z ⟨hxz, hz⟩
  obtain ⟨k, rfl⟩ := Int.le.dest hxz
  have := Nat.find_min' hex (m := k) hz
  omega

end Remind.Lib
