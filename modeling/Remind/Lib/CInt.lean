import Mathlib.Data.Int.Order.Basic
import Mathlib.Tactic.Common

/-!
# Lib.CInt — the 32-bit `int` of C

An `int` operation that leaves the range is undefined.  `Traced` computes as a two's complement
machine does and keeps the exact value of every operation on the way, so that `Safe` says that no
operation left the range; a safe computation has computed with exact integers.
-/

namespace Remind.Lib

/-- `INT_MAX` -/
def intMax : ℤ := 2147483647

/-- `INT_MIN` -/
def intMin : ℤ := -2147483648

/-- The values of an `int`. -/
def InInt (n : ℤ) : Prop := intMin ≤ n ∧ n ≤ intMax

instance (n : ℤ) : Decidable (InInt n) := inferInstanceAs (Decidable (_ ∧ _))

theorem inInt_iff {n : ℤ} : InInt n ↔ -2147483648 ≤ n ∧ n ≤ 2147483647 := Iff.rfl

/-- The `int` with the bits of `n`. -/
def wrap (n : ℤ) : ℤ := (n + 2147483648) % 4294967296 - 2147483648

theorem wrap_inInt (n : ℤ) : InInt (wrap n) := by
  unfold wrap
  rw [inInt_iff]
  omega

theorem wrap_of_inInt {n : ℤ} (h : InInt n) : wrap n = n := by
  rw [inInt_iff] at h
  unfold wrap
  omega

theorem wrap_eq_self_iff {n : ℤ} : wrap n = n ↔ InInt n :=
  ⟨fun h => h ▸ wrap_inInt n, wrap_of_inInt⟩

/-- Bits to the left do not matter to a sum. -/
theorem wrap_add_wrap (a b : ℤ) : wrap (wrap a + b) = wrap (a + b) := by
  unfold wrap
  omega

theorem wrap_mul_wrap (a b : ℤ) : wrap (wrap a * b) = wrap (a * b) := by
  obtain ⟨k, hk⟩ : ∃ k, wrap a = a + 4294967296 * k := ⟨-((a + 2147483648) / 4294967296), by
    unfold wrap
    omega⟩
  rw [hk, Int.add_mul, Int.mul_assoc]
  unfold wrap
  omega

/-- A value and the exact results of the `int` operations that led to it. -/
structure Traced (α : Type) where
  val : α
  ints : List ℤ := []
  deriving Repr

namespace Traced

variable {α β : Type}

instance : Monad Traced where
  pure a := { val := a }
  bind x f := { val := (f x.val).val, ints := x.ints ++ (f x.val).ints }

/-- The result of an `int` operation whose exact value is `n`. -/
def cint (n : ℤ) : Traced ℤ := { val := wrap n, ints := [n] }

/-- No operation left the range. -/
def Safe (x : Traced α) : Prop := ∀ n ∈ x.ints, InInt n

instance (x : Traced α) : Decidable x.Safe := inferInstanceAs (Decidable (∀ n ∈ x.ints, InInt n))

-- not by `rfl` alone: a definitional step of `simp` would make the kernel compute `wrap`
@[simp] theorem val_pure (a : α) : (pure a : Traced α).val = a := by simp only [pure]

@[simp] theorem val_bind (x : Traced α) (f : α → Traced β) : (x >>= f).val = (f x.val).val := by
  simp only [bind]

@[simp] theorem val_cint (n : ℤ) : (cint n).val = wrap n := by rw [cint]

@[simp] theorem safe_pure (a : α) : (pure a : Traced α).Safe ↔ True := by
  simp [Safe, pure]

@[simp] theorem safe_cint (n : ℤ) : (cint n).Safe ↔ InInt n := by
  simp [Safe, cint]

@[simp] theorem safe_bind (x : Traced α) (f : α → Traced β) :
    (x >>= f).Safe ↔ x.Safe ∧ (f x.val).Safe := by
  simp only [Safe, bind, List.mem_append, or_imp, forall_and]

end Traced

end Remind.Lib
