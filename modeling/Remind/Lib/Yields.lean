import Mathlib.Tactic.Common

/-!
# Lib.Yields — computations whose value does not depend on their state

`Ends P a Q x`: from every state with `P`, the computation `x` returns `a` and leaves a state with
`Q`.  It compares a program that writes to a state it does not read with the pure program.
-/

namespace Remind.Lib

variable {S α β : Type} {P Q R : S → Prop}

def Ends (P : S → Prop) (a : α) (Q : S → Prop) (x : StateM S α) : Prop :=
  ∀ s, P s → (x s).1 = a ∧ Q (x s).2

/-- The computation returns `a` and keeps `P`. -/
def Yields (P : S → Prop) (a : α) (x : StateM S α) : Prop := Ends P a P x

theorem Ends.of_bind {a : α} {b : β} {x : StateM S α} {f : α → StateM S β} (hx : Ends P a Q x)
    (hf : Ends Q b R (f a)) : Ends P b R (x >>= f) := by
  intro s hs
  obtain ⟨hval, hkeep⟩ := hx s hs
  have hf := hf (x s).2 hkeep
  rw [← hval] at hf
  exact hf

theorem Yields.of_pure (a : α) : Yields P a (pure a : StateM S α) := fun _ hs => ⟨rfl, hs⟩

theorem Yields.of_bind {a : α} {b : β} {x : StateM S α} {f : α → StateM S β} (hx : Yields P a x)
    (hf : Yields P b (f a)) : Yields P b (x >>= f) :=
  Ends.of_bind hx hf

/-- The value alone. -/
theorem Yields.value {a : α} {x : StateM S α} (h : Yields (fun _ => True) a x) (s : S) :
    (x s).1 = a :=
  (h s trivial).1

/-- The state alone. -/
theorem Yields.state {a : α} {x : StateM S α} {s : S} (h : Yields (fun t => t = s) a x) :
    (x s).2 = s :=
  (h s rfl).2

end Remind.Lib
