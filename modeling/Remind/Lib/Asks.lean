import Mathlib.Tactic.Common

/-!
# Lib.Asks — the questions a computation asks

A computation that may ask questions notes them in its state.  `Asks good a P x`: the computation
returns `a`, and `P` says that all the questions it asks are good ones.
-/

namespace Remind.Lib

variable {ι α β : Type} {good : ι → Prop} {P Q : Prop}

def Asks (good : ι → Prop) (a : α) (P : Prop) (x : StateM (List ι) α) : Prop :=
  ∀ noted, (x noted).1 = a ∧ ((∀ n ∈ (x noted).2, good n) ↔ (∀ n ∈ noted, good n) ∧ P)

/-- A question with its answer. -/
def ask (n : ι) (a : α) : StateM (List ι) α := fun noted => (a, noted ++ [n])

theorem asks_ask (n : ι) (a : α) : Asks good a (good n) (ask n a) := fun noted => by
  refine ⟨rfl, ?_⟩
  show (∀ m ∈ noted ++ [n], good m) ↔ _
  simp only [List.forall_mem_append, List.forall_mem_singleton]

theorem Asks.of_pure (a : α) : Asks good a True (pure a) := fun _ => ⟨rfl, (iff_of_eq (and_true _)).symm⟩

theorem Asks.of_bind {a : α} {b : β} {x : StateM (List ι) α} {f : α → StateM (List ι) β}
    (hx : Asks good a P x) (hf : Asks good b Q (f a)) : Asks good b (P ∧ Q) (x >>= f) := by
  intro noted
  obtain ⟨hval, hgood⟩ := hx noted
  have hf := hf (x noted).2
  rw [hgood, and_assoc] at hf
  rw [← hval] at hf
  exact hf

theorem Asks.congr {a : α} {x : StateM (List ι) α} (h : Asks good a P x) (hPQ : P ↔ Q) :
    Asks good a Q x := fun noted => ⟨(h noted).1, (h noted).2.trans (and_congr_right fun _ => hPQ)⟩

/-- From the start, with nothing noted. -/
theorem Asks.run {a : α} {x : StateM (List ι) α} (h : Asks good a P x) :
    (x []).1 = a ∧ ((∀ n ∈ (x []).2, good n) ↔ P) :=
  ⟨(h []).1, (h []).2.trans (and_iff_right fun _ hn => absurd hn List.not_mem_nil)⟩

end Remind.Lib
