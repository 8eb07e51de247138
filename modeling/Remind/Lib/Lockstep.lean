import Mathlib.Tactic.Common

/-!
# Lockstep — two computations that end alike

`Lockstep R Q x y`: from states that `R` relates, `x` and `y` fail with the same error, or they
return values that `Q` relates in states that `R` relates.
-/

namespace Remind.Lib

universe u

variable {ε σ τ α β α' β' : Type u} {R : σ → τ → Prop} {Q Q' : α → β → Prop}

/-- Two outcomes that are alike. -/
inductive AlikeOutcomes (R : σ → τ → Prop) (Q : α → β → Prop) :
    EStateM.Result ε σ α → EStateM.Result ε τ β → Prop
  | ok {a b s t} : Q a b → R s t → AlikeOutcomes R Q (.ok a s) (.ok b t)
  | error {e s t} : AlikeOutcomes R Q (.error e s) (.error e t)

def Lockstep (R : σ → τ → Prop) (Q : α → β → Prop) (x : EStateM ε σ α) (y : EStateM ε τ β) :
    Prop :=
  ∀ s t, R s t → AlikeOutcomes R Q (x s) (y t)

theorem Lockstep.of_pure {a : α} {b : β} (h : Q a b) :
    Lockstep R Q (pure a : EStateM ε σ α) (pure b) := fun _ _ hR => .ok h hR

theorem Lockstep.of_throw (e : ε) :
    Lockstep R Q (throw e : EStateM ε σ α) (throw e : EStateM ε τ β) := fun _ _ _ => .error

/-- The rule for one pair of states, where the first outcome is known. -/
theorem AlikeOutcomes.bind {x : EStateM ε σ α} {y : EStateM ε τ β} {f : α → EStateM ε σ α'}
    {g : β → EStateM ε τ β'} {P : α' → β' → Prop} {s : σ} {t : τ}
    (hx : AlikeOutcomes R Q (x s) (y t))
    (hf : ∀ a b s' t', x s = .ok a s' → Q a b → R s' t' → AlikeOutcomes R P (f a s') (g b t')) :
    AlikeOutcomes R P ((x >>= f) s) ((y >>= g) t) := by
  show AlikeOutcomes R P (EStateM.bind x f s) (EStateM.bind y g t)
  unfold EStateM.bind
  generalize x s = outcome at hx hf
  generalize y t = outcome' at hx
  cases hx with
  | ok hQ hR => exact hf _ _ _ _ rfl hQ hR
  | error => exact .error

theorem Lockstep.bind {x : EStateM ε σ α} {y : EStateM ε τ β} {f : α → EStateM ε σ α'}
    {g : β → EStateM ε τ β'} {P : α' → β' → Prop} (hx : Lockstep R Q x y)
    (hf : ∀ a b, Q a b → Lockstep R P (f a) (g b)) : Lockstep R P (x >>= f) (y >>= g) :=
  fun s t hR => (hx s t hR).bind fun a b s' t' _ hQ hR' => hf a b hQ s' t' hR'

/-- What the two outcomes have in common may be weakened. -/
theorem AlikeOutcomes.mono {R' : σ → τ → Prop} {o : EStateM.Result ε σ α}
    {o' : EStateM.Result ε τ β} (h : AlikeOutcomes R Q o o') (hR : ∀ s t, R s t → R' s t)
    (hQ : ∀ a b, Q a b → Q' a b) : AlikeOutcomes R' Q' o o' := by
  cases h with
  | ok hab hst => exact .ok (hQ _ _ hab) (hR _ _ hst)
  | error => exact .error

/-- A computation is in lockstep with itself. -/
theorem Lockstep.refl (x : EStateM ε σ α) : Lockstep Eq Eq x x := by
  rintro s _ rfl
  cases x s with
  | ok a s' => exact .ok rfl rfl
  | error e s' => exact .error

/-- A look at the state on one side. -/
theorem Lockstep.of_look {x : EStateM ε σ α} {z : EStateM ε τ β'} {g : β' → EStateM ε τ β}
    (hz : ∀ t, ∃ c, z t = .ok c t) (hg : ∀ c, Lockstep R Q x (g c)) :
    Lockstep R Q x (z >>= g) := by
  intro s t hR
  obtain ⟨c, hc⟩ := hz t
  have hbind : (z >>= g) t = g c t := by
    show EStateM.bind z g t = _
    rw [EStateM.bind, hc]
  rw [hbind]
  exact hg c s t hR

theorem Lockstep.ite {p q : Prop} [Decidable p] [Decidable q] {x x' : EStateM ε σ α}
    {y y' : EStateM ε τ β} (hpq : p ↔ q) (hx : p → Lockstep R Q x y)
    (hx' : ¬ p → Lockstep R Q x' y') :
    Lockstep R Q (if p then x else x') (if q then y else y') := by
  by_cases hp : p
  · rw [if_pos hp, if_pos (hpq.1 hp)]
    exact hx hp
  · rw [if_neg hp, if_neg (mt hpq.2 hp)]
    exact hx' hp

end Remind.Lib
