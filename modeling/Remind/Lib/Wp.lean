import Remind.Lib.DepthGuard

/-!
# Wp — what a computation that may fail ends with

`Wp x Q E s`: run from `s`, the computation `x` returns a value and a state that satisfy `Q`, or it
fails with an error of `E`.
-/

namespace Remind.Lib

variable {ε σ α β : Type} {E : ε → Prop} {s : σ}

def Wp (x : EStateM ε σ α) (Q : α → σ → Prop) (E : ε → Prop) (s : σ) : Prop :=
  match x s with
  | .ok a t => Q a t
  | .error e _ => E e

@[simp] theorem wp_pure (a : α) (Q : α → σ → Prop) : Wp (pure a : EStateM ε σ α) Q E s ↔ Q a s :=
  Iff.rfl

@[simp] theorem wp_throw (e : ε) (Q : α → σ → Prop) :
    Wp (throw e : EStateM ε σ α) Q E s ↔ E e := Iff.rfl

@[simp] theorem wp_bind (x : EStateM ε σ α) (f : α → EStateM ε σ β) (Q : β → σ → Prop) :
    Wp (x >>= f) Q E s ↔ Wp x (fun a t => Wp (f a) Q E t) E s := by
  show Wp (EStateM.bind x f) Q E s ↔ _
  unfold Wp EStateM.bind
  cases x s <;> rfl

/-- A computation that goes on after it returned. -/
theorem bind_ok {x : EStateM ε σ α} {f : α → EStateM ε σ β} {a : α} {t : σ} (h : x s = .ok a t) :
    (x >>= f) s = f a t := by
  show EStateM.bind x f s = _
  rw [EStateM.bind, h]

/-- A computation that fails does not go on. -/
theorem bind_error {x : EStateM ε σ α} {f : α → EStateM ε σ β} {e : ε} {t : σ}
    (h : x s = .error e t) : (x >>= f) s = .error e t := by
  show EStateM.bind x f s = _
  rw [EStateM.bind, h]

/-- A computation that returned in the end returned in the middle. -/
theorem bind_eq_ok {x : EStateM ε σ α} {f : α → EStateM ε σ β} {b : β} {t' : σ}
    (h : (x >>= f) s = .ok b t') : ∃ a t, x s = .ok a t ∧ f a t = .ok b t' := by
  cases hx : x s with
  | ok a t => exact ⟨a, t, rfl, (bind_ok hx).symm.trans h⟩
  | error e t =>
    cases (bind_error hx).symm.trans h

theorem wp_ite {p : Prop} [Decidable p] (x y : EStateM ε σ α) (Q : α → σ → Prop) :
    Wp (if p then x else y) Q E s ↔ (p → Wp x Q E s) ∧ (¬ p → Wp y Q E s) := by
  by_cases hp : p <;> simp [hp]

/-- What a computation ends with may be weakened. -/
theorem Wp.mono {x : EStateM ε σ α} {Q Q' : α → σ → Prop} (h : Wp x Q E s)
    (hQ : ∀ a t, Q a t → Q' a t) : Wp x Q' E s := by
  unfold Wp at *
  cases hx : x s with
  | ok a t =>
    rw [hx] at h
    exact hQ a t h
  | error e t =>
    rw [hx] at h
    exact h

theorem wp_unmarked {s : Marked σ} (x : EStateM ε σ α) (Q : α → Marked σ → Prop) :
    Wp (unmarked x) Q E s ↔ Wp x (fun a r => Q a { s with rest := r }) E s.rest := by
  unfold Wp unmarked
  cases x s.rest <;> rfl

/-- The check of a level fails with `tooDeep` only, and only where there is a limit. -/
theorem wp_checkDepth {s : Marked σ} {tooDeep : ε} {max : Option ℕ} {level : ℕ}
    {Q : Unit → Marked σ → Prop} (herr : max ≠ none → E tooDeep)
    (hQ : ∀ h, Q () { s with highWater := h }) : Wp (checkDepth tooDeep max level) Q E s := by
  unfold Wp checkDepth
  by_cases hl : level > s.highWater
  · cases max with
    | none =>
      simp only [if_pos hl]
      exact hQ level
    | some m =>
      by_cases hm : level > m
      · simp only [if_pos hl, if_pos hm]
        exact herr nofun
      · simp only [if_pos hl, if_neg hm]
        exact hQ level
  · simp only [if_neg hl]
    exact hQ s.highWater

theorem wp_checkDepth_none {tooDeep : ε} {level h : ℕ} {r : σ} {Q : Unit → Marked σ → Prop} :
    Wp (checkDepth tooDeep none level) Q E ⟨r, h⟩ ↔ Q () ⟨r, max h level⟩ := by
  unfold Wp
  rw [checkDepth_none]

theorem Wp.of_ok {x : EStateM ε σ α} {Q : α → σ → Prop} {a : α} {t : σ} (hx : x s = .ok a t)
    (hQ : Q a t) : Wp x Q E s := by
  unfold Wp
  rw [hx]
  exact hQ

theorem Wp.ok {x : EStateM ε σ α} {Q : α → σ → Prop} {a : α} {t : σ} (h : Wp x Q E s)
    (hx : x s = .ok a t) : Q a t := by
  unfold Wp at h
  rwa [hx] at h

/-- An outcome that is pinned down is the outcome. -/
theorem Wp.eq_ok {x : EStateM ε σ α} {b : α} {t : σ}
    (h : Wp x (fun a t' => a = b ∧ t' = t) (fun _ => False) s) : x s = .ok b t := by
  unfold Wp at h
  cases hx : x s with
  | ok a t' =>
    rw [hx] at h
    rw [h.1, h.2]
  | error e t' =>
    rw [hx] at h
    exact h.elim

/-! ### Computations that return the same -/

/-- The two computations return the same, wherever one of them returns. -/
def OkEq (x y : EStateM ε σ α) : Prop := ∀ s a s', x s = .ok a s' ↔ y s = .ok a s'

theorem OkEq.refl (x : EStateM ε σ α) : OkEq x x := fun _ _ _ => Iff.rfl

theorem bind_eq_ok_iff {x : EStateM ε σ α} {f : α → EStateM ε σ β} {s s' : σ} {b : β} :
    (x >>= f) s = .ok b s' ↔ ∃ a t, x s = .ok a t ∧ f a t = .ok b s' := by
  constructor
  · exact bind_eq_ok
  · rintro ⟨a, t, hx, hf⟩
    rw [bind_ok hx, hf]

theorem OkEq.trans {x y z : EStateM ε σ α} (h : OkEq x y) (h' : OkEq y z) : OkEq x z :=
  fun s a s' => (h s a s').trans (h' s a s')

theorem OkEq.bind {x y : EStateM ε σ α} {f g : α → EStateM ε σ β} (hx : OkEq x y)
    (hf : ∀ a, OkEq (f a) (g a)) : OkEq (x >>= f) (y >>= g) := by
  intro s b s'
  simp only [bind_eq_ok_iff, hx s, (hf _) _ b s']

/-- A computation that fails in the end may fail at once. -/
theorem okEq_throw (e e' : ε) (x : EStateM ε σ α) :
    OkEq (throw e : EStateM ε σ β) (x >>= fun _ => throw e') := by
  intro s b s'
  rw [bind_eq_ok_iff]
  exact ⟨nofun, fun ⟨_, _, _, h⟩ => nomatch h⟩

theorem okEq_throw_bind (e e' : ε) (f : β → EStateM ε σ α) :
    OkEq (throw e : EStateM ε σ α) (throw e' >>= f) := by
  intro s a s'
  rw [bind_eq_ok_iff]
  exact ⟨nofun, fun ⟨_, _, h, _⟩ => nomatch h⟩

end Remind.Lib
