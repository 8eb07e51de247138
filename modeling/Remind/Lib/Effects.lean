import Mathlib.Logic.Relation

/-!
# Effects — what a computation may do to its state

`Effects R m`: run from any state, `m` ends in a state related to it by `R`, whether it returns or
fails.  For a reflexive and transitive `R` the rules follow the way the computation is put together.
-/

namespace Remind.Lib

universe u

variable {ε S : Type u} {α β : Type u}

/-- The state a computation ends in. -/
def endState : EStateM.Result ε S α → S
  | .ok _ s => s
  | .error _ s => s

@[simp] theorem endState_ok (a : α) (s : S) :
    endState (EStateM.Result.ok a s : EStateM.Result ε S α) = s := rfl

@[simp] theorem endState_error (e : ε) (s : S) :
    endState (EStateM.Result.error e s : EStateM.Result ε S α) = s := rfl

def Effects (R : S → S → Prop) (m : EStateM ε S α) : Prop := ∀ s, R s (endState (m s))

/-- The result of a computation as a value: this one does not fail. -/
def attempt (m : EStateM ε S α) : EStateM ε S (Except ε α) := fun s =>
  match m s with
  | .ok a s' => .ok (.ok a) s'
  | .error e s' => .ok (.error e) s'

theorem endState_attempt (m : EStateM ε S α) (s : S) : endState (attempt m s) = endState (m s) := by
  unfold attempt
  cases m s <;> rfl

/-- Run `m` from `enter s`; whatever becomes of it, `leave s` has the last word on the state. -/
def bracket (enter : S → S) (leave : S → S → S) (m : EStateM ε S α) : EStateM ε S α := fun s =>
  match m (enter s) with
  | .ok a s' => .ok a (leave s s')
  | .error e s' => .error e (leave s s')

theorem endState_bracket (enter : S → S) (leave : S → S → S) (m : EStateM ε S α) (s : S) :
    endState (bracket enter leave m s) = leave s (endState (m (enter s))) := by
  unfold bracket
  cases m (enter s) <;> rfl

namespace Effects

variable {R : S → S → Prop}

section

variable [Std.Refl R]

theorem of_pure (a : α) : Effects R (pure a : EStateM ε S α) := fun s => Std.Refl.refl s

theorem of_throw (e : ε) : Effects R (throw e : EStateM ε S α) := fun s => Std.Refl.refl s

theorem of_get : Effects R (get : EStateM ε S S) := fun s => Std.Refl.refl s

end

theorem of_modify {f : S → S} (h : ∀ s, R s (f s)) : Effects R (modify f : EStateM ε S PUnit) := h

theorem of_attempt {m : EStateM ε S α} (h : Effects R m) : Effects R (attempt m) := by
  intro s
  rw [endState_attempt]
  exact h s

theorem of_bracket {enter : S → S} {leave : S → S → S} {m : EStateM ε S α}
    (h : ∀ s, R s (leave s (endState (m (enter s))))) : Effects R (bracket enter leave m) := by
  intro s
  rw [endState_bracket]
  exact h s

section

variable [IsTrans S R]

theorem of_bind {m : EStateM ε S α} {f : α → EStateM ε S β} (hm : Effects R m)
    (hf : ∀ a, Effects R (f a)) : Effects R (m >>= f) := by
  intro s
  have h1 := hm s
  change R s (endState (EStateM.bind m f s))
  unfold EStateM.bind
  cases hres : m s with
  | ok a s' =>
    rw [hres] at h1
    exact IsTrans.trans _ _ _ h1 (hf a s')
  | error e s' =>
    rw [hres] at h1
    exact h1

/-- The state of a failed computation is kept. -/
theorem of_tryCatch {m : EStateM ε S α} {handle : ε → EStateM ε S α} (hm : Effects R m)
    (hh : ∀ e, Effects R (handle e)) : Effects R (tryCatch m handle) := by
  intro s
  have h1 := hm s
  change R s (endState (EStateM.tryCatch m handle s))
  unfold EStateM.tryCatch
  cases hres : m s with
  | ok a s' =>
    rw [hres] at h1
    exact h1
  | error e s' =>
    rw [hres] at h1
    exact IsTrans.trans _ _ _ h1 (hh e s')

end

end Effects

end Remind.Lib
