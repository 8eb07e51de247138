import Mathlib.Data.List.Basic

/-!
# Lib.Emits — machines that write in every step

`runFor step n s` takes `n` steps from `s` and returns what was written with the state they end in.
The rules carry an invariant along a run, say something of all that is written, and order it.
-/

namespace Remind.Lib

variable {σ ε : Type}

/-- `n` steps. -/
def runFor (step : σ → List ε × σ) : ℕ → σ → List ε × σ
  | 0, s => ([], s)
  | n + 1, s =>
    let (es, t) := step s
    let (fs, u) := runFor step n t
    (es ++ fs, u)

variable {step : σ → List ε × σ} {s : σ} {I : σ → Prop}

theorem runFor_succ (n : ℕ) (s : σ) : runFor step (n + 1) s =
    ((step s).1 ++ (runFor step n (step s).2).1, (runFor step n (step s).2).2) := rfl

/-- A part of what is written is what a machine writes that writes that part. -/
theorem runFor_filterMap {φ : Type} (f : ε → Option φ) (n : ℕ) (s : σ) :
    runFor (fun s => ((step s).1.filterMap f, (step s).2)) n s =
      ((runFor step n s).1.filterMap f, (runFor step n s).2) := by
  induction n generalizing s with
  | zero => rfl
  | succ n ih => rw [runFor_succ, runFor_succ, ih, List.filterMap_append]

theorem runFor_inv (hstep : ∀ s, I s → I (step s).2) (n : ℕ) (h : I s) :
    I (runFor step n s).2 := by
  induction n generalizing s with
  | zero => exact h
  | succ n ih => exact ih (hstep s h)

/-- What is written satisfies `R` of the state the run begins in, if it does so in one step and `R`
of the state behind the step is as strong. -/
theorem runFor_forall {R : σ → ε → Prop} (hinv : ∀ s, I s → I (step s).2)
    (hstep : ∀ s, I s → ∀ e ∈ (step s).1, R s e)
    (hback : ∀ s, I s → ∀ e, R (step s).2 e → R s e) (n : ℕ) (h : I s) :
    ∀ e ∈ (runFor step n s).1, R s e := by
  induction n generalizing s with
  | zero => exact fun e he => absurd he List.not_mem_nil
  | succ n ih =>
    intro e he
    rw [runFor_succ, List.mem_append] at he
    rcases he with he | he
    · exact hstep s h e he
    · exact hback s h e (ih (hinv s h) e he)

/-- What is written is in order, if it is so in one step, and all of `R` behind a step comes after
what the step writes. -/
theorem runFor_pairwise {R : σ → ε → Prop} {S : ε → ε → Prop} (hinv : ∀ s, I s → I (step s).2)
    (hstep : ∀ s, I s → ∀ e ∈ (step s).1, R s e)
    (hback : ∀ s, I s → ∀ e, R (step s).2 e → R s e)
    (horder : ∀ s, I s → (step s).1.Pairwise S)
    (hafter : ∀ s, I s → ∀ e ∈ (step s).1, ∀ f, R (step s).2 f → S e f) (n : ℕ) (h : I s) :
    (runFor step n s).1.Pairwise S := by
  induction n generalizing s with
  | zero => exact .nil
  | succ n ih =>
    rw [runFor_succ]
    refine List.pairwise_append.mpr ⟨horder s h, ih (hinv s h), fun e he f hf => ?_⟩
    exact hafter s h e he f (runFor_forall hinv hstep hback n (hinv s h) f hf)

/-- What holds of the state and what is written, or of the state to come, holds of a run: `P` of a
state is left only with `Q` of something written. -/
theorem runFor_until {P : σ → Prop} {Q : ε → Prop} (hinv : ∀ s, I s → I (step s).2)
    (hstep : ∀ s, I s → P s → P (step s).2 ∨ ∃ e ∈ (step s).1, Q e) (n : ℕ) (h : I s) (hP : P s) :
    P (runFor step n s).2 ∨ ∃ e ∈ (runFor step n s).1, Q e := by
  induction n generalizing s with
  | zero => exact .inl hP
  | succ n ih =>
    rw [runFor_succ]
    rcases hstep s h hP with hnext | ⟨e, he, hQ⟩
    · rcases ih (hinv s h) hnext with hlast | ⟨e, he, hQ⟩
      · exact .inl hlast
      · exact .inr ⟨e, List.mem_append_right _ he, hQ⟩
    · exact .inr ⟨e, List.mem_append_left _ he, hQ⟩

end Remind.Lib
