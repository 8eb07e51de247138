import Mathlib.Data.List.Basic

/-!
# Lib.Trace — runs of steps that may have a label

`Trace step s es t`: steps lead from `s` to `t`, and `es` are the labels of those that have one.
-/

namespace Remind.Lib

variable {σ ε : Type} {step : σ → Option ε → σ → Prop} {s t u : σ} {es fs : List ε}

inductive Trace (step : σ → Option ε → σ → Prop) : σ → List ε → σ → Prop
  | nil (s : σ) : Trace step s [] s
  | cons {s t u : σ} {e : Option ε} {es : List ε} :
      step s e t → Trace step t es u → Trace step s (e.toList ++ es) u

theorem Trace.trans (h1 : Trace step s es t) (h2 : Trace step t fs u) :
    Trace step s (es ++ fs) u := by
  induction h1 with
  | nil => exact h2
  | cons hstep _ ih =>
    rw [List.append_assoc]
    exact .cons hstep (ih h2)

/-- A step without a label before a run. -/
theorem Trace.silent (hstep : step s none t) (h : Trace step t es u) : Trace step s es u :=
  .cons hstep h

/-- A step with a label before a run. -/
theorem Trace.label {e : ε} (hstep : step s (some e) t) (h : Trace step t es u) :
    Trace step s (e :: es) u :=
  .cons hstep h

/-- What each step takes from its end back to its start is taken back along a run. -/
theorem Trace.backward {P : σ → List ε → Prop}
    (hstep : ∀ s e t fs, step s e t → P t fs → P s (e.toList ++ fs))
    (h : Trace step s es t) (ht : P t fs) : P s (es ++ fs) := by
  induction h with
  | nil => exact ht
  | cons hfirst _ ih =>
    rw [List.append_assoc]
    exact hstep _ _ _ _ hfirst (ih ht)

end Remind.Lib
