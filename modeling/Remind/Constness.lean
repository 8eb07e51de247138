import Remind.EvalSteps

/-!
# Constness — the nonconst flag of an evaluation, and what `const()` does to it

The flag ends up as the last report or the last `const()` left it.  `const()` clears it for the whole
expression: a report made before is lost unless another follows.
-/

namespace Remind

open Lib (Effects endState attempt bracket)

/-- The flag after these marks, the last one first. -/
def flagAfter (start : Bool) : List Mark → Bool
  | [] => start
  | .report _ :: _ => true
  | .cleared :: _ => false
  | .sub _ :: ms => flagAfter start ms

mutual

/-- A report was made outside the arguments of `const()` and `isconst()`, on this flag or on the
flag of an evaluation within. -/
def Mark.reported : Mark → Bool
  | .report outside => outside
  | .cleared => false
  | .sub ms => anyReported ms

def anyReported : List Mark → Bool
  | [] => false
  | m :: ms => m.reported || anyReported ms

end

/-- A report on this flag comes after every `const()` call that cleared it. -/
def ReportAfterConst (marks : List Mark) : Prop :=
  ∃ later outside earlier, marks = later ++ Mark.report outside :: earlier ∧ .cleared ∉ later

theorem flagAfter_append (start : Bool) (new old : List Mark) :
    flagAfter start (new ++ old) = flagAfter (flagAfter start old) new := by
  induction new with
  | nil => rfl
  | cons m new ih =>
    cases m with
    | report outside => rfl
    | cleared => rfl
    | sub ms => exact ih

/-- A flag that began as 0 is 1 exactly when no `const()` call returned after the last report. -/
theorem flagAfter_iff (marks : List Mark) :
    flagAfter false marks = true ↔ ReportAfterConst marks := by
  induction marks with
  | nil => simp [flagAfter, ReportAfterConst]
  | cons m ms ih =>
    cases m with
    | report outside => exact iff_of_true rfl ⟨[], outside, ms, rfl, by simp⟩
    | cleared =>
      refine iff_of_false (by simp [flagAfter]) ?_
      rintro ⟨later, outside, earlier, heq, hno⟩
      cases later with
      | nil => cases heq
      | cons m' later =>
        injection heq with hm
        exact hno (hm ▸ List.mem_cons_self)
    | sub inner =>
      change flagAfter false ms = true ↔ _
      rw [ih]
      constructor
      · rintro ⟨later, outside, earlier, rfl, hno⟩
        exact ⟨.sub inner :: later, outside, earlier, rfl, by simp [hno]⟩
      · rintro ⟨later, outside, earlier, heq, hno⟩
        cases later with
        | nil => cases heq
        | cons m' later =>
          injection heq with _ heq
          exact ⟨later, outside, earlier, heq, fun hin => hno (List.mem_cons_of_mem m' hin)⟩

/-- The marks made between two states account for what became of the flag. -/
structure FlagKept {σ : Type} (s s' : EvalState σ) : Prop where
  constArgs : s'.constArgs = s.constArgs
  marks : ∃ new, s'.marks = new ++ s.marks ∧ s'.nonconst = flagAfter s.nonconst new

section

variable {σ : Type}

theorem flagKept_of_same {s s' : EvalState σ} (hargs : s'.constArgs = s.constArgs)
    (hmarks : s'.marks = s.marks) (hflag : s'.nonconst = s.nonconst) : FlagKept s s' :=
  ⟨hargs, [], hmarks, hflag⟩

instance : Std.Refl (@FlagKept σ) := ⟨fun _ => flagKept_of_same rfl rfl rfl⟩

instance : IsTrans (EvalState σ) FlagKept where
  trans s s1 s2 h1 h2 := by
    obtain ⟨new1, hmarks1, hflag1⟩ := h1.marks
    obtain ⟨new2, hmarks2, hflag2⟩ := h2.marks
    refine ⟨h2.constArgs.trans h1.constArgs, new2 ++ new1, ?_, ?_⟩
    · rw [hmarks2, hmarks1, List.append_assoc]
    · rw [hflag2, hflag1, flagAfter_append]

variable {env : EvalEnv σ}

theorem fShell_flagKept (args : List Value) : Effects FlagKept (fShell env args) := by
  have hpopen : ∀ cmd maxlen, Effects FlagKept (popenRead env cmd maxlen) :=
    fun cmd maxlen s => flagKept_of_same rfl rfl rfl
  refine get_effects fun s => ite_effects (Effects.of_pure _) ?_
  split
  · exact hpopen _ _
  · exact hpopen _ _
  · exact Effects.of_pure _

theorem stepsKeep_flag : StepsKeep env FlagKept where
  plain s s' h := flagKept_of_same h.constArgs h.marks h.nonconst
  report := Effects.of_modify fun s => ⟨rfl, [.report (s.constArgs = 0)], rfl, rfl⟩
  clearFlag := Effects.of_modify fun s => ⟨rfl, [.cleared], rfl, rfl⟩
  shell := fShell_flagKept
  inConstArg α m hm := by
    refine Effects.of_bracket fun s => ?_
    exact ⟨rfl, (hm { s with constArgs := s.constArgs + 1 }).marks⟩
  ownFlag α start m hm := by
    -- the marks of the inner flag become one mark, which leaves the outer flag alone
    have hrun := Effects.of_bind (Effects.of_attempt hm) fun r =>
      get_effects fun s => Effects.of_pure (R := FlagKept) (ε := ErrCode) (r, s.nonconst)
    refine Effects.of_bracket fun s => ?_
    exact ⟨(hrun { s with nonconst := start, marks := [] }).constArgs, [.sub _], rfl, rfl⟩
  withRun α fr m _ hm := by
    refine Effects.of_bracket fun s => ?_
    exact ⟨(hm (enterFrame fr s)).constArgs, (hm (enterFrame fr s)).marks⟩

end

/-- The state in which an expression's evaluation begins: `*nonconst` is 0 and nothing is marked. -/
def EvalState.atTop {σ : Type} (s : EvalState σ) : EvalState σ where
  __ := s
  nonconst := false
  constArgs := 0
  marks := []

/-- `today() > const('2025-01-01')` -/
def todayAfterConst : Expr :=
  .binop (.compare .gt) (.builtin todayRow []) (.builtin constRow [.const (.date 12784)])

/-- `const('2025-01-01') < today()` -/
def constBeforeToday : Expr :=
  .binop (.compare .lt) (.builtin constRow [.const (.date 12784)]) (.builtin todayRow [])

end Remind
