import Remind.EvalSteps
import Remind.UserFns

/-!
# RunGuard — RUN stays disabled during an evaluation

An evaluation leaves `RunDisabled` as it found it, and meanwhile only ever adds bits to it.  So
`popen` is called with `RunDisabled` at 0 only: never inside `eval()`, `ordx()` or a function whose
FSET was executed while RUN was disabled, whatever happened to that function since.
-/

namespace Remind

open Lib (Effects endState attempt bracket)

/-- Inside this, no command may be run. -/
def Frame.Guarded : Frame → Prop
  | .userFunc f => f.fsetRun ≠ 0
  | _ => True

/-- What may happen to `RunDisabled` and the shell after `s`: the bits of `s` are in every value it is
given, and `popen` needs all of them to be 0, also those of the frames entered meanwhile. -/
def Allowed {σ : Type} (s : EvalState σ) : RunEvent → Prop
  | .assign v => s.runDisabled &&& v = s.runDisabled
  | .popen frames =>
    s.runDisabled = 0 ∧ ∃ inner, frames = inner ++ s.frames ∧ ∀ fr ∈ inner, ¬ fr.Guarded

structure RunKept {σ : Type} (s s' : EvalState σ) : Prop where
  runDisabled : s'.runDisabled = s.runDisabled
  frames : s'.frames = s.frames
  events : ∃ new, s'.events = new ++ s.events ∧ ∀ ev ∈ new, Allowed s ev

section

variable {σ : Type}

theorem allowed_congr {s t : EvalState σ} (hrun : t.runDisabled = s.runDisabled)
    (hframes : t.frames = s.frames) (ev : RunEvent) : Allowed t ev ↔ Allowed s ev := by
  cases ev <;> simp [Allowed, hrun, hframes]

theorem runKept_of_same {s s' : EvalState σ} (hrun : s'.runDisabled = s.runDisabled)
    (hframes : s'.frames = s.frames) (hevents : s'.events = s.events) : RunKept s s' :=
  ⟨hrun, hframes, [], hevents, by simp⟩

instance : Std.Refl (@RunKept σ) := ⟨fun _ => runKept_of_same rfl rfl rfl⟩

instance : IsTrans (EvalState σ) RunKept where
  trans s s1 s2 h1 h2 := by
    obtain ⟨new1, hev1, hall1⟩ := h1.events
    obtain ⟨new2, hev2, hall2⟩ := h2.events
    refine ⟨h2.runDisabled.trans h1.runDisabled, h2.frames.trans h1.frames, new2 ++ new1, ?_, ?_⟩
    · rw [hev2, hev1, List.append_assoc]
    · intro ev hev
      rcases List.mem_append.mp hev with hev | hev
      · exact (allowed_congr h1.runDisabled h1.frames ev).mp (hall2 ev hev)
      · exact hall1 ev hev

/-- A guarded frame sets a bit. -/
theorem Frame.not_guarded_of_bits {fr : Frame}
    (hfr : ∀ f, fr = .userFunc f → f.fsetRun ≠ 0 → f.runDisabled = true) (h : fr.bits = 0) :
    ¬ fr.Guarded := by
  cases fr with
  | eval => exact absurd h (by decide)
  | ordx => exact absurd h (by decide)
  | callback => exact absurd h (by decide)
  | userFunc f =>
    intro hg
    rw [Frame.bits, if_pos (hfr f rfl hg)] at h
    exact absurd h (by decide)

theorem and_or_absorb (a b : BitVec 32) : a &&& (a ||| b) = a := by
  ext i
  simp only [BitVec.getElem_and, BitVec.getElem_or]
  grind

/-- What is allowed inside a frame is allowed outside of it. -/
theorem Allowed.of_inside {s : EvalState σ} {fr : Frame}
    (hfr : ∀ f, fr = .userFunc f → f.fsetRun ≠ 0 → f.runDisabled = true) {ev : RunEvent}
    (h : Allowed (enterFrame fr s) ev) : Allowed s ev := by
  cases ev with
  | assign v =>
    have h : (s.runDisabled ||| fr.bits) &&& v = s.runDisabled ||| fr.bits := h
    calc s.runDisabled &&& v
        = s.runDisabled &&& (s.runDisabled ||| fr.bits) &&& v := by rw [and_or_absorb]
      _ = s.runDisabled &&& ((s.runDisabled ||| fr.bits) &&& v) := BitVec.and_assoc ..
      _ = s.runDisabled := by rw [h, and_or_absorb]
  | popen frames =>
    obtain ⟨hzero, inner, hframes, hinner⟩ := h
    have hframes : frames = inner ++ fr :: s.frames := hframes
    obtain ⟨hs, hbits⟩ := BitVec.or_eq_zero_iff.mp hzero
    refine ⟨hs, inner ++ [fr], by simp [hframes], fun fr' hfr' => ?_⟩
    rcases List.mem_append.mp hfr' with hfr' | hfr'
    · exact hinner fr' hfr'
    · rw [List.mem_singleton.mp hfr']
      exact Frame.not_guarded_of_bits hfr hbits

variable {env : EvalEnv σ}

theorem fShell_runKept (args : List Value) : Effects RunKept (fShell env args) := by
  intro s
  have hpopen : s.runDisabled = 0 → ∀ cmd maxlen,
      RunKept s (endState (popenRead env cmd maxlen s)) := by
    intro hs cmd maxlen
    refine ⟨rfl, rfl, [.popen s.frames], rfl, fun ev hev => ?_⟩
    rw [List.mem_singleton.mp hev]
    exact ⟨hs, [], rfl, by simp⟩
  change RunKept s (endState ((if s.runDisabled ≠ 0 then _ else _ : EvalM σ _) s))
  split_ifs with hs
  · exact Std.Refl.refl s
  · split
    · exact hpopen (not_not.mp hs) _ _
    · exact hpopen (not_not.mp hs) _ _
    · exact Std.Refl.refl s

theorem withRun_runKept {α : Type} {fr : Frame} {m : EvalM σ α}
    (hfr : ∀ f, fr = .userFunc f → f.fsetRun ≠ 0 → f.runDisabled = true)
    (hm : Effects RunKept m) : Effects RunKept (withRun fr m) := by
  refine Effects.of_bracket fun s => ?_
  obtain ⟨new, hev, hall⟩ := (hm (enterFrame fr s)).events
  refine ⟨rfl, rfl, .assign s.runDisabled :: new ++ [RunEvent.assign (s.runDisabled ||| fr.bits)], ?_, ?_⟩
  · change _ :: (endState (m (enterFrame fr s))).events = _
    rw [hev, List.append_assoc]
    rfl
  · intro ev hev'
    rcases List.mem_append.mp hev' with hev' | hev'
    · rcases List.mem_cons.mp hev' with rfl | hev'
      · exact BitVec.and_self
      · exact Allowed.of_inside hfr (hall ev hev')
    · rw [List.mem_singleton.mp hev']
      exact and_or_absorb s.runDisabled fr.bits

/-- Only entering and leaving a frame touches `RunDisabled`, only `shell()` calls `popen`. -/
theorem stepsKeep_run
    (hfuncs : ∀ name f, env.funcs name = some f → f.fsetRun ≠ 0 → f.runDisabled = true) :
    StepsKeep env RunKept where
  plain s s' h := runKept_of_same h.runDisabled h.frames h.events
  report := Effects.of_modify fun s => runKept_of_same rfl rfl rfl
  clearFlag := Effects.of_modify fun s => runKept_of_same rfl rfl rfl
  shell := fShell_runKept
  inConstArg α m hm := by
    refine Effects.of_bracket fun s => ?_
    exact ⟨(hm _).runDisabled, (hm _).frames, (hm _).events⟩
  ownFlag α start m hm := by
    have hrun := Effects.of_bind (Effects.of_attempt hm) fun r =>
      get_effects fun s => Effects.of_pure (R := RunKept) (ε := ErrCode) (r, s.nonconst)
    refine Effects.of_bracket fun s => ?_
    exact ⟨(hrun _).runDisabled, (hrun _).frames, (hrun _).events⟩
  withRun α fr m hfr hm := by
    refine withRun_runKept (fun f hf => ?_) hm
    obtain ⟨name, hname⟩ := hfr f hf
    exact hfuncs name f hname

end

theorem lasting_runDisabled : Lasting fun f => f.runDisabled = decide (f.fsetRun ≠ 0) where
  renamed _ _ h := h
  impure _ h := h
  pushed _ h := h

/-- After any commands, a function's `run_disabled` says whether RUN was disabled at its FSET. -/
theorem runDisabled_iff_fsetRun (isBuiltin : List Char → Bool) (cmds : List FuncCmd)
    {name : List Char} {f : UserFunc}
    (hf : (FuncState.init.run isBuiltin cmds).funcs.findUserFunc name = some f) :
    f.runDisabled = decide (f.fsetRun ≠ 0) := by
  have hinit : FuncState.init.All fun f => f.runDisabled = decide (f.fsetRun ≠ 0) :=
    ⟨FuncTable.all_init, by simp [FuncState.init]⟩
  exact (run_all lasting_runDisabled (fun _ _ _ _ _ => rfl) hinit cmds).funcs.find hf

/-- With the user functions that any commands have left, an evaluation gives `RunDisabled` back as it
was, at no point lacks a bit that it had at the start, and calls `popen` only if it was 0 at the
start and nothing guarded has been entered since. -/
theorem evaluation_keeps_runDisabled {σ : Type} (env : EvalEnv σ) (isBuiltin : List Char → Bool)
    (cmds : List FuncCmd) (level : ℕ) (e : Expr) (locals : List Value) (s : EvalState σ) :
    let funcs := (FuncState.init.run isBuiltin cmds).funcs.findUserFunc
    let s' := endState (evalLevel { env with funcs := funcs } level e locals s)
    s'.runDisabled = s.runDisabled ∧
      ∃ new, s'.events = new ++ s.events ∧
        (∀ v, .assign v ∈ new → s.runDisabled &&& v = s.runDisabled) ∧
        (∀ frames, .popen frames ∈ new → s.runDisabled = 0 ∧
          ∃ inner, frames = inner ++ s.frames ∧ ∀ fr ∈ inner, ¬ fr.Guarded) := by
  intro funcs s'
  have hsteps : StepsKeep { env with funcs := funcs } RunKept := by
    refine stepsKeep_run fun name f hf hset => ?_
    rw [runDisabled_iff_fsetRun isBuiltin cmds hf]
    simpa using hset
  have hkept := evalLevel_effects hsteps level e locals s
  obtain ⟨new, hev, hall⟩ := hkept.events
  exact ⟨hkept.runDisabled, new, hev, fun v hv => hall _ hv, fun frames hf => hall _ hf⟩

/-- `shell('ls')` in an expression of the top level. -/
example : (endState (evalLevel (bareEnv 0) maxRecursionLevel
    (.builtin shellRow [.const (.str "ls")]) [] (EvalState.init ()))).events = [.popen []] := rfl

end Remind
