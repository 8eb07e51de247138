import Remind.FileRun

/-!
# Ownership — RUN follows the current file (files.c: `RUN_NOTOWNER`)

`CheckSafety` sets the bit for the file that it opens; the cache and the stack remember it.
-/

namespace Remind.LineReader

/-- An INCLUDE of a directory whose `glob` fails does not change `RUN_NOTOWNER` for lines of the
including file that are in the cache. -/
def FileOp.KeepsOwner (users : Users) : FileOp → FileState → Prop
  | .includeFile env fname, s => ∀ st, (env.stat fname).filter (·.isDir) = some st →
      (checkSafetyAux users st s.runDisabled).1 = true → listing env s fname = none →
      s.cLine ≠ [] → isOwned (checkSafetyAux users st s.runDisabled).2 = isOwned s.runDisabled
  | _, _ => True

section Ownership

variable {users : Users}

theorem Reached.rightly {s : FileState} (h : Reached users (FileOp.KeepsOwner users) s) :
    FileInv (fun src owned => src.Rightly users owned) (otherBits s.runDisabled) s := by
  refine h.inv (fun _ _ => id) fun op s hs hop => ?_
  cases op with
  | readLine env envs => exact trivial
  | includeCmd env cmd => exact trivial
  | includeFile env fname =>
    intro st hst hsafe hlist hline
    rw [hop st hst hsafe hlist hline]
    exact (hs.here (Or.inl hline)).1

/-- **RUN follows the current file**: in a run in which no failure of `glob` changes the bit, it is
right for every line that is interpreted; and no step of any run changes another bit. -/
theorem runNotOwner_follows (users : Users) :
    (∀ s, Interpreting users (FileOp.KeepsOwner users) s →
      s.source.Rightly users (isOwned s.runDisabled)) ∧
    ∀ ok s op r t, Reached users ok s → FileOp.run users op s = .ret r t →
      otherBits t.runDisabled = otherBits s.runDisabled := by
  refine ⟨fun s h => ?_, fun ok s op r t hs h => hs.otherBits_eq h⟩
  induction h with
  | read hs hread => exact ((readLine_inv (fun _ _ => id) hs.rightly hread).2 rfl).source
  | @others s rd n _ hrd ih =>
    show s.source.Rightly users (isOwned rd)
    rw [hrd]
    exact ih

/-- `m` is one's own, the directory `d` another user's, and `glob` fails. -/
def globFails : FileEnv where
  fopen _ f :=
    if f = ['m'] then some ⟨"INCLUDE d\nREM 1\n".toList, false, some ⟨1, .reg, false⟩⟩ else none
  stat f := if f = ['d'] then some ⟨2, .dir, false⟩ else some ⟨1, .reg, false⟩
  glob _ := none
  popen _ := none
  purgeMode := false
  maxLineLength := 0
  maxCachedLines := 100
  maxIncludeCmdLines := 100

/-- The first line of `m`. -/
theorem runNotOwner_follows_m : ∃ s, Interpreting ⟨1, []⟩ (FileOp.KeepsOwner ⟨1, []⟩) s ∧
    s.source.Rightly ⟨1, []⟩ (isOwned s.runDisabled) := by
  have hkeeps : FileOp.KeepsOwner ⟨1, []⟩ (.includeFile globFails ['m']) (.init true 0 []) := by
    intro st hst
    cases hst
  have hm : FileOp.run ⟨1, []⟩ (.includeFile globFails ['m']) (.init true 0 []) = .ret none _ := rfl
  obtain ⟨s, hread⟩ : ∃ s, Interpreting ⟨1, []⟩ (FileOp.KeepsOwner ⟨1, []⟩) s :=
    ⟨_, @Interpreting.read _ _ _ _ globFails (fun _ => globFails)
      (.step (.start true 0 []) hkeeps hm) rfl⟩
  exact ⟨s, hread, (runNotOwner_follows ⟨1, []⟩).1 s hread⟩

/-- The line behind the INCLUDE of `d`, of a file of one's own, is interpreted with `RUN_NOTOWNER`. -/
theorem runNotOwner_glob_fails : ∃ s, Interpreting ⟨1, []⟩ (fun _ _ => True) s ∧
    ¬ s.source.Rightly ⟨1, []⟩ (isOwned s.runDisabled) := by
  -- `m` is included and its first line read, which includes `d`
  have hm : FileOp.run ⟨1, []⟩ (.includeFile globFails ['m']) (.init true 0 []) = .ret none _ := rfl
  refine ⟨_, @Interpreting.read _ _ _ _ globFails (fun _ => globFails)
    (@Reached.step _ _ _ _ (.includeFile globFails ['d']) _
      (@Reached.step _ _ _ _ (.readLine globFails fun _ => globFails) _
        (.step (.start true 0 []) trivial hm) trivial rfl) trivial rfl) rfl, fun h => ?_⟩
  exact absurd (h rfl) (by decide)

end Ownership

end Remind.LineReader
