import Remind.IfElse

/-!
# IfNest — nested IFs in a tree of files, and the lines that should be executed

`Prog` is what a file says when its IFs are properly nested.  `trace` says which lines are executed
without a stack: those inside taken branches only, before any RETURN of their file.  The machine of
`IfElse` does the same, line for line, as long as no IFTRIG fails before its trigger is computed.
-/

namespace Remind

mutual

/-- The lines of a file with their IFs nested; `files` are those read at an INCLUDE. -/
inductive Prog where
  | done
  | plain (n : ℕ) (rest : Prog)
  | ret (n : ℕ) (rest : Prog)
  | exit (n : ℕ) (rest : Prog)
  | unreadable (rest : Prog)
  | incl (n : ℕ) (files : Files) (rest : Prog)
  | cond (n : ℕ) (c : Cond) (thn rest : Prog)
  | condElse (n : ℕ) (c : Cond) (thn els rest : Prog)

inductive Files where
  | done
  | missing (rest : Files)
  | file (p : Prog) (rest : Files)

end

mutual

/-- The lines as they stand in the file. -/
def Prog.lines : Prog → List FileLine
  | .done => []
  | .plain n rest => .plain n :: rest.lines
  | .ret n rest => .ret n :: rest.lines
  | .exit n rest => .exit n :: rest.lines
  | .unreadable rest => .unreadable :: rest.lines
  | .incl n files rest => .incl n files.chain :: rest.lines
  | .cond n c thn rest => .cond n c :: (thn.lines ++ .endif :: rest.lines)
  | .condElse n c thn els rest =>
    .cond n c :: (thn.lines ++ .els :: (els.lines ++ .endif :: rest.lines))

def Files.chain : Files → List IncludedFile
  | .done => []
  | .missing rest => none :: rest.chain
  | .file p rest => some p.lines :: rest.chain

end

/-- What some lines lead to: whether a RETURN was executed, whether the run ended, and what was
read. -/
structure Out where
  returned : Bool
  stopped : Bool
  events : List Event

/-- Go on after `o`, unless the run ended there. -/
def Out.andThen (o : Out) (k : Bool → Out) : Out :=
  if o.stopped then o else { k o.returned with events := o.events ++ (k o.returned).events }

/-- A line is read, then the rest. -/
def Out.after (o : Out) (e : Event) : Out := { o with events := e :: o.events }

/-- The branch after the IF is taken; `t` for an IFTRIG that fails. -/
def Cond.taken (t : Bool) : Cond → Bool
  | .ifc (.error _) => true
  | .ifc (.ok (b, _)) => b
  | .iftrig (.error _) => t
  | .iftrig (.ok b) => b

mutual

/-- The lines executed: `active` when all the branches around are taken, `ret` when a RETURN was
executed before in the file; `level` files and `height` IFs are around. -/
def Prog.trace (t : Bool) (level height : ℕ) (active ret : Bool) : Prog → Out
  | .done => ⟨ret, false, []⟩
  | .plain n rest =>
    (rest.trace t level height active ret).after ⟨n, false, active && !ret, height, false⟩
  | .ret n rest =>
    (rest.trace t level height active (ret || active)).after
      ⟨n, false, active && !ret, height, false⟩
  | .exit n rest =>
    (if active && !ret then ⟨ret, true, []⟩ else rest.trace t level height active ret).after
      ⟨n, false, active && !ret, height, false⟩
  | .unreadable _ => ⟨ret, true, []⟩
  | .incl n files rest =>
    (if active && !ret && decide (level < includeNest) then
        (files.trace t (level + 1) height).andThen fun _ => rest.trace t level height active ret
      else rest.trace t level height active ret).after ⟨n, false, active && !ret, height, false⟩
  | .cond n c thn rest =>
    ((thn.trace t level (height + 1) (active && c.taken t) ret).andThen fun ret' =>
        rest.trace t level height active ret').after
      ⟨n, true, active && !ret, height, c.fails && (active && !ret)⟩
  | .condElse n c thn els rest =>
    ((thn.trace t level (height + 1) (active && c.taken t) ret).andThen fun ret' =>
        (els.trace t level (height + 1) (active && !c.taken t) ret').andThen fun ret'' =>
          rest.trace t level height active ret'').after
      ⟨n, true, active && !ret, height, c.fails && (active && !ret)⟩

/-- Files one after the other, each of them from its start. -/
def Files.trace (t : Bool) (level height : ℕ) : Files → Out
  | .done => ⟨false, false, []⟩
  | .missing rest => rest.trace t level height
  | .file p rest =>
    (p.trace t level height true false).andThen fun _ => rest.trace t level height

end

/-- The line keeps the nesting in step: an IF or IFTRIG within the limit that does not fail. -/
def Event.Regular (e : Event) : Prop := e.failed = false ∧ (e.isIf = true → e.height < ifNest)

instance (e : Event) : Decidable e.Regular := inferInstanceAs (Decidable (_ ∧ _))

/-- The events up to the first that is not regular, with it. -/
def upToIrregular : List Event → List Event
  | [] => []
  | e :: evs => if e.Regular then e :: upToIrregular evs else [e]

namespace IfState

theorem Runs.trans {s s1 s2 : IfState} {e1 e2 : List Event} (h1 : Runs s e1 s1)
    (h2 : Runs s1 e2 s2) : Runs s (e1 ++ e2) s2 := by
  induction h1 with
  | refl => exact h2
  | step hstep _ ih =>
    rw [List.append_assoc]
    exact .step hstep (ih h2)

theorem Runs.single {s s1 : IfState} {e : List Event} (h : s.step = some (s1, e)) :
    Runs s e s1 := by
  have hrun := Runs.step h (.refl s1)
  rwa [List.append_nil] at hrun

end IfState

open IfState

theorem upToIrregular_of_regular {evs : List Event} (h : ∀ e ∈ evs, e.Regular) :
    upToIrregular evs = evs := by
  induction evs with
  | nil => rfl
  | cons e evs ih =>
    rw [upToIrregular, if_pos (h e List.mem_cons_self),
      ih fun e' he' => h e' (List.mem_cons_of_mem _ he')]

theorem upToIrregular_append (a b : List Event) :
    upToIrregular (a ++ b) =
      if ∀ e ∈ a, e.Regular then a ++ upToIrregular b else upToIrregular a := by
  induction a with
  | nil => simp
  | cons e a ih =>
    rw [List.cons_append, upToIrregular, upToIrregular, ih]
    by_cases he : e.Regular
    · simp only [List.mem_cons, forall_eq_or_imp, he, true_and]
      split_ifs <;> rfl
    · simp [he]

/-! ## Following a trace -/

/-- From `s` the machine reads what `o` says, at least up to the first irregular line; without one
it ends in `fin`, or the run is over when `o` says so. -/
def Follows (s : IfState) (o : Out) (fin : Bool → IfState) : Prop :=
  ∃ s', Runs s (upToIrregular o.events) s' ∧ ((∀ e ∈ o.events, e.Regular) →
    (o.stopped = true → s'.ended = true) ∧ (o.stopped = false → s' = fin o.returned))

namespace Follows

variable {s s1 : IfState} {o : Out} {fin mid : Bool → IfState} {k : Bool → Out}

theorem done {r : Bool} (h : s = fin r) : Follows s ⟨r, false, []⟩ fin :=
  ⟨s, .refl s, fun _ => ⟨(fun hs => by cases hs), fun _ => h⟩⟩

theorem stop {r : Bool} (h : s.ended = true) : Follows s ⟨r, true, []⟩ fin :=
  ⟨s, .refl s, fun _ => ⟨fun _ => h, (fun hs => by cases hs)⟩⟩

/-- One line is read. -/
theorem after {e : Event} (hstep : s.step = some (s1, [e]))
    (h : e.Regular → Follows s1 o fin) : Follows s (o.after e) fin := by
  by_cases he : e.Regular
  · obtain ⟨s', hrun, hend⟩ := h he
    refine ⟨s', ?_, fun hall => hend fun e' he' => hall e' (List.mem_cons_of_mem _ he')⟩
    simp only [Out.after, upToIrregular, if_pos he]
    exact .step hstep hrun
  · refine ⟨s1, ?_, fun hall => (he (hall e List.mem_cons_self)).elim⟩
    simp only [Out.after, upToIrregular, if_neg he]
    exact .single hstep

/-- A step that reads no line of interest. -/
theorem silent (hstep : s.step = some (s1, [])) (h : Follows s1 o fin) : Follows s o fin := by
  obtain ⟨s', hrun, hend⟩ := h
  exact ⟨s', .step hstep hrun, hend⟩

theorem andThen (h1 : Follows s o mid)
    (h2 : o.stopped = false → Follows (mid o.returned) (k o.returned) fin) :
    Follows s (o.andThen k) fin := by
  obtain ⟨s1, hrun, hend⟩ := h1
  unfold Out.andThen
  split_ifs with hs
  · exact ⟨s1, hrun, fun hall => ⟨(hend hall).1, fun hns => by rw [hs] at hns; cases hns⟩⟩
  · have hns : o.stopped = false := by simpa using hs
    obtain ⟨s2, hrun2, hend2⟩ := h2 hns
    unfold Follows
    simp only [upToIrregular_append]
    by_cases hall : ∀ e ∈ o.events, e.Regular
    · rw [if_pos hall]
      rw [upToIrregular_of_regular hall, (hend hall).2 hns] at hrun
      exact ⟨s2, hrun.trans hrun2, fun hreg => hend2 fun e he =>
        hreg e (List.mem_append_right _ he)⟩
    · rw [if_neg hall]
      exact ⟨s1, hrun, fun hreg => (hall fun e he => hreg e (List.mem_append_left _ he)).elim⟩

end Follows

/-! ## The machine in step with the nesting -/

/-- The run is in a file; lines are ignored unless `active` and not `ret`. -/
structure InSync (s : IfState) (active ret : Bool) : Prop where
  running : s.ended = false
  inFile : s.istack ≠ []
  base : s.base ≤ s.ifs.length
  returned : s.returned = ret
  ignores : ret = false → (s.ifs.drop s.base).any IfEntry.ignores = !active

section

variable {s : IfState} {active ret : Bool}

theorem InSync.executed (h : InSync s active ret) (lines : List FileLine) :
    (!({ s with lines := lines } : IfState).shouldIgnoreLine) = (active && !ret) := by
  unfold shouldIgnoreLine
  rw [h.returned]
  cases ret with
  | true => simp
  | false => simp [h.ignores rfl]

theorem InSync.ignored (h : InSync s active ret) (lines : List FileLine) :
    ({ s with lines := lines } : IfState).shouldIgnoreLine = !(active && !ret) := by
  rw [← h.executed lines, Bool.not_not]

/-- Going on in the same file, with no IF pushed or popped. -/
theorem InSync.goOn (h : InSync s active ret) {r : Bool} (hr : ret = true → r = true)
    (lines : List FileLine) : InSync { s with lines := lines, returned := r } active r where
  running := h.running
  inFile := h.inFile
  base := h.base
  returned := rfl
  ignores hr' := h.ignores (by
    cases ret with
    | false => rfl
    | true => rw [hr rfl] at hr'; cases hr')

/-- Behind an IF: an entry was pushed, `ignoring` if its branch is not taken. -/
theorem InSync.push (h : InSync s active ret) {e : IfEntry} {taken r : Bool}
    (he : ret = false → active = true → e.ignores = !taken) (hr : ret = true → r = true)
    (lines : List FileLine) :
    InSync { s with lines := lines, returned := r, ifs := s.ifs ++ [e] } (active && taken) r where
  running := h.running
  inFile := h.inFile
  base := by
    have hb := h.base
    simp only [List.length_append, List.length_singleton]
    omega
  returned := rfl
  ignores hr' := by
    have hret : ret = false := by
      cases ret with
      | false => rfl
      | true => rw [hr rfl] at hr'; cases hr'
    simp only [List.drop_append_of_le_length h.base, List.any_append, h.ignores hret,
      List.any_cons, List.any_nil, Bool.or_false]
    cases active with
    | false => simp
    | true => simp [he hret rfl]

theorem Out.returned_andThen {o : Out} {k : Bool → Out} (ho : o.returned = true)
    (hk : (k true).returned = true) : (o.andThen k).returned = true := by
  unfold Out.andThen
  rw [ho]
  split_ifs
  · exact ho
  · exact hk

/-- A RETURN is never taken back within its file. -/
theorem Prog.trace_returned (t : Bool) (level height : ℕ) (active : Bool) :
    ∀ p : Prog, (p.trace t level height active true).returned = true
  | .done => rfl
  | .plain _ rest => rest.trace_returned t level height active
  | .ret _ rest => rest.trace_returned t level height active
  | .exit _ rest => by
    simp only [Prog.trace, Bool.not_true, Bool.and_false, Bool.false_eq_true, if_false]
    exact rest.trace_returned t level height active
  | .unreadable _ => rfl
  | .incl _ _ rest => by
    simp only [Prog.trace, Bool.not_true, Bool.and_false, Bool.false_and, Bool.false_eq_true,
      if_false]
    exact rest.trace_returned t level height active
  | .cond _ _ thn rest =>
    Out.returned_andThen (thn.trace_returned t level (height + 1) _)
      (rest.trace_returned t level height active)
  | .condElse _ _ thn els rest =>
    Out.returned_andThen (thn.trace_returned t level (height + 1) _)
      (Out.returned_andThen (els.trace_returned t level (height + 1) _)
        (rest.trace_returned t level height active))

/-- The entry that an IF or IFTRIG pushes, unless it is irregular. -/
theorem doCond_push (h : InSync s active ret) (t : Bool) (c : Cond) (lines : List FileLine)
    (hlimit : s.ifs.length < ifNest) (hfail : (c.fails && (active && !ret)) = false) :
    ∃ e : IfEntry, e.beforeElse = true ∧
      (ret = false → active = true → e.ifTrue = c.taken t) ∧
      (({ s with lines := lines } : IfState).doCond c).1 =
        { s with lines := lines, returned := ret, ifs := s.ifs ++ [e] } := by
  obtain rfl := h.returned
  have hfull : ¬ s.ifs.length ≥ ifNest := by omega
  have hig := h.ignored lines
  by_cases hex : (active && !s.returned) = true
  · rw [hex] at hig
    cases c with
    | ifc found =>
      cases found with
      | error r =>
        refine ⟨⟨true, true, false⟩, rfl, fun _ _ => rfl, ?_⟩
        simp [doCond, doIf, pushIf, hfull, hig]
      | ok v =>
        refine ⟨⟨v.1, true, v.2⟩, rfl, fun _ _ => rfl, ?_⟩
        simp [doCond, doIf, pushIf, hfull, hig]
    | iftrig found =>
      cases found with
      | error r => simp [Cond.fails, hex] at hfail
      | ok b =>
        refine ⟨⟨b, true, false⟩, rfl, fun _ _ => rfl, ?_⟩
        simp [doCond, doIfTrig, pushIf, hfull, hig]
  · have hnot : (active && !s.returned) = false := by simpa using hex
    rw [hnot] at hig
    have hno : s.returned = false → active = true → False := by
      intro h1 h2
      exact hex (by rw [h1, h2]; rfl)
    cases c with
    | ifc found =>
      refine ⟨⟨true, true, true⟩, rfl, fun h1 h2 => (hno h1 h2).elim, ?_⟩
      simp [doCond, doIf, pushIf, hfull, hig]
    | iftrig found =>
      refine ⟨⟨true, true, false⟩, rfl, fun h1 h2 => (hno h1 h2).elim, ?_⟩
      simp [doCond, doIfTrig, pushIf, hfull, hig]

end

section

variable {s : IfState} {active ret : Bool}

theorem InSync.step_line (h : InSync s active ret) {l : FileLine} {rest : List FileLine}
    (hlines : s.lines = l :: rest) : s.step = some (doLine { s with lines := rest } l) := by
  unfold IfState.step
  rw [h.running, hlines]
  rfl

theorem InSync.event_eq (h : InSync s active ret) (lines : List FileLine) (n : ℕ)
    (isIf failed : Bool) : ({ s with lines := lines } : IfState).event n isIf failed =
      ⟨n, isIf, active && !ret, s.ifs.length, failed && (active && !ret)⟩ := by
  unfold event
  rw [h.executed lines]

theorem InSync.withLines (h : InSync s active ret) (lines : List FileLine) :
    InSync { s with lines := lines } active ret :=
  ⟨h.running, h.inFile, h.base, h.returned, h.ignores⟩

/-- Setting the lines and the flag to what they are. -/
theorem InSync.eta (h : InSync s active ret) {lines : List FileLine} (hl : s.lines = lines) :
    s = { s with lines := lines, returned := ret } := by
  rw [← hl, ← h.returned]

/-- `ENDIF` takes off the entry on top. -/
theorem endif_pops (h : InSync s active ret) (e : IfEntry) (r : Bool)
    (rest : List FileLine) :
    ({ s with lines := .endif :: rest, returned := r, ifs := s.ifs ++ [e] } : IfState).step =
      some ({ s with lines := rest, returned := r }, []) := by
  have hb := h.base
  have hnot : ¬ (s.ifs ++ [e]).length ≤ s.base := by
    rw [List.length_append, List.length_singleton]
    omega
  unfold IfState.step
  simp only [h.running, Bool.false_eq_true, if_false]
  simp only [doLine, encounterEndif, if_neg hnot, List.dropLast_concat]

/-- `ELSE` turns the entry on top. -/
theorem else_turns (h : InSync s active ret) {e : IfEntry} (he : e.beforeElse = true) (r : Bool)
    (rest : List FileLine) :
    ({ s with lines := .els :: rest, returned := r, ifs := s.ifs ++ [e] } : IfState).step =
      some ({ s with lines := rest, returned := r,
                     ifs := s.ifs ++ [{ e with beforeElse := false }] }, []) := by
  have hb := h.base
  have hnot : ¬ (s.ifs ++ [e]).length ≤ s.base := by
    rw [List.length_append, List.length_singleton]
    omega
  unfold IfState.step
  simp only [h.running, Bool.false_eq_true, if_false]
  simp only [doLine, encounterElse, if_neg hnot, List.getLast?_concat, he, Bool.not_true,
    Bool.false_eq_true, if_false, List.dropLast_concat]

/-- Entering the files of an INCLUDE is coming to the end of a file before them. -/
theorem includeFile_eq {files : List IncludedFile} (hret : s.returned = false)
    (hlevel : s.istack.length < includeNest) :
    (s.includeFile files).1 =
      ({ s with base := s.ifs.length, lines := [], istack := ⟨s.lines, s.base, files⟩ :: s.istack }
        : IfState).popFile := by
  have hnot : ¬ s.istack.length ≥ includeNest := by omega
  unfold includeFile
  simp only [if_neg hnot]
  cases hnext : nextChainedFile files with
  | none => simp [popFile, popExcessIfs, nextChainedFile, hnext]
  | some f => simp [popFile, popExcessIfs, hnext, hret]

theorem includeFile_deep {files : List IncludedFile} (hlevel : includeNest ≤ s.istack.length) :
    (s.includeFile files).1 = s := by
  unfold includeFile
  rw [if_pos hlevel]

/-- The end of the last file of an INCLUDE is the line after the INCLUDE. -/
theorem popFile_return (hin : s.istack ≠ []) (lines : List FileLine) :
    ({ s with base := s.ifs.length, lines := [], istack := ⟨lines, s.base, []⟩ :: s.istack }
      : IfState).popFile = { s with lines := lines, returned := false } := by
  simp [popFile, popExcessIfs, nextChainedFile, hin]

section

variable {i : IncludeStruct} {is : List IncludeStruct} {c : List IncludedFile}

theorem popFile_skip (hi : s.istack = i :: is) (hc : i.chain = none :: c) :
    s.popFile = ({ s with istack := { i with chain := c } :: is } : IfState).popFile := by
  simp [popFile, popExcessIfs, nextChainedFile, hi, hc]

theorem popFile_open {f : List FileLine} (hi : s.istack = i :: is) (hc : i.chain = some f :: c)
    (hb : s.base = s.ifs.length) :
    s.popFile =
      { s with lines := f, returned := false, istack := { i with chain := c } :: is } := by
  simp [popFile, popExcessIfs, nextChainedFile, hi, hc, hb]

end

end

mutual

theorem Prog.follows (t : Bool) : ∀ (p : Prog) {s : IfState} {active ret : Bool}
    {rest : List FileLine} {height : ℕ}, InSync s active ret → s.lines = p.lines ++ rest →
    s.ifs.length = height →
    Follows s (p.trace t s.istack.length height active ret)
      (fun r => { s with lines := rest, returned := r })
  | .done, s, active, ret, rest, _, h, hl, rfl => .done (h.eta hl)
  | .plain n p, s, active, ret, rest, _, h, hl, rfl => by
    have hstep := h.step_line hl
    simp only [doLine, h.event_eq, Bool.false_and, List.append_eq] at hstep
    exact .after hstep fun _ => Prog.follows t p (h.withLines _) rfl rfl
  | .ret n p, s, active, ret, rest, _, h, hl, rfl => by
    have hstep : s.step = some ({ s with lines := p.lines ++ rest, returned := ret || active },
        [⟨n, false, active && !ret, s.ifs.length, false⟩]) := by
      rw [h.step_line hl]
      simp only [doLine, h.event_eq, Bool.false_and, unlessIgnored, h.ignored, List.append_eq]
      have hret := h.returned
      cases ret <;> cases active <;> simp [doReturn, hret]
    exact .after hstep fun _ => Prog.follows t p (h.goOn (fun hr => by simp [hr]) _) rfl rfl
  | .exit n p, s, active, ret, rest, _, h, hl, rfl => by
    have hstep := h.step_line hl
    simp only [doLine, h.event_eq, Bool.false_and, unlessIgnored, h.ignored, List.append_eq]
      at hstep
    unfold Prog.trace
    by_cases hex : (active && !ret) = true
    · rw [if_pos hex]
      rw [hex] at hstep ⊢
      exact .after hstep fun _ => .stop rfl
    · have hnot : (active && !ret) = false := by simpa using hex
      rw [if_neg hex]
      rw [hnot] at hstep ⊢
      exact .after hstep fun _ => Prog.follows t p (h.withLines _) rfl rfl
  | .unreadable p, s, active, ret, rest, _, h, hl, rfl =>
    .silent (h.step_line hl) (.stop rfl)
  | .incl n files p, s, active, ret, rest, _, h, hl, rfl => by
    have hstep := h.step_line hl
    simp only [doLine, h.event_eq, Bool.false_and, unlessIgnored, h.ignored, List.append_eq]
      at hstep
    have hskip : Follows { s with lines := p.lines ++ rest }
        (p.trace t s.istack.length s.ifs.length active ret)
        (fun r => { s with lines := rest, returned := r }) :=
      Prog.follows t p (h.withLines _) rfl rfl
    unfold Prog.trace
    by_cases hex : (active && !ret) = true
    · have hret : ret = false := by
        simp only [Bool.and_eq_true, Bool.not_eq_true'] at hex
        exact hex.2
      rw [hex] at hstep ⊢
      simp only [Bool.not_true, Bool.false_eq_true, if_false, Bool.true_and,
        decide_eq_true_eq] at hstep ⊢
      by_cases hlevel : s.istack.length < includeNest
      · rw [if_pos hlevel]
        rw [includeFile_eq (s := { s with lines := p.lines ++ rest }) (h.returned.trans hret)
          hlevel] at hstep
        refine .after hstep fun _ => .andThen
          (Files.follows t files h.running rfl rfl rfl rfl) fun _ => ?_
        rw [popFile_return h.inFile, ← hret]
        exact Prog.follows t p (h.goOn id _) rfl rfl
      · rw [if_neg hlevel]
        rw [includeFile_deep (s := { s with lines := p.lines ++ rest }) (Nat.le_of_not_lt hlevel)]
          at hstep
        exact .after hstep fun _ => hskip
    · have hnot : (active && !ret) = false := by simpa using hex
      rw [hnot] at hstep ⊢
      exact .after hstep fun _ => hskip
  | .cond n c thn p, s, active, ret, rest, _, h, hl, rfl => by
    have hl' : s.lines = .cond n c :: (thn.lines ++ .endif :: (p.lines ++ rest)) := by
      rw [hl]
      simp [Prog.lines]
    have hstep := h.step_line hl'
    simp only [doLine, h.event_eq] at hstep
    refine .after hstep fun hreg => ?_
    obtain ⟨e, hbefore, htaken, hpush⟩ := doCond_push h t c (thn.lines ++ .endif :: (p.lines ++ rest))
      (hreg.2 rfl) hreg.1
    rw [hpush]
    have hignores : ret = false → active = true → e.ignores = !c.taken t := by
      intro h1 h2
      simp [IfEntry.ignores, hbefore, htaken h1 h2]
    refine .andThen (Prog.follows t thn (h.push hignores id _) rfl (by simp)) fun _ => ?_
    refine .silent (endif_pops h e _ _) (Prog.follows t p (h.goOn (fun hr => ?_) _) rfl rfl)
    rw [hr]
    exact thn.trace_returned t _ _ _
  | .condElse n c thn els p, s, active, ret, rest, _, h, hl, rfl => by
    have hl' : s.lines =
        .cond n c :: (thn.lines ++ .els :: (els.lines ++ .endif :: (p.lines ++ rest))) := by
      rw [hl]
      simp [Prog.lines]
    have hstep := h.step_line hl'
    simp only [doLine, h.event_eq] at hstep
    refine .after hstep fun hreg => ?_
    obtain ⟨e, hbefore, htaken, hpush⟩ := doCond_push h t c
      (thn.lines ++ .els :: (els.lines ++ .endif :: (p.lines ++ rest))) (hreg.2 rfl) hreg.1
    rw [hpush]
    have hignores : ret = false → active = true → e.ignores = !c.taken t := by
      intro h1 h2
      simp [IfEntry.ignores, hbefore, htaken h1 h2]
    have hturned : ret = false → active = true →
        ({ e with beforeElse := false } : IfEntry).ignores = !!c.taken t := by
      intro h1 h2
      simp [IfEntry.ignores, htaken h1 h2]
    have hthn : ret = true →
        (thn.trace t s.istack.length (s.ifs.length + 1) (active && c.taken t) ret).returned
          = true := by
      rintro rfl
      exact thn.trace_returned t _ _ _
    refine .andThen (Prog.follows t thn (h.push hignores id _) rfl (by simp)) fun _ => ?_
    refine .silent (else_turns h hbefore _ _) ?_
    refine .andThen (Prog.follows t els (h.push hturned hthn _) rfl (by simp)) fun _ => ?_
    refine .silent (endif_pops h _ _ _) (Prog.follows t p (h.goOn (fun hr => ?_) _) rfl rfl)
    rw [hthn hr]
    exact els.trace_returned t _ _ _

theorem Files.follows (t : Bool) : ∀ (fs : Files) {s : IfState} {i : IncludeStruct}
    {is : List IncludeStruct}, s.ended = false → s.istack = i :: is → i.chain = fs.chain →
    s.base = s.ifs.length → s.lines = [] →
    Follows s.popFile (fs.trace t s.istack.length s.ifs.length)
      (fun _ => ({ s with istack := { i with chain := [] } :: is } : IfState).popFile)
  | .done, s, i, is, hrun, hi, hc, hb, hl => by
    have hi' : i = { i with chain := [] } := by rw [← show i.chain = [] from hc]
    refine .done ?_
    rw [← hi', ← hi]
  | .missing fs, s, i, is, hrun, hi, hc, hb, hl => by
    rw [popFile_skip hi hc, hi]
    exact Files.follows t fs (s := { s with istack := { i with chain := fs.chain } :: is })
      (i := { i with chain := fs.chain }) hrun rfl rfl hb hl
  | .file p fs, s, i, is, hrun, hi, hc, hb, hl => by
    have hsync : InSync { s with
        lines := p.lines, returned := false, istack := { i with chain := fs.chain } :: is }
        true false :=
      ⟨hrun, List.cons_ne_nil _ _, hb.le, rfl, fun _ => by simp [hb]⟩
    rw [popFile_open hi hc hb, hi]
    have hin := @Prog.follows t p _ _ _ [] _ hsync (by simp) rfl
    refine .andThen hin fun _ => ?_
    have hstep : ∀ s' : IfState, s'.ended = false → s'.lines = [] →
        s'.step = some (s'.popFile, []) := by
      intro s' h1 h2
      unfold IfState.step
      rw [h1, h2]
      rfl
    refine .silent (hstep _ hrun rfl) ?_
    have hrest : ∀ r, Follows
        ({ s with lines := [], returned := r, istack := { i with chain := fs.chain } :: is }
          : IfState).popFile (fs.trace t (i :: is).length s.ifs.length)
        (fun _ => ({ s with lines := [], istack := { i with chain := [] } :: is } : IfState).popFile) :=
      fun r => Files.follows t fs (i := { i with chain := fs.chain }) hrun rfl rfl hb rfl
    rw [show s = { s with lines := [] } by rw [← hl]]
    exact hrest _

end

/-- Two parts of a run from one state: one goes on where the other stops. -/
theorem IfState.Runs.comparable {s s1 s2 : IfState} {e1 e2 : List Event} (h1 : Runs s e1 s1)
    (h2 : Runs s e2 s2) :
    (∃ e, Runs s1 e s2 ∧ e2 = e1 ++ e) ∨ ∃ e, Runs s2 e s1 ∧ e1 = e2 ++ e := by
  induction h1 generalizing e2 with
  | refl s => exact .inl ⟨e2, h2, rfl⟩
  | step hstep hrun ih =>
    cases h2 with
    | refl => exact .inr ⟨_, .step hstep hrun, rfl⟩
    | step hstep' hrun' =>
      rw [hstep] at hstep'
      cases hstep'
      rcases ih hrun' with ⟨e, hr, rfl⟩ | ⟨e, hr, rfl⟩
      · exact .inl ⟨e, hr, (List.append_assoc ..).symm⟩
      · exact .inr ⟨e, hr, (List.append_assoc ..).symm⟩

theorem IfState.Runs.of_ended {s s' : IfState} {e : List Event} (h : Runs s e s')
    (hs : s.ended = true) : e = [] := by
  cases h with
  | refl => rfl
  | step hstep _ =>
    unfold IfState.step at hstep
    rw [hs] at hstep
    cases hstep

/-- `DoReminders` on the files named on the command line. -/
def start (fs : Files) : IfState := (includeFile {} fs.chain).1

theorem upToIrregular_initial (evs : List Event) : upToIrregular evs <+: evs := by
  induction evs with
  | nil => exact List.prefix_rfl
  | cons e evs ih =>
    unfold upToIrregular
    split_ifs
    · exact (List.prefix_cons_inj e).mpr ih
    · exact (List.prefix_cons_inj e).mpr (List.nil_prefix)

theorem upToIrregular_irregular {evs : List Event} (h : ¬ ∀ e ∈ evs, e.Regular) :
    ∃ e ∈ upToIrregular evs, ¬ e.Regular := by
  induction evs with
  | nil => exact (h (by simp)).elim
  | cons e evs ih =>
    unfold upToIrregular
    split_ifs with he
    · obtain ⟨e', hmem, hirr⟩ := ih fun hall => h fun e' he' => by
        rcases List.mem_cons.mp he' with rfl | he'
        · exact he
        · exact hall e' he'
      exact ⟨e', List.mem_cons_of_mem _ hmem, hirr⟩
    · exact ⟨e, List.mem_cons_self, he⟩

/-- From the start the machine follows the trace, and after it the run is over. -/
theorem start_follows (t : Bool) (fs : Files) :
    ∃ s', Runs (start fs) (upToIrregular (fs.trace t 1 0).events) s' ∧
      ((∀ e ∈ (fs.trace t 1 0).events, e.Regular) →
        s'.ended = true ∧ ((fs.trace t 1 0).stopped = false → s'.ifs = [])) := by
  have hstart : start fs = ({ istack := [⟨[], 0, fs.chain⟩] } : IfState).popFile :=
    includeFile_eq rfl (by decide)
  obtain ⟨s', hrun, hend⟩ := Files.follows t fs (s := { istack := [⟨[], 0, fs.chain⟩] })
    (i := ⟨[], 0, fs.chain⟩) rfl rfl rfl rfl rfl
  rw [hstart]
  refine ⟨s', hrun, fun hall => ?_⟩
  cases hs : (fs.trace t 1 0).stopped with
  | true => exact ⟨(hend hall).1 hs, fun h => by cases h⟩
  | false =>
    rw [(hend hall).2 hs]
    exact ⟨rfl, fun _ => rfl⟩

/-- An IF that is taken, in it an INCLUDE of a file that returns early, and an ELSE. -/
def returning : Files :=
  .file (.condElse 1 (.ifc (.ok (true, true)))
    (.incl 2 (.file (.cond 3 (.iftrig (.ok true)) (.ret 4 .done) (.plain 5 .done)) .done)
      (.plain 6 .done))
    (.plain 7 .done) .done) .done

/-- `IF 1`, `IFTRIG` with a type, `ENDIF`, `ELSE`, a line, `ENDIF` -/
def failingIfTrig : Files :=
  .file (.condElse 1 (.ifc (.ok (true, true)))
    (.cond 2 (.iftrig (.error .parseErr)) .done .done) (.plain 3 .done) .done) .done

end Remind
