import Mathlib.Tactic.Common
import Remind.Trigger

/-!
# IfElse — IF, ELSE, ENDIF and RETURN across files (ifelse.c; main.c: `DoReminders`, `DoIf`,
`DoIfTrig`; files.c: `IncludeFile`, `PopFile`)

Every line of a tree of files is read at most once in a run, so a line carries what its command
finds when it is executed: the value of the condition, the files that an INCLUDE opens.  What is
left of a file is the list of its lines; a line that cannot be read ends the run.
-/

namespace Remind

/-- `IF_NEST` -/
def ifNest : ℕ := 64

/-- `INCLUDE_NEST` -/
def includeNest : ℕ := 9

/-- `ifentry` -/
structure IfEntry where
  ifTrue : Bool
  beforeElse : Bool
  wasConstant : Bool
  deriving DecidableEq, Repr

/-- What an IF or IFTRIG line finds.  `ifc`: an error of the expression, or whether its value is
true and whether it is constant.  `iftrig`: an error before the trigger is computed (the line does
not parse or has a type), or whether the reminder triggers. -/
inductive Cond where
  | ifc (found : Except ErrCode (Bool × Bool))
  | iftrig (found : Except ErrCode Bool)

/-- The lines of a file, with a number.  `plain` is every command but those below; `incl` is an
INCLUDE of a file or a directory, or an INCLUDECMD, with the files to be read and `none` for one
that cannot be opened. -/
inductive FileLine where
  | plain (n : ℕ)
  | cond (n : ℕ) (c : Cond)
  | els
  | endif
  | ret (n : ℕ)
  | incl (n : ℕ) (files : List (Option (List FileLine)))
  | exit (n : ℕ)
  | unreadable

/-- A file that is opened or not. -/
abbrev IncludedFile := Option (List FileLine)

/-- `IncludeStruct`: where the including file goes on, and the files still to be read here. -/
structure IncludeStruct where
  lines : List FileLine
  baseIfPointer : ℕ
  chain : List IncludedFile

/-- `IfArray` up to `if_pointer`, `base_pointer`, `return_encountered`, the rest of the current
file, `IStack` from the top, and whether the run is over. -/
structure IfState where
  ifs : List IfEntry := []
  base : ℕ := 0
  returned : Bool := false
  lines : List FileLine := []
  istack : List IncludeStruct := []
  ended : Bool := false

/-- A line that was read: its number, whether it is an IF or IFTRIG, whether it was executed, the
number of entries on the if-stack, and whether it is an IFTRIG that failed before its trigger was
computed. -/
structure Event where
  line : ℕ
  isIf : Bool
  executed : Bool
  height : ℕ
  failed : Bool
  deriving DecidableEq, Repr

/-- An IFTRIG line that fails before its trigger is computed. -/
def Cond.fails : Cond → Bool
  | .ifc _ => false
  | .iftrig (.error _) => true
  | .iftrig (.ok _) => false

/-- The entry makes lines be ignored. -/
def IfEntry.ignores (e : IfEntry) : Bool :=
  (e.ifTrue && !e.beforeElse) || (!e.ifTrue && e.beforeElse)

namespace IfState

/-- `push_if` -/
def pushIf (s : IfState) (isTrue wasConstant : Bool) : IfState × Option ErrCode :=
  if s.ifs.length ≥ ifNest then (s, some .nestedIf)
  else ({ s with ifs := s.ifs ++ [⟨isTrue, true, wasConstant⟩] }, none)

/-- `encounter_else` -/
def encounterElse (s : IfState) : IfState × Option ErrCode :=
  if s.ifs.length ≤ s.base then (s, some .elseNoIf)
  else
    match s.ifs.getLast? with
    | none => (s, some .elseNoIf)
    | some e =>
      if !e.beforeElse then (s, some .elseNoIf)
      else ({ s with ifs := s.ifs.dropLast ++ [{ e with beforeElse := false }] }, none)

/-- `encounter_endif` -/
def encounterEndif (s : IfState) : IfState × Option ErrCode :=
  if s.ifs.length ≤ s.base then (s, some .endifNoIf)
  else ({ s with ifs := s.ifs.dropLast }, none)

/-- `should_ignore_line` -/
def shouldIgnoreLine (s : IfState) : Bool :=
  s.returned || (s.ifs.drop s.base).any IfEntry.ignores

/-- `pop_excess_ifs` -/
def popExcessIfs (s : IfState) : IfState :=
  { s with returned := false, ifs := if s.ifs.length ≤ s.base then s.ifs else s.ifs.take s.base }

/-- `DoIf` -/
def doIf (s : IfState) (found : Except ErrCode (Bool × Bool)) : IfState × Option ErrCode :=
  if s.ifs.length ≥ ifNest then (s, some .nestedIf)
  else if s.shouldIgnoreLine then s.pushIf true true
  else
    match found with
    | .error _ => s.pushIf true false
    | .ok (truthy, const) => s.pushIf truthy const

/-- `DoIfTrig` -/
def doIfTrig (s : IfState) (found : Except ErrCode Bool) : IfState × Option ErrCode :=
  if s.ifs.length ≥ ifNest then (s, some .nestedIf)
  else if s.shouldIgnoreLine then s.pushIf true false
  else
    match found with
    | .error r => (s, some r)
    | .ok b => s.pushIf b false

def doCond (s : IfState) : Cond → IfState × Option ErrCode
  | .ifc found => s.doIf found
  | .iftrig found => s.doIfTrig found

/-- `DoReturn` -/
def doReturn (s : IfState) : IfState := { s with returned := true }

/-- The next file of a chain that can be opened, and the chain after it. -/
def nextChainedFile : List IncludedFile → Option (List FileLine × List IncludedFile)
  | [] => none
  | none :: chain => nextChainedFile chain
  | some f :: chain => some (f, chain)

/-- `PopFile` -/
def popFile (s : IfState) : IfState :=
  let s := s.popExcessIfs
  match s.istack with
  | [] => { s with ended := true }
  | i :: rest =>
    match nextChainedFile i.chain with
    | some (f, chain) => { s with lines := f, istack := { i with chain := chain } :: rest }
    | none =>
      -- `TopLevel()`
      if rest = [] then { s with istack := [], ended := true }
      else { s with lines := i.lines, base := i.baseIfPointer, istack := rest }

/-- `IncludeFile`, `IncludeCmd` -/
def includeFile (s : IfState) (files : List IncludedFile) : IfState × Option ErrCode :=
  if s.istack.length ≥ includeNest then (s, some .nestedInclude)
  else
    let i : IncludeStruct := ⟨s.lines, s.base, []⟩
    let s1 := { s with base := s.ifs.length, lines := [], istack := i :: s.istack }
    match nextChainedFile files with
    | some (f, chain) =>
      ({ s1 with lines := f, istack := { i with chain := chain } :: s.istack }, none)
    | none => (s1.popFile, some .cantOpen)

/-- What is recorded of a line. -/
def event (s : IfState) (n : ℕ) (isIf failed : Bool) : Event where
  line := n
  isIf := isIf
  executed := !s.shouldIgnoreLine
  height := s.ifs.length
  failed := failed && !s.shouldIgnoreLine

/-- A command that is skipped where lines are ignored. -/
def unlessIgnored (s : IfState) (f : IfState → IfState) : IfState :=
  if s.shouldIgnoreLine then s else f s

/-- One line in the loop of `DoReminders`; what is wrong with it is reported and no more. -/
def doLine (s : IfState) : FileLine → IfState × List Event
  | .plain n => (s, [s.event n false false])
  | .cond n c => ((s.doCond c).1, [s.event n true c.fails])
  | .els => (s.encounterElse.1, [])
  | .endif => (s.encounterEndif.1, [])
  | .ret n => (s.unlessIgnored doReturn, [s.event n false false])
  | .incl n files => (s.unlessIgnored fun s => (s.includeFile files).1, [s.event n false false])
  | .exit n => (s.unlessIgnored fun s => { s with ended := true }, [s.event n false false])
  | .unreadable => ({ s with ended := true }, [])

/-- One step of `DoReminders`: the end of a file or a line; `none` when the run is over. -/
def step (s : IfState) : Option (IfState × List Event) :=
  if s.ended then none
  else
    match s.lines with
    | [] => some (s.popFile, [])
    | l :: rest => some (doLine { s with lines := rest } l)

/-- A part of a run. -/
inductive Runs : IfState → List Event → IfState → Prop
  | refl (s) : Runs s [] s
  | step {s s1 s' ev evs} : s.step = some (s1, ev) → Runs s1 evs s' → Runs s (ev ++ evs) s'

end IfState

end Remind
