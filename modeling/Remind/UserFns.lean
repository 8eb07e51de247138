import Remind.Evaluate
import Remind.PushVars

/-!
# UserFns — the table of user functions (userfns.c)

FSET, FUNSET, FRENAME, PUSH-FUNCS and POP-FUNCS; `FuncTable` carries the invariant of its hash table.
What a command reads from its line is handed to it: identifiers (in lower case where the command makes
them so), and what FSET finds after the name.
-/

namespace Remind

open HashTable
open scoped List

/-- One round of `HashVal_preservecase` is one of `HashVal_ignorecase` without `UPPER`. -/
def hashValPreservecase (str : List Char) : ℕ := (str.foldl hashUpper 0).toNat

/-- `HashUserFunc`, `CompareUserFuncs` -/
def funcHashing : Hashing UserFunc (List Char) where
  hashfunc f := hashValPreservecase f.name
  compare f g := f.name == g.name
  key f := f.name
  compare_iff f g := by simp
  hash_congr f g h := by rw [h]

/-- `FuncHash` -/
structure FuncTable where
  tbl : HashTable UserFunc
  wf : tbl.Wf funcHashing

namespace FuncTable

/-- `InitUserFunctions` -/
def init : FuncTable := ⟨HashTable.init, wf_init⟩

/-- `candidate` in `FindUserFunc`; nothing but its name is looked at. -/
def candidate (name : List Char) : UserFunc where
  name := strnCpy name varNameLen
  nargs := 0
  isConstant := false
  runDisabled := false
  beenPushed := false
  filename := ""
  lineno := 0
  node := .const (.int 0)
  fsetRun := 0

/-- The entry that `FindUserFunc` finds. -/
def findLink (t : FuncTable) (name : List Char) : Option (Link UserFunc) :=
  t.tbl.find funcHashing (candidate name)

/-- `FindUserFunc` -/
def findUserFunc (t : FuncTable) (name : List Char) : Option UserFunc :=
  (t.findLink name).map Link.item

/-- `hash_table_delete(&FuncHash, f)` -/
def delete (t : FuncTable) (l : Link UserFunc) : FuncTable :=
  if h : l ∈ t.tbl.links then ⟨t.tbl.delete l, (t.wf.delete h).1⟩ else t

/-- `FUnset` -/
def fUnset (t : FuncTable) (name : List Char) : FuncTable :=
  match t.findLink name with
  | none => t
  | some l => t.delete l

/-- `FSet`; the callers have seen to it that the name is free. -/
def fSet (t : FuncTable) (f : UserFunc) : FuncTable :=
  if h : t.tbl.find funcHashing f = none then
    ⟨t.tbl.insert funcHashing f, (t.wf.insert h).1⟩
  else t

/-- Write to a function in the table: all of it but its name. -/
def assign (t : FuncTable) (l : Link UserFunc) (f : UserFunc) : FuncTable :=
  if h : l ∈ t.tbl.links then
    ⟨t.tbl.assign l { f with name := l.item.name },
      (t.wf.assign h (x := { f with name := l.item.name }) rfl).1⟩
  else t

/-- `RenameUserFunc`.  If the names differ in what the table does not keep of them only, the function
is freed by `FUnset(newname)` and inserted all the same: as the memory still has it. -/
def renameUserFunc (t : FuncTable) (oldname newname : List Char) : FuncTable :=
  if oldname = newname then t
  else
    let t' := t.fUnset newname
    match t.findLink oldname with
    | none => t'
    | some l => (t'.delete l).fSet { l.item with name := strnCpy newname varNameLen }

section

variable {t : FuncTable} {l : Link UserFunc} {f : UserFunc} {name n : List Char}

theorem findLink_iff :
    t.findLink name = some l ↔ l ∈ t.tbl.links ∧ l.item.name = strnCpy name varNameLen :=
  t.wf.find_iff

theorem mem_delete {m : Link UserFunc} (hm : m ∈ (t.delete l).tbl.links) : m ∈ t.tbl.links := by
  unfold delete at hm
  split at hm
  · next h => exact (t.wf.delete h).2.mem_iff.mpr (List.mem_cons_of_mem l hm)
  · exact hm

theorem mem_fUnset {m : Link UserFunc} (hm : m ∈ (t.fUnset name).tbl.links) : m ∈ t.tbl.links := by
  unfold fUnset at hm
  split at hm
  · exact hm
  · exact mem_delete hm

theorem mem_fSet {m : Link UserFunc} (hm : m ∈ (t.fSet f).tbl.links) :
    m.item = f ∨ m ∈ t.tbl.links := by
  unfold fSet at hm
  split at hm
  · next h =>
    rcases List.mem_cons.mp ((t.wf.insert h).2.mem_iff.mp hm) with rfl | hm
    · exact .inl rfl
    · exact .inr hm
  · exact .inr hm

theorem mem_assign {m : Link UserFunc} (hm : m ∈ (t.assign l f).tbl.links) :
    m.item = { f with name := l.item.name } ∨ m ∈ t.tbl.links := by
  unfold assign at hm
  split at hm
  · next h =>
    rcases List.mem_cons.mp ((t.wf.assign h (x := { f with name := l.item.name }) rfl).2.mem_iff.mp hm)
      with rfl | hm
    · exact .inl rfl
    · exact .inr (List.mem_of_mem_erase hm)
  · exact .inr hm

theorem mem_renameUserFunc {m : Link UserFunc} {old new : List Char}
    (hm : m ∈ (t.renameUserFunc old new).tbl.links) :
    m ∈ t.tbl.links ∨ ∃ l ∈ t.tbl.links, m.item = { l.item with name := strnCpy new varNameLen } := by
  unfold renameUserFunc at hm
  split at hm
  · exact .inl hm
  · dsimp only at hm
    split at hm
    · exact .inl (mem_fUnset hm)
    · next l hl =>
      rcases mem_fSet hm with hm | hm
      · exact .inr ⟨l, (findLink_iff.mp hl).1, hm⟩
      · exact .inl (mem_fUnset (mem_delete hm))

end

end FuncTable

/-! ### The commands -/

/-- One function in `PushedUserFuncs`: a clone, or that there was none of the name. -/
inductive PushedFunc where
  | absent (name : List Char)
  | clone (f : UserFunc)

structure FuncState where
  funcs : FuncTable
  stack : List (List PushedFunc)
  runDisabled : BitVec 32

/-- What FSET gets from its line and its place: the name, the arguments and the expression after it
or the error found there. -/
structure FsetLine where
  name : List Char
  body : Except ErrCode (ℕ × Expr)
  filename : String
  lineno : ℤ
  deriving DecidableEq

section

variable (isBuiltin : List Char → Bool)

/-- The function that FSET makes. -/
def FsetLine.newFunc (line : FsetLine) (runDisabled : BitVec 32) (inConstantContext : Bool)
    (nargs : ℕ) (node : Expr) : UserFunc where
  name := strnCpy line.name varNameLen
  nargs := nargs
  isConstant := inConstantContext
  runDisabled := runDisabled ≠ 0
  beenPushed := false
  filename := line.filename
  lineno := line.lineno
  node := node
  fsetRun := runDisabled

/-- `DoFset`, where the line is not ignored. -/
def fsetHere (s : FuncState) (inConstantContext : Bool) (line : FsetLine) :
    FuncState × Option ErrCode :=
  if (s.funcs.findUserFunc line.name).any fun f =>
      f.filename = line.filename ∧ f.filename ≠ "[cmdline]" ∧ f.lineno = line.lineno then
    -- the same definition, read again
    (s, none)
  else if isBuiltin (strnCpy line.name varNameLen) then (s, some .redefBuiltinFunc)
  else
    match line.body with
    | .error e => (s, some e)
    | .ok (nargs, node) =>
      let func := line.newFunc s.runDisabled inConstantContext nargs node
      ({ s with funcs := (s.funcs.fUnset func.name).fSet func }, none)

/-- `DoFset`; `ignoring` is `should_ignore_line()`. -/
def doFset (s : FuncState) (ignoring inConstantContext : Bool) (line : FsetLine) :
    FuncState × Option ErrCode :=
  if isSysName line.name then (s, some .badId)
  else if ignoring then
    if inConstantContext then (s, none)
    else
      match s.funcs.findLink line.name with
      | none => (s, none)
      | some l => ({ s with funcs := s.funcs.assign l { l.item with isConstant := false } }, none)
  else fsetHere isBuiltin s inConstantContext line

/-- `DoFunset` -/
def doFunset (s : FuncState) (idents : List (List Char)) : FuncState × Option ErrCode :=
  ({ s with funcs := idents.foldl FuncTable.fUnset s.funcs },
    if idents = [] then some .parseErr else none)

/-- `DoFrename` -/
def doFrename (s : FuncState) (oldname newname : List Char) : FuncState × Option ErrCode :=
  if isBuiltin newname ∨ isBuiltin oldname then (s, some .redefBuiltinFunc)
  else ({ s with funcs := s.funcs.renameUserFunc oldname newname }, none)

/-- `clone_userfunc` -/
def cloneUserfunc (t : FuncTable) (name : List Char) : FuncTable × PushedFunc :=
  match t.findLink name with
  | none => (t, .absent (strnCpy name varNameLen))
  | some l => (t.assign l { l.item with beenPushed := true }, .clone l.item)

/-- The loop of `PushUserFuncs`; `last` is what `ParseIdentifier` returns after `idents`. -/
def pushFuncsLoop (t : FuncTable) (pf : List PushedFunc) (idents : List (List Char)) (last : ErrCode) :
    FuncTable × Except ErrCode (List PushedFunc) :=
  match idents with
  | [] => (t, if last = .eoln then .ok pf else .error last)
  | name :: rest =>
    if isSysName name then (t, .error .badId)
    else if isBuiltin name then pushFuncsLoop t pf rest last
    else
      let (t', clone) := cloneUserfunc t name
      pushFuncsLoop t' (pf ++ [clone]) rest last

/-- `PushUserFuncs` -/
def pushUserFuncs (s : FuncState) (idents : List (List Char)) (last : ErrCode) :
    FuncState × Option ErrCode :=
  match pushFuncsLoop isBuiltin s.funcs [] idents last with
  | (t, .error e) => ({ s with funcs := t }, some e)
  | (t, .ok []) => ({ s with funcs := t }, some .eoln)
  | (t, .ok pf) => ({ s with funcs := t, stack := pf :: s.stack }, none)

/-- Put one pushed function back. -/
def popFunc (t : FuncTable) : PushedFunc → FuncTable
  | .absent name => t.fUnset name
  | .clone f => (t.fUnset f.name).fSet f

/-- `PopUserFuncs`; `eoln` is the result of `VerifyEoln`. -/
def popUserFuncs (s : FuncState) (eoln : Option ErrCode) : FuncState × Option ErrCode :=
  match eoln with
  | some e => (s, some e)
  | none =>
    match s.stack with
    | [] => (s, some .popfNoPush)
    | pf :: stack => ({ s with funcs := pf.foldl popFunc s.funcs, stack := stack }, none)

/-- `setRun` is whatever changes `RunDisabled` between two lines: RUN, a file that is not the
user's own, an option. -/
inductive FuncCmd where
  | fset (ignoring inConstantContext : Bool) (line : FsetLine)
  | funset (idents : List (List Char))
  | frename (oldname newname : List Char)
  | push (idents : List (List Char)) (last : ErrCode)
  | pop (eoln : Option ErrCode)
  | setRun (v : BitVec 32)

namespace FuncState

def init : FuncState where
  funcs := FuncTable.init
  stack := []
  runDisabled := 0

/-- One command; errors are reported and the next line is read. -/
def step (s : FuncState) : FuncCmd → FuncState
  | .fset ignoring ctx line => (doFset isBuiltin s ignoring ctx line).1
  | .funset idents => (doFunset s idents).1
  | .frename oldname newname => (doFrename isBuiltin s oldname newname).1
  | .push idents last => (pushUserFuncs isBuiltin s idents last).1
  | .pop eoln => (popUserFuncs s eoln).1
  | .setRun v => { s with runDisabled := v }

def run (s : FuncState) (cmds : List FuncCmd) : FuncState := cmds.foldl (step isBuiltin) s

end FuncState

end

/-! ### Functions stay what their FSET made them -/

/-- A property of functions that no command but FSET has a say in. -/
structure Lasting (P : UserFunc → Prop) : Prop where
  renamed : ∀ f n, P f → P { f with name := n }
  impure : ∀ f, P f → P { f with isConstant := false }
  pushed : ∀ f, P f → P { f with beenPushed := true }

namespace FuncTable

def All (P : UserFunc → Prop) (t : FuncTable) : Prop := ∀ l ∈ t.tbl.links, P l.item

variable {P : UserFunc → Prop} {t : FuncTable}

theorem all_init : All P init := by
  intro l hl
  simp [init, HashTable.init, HashTable.links] at hl

theorem All.find {name : List Char} {f : UserFunc} (h : t.All P)
    (hf : t.findUserFunc name = some f) : P f := by
  unfold findUserFunc at hf
  obtain ⟨l, hl, rfl⟩ := Option.map_eq_some_iff.mp hf
  exact h l (findLink_iff.mp hl).1

theorem All.fUnset (h : t.All P) (name : List Char) : (t.fUnset name).All P :=
  fun l hl => h l (mem_fUnset hl)

theorem All.fSet {f : UserFunc} (h : t.All P) (hf : P f) : (t.fSet f).All P := by
  intro l hl
  rcases mem_fSet hl with hl | hl
  · rw [hl]
    exact hf
  · exact h l hl

theorem All.assign {l : Link UserFunc} {f : UserFunc} (h : t.All P)
    (hf : P { f with name := l.item.name }) : (t.assign l f).All P := by
  intro m hm
  rcases mem_assign hm with hm | hm
  · rw [hm]
    exact hf
  · exact h m hm

theorem All.rename (hP : Lasting P) (h : t.All P) (old new : List Char) :
    (t.renameUserFunc old new).All P := by
  intro m hm
  rcases mem_renameUserFunc hm with hm | ⟨l, hl, hm⟩
  · exact h m hm
  · rw [hm]
    exact hP.renamed _ _ (h l hl)

end FuncTable

def PushedFunc.Sat (P : UserFunc → Prop) : PushedFunc → Prop
  | .absent _ => True
  | .clone f => P f

/-- In the table and on the stack. -/
structure FuncState.All (P : UserFunc → Prop) (s : FuncState) : Prop where
  funcs : s.funcs.All P
  stack : ∀ pf ∈ s.stack, ∀ p ∈ pf, p.Sat P

section

variable {P : UserFunc → Prop} {s : FuncState} {isBuiltin : List Char → Bool}

theorem cloneUserfunc_all {t : FuncTable} (hP : ∀ f, P f → P { f with beenPushed := true })
    (h : t.All P) (name : List Char) :
    (cloneUserfunc t name).1.All P ∧ (cloneUserfunc t name).2.Sat P := by
  unfold cloneUserfunc
  split
  · exact ⟨h, trivial⟩
  · next l hl =>
    have hl := h l (FuncTable.findLink_iff.mp hl).1
    exact ⟨h.assign (hP _ hl), hl⟩

theorem pushFuncsLoop_all {last : ErrCode} (hP : ∀ f, P f → P { f with beenPushed := true })
    (idents : List (List Char)) {t : FuncTable} {pf : List PushedFunc} (h : t.All P) (hpf : ∀ p ∈ pf, p.Sat P) :
    (pushFuncsLoop isBuiltin t pf idents last).1.All P ∧
      ∀ pf', (pushFuncsLoop isBuiltin t pf idents last).2 = .ok pf' → ∀ p ∈ pf', p.Sat P := by
  fun_induction pushFuncsLoop isBuiltin t pf idents last with
  | case1 t pf =>
    refine ⟨h, fun pf' hpf' => ?_⟩
    split_ifs at hpf'
    cases hpf'
    exact hpf
  | case2 => exact ⟨h, fun pf' hpf' => by cases hpf'⟩
  | case3 t pf name rest _ _ ih => exact ih h hpf
  | case4 t pf name rest _ _ t' clone hclone ih =>
    obtain ⟨ht', hc⟩ := cloneUserfunc_all hP h name
    rw [hclone] at ht' hc
    refine ih ht' fun p hp => ?_
    rcases List.mem_append.mp hp with hp | hp
    · exact hpf p hp
    · rw [List.mem_singleton.mp hp]
      exact hc

theorem popFuncs_all (pf : List PushedFunc) {t : FuncTable} (h : t.All P)
    (hpf : ∀ p ∈ pf, p.Sat P) : (pf.foldl popFunc t).All P := by
  induction pf generalizing t with
  | nil => exact h
  | cons p pf ih =>
    refine ih ?_ fun q hq => hpf q (List.mem_cons_of_mem p hq)
    have hp := hpf p List.mem_cons_self
    cases p with
    | absent name => exact h.fUnset name
    | clone f => exact (h.fUnset f.name).fSet hp

theorem pushUserFuncs_all (hP : ∀ f, P f → P { f with beenPushed := true }) (h : s.All P)
    (idents : List (List Char)) (last : ErrCode) :
    (pushUserFuncs isBuiltin s idents last).1.All P := by
  obtain ⟨ht, hpf⟩ := @pushFuncsLoop_all P isBuiltin last hP idents s.funcs [] h.funcs (by simp)
  unfold pushUserFuncs
  split
  · next t e heq =>
    rw [heq] at ht
    exact ⟨ht, h.stack⟩
  · next t heq =>
    rw [heq] at ht
    exact ⟨ht, h.stack⟩
  · next t pf _ heq =>
    rw [heq] at ht hpf
    refine ⟨ht, fun q hq => ?_⟩
    rcases List.mem_cons.mp hq with rfl | hq
    · exact hpf q rfl
    · exact h.stack q hq

theorem popUserFuncs_all (h : s.All P) (eoln : Option ErrCode) :
    (popUserFuncs s eoln).1.All P := by
  unfold popUserFuncs
  split
  · exact h
  · split
    · exact h
    · next pf stack hstack =>
      refine ⟨popFuncs_all pf h.funcs (h.stack pf (by simp [hstack])), fun q hq => ?_⟩
      exact h.stack q (by simp [hstack, hq])

theorem fUnsets_all {t : FuncTable} (h : t.All P) (idents : List (List Char)) :
    (idents.foldl FuncTable.fUnset t).All P := by
  induction idents generalizing t with
  | nil => exact h
  | cons n ns ih => exact ih (h.fUnset n)

theorem fsetHere_all {ctx : Bool} {line : FsetLine} (h : s.All P)
    (hnew : ∀ rd ctx nargs node, P (line.newFunc rd ctx nargs node)) :
    (fsetHere isBuiltin s ctx line).1.All P := by
  fun_cases fsetHere isBuiltin s ctx line with
  | case1 => exact h
  | case2 => exact h
  | case3 => exact h
  | case4 => exact ⟨(h.funcs.fUnset _).fSet (hnew _ _ _ _), h.stack⟩

/-- What every new function has and no other command takes away is there after each command. -/
theorem step_all (hP : Lasting P) (hnew : ∀ (line : FsetLine) rd ctx nargs node,
    P (line.newFunc rd ctx nargs node)) (h : s.All P) (cmd : FuncCmd) :
    (s.step isBuiltin cmd).All P := by
  cases cmd with
  | fset ignoring ctx line =>
    change ((doFset isBuiltin s ignoring ctx line).1).All P
    fun_cases doFset isBuiltin s ignoring ctx line with
    | case1 => exact h
    | case2 => exact h
    | case3 => exact h
    | case4 _ _ _ l hl =>
      have hl := h.funcs l (FuncTable.findLink_iff.mp hl).1
      exact ⟨h.funcs.assign (hP.impure _ hl), h.stack⟩
    | case5 => exact fsetHere_all h (hnew line)
  | funset idents => exact ⟨fUnsets_all h.funcs idents, h.stack⟩
  | frename oldname newname =>
    change ((doFrename isBuiltin s oldname newname).1).All P
    unfold doFrename
    split_ifs
    · exact h
    · exact ⟨h.funcs.rename hP _ _, h.stack⟩
  | push idents last => exact pushUserFuncs_all hP.pushed h idents last
  | pop eoln => exact popUserFuncs_all h eoln
  | setRun v => exact ⟨h.funcs, h.stack⟩

theorem run_all (hP : Lasting P) (hnew : ∀ (line : FsetLine) rd ctx nargs node,
    P (line.newFunc rd ctx nargs node)) (h : s.All P) (cmds : List FuncCmd) :
    (s.run isBuiltin cmds).All P := by
  induction cmds generalizing s with
  | nil => exact h
  | cons cmd cmds ih => exact ih (step_all hP hnew h cmd)

end

end Remind
