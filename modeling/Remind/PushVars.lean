import Mathlib.Data.List.Infix
import Remind.Vars

/-!
# PushVars — SET, UNSET, PRESERVE, PUSH-VARS and POP-VARS (var.c)

A command gets what the parser reads for it: the identifiers before the first one that cannot be
read, and that error (`E_EOLN` at the end of the line).
-/

namespace Remind

open VarTable

/-- The system variables: `FindSysVar` (the variable's name and `modifiable`), `GetSysVar`,
`SetSysVar`. -/
structure SysVarOps (σ : Type) where
  find : List Char → Option (List Char × Bool)
  get : σ → List Char → Except ErrCode Value
  set : σ → List Char → Value → σ × Option ErrCode

/-- A pushed user variable: the copy, or the mark `E_NOSUCH_VAR`. -/
inductive PushedVar where
  | noSuchVar (name : List Char)
  | copy (v : Var)
  deriving DecidableEq, Repr

/-- `PushedVars` -/
structure PushedVars where
  sysvars : List (List Char × Value) := []
  vars : List PushedVar := []
  deriving DecidableEq, Repr

/-- The variables, the system variables and `VarStack`. -/
structure VarState (σ : Type) where
  vars : VarTable
  sys : σ
  stack : List PushedVars

section

variable {σ : Type} (ops : SysVarOps σ)

/-- `*name == '$'` -/
def isSysName (name : List Char) : Bool := name.head? == some '$'

/-- `add_sysvar_to_push` -/
def addSysvarToPush (sys : σ) (name : List Char) (pv : PushedVars) :
    Except ErrCode PushedVars :=
  let name := if isSysName name then name.tail else name
  match ops.find name with
  | none => .error .noSuchVar
  | some (vname, modifiable) =>
    if !modifiable then .error .cantModify
    else
      match ops.get sys vname with
      | .error e => .error e
      | .ok v => .ok { pv with sysvars := pv.sysvars ++ [(vname, v)] }

/-- `add_var_to_push` -/
def addVarToPush (t : VarTable) (name : List Char) (pv : PushedVars) : VarTable × PushedVars :=
  match t.findVar name with
  | none => (t, { pv with vars := pv.vars ++ [PushedVar.noSuchVar (strnCpy name varNameLen)] })
  | some l =>
    (t.assign l { l.item.toVarData with usedSinceSet := true },
      { pv with vars := pv.vars ++
        [PushedVar.copy { l.item with name := strnCpy l.item.name varNameLen }] })

/-- The loop of `PushVars`; `last` is what `ParseIdentifier` returns after `idents`. -/
def pushLoop (s : VarState σ) (pv : PushedVars) (idents : List (List Char)) (last : ErrCode) :
    VarState σ × Except ErrCode PushedVars :=
  match idents with
  | [] => (s, if last = .eoln then .ok pv else .error last)
  | name :: rest =>
    if isSysName name then
      match addSysvarToPush ops s.sys name.tail pv with
      | .error e => (s, .error e)
      | .ok pv' => pushLoop s pv' rest last
    else
      let (t, pv') := addVarToPush s.vars name pv
      pushLoop { s with vars := t } pv' rest last

/-- `PushVars` -/
def pushVars (s : VarState σ) (idents : List (List Char)) (last : ErrCode) :
    VarState σ × Option ErrCode :=
  match pushLoop ops s {} idents last with
  | (s', .error e) => (s', some e)
  | (s', .ok pv) =>
    if pv.vars.length + pv.sysvars.length = 0 then (s', some .eoln)
    else ({ s' with stack := pv :: s'.stack }, none)

/-- Put one pushed variable back. -/
def popVar (junk : List Char → Bool) (t : VarTable) : PushedVar → VarTable
  | .noSuchVar name => t.deleteVar name
  | .copy src =>
    match t.findVar src.name with
    | some dest => t.assign dest src.toVarData
    | none =>
      let (t', dest) := t.findVarCreate (junk src.name) src.name
      t'.assign dest src.toVarData

/-- `Pop the sysvars`; the last error is the result. -/
def popSysvars (sys : σ) (sysvars : List (List Char × Value)) : σ × Option ErrCode :=
  sysvars.foldl (fun (sys, ret) (name, v) =>
    let (sys', r) := ops.set sys name v
    (sys', r.or ret)) (sys, none)

/-- `PopVars`; `eoln` is the result of `VerifyEoln`. -/
def popVars (junk : List Char → Bool) (s : VarState σ) (eoln : Option ErrCode) :
    VarState σ × Option ErrCode :=
  match eoln with
  | some e => (s, some e)
  | none =>
    match s.stack with
    | [] => (s, some .popvNoPush)
    | pv :: stack =>
      let (sys, ret) := popSysvars ops s.sys pv.sysvars
      ({ vars := pv.vars.foldl (popVar junk) s.vars, sys := sys, stack := stack }, ret)

/-- What `DoSet` gets from its line: the identifier; `ParseNonSpaceChar` for the equals sign;
`isnested`; the expression's value with its constness and the variables read by it; the token after
it. -/
structure SetLine where
  ident : Except ErrCode (List Char)
  equals : Option ErrCode
  isnested : Bool
  expr : Except ErrCode (Value × Bool)
  reads : List (List Char)
  rest : Except ErrCode (List Char)
  filename : String
  lineno : ℤ

/-- `DoSet` -/
def doSet (junk : List Char → Bool) (s : VarState σ) (ignoring inConstantContext : Bool)
    (line : SetLine) : VarState σ × Option ErrCode :=
  match line.ident with
  | .error e => (s, if ignoring then none else some e)
  | .ok name =>
    if ignoring then
      if inConstantContext then (s, none)
      else
        match s.vars.findVar name with
        | none => (s, none)
        | some l =>
          ({ s with vars := s.vars.assign l { l.item.toVarData with isConstant := false } }, none)
    else
      match line.equals with
      | some e => (s, some e)
      | none =>
        if line.isnested then (s, some .cantnestFdef)
        else
          let s1 := { s with vars := line.reads.foldl touch s.vars }
          match line.expr with
          | .error e => (s1, some e)
          | .ok (v, nonconst) =>
            match line.rest with
            | .error e => (s1, some e)
            | .ok tok =>
              if tok ≠ [] then (s1, some .expectingEol)
              else if isSysName name then
                let (sys, r) := ops.set s1.sys name.tail v
                ({ s1 with sys := sys }, r)
              else
                let t := s1.vars.setVar (junk name) name v (nonconst || !inConstantContext)
                  line.filename line.lineno
                ({ s1 with vars := t }, none)

/-- `DoUnset`; `last` is an error of `ParseToken` after `tokens`. -/
def doUnset (s : VarState σ) (tokens : List (List Char)) (last : Option ErrCode) :
    VarState σ × Option ErrCode :=
  ({ s with vars := tokens.foldl deleteVar s.vars },
    if tokens = [] then some (last.getD .eoln) else last)

/-- `DoPreserve` -/
def doPreserve (junk : List Char → Bool) (s : VarState σ) (idents : List (List Char))
    (last : ErrCode) : VarState σ × Option ErrCode :=
  ({ s with vars := idents.foldl (fun t name => t.preserveVar (junk name) name) s.vars },
    if last = .eoln ∧ idents ≠ [] then none else some last)

end

/-- A command on the variables. -/
inductive VarCmd where
  | set (ignoring inConstantContext : Bool) (line : SetLine)
  | unset (tokens : List (List Char)) (last : Option ErrCode)
  | preserve (idents : List (List Char)) (last : ErrCode)
  | push (idents : List (List Char)) (last : ErrCode)
  | pop (eoln : Option ErrCode)

namespace VarState

variable {σ : Type} (ops : SysVarOps σ) (junk : List Char → Bool)

/-- One command; errors are reported and the next line is read. -/
def step (s : VarState σ) : VarCmd → VarState σ
  | .set ignoring ctx line => (doSet ops junk s ignoring ctx line).1
  | .unset tokens last => (doUnset s tokens last).1
  | .preserve idents last => (doPreserve junk s idents last).1
  | .push idents last => (pushVars ops s idents last).1
  | .pop eoln => (popVars ops junk s eoln).1

def run (s : VarState σ) (cmds : List VarCmd) : VarState σ := cmds.foldl (step ops junk) s

end VarState

/-! ## Putting back -/

/-- What a PUSH keeps of a variable. -/
def kept (l : Link Var) : Value × Bool × Bool :=
  (l.item.v, l.item.preserve, l.item.isConstant)

/-- A variable as it is seen under a name, as far as a PUSH keeps it. -/
def keptVar (t : VarTable) (name : List Char) : Option (Value × Bool × Bool) :=
  (t.findVar name).map kept

namespace PushedVar

def name : PushedVar → List Char
  | .noSuchVar name => name
  | .copy v => v.name

def kept : PushedVar → Option (Value × Bool × Bool)
  | .noSuchVar _ => none
  | .copy v => some (v.v, v.preserve, v.isConstant)

end PushedVar

section

variable {σ : Type} {ops : SysVarOps σ} {junk : List Char → Bool}

theorem keptVar_congr {t : VarTable} {m n : List Char} (h : varKey m = varKey n) :
    keptVar t m = keptVar t n := by
  unfold keptVar
  rw [findVar_congr h]

/-- Putting a copy back writes its variable, found or made anew, and no other. -/
theorem findVar_popVar_copy (t : VarTable) (src : Var) :
    ∃ hashval name, ∀ n, (popVar junk t (.copy src)).findVar n =
      if varKey src.name = varKey n then
        some ⟨hashval, { toVarData := src.toVarData, name := name }⟩
      else t.findVar n := by
  cases hf : t.findVar src.name with
  | some dest =>
    obtain ⟨hmem, hkey⟩ := findVar_iff.mp hf
    refine ⟨dest.hashval, dest.item.name, fun n => ?_⟩
    simp only [popVar, hf]
    rw [findVar_assign hmem, hkey]
  | none =>
    obtain ⟨hmem, hkey⟩ := @findVarCreate_mem t src.name (junk src.name)
    refine ⟨(t.findVarCreate (junk src.name) src.name).2.hashval,
      (t.findVarCreate (junk src.name) src.name).2.item.name, fun n => ?_⟩
    simp only [popVar, hf]
    rw [findVar_assign hmem, hkey, findVar_findVarCreate]
    split_ifs <;> rfl

theorem findVar_popVar_other {t : VarTable} {p : PushedVar} {n : List Char}
    (h : varKey p.name ≠ varKey n) : (popVar junk t p).findVar n = t.findVar n := by
  cases p with
  | noSuchVar name => exact findVar_deleteVar.trans (if_neg h)
  | copy src =>
    obtain ⟨hv, name, hfind⟩ := @findVar_popVar_copy junk t src
    exact (hfind n).trans (if_neg h)

theorem keptVar_popVar {t : VarTable} {p : PushedVar} {n : List Char}
    (h : varKey p.name = varKey n) : keptVar (popVar junk t p) n = p.kept := by
  unfold keptVar
  cases p with
  | noSuchVar name =>
    have hnone : (t.deleteVar name).findVar n = none := findVar_deleteVar.trans (if_pos h)
    exact congrArg (Option.map Remind.kept) hnone
  | copy src =>
    obtain ⟨hv, name, hfind⟩ := @findVar_popVar_copy junk t src
    rw [(hfind n).trans (if_pos h)]
    rfl

theorem findVar_popAll_other {ps : List PushedVar} {t : VarTable} {n : List Char}
    (h : ∀ p ∈ ps, varKey p.name ≠ varKey n) :
    (ps.foldl (popVar junk) t).findVar n = t.findVar n := by
  induction ps generalizing t with
  | nil => rfl
  | cons p ps ih =>
    rw [List.foldl_cons, ih fun q hq => h q (List.mem_cons_of_mem _ hq)]
    exact findVar_popVar_other (h p List.mem_cons_self)

/-- When all that is put back under a name agrees on it, that is what is there in the end. -/
theorem keptVar_popAll {ps : List PushedVar} {t : VarTable} {n : List Char}
    {c : Option (Value × Bool × Bool)}
    (hall : ∀ p ∈ ps, varKey p.name = varKey n → p.kept = c)
    (hsome : (∃ p ∈ ps, varKey p.name = varKey n) ∨ keptVar t n = c) :
    keptVar (ps.foldl (popVar junk) t) n = c := by
  induction ps generalizing t with
  | nil =>
    rcases hsome with ⟨p, hp, -⟩ | hsome
    · simp at hp
    · exact hsome
  | cons p ps ih =>
    rw [List.foldl_cons]
    apply ih fun q hq => hall q (List.mem_cons_of_mem _ hq)
    by_cases hp : varKey p.name = varKey n
    · exact .inr ((keptVar_popVar hp).trans (hall p List.mem_cons_self hp))
    · rcases hsome with ⟨q, hq, hkey⟩ | hsome
      · rcases List.mem_cons.mp hq with rfl | hq
        · exact (hp hkey).elim
        · exact .inl ⟨q, hq, hkey⟩
      · refine .inr ?_
        unfold keptVar
        rw [findVar_popVar_other hp]
        exact hsome

/-! ## Pushing -/

theorem keptVar_touch {t : VarTable} {l : Link Var} (hl : l ∈ t.tbl.links) (n : List Char) :
    keptVar (t.assign l { l.item.toVarData with usedSinceSet := true }) n = keptVar t n := by
  unfold keptVar
  rw [findVar_assign hl]
  split_ifs with hkey
  · rw [findVar_iff.mpr ⟨hl, hkey⟩]
    rfl
  · rfl

/-- The pushed variables say what the table `t₀` holds, and they are those of the names `done`. -/
structure Pushed (t₀ : VarTable) (done : List (List Char)) (pv : PushedVars) : Prop where
  kept : ∀ p ∈ pv.vars, p.kept = keptVar t₀ p.name
  mem : ∀ n, (∃ p ∈ pv.vars, varKey p.name = varKey n) ↔ ∃ m ∈ done, varKey m = varKey n

theorem varKey_strnCpy (str : List Char) : varKey (strnCpy str varNameLen) = varKey str := by
  unfold varKey strnCpy
  rw [List.take_take, Nat.min_self]

/-- A name in the table is its own truncation. -/
theorem varKey_of_key {v : Var} {n : List Char} (h : varHashing.key v = varKey n) :
    varKey v.name = varKey n := by
  have hkey : v.name.map Char.toUpper = varKey n := h
  have hlen : v.name.length ≤ varNameLen := by
    have hlen := congrArg List.length hkey
    simp only [varKey, strnCpy, List.length_map, List.length_take] at hlen
    omega
  rw [← hkey]
  unfold varKey strnCpy
  rw [List.take_of_length_le hlen]

theorem addVarToPush_spec {t t₀ : VarTable} {pv : PushedVars} {done : List (List Char)}
    (hpv : Pushed t₀ done pv) (hsame : ∀ n, keptVar t n = keptVar t₀ n) (name : List Char) :
    Pushed t₀ (done ++ [name]) (addVarToPush t name pv).2 ∧
      ∀ n, keptVar (addVarToPush t name pv).1 n = keptVar t₀ n := by
  have hpush : ∀ p : PushedVar, varKey p.name = varKey name → p.kept = keptVar t₀ name →
      Pushed t₀ (done ++ [name]) { pv with vars := pv.vars ++ [p] } := by
    intro p hname hkept
    constructor
    · intro q hq
      rcases List.mem_append.mp hq with hq | hq
      · exact hpv.kept q hq
      · rw [List.mem_singleton.mp hq, hkept, keptVar_congr hname]
    · intro n
      have hold := hpv.mem n
      constructor
      · rintro ⟨q, hq, hkey⟩
        rcases List.mem_append.mp hq with hq | hq
        · obtain ⟨m, hm, hmk⟩ := hold.mp ⟨q, hq, hkey⟩
          exact ⟨m, List.mem_append_left _ hm, hmk⟩
        · rw [List.mem_singleton.mp hq, hname] at hkey
          exact ⟨name, by simp, hkey⟩
      · rintro ⟨m, hm, hmk⟩
        rcases List.mem_append.mp hm with hm | hm
        · obtain ⟨q, hq, hkey⟩ := hold.mpr ⟨m, hm, hmk⟩
          exact ⟨q, List.mem_append_left _ hq, hkey⟩
        · rw [List.mem_singleton.mp hm, ← hname] at hmk
          exact ⟨p, by simp, hmk⟩
  unfold addVarToPush
  cases hf : t.findVar name with
  | none =>
    refine ⟨hpush _ (varKey_strnCpy name) ?_, hsame⟩
    rw [← hsame]
    unfold keptVar
    rw [hf]
    rfl
  | some l =>
    obtain ⟨hl, hkey⟩ := findVar_iff.mp hf
    refine ⟨hpush _ ((varKey_strnCpy _).trans (varKey_of_key hkey)) ?_, fun n => ?_⟩
    · rw [← hsame]
      unfold keptVar
      rw [hf]
      rfl
    · exact (keptVar_touch hl n).trans (hsame n)

/-- The names of user variables among those of a list. -/
def userNames (idents : List (List Char)) : List (List Char) :=
  idents.filter fun name => !isSysName name

theorem pushLoop_stack {s : VarState σ} {pv : PushedVars} {idents : List (List Char)}
    {last : ErrCode} : (pushLoop ops s pv idents last).1.stack = s.stack := by
  induction idents generalizing s pv with
  | nil => rfl
  | cons name rest ih =>
    unfold pushLoop
    split_ifs
    · split
      · rfl
      · exact ih
    · exact ih

theorem pushLoop_spec {s s' : VarState σ} {pv pv' : PushedVars} {t₀ : VarTable}
    {done idents : List (List Char)} {last : ErrCode}
    (hpv : Pushed t₀ done pv) (hsame : ∀ n, keptVar s.vars n = keptVar t₀ n)
    (h : pushLoop ops s pv idents last = (s', .ok pv')) :
    Pushed t₀ (done ++ userNames idents) pv' ∧ s'.stack = s.stack := by
  induction idents generalizing s pv done with
  | nil =>
    unfold pushLoop at h
    split_ifs at h with hlast
    · cases h
      exact ⟨by simpa [userNames] using hpv, rfl⟩
    · cases h
  | cons name rest ih =>
    unfold pushLoop at h
    split_ifs at h with hsys
    · have hnames : userNames (name :: rest) = userNames rest := by simp [userNames, hsys]
      rw [hnames]
      cases hadd : addSysvarToPush ops s.sys name.tail pv with
      | error e => rw [hadd] at h; cases h
      | ok pv1 =>
        rw [hadd] at h
        have hvars : pv1.vars = pv.vars := by
          unfold addSysvarToPush at hadd
          simp only at hadd
          split at hadd
          · cases hadd
          · split_ifs at hadd
            split at hadd
            · cases hadd
            · cases hadd
              rfl
        exact ih ⟨hvars ▸ hpv.kept, hvars ▸ hpv.mem⟩ hsame h
    · have hnames : done ++ userNames (name :: rest) = done ++ [name] ++ userNames rest := by
        simp [userNames, hsys]
      rw [hnames]
      obtain ⟨hpv1, hsame1⟩ := addVarToPush_spec hpv hsame name
      exact ih (s := { s with vars := (addVarToPush s.vars name pv).1 }) hpv1 hsame1 h

/-! ## Nesting -/

theorem doSet_stack (s : VarState σ) (ignoring ctx : Bool) (line : SetLine) :
    (doSet ops junk s ignoring ctx line).1.stack = s.stack := by
  fun_cases doSet <;> rfl

/-- A command touches the top of the stack only: it leaves it, puts one entry on it, or takes one
off. -/
theorem step_stack (s : VarState σ) (cmd : VarCmd) :
    (s.step ops junk cmd).stack = s.stack ∨
      (∃ pv, (s.step ops junk cmd).stack = pv :: s.stack) ∨
      ∃ pv, s.stack = pv :: (s.step ops junk cmd).stack := by
  cases cmd with
  | set ignoring ctx line =>
    exact .inl (doSet_stack ..)
  | unset tokens last => exact .inl rfl
  | preserve idents last => exact .inl rfl
  | push idents last =>
    simp only [VarState.step, pushVars]
    have hloop := @pushLoop_stack _ ops s {} idents last
    split
    · next s' e h => exact .inl (by rw [h] at hloop; exact hloop)
    · next s' pv h =>
      rw [h] at hloop
      split_ifs
      · exact .inl hloop
      · exact .inr (.inl ⟨pv, congrArg _ hloop⟩)
  | pop eoln =>
    simp only [VarState.step, popVars]
    cases eoln with
    | some e => exact .inl rfl
    | none =>
      cases hst : s.stack with
      | nil => exact .inl hst
      | cons pv stack => exact .inr (.inr ⟨pv, rfl⟩)

/-- Commands that never go below a stack leave it at the bottom. -/
theorem run_suffix {st : List PushedVars} {cmds : List VarCmd} {s : VarState σ}
    (hsuf : st <:+ s.stack)
    (hdeep : ∀ pre, pre <+: cmds → st.length ≤ (s.run ops junk pre).stack.length) :
    st <:+ (s.run ops junk cmds).stack := by
  induction cmds generalizing s with
  | nil => exact hsuf
  | cons cmd cmds ih =>
    have hnext : st.length ≤ (s.step ops junk cmd).stack.length :=
      hdeep [cmd] (by simp)
    refine ih ?_ fun pre hpre => hdeep (cmd :: pre) (by simpa using hpre)
    rcases @step_stack _ ops junk s cmd with h | ⟨pv, h⟩ | ⟨pv, h⟩
    · rwa [h]
    · rw [h]
      exact hsuf.trans (List.suffix_cons ..)
    · rw [h] at hsuf
      rcases List.suffix_cons_iff.mp hsuf with rfl | hsuf
      · simp only [List.length_cons] at hnext
        omega
      · exact hsuf

theorem pushVars_spec {s s' : VarState σ} {idents : List (List Char)} {last : ErrCode}
    (h : pushVars ops s idents last = (s', none)) :
    ∃ pv, s'.stack = pv :: s.stack ∧ Pushed s.vars (userNames idents) pv := by
  unfold pushVars at h
  split at h
  · cases h
  · next s1 pv hloop =>
    split_ifs at h with hzero
    · cases (Prod.mk.inj h).2
    · obtain ⟨rfl, -⟩ := Prod.mk.inj h
      have hempty : Pushed s.vars [] {} := ⟨by simp, by simp⟩
      obtain ⟨hpv, hstack⟩ := pushLoop_spec hempty (fun _ => rfl) hloop
      exact ⟨pv, congrArg (pv :: ·) hstack, by simpa using hpv⟩

/-- **PUSH-VARS and POP-VARS.**  Between a PUSH and the POP that matches it (the stack is never
below its height after the PUSH, and is at that height at the POP) any commands are run.  After the
POP a listed variable is as it was at the PUSH, undefined if it was; any other is as the commands
left it. -/
theorem popVars_restores (ops : SysVarOps σ) (junk : List Char → Bool)
    {s₀ s₁ s₃ : VarState σ} {idents : List (List Char)} {last : ErrCode} {cmds : List VarCmd}
    {r : Option ErrCode}
    (hpush : pushVars ops s₀ idents last = (s₁, none))
    (hdeep : ∀ pre, pre <+: cmds → s₁.stack.length ≤ (s₁.run ops junk pre).stack.length)
    (hmatch : (s₁.run ops junk cmds).stack.length = s₁.stack.length)
    (hpop : popVars ops junk (s₁.run ops junk cmds) none = (s₃, r)) :
    (∀ n, (∃ m ∈ userNames idents, varKey m = varKey n) →
      keptVar s₃.vars n = keptVar s₀.vars n) ∧
    (∀ n, (∀ m ∈ userNames idents, varKey m ≠ varKey n) →
      s₃.vars.findVar n = (s₁.run ops junk cmds).vars.findVar n) ∧
    s₃.stack = s₀.stack := by
  obtain ⟨pv, hstack₁, hpv⟩ := pushVars_spec hpush
  have hstack₂ : (s₁.run ops junk cmds).stack = pv :: s₀.stack := by
    rw [← hstack₁]
    exact ((run_suffix (List.suffix_refl _) hdeep).eq_of_length hmatch.symm).symm
  unfold popVars at hpop
  rw [hstack₂] at hpop
  cases hpop
  refine ⟨fun n hn => ?_, fun n hn => ?_, rfl⟩
  · refine keptVar_popAll (fun p hp hkey => ?_) (.inl ((hpv.mem n).mpr hn))
    rw [hpv.kept p hp, keptVar_congr hkey]
  · refine findVar_popAll_other fun p hp hkey => ?_
    obtain ⟨m, hm, hmk⟩ := (hpv.mem n).mp ⟨p, hp, hkey⟩
    exact hn m hm hmk

end

/-! `SET x 5`, `PUSH-VARS x y`, then `SET x 6`, a nested `PUSH-VARS x`, `UNSET x`, `SET y 7` and its
POP. -/

/-- No system variables. -/
def noSysVars : SysVarOps Unit where
  find _ := none
  get _ _ := .error .noSuchVar
  set _ _ _ := ((), some .noSuchVar)

def setInt (name : List Char) (n : ℤ) : VarCmd :=
  .set false true ⟨.ok name, none, false, .ok (.int n, false), [], .ok [], "file", 1⟩

def xSet : VarState Unit :=
  VarState.step noSysVars (fun _ => false) ⟨VarTable.init, (), []⟩ (setInt ['x'] 5)

def xyCmds : List VarCmd :=
  [setInt ['x'] 6, .push [['x']] .eoln, .unset [['x']] none, setInt ['y'] 7, .pop none]

def xyPushed : VarState Unit := (pushVars noSysVars xSet [['x'], ['y']] .eoln).1

theorem popVars_restores_xy : ∃ s₃ r, popVars noSysVars (fun _ => false)
      (xyPushed.run noSysVars (fun _ => false) xyCmds) none = (s₃, r) ∧
    keptVar s₃.vars ['X'] = some (.int 5, false, true) ∧ keptVar s₃.vars ['y'] = none := by
  have hpush : pushVars noSysVars xSet [['x'], ['y']] .eoln = (xyPushed, none) :=
    Prod.ext rfl (by decide)
  have hdeep : ∀ pre, pre <+: xyCmds → xyPushed.stack.length ≤
      (xyPushed.run noSysVars (fun _ => false) pre).stack.length := by
    intro pre hpre
    have hin : pre ∈ xyCmds.inits := (List.mem_inits _ _).mpr hpre
    simp only [xyCmds, List.inits, List.mem_cons, List.map_cons, List.map_nil, List.not_mem_nil,
      or_false] at hin
    rcases hin with rfl | rfl | rfl | rfl | rfl | rfl <;> decide
  obtain ⟨hlisted, -⟩ := popVars_restores noSysVars (fun _ => false) hpush hdeep (by decide)
    (Prod.mk.eta.symm)
  exact ⟨_, _, Prod.mk.eta.symm, (hlisted ['X'] ⟨['x'], by decide, by decide⟩).trans (by decide),
    (hlisted ['y'] ⟨['y'], by decide, rfl⟩).trans (by decide)⟩

end Remind
