import Mathlib.Data.BitVec
import Remind.HashTab
import Remind.Trigger

/-!
# Vars — user variables, PUSH-VARS and POP-VARS (var.c)

The names are C strings, lists of characters up to the terminating zero; `VarTable` carries the
invariant of its hash table.  What a command reads from its line (identifiers, tokens, the value of
an expression) is handed to it; the system variables are behind `SysVarOps`.
-/

namespace Remind

open HashTable
open scoped List

/-- `VAR_NAME_LEN` -/
def varNameLen : ℕ := 64

/-- `StrnCpy(dest, source, n)` -/
def strnCpy (source : List Char) (n : ℕ) : List Char := source.take n

/-- `struct var` but its name and its link. -/
structure VarData where
  preserve : Bool
  isConstant : Bool
  usedSinceSet : Bool
  filename : String
  lineno : ℤ
  v : Value
  deriving DecidableEq, Repr

structure Var extends VarData where
  name : List Char
  deriving DecidableEq, Repr

/-- A plain `char` as an `int`. -/
def charToInt (c : Char) : ℤ := if c.toNat < 128 then c.toNat else c.toNat - 256

/-- One round of `HashVal_ignorecase`, `c` being `UPPER(*str)`. -/
def hashUpper (h : BitVec 32) (c : Char) : BitVec 32 :=
  let h := (h <<< 4) + BitVec.ofInt 32 (charToInt c)
  let high := h &&& 0xF0000000#32
  let h := if high ≠ 0 then h ^^^ (high >>> 24) else h
  h &&& ~~~high

def hashStep (h : BitVec 32) (c : Char) : BitVec 32 := hashUpper h c.toUpper

def hashValIgnorecase (str : List Char) : ℕ := (str.foldl hashStep 0).toNat

/-- `strcasecmp(a, b) == 0`: the same but for the case of letters. -/
def strcasecmp (a b : List Char) : Bool := a.map Char.toUpper == b.map Char.toUpper

theorem hashVal_congr {a b : List Char} (h : a.map Char.toUpper = b.map Char.toUpper) :
    hashValIgnorecase a = hashValIgnorecase b := by
  have hfold : ∀ (s : List Char) (x : BitVec 32),
      s.foldl hashStep x = (s.map Char.toUpper).foldl hashUpper x := by
    intro s x
    rw [List.foldl_map]
    rfl
  unfold hashValIgnorecase
  rw [hfold, hfold, h]

/-- `VarHashFunc`, `VarCompareFunc` -/
def varHashing : Hashing Var (List Char) where
  hashfunc v := hashValIgnorecase v.name
  compare x y := strcasecmp x.name y.name
  key v := v.name.map Char.toUpper
  compare_iff a b := by simp [strcasecmp]
  hash_congr _ _ h := hashVal_congr h

/-- `VHashTbl` -/
structure VarTable where
  tbl : HashTable Var
  wf : tbl.Wf varHashing

/-- A name as the table compares it. -/
def varKey (str : List Char) : List Char := (strnCpy str varNameLen).map Char.toUpper

/-- `candidate` in `FindVar`; nothing but its name is looked at. -/
def candidate (str : List Char) : Var where
  name := strnCpy str varNameLen
  preserve := false
  isConstant := false
  usedSinceSet := false
  filename := ""
  lineno := 0
  v := .int 0

namespace VarTable

/-- `InitVars` -/
def init : VarTable := ⟨HashTable.init, wf_init⟩

/-- `FindVar(str, 0)` -/
def findVar (t : VarTable) (str : List Char) : Option (Link Var) :=
  t.tbl.find varHashing (candidate str)

/-- The variable that `FindVar(str, 1)` makes; `used_since_set` is what the memory holds. -/
def newVar (junk : Bool) (str : List Char) : Var where
  v := .int 0
  preserve := false
  isConstant := true
  usedSinceSet := junk
  filename := ""
  lineno := 0
  name := strnCpy str varNameLen

@[simp] theorem key_candidate (str : List Char) : varHashing.key (candidate str) = varKey str := rfl

@[simp] theorem key_newVar (junk : Bool) (str : List Char) :
    varHashing.key (newVar junk str) = varKey str := rfl

theorem find_newVar {t : VarTable} {junk : Bool} {str : List Char} (h : t.findVar str = none) :
    t.tbl.find varHashing (newVar junk str) = none :=
  t.wf.find_none_iff.mpr fun l hl => t.wf.find_none_iff.mp h l hl

/-- `FindVar(str, 1)` -/
def findVarCreate (t : VarTable) (junk : Bool) (str : List Char) : VarTable × Link Var :=
  match h : t.findVar str with
  | some l => (t, l)
  | none => (⟨t.tbl.insert varHashing (newVar junk str), (t.wf.insert (find_newVar h)).1⟩,
      ⟨varHashing.hashfunc (newVar junk str), newVar junk str⟩)

/-- Write to the variable `*v`, which is in the table: all of it but its name. -/
def assign (t : VarTable) (l : Link Var) (d : VarData) : VarTable :=
  if h : l ∈ t.tbl.links then
    ⟨t.tbl.assign l { toVarData := d, name := l.item.name },
      (t.wf.assign h (x := { toVarData := d, name := l.item.name }) rfl).1⟩
  else t

/-- `hash_table_delete(&VHashTbl, v)` -/
def delete (t : VarTable) (l : Link Var) : VarTable :=
  if h : l ∈ t.tbl.links then ⟨t.tbl.delete l, (t.wf.delete h).1⟩ else t

/-- `DeleteVar`; its callers do not look at the result. -/
def deleteVar (t : VarTable) (str : List Char) : VarTable :=
  match t.findVar str with
  | none => t
  | some l => t.delete l

/-- `SetVar` -/
def setVar (t : VarTable) (junk : Bool) (str : List Char) (val : Value) (nonconstExpr : Bool)
    (filename : String) (lineno : ℤ) : VarTable :=
  let (t1, l) := t.findVarCreate junk str
  t1.assign l { l.item.toVarData with
    v := val
    isConstant := !nonconstExpr
    usedSinceSet := false
    filename := filename
    lineno := lineno }

/-- `PreserveVar` -/
def preserveVar (t : VarTable) (junk : Bool) (str : List Char) : VarTable :=
  let (t1, l) := t.findVarCreate junk str
  t1.assign l { l.item.toVarData with preserve := true, usedSinceSet := true }

/-- `v->used_since_set = 1` for the variable `str`, if there is one (`get_var`). -/
def touch (t : VarTable) (str : List Char) : VarTable :=
  match t.findVar str with
  | none => t
  | some l => t.assign l { l.item.toVarData with usedSinceSet := true }

section

variable {t : VarTable} {l : Link Var} {str n : List Char}

theorem findVar_iff : t.findVar str = some l ↔ l ∈ t.tbl.links ∧ varHashing.key l.item = varKey str :=
  t.wf.find_iff

theorem findVar_congr (h : varKey str = varKey n) : t.findVar str = t.findVar n := by
  apply Option.ext
  intro l
  rw [findVar_iff, findVar_iff, h]

/-- What `FindVar(str, 1)` returns is in the table afterwards, under the name. -/
theorem findVarCreate_mem (junk : Bool) :
    (t.findVarCreate junk str).2 ∈ (t.findVarCreate junk str).1.tbl.links ∧
      varHashing.key (t.findVarCreate junk str).2.item = varKey str := by
  unfold findVarCreate
  split
  · next l h => exact findVar_iff.mp h
  · next h =>
    refine ⟨?_, rfl⟩
    exact (t.wf.insert (find_newVar h)).2.mem_iff.mpr List.mem_cons_self

/-- An existing variable is found; a new one changes nothing else. -/
theorem findVar_findVarCreate (junk : Bool) :
    (t.findVarCreate junk str).1.findVar n =
      if varKey str = varKey n then some (t.findVarCreate junk str).2 else t.findVar n := by
  unfold findVarCreate
  split
  · next l h =>
    split_ifs with hkey
    · rw [← findVar_congr hkey, h]
    · rfl
  · next h => exact t.wf.find_insert (find_newVar h) (candidate n)

theorem findVar_assign (hl : l ∈ t.tbl.links) (d : VarData) :
    (t.assign l d).findVar n =
      if varHashing.key l.item = varKey n then
        some ⟨l.hashval, { toVarData := d, name := l.item.name }⟩
      else t.findVar n := by
  unfold assign
  rw [dif_pos hl]
  exact t.wf.find_assign hl (x := { toVarData := d, name := l.item.name }) rfl (candidate n)

theorem findVar_deleteVar :
    (t.deleteVar str).findVar n = if varKey str = varKey n then none else t.findVar n := by
  unfold deleteVar
  cases h : t.findVar str with
  | none =>
    split_ifs with hkey
    · rw [← findVar_congr hkey, h]
    · rfl
  | some l =>
    obtain ⟨hl, hkey⟩ := findVar_iff.mp h
    simp only [delete, dif_pos hl]
    rw [← hkey]
    exact t.wf.find_delete hl (candidate n)

theorem findVar_touch :
    (t.touch str).findVar n =
      if varKey str = varKey n then
        (t.findVar n).map fun l => { l with item.usedSinceSet := true }
      else t.findVar n := by
  unfold touch
  cases h : t.findVar str with
  | none =>
    split_ifs with hkey
    · rw [← findVar_congr hkey, h]
      rfl
    · rfl
  | some l =>
    obtain ⟨hl, hkey⟩ := findVar_iff.mp h
    simp only
    rw [findVar_assign hl, hkey]
    split_ifs with hn
    · rw [← findVar_congr hn, h]
      rfl
    · rfl

end

end VarTable

end Remind
