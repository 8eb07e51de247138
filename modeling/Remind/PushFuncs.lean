import Mathlib
import Remind.UserFns

/-!
# PushFuncs — POP-FUNCS brings the functions of its PUSH-FUNCS back, if they were listed in lower case

FSET, FUNSET and FRENAME make the names they read lower case, PUSH-FUNCS does not.
-/

namespace Remind

open HashTable
open scoped List

/-- `strtolower` -/
def strtolower (s : List Char) : List Char := s.map Char.toLower

/-- `strcmp_lcfirst` -/
def strcmpLcfirst : List Char → List Char → ℤ
  | c :: s, d :: t =>
    let r := (c.toLower.toNat : ℤ) - d.toNat
    if r ≠ 0 then r else strcmpLcfirst s t
  | c :: _, [] => c.toLower.toNat
  | [], d :: _ => -(d.toNat : ℤ)
  | [], [] => 0

/-- The names in `Func[]`. -/
def funcNames : List String :=
  ["_", "abs", "access", "adawn", "adusk", "ampm", "ansicolor", "args", "asc", "baseyr", "catch",
   "catcherr", "char", "choose", "codepoint", "coerce", "columns", "const", "current", "date",
   "datepart", "datetime", "dawn", "day", "daysinmon", "defined", "dosubst", "dusk", "easterdate",
   "escape", "eval", "evaltrig", "filedate", "filedatetime", "filedir", "filename", "getenv",
   "hebdate", "hebday", "hebmon", "hebyear", "hex", "hour", "htmlescape", "htmlstriptags", "iif",
   "index", "isany", "isconst", "isdst", "isleap", "isomitted", "ivritmon", "language",
   "localtoutc", "lower", "max", "mbchar", "mbindex", "mblower", "mbpad", "mbstrlen", "mbsubstr",
   "mbupper", "min", "minsfromutc", "minute", "mon", "monnum", "moondate", "moondatetime",
   "moonphase", "moonrise", "moonrisedir", "moonset", "moonsetdir", "moontime", "multitrig",
   "ndawn", "ndusk", "nonconst", "nonomitted", "now", "ord", "orthodoxeaster", "ostype", "pad",
   "plural", "psmoon", "psshade", "realcurrent", "realnow", "realtoday", "rows", "sgn", "shell",
   "shellescape", "slide", "soleq", "stdout", "strlen", "substr", "sunrise", "sunset", "time",
   "timepart", "timezone", "today", "trig", "trigback", "trigbase", "trigcompletethrough",
   "trigdate", "trigdatetime", "trigdelta", "trigduration", "trigeventduration", "trigeventstart",
   "trigeventstarttz", "trigfrom", "trigger", "triginfo", "trigistodo", "trigmaxoverdue",
   "trigpriority", "trigrep", "trigscanfrom", "trigtags", "trigtime", "trigtimedelta",
   "trigtimerep", "trigtimetz", "trigtz", "triguntil", "trigvalid", "typeof", "tzconvert", "upper",
   "utctolocal", "value", "version", "weekno", "wkday", "wkdaynum", "year"]

/-- The loop of `FindBuiltinFunc`.  A round makes the window smaller. -/
def findBuiltinLoop (name : List Char) : ℕ → ℤ → ℤ → Bool
  | 0, _, _ => false
  | n + 1, bot, top =>
    if top ≥ bot then
      let mid := (top + bot) / 2
      let r := strcmpLcfirst name (funcNames.getD mid.toNat "").toList
      if r = 0 then true
      else if r > 0 then findBuiltinLoop name n (mid + 1) top
      else findBuiltinLoop name n bot (mid - 1)
    else false

/-- `FindBuiltinFunc` -/
def findBuiltinFunc (name : List Char) : Bool :=
  findBuiltinLoop name (funcNames.length + 1) 0 (funcNames.length - 1)

/-- FSET, FUNSET and FRENAME with the names on their lines. -/
inductive FuncEdit where
  | fset (ignoring inConstantContext : Bool) (line : FsetLine)
  | funset (idents : List (List Char))
  | frename (oldname newname : List Char)

/-- What the command does with them. -/
def FuncEdit.cmd : FuncEdit → FuncCmd
  | .fset ignoring ctx line => .fset ignoring ctx { line with name := strtolower line.name }
  | .funset idents => .funset (idents.map strtolower)
  | .frename oldname newname => .frename (strtolower oldname) (strtolower newname)

/-- Argument count, body and constness. -/
def UserFunc.definition (f : UserFunc) : ℕ × Expr × Bool := (f.nargs, f.node, f.isConstant)

/-- The definition that a function has, its name taken as FSET takes it. -/
def FuncTable.definition (t : FuncTable) (name : List Char) : Option (ℕ × Expr × Bool) :=
  (t.findUserFunc (strtolower name)).map UserFunc.definition

/-! ### Names -/

section Names

theorem toLower_toLower (c : Char) : c.toLower.toLower = c.toLower := by
  simp only [Char.toLower]
  split
  · split
    · next h1 h2 =>
      simp only [UInt32.le_iff_toNat_le, UInt32.toNat_add, seval] at h1 h2
      omega
    · simp
  · rfl

theorem strcmpLcfirst_strtolower (s t : List Char) :
    strcmpLcfirst (strtolower s) t = strcmpLcfirst s t := by
  fun_induction strcmpLcfirst s t with
  | case1 c s d t r hr =>
    simp only [strtolower, List.map_cons, strcmpLcfirst, toLower_toLower]
    rw [if_pos hr]
  | case2 c s d t r hr ih =>
    simp only [strtolower, List.map_cons, strcmpLcfirst, toLower_toLower]
    rw [if_neg hr]
    exact ih
  | case3 c s => simp only [strtolower, List.map_cons, strcmpLcfirst, toLower_toLower]
  | case4 d t => rfl
  | case5 => rfl

/-- No more of a name is looked at than the other one is long. -/
theorem strcmpLcfirst_take {n : ℕ} {s t : List Char} (h : t.length < n) :
    strcmpLcfirst (s.take n) t = strcmpLcfirst s t := by
  induction t generalizing s n with
  | nil =>
    obtain ⟨n, rfl⟩ : ∃ k, n = k + 1 := ⟨n - 1, by omega⟩
    cases s <;> rfl
  | cons d t ih =>
    obtain ⟨n, rfl⟩ : ∃ k, n = k + 1 := ⟨n - 1, by omega⟩
    cases s with
    | nil => rfl
    | cons c s =>
      simp only [List.take_succ_cons, strcmpLcfirst, ih (by simpa using h)]

theorem funcNames_short (i : ℕ) : (funcNames.getD i "").toList.length < varNameLen := by
  have hall : ∀ n ∈ funcNames, n.toList.length < varNameLen := by decide +kernel
  by_cases hi : i < funcNames.length
  · rw [List.getD_eq_getElem _ _ hi]
    exact hall _ (List.getElem_mem hi)
  · rw [List.getD_eq_default _ _ (by omega)]
    decide

/-- What `FindBuiltinFunc` sees of a name. -/
theorem findBuiltinFunc_congr {n m : List Char}
    (h : ∀ t : List Char, t.length < varNameLen → strcmpLcfirst n t = strcmpLcfirst m t) :
    findBuiltinFunc n = findBuiltinFunc m := by
  have hloop : ∀ k bot top, findBuiltinLoop n k bot top = findBuiltinLoop m k bot top := by
    intro k
    induction k with
    | zero => exact fun _ _ => rfl
    | succ k ih =>
      intro bot top
      simp only [findBuiltinLoop, h _ (funcNames_short _), ih]
  exact hloop _ _ _

@[simp] theorem findBuiltinFunc_strnCpy (n : List Char) :
    findBuiltinFunc (strnCpy n varNameLen) = findBuiltinFunc n :=
  findBuiltinFunc_congr fun _ ht => strcmpLcfirst_take ht

@[simp] theorem findBuiltinFunc_strtolower (n : List Char) :
    findBuiltinFunc (strtolower n) = findBuiltinFunc n :=
  findBuiltinFunc_congr fun _ _ => strcmpLcfirst_strtolower n _

@[simp] theorem strnCpy_strnCpy (n : List Char) :
    strnCpy (strnCpy n varNameLen) varNameLen = strnCpy n varNameLen := by
  simp [strnCpy, List.take_take]

end Names

/-! ### The definitions in the table -/

namespace FuncTable

variable {t : FuncTable} {l : Link UserFunc} {f : UserFunc} {name k : List Char}

/-- What the table has under a name as it is spelled. -/
def defn (t : FuncTable) (k : List Char) : Option (ℕ × Expr × Bool) :=
  (t.findUserFunc k).map UserFunc.definition

theorem definition_eq : t.definition name = t.defn (strtolower name) := rfl

theorem findLink_congr {k k' : List Char} (h : strnCpy k varNameLen = strnCpy k' varNameLen) :
    t.findLink k = t.findLink k' := by
  rw [findLink, candidate, h]
  rfl

theorem defn_congr {k k' : List Char} (h : strnCpy k varNameLen = strnCpy k' varNameLen) :
    t.defn k = t.defn k' := by
  rw [defn, findUserFunc, findLink_congr h]
  rfl

theorem defn_delete (hl : t.findLink name = some l) :
    (t.delete l).defn k = if strnCpy k varNameLen = strnCpy name varNameLen then none
      else t.defn k := by
  obtain ⟨hmem, hname⟩ := findLink_iff.mp hl
  have hfind := t.wf.find_delete hmem (candidate k)
  have hkey : funcHashing.key l.item = funcHashing.key (candidate k) ↔
      strnCpy k varNameLen = strnCpy name varNameLen := by
    show l.item.name = strnCpy k varNameLen ↔ _
    rw [hname]
    exact eq_comm
  have hdel : (t.delete l).findLink k = (t.tbl.delete l).find funcHashing (candidate k) := by
    rw [delete, dif_pos hmem, findLink]
  rw [defn, findUserFunc, hdel, hfind]
  by_cases h : strnCpy k varNameLen = strnCpy name varNameLen
  · rw [if_pos (hkey.mpr h), if_pos h]
    rfl
  · rw [if_neg fun hk => h (hkey.mp hk), if_neg h]
    rfl

theorem defn_fUnset : (t.fUnset name).defn k =
    if strnCpy k varNameLen = strnCpy name varNameLen then none else t.defn k := by
  unfold fUnset
  cases hl : t.findLink name with
  | none =>
    by_cases h : strnCpy k varNameLen = strnCpy name varNameLen
    · rw [if_pos h, defn, findUserFunc, findLink_congr h, hl]
      rfl
    · rw [if_neg h]
  | some l => exact defn_delete hl

theorem findLink_fUnset : (t.fUnset name).findLink name = none := by
  have h : (t.fUnset name).defn name = none := by rw [defn_fUnset, if_pos rfl]
  unfold defn findUserFunc at h
  simpa using h

/-- FSET after FUNSET of the name. -/
theorem defn_fSet (hname : strnCpy f.name varNameLen = f.name) :
    ((t.fUnset f.name).fSet f).defn k =
      if strnCpy k varNameLen = f.name then some f.definition else t.defn k := by
  have hfree : (t.fUnset f.name).tbl.find funcHashing f = none := by
    have h : (t.fUnset f.name).findLink f.name = none := findLink_fUnset
    rw [findLink, candidate, hname] at h
    rw [(t.fUnset f.name).wf.find_none_iff] at h ⊢
    exact h
  have hset : ((t.fUnset f.name).fSet f).findLink k =
      if f.name = strnCpy k varNameLen then some ⟨hashValPreservecase f.name, f⟩
      else (t.fUnset f.name).findLink k := by
    rw [fSet, dif_pos hfree]
    exact (t.fUnset f.name).wf.find_insert hfree (candidate k)
  by_cases h : strnCpy k varNameLen = f.name
  · rw [if_pos h, defn, findUserFunc, hset, if_pos h.symm]
    rfl
  · have hother : (t.fUnset f.name).defn k = t.defn k := by
      rw [defn_fUnset, hname, if_neg h]
    rw [if_neg h, ← hother, defn, findUserFunc, hset, if_neg (Ne.symm h)]
    rfl

/-- A mark on a function is not part of its definition. -/
theorem defn_assign (hl : l ∈ t.tbl.links) (hf : f.definition = l.item.definition) :
    (t.assign l f).defn k = t.defn k := by
  have hassign : (t.assign l f).findLink k =
      if l.item.name = strnCpy k varNameLen then
        some ⟨l.hashval, { f with name := l.item.name }⟩
      else t.findLink k := by
    rw [assign, dif_pos hl]
    exact t.wf.find_assign hl (x := { f with name := l.item.name }) rfl (candidate k)
  rw [defn, findUserFunc, hassign]
  by_cases h : l.item.name = strnCpy k varNameLen
  · rw [if_pos h, defn, findUserFunc, findLink_iff.mpr ⟨hl, h⟩]
    exact congrArg some hf
  · rw [if_neg h]
    rfl

end FuncTable

/-! ### The names of the functions there are -/

/-- A function's name is as long as a name can be and no built-in one. -/
def Tidy (f : UserFunc) : Prop :=
  strnCpy f.name varNameLen = f.name ∧ findBuiltinFunc f.name = false

theorem tidy_rename {f : UserFunc} {new : List Char} (hnew : findBuiltinFunc new = false) :
    Tidy { f with name := strnCpy new varNameLen } :=
  ⟨strnCpy_strnCpy new, (findBuiltinFunc_strnCpy new).trans hnew⟩

theorem fsetHere_tidy {s : FuncState} (h : s.All Tidy) (ctx : Bool) (line : FsetLine) :
    (fsetHere findBuiltinFunc s ctx line).1.All Tidy := by
  fun_cases fsetHere findBuiltinFunc s ctx line with
  | case1 => exact h
  | case2 => exact h
  | case3 => exact h
  | case4 _ hbuiltin =>
    have hnew : findBuiltinFunc line.name = false := by simpa using hbuiltin
    exact ⟨(h.funcs.fUnset _).fSet ⟨strnCpy_strnCpy _, (findBuiltinFunc_strnCpy _).trans hnew⟩,
      h.stack⟩

theorem renameUserFunc_tidy {t : FuncTable} (h : t.All Tidy) {old new : List Char}
    (hnew : findBuiltinFunc new = false) : (t.renameUserFunc old new).All Tidy := by
  intro m hm
  rcases FuncTable.mem_renameUserFunc hm with hm | ⟨l, -, hm⟩
  · exact h m hm
  · rw [hm]
    exact tidy_rename hnew

/-- A mark on a function leaves it its name. -/
theorem assign_tidy {t : FuncTable} (h : t.All Tidy) {l : Link UserFunc} (hl : l ∈ t.tbl.links)
    (f : UserFunc) : (t.assign l f).All Tidy := h.assign (h l hl)

/-- No command gives a function a built-in name. -/
theorem step_tidy {s : FuncState} (h : s.All Tidy) (cmd : FuncCmd) :
    (s.step findBuiltinFunc cmd).All Tidy := by
  cases cmd with
  | fset ignoring ctx line =>
    change ((doFset findBuiltinFunc s ignoring ctx line).1).All Tidy
    fun_cases doFset findBuiltinFunc s ignoring ctx line with
    | case1 => exact h
    | case2 => exact h
    | case3 => exact h
    | case4 _ _ _ l hl =>
      exact ⟨assign_tidy h.funcs (FuncTable.findLink_iff.mp hl).1 _, h.stack⟩
    | case5 => exact fsetHere_tidy h ctx line
  | funset idents => exact ⟨fUnsets_all h.funcs idents, h.stack⟩
  | frename oldname newname =>
    change ((doFrename findBuiltinFunc s oldname newname).1).All Tidy
    unfold doFrename
    split_ifs with hbuiltin
    · exact h
    · have hnew : findBuiltinFunc newname = false := by
        simpa using (not_or.mp hbuiltin).1
      exact ⟨renameUserFunc_tidy h.funcs hnew, h.stack⟩
  | push idents last => exact pushUserFuncs_all (fun _ hf => hf) h idents last
  | pop eoln => exact popUserFuncs_all h eoln
  | setRun v => exact ⟨h.funcs, h.stack⟩

theorem run_tidy {s : FuncState} (h : s.All Tidy) (cmds : List FuncCmd) :
    (s.run findBuiltinFunc cmds).All Tidy := by
  induction cmds generalizing s with
  | nil => exact h
  | cons cmd cmds ih => exact ih (step_tidy h cmd)

/-- A built-in function's name has no other function. -/
theorem FuncState.All.defn_builtin {s : FuncState} (h : s.All Tidy) {name : List Char}
    (hname : findBuiltinFunc name = true) : s.funcs.defn name = none := by
  unfold FuncTable.defn
  cases hf : s.funcs.findUserFunc name with
  | none => rfl
  | some f =>
    obtain ⟨l, hl, rfl⟩ := Option.map_eq_some_iff.mp hf
    obtain ⟨hmem, hkey⟩ := FuncTable.findLink_iff.mp hl
    have hno := (h.funcs l hmem).2
    rw [hkey, findBuiltinFunc_strnCpy, hname] at hno
    exact Bool.noConfusion hno

/-! ### PUSH-FUNCS and POP-FUNCS -/

/-- The name under which a pushed function is put back. -/
def PushedFunc.name : PushedFunc → List Char
  | .absent name => name
  | .clone f => f.name

/-- The definition that is put back. -/
def PushedFunc.defn : PushedFunc → Option (ℕ × Expr × Bool)
  | .absent _ => none
  | .clone f => some f.definition

/-- What was pushed is what `t` had. -/
structure PushedFunc.Saves (t : FuncTable) (p : PushedFunc) : Prop where
  name : strnCpy p.name varNameLen = p.name
  defn : p.defn = t.defn p.name

theorem cloneUserfunc_spec (t : FuncTable) (n : List Char) :
    (∀ k, (cloneUserfunc t n).1.defn k = t.defn k) ∧ (cloneUserfunc t n).2.Saves t ∧
      (cloneUserfunc t n).2.name = strnCpy n varNameLen := by
  unfold cloneUserfunc
  cases hl : t.findLink n with
  | none =>
    refine ⟨fun k => rfl, ⟨strnCpy_strnCpy n, ?_⟩, rfl⟩
    have hnone : t.defn n = none := by
      rw [FuncTable.defn, FuncTable.findUserFunc, hl]
      rfl
    exact (hnone.symm.trans (FuncTable.defn_congr (strnCpy_strnCpy n).symm))
  | some l =>
    obtain ⟨hmem, hname⟩ := FuncTable.findLink_iff.mp hl
    have hsome : t.defn n = some l.item.definition := by
      rw [FuncTable.defn, FuncTable.findUserFunc, hl]
      rfl
    have hself : strnCpy l.item.name varNameLen = strnCpy n varNameLen := by
      rw [hname, strnCpy_strnCpy]
    exact ⟨fun k => FuncTable.defn_assign hmem rfl, ⟨hself.trans hname.symm,
      (hsome.symm.trans (FuncTable.defn_congr hself.symm))⟩, hname⟩

theorem PushedFunc.Saves.congr {t t' : FuncTable} {p : PushedFunc} (h : p.Saves t)
    (heq : ∀ k, t'.defn k = t.defn k) : p.Saves t' :=
  ⟨h.name, h.defn.trans (heq _).symm⟩

/-- Pushing changes no definition and saves those of the names that are not built-in. -/
theorem pushFuncsLoop_spec {last : ErrCode} {idents : List (List Char)} {t t' : FuncTable}
    {pf pf' : List PushedFunc}
    (h : pushFuncsLoop findBuiltinFunc t pf idents last = (t', .ok pf')) :
    (∀ k, t'.defn k = t.defn k) ∧ ((∀ p ∈ pf, p.Saves t) → ∀ p ∈ pf', p.Saves t) ∧
      ∀ k, k ∈ pf'.map PushedFunc.name ↔ k ∈ pf.map PushedFunc.name ∨
        ∃ n ∈ idents, findBuiltinFunc n = false ∧ strnCpy n varNameLen = k := by
  fun_induction pushFuncsLoop findBuiltinFunc t pf idents last with
  | case1 t pf =>
    split_ifs at h
    · cases h
      exact ⟨fun _ => rfl, id, by simp⟩
    · cases h
  | case2 => cases h
  | case3 t pf name rest _ hbuiltin ih =>
    obtain ⟨hdefn, hsaves, hnames⟩ := ih h
    refine ⟨hdefn, hsaves, fun k => (hnames k).trans ?_⟩
    simp [hbuiltin]
  | case4 t pf name rest _ hbuiltin t1 clone hclone ih =>
    obtain ⟨hsame, hclones, hcname⟩ := cloneUserfunc_spec t name
    rw [hclone] at hsame hclones hcname
    obtain ⟨hdefn, hsaves, hnames⟩ := ih h
    have hb : findBuiltinFunc name = false := by simpa using hbuiltin
    refine ⟨fun k => (hdefn k).trans (hsame k), fun hpf p hp => ?_, fun k => (hnames k).trans ?_⟩
    · refine (hsaves (fun q hq => ?_) p hp).congr fun k => (hsame k).symm
      rcases List.mem_append.mp hq with hq | hq
      · exact (hpf q hq).congr hsame
      · rw [List.mem_singleton.mp hq]
        exact hclones.congr hsame
    · rw [List.map_append, List.mem_append, or_assoc]
      simp only [List.map_cons, List.map_nil, List.mem_singleton, hcname,
        List.exists_mem_cons_iff, hb, true_and]
      exact or_congr_right (or_congr_left eq_comm)

/-- Popping gives the saved names their definitions and no other one. -/
theorem popFuncs_defn {t0 : FuncTable} {pf : List PushedFunc} (hpf : ∀ p ∈ pf, p.Saves t0)
    (t : FuncTable) (k : List Char) : (pf.foldl popFunc t).defn k =
      if strnCpy k varNameLen ∈ pf.map PushedFunc.name then t0.defn k else t.defn k := by
  induction pf generalizing t with
  | nil => simp
  | cons p pf ih =>
    have hp := hpf p List.mem_cons_self
    have hstep : (popFunc t p).defn k =
        if strnCpy k varNameLen = p.name then t0.defn k else t.defn k := by
      have hsaved : strnCpy k varNameLen = p.name → p.defn = t0.defn k := fun hk =>
        hp.defn.trans (FuncTable.defn_congr (hp.name.trans hk.symm))
      cases p with
      | absent name =>
        have hname : strnCpy name varNameLen = name := hp.name
        rw [popFunc, FuncTable.defn_fUnset, hname]
        exact ite_congr rfl (fun hk => hsaved hk) fun _ => rfl
      | clone f =>
        rw [popFunc, FuncTable.defn_fSet hp.name]
        exact ite_congr rfl (fun hk => hsaved hk) fun _ => rfl
    rw [List.foldl_cons, ih (fun q hq => hpf q (List.mem_cons_of_mem p hq)), hstep, List.map_cons]
    by_cases hk : strnCpy k varNameLen ∈ pf.map PushedFunc.name
    · rw [if_pos hk, if_pos (List.mem_cons_of_mem _ hk)]
    · rw [if_neg hk]
      by_cases hkp : strnCpy k varNameLen = p.name
      · rw [if_pos hkp, if_pos (hkp ▸ List.mem_cons_self)]
      · rw [if_neg hkp, if_neg fun hmem => ?_]
        rcases List.mem_cons.mp hmem with hmem | hmem
        · exact hkp hmem
        · exact hk hmem

theorem doFset_stack (isBuiltin : List Char → Bool) (s : FuncState) (ignoring ctx : Bool)
    (line : FsetLine) : (doFset isBuiltin s ignoring ctx line).1.stack = s.stack := by
  have hhere : (fsetHere isBuiltin s ctx line).1.stack = s.stack := by
    fun_cases fsetHere isBuiltin s ctx line <;> rfl
  fun_cases doFset isBuiltin s ignoring ctx line with
  | case1 => rfl
  | case2 => rfl
  | case3 => rfl
  | case4 => rfl
  | case5 => exact hhere

theorem doFrename_stack (isBuiltin : List Char → Bool) (s : FuncState)
    (oldname newname : List Char) : (doFrename isBuiltin s oldname newname).1.stack = s.stack := by
  unfold doFrename
  split_ifs <;> rfl

/-- The commands between leave the stack alone. -/
theorem stack_edit (s : FuncState) (e : FuncEdit) :
    (s.step findBuiltinFunc e.cmd).stack = s.stack := by
  cases e with
  | fset ignoring ctx line => rw [FuncEdit.cmd, FuncState.step, doFset_stack]
  | funset idents => rfl
  | frename oldname newname => rw [FuncEdit.cmd, FuncState.step, doFrename_stack]

theorem stack_edits (s : FuncState) (edits : List FuncEdit) :
    (s.run findBuiltinFunc (edits.map FuncEdit.cmd)).stack = s.stack := by
  induction edits generalizing s with
  | nil => rfl
  | cons e edits ih => exact (ih _).trans (stack_edit s e)

/-- The state after the PUSH-FUNCS of a list, some commands and the POP-FUNCS. -/
def pushPop (s : FuncState) (idents : List (List Char)) (edits : List FuncEdit) : FuncState :=
  (popUserFuncs ((pushUserFuncs findBuiltinFunc s idents .eoln).1.run findBuiltinFunc
    (edits.map FuncEdit.cmd)) none).1

/-- What POP-FUNCS does, name by name. -/
theorem pushPop_defn {s : FuncState} {idents : List (List Char)}
    (hpush : (pushUserFuncs findBuiltinFunc s idents .eoln).2 = none) (edits : List FuncEdit)
    (k : List Char) :
    (pushPop s idents edits).funcs.defn k =
      if ∃ n ∈ idents, findBuiltinFunc n = false ∧
          strnCpy n varNameLen = strnCpy k varNameLen then s.funcs.defn k
      else ((pushUserFuncs findBuiltinFunc s idents .eoln).1.run findBuiltinFunc
        (edits.map FuncEdit.cmd)).funcs.defn k := by
  cases hloop : pushFuncsLoop findBuiltinFunc s.funcs [] idents .eoln with
  | mk t r =>
    cases r with
    | error e => simp [pushUserFuncs, hloop] at hpush
    | ok pf =>
      cases pf with
      | nil => simp [pushUserFuncs, hloop] at hpush
      | cons p pf =>
        obtain ⟨-, hsaves, hnames⟩ := pushFuncsLoop_spec hloop
        have hpushed : (pushUserFuncs findBuiltinFunc s idents .eoln).1 =
            { s with funcs := t, stack := (p :: pf) :: s.stack } := by
          rw [pushUserFuncs, hloop]
        have hstack := stack_edits (pushUserFuncs findBuiltinFunc s idents .eoln).1 edits
        rw [hpushed] at hstack ⊢
        rw [pushPop, hpushed]
        generalize FuncState.run findBuiltinFunc _ (edits.map FuncEdit.cmd) = s' at hstack ⊢
        rw [popUserFuncs, hstack]
        simp only
        rw [popFuncs_defn (hsaves (by simp))]
        exact ite_congr (by rw [hnames]; simp) (fun _ => rfl) fun _ => rfl

/-- A list of names that POP-FUNCS knows by the names FSET gives. -/
def Covered (idents : List (List Char)) : Prop :=
  ∀ name ∈ idents, findBuiltinFunc name = true ∨
    ∃ m ∈ idents, strnCpy m varNameLen = strnCpy (strtolower name) varNameLen

instance (idents : List (List Char)) : Decidable (Covered idents) :=
  inferInstanceAs (Decidable (∀ name ∈ idents, findBuiltinFunc name = true ∨
    ∃ m ∈ idents, strnCpy m varNameLen = strnCpy (strtolower name) varNameLen))

theorem pushFuncsLoop_noSys {last : ErrCode} {idents : List (List Char)} {t t' : FuncTable}
    {pf pf' : List PushedFunc}
    (h : pushFuncsLoop findBuiltinFunc t pf idents last = (t', .ok pf')) :
    ∀ n ∈ idents, isSysName n = false := by
  fun_induction pushFuncsLoop findBuiltinFunc t pf idents last with
  | case1 => simp
  | case2 => cases h
  | case3 t pf name rest hsys _ ih =>
    exact List.forall_mem_cons.mpr ⟨by simpa using hsys, ih h⟩
  | case4 t pf name rest hsys _ t1 clone _ ih =>
    exact List.forall_mem_cons.mpr ⟨by simpa using hsys, ih h⟩

theorem pushed_noSys {s : FuncState} {idents : List (List Char)}
    (hpush : (pushUserFuncs findBuiltinFunc s idents .eoln).2 = none) :
    ∀ n ∈ idents, isSysName n = false := by
  cases hloop : pushFuncsLoop findBuiltinFunc s.funcs [] idents .eoln with
  | mk t r =>
    cases r with
    | error e => simp [pushUserFuncs, hloop] at hpush
    | ok pf => exact pushFuncsLoop_noSys hloop

theorem isSysName_strtolower {n : List Char} (h : isSysName n = false) :
    isSysName (strtolower n) = false := by
  cases n with
  | nil => rfl
  | cons c n =>
    have hc : c ≠ '$' := by simpa [isSysName] using h
    have hlower : c.toLower ≠ '$' := by
      intro hl
      simp only [Char.toLower] at hl
      split at hl
      · next hrange =>
        have hval := congrArg Char.val hl
        simp only [UInt32.le_iff_toNat_le, ge_iff_le, seval] at hrange
        have hnat := congrArg UInt32.toNat hval
        simp only [UInt32.toNat_add, seval] at hnat
        omega
      · exact hc hl
    simpa [isSysName, strtolower] using hlower

/-- An FSET that works. -/
theorem fset_defn {s : FuncState} {name : List Char} (hname : findBuiltinFunc name = false)
    (hsys : isSysName (strtolower name) = false)
    (hfree : s.funcs.defn (strtolower name) = none) :
    (s.step findBuiltinFunc (FuncEdit.fset false true
      ⟨name, .ok (0, .const (.int 0)), "", 1⟩).cmd).funcs.defn (strtolower name) ≠ none := by
  have hnofunc : s.funcs.findUserFunc (strtolower name) = none := by
    simpa [FuncTable.defn] using hfree
  change (doFset findBuiltinFunc s false true _).1.funcs.defn _ ≠ none
  simp only [doFset, hsys, fsetHere, hnofunc, Bool.false_eq_true, if_false, Option.any_none,
    findBuiltinFunc_strnCpy, findBuiltinFunc_strtolower, hname]
  rw [FuncTable.defn_fSet (strnCpy_strnCpy _)]
  simp [FsetLine.newFunc]

def fsetFoo : FuncCmd :=
  (FuncEdit.fset false true ⟨['f', 'o', 'o'], .ok (0, .const (.int 1)), "file", 1⟩).cmd

end Remind
