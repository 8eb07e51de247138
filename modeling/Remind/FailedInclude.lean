import Remind.Opening

/-!
# FailedInclude — an include that fails (files.c: `IncludeFile`, `IncludeCmd`)

The including file is put on the stack before anything is checked, so an exit with an error has to take
it off again and to go on with its reading.
-/

namespace Remind.LineReader

/-- A line of a file is being interpreted. -/
structure Reading (s : FileState) : Prop where
  named : ∃ f, s.fileName = some f
  one : s.cLine = [] ∨ s.fp = none
  stdin : ∀ q, s.fp = some q → (q.dev.isStdin = true ↔ s.fileName = some stdinName)
  nested : s.iStack ≠ []

/-- The reader is where it was. -/
structure Untouched (s t : FileState) : Prop where
  iStack : t.iStack = s.iStack
  fileName : t.fileName = s.fileName
  lineNo : t.lineNo = s.lineNo
  cLine : t.cLine = s.cLine
  position : t.fp.map (·.offset) = s.fp.map (·.offset)
  baseIfPointer : t.baseIfPointer = s.baseIfPointer
  runDisabled : t.runDisabled = s.runDisabled

/-- Either a new source has been started, on top of the stack, or there is an error and the reader is
where it was. -/
def FailsCleanly (s : FileState) : Outcome → Prop
  | .crash => False
  | .ret none t => s.iStack.length < t.iStack.length
  | .ret (some _) t => Untouched s t

/-- The including file can be gone on with: it is in the cache, or standard input, or can be opened
once more and its owner is as trusted as before. -/
def Resumes (users : Users) (env : FileEnv) (s : FileState) : Prop :=
  match s.fp with
  | none => s.cLine ≠ [] ∨ s.fileName ≠ some stdinName
  | some _ => ∀ f, s.fileName = some f → f = stdinName ∨
      ∃ o st, readable users env .resume f = some (o, st) ∧
        (checkSafetyAux users st s.runDisabled).2 = s.runDisabled

section Pop

variable {users : Users} {env : FileEnv} {s t : FileState}

/-- The including file is on the stack, for `PopFile` to take off. -/
structure Pushed (s t : FileState) : Prop where
  iStack : ∃ no, t.iStack = s.entry no (isOwned s.runDisabled) :: s.iStack
  stdin : t.stdin = s.leave.stdin
  ifPointer : t.ifPointer = s.ifPointer
  baseIfPointer : t.baseIfPointer = s.ifPointer
  otherBits : otherBits t.runDisabled = otherBits s.runDisabled

/-- `PopFile` on the entry of the including file; `u` is the state in which that file is gone on
with. -/
theorem popFile_entry {no : ℕ} {f : List Char} {u : FileState} (hread : Reading s)
    (hstack : t.iStack = s.entry no (isOwned s.runDisabled) :: s.iStack)
    (hf : s.fileName = some f)
    (hrd : setOwned (isOwned s.runDisabled) t.runDisabled = s.runDisabled)
    (hu : ({ t with
      ifPointer := min t.ifPointer t.baseIfPointer, fp := none, iStack := s.iStack,
      lineNo := s.lineNo, lineNoStart := no, baseIfPointer := s.baseIfPointer, cLine := s.cLine,
      fileName := some f, runDisabled := s.runDisabled, source := s.source } : FileState) = u) :
    popFile users env t =
      if s.cLine = [] ∧ (s.fp.map (·.offset) ≠ none ∨ f = stdinName) then
        match openOnDisk users env .resume f ((s.fp.map (·.offset)).getD 0) u with
        | (false, s) => .ret (some .cantOpen) s
        | (true, s) => .ret none s
      else .ret none u := by
  unfold popFile
  simp only [FileState.popExcessIfs, hstack, FileState.entry, nextChainedFile, hread.nested,
    if_false, resumeFile, hf, hrd, hu] <;> rfl

/-- **PopFile** goes back to the including file, if that can be gone on with. -/
theorem popFile_pushed (hread : Reading s) (hpush : Pushed s t) :
    ∃ r u, popFile users env t = .ret r u ∧ u.iStack = s.iStack ∧
      (Untouched s u ↔ Resumes users env s) ∧ (r ≠ none → ¬ Untouched s u) := by
  obtain ⟨no, hstack⟩ := hpush.iStack
  obtain ⟨f, hf⟩ := hread.named
  have hrd : setOwned (isOwned s.runDisabled) t.runDisabled = s.runDisabled := by
    refine runDisabled_ext ?_ (isOwned_setOwned _ _)
    rw [otherBits_setOwned, hpush.otherBits]
  -- the state in which the including file is gone on with
  generalize hu : ({ t with
    ifPointer := min t.ifPointer t.baseIfPointer, fp := none, iStack := s.iStack,
    lineNo := s.lineNo, lineNoStart := no, baseIfPointer := s.baseIfPointer, cLine := s.cLine,
    fileName := some f, runDisabled := s.runDisabled, source := s.source } : FileState) = u
  rw [@popFile_entry users env s t no f u hread hstack hf hrd hu]
  have hsame (q : Option Stream) (h : q.map (·.offset) = s.fp.map (·.offset)) :
      Untouched s { u with fp := q } := by
    rw [← hu]
    exact ⟨rfl, hf.symm, rfl, rfl, h, rfl, rfl⟩
  have hclosed (q : Stream) (h : s.fp = some q) : ¬ Untouched s { u with fp := none } := by
    intro hne
    have := hne.position
    rw [h] at this
    cases this
  cases hfp : s.fp with
  | none =>
    have hres : Resumes users env s ↔ s.cLine ≠ [] ∨ f ≠ stdinName := by
      simp [Resumes, hfp, hf]
    have hufp : u = { u with fp := none } := by rw [← hu]
    by_cases hstdin : s.cLine = [] ∧ f = stdinName
    · obtain ⟨hline, rfl⟩ := hstdin
      rw [if_pos ⟨hline, Or.inr rfl⟩, openOnDisk_stdin]
      refine ⟨none, _, rfl, by rw [← hu], ?_, fun hr => absurd rfl hr⟩
      rw [hres]
      refine iff_of_false (fun hne => ?_) (by simp [hline])
      have := hne.position
      rw [hfp] at this
      cases this
    · rw [if_neg (by simpa using hstdin)]
      refine ⟨none, u, rfl, by rw [← hu], ?_, fun hr => absurd rfl hr⟩
      rw [hres, hufp]
      exact iff_of_true (hsame none (by rw [hfp])) (by tauto)
  | some q =>
    have hline : s.cLine = [] := hread.one.resolve_right (by simp [hfp])
    have hres : Resumes users env s ↔ f = stdinName ∨ ∃ o st,
        readable users env .resume f = some (o, st) ∧
          (checkSafetyAux users st s.runDisabled).2 = s.runDisabled := by
      simp [Resumes, hfp, hf]
    rw [if_pos ⟨hline, Or.inl (by simp)⟩]
    by_cases hname : f = stdinName
    · subst hname
      have hstdin : t.stdin = q := by
        rw [hpush.stdin]
        simp [FileState.leave, hfp, FileState.closed, (hread.stdin q hfp).mpr hf]
      have hu' : u.stdin = q := by rw [← hu, ← hstdin]
      rw [openOnDisk_stdin, hu']
      refine ⟨none, _, rfl, by rw [← hu], ?_, fun hr => absurd rfl hr⟩
      rw [hres]
      refine iff_of_true ?_ (Or.inl rfl)
      have := hsame (some q) (by rw [hfp])
      exact ⟨this.iStack, this.fileName, this.lineNo, this.cLine, this.position,
        this.baseIfPointer, this.runDisabled⟩
    · rw [openOnDisk_eq hname]
      cases hopen : readable users env .resume f with
      | none =>
        refine ⟨_, _, rfl, by rw [← hu], ?_, fun _ => hclosed q hfp⟩
        rw [hres]
        exact iff_of_false (hclosed q hfp) (by simp [hname, hopen])
      | some found =>
        obtain ⟨o, st⟩ := found
        refine ⟨none, _, rfl, by rw [← hu]; rfl, ?_, fun hr => absurd rfl hr⟩
        rw [hres]
        have hurd : u.runDisabled = s.runDisabled := by rw [← hu]
        constructor
        · intro hne
          have := hne.runDisabled
          simp only [FileState.onDisk, hurd] at this
          exact Or.inr ⟨o, st, hopen, this⟩
        · intro hor
          obtain ⟨o', st', hopen', hbit⟩ := hor.resolve_left hname
          rw [hopen] at hopen'
          cases hopen'
          have := hsame (some (openAt o.text o.broken q.offset)) (by rw [hfp]; rfl)
          refine ⟨this.iStack, this.fileName, this.lineNo, this.cLine, this.position,
            this.baseIfPointer, ?_⟩
          simp only [FileState.onDisk, hurd, hbit]

theorem popAndFail_cleanly {e : ErrCode} (hread : Reading s) (hpush : Pushed s t) :
    FailsCleanly s (popAndFail users env e t) ↔ Resumes users env s := by
  obtain ⟨r, u, hpop, -, hiff, -⟩ := @popFile_pushed users env _ _ hread hpush
  unfold popAndFail
  rw [hpop]
  exact hiff

/-- Where all files of a directory fail to open, the state is never as the claim has it. -/
theorem popFile_not_cleanly (hread : Reading s) (hpush : Pushed s t) :
    ¬ FailsCleanly s (popFile users env t) := by
  obtain ⟨r, u, hpop, hstack, -, hne⟩ := @popFile_pushed users env _ _ hread hpush
  rw [hpop]
  cases r with
  | none =>
    show ¬ s.iStack.length < u.iStack.length
    rw [hstack]
    exact Nat.lt_irrefl _
  | some e => exact hne nofun

end Pop

/-! ### Pushing the current file -/

section Push

variable {users : Users} {env : FileEnv} {s t u : FileState} {no : ℕ} {b : Bool}

theorem leave_eq (s : FileState) : s.leave = { s with fp := none, stdin := s.leave.stdin } := by
  unfold FileState.leave
  cases hfp : s.fp with
  | none =>
    dsimp only
    rw [← hfp]
  | some q => rfl

theorem pushed_push (s : FileState) (no : ℕ) : Pushed s (s.push no (isOwned s.runDisabled)) := by
  unfold FileState.push
  rw [leave_eq]
  exact ⟨⟨no, rfl⟩, rfl, rfl, rfl, rfl⟩

theorem Pushed.around (h : Pushed s t) (ha : Around t u) (hstdin : u.stdin = t.stdin) : Pushed s u where
  iStack := by rw [ha.iStack]; exact h.iStack
  stdin := hstdin.trans h.stdin
  ifPointer := ha.ifPointer.trans h.ifPointer
  baseIfPointer := ha.baseIfPointer.trans h.baseIfPointer
  otherBits := ha.otherBits.trans h.otherBits

theorem setChain_eq (hstack : ∃ i rest, t.iStack = i :: rest) (chain : List (List Char)) :
    ∃ i rest, t.iStack = i :: rest ∧
      t.setChain chain = { t with iStack := { i with chain } :: rest } := by
  obtain ⟨i, rest, h⟩ := hstack
  refine ⟨i, rest, h, ?_⟩
  unfold FileState.setChain
  split
  next h' => rw [h] at h'; cases h'
  next i' rest' h' => rw [h] at h'; cases h'; rfl

end Push

/-! ### The files of a directory -/

/-- One of the files is opened, those before it having failed. -/
def SomeOpens (users : Users) (env : FileEnv) (cachedFiles : List CachedFile) (stdin : Stream) :
    Bool → List (List Char) → Prop
  | _, [] => False
  | shouldCache, f :: fs =>
    match opening users env cachedFiles stdin shouldCache f with
    | .opens => True
    | .fails shouldCache => SomeOpens users env cachedFiles stdin shouldCache fs
    | .crashes => False

section Directory

variable {users : Users} {env : FileEnv} {s t : FileState}

theorem openFirst_spec {chain : List (List Char)} (hlen : t.iStack.length = s.iStack.length + 1)
    (hpush : Pushed s (t.setChain [])) (hnil : chain = [] → Pushed s t) :
    (SomeOpens users env t.cachedFiles t.stdin t.shouldCache chain →
      ∃ u, openFirst users env chain t = .ret none u ∧ s.iStack.length < u.iStack.length) ∧
    (¬ SomeOpens users env t.cachedFiles t.stdin t.shouldCache chain →
      openFirst users env chain t = .crash ∨
        ∃ r u, openFirst users env chain t = .ret (some r) u ∧ Pushed s u) := by
  induction chain generalizing t with
  | nil => exact ⟨False.elim, fun _ => Or.inr ⟨_, _, rfl, hnil rfl⟩⟩
  | cons f chain ih =>
    obtain ⟨i, rest, hstack, hset⟩ :=
      setChain_eq (List.exists_cons_of_length_eq_add_one hlen) chain
    obtain ⟨i', rest', hstack', hset0⟩ :=
      setChain_eq (List.exists_cons_of_length_eq_add_one hlen) []
    rw [hstack] at hstack'
    obtain ⟨rfl, rfl⟩ := List.cons.inj hstack'
    have hopen := openFile_opening users env f (t.setChain chain)
    unfold openFirst SomeOpens
    rw [hset] at hopen ⊢
    cases hres : opening users env t.cachedFiles t.stdin t.shouldCache f with
    | opens =>
      simp only [hres] at hopen
      obtain ⟨u, hu, haround⟩ := hopen
      rw [hu]
      refine ⟨fun _ => ⟨u, rfl, ?_⟩, fun h => absurd trivial h⟩
      rw [hstack] at hlen
      rw [haround.iStack]
      exact Nat.lt_of_lt_of_eq (Nat.lt_succ_self _) hlen.symm
    | crashes =>
      simp only [hres] at hopen
      rw [hopen]
      exact ⟨False.elim, fun _ => Or.inl rfl⟩
    | fails b =>
      simp only [hres] at hopen
      obtain ⟨r, u, hu, hfail⟩ := hopen
      rw [hu]
      dsimp only
      -- the state is as it was, but for the chain
      have hpushed {v : FileState} (hv : v.iStack = { i with chain := [] } :: rest)
          (h : v = { u with runDisabled := t.runDisabled, iStack := v.iStack }) : Pushed s v := by
        refine hpush.around ⟨?_, ?_, ?_, ?_, ?_⟩ ?_
        · rw [hv, hset0]
        · rw [h, hset0]; exact hfail.chains
        · rw [h, hset0]; exact hfail.ifPointer
        · rw [h, hset0]; exact hfail.baseIfPointer
        · rw [h, hset0]
        · rw [h, hset0]; exact hfail.stdin
      have hlen' : u.iStack.length = s.iStack.length + 1 := by
        rw [hfail.iStack]
        rw [hstack] at hlen
        exact hlen
      have hrec := ih (t := { u with runDisabled := t.runDisabled }) hlen' ?_ ?_
      · have hfiles : u.cachedFiles = t.cachedFiles := hfail.cachedFiles
        have hstdin : u.stdin = t.stdin := hfail.stdin
        have hshould : u.shouldCache = b := hfail.shouldCache
        simpa only [hfiles, hstdin, hshould] using hrec
      · obtain ⟨j, rest', hj, hset'⟩ := setChain_eq (t := { u with runDisabled := t.runDisabled })
          (List.exists_cons_of_length_eq_add_one hlen') []
        have hj' : u.iStack = j :: rest' := hj
        rw [hfail.iStack] at hj'
        obtain ⟨rfl, rfl⟩ := List.cons.inj hj'
        rw [hset']
        exact hpushed rfl rfl
      · rintro rfl
        exact hpushed hfail.iStack rfl

end Directory

/-! ### IncludeFile and IncludeCmd -/

/-- The files that an include of a directory tries, unless `SetupGlobChain` fails. -/
def listing (env : FileEnv) (s : FileState) (dirname : List Char) : Option (List (List Char)) :=
  if dirname = [] then none
  else
    match s.cachedDirectoryChains.lookup (stripSlashes dirname) with
    | some chain => some chain
    | none => (env.glob (stripSlashes dirname)).map (globChain env)

/-- What an INCLUDE needs for a clean end. -/
def IncludeOk (users : Users) (env : FileEnv) (fname : List Char) (s : FileState) : Prop :=
  match (env.stat fname).filter (·.isDir) with
  | some st =>
    if (checkSafetyAux users st s.runDisabled).1 then
      match listing env s fname with
      | none => False
      | some [] => Resumes users env s
      | some chain => SomeOpens users env s.cachedFiles s.leave.stdin s.shouldCache chain
    else Resumes users env s
  | none =>
    match opening users env s.cachedFiles s.leave.stdin s.shouldCache fname with
    | .opens => True
    | .fails _ => Resumes users env s
    | .crashes => False

/-- What an INCLUDECMD needs for a clean end. -/
def IncludeCmdOk (users : Users) (env : FileEnv) (cmd : List Char) (s : FileState) : Prop :=
  if s.runDisabled ≠ 0 ∨ s.cachedFiles.any (·.filename = cmd ++ ['|']) then True
  else
    match env.popen (if hasBang cmd then cmd.tail else cmd) with
    | none => Resumes users env s
    | some (output, broken) =>
      match caching env true (openAt output broken 0) with
      | none => False
      | some none => True
      | some (some _) => Resumes users env s

section Include

variable {users : Users} {env : FileEnv} {s t : FileState} {fname cmd : List Char} {b : Bool}

theorem setupGlobChain_eq (env : FileEnv) (fname : List Char) (s : FileState) :
    ∃ chains, setupGlobChain env fname s =
      ((match listing env s fname with | none => .error .cantOpen | some chain => .ok chain),
        { s with cachedDirectoryChains := chains }) := by
  unfold setupGlobChain listing
  by_cases hempty : fname = []
  · rw [if_pos hempty, if_pos hempty]
    exact ⟨_, rfl⟩
  · rw [if_neg hempty, if_neg hempty]
    dsimp only
    cases s.cachedDirectoryChains.lookup (stripSlashes fname) with
    | some chain => exact ⟨_, rfl⟩
    | none =>
      cases env.glob (stripSlashes fname) with
      | none =>
        refine ⟨if s.shouldCache then (stripSlashes fname, []) :: s.cachedDirectoryChains
          else s.cachedDirectoryChains, ?_⟩
        dsimp only [Option.map_none]
        split_ifs <;> rfl
      | some found =>
        refine ⟨if s.shouldCache then
            (stripSlashes fname, globChain env found) :: s.cachedDirectoryChains
          else s.cachedDirectoryChains, ?_⟩
        dsimp only [Option.map_some]
        split_ifs <;> rfl

theorem push_length (s : FileState) (no : ℕ) (b : Bool) :
    (s.push no b).iStack.length = s.iStack.length + 1 := rfl

theorem push_eq (s : FileState) (no : ℕ) (b : Bool) : s.push no b = { s with
    fp := none, stdin := s.leave.stdin, iStack := s.entry no b :: s.iStack,
    baseIfPointer := s.ifPointer } := by
  unfold FileState.push
  rw [leave_eq]

/-- An include of a directory. -/
theorem includeDirectory_cleanly {st : FileStat} (hread : Reading s) :
    FailsCleanly s (includeDirectory users env fname st (s.push s.lineNoStart (isOwned s.runDisabled))) ↔
      if (checkSafetyAux users st s.runDisabled).1 then
        match listing env s fname with
        | none => False
        | some [] => Resumes users env s
        | some chain => SomeOpens users env s.cachedFiles s.leave.stdin s.shouldCache chain
      else Resumes users env s := by
  have hpush := pushed_push s s.lineNoStart
  have hother := checkSafetyAux_otherBits users st s.runDisabled
  rw [push_eq] at hpush ⊢
  unfold includeDirectory
  dsimp only
  rcases hres : checkSafetyAux users st s.runDisabled with ⟨safe, rd⟩
  rw [hres] at hother
  cases safe with
  | false =>
    rw [if_neg Bool.false_ne_true]
    exact popAndFail_cleanly hread (hpush.around ⟨rfl, rfl, rfl, rfl, hother⟩ rfl)
  | true =>
    rw [if_pos rfl]
    dsimp only
    generalize ht : ({ s with
      fp := none, stdin := s.leave.stdin,
      iStack := s.entry s.lineNoStart (isOwned s.runDisabled) :: s.iStack,
      baseIfPointer := s.ifPointer, runDisabled := rd } : FileState) = t
    have hpusht : Pushed s t := by
      rw [← ht]
      exact hpush.around ⟨rfl, rfl, rfl, rfl, hother⟩ rfl
    have hlist : listing env t fname = listing env s fname := by
      rw [← ht]
      rfl
    obtain ⟨chains, hglob⟩ := setupGlobChain_eq env fname t
    rw [hglob, hlist]
    have hpushu : Pushed s { t with cachedDirectoryChains := chains } :=
      ⟨hpusht.iStack, hpusht.stdin, hpusht.ifPointer, hpusht.baseIfPointer, hpusht.otherBits⟩
    rcases listing env s fname with - | (- | ⟨f, chain⟩)
    · refine iff_of_false (fun hne => ?_) not_false
      have hstack := hne.iStack
      rw [← ht] at hstack
      exact absurd (congrArg List.length hstack) (by simp)
    · exact popAndFail_cleanly hread hpushu
    · have hset : ({ t with cachedDirectoryChains := chains } : FileState).setChain [] =
          { t with cachedDirectoryChains := chains } := by
        rw [← ht]
        rfl
      obtain ⟨hsome, hnone⟩ := @openFirst_spec users env _
        { t with cachedDirectoryChains := chains } (f :: chain) (by rw [← ht]; rfl)
        (by rw [hset]; exact hpushu) nofun
      have hargs : SomeOpens users env s.cachedFiles s.leave.stdin s.shouldCache (f :: chain) ↔
          SomeOpens users env t.cachedFiles t.stdin t.shouldCache (f :: chain) := by
        rw [← ht]
      dsimp only
      rw [hargs]
      by_cases hopens : SomeOpens users env t.cachedFiles t.stdin t.shouldCache (f :: chain)
      · obtain ⟨u, hu, hlen⟩ := hsome hopens
        rw [hu]
        exact iff_of_true hlen hopens
      · refine iff_of_false ?_ hopens
        rcases hnone hopens with hcrash | ⟨r, u, hu, hpu⟩
        · rw [hcrash]
          exact id
        · rw [hu]
          exact popFile_not_cleanly hread hpu

/-- **IncludeFile** ends cleanly exactly if no glob fails, some file of a directory that has any is
opened, nothing crashes, and the including file can be gone on with where nothing is included. -/
theorem includeFile_cleanly (hread : Reading s) (hdepth : s.iStack.length < includeNest) :
    FailsCleanly s (includeFile users env fname s) ↔ IncludeOk users env fname s := by
  unfold includeFile IncludeOk
  rw [if_neg (Nat.not_le.mpr hdepth)]
  cases (env.stat fname).filter (·.isDir) with
  | some st => exact includeDirectory_cleanly hread
  | none =>
    dsimp only
    have hpush := pushed_push s s.lineNoStart
    have hopen := openFile_opening users env fname (s.push s.lineNoStart (isOwned s.runDisabled))
    have hargs : (s.push s.lineNoStart (isOwned s.runDisabled)).cachedFiles = s.cachedFiles ∧
        (s.push s.lineNoStart (isOwned s.runDisabled)).stdin = s.leave.stdin ∧
        (s.push s.lineNoStart (isOwned s.runDisabled)).shouldCache = s.shouldCache := by
      rw [push_eq]
      exact ⟨rfl, rfl, rfl⟩
    rw [hargs.1, hargs.2.1, hargs.2.2] at hopen
    cases hres : opening users env s.cachedFiles s.leave.stdin s.shouldCache fname with
    | opens =>
      rw [hres] at hopen
      obtain ⟨u, hu, haround⟩ := hopen
      rw [hu]
      refine iff_of_true ?_ trivial
      show s.iStack.length < u.iStack.length
      rw [haround.iStack, push_length]
      exact Nat.lt_succ_self _
    | crashes =>
      rw [hres] at hopen
      rw [hopen]
      exact Iff.rfl
    | fails b =>
      rw [hres] at hopen
      obtain ⟨r, u, hu, hfail⟩ := hopen
      rw [hu]
      refine popAndFail_cleanly hread (hpush.around ⟨?_, ?_, ?_, ?_, rfl⟩ ?_)
      · exact hfail.iStack
      · exact hfail.chains
      · exact hfail.ifPointer
      · exact hfail.baseIfPointer
      · exact hfail.stdin

theorem find?_none_iff {h : List CachedFile} :
    h.find? (·.filename = fname) = none ↔ ¬ h.any (·.filename = fname) = true := by
  simp

/-- **DoIncludeCmd** ends cleanly exactly if nothing crashes, and the including file can be gone on
with where the command cannot be run or its output is not accepted. -/
theorem doIncludeCmd_cleanly (hread : Reading s) (hdepth : s.iStack.length < includeNest) :
    FailsCleanly s (doIncludeCmd users env cmd s) ↔ IncludeCmdOk users env cmd s := by
  unfold doIncludeCmd IncludeCmdOk
  by_cases hrun : s.runDisabled ≠ 0
  · rw [if_pos hrun, if_pos (Or.inl hrun)]
    exact iff_of_true ⟨rfl, rfl, rfl, rfl, rfl, rfl, rfl⟩ trivial
  rw [if_neg hrun]
  rw [not_not] at hrun
  unfold includeCmd
  rw [if_neg (Nat.not_le.mpr hdepth)]
  have howned : isOwned s.runDisabled = true := by
    rw [hrun]
    decide
  have hpush := pushed_push s s.lineNo
  rw [howned] at hpush
  have hfiles : (s.push s.lineNo true).cachedFiles = s.cachedFiles := by
    rw [push_eq]
  dsimp only
  cases hfind : (s.push s.lineNo true).cachedFiles.find? (·.filename = cmd ++ ['|']) with
  | some h =>
    rw [hfiles] at hfind
    have hany : s.cachedFiles.any (·.filename = cmd ++ ['|']) = true := by
      by_contra hany
      rw [find?_none_iff.mpr hany] at hfind
      cases hfind
    rw [if_pos (Or.inr hany)]
    exact iff_of_true (Nat.lt_succ_self s.iStack.length) trivial
  | none =>
    rw [hfiles] at hfind
    rw [if_neg (not_or.mpr ⟨not_not.mpr hrun, find?_none_iff.mp hfind⟩)]
    cases env.popen (if hasBang cmd then cmd.tail else cmd) with
    | none => exact popAndFail_cleanly hread hpush
    | some found =>
      obtain ⟨output, broken⟩ := found
      dsimp only
      generalize ht : ({ s.push s.lineNo true with
        fp := some (openAt output broken 0), lineNo := 0, lineNoStart := 0,
        runDisabled := if hasBang cmd then setOwned false (s.push s.lineNo true).runDisabled
          else (s.push s.lineNo true).runDisabled,
        source := .command (hasBang cmd) } : FileState) = t
      have hpusht : Pushed s t := by
        rw [← ht]
        refine hpush.around ⟨rfl, rfl, rfl, rfl, ?_⟩ rfl
        dsimp only
        split_ifs
        · exact otherBits_setOwned _ _
        · rfl
      have hcode := @cacheFile_code env true t (cmd ++ ['|'])
        (openAt output broken 0) (by rw [← ht]) (by rw [← ht])
      have hnot : t.NotStdin := by
        intro q hq
        rw [← ht] at hq
        cases hq
        rfl
      cases hres : cacheFile env true (cmd ++ ['|']) t with
      | crash =>
        rw [hres] at hcode
        rw [← hcode]
        exact Iff.rfl
      | ret r u =>
        have hcached := cacheFile_cached hres
        rw [hres] at hcode
        rw [← hcode]
        cases r with
        | none =>
          refine iff_of_true ?_ trivial
          show s.iStack.length < u.iStack.length
          rw [hcached.around.iStack, ← ht]
          exact Nat.lt_succ_self _
        | some e => exact popAndFail_cleanly hread (hpusht.around hcached.around (hcached.stdin_eq hnot))

/-- `m` is read up to its first line. -/
def readingM : FileState :=
  { FileState.init false 0 [] with
    fileName := some ['m']
    fp := some (openAt "INCLUDE d\nREM 1\n".toList false 10)
    iStack := [(FileState.init false 0 []).entry 0 true]
    lineNo := 1
    lineNoStart := 1 }

theorem reading_readingM : Reading readingM where
  named := ⟨['m'], rfl⟩
  one := Or.inl rfl
  stdin q hq := by
    cases hq
    decide
  nested := nofun

/-- `m` can be opened, and nothing else; the directory `d` has a file. -/
def onlyM : FileEnv where
  fopen _ f :=
    if f = ['m'] then some ⟨"INCLUDE d\nREM 1\n".toList, false, some ⟨1, .reg, false⟩⟩ else none
  stat f := if f = ['d'] then some ⟨1, .dir, false⟩ else some ⟨1, .reg, false⟩
  glob _ := some ["d/a.rem".toList]
  popen _ := none
  purgeMode := false
  maxLineLength := 0
  maxCachedLines := 100
  maxIncludeCmdLines := 100

end Include

/-! ### The next line -/

section Next

variable {users : Users} {s t : FileState}

/-- Where the text of the file has not changed, the next line is read as if there had been no
include. -/
theorem Untouched.readLine (h : Untouched s t) (hfp : t.fp = s.fp) (hmore : s.cLine ≠ [] ∨ s.fp ≠ none)
    (envs : ℕ → FileEnv) (env : FileEnv) :
    SameReading (readLine users env envs s) (readLine users env envs t) := by
  have hmore' : t.cLine ≠ [] ∨ t.fp ≠ none := by
    rw [h.cLine, hfp]
    exact hmore
  unfold LineReader.readLine
  rw [popLoop_here hmore, popLoop_here hmore']
  dsimp only
  rw [h.cLine]
  cases s.cLine with
  | nil => exact readLineFromFile_same hfp.symm h.lineNo.symm
  | cons l cLine => exact .ret hfp.symm rfl fun _ => rfl

end Next

end Remind.LineReader
