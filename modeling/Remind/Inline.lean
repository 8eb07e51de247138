import Mathlib.Data.List.DropRight
import Remind.Lib.Trace
import Remind.FileLines
import Remind.FailedInclude

/-!
# Inline — INCLUDE is inlining (files.c: `ReadLine`, `IncludeFile`)

The lines that are read from a tree of files are those of the first file, with the lines of what a
line includes behind that line; the files do not change meanwhile.
-/

namespace Remind.LineReader

/-! ### The tree of files -/

section Tree

variable (users : Users) (env : FileEnv) (b : Bool)
  (target : List Char → CachedLine → Option (List Char))

/-- The text of a file. -/
def fileText (f : List Char) : List Char := ((env.fopen .first f).map (·.text)).getD []

/-- The lines of a file that are neither blank nor comments. -/
def fileLines (f : List Char) : List CachedLine := sigLines (rawLines 0 (fileText env f))

/-- The files that an INCLUDE of `g` reads: `g` itself, or the files of the directory. -/
def filesOf (g : List Char) : List (List Char) :=
  match (env.stat g).filter (·.isDir) with
  | some _ => ((env.glob (stripSlashes g)).map (globChain env)).getD []
  | none => [g]

/-- A line with the file that it is in. -/
abbrev Event := List Char × CachedLine

/-- The lines of a file with what they include, up to a depth; `target` is what a line includes. -/
def inlineFile : ℕ → List Char → List Event
  | 0, _ => []
  | d + 1, f => (fileLines env f).flatMap fun l =>
      (f, l) :: match target f l with
        | none => []
        | some g => (filesOf env g).flatMap (inlineFile d)

/-- A directory that is included is safe, and can be listed. -/
def Includable (g : List Char) : Prop :=
  ∀ st, (env.stat g).filter (·.isDir) = some st →
    g ≠ [] ∧ (checkSafetyAux users st 0).1 = true ∧ env.glob (stripSlashes g) ≠ none

/-- The file can be read whenever it is opened. -/
def Readable (f : List Char) : Prop :=
  f ≠ stdinName ∧ ∃ st, users.accepts st = true ∧
    ∀ attempt, env.fopen attempt f = some ⟨fileText env f, false, some st⟩

/-- The text has no NUL, no line of it is too long, and its last line is neither an `__EOF__` nor,
where files may be cached, the one that makes it too long for the cache, unless a newline is behind
it. -/
structure TextOk (text : List Char) : Prop where
  noNul : '\x00' ∉ text
  rawOk : RawOk env.maxLineLength (rawLines 0 text)
  cacheOk : b = true → CacheOk env.maxCachedLines 0 (rawLines 0 text)

/-- A file and the files below it can be read, and they nest up to a depth. -/
def Fits : ℕ → List Char → Prop
  | 0, _ => False
  | d + 1, f => Readable users env f ∧ TextOk env b (fileText env f) ∧
      ∀ l ∈ fileLines env f, ∀ g, target f l = some g →
        0 < d ∧ Includable users env g ∧ ∀ c ∈ filesOf env g, Fits d c

/-! ### Reading it -/

/-- The main loop on the lines that are not ignored: `IncludeFile` is called on those that include
something.  Without an end in `n` lines, or with an error, there is no result. -/
def readAll : ℕ → FileState → Option (List Event)
  | 0, _ => none
  | n + 1, s =>
    match readLine users env (fun _ => env) s with
    | .crash => none
    | .ret (some .eof) _ => some []
    | .ret (some _) _ => none
    | .ret none s =>
      match significant ⟨s.curLine, s.lineNo, s.lineNoStart⟩ with
      | none => readAll n s
      | some l =>
        let f := s.fileName.getD []
        match target f l with
        | none => (readAll n s).map ((f, l) :: ·)
        | some g =>
          match includeFile users env g s with
          | .crash => none
          | .ret _ s => (readAll n s).map ((f, l) :: ·)

end Tree

/-! ### What is still to be read -/

/-- The caches hold what the files do; `b` says whether files may be cached. -/
structure CachesRight (env : FileEnv) (b : Bool) (s : FileState) : Prop where
  files : ∀ h ∈ s.cachedFiles, h.cache = fileLines env h.filename
  dirs : ∀ dir chain, s.cachedDirectoryChains.lookup dir = some chain →
    (env.glob dir).map (globChain env) = some chain
  mayCache : s.shouldCache = true → b = true

/-- The lines are still to be read of the file `f`, the current one: from the cache, or from its
stream, where lines to be ignored stand between them. -/
inductive Pending (env : FileEnv) (f : List Char) (lines : List CachedLine) (s : FileState) : Prop
  | cached : s.fileName = some f → s.fp = none → s.cLine = lines → Pending env f lines s
  | direct (raw : List CachedLine) : s.fileName = some f → s.cLine = [] →
      Unread (fileText env f) s.lineNo s.fp raw → RawOk env.maxLineLength raw →
      sigLines raw = lines → Pending env f lines s

/-- The file has been read. -/
def FileState.Exhausted (s : FileState) : Prop := s.cLine = [] ∧ s.fp = none

section Reading

variable {users : Users} {env : FileEnv} {b : Bool} {f : List Char} {l : CachedLine}
  {lines : List CachedLine} {s t : FileState}

theorem significant_significant {k : CachedLine} (h : significant l = some k) :
    significant k = some k := by
  unfold significant at h
  dsimp only at h
  split_ifs at h with hignored
  cases h
  unfold significant
  dsimp only
  rw [List.dropWhile_idempotent, if_neg hignored]

theorem Pending.fileName (h : Pending env f lines s) : s.fileName = some f := by
  cases h with
  | cached hf => exact hf
  | direct _ hf => exact hf

/-- **ReadLine** delivers the next line of a file that is not at its end, or one that is ignored. -/
theorem Pending.read (h : Pending env f lines s) (hpurge : env.purgeMode = false)
    (h0 : '\x00' ∉ fileText env f) (hlines : ∀ l ∈ lines, significant l = some l)
    (hmore : ¬ s.Exhausted) :
    ∃ t, readLine users env (fun _ => env) s = .ret none t ∧ t.iStack = s.iStack ∧
      t.cachedFiles = s.cachedFiles ∧ t.cachedDirectoryChains = s.cachedDirectoryChains ∧
      t.shouldCache = s.shouldCache ∧ t.fileName = some f ∧
      (significant ⟨t.curLine, t.lineNo, t.lineNoStart⟩ = none ∧ Pending env f lines t ∧
          t.unread < s.unread ∨
        ∃ l ls, lines = l :: ls ∧ significant ⟨t.curLine, t.lineNo, t.lineNoStart⟩ = some l ∧
          Pending env f ls t) := by
  cases h with
  | cached hf hfp hline =>
    cases lines with
    | nil => exact absurd ⟨hline, hfp⟩ hmore
    | cons l ls =>
      refine ⟨s.readCached l ls, ?_, rfl, rfl, rfl, rfl, hf,
        Or.inr ⟨l, ls, rfl, hlines l List.mem_cons_self, .cached hf hfp rfl⟩⟩
      unfold readLine
      rw [popLoop_here (Or.inl (by simp [hline]))]
      simp only [hline]
  | direct raw hf hline hun hok hsig =>
    have hopen : s.fp ≠ none := fun hfp => hmore ⟨hline, hfp⟩
    obtain ⟨fp, hfp⟩ := Option.ne_none_iff_exists'.mp hopen
    rw [hfp] at hun
    obtain ⟨r, raw, rfl⟩ := List.exists_cons_of_ne_nil hun.nil_iff
    obtain ⟨t, hread, ht⟩ := readLineFromFile_spec h0 hpurge hfp hun hok
    have heq := (readLineFromFile_read hread).eq
    have hless := (readLineFromFile_ends hread).2.2 rfl hopen
    have hname : t.fileName = some f := by
      rw [heq]
      exact hf
    have hnone : t.cLine = [] := by
      rw [heq]
      exact hline
    have hstart : t.lineNoStart = r.lineNoStart := ht.lineNoStart
    refine ⟨t, ?_, by rw [heq]; rfl, by rw [heq]; rfl, by rw [heq]; rfl, by rw [heq]; rfl,
      hname, ?_⟩
    · unfold readLine
      rw [popLoop_here (Or.inr hopen)]
      simp only [hline]
      exact hread
    · have hcur := ht.curLine
      have hnext := ht.unread
      by_cases heof : r.text = eofMark
      · rw [if_pos heof] at hcur hnext
        rw [sigLines_eof heof] at hsig
        refine Or.inl ⟨?_, .direct [] hname hnone hnext rawOk_nil (by rw [← hsig]; rfl), hless⟩
        rw [hcur]
        rfl
      · rw [if_neg heof] at hcur hnext
        have hpend : Pending env f (sigLines raw) t :=
          .direct raw hname hnone hnext (hok.tail heof) rfl
        rw [hcur, ht.lineNo, hstart]
        rw [sigLines_cons heof] at hsig
        cases hr : significant r with
        | none =>
          rw [hr] at hsig
          exact Or.inl ⟨rfl, hsig ▸ hpend, hless⟩
        | some l =>
          rw [hr] at hsig
          exact Or.inr ⟨l, sigLines raw, hsig.symm, rfl, hpend⟩

end Reading

/-! ### Opening a file -/

section Open

variable {users : Users} {env : FileEnv} {b : Bool} {f : List Char} {s t : FileState}

theorem Readable.readable (h : Readable users env f) (attempt : Attempt) :
    ∃ st, readable users env attempt f = some (⟨fileText env f, false, some st⟩, st) := by
  obtain ⟨-, st, hacc, hopen⟩ := h
  refine ⟨st, ?_⟩
  unfold LineReader.readable
  simp only [hopen attempt, Option.bind_some, hacc, if_true]

theorem unread_openAt (text : List Char) :
    Unread text 0 (some (openAt text false 0)) (rawLines 0 text) where
  stream q hq := by
    cases hq
    exact openAt_at 0
  lines := rfl

theorem CachesRight.of_eq (h : CachesRight env b s) (hfiles : t.cachedFiles = s.cachedFiles)
    (hdirs : t.cachedDirectoryChains = s.cachedDirectoryChains)
    (hcache : t.shouldCache = true → s.shouldCache = true) : CachesRight env b t where
  files := hfiles ▸ h.files
  dirs := hdirs ▸ h.dirs
  mayCache ht := h.mayCache (hcache ht)

/-- A file that has been opened on disk, and is read from the stream. -/
theorem pending_onDisk {o : Opened} {st : FileStat} (hok : TextOk env b (fileText env f))
    (ho : o = ⟨fileText env f, false, some st⟩) (hline : s.cLine = []) :
    Pending env f (fileLines env f) ((s.onDisk users o st 0).opened f) := by
  subst ho
  exact .direct (rawLines 0 (fileText env f)) rfl hline (unread_openAt _) hok.rawOk rfl

/-- **OpenFile** opens a file to be read from its start. -/
theorem openFile_pending (hpurge : env.purgeMode = false) (hread : Readable users env f)
    (hok : TextOk env b (fileText env f)) (hs : CachesRight env b s) :
    ∃ t, openFile users env f s = .ret none t ∧ Pending env f (fileLines env f) t ∧
      t.iStack = s.iStack ∧ CachesRight env b t := by
  unfold openFile
  cases hfind : s.cachedFiles.find? (·.filename = f) with
  | some h =>
    have hname : h.filename = f := by simpa using List.find?_some hfind
    have hcache := hs.files h (List.mem_of_find?_eq_some hfind)
    rw [hname] at hcache
    exact ⟨_, rfl, .cached rfl rfl hcache, rfl, hs.of_eq rfl rfl id⟩
  | none =>
    obtain ⟨st, hfirst⟩ := hread.readable .first
    dsimp only
    rw [if_neg hread.1, openOnDisk_eq hread.1, hfirst]
    dsimp only
    by_cases hcache : s.shouldCache = true
    · have hcache' :
          (s.onDisk users ⟨fileText env f, false, some st⟩ st 0).shouldCache = true := hcache
      rw [if_pos hcache']
      generalize hu : ({ s.onDisk users ⟨fileText env f, false, some st⟩ st 0 with
        cLine := [], lineNo := 0, lineNoStart := 0 } : FileState) = u
      have hfp : u.fp = some (openAt (fileText env f) false 0) := by
        rw [← hu]
        rfl
      have hno : u.lineNo = 0 := by rw [← hu]
      have hun : Unread (fileText env f) u.lineNo (some (openAt (fileText env f) false 0))
          (rawLines 0 (fileText env f)) := by
        rw [hno]
        exact unread_openAt _
      obtain ⟨r, t, hres, hdone⟩ :=
        @cacheFile_spec env (fileText env f) f _ u _ hok.noNul hpurge hfp hun hok.rawOk
          (hok.cacheOk (hs.mayCache hcache))
      have hcached := cacheFile_cached hres
      have hstack : t.iStack = s.iStack := by
        rw [hcached.around.iStack, ← hu]
        rfl
      have hdirs : t.cachedDirectoryChains = s.cachedDirectoryChains := by
        rw [hcached.around.chains, ← hu]
        rfl
      have hfiles : u.cachedFiles = s.cachedFiles := by
        rw [← hu]
        rfl
      rw [hres]
      cases r with
      | none =>
        have hdone := hdone rfl
        refine ⟨_, rfl, .cached rfl rfl ?_, hstack,
          ⟨fun h hmem => ?_, fun dir chain hlook => ?_, fun _ => hs.mayCache hcache⟩⟩
        · show (t.cachedFiles.head?.map (·.cache)).getD [] = fileLines env f
          rw [hdone]
          rfl
        · have hmem' : h ∈ t.cachedFiles := hmem
          rw [hdone, hfiles, List.mem_cons] at hmem'
          rcases hmem' with rfl | hmem'
          · rfl
          · exact hs.files h hmem'
        · refine hs.dirs dir chain ?_
          rw [← hdirs]
          exact hlook
      | some e =>
        obtain ⟨st', hagain⟩ := hread.readable .again
        dsimp only
        rw [openOnDisk_eq hread.1, hagain]
        refine ⟨_, rfl, pending_onDisk hok rfl ?_, hstack,
          hs.of_eq ?_ hdirs fun _ => hcache⟩
        · rw [hcached.same.2.2.2, ← hu]
        · exact (hcached.givenUp nofun).2.trans hfiles
    · have hcache' :
          ¬ (s.onDisk users ⟨fileText env f, false, some st⟩ st 0).shouldCache = true := hcache
      rw [if_neg hcache']
      exact ⟨_, rfl, .direct (rawLines 0 (fileText env f)) rfl rfl (unread_openAt _) hok.rawOk rfl,
        rfl, hs.of_eq rfl rfl id⟩

end Open

/-! ### Going on with a file -/

/-- The lines of the file `f` that are left behind what it includes. -/
inductive Resumable (env : FileEnv) (f : List Char) (lines : List CachedLine) (i : IncludeStruct) :
    Prop
  | here : i.filename = some f → i.offset = none → i.cLine = lines → Resumable env f lines i
  | reopen (offset : ℕ) (raw : List CachedLine) : i.filename = some f → i.offset = some offset →
      i.cLine = [] →
      Unread (fileText env f) i.lineNo (some (openAt (fileText env f) false offset)) raw →
      RawOk env.maxLineLength raw → sigLines raw = lines → Resumable env f lines i

/-- The lines are still to be read of the file `f`, and then what is on the stack. -/
structure ReadingFile (env : FileEnv) (b : Bool) (stack : List IncludeStruct) (f : List Char)
    (lines : List CachedLine) (s : FileState) : Prop where
  pending : Pending env f lines s
  iStack : s.iStack = stack
  caches : CachesRight env b s

/-- A file has been read, and what is on the stack is still to be read. -/
structure AtEnd (env : FileEnv) (b : Bool) (stack : List IncludeStruct) (s : FileState) : Prop where
  exhausted : s.Exhausted
  iStack : s.iStack = stack
  caches : CachesRight env b s

section Resume

variable {users : Users} {env : FileEnv} {b : Bool} {f : List Char} {lines : List CachedLine}
  {i : IncludeStruct} {chain : List (List Char)}
  {stack rest : List IncludeStruct} {s t : FileState}

theorem Unread.closed {no : ℕ} {raw : List CachedLine} (h : Unread (fileText env f) no none raw) :
    raw = [] := h.lines

/-- What is put on the stack for a file has all of its lines. -/
theorem Pending.resumable (h : Pending env f lines s) (no : ℕ) (owned : Bool) :
    Resumable env f lines (s.entry no owned) := by
  cases h with
  | cached hf hfp hline => exact .here hf (by simp [FileState.entry, hfp]) hline
  | direct raw hf hline hun hok hsig =>
    cases hfp : s.fp with
    | none =>
      rw [hfp] at hun
      have hnil := hun.closed
      subst hnil
      subst hsig
      exact .here hf (by simp [FileState.entry, hfp]) hline
    | some fp =>
      rw [hfp] at hun
      have hat := hun.stream fp rfl
      refine .reopen fp.offset raw hf (by simp [FileState.entry, hfp]) hline
        ⟨fun q hq => ?_, ?_⟩ hok hsig
      · cases hq
        exact openAt_at _
      · rw [hun.lines]
        show joinLines _ _ [] (fp.rest.splitOn '\n') =
          joinLines _ _ [] (((fileText env f).drop fp.offset).splitOn '\n')
        rw [hat.rest]
        rfl

theorem Resumable.setChain (h : Resumable env f lines i) (chain : List (List Char)) :
    Resumable env f lines { i with chain } := by
  cases h with
  | here hf hoff hline => exact .here hf hoff hline
  | reopen offset raw hf hoff hline hun hok hsig =>
    exact .reopen offset raw hf hoff hline hun hok hsig

theorem resumeFile_pending (hread : Readable users env f) (hi : Resumable env f lines i)
    (hfp : s.fp = none) (hs : CachesRight env b s) :
    ∃ t, resumeFile users env i rest s = .ret none t ∧ ReadingFile env b rest f lines t := by
  unfold resumeFile
  cases hi with
  | here hf hoff hline =>
    simp only [hf, hoff]
    rw [if_neg (by simp [hread.1])]
    exact ⟨_, rfl, .cached rfl hfp hline, rfl, hs.of_eq rfl rfl id⟩
  | reopen offset raw hf hoff hline hun hok hsig =>
    obtain ⟨st, hopen⟩ := hread.readable .resume
    simp only [hf, hoff, hline]
    rw [if_pos (by simp), openOnDisk_eq hread.1, hopen]
    exact ⟨_, rfl, .direct raw rfl rfl hun hok hsig, rfl, hs.of_eq rfl rfl id⟩

end Resume

/-! ### PopFile -/

section Pop

variable {users : Users} {env : FileEnv} {b : Bool} {f : List Char} {lines : List CachedLine}
  {i : IncludeStruct} {chain : List (List Char)} {rest : List IncludeStruct} {r : Option ErrCode}
  {s t : FileState}

theorem openFile_iStack {fname : List Char} (h : openFile users env fname s = .ret r t) :
    t.iStack = s.iStack := by
  have hopen := openFile_opening users env fname s
  cases hres : opening users env s.cachedFiles s.stdin s.shouldCache fname with
  | opens =>
    simp only [hres] at hopen
    obtain ⟨u, hu, hstarted⟩ := hopen
    rw [hu] at h
    cases h
    exact hstarted.iStack
  | fails b =>
    simp only [hres] at hopen
    obtain ⟨e, u, hu, hnone⟩ := hopen
    rw [hu] at h
    cases h
    exact hnone.iStack
  | crashes =>
    simp only [hres] at hopen
    rw [hopen] at h
    cases h

/-- Less of the chain is left. -/
theorem nextChainedFile_shrinks (hs : s.iStack = i :: rest)
    (h : nextChainedFile users env chain s = .ret none t) :
    ∃ cs, cs.length < chain.length ∧ t.iStack = { i with chain := cs } :: rest := by
  induction chain generalizing i s with
  | nil => cases h
  | cons c cs ih =>
    have hset : (s.setChain cs).iStack = { i with chain := cs } :: rest := by
      simp only [FileState.setChain, hs]
    unfold nextChainedFile at h
    split at h
    next => cases h
    next u hu =>
      cases h
      exact ⟨cs, Nat.lt_succ_self _, (openFile_iStack hu).trans hset⟩
    next e u hu =>
      obtain ⟨cs', hlt, hstack⟩ := ih ((openFile_iStack hu).trans hset) h
      exact ⟨cs', Nat.lt_succ_of_lt hlt, hstack⟩

theorem openOnDisk_iStack {attempt : Attempt} {offset : ℕ} {b : Bool} {fname : List Char}
    (h : openOnDisk users env attempt fname offset s = (b, t)) : t.iStack = s.iStack := by
  by_cases hname : fname = stdinName
  · subst hname
    rw [openOnDisk_stdin] at h
    cases h
    rfl
  · rw [openOnDisk_eq hname] at h
    cases hread : readable users env attempt fname with
    | none =>
      rw [hread] at h
      cases h
      rfl
    | some found =>
      rw [hread] at h
      cases h
      rfl

theorem resumeFile_iStack (h : resumeFile users env i rest s = .ret r t) : t.iStack = rest := by
  unfold resumeFile at h
  split at h
  next => cases h
  next fname hname =>
    dsimp only at h
    split_ifs at h
    · split at h
      next u hu =>
        cases h
        exact openOnDisk_iStack hu
      next u hu =>
        cases h
        exact openOnDisk_iStack hu
    · cases h
      rfl

/-- **PopFile** leaves fewer files to go on with, so that `ReadLine` comes to an end. -/
theorem popFile_pending (h : popFile users env s = .ret none t) : t.pending < s.pending := by
  unfold popFile FileState.popExcessIfs at h
  dsimp only at h
  unfold FileState.pending
  split at h
  next => cases h
  next i rest hcons =>
    rw [hcons]
    split at h
    next => cases h
    next u hu =>
      cases h
      obtain ⟨cs, hlt, hstack⟩ := nextChainedFile_shrinks
        (s := { s with ifPointer := min s.ifPointer s.baseIfPointer, fp := none }) hcons hu
      rw [hstack]
      simp only [List.map_cons, List.sum_cons]
      omega
    next e u hu =>
      split_ifs at h with hrest
      · cases h
      rw [resumeFile_iStack h]
      simp only [List.map_cons, List.sum_cons]
      omega

/-- With enough fuel, the loop does not depend on it. -/
theorem popLoop_enough {n m : ℕ} (hn : s.pending < n) (hm : s.pending < m) :
    popLoop users (fun _ => env) n s = popLoop users (fun _ => env) m s := by
  induction n generalizing m s with
  | zero => omega
  | succ n ih =>
    obtain ⟨m, rfl⟩ := Nat.exists_eq_succ_of_ne_zero (Nat.ne_zero_of_lt hm)
    unfold popLoop
    split_ifs
    · cases hpop : popFile users env s with
      | crash => rfl
      | ret r t =>
        cases r with
        | some e => rfl
        | none =>
          have hlt := popFile_pending hpop
          exact ih (by omega) (by omega)
    · rfl

/-- At the end of a file, `ReadLine` goes on with what `PopFile` finds. -/
theorem readLine_pop (hs : s.Exhausted) (h : popFile users env s = .ret none t) :
    readLine users env (fun _ => env) s = readLine users env (fun _ => env) t := by
  have hlt := popFile_pending h
  have hloop : popLoop users (fun _ => env) (s.pending + 1) s =
      popLoop users (fun _ => env) (t.pending + 1) t := by
    rw [popLoop, if_pos (by exact hs), h]
    exact popLoop_enough hlt (Nat.lt_succ_self _)
  unfold readLine
  rw [hloop]

/-- **PopFile** opens the next file of a directory. -/
theorem popFile_next {c : List Char} (hpurge : env.purgeMode = false) (hread : Readable users env c)
    (hok : TextOk env b (fileText env c))
    (hstack : s.iStack = { i with chain := c :: chain } :: rest) (hs : CachesRight env b s) :
    ∃ t, popFile users env s = .ret none t ∧
      ReadingFile env b ({ i with chain } :: rest) c (fileLines env c) t := by
  obtain ⟨t, hopen, hpend, ht, hright⟩ := openFile_pending hpurge hread hok
    (s := { s.popExcessIfs with fp := none, iStack := { i with chain } :: rest })
    (hs.of_eq rfl rfl id)
  refine ⟨t, ?_, hpend, ht, hright⟩
  unfold popFile
  simp only [FileState.popExcessIfs, hstack, nextChainedFile, FileState.setChain]
  simp only [FileState.popExcessIfs] at hopen
  rw [hopen]

/-- **PopFile** goes on with the including file. -/
theorem popFile_resume (hread : Readable users env f) (hi : Resumable env f lines i)
    (hrest : rest ≠ []) (hstack : s.iStack = { i with chain := [] } :: rest)
    (hs : CachesRight env b s) :
    ∃ t, popFile users env s = .ret none t ∧ ReadingFile env b rest f lines t := by
  obtain ⟨t, hres, ht⟩ := @resumeFile_pending users env b f lines _ rest
    { s.popExcessIfs with fp := none } hread (hi.setChain []) rfl (hs.of_eq rfl rfl id)
  refine ⟨t, ?_, ht⟩
  unfold popFile
  simp only [FileState.popExcessIfs, hstack, nextChainedFile]
  rw [if_neg hrest]
  exact hres

/-- At the end of the file at the top level, **PopFile** ends the reading. -/
theorem popFile_end (hstack : s.iStack = [{ i with chain := [] }]) :
    ∃ t, popFile users env s = .ret (some .eof) t := by
  unfold popFile
  simp only [FileState.popExcessIfs, hstack, nextChainedFile]
  exact ⟨_, rfl⟩

end Pop

/-! ### IncludeFile -/

section Include

variable {users : Users} {env : FileEnv} {b : Bool}
  {target : List Char → CachedLine → Option (List Char)} {f g : List Char}
  {lines : List CachedLine} {stack : List IncludeStruct} {s t : FileState} {d : ℕ}

theorem Fits.readable (h : Fits users env b target d f) : Readable users env f := by
  cases d with
  | zero => exact h.elim
  | succ d => exact h.1

theorem Fits.textOk (h : Fits users env b target d f) : TextOk env b (fileText env f) := by
  cases d with
  | zero => exact h.elim
  | succ d => exact h.2.1

/-- The caches are right behind `SetupGlobChain`, which finds the files that there are. -/
theorem setupGlobChain_right {found : List (List Char)} (hg : g ≠ [])
    (hfound : env.glob (stripSlashes g) = some found) (hs : CachesRight env b s) :
    ∃ chains, setupGlobChain env g s =
        (.ok (globChain env found), { s with cachedDirectoryChains := chains }) ∧
      CachesRight env b { s with cachedDirectoryChains := chains } := by
  unfold setupGlobChain
  rw [if_neg hg]
  dsimp only
  cases hlook : s.cachedDirectoryChains.lookup (stripSlashes g) with
  | some chain =>
    have hchain := hs.dirs _ _ hlook
    rw [hfound] at hchain
    cases hchain
    exact ⟨s.cachedDirectoryChains, rfl, hs⟩
  | none =>
    rw [hfound]
    by_cases hcache : s.shouldCache = true
    · refine ⟨(stripSlashes g, globChain env found) :: s.cachedDirectoryChains, by simp [hcache],
        hs.files, fun dir chain hdir => ?_, hs.mayCache⟩
      rw [List.lookup_cons] at hdir
      split at hdir
      next heq =>
        cases hdir
        rw [eq_of_beq heq, hfound]
        rfl
      next => exact hs.dirs dir chain hdir
    · refine ⟨s.cachedDirectoryChains, ?_, hs⟩
      dsimp only
      rw [if_neg hcache]

theorem Includable.safe {st : FileStat} (h : Includable users env g)
    (hst : (env.stat g).filter (·.isDir) = some st) (rd : BitVec 32) :
    ∃ rd', checkSafetyAux users st rd = (true, rd') := by
  have hsafe := (h st hst).2.1
  rw [checkSafetyAux_fst 0 rd] at hsafe
  exact ⟨_, Prod.ext hsafe rfl⟩

/-- **IncludeFile** starts with the first of the files. -/
theorem includeFile_reads {c : List Char} {cs : List (List Char)} (hpurge : env.purgeMode = false)
    (hg : Includable users env g) (hfiles : filesOf env g = c :: cs) (hread : Readable users env c)
    (hok : TextOk env b (fileText env c)) (hdepth : s.iStack.length < includeNest)
    (hs : CachesRight env b s) :
    ∃ t, includeFile users env g s = .ret none t ∧
      ReadingFile env b
        ({ s.entry s.lineNoStart (isOwned s.runDisabled) with chain := cs } :: s.iStack)
        c (fileLines env c) t := by
  unfold includeFile
  rw [if_neg (Nat.not_le.mpr hdepth)]
  dsimp only
  rw [push_eq]
  unfold filesOf at hfiles
  cases hst : (env.stat g).filter (·.isDir) with
  | none =>
    rw [hst] at hfiles
    obtain ⟨rfl, rfl⟩ := List.cons.inj hfiles
    obtain ⟨t, hopen, hpend, hstack, hright⟩ := openFile_pending hpurge hread hok
      (s := { s with
        fp := none, stdin := s.leave.stdin,
        iStack := s.entry s.lineNoStart (isOwned s.runDisabled) :: s.iStack,
        baseIfPointer := s.ifPointer }) (hs.of_eq rfl rfl id)
    dsimp only
    rw [hopen]
    exact ⟨t, rfl, hpend, hstack, hright⟩
  | some st =>
    rw [hst] at hfiles
    obtain ⟨hne, -, hglob⟩ := hg st hst
    obtain ⟨found, hfound⟩ := Option.ne_none_iff_exists'.mp hglob
    obtain ⟨rd, hsafe⟩ := hg.safe hst s.runDisabled
    simp only [hfound, Option.map_some, Option.getD_some] at hfiles
    obtain ⟨chains, hglobbed, hright⟩ := setupGlobChain_right hne hfound
      (s := { s with
        fp := none, stdin := s.leave.stdin,
        iStack := s.entry s.lineNoStart (isOwned s.runDisabled) :: s.iStack,
        baseIfPointer := s.ifPointer, runDisabled := rd }) (hs.of_eq rfl rfl id)
    obtain ⟨t, hopen, hpend, hstack, hright⟩ := openFile_pending hpurge hread hok
      (s := { s with
        fp := none, stdin := s.leave.stdin,
        iStack := { s.entry s.lineNoStart (isOwned s.runDisabled) with chain := cs } :: s.iStack,
        baseIfPointer := s.ifPointer, runDisabled := rd, cachedDirectoryChains := chains })
      (hright.of_eq rfl rfl id)
    refine ⟨t, ?_, hpend, hstack, hright⟩
    unfold includeDirectory
    dsimp only
    rw [hsafe]
    dsimp only
    rw [hglobbed, hfiles]
    simp only [openFirst, FileState.setChain]
    rw [hopen]

/-- **IncludeFile** goes on with the including file if there is nothing to be read. -/
theorem includeFile_nothing (hg : Includable users env g) (hfiles : filesOf env g = [])
    (hread : Readable users env f) (hdepth : s.iStack.length < includeNest) (hne : stack ≠ [])
    (hs : ReadingFile env b stack f lines s) :
    ∃ r t, includeFile users env g s = .ret r t ∧ ReadingFile env b stack f lines t := by
  have hresume := hs.pending.resumable s.lineNoStart (isOwned s.runDisabled)
  unfold includeFile
  rw [if_neg (Nat.not_le.mpr hdepth)]
  dsimp only
  rw [push_eq, hs.iStack]
  unfold filesOf at hfiles
  cases hst : (env.stat g).filter (·.isDir) with
  | none =>
    rw [hst] at hfiles
    cases hfiles
  | some st =>
    rw [hst] at hfiles
    obtain ⟨hg0, -, hglob⟩ := hg st hst
    obtain ⟨found, hfound⟩ := Option.ne_none_iff_exists'.mp hglob
    obtain ⟨rd, hsafe⟩ := hg.safe hst s.runDisabled
    simp only [hfound, Option.map_some, Option.getD_some] at hfiles
    obtain ⟨chains, hglobbed, hright⟩ := setupGlobChain_right hg0 hfound
      (s := { s with
        fp := none, stdin := s.leave.stdin,
        iStack := s.entry s.lineNoStart (isOwned s.runDisabled) :: stack,
        baseIfPointer := s.ifPointer, runDisabled := rd }) (hs.caches.of_eq rfl rfl id)
    unfold includeDirectory
    dsimp only
    rw [hsafe]
    dsimp only
    rw [hglobbed, hfiles]
    dsimp only
    obtain ⟨t, hpop, ht⟩ := @popFile_resume users env b f lines
      (s.entry s.lineNoStart (isOwned s.runDisabled)) stack
      { s with
        fp := none, stdin := s.leave.stdin,
        iStack := s.entry s.lineNoStart (isOwned s.runDisabled) :: stack,
        baseIfPointer := s.ifPointer, runDisabled := rd, cachedDirectoryChains := chains }
      hread hresume hne rfl (hright.of_eq rfl rfl id)
    unfold popAndFail
    rw [hpop]
    exact ⟨_, t, rfl, ht⟩

end Include

/-! ### The whole run -/

section Run

variable (users : Users) (env : FileEnv) (b : Bool)
  (target : List Char → CachedLine → Option (List Char))

/-- The main loop takes a step: from one file to the next, or past a line. -/
inductive Reads : FileState → Option Event → FileState → Prop
  | pop {s t : FileState} : s.Exhausted → popFile users env s = .ret none t → Reads s none t
  | ignored {s t : FileState} : readLine users env (fun _ => env) s = .ret none t →
      significant ⟨t.curLine, t.lineNo, t.lineNoStart⟩ = none → Reads s none t
  | line {s t : FileState} {f : List Char} {l : CachedLine} :
      readLine users env (fun _ => env) s = .ret none t →
      significant ⟨t.curLine, t.lineNo, t.lineNoStart⟩ = some l → t.fileName = some f →
      target f l = none → Reads s (some (f, l)) t
  | includes {s t u : FileState} {f g : List Char} {l : CachedLine} {r : Option ErrCode} :
      readLine users env (fun _ => env) s = .ret none t →
      significant ⟨t.curLine, t.lineNo, t.lineNoStart⟩ = some l → t.fileName = some f →
      target f l = some g → includeFile users env g t = .ret r u → Reads s (some (f, l)) u

/-- The lines that are read from `s` on, if there is an end to them, are `es`. -/
def ReadsAll (s : FileState) (es : List Event) : Prop :=
  ∃ n, ∀ m ≥ n, readAll users env target m s = some es

variable {users env b target} {f : List Char} {lines : List CachedLine} {stack : List IncludeStruct}
  {chain : List (List Char)} {i : IncludeStruct} {s t u : FileState} {e : Option Event}
  {es fs : List Event} {d : ℕ}

theorem readAll_of_readLine {n : ℕ} (h : readLine users env (fun _ => env) s =
    readLine users env (fun _ => env) t) :
    readAll users env target n s = readAll users env target n t := by
  cases n with
  | zero => rfl
  | succ n =>
    unfold readAll
    rw [h]

/-- A step leaves the lines behind it to be read. -/
theorem Reads.readsAll (h : Reads users env target s e t) (ht : ReadsAll users env target t fs) :
    ReadsAll users env target s (e.toList ++ fs) := by
  obtain ⟨n, hn⟩ := ht
  cases h with
  | pop hs hpop =>
    refine ⟨n, fun m hm => ?_⟩
    rw [readAll_of_readLine (readLine_pop hs hpop)]
    exact hn m hm
  | ignored hread hsig =>
    refine ⟨n + 1, fun m hm => ?_⟩
    obtain ⟨k, rfl⟩ := Nat.exists_eq_add_of_le hm
    rw [Nat.add_right_comm]
    unfold readAll
    simp only [hread, hsig]
    exact hn _ (Nat.le_add_right n k)
  | line hread hsig hname htarget =>
    refine ⟨n + 1, fun m hm => ?_⟩
    obtain ⟨k, rfl⟩ := Nat.exists_eq_add_of_le hm
    rw [Nat.add_right_comm]
    unfold readAll
    simp only [hread, hsig, hname, Option.getD_some, htarget, hn _ (Nat.le_add_right n k)]
    rfl
  | includes hread hsig hname htarget hincl =>
    refine ⟨n + 1, fun m hm => ?_⟩
    obtain ⟨k, rfl⟩ := Nat.exists_eq_add_of_le hm
    rw [Nat.add_right_comm]
    unfold readAll
    simp only [hread, hsig, hname, Option.getD_some, htarget, hincl, hn _ (Nat.le_add_right n k)]
    rfl

theorem significant_of_mem {raw : List CachedLine} {l : CachedLine} (h : l ∈ sigLines raw) :
    significant l = some l := by
  obtain ⟨k, -, hk⟩ := List.mem_filterMap.mp h
  exact significant_significant hk

/-- Unless the file is at its end, the next of its lines is reached. -/
theorem next_line (hpurge : env.purgeMode = false) (h0 : '\x00' ∉ fileText env f)
    (hlines : ∀ l ∈ lines, significant l = some l) (hs : ReadingFile env b stack f lines s) :
    (lines = [] ∧ ∃ t, Lib.Trace (Reads users env target) s [] t ∧ AtEnd env b stack t) ∨
      ∃ l ls t u, lines = l :: ls ∧ Lib.Trace (Reads users env target) s [] t ∧
        readLine users env (fun _ => env) t = .ret none u ∧
        significant ⟨u.curLine, u.lineNo, u.lineNoStart⟩ = some l ∧
        ReadingFile env b stack f ls u := by
  induction hn : s.unread using Nat.strong_induction_on generalizing s with
  | _ n ih =>
    by_cases hex : s.Exhausted
    · refine Or.inl ⟨?_, s, .nil s, hex, hs.iStack, hs.caches⟩
      obtain ⟨hline, hfp⟩ := hex
      cases hs.pending with
      | cached _ _ h => rw [← h, hline]
      | direct raw _ _ hun _ hsig =>
        rw [hfp] at hun
        rw [← hsig, hun.closed]
        rfl
    · obtain ⟨t, hread, hstack, hfiles, hdirs, hcache, hname, hnext⟩ :=
        @Pending.read users _ _ _ _ hs.pending hpurge h0 hlines hex
      have hright := hs.caches.of_eq hfiles hdirs fun h => hcache ▸ h
      rcases hnext with ⟨hsig, hpend, hless⟩ | ⟨l, ls, rfl, hsig, hpend⟩
      · have ht : ReadingFile env b stack f lines t := ⟨hpend, hstack.trans hs.iStack, hright⟩
        have hstep : Reads users env target s none t := .ignored hread hsig
        rcases ih t.unread (hn ▸ hless) ht rfl with
          ⟨hnil, u, htrace, hend⟩ | ⟨l, ls, u, v, hcons, htrace, hrest⟩
        · exact Or.inl ⟨hnil, u, .silent hstep htrace, hend⟩
        · exact Or.inr ⟨l, ls, u, v, hcons, .silent hstep htrace, hrest⟩
      · exact Or.inr ⟨l, ls, s, t, rfl, .nil s, hread, hsig, hpend, hstack.trans hs.iStack, hright⟩

/-- At the end of the file at the top level, nothing more is read. -/
theorem AtEnd.readsAll (h : AtEnd env b [{ i with chain := [] }] s) :
    ReadsAll users env target s [] := by
  obtain ⟨t, hpop⟩ := @popFile_end users env _ _ h.iStack
  have hread : readLine users env (fun _ => env) s = .ret (some .eof) t := by
    have hex : s.cLine = [] ∧ s.fp = none := h.exhausted
    unfold readLine popLoop
    rw [if_pos hex, hpop]
  refine ⟨1, fun m hm => ?_⟩
  obtain ⟨m, rfl⟩ := Nat.exists_eq_add_of_le' hm
  unfold readAll
  rw [hread]

variable (users env b target) in
/-- A file that nests up to `d` is read with what it includes. -/
def Inlines (d : ℕ) : Prop :=
  ∀ f stack s, Fits users env b target d f → ReadingFile env b stack f (fileLines env f) s →
    stack ≠ [] → stack.length + d ≤ includeNest + 1 →
    ∃ t, Lib.Trace (Reads users env target) s (inlineFile env target d f) t ∧ AtEnd env b stack t

/-- The rest of a directory is read. -/
theorem inlines_chain (hpurge : env.purgeMode = false) (hd : Inlines users env b target d)
    (hfits : ∀ c ∈ chain, Fits users env b target d c) (hdepth : stack.length + d ≤ includeNest)
    (hs : AtEnd env b ({ i with chain } :: stack) s) :
    ∃ t, Lib.Trace (Reads users env target) s (chain.flatMap (inlineFile env target d)) t ∧
      AtEnd env b ({ i with chain := [] } :: stack) t := by
  induction chain generalizing s with
  | nil => exact ⟨s, .nil s, hs⟩
  | cons c cs ih =>
    have hc := hfits c List.mem_cons_self
    obtain ⟨t, hpop, ht⟩ := popFile_next hpurge hc.readable hc.textOk hs.iStack hs.caches
    obtain ⟨u, hfirst, hu⟩ := hd c _ t hc ht (List.cons_ne_nil _ _) (by
      rw [List.length_cons]
      omega)
    obtain ⟨v, hrest, hv⟩ := ih (fun c hmem => hfits c (List.mem_cons_of_mem _ hmem)) hu
    exact ⟨v, .silent (.pop hs.exhausted hpop) (hfirst.trans hrest), hv⟩

/-- All files of an include are read. -/
theorem inlines_files {c : List Char} {cs : List (List Char)} (hpurge : env.purgeMode = false)
    (hd : Inlines users env b target d) (hfits : ∀ k ∈ c :: cs, Fits users env b target d k)
    (hdepth : stack.length + d ≤ includeNest)
    (hs : ReadingFile env b ({ i with chain := cs } :: stack) c (fileLines env c) s) :
    ∃ t, Lib.Trace (Reads users env target) s ((c :: cs).flatMap (inlineFile env target d)) t ∧
      AtEnd env b ({ i with chain := [] } :: stack) t := by
  obtain ⟨t, hfirst, ht⟩ := hd c _ s (hfits c List.mem_cons_self) hs (List.cons_ne_nil _ _) (by
    rw [List.length_cons]
    omega)
  obtain ⟨u, hrest, hu⟩ :=
    inlines_chain hpurge hd (fun k hmem => hfits k (List.mem_cons_of_mem _ hmem)) hdepth ht
  exact ⟨u, hfirst.trans hrest, hu⟩

/-- The lines of a file are read, with what they include. -/
theorem inlines_lines (hpurge : env.purgeMode = false) (hd : Inlines users env b target d)
    (hf : Fits users env b target (d + 1) f) (hlines : ∀ l ∈ lines, l ∈ fileLines env f)
    (hstack : stack ≠ []) (hdepth : stack.length + d ≤ includeNest)
    (hs : ReadingFile env b stack f lines s) :
    ∃ t, Lib.Trace (Reads users env target) s
        (lines.flatMap fun l => (f, l) :: match target f l with
          | none => []
          | some g => (filesOf env g).flatMap (inlineFile env target d)) t ∧
      AtEnd env b stack t := by
  induction lines generalizing s with
  | nil =>
    rcases @next_line users _ _ target _ _ _ _ hpurge hf.textOk.noNul (by simp) hs with
      ⟨-, t, htrace, hend⟩ | ⟨l, ls, -, -, h, -⟩
    · exact ⟨t, htrace, hend⟩
    · cases h
  | cons l ls ih =>
    obtain ⟨hl, hls⟩ := List.forall_mem_cons.mp hlines
    have hsig : ∀ k ∈ l :: ls, significant k = some k :=
      fun k hk => significant_of_mem (hlines k hk)
    rcases @next_line users _ _ target _ _ _ _ hpurge hf.textOk.noNul hsig hs with
      ⟨h, -⟩ | ⟨_, _, t, u, h, htrace, hread, hline, hu⟩
    · cases h
    obtain ⟨rfl, rfl⟩ := List.cons.inj h
    have hname := hu.pending.fileName
    rw [List.flatMap_cons]
    cases htarget : target f l with
    | none =>
      obtain ⟨v, hrest, hv⟩ := ih hls hu
      exact ⟨v, htrace.trans (.label (.line hread hline hname htarget) hrest), hv⟩
    | some g =>
      obtain ⟨hpos, hincl, hfits⟩ := hf.2.2 l hl g htarget
      have hlen : u.iStack.length < includeNest := by
        rw [hu.iStack]
        omega
      dsimp only
      cases hfiles : filesOf env g with
      | nil =>
        obtain ⟨r, v, hinc, hv⟩ := includeFile_nothing hincl hfiles hf.readable hlen hstack hu
        obtain ⟨w, hrest, hw⟩ := ih hls hv
        exact ⟨w, htrace.trans (.label (.includes hread hline hname htarget hinc) hrest), hw⟩
      | cons c cs =>
        rw [hfiles] at hfits
        have hc := hfits c List.mem_cons_self
        have hresume := hu.pending.resumable u.lineNoStart (isOwned u.runDisabled)
        obtain ⟨v, hinc, hv⟩ :=
          includeFile_reads hpurge hincl hfiles hc.readable hc.textOk hlen hu.caches
        rw [hu.iStack] at hv
        obtain ⟨w, hbelow, hw⟩ := inlines_files hpurge hd hfits hdepth hv
        obtain ⟨x, hpop, hx⟩ := popFile_resume hf.readable hresume hstack hw.iStack hw.caches
        obtain ⟨y, hrest, hy⟩ := ih hls hx
        refine ⟨y, htrace.trans (.label (.includes hread hline hname htarget hinc) ?_), hy⟩
        exact hbelow.trans (.silent (.pop hw.exhausted hpop) hrest)

/-- By induction on the depth, every file is read with what it includes. -/
theorem inlines (hpurge : env.purgeMode = false) (d : ℕ) : Inlines users env b target d := by
  induction d with
  | zero => exact fun f stack s hf => hf.elim
  | succ d ih =>
    intro f stack s hf hs hstack hdepth
    exact inlines_lines hpurge ih hf (fun _ hl => hl) hstack (by omega) hs

end Run

/-- Nothing is being read; the caches may hold files that have been read before. -/
structure Idle (env : FileEnv) (b : Bool) (s : FileState) : Prop where
  iStack : s.iStack = []
  caches : CachesRight env b s

theorem idle_init (env : FileEnv) (shouldCache : Bool) (runDisabled : BitVec 32)
    (input : List Char) : Idle env shouldCache (FileState.init shouldCache runDisabled input) where
  iStack := rfl
  caches := ⟨nofun, nofun, id⟩

/-- INCLUDE is inlining. -/
theorem include_inlines {users : Users} {env : FileEnv} {b : Bool}
    {target : List Char → CachedLine → Option (List Char)} {g : List Char} {s : FileState}
    (hpurge : env.purgeMode = false) (hs : Idle env b s) (hg : Includable users env g)
    (hfiles : filesOf env g ≠ [])
    (hfits : ∀ c ∈ filesOf env g, Fits users env b target includeNest c) :
    ∃ t, includeFile users env g s = .ret none t ∧
      ReadsAll users env target t
        ((filesOf env g).flatMap (inlineFile env target includeNest)) := by
  obtain ⟨c, cs, hcons⟩ := List.exists_cons_of_ne_nil hfiles
  rw [hcons] at hfits ⊢
  have hc := hfits c List.mem_cons_self
  have hlen : s.iStack.length < includeNest := by
    rw [hs.iStack]
    decide
  obtain ⟨t, hinc, ht⟩ := includeFile_reads hpurge hg hcons hc.readable hc.textOk hlen hs.caches
  rw [hs.iStack] at ht
  obtain ⟨u, htrace, hu⟩ := inlines_files hpurge (inlines hpurge _) hfits (Nat.zero_add _).le ht
  refine ⟨t, hinc, ?_⟩
  rw [← List.append_nil (List.flatMap _ _)]
  exact htrace.backward (fun _ _ _ _ hstep => hstep.readsAll) hu.readsAll

/-- A text whose last line is blank, which is so where it ends in a newline. -/
theorem TextOk.of_last {env : FileEnv} {b : Bool} {text : List Char} (h0 : '\x00' ∉ text)
    (hfit : ∀ l ∈ rawLines 0 text, tooLong env.maxLineLength l.text = false)
    (hlast : ∀ l, (rawLines 0 text).getLast? = some l → l.text = []) : TextOk env b text where
  noNul := h0
  rawOk := by
    refine ⟨fun pre l post h _ => hfit l (by simp [h]), fun pre l h _ => ?_⟩
    rw [hlast l (by simp [h])]
    decide
  cacheOk := by
    intro _ pre l h _ hsig
    refine absurd ?_ hsig
    unfold significant
    rw [hlast l (by simp [h])]
    rfl

/-- `m` includes `x` on its first line; lines may have `maxLineLength` characters. -/
def filesMX (maxLineLength : ℕ) : FileEnv where
  fopen _ f :=
    if f = ['m'] then some ⟨"x\ny\n".toList, false, some ⟨1, .reg, false⟩⟩
    else some ⟨"abcd\n".toList, false, some ⟨1, .reg, false⟩⟩
  stat _ := some ⟨1, .reg, false⟩
  glob _ := none
  popen _ := none
  purgeMode := false
  maxLineLength := maxLineLength
  maxCachedLines := 100
  maxIncludeCmdLines := 100

/-- The line `x` of `m` includes the file `x`. -/
def includesX (f : List Char) (l : CachedLine) : Option (List Char) :=
  if f = ['m'] ∧ l.text = ['x'] then some ['x'] else none

theorem readable_filesMX (n : ℕ) (f : List Char) (hf : f = ['m'] ∨ f = ['x']) :
    Readable ⟨1, []⟩ (filesMX n) f := by
  rcases hf with rfl | rfl
  · exact ⟨by decide, ⟨1, .reg, false⟩, by decide, fun _ => rfl⟩
  · exact ⟨by decide, ⟨1, .reg, false⟩, by decide, fun _ => rfl⟩

theorem fits_filesMX : Fits ⟨1, []⟩ (filesMX 0) true includesX includeNest ['m'] := by
  have hx : Fits ⟨1, []⟩ (filesMX 0) true includesX 8 ['x'] := by
    refine ⟨readable_filesMX 0 _ (Or.inr rfl), .of_last (by decide) (by decide) (by decide), ?_⟩
    intro l _ g hg
    simp [includesX] at hg
  refine ⟨readable_filesMX 0 _ (Or.inl rfl), .of_last (by decide) (by decide) (by decide), ?_⟩
  intro l _ g hg
  unfold includesX at hg
  split_ifs at hg
  cases hg
  refine ⟨by decide, fun _ hst => (by cases hst), fun c hc => ?_⟩
  have hc' : c ∈ [['x']] := hc
  rw [List.mem_singleton.mp hc']
  exact hx

theorem include_inlines_mx :
    ∃ t, includeFile ⟨1, []⟩ (filesMX 0) ['m'] (FileState.init true 0 []) = .ret none t ∧
      ReadsAll ⟨1, []⟩ (filesMX 0) includesX t
        [(['m'], ⟨['x'], 1, 1⟩), (['x'], ⟨['a', 'b', 'c', 'd'], 1, 1⟩), (['m'], ⟨['y'], 2, 2⟩)] :=
  include_inlines rfl (idle_init (filesMX 0) true 0 []) (fun _ hst => (by cases hst))
    (by decide) (List.forall_mem_singleton.mpr fits_filesMX)

/-- The reading ends with the line that is too long. -/
theorem include_inlines_long :
    Readable ⟨1, []⟩ (filesMX 3) ['x'] ∧ filesOf (filesMX 3) ['x'] = [['x']] ∧
      ¬ ∃ t, includeFile ⟨1, []⟩ (filesMX 3) ['x'] (FileState.init false 0 []) = .ret none t ∧
        ReadsAll ⟨1, []⟩ (filesMX 3) includesX t
          (inlineFile (filesMX 3) includesX includeNest ['x']) := by
  refine ⟨readable_filesMX 3 _ (Or.inr rfl), rfl, ?_⟩
  rintro ⟨t, hinc, n, hn⟩
  cases hinc
  have hread := hn (n + 1) (Nat.le_succ n)
  cases hread

end Remind.LineReader
