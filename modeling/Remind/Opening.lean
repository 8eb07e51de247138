import Remind.FileFrame

/-!
# Opening — what `OpenFile` comes to

Whether a file can be opened is told by the system calls, by what is in the cache and by `ShouldCache`
(`opening`).  A file that is not opened has changed nothing of the state that `PopFile` does not
restore.
-/

namespace Remind.LineReader

/-! ### RunDisabled -/

section Bits

variable {r : BitVec 32} {b c : Bool}

theorem runNotOwner_eq : runNotOwner = BitVec.twoPow 32 2 := by decide

theorem isOwned_eq (r : BitVec 32) : isOwned r = !r.getLsbD 2 := by
  unfold isOwned
  rw [runNotOwner_eq, BitVec.and_twoPow]
  cases r.getLsbD 2 <;> decide

theorem setOwned_bit (b : Bool) (r : BitVec 32) {i : ℕ} (h32 : i < 32) :
    (setOwned b r).getLsbD i = if i = 2 then !b else r.getLsbD i := by
  unfold setOwned
  rw [runNotOwner_eq]
  by_cases hi : i = 2
  · subst hi
    cases b <;> simp
  · cases b <;> simp [BitVec.getLsbD_twoPow, hi, Ne.symm hi, h32]

theorem isOwned_setOwned (b : Bool) (r : BitVec 32) : isOwned (setOwned b r) = b := by
  rw [isOwned_eq, setOwned_bit b r (by decide), if_pos rfl, Bool.not_not]

/-- The later of two settings counts. -/
theorem setOwned_setOwned (b c : Bool) (r : BitVec 32) : setOwned c (setOwned b r) = setOwned c r := by
  refine BitVec.eq_of_getLsbD_eq fun i hi => ?_
  rw [setOwned_bit c _ hi, setOwned_bit b r hi, setOwned_bit c r hi]
  split_ifs <;> rfl

theorem setOwned_isOwned (r : BitVec 32) : setOwned (isOwned r) r = r := by
  refine BitVec.eq_of_getLsbD_eq fun i hi => ?_
  rw [setOwned_bit _ r hi, isOwned_eq]
  split_ifs with h2
  · rw [h2, Bool.not_not]
  · rfl

/-- The bits of `RunDisabled` other than `RUN_NOTOWNER`. -/
def otherBits (r : BitVec 32) : BitVec 32 := setOwned true r

theorem otherBits_setOwned (b : Bool) (r : BitVec 32) : otherBits (setOwned b r) = otherBits r :=
  setOwned_setOwned b true r

/-- `RUN_NOTOWNER` and the other bits make up `RunDisabled`. -/
theorem runDisabled_ext {r q : BitVec 32} (hother : otherBits r = otherBits q)
    (howned : isOwned r = isOwned q) : r = q := by
  rw [← setOwned_isOwned r, ← setOwned_isOwned q, howned, ← setOwned_setOwned true _ r,
    ← setOwned_setOwned true _ q]
  exact congrArg _ hother

end Bits

/-! ### Who may be read -/

section Safety

variable {users : Users} {st : FileStat} {r : BitVec 32}

theorem checkSafetyAux_otherBits (users : Users) (st : FileStat) (r : BitVec 32) :
    otherBits (checkSafetyAux users st r).2 = otherBits r := by
  unfold checkSafetyAux
  split_ifs
  · rfl
  · rfl
  · rfl
  · exact otherBits_setOwned _ _

/-- Whether a file may be read does not depend on `RunDisabled`. -/
theorem checkSafetyAux_fst (r q : BitVec 32) :
    (checkSafetyAux users st r).1 = (checkSafetyAux users st q).1 := by
  unfold checkSafetyAux
  split_ifs <;> rfl

theorem checkSafetyAux_refused (h : (checkSafetyAux users st r).1 = false) :
    (checkSafetyAux users st r).2 = r := by
  unfold checkSafetyAux at h ⊢
  split_ifs at h ⊢ <;> rfl

/-- For regular files and directories, `RUN_NOTOWNER` tells whether the owner is trusted. -/
theorem checkSafetyAux_owned (h : (checkSafetyAux users st r).1 = true) (hkind : st.kind ≠ .other) :
    isOwned (checkSafetyAux users st r).2 = users.trusts st.uid := by
  unfold checkSafetyAux at h ⊢
  split_ifs at h ⊢
  exact isOwned_setOwned _ _

end Safety

/-- `RUN_NOTOWNER` is as it has to be while lines of the source are interpreted: set for a regular
file of nobody trusted, and for a command with `!`. -/
def Source.Rightly (users : Users) (owned : Bool) : Source → Prop
  | .file st => st.kind = .reg → owned = users.trusts st.uid
  | .command bang => owned = !bang
  | _ => True

/-! ### Opening a stream -/

section OnDisk

variable {users : Users} {env : FileEnv} {attempt : Attempt} {fname : List Char} {offset : ℕ}
  {s t : FileState}

/-- The file is no directory, and safe. -/
def Users.accepts (users : Users) (st : FileStat) : Bool :=
  st.kind ≠ .dir && (checkSafetyAux users st 0).1

/-- What is found under the name `fname`, if `fopen` and `CheckSafety` let it be read. -/
def readable (users : Users) (env : FileEnv) (attempt : Attempt) (fname : List Char) :
    Option (Opened × FileStat) :=
  (env.fopen attempt fname).bind fun o =>
    o.stat.bind fun st => if users.accepts st then some (o, st) else none

/-- The state behind the opening of a file on disk. -/
def FileState.onDisk (users : Users) (s : FileState) (o : Opened) (st : FileStat) (offset : ℕ) :
    FileState :=
  { s with
    fp := some (openAt o.text o.broken offset)
    runDisabled := (checkSafetyAux users st s.runDisabled).2
    source := .file st }

theorem openOnDisk_stdin : openOnDisk users env attempt stdinName offset s =
    (true, { s with fp := some s.stdin, source := .stdin }) := if_pos rfl

theorem openOnDisk_eq (hname : fname ≠ stdinName) :
    openOnDisk users env attempt fname offset s =
      match readable users env attempt fname with
      | none => (false, { s with fp := none })
      | some (o, st) => (true, s.onDisk users o st offset) := by
  unfold openOnDisk readable
  rw [if_neg hname]
  cases env.fopen attempt fname with
  | none => rfl
  | some o =>
    simp only [Option.bind_some]
    cases o.stat with
    | none => rfl
    | some st =>
      have hfst := @checkSafetyAux_fst users st s.runDisabled 0
      have hrefused := @checkSafetyAux_refused users st s.runDisabled
      simp only [Option.bind_some, Users.accepts, FileState.onDisk, ← hfst]
      by_cases hdir : st.kind = .dir
      · simp [hdir]
      · rcases hres : checkSafetyAux users st s.runDisabled with ⟨safe, rd⟩
        rw [hres] at hrefused
        cases safe
        · have hrd : rd = s.runDisabled := hrefused rfl
          simp [hdir, hrd]
        · simp [hdir, hres]

/-- The stream that a name stands for, if it can be read. -/
def streamOf (users : Users) (env : FileEnv) (stdin : Stream) (attempt : Attempt)
    (fname : List Char) : Option Stream :=
  if fname = stdinName then some stdin
  else (readable users env attempt fname).map fun f => openAt f.1.text f.1.broken 0

theorem openOnDisk_none (h : streamOf users env s.stdin attempt fname = none) :
    openOnDisk users env attempt fname 0 s = (false, { s with fp := none }) := by
  unfold streamOf at h
  split_ifs at h with hname
  rw [openOnDisk_eq hname, Option.map_eq_none_iff.mp h]

theorem accepted_rightly {st : FileStat} (h : users.accepts st = true) (r : BitVec 32) :
    (Source.file st).Rightly users (isOwned (checkSafetyAux users st r).2) := by
  intro hreg
  unfold Users.accepts at h
  rw [Bool.and_eq_true] at h
  refine checkSafetyAux_owned ?_ (by rw [hreg]; nofun)
  rw [checkSafetyAux_fst r 0]
  exact h.2

theorem readable_accepts {o : Opened} {st : FileStat}
    (h : readable users env attempt fname = some (o, st)) : users.accepts st = true := by
  unfold readable at h
  simp only [Option.bind_eq_some_iff] at h
  obtain ⟨o', -, st', -, h⟩ := h
  split_ifs at h with hacc
  cases h
  exact hacc

theorem openOnDisk_some {fp : Stream} (h : streamOf users env s.stdin attempt fname = some fp) :
    ∃ rd src, otherBits rd = otherBits s.runDisabled ∧ src.Rightly users (isOwned rd) ∧
      openOnDisk users env attempt fname 0 s =
        (true, { s with fp := some fp, runDisabled := rd, source := src }) := by
  unfold streamOf at h
  by_cases hname : fname = stdinName
  · rw [if_pos hname] at h
    cases h
    rw [hname, openOnDisk_stdin]
    exact ⟨s.runDisabled, .stdin, rfl, trivial, rfl⟩
  · rw [if_neg hname, Option.map_eq_some_iff] at h
    obtain ⟨⟨o, st⟩, hread, rfl⟩ := h
    rw [openOnDisk_eq hname, hread]
    exact ⟨_, .file st, checkSafetyAux_otherBits users st s.runDisabled,
      accepted_rightly (readable_accepts hread) _, rfl⟩

theorem streamOf_isStdin {stdin fp : Stream} (h : streamOf users env stdin attempt fname = some fp) :
    fp.dev.isStdin = if fname = stdinName then stdin.dev.isStdin else false := by
  unfold streamOf at h
  split_ifs at h ⊢
  · cases h
    rfl
  · rw [Option.map_eq_some_iff] at h
    obtain ⟨f, -, rfl⟩ := h
    rfl

theorem streamOf_device {stdin fp : Stream} (h : streamOf users env stdin attempt fname = some fp)
    (hin : fp.dev.isStdin = true) : fp.dev = stdin.dev := by
  unfold streamOf at h
  split_ifs at h
  · cases h
    rfl
  · rw [Option.map_eq_some_iff] at h
    obtain ⟨f, -, rfl⟩ := h
    cases hin

/-- Whether a name can be read depends on the standard input for `-` only, and that can be. -/
theorem streamOf_isSome (stdin stdin' : Stream) :
    (streamOf users env stdin attempt fname).isSome =
      (streamOf users env stdin' attempt fname).isSome := by
  unfold streamOf
  split_ifs <;> rfl

end OnDisk

/-! ### OpenFile -/

/-- What opening a file comes to; `fails` with `ShouldCache` as it is then. -/
inductive Opening where
  | opens
  | fails (shouldCache : Bool)
  | crashes

/-- A file is found in the cache; or it is opened, and once more after it could not be cached. -/
def opening (users : Users) (env : FileEnv) (cachedFiles : List CachedFile) (stdin : Stream)
    (shouldCache : Bool) (fname : List Char) : Opening :=
  if cachedFiles.any (·.filename = fname) then .opens
  else
    match streamOf users env stdin .first fname with
    | none => .fails shouldCache
    | some fp =>
      if shouldCache then
        match caching env false fp with
        | none => .crashes
        | some none => .opens
        | some (some _) =>
          if (streamOf users env stdin .again fname).isSome then .opens else .fails false
      else .opens

/-- What no opening of a file changes. -/
structure Around (s t : FileState) : Prop where
  iStack : t.iStack = s.iStack
  chains : t.cachedDirectoryChains = s.cachedDirectoryChains
  ifPointer : t.ifPointer = s.ifPointer
  baseIfPointer : t.baseIfPointer = s.baseIfPointer
  otherBits : otherBits t.runDisabled = otherBits s.runDisabled

/-- A file has not been opened. -/
structure NotOpened (s : FileState) (shouldCache : Bool) (t : FileState) : Prop extends
    Around s t where
  fileName : t.fileName = s.fileName
  stdin : t.stdin = s.stdin
  cachedFiles : t.cachedFiles = s.cachedFiles
  fp : t.fp = none
  shouldCache : t.shouldCache = shouldCache
  cLine : t.cLine = s.cLine ∨ t.cLine = []

/-- A file has been opened, in the cache or on disk. -/
structure Started (users : Users) (fname : List Char) (s t : FileState) : Prop extends
    Around s t where
  fileName : t.fileName = some fname
  one : t.cLine = [] ∨ t.fp = none
  stdin : t.stdin.dev = s.stdin.dev
  stream : ∀ q, t.fp = some q →
    q.dev.isStdin = if fname = stdinName then s.stdin.dev.isStdin else false
  source : (∃ h ∈ s.cachedFiles, t.source = h.source ∧ isOwned t.runDisabled = h.ownedByMe) ∨
    t.source.Rightly users (isOwned t.runDisabled)
  cachedFiles : ∀ h ∈ t.cachedFiles, h ∈ s.cachedFiles ∨ h.source.Rightly users h.ownedByMe

section OpenFile

variable {users : Users} {env : FileEnv} {fname : List Char} {s t u : FileState} {b : Bool}

theorem Around.refl (s : FileState) : Around s s := ⟨rfl, rfl, rfl, rfl, rfl⟩

theorem Around.trans (h1 : Around s t) (h2 : Around t u) : Around s u :=
  ⟨h2.iStack.trans h1.iStack, h2.chains.trans h1.chains, h2.ifPointer.trans h1.ifPointer,
    h2.baseIfPointer.trans h1.baseIfPointer, h2.otherBits.trans h1.otherBits⟩

theorem Cached.around {cf : CachedFile} {r : Option ErrCode} (h : Cached cf s r t) : Around s t := by
  obtain ⟨u, hread, ht⟩ := h.read
  have hu := hread.eq
  rw [ht, hu]
  exact ⟨rfl, rfl, rfl, rfl, rfl⟩

theorem Cached.same {cf : CachedFile} {r : Option ErrCode} (h : Cached cf s r t) :
    t.fileName = s.fileName ∧ t.source = s.source ∧ t.runDisabled = s.runDisabled ∧
      t.cLine = s.cLine := by
  obtain ⟨u, hread, ht⟩ := h.read
  have hu := hread.eq
  rw [ht, hu]
  exact ⟨rfl, rfl, rfl, rfl⟩

theorem Cached.stdin {cf : CachedFile} {r : Option ErrCode} (h : Cached cf s r t) :
    t.stdin = s.stdin ∨ ∃ fp, s.fp = some fp ∧ fp.dev.isStdin = true ∧ t.stdin.dev = fp.dev := by
  obtain ⟨u, hread, ht⟩ := h.read
  rw [ht]
  exact hread.stdin

theorem Cached.stdin_eq {cf : CachedFile} {r : Option ErrCode} (h : Cached cf s r t)
    (hs : s.NotStdin) : t.stdin = s.stdin := by
  obtain ⟨u, hread, ht⟩ := h.read
  rw [ht]
  exact hread.stdin_eq hs

/-- The state in which a stream has been opened, for its lines to be read or cached. -/
structure Ready (users : Users) (fname : List Char) (fp : Stream) (s t : FileState) : Prop extends
    Around s t where
  opened : t.fp = some fp
  cLine : t.cLine = []
  fileName : t.fileName = s.fileName
  stdin : t.stdin = s.stdin
  stream : fp.dev.isStdin = if fname = stdinName then s.stdin.dev.isStdin else false
  device : fp.dev.isStdin = true → fp.dev = s.stdin.dev
  cachedFiles : t.cachedFiles = s.cachedFiles
  shouldCache : t.shouldCache = s.shouldCache
  rightly : t.source.Rightly users (isOwned t.runDisabled)

theorem Ready.stdin_dev {fp : Stream} {r : Option ErrCode} {cf : CachedFile}
    (h : Ready users fname fp s t) (hcached : Cached cf t r u) : u.stdin.dev = s.stdin.dev := by
  rcases hcached.stdin with heq | ⟨q, hq, hin, hdev⟩
  · rw [heq, h.stdin]
  · rw [h.opened] at hq
    cases hq
    rw [hdev, h.device hin]

/-- The file is read from the stream. -/
theorem Ready.started_direct {fp : Stream} (h : Ready users fname fp s t) :
    Started users fname s (t.opened fname) where
  toAround := ⟨h.iStack, h.chains, h.ifPointer, h.baseIfPointer, h.otherBits⟩
  fileName := rfl
  one := Or.inl h.cLine
  stdin := congrArg Stream.dev h.stdin
  stream q hq := by
    have hq' : t.fp = some q := hq
    rw [h.opened] at hq'
    cases hq'
    exact h.stream
  source := Or.inr h.rightly
  cachedFiles c hc := Or.inl (h.cachedFiles ▸ hc)

/-- The file is read from the cache. -/
theorem Ready.started_cached {fp : Stream} (h : Ready users fname fp s t)
    (hcached : Cached (t.header fname) t none u) : Started users fname s (u.justCached.opened fname) := by
  have haround := h.toAround.trans hcached.around
  obtain ⟨-, hsource, hrd, -⟩ := hcached.same
  obtain ⟨-, cache, hfiles⟩ := hcached.done rfl
  refine ⟨⟨haround.iStack, haround.chains, haround.ifPointer, haround.baseIfPointer,
    haround.otherBits⟩, rfl, Or.inr rfl, ?_, nofun, Or.inr ?_, ?_⟩
  · show u.stdin.dev = s.stdin.dev
    exact h.stdin_dev hcached
  · show u.source.Rightly users (isOwned u.runDisabled)
    rw [hsource, hrd]
    exact h.rightly
  · intro c hc
    have hc' : c ∈ u.cachedFiles := hc
    rw [hfiles, List.mem_cons] at hc'
    rcases hc' with rfl | hc'
    · exact Or.inr h.rightly
    · exact Or.inl (h.cachedFiles ▸ hc')

/-- **OpenFile** does what `opening` says. -/
theorem openFile_opening (users : Users) (env : FileEnv) (fname : List Char) (s : FileState) :
    match opening users env s.cachedFiles s.stdin s.shouldCache fname with
    | .opens => ∃ t, openFile users env fname s = .ret none t ∧ Started users fname s t
    | .fails b => ∃ r t, openFile users env fname s = .ret (some r) t ∧ NotOpened s b t
    | .crashes => openFile users env fname s = .crash := by
  unfold opening openFile
  cases hfind : s.cachedFiles.find? (·.filename = fname) with
  | some h =>
    have hmem := List.mem_of_find?_eq_some hfind
    have hany : s.cachedFiles.any (·.filename = fname) = true := by
      rw [List.any_eq_true]
      exact ⟨h, hmem, by simpa using List.find?_some hfind⟩
    rw [if_pos hany]
    exact ⟨_, rfl, ⟨rfl, rfl, rfl, rfl, otherBits_setOwned _ _⟩, rfl, Or.inr rfl, rfl, nofun,
      Or.inl ⟨h, hmem, rfl, isOwned_setOwned _ _⟩, fun c hc => Or.inl hc⟩
  | none =>
    have hany : ¬ s.cachedFiles.any (·.filename = fname) = true := by
      rw [List.any_eq_true]
      rintro ⟨h, hmem, hh⟩
      exact (List.find?_eq_none.mp hfind) h hmem hh
    rw [if_neg hany]
    dsimp only
    -- the bit is cleared for the standard input
    have hs1 : ∃ rd, otherBits rd = otherBits s.runDisabled ∧
        (if fname = stdinName then { s with runDisabled := setOwned true s.runDisabled } else s) =
          { s with runDisabled := rd } := by
      split_ifs
      · exact ⟨_, otherBits_setOwned _ _, rfl⟩
      · exact ⟨_, rfl, rfl⟩
    obtain ⟨rd1, hrd1, hs1⟩ := hs1
    rw [hs1]
    cases hstream : streamOf users env s.stdin .first fname with
    | none =>
      rw [openOnDisk_none (s := { s with runDisabled := rd1 }) hstream]
      exact ⟨_, _, rfl, ⟨⟨rfl, rfl, rfl, rfl, hrd1⟩, rfl, rfl, rfl, rfl, rfl, Or.inl rfl⟩⟩
    | some fp =>
      obtain ⟨rd2, src, hrd2, hright, hopen⟩ :=
        openOnDisk_some (s := { s with runDisabled := rd1 }) hstream
      rw [hopen]
      dsimp only
      have hready (no start : ℕ) : Ready users fname fp s { s with
          fp := some fp, runDisabled := rd2, source := src, cLine := [], lineNo := no,
          lineNoStart := start } :=
        ⟨⟨rfl, rfl, rfl, rfl, hrd2.trans hrd1⟩, rfl, rfl, rfl, rfl, streamOf_isStdin hstream,
          streamOf_device hstream, rfl, rfl, hright⟩
      by_cases hcache : s.shouldCache = true
      · rw [if_pos hcache, if_pos hcache]
        have hs2 := hready 0 0
        generalize hs2eq : ({ s with
          fp := some fp, runDisabled := rd2, source := src, cLine := [], lineNo := 0,
          lineNoStart := 0 } : FileState) = s2 at hs2
        have hcode := @cacheFile_code env false s2 fname fp hs2.opened (by rw [← hs2eq])
        cases hres : cacheFile env false fname s2 with
        | crash =>
          rw [hres] at hcode
          rw [← hcode]
          rfl
        | ret r t =>
          have hcached := cacheFile_cached hres
          rw [hres] at hcode
          rw [← hcode]
          cases r with
          | none => exact ⟨_, rfl, hs2.started_cached hcached⟩
          | some e =>
            dsimp only [Outcome.code]
            obtain ⟨hshould, hfiles⟩ := hcached.givenUp nofun
            have haround := hs2.toAround.trans hcached.around
            rw [streamOf_isSome s.stdin t.stdin]
            cases hagain : streamOf users env t.stdin .again fname with
            | none =>
              have hname : fname ≠ stdinName := by
                rintro rfl
                simp [streamOf] at hagain
              have hnot : s2.NotStdin := by
                intro q hq
                rw [hs2.opened] at hq
                cases hq
                rw [streamOf_isStdin hstream, if_neg hname]
              rw [openOnDisk_none hagain]
              refine ⟨_, _, rfl, ⟨⟨haround.iStack, haround.chains, haround.ifPointer,
                haround.baseIfPointer, haround.otherBits⟩, ?_, ?_, ?_, rfl, hshould, Or.inr ?_⟩⟩
              · exact hcached.same.1.trans hs2.fileName
              · exact (hcached.stdin_eq hnot).trans hs2.stdin
              · exact hfiles.trans hs2.cachedFiles
              · exact hcached.same.2.2.2.trans hs2.cLine
            | some fp' =>
              obtain ⟨rd3, src3, hrd3, hright3, hopen3⟩ := openOnDisk_some hagain
              rw [hopen3]
              have hstdin := hs2.stdin_dev hcached
              refine ⟨_, rfl, ⟨haround.iStack, haround.chains, haround.ifPointer,
                haround.baseIfPointer, hrd3.trans haround.otherBits⟩, rfl,
                Or.inl (hcached.same.2.2.2.trans hs2.cLine), hstdin, fun q hq => ?_, Or.inr hright3,
                fun c hc => Or.inl ?_⟩
              · cases hq
                rw [streamOf_isStdin hagain, hstdin]
              · have hc' : c ∈ t.cachedFiles := hc
                rwa [hfiles, hs2.cachedFiles] at hc'
      · rw [if_neg hcache, if_neg hcache]
        exact ⟨_, rfl, (hready s.lineNo s.lineNoStart).started_direct⟩

end OpenFile

end Remind.LineReader
