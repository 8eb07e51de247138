import Remind.FailedInclude

/-!
# FileRun — runs of the reader (files.c)

A run reads lines, includes files and commands, and does other things in between.  The invariant is
stated for any property `P` of what lines come from and of `RUN_NOTOWNER` that holds wherever a file is
opened: with a trivial `P` it gives the shape of the states that are reached.
-/

namespace Remind.LineReader

/-! ### The invariant -/

/-- What is behind the current file: standard input, the cache and the stack. -/
structure Behind (P : Source → Bool → Prop) (bits : BitVec 32) (s : FileState) : Prop where
  stdin : s.stdin.dev.isStdin = true
  cache : ∀ h ∈ s.cachedFiles, P h.source h.ownedByMe
  stack : ∀ i ∈ s.iStack, i.cLine ≠ [] → P i.source i.ownedByMe
  bits : otherBits s.runDisabled = bits

/-- What lines are read from is one thing, with a name, and `P` holds of it. -/
structure FileInv (P : Source → Bool → Prop) (bits : BitVec 32) (s : FileState) : Prop extends
    Behind P bits s where
  here : s.cLine ≠ [] ∨ s.fp ≠ none → P s.source (isOwned s.runDisabled) ∧ ∃ f, s.fileName = some f
  one : s.cLine = [] ∨ s.fp = none
  stream : ∀ q, s.fp = some q → (q.dev.isStdin = true ↔ s.fileName = some stdinName)
  nested : s.iStack = [] → s.cLine = [] ∧ s.fp = none

section Invariant

variable {P : Source → Bool → Prop} {bits : BitVec 32} {users : Users} {env : FileEnv} {s t u : FileState}
  {r : Option ErrCode} {fname : List Char}

theorem Behind.of_eq (h : Behind P bits s) (hstdin : t.stdin.dev = s.stdin.dev)
    (hcache : t.cachedFiles = s.cachedFiles) (hstack : t.iStack = s.iStack)
    (hbits : otherBits t.runDisabled = otherBits s.runDisabled) : Behind P bits t where
  stdin := hstdin ▸ h.stdin
  cache := hcache ▸ h.cache
  stack := hstack ▸ h.stack
  bits := hbits.trans h.bits

theorem Behind.setChain (h : Behind P bits s) (chain : List (List Char)) : Behind P bits (s.setChain chain) := by
  unfold FileState.setChain
  split
  next => exact h
  next i rest hs =>
    refine ⟨h.stdin, h.cache, ?_, h.bits⟩
    have hstack := h.stack
    rw [hs] at hstack
    exact List.forall_mem_cons.mpr ⟨hstack i List.mem_cons_self,
      fun j hj => hstack j (List.mem_cons_of_mem _ hj)⟩

/-- A file that has been opened is right. -/
theorem Started.inv (hP : ∀ src owned, src.Rightly users owned → P src owned)
    (h : Started users fname s t) (hb : Behind P bits s) (hstack : s.iStack ≠ []) : FileInv P bits t where
  stdin := h.stdin ▸ hb.stdin
  cache c hc := (h.cachedFiles c hc).elim (hb.cache c) (hP _ _)
  stack := h.iStack ▸ hb.stack
  bits := h.otherBits.trans hb.bits
  here _ := by
    refine ⟨?_, fname, h.fileName⟩
    rcases h.source with ⟨c, hc, hsource, howned⟩ | hright
    · rw [hsource, howned]
      exact hb.cache c hc
    · exact hP _ _ hright
  one := h.one
  stream q hq := by
    rw [h.stream q hq, h.fileName, Option.some.injEq]
    split_ifs with hname
    · exact iff_of_true hb.stdin hname
    · exact iff_of_false not_false hname
  nested hnil := absurd (h.iStack ▸ hnil) hstack

theorem NotOpened.behind {b : Bool} (h : NotOpened s b t) (hb : Behind P bits s) : Behind P bits t :=
  hb.of_eq (congrArg Stream.dev h.stdin) h.cachedFiles h.iStack h.otherBits

theorem openFile_ret (h : openFile users env fname s = .ret r t) :
    r = none ∧ Started users fname s t ∨ r ≠ none ∧ ∃ b, NotOpened s b t := by
  have hopen := openFile_opening users env fname s
  cases hres : opening users env s.cachedFiles s.stdin s.shouldCache fname with
  | opens =>
    rw [hres] at hopen
    obtain ⟨u, hu, hstarted⟩ := hopen
    rw [h] at hu
    cases hu
    exact Or.inl ⟨rfl, hstarted⟩
  | fails b =>
    rw [hres] at hopen
    obtain ⟨e, u, hu, hfail⟩ := hopen
    rw [h] at hu
    cases hu
    exact Or.inr ⟨nofun, b, hfail⟩
  | crashes =>
    rw [hres] at hopen
    rw [h] at hopen
    cases hopen

theorem setChain_length (s : FileState) (chain : List (List Char)) :
    (s.setChain chain).iStack.length = s.iStack.length := by
  unfold FileState.setChain
  split
  next => rfl
  next i rest hs => simp [hs]

theorem setChain_cLine (s : FileState) (chain : List (List Char)) :
    (s.setChain chain).cLine = s.cLine := by
  unfold FileState.setChain
  split <;> rfl

/-- No file of a chain has been opened. -/
structure NoneOpened (P : Source → Bool → Prop) (bits : BitVec 32) (s t : FileState) : Prop where
  behind : Behind P bits t
  cLine : t.cLine = s.cLine ∨ t.cLine = []
  length : t.iStack.length = s.iStack.length

theorem NoneOpened.refl (h : Behind P bits s) : NoneOpened P bits s s := ⟨h, Or.inl rfl, rfl⟩

theorem NoneOpened.trans (h1 : NoneOpened P bits s t) (h2 : NoneOpened P bits t u) : NoneOpened P bits s u where
  behind := h2.behind
  cLine := by
    rcases h2.cLine with h | h
    · rw [h]
      exact h1.cLine
    · exact Or.inr h
  length := h2.length.trans h1.length

/-- The first file of a chain. -/
theorem openChained (hP : ∀ src owned, src.Rightly users owned → P src owned) (hb : Behind P bits s)
    (hstack : s.iStack ≠ []) {chain : List (List Char)}
    (h : openFile users env fname (s.setChain chain) = .ret r t) :
    r = none ∧ FileInv P bits t ∨ r ≠ none ∧ NoneOpened P bits s t := by
  have hne : (s.setChain chain).iStack ≠ [] := by
    rw [← List.length_pos_iff, setChain_length]
    exact List.length_pos_iff.mpr hstack
  rcases openFile_ret h with ⟨hr, hstarted⟩ | ⟨hr, b, hfail⟩
  · exact Or.inl ⟨hr, hstarted.inv hP (hb.setChain chain) hne⟩
  · refine Or.inr ⟨hr, hfail.behind (hb.setChain chain), ?_, ?_⟩
    · rw [← setChain_cLine s chain]
      exact hfail.cLine
    · rw [hfail.iStack, setChain_length]

theorem nextChainedFile_ret (hP : ∀ src owned, src.Rightly users owned → P src owned)
    {chain : List (List Char)} (hb : Behind P bits s) (hstack : s.iStack ≠ [])
    (h : nextChainedFile users env chain s = .ret r t) :
    r = none ∧ FileInv P bits t ∨ r ≠ none ∧ NoneOpened P bits s t := by
  induction chain generalizing s with
  | nil =>
    cases h
    exact Or.inr ⟨fun hr => (by cases hr), .refl hb⟩
  | cons f chain ih =>
    unfold nextChainedFile at h
    cases hres : openFile users env f (s.setChain chain) with
    | crash => rw [hres] at h; cases h
    | ret r' u =>
      have hopen := openChained hP hb hstack hres
      rw [hres] at h
      cases r' with
      | none =>
        cases h
        exact Or.inl ⟨rfl, (hopen.resolve_right fun hn => hn.1 rfl).2⟩
      | some e =>
        have hnone := (hopen.resolve_left fun hr => by cases hr.1).2
        have hne : u.iStack ≠ [] := by
          rw [← List.length_pos_iff, hnone.length]
          exact List.length_pos_iff.mpr hstack
        rcases ih hnone.behind hne h with hinv | ⟨hr, hnone'⟩
        · exact Or.inl hinv
        · exact Or.inr ⟨hr, hnone.trans hnone'⟩

theorem openFirst_ret (hP : ∀ src owned, src.Rightly users owned → P src owned)
    {chain : List (List Char)} (hb : Behind P bits s) (hstack : s.iStack ≠ [])
    (h : openFirst users env chain s = .ret r t) :
    r = none ∧ FileInv P bits t ∨ r ≠ none ∧ NoneOpened P bits s t := by
  induction chain generalizing s with
  | nil =>
    cases h
    exact Or.inr ⟨fun hr => (by cases hr), .refl hb⟩
  | cons f chain ih =>
    unfold openFirst at h
    cases hres : openFile users env f (s.setChain chain) with
    | crash => rw [hres] at h; cases h
    | ret r' u =>
      have hopen := openChained hP hb hstack hres
      rw [hres] at h
      cases r' with
      | none =>
        cases h
        exact Or.inl ⟨rfl, (hopen.resolve_right fun hn => hn.1 rfl).2⟩
      | some e =>
        have hnone := (hopen.resolve_left fun hr => by cases hr.1).2
        have hne : u.iStack ≠ [] := by
          rw [← List.length_pos_iff, hnone.length]
          exact List.length_pos_iff.mpr hstack
        have hnone' : NoneOpened P bits s { u with runDisabled := s.runDisabled } :=
          ⟨⟨hnone.behind.stdin, hnone.behind.cache, hnone.behind.stack, hb.bits⟩, hnone.cLine,
            hnone.length⟩
        rcases ih hnone'.behind hne h with hinv | ⟨hr, hrest⟩
        · exact Or.inl hinv
        · exact Or.inr ⟨hr, hnone'.trans hrest⟩

/-! ### PopFile -/

/-- Nothing is read from, and there is a file below. -/
theorem fileInv_closed (hb : Behind P bits s) (hline : s.cLine = []) (hfp : s.fp = none) : FileInv P bits s where
  toBehind := hb
  here h := h.elim (absurd hline) (absurd hfp)
  one := Or.inl hline
  stream q hq := by
    rw [hfp] at hq
    cases hq
  nested _ := ⟨hline, hfp⟩

theorem openOnDisk_inv (hP : ∀ src owned, src.Rightly users owned → P src owned) (hb : Behind P bits s)
    (hname : s.fileName = some fname) (hline : s.cLine = []) (hstack : s.iStack ≠ []) {b : Bool}
    {attempt : Attempt} {offset : ℕ} (h : openOnDisk users env attempt fname offset s = (b, t)) :
    FileInv P bits t := by
  by_cases hstdin : fname = stdinName
  · subst hstdin
    rw [openOnDisk_stdin] at h
    cases h
    refine ⟨hb.of_eq rfl rfl rfl rfl, fun _ => ⟨hP .stdin _ trivial, _, hname⟩, Or.inl hline,
      fun q hq => ?_, fun hnil => absurd hnil hstack⟩
    cases hq
    exact iff_of_true hb.stdin hname
  · rw [openOnDisk_eq hstdin] at h
    cases hread : readable users env attempt fname with
    | none =>
      rw [hread] at h
      cases h
      exact fileInv_closed (hb.of_eq rfl rfl rfl rfl) hline rfl
    | some found =>
      obtain ⟨o, st⟩ := found
      rw [hread] at h
      cases h
      refine ⟨hb.of_eq rfl rfl rfl (checkSafetyAux_otherBits users st _),
        fun _ => ⟨hP _ _ (accepted_rightly (readable_accepts hread) _), _, hname⟩, Or.inl hline,
        fun q hq => ?_, fun hnil => absurd hnil hstack⟩
      cases hq
      refine iff_of_false Bool.false_ne_true fun hf => hstdin ?_
      have hf' : s.fileName = some stdinName := hf
      rw [hname] at hf'
      exact Option.some.inj hf'

/-- A file below is gone on with. -/
theorem resumeFile_inv (hP : ∀ src owned, src.Rightly users owned → P src owned)
    {i : IncludeStruct} {rest : List IncludeStruct} (hb : Behind P bits s) (hfp : s.fp = none)
    (hi : i.cLine ≠ [] → P i.source i.ownedByMe) (hrest : rest ≠ [])
    (hstack : ∀ j ∈ rest, j.cLine ≠ [] → P j.source j.ownedByMe)
    (h : resumeFile users env i rest s = .ret r t) : FileInv P bits t := by
  unfold resumeFile at h
  cases hname : i.filename with
  | none => rw [hname] at h; cases h
  | some f =>
    rw [hname] at h
    dsimp only at h
    have hbelow : Behind P bits { s with
        iStack := rest, lineNo := i.lineNo, lineNoStart := i.lineNoStart,
        baseIfPointer := i.baseIfPointer, cLine := i.cLine, fileName := some f,
        runDisabled := setOwned i.ownedByMe s.runDisabled, source := i.source } :=
      ⟨hb.stdin, hb.cache, hstack, (otherBits_setOwned _ _).trans hb.bits⟩
    split_ifs at h with hopen
    · split at h
      next u hu =>
        cases h
        exact openOnDisk_inv hP hbelow rfl hopen.1 hrest hu
      next u hu =>
        cases h
        exact openOnDisk_inv hP hbelow rfl hopen.1 hrest hu
    · cases h
      exact ⟨hbelow, fun hor => ⟨by
        rw [isOwned_setOwned]
        exact hi (hor.resolve_right fun hne => hne hfp), f, rfl⟩, Or.inr hfp,
        fun q hq => absurd (hq.symm.trans hfp) nofun, fun hnil => absurd hnil hrest⟩

/-- **PopFile** keeps the invariant, also where the file on top of the stack is not one that is read
from. -/
theorem popFile_inv (hP : ∀ src owned, src.Rightly users owned → P src owned) (hb : Behind P bits s)
    (htop : s.iStack.length ≤ 1 → s.cLine = []) (h : popFile users env s = .ret r t) :
    FileInv P bits t := by
  unfold popFile FileState.popExcessIfs at h
  dsimp only at h
  split at h
  next hnil =>
    cases h
    exact fileInv_closed (hb.of_eq rfl rfl rfl rfl) (htop (by simp [hnil])) rfl
  next i rest hcons =>
    have hclosed : Behind P bits { s with ifPointer := min s.ifPointer s.baseIfPointer, fp := none } :=
      hb.of_eq rfl rfl rfl rfl
    have hne : s.iStack ≠ [] := by simp [hcons]
    have hstack := hb.stack
    rw [hcons, List.forall_mem_cons] at hstack
    split at h
    next => cases h
    next u hu =>
      cases h
      exact ((nextChainedFile_ret hP hclosed hne hu).resolve_right fun hn => hn.1 rfl).2
    next e u hu =>
      have hret := nextChainedFile_ret hP hclosed hne hu
      have hnone := (hret.resolve_left fun hn => by cases hn.1).2
      have hbu := hnone.behind
      split_ifs at h with hrest
      · cases h
        refine fileInv_closed ⟨hbu.stdin, hbu.cache, by simp, hb.bits⟩ ?_ rfl
        refine hnone.cLine.elim (fun hline => hline.trans (htop ?_)) id
        simp [hcons, hrest]
      · have hbu' : Behind P bits { u with runDisabled := s.runDisabled, fp := none } :=
          ⟨hbu.stdin, hbu.cache, hbu.stack, hb.bits⟩
        exact resumeFile_inv hP hbu' rfl hstack.1 hrest hstack.2 h

theorem popAndFail_inv (hP : ∀ src owned, src.Rightly users owned → P src owned) (hb : Behind P bits s)
    (htop : s.iStack.length ≤ 1 → s.cLine = []) {e : ErrCode}
    (h : popAndFail users env e s = .ret r t) : FileInv P bits t := by
  unfold popAndFail at h
  split at h
  next => cases h
  next r' u hu =>
    cases h
    exact popFile_inv hP hb htop hu

/-! ### ReadLine -/

theorem popLoop_inv (hP : ∀ src owned, src.Rightly users owned → P src owned) {envs : ℕ → FileEnv}
    {n : ℕ} (hs : FileInv P bits s) (h : popLoop users envs n s = .ret r t) :
    FileInv P bits t ∧ (r = none → t.cLine ≠ [] ∨ t.fp ≠ none) := by
  induction n generalizing s with
  | zero =>
    cases h
    exact ⟨hs, fun hr => by cases hr⟩
  | succ n ih =>
    unfold popLoop at h
    split_ifs at h with hend
    · cases hpop : popFile users (envs n) s with
      | crash => rw [hpop] at h; cases h
      | ret r' u =>
        have hu := popFile_inv hP hs.toBehind (fun _ => hend.1) hpop
        rw [hpop] at h
        cases r' with
        | none => exact ih hu h
        | some e =>
          cases h
          exact ⟨hu, fun hr => by cases hr⟩
    · cases h
      exact ⟨hs, fun _ => not_and_or.mp hend⟩

/-- The line that has been read is one of a source of which `P` holds. -/
structure LineInv (P : Source → Bool → Prop) (bits : BitVec 32) (t : FileState) : Prop where
  inv : FileInv P bits t
  source : P t.source (isOwned t.runDisabled)
  reading : Reading t

/-- **ReadLine** keeps the invariant. -/
theorem readLine_inv (hP : ∀ src owned, src.Rightly users owned → P src owned) {envs : ℕ → FileEnv}
    (hs : FileInv P bits s) (h : readLine users env envs s = .ret r t) :
    FileInv P bits t ∧ (r = none → LineInv P bits t) := by
  unfold readLine at h
  cases hpop : popLoop users envs (s.pending + 1) s with
  | crash => rw [hpop] at h; cases h
  | ret r' u =>
    obtain ⟨hu, hmore⟩ := popLoop_inv hP hs hpop
    rw [hpop] at h
    cases r' with
    | some e =>
      cases h
      exact ⟨hu, nofun⟩
    | none =>
      have hmore := hmore rfl
      obtain ⟨hright, f, hf⟩ := hu.here hmore
      have hnested : u.iStack ≠ [] := by
        intro hnil
        obtain ⟨hline, hfp⟩ := hu.nested hnil
        exact hmore.elim (absurd hline) (absurd hfp)
      dsimp only at h
      split at h
      next l cLine hcons =>
        cases h
        have hfp : u.fp = none := hu.one.resolve_left (by simp [hcons])
        have hinv : FileInv P bits (u.readCached l cLine) :=
          ⟨hu.toBehind.of_eq rfl rfl rfl rfl, fun _ => ⟨hright, f, hf⟩, Or.inr hfp, hu.stream,
            fun hnil => absurd hnil hnested⟩
        exact ⟨hinv, fun _ => ⟨hinv, hright, ⟨f, hf⟩, hinv.one, hinv.stream, hnested⟩⟩
      next hnil =>
        have hread := readLineFromFile_read h
        have ht := hread.eq
        have hstream : ∀ q, t.fp = some q → (q.dev.isStdin = true ↔ t.fileName = some stdinName) := by
          intro q hq
          obtain ⟨fp, hfp, hdev⟩ := hread.dev q hq
          rw [hdev, hu.stream fp hfp, ht]
          rfl
        have hstdin : t.stdin.dev.isStdin = true := by
          rcases hread.stdin with heq | ⟨fp, -, hin, hdev⟩
          · rw [heq]
            exact hu.stdin
          · rw [hdev]
            exact hin
        have hline : t.cLine = [] := by
          rw [ht]
          exact hnil
        have hstack : t.iStack = u.iStack := by
          rw [ht]
          rfl
        have hsource : P t.source (isOwned t.runDisabled) := by
          rw [ht]
          exact hright
        have hname : t.fileName = some f := by
          rw [ht]
          exact hf
        have hinv : FileInv P bits t := by
          refine ⟨⟨hstdin, ?_, ?_, ?_⟩, fun _ => ⟨hsource, f, hname⟩, Or.inl hline, hstream, ?_⟩
          · rw [ht]
            exact hu.cache
          · rw [hstack]
            exact hu.stack
          · rw [ht]
            exact hu.bits
          · rw [hstack]
            exact fun hnil => absurd hnil hnested
        refine ⟨hinv, fun _ => ⟨hinv, hsource, ⟨f, hname⟩, hinv.one, hinv.stream, ?_⟩⟩
        rw [hstack]
        exact hnested

/-! ### IncludeFile and IncludeCmd -/

theorem leave_stdin (hs : FileInv P bits s) : s.leave.stdin.dev.isStdin = true := by
  unfold FileState.leave
  split
  next fp hfp =>
    unfold FileState.closed
    dsimp only
    split_ifs with hin
    · exact hin
    · exact hs.stdin
  next => exact hs.stdin

theorem push_behind (hs : FileInv P bits s) {no : ℕ} {owned : Bool} (howned : owned = isOwned s.runDisabled) :
    Behind P bits (s.push no owned) := by
  rw [push_eq]
  refine ⟨leave_stdin hs, hs.cache, List.forall_mem_cons.mpr ⟨fun hline => ?_, hs.stack⟩, hs.bits⟩
  show P s.source owned
  rw [howned]
  exact (hs.here (Or.inl hline)).1

/-- Where the current file is the only one on the stack, there was none before. -/
theorem push_top (hs : FileInv P bits s) (hlen : t.iStack.length = s.iStack.length + 1)
    (hline : t.cLine = s.cLine ∨ t.cLine = []) (h : t.iStack.length ≤ 1) : t.cLine = [] := by
  refine hline.elim (fun heq => heq.trans (hs.nested ?_).1) id
  rw [← List.length_eq_zero_iff]
  omega

/-- **IncludeFile** keeps the invariant, if `P` survives a failure of `glob` in the lines of the
including file that are in the cache. -/
theorem includeFile_inv (hP : ∀ src owned, src.Rightly users owned → P src owned)
    (hs : FileInv P bits s)
    (hglob : ∀ st, (env.stat fname).filter (·.isDir) = some st →
      (checkSafetyAux users st s.runDisabled).1 = true → listing env s fname = none →
      s.cLine ≠ [] → P s.source (isOwned (checkSafetyAux users st s.runDisabled).2))
    (h : includeFile users env fname s = .ret r t) : FileInv P bits t := by
  unfold includeFile at h
  split_ifs at h with hdepth
  · cases h
    exact hs
  have hb := @push_behind P bits s hs s.lineNoStart _ rfl
  dsimp only at h
  rw [push_eq] at h hb
  split at h
  next st hst =>
    have hglob := hglob st hst
    unfold includeDirectory at h
    dsimp only at h
    have hother := checkSafetyAux_otherBits users st s.runDisabled
    rcases hsafe : checkSafetyAux users st s.runDisabled with ⟨safe, rd⟩
    rw [hsafe] at h hglob hother
    cases safe with
    | false =>
      dsimp only at h
      have hbv : Behind P bits { s with
          fp := none, stdin := s.leave.stdin,
          iStack := s.entry s.lineNoStart (isOwned s.runDisabled) :: s.iStack,
          baseIfPointer := s.ifPointer, runDisabled := rd } := hb.of_eq rfl rfl rfl hother
      exact popAndFail_inv hP hbv (push_top hs rfl (Or.inl rfl)) h
    | true =>
      dsimp only at h hglob
      generalize hv : ({ s with
        fp := none, stdin := s.leave.stdin,
        iStack := s.entry s.lineNoStart (isOwned s.runDisabled) :: s.iStack,
        baseIfPointer := s.ifPointer, runDisabled := rd } : FileState) = v at h
      have hbv : Behind P bits v := by
        rw [← hv]
        exact hb.of_eq rfl rfl rfl hother
      have hlenv : v.iStack.length = s.iStack.length + 1 := by
        rw [← hv]
        rfl
      have hlinev : v.cLine = s.cLine := by rw [← hv]
      have hlist : listing env v fname = listing env s fname := by
        rw [← hv]
        rfl
      obtain ⟨chains, hchain⟩ := setupGlobChain_eq env fname v
      rw [hchain, hlist] at h
      have hbw : Behind P bits { v with cachedDirectoryChains := chains } := hbv.of_eq rfl rfl rfl rfl
      rcases hl : listing env s fname with - | (- | ⟨f, chain⟩)
      · -- the including file stays on the stack
        rw [hl] at h
        cases h
        refine ⟨hbw, fun hor => ?_, Or.inr ?_, fun q hq => ?_, fun hnil => ?_⟩
        · have hline : s.cLine ≠ [] := by
            rw [← hlinev]
            exact hor.resolve_right (by rw [← hv]; simp)
          have hright := hglob rfl hl hline
          obtain ⟨f, hf⟩ := (hs.here (Or.inl hline)).2
          rw [← hv]
          exact ⟨hright, f, hf⟩
        · rw [← hv]
        · rw [← hv] at hq
          cases hq
        · rw [← hv] at hnil
          cases hnil
      · rw [hl] at h
        exact popAndFail_inv hP hbw (push_top hs hlenv (Or.inl hlinev)) h
      · rw [hl] at h
        dsimp only at h
        have hne : ({ v with cachedDirectoryChains := chains } : FileState).iStack ≠ [] := by
          rw [← hv]
          exact List.cons_ne_nil _ _
        split at h
        next => cases h
        next u hu =>
          cases h
          exact ((openFirst_ret hP hbw hne hu).resolve_right fun hn => hn.1 rfl).2
        next e u hu =>
          have hnone := ((openFirst_ret hP hbw hne hu).resolve_left fun hn => by cases hn.1).2
          refine popFile_inv hP hnone.behind (push_top hs (hnone.length.trans hlenv) ?_) h
          rw [← hlinev]
          exact hnone.cLine
  next =>
    split at h
    next => cases h
    next u hu =>
      cases h
      obtain ⟨-, hstarted⟩ := (openFile_ret hu).resolve_right fun hn => hn.1 rfl
      exact hstarted.inv hP hb (List.cons_ne_nil _ _)
    next e u hu =>
      obtain ⟨-, b, hfail⟩ := (openFile_ret hu).resolve_left fun hn => by cases hn.1
      have hbu := hfail.behind hb
      have hlen : u.iStack.length = s.iStack.length + 1 := by
        rw [hfail.iStack]
        rfl
      refine popAndFail_inv (s := { u with runDisabled := s.runDisabled }) hP
        ⟨hbu.stdin, hbu.cache, hbu.stack, hs.bits⟩ (push_top hs hlen hfail.cLine) h

/-- The output of a command, about to be cached in the state `u`. -/
theorem output_inv (hP : ∀ src owned, src.Rightly users owned → P src owned) (hs : FileInv P bits s)
    (hb : Behind P bits u) (hnot : u.NotStdin) (hlen : u.iStack.length = s.iStack.length + 1)
    (hline : u.cLine = s.cLine) (hright : P u.source (isOwned u.runDisabled))
    (h : (match cacheFile env true fname u with
      | .crash => .crash
      | .ret none s => .ret none (s.justCached.opened fname)
      | .ret (some e) s => popAndFail users env e s) = Outcome.ret r t) : FileInv P bits t := by
  split at h
  next => cases h
  next v hv =>
    cases h
    have hcached := cacheFile_cached hv
    obtain ⟨-, hsource, hrd, -⟩ := hcached.same
    obtain ⟨-, cache, hfiles⟩ := hcached.done rfl
    refine ⟨⟨?_, ?_, ?_, hcached.around.otherBits.trans hb.bits⟩, fun _ => ⟨?_, _, rfl⟩, Or.inr rfl,
      nofun, fun hnil => ?_⟩
    · show v.stdin.dev.isStdin = true
      rw [hcached.stdin_eq hnot]
      exact hb.stdin
    · show ∀ c ∈ v.cachedFiles, P c.source c.ownedByMe
      rw [hfiles, List.forall_mem_cons]
      exact ⟨hright, hb.cache⟩
    · show ∀ i ∈ v.iStack, i.cLine ≠ [] → P i.source i.ownedByMe
      rw [hcached.around.iStack]
      exact hb.stack
    · show P v.source (isOwned v.runDisabled)
      rw [hsource, hrd]
      exact hright
    · have hnil' : v.iStack = [] := hnil
      rw [hcached.around.iStack, ← List.length_eq_zero_iff, hlen] at hnil'
      cases hnil'
  next e v hv =>
    have hcached := cacheFile_cached hv
    have hbv : Behind P bits v := hb.of_eq (congrArg Stream.dev (hcached.stdin_eq hnot))
      (hcached.givenUp nofun).2 hcached.around.iStack hcached.around.otherBits
    refine popAndFail_inv hP hbv (push_top hs ?_ (Or.inl (hcached.same.2.2.2.trans hline))) h
    rw [hcached.around.iStack]
    exact hlen

/-- **DoIncludeCmd** keeps the invariant. -/
theorem doIncludeCmd_inv (hP : ∀ src owned, src.Rightly users owned → P src owned)
    (hs : FileInv P bits s) {cmd : List Char} (h : doIncludeCmd users env cmd s = .ret r t) :
    FileInv P bits t := by
  unfold doIncludeCmd at h
  split_ifs at h with hrun
  · cases h
    exact hs
  rw [not_not] at hrun
  unfold includeCmd at h
  by_cases hdepth : includeNest ≤ s.iStack.length
  · rw [if_pos hdepth] at h
    cases h
    exact hs
  rw [if_neg hdepth] at h
  have hb := @push_behind P bits s hs s.lineNo true (by rw [hrun]; decide)
  dsimp only at h
  rw [push_eq] at h hb
  split at h
  next c hfind =>
    cases h
    have hc := hb.cache c (List.mem_of_find?_eq_some hfind)
    refine ⟨hb.of_eq rfl rfl rfl (otherBits_setOwned _ _), fun _ => ⟨?_, _, rfl⟩, Or.inr rfl, nofun,
      fun hnil => absurd hnil (List.cons_ne_nil _ _)⟩
    show P c.source (isOwned (setOwned c.ownedByMe s.runDisabled))
    rw [isOwned_setOwned]
    exact hc
  next =>
    split at h
    next => exact popAndFail_inv hP hb (push_top hs rfl (Or.inl rfl)) h
    next output broken hpopen =>
      dsimp only at h
      refine output_inv hP hs ?_ ?_ ?_ ?_ ?_ h
      · refine hb.of_eq rfl rfl rfl ?_
        dsimp only
        split_ifs
        · exact otherBits_setOwned _ _
        · rfl
      · rintro q ⟨⟩
        rfl
      · rfl
      · rfl
      · refine hP _ _ ?_
        show isOwned (if hasBang cmd then setOwned false s.runDisabled else s.runDisabled) =
          !hasBang cmd
        cases hasBang cmd
        · rw [if_neg Bool.false_ne_true, hrun]
          decide
        · rw [if_pos rfl, isOwned_setOwned]
          rfl

end Invariant

/-! ### Runs -/

/-- What the program does with the reader; the system calls of each step have their own outcomes. -/
inductive FileOp where
  | readLine (env : FileEnv) (envs : ℕ → FileEnv)
  | includeFile (env : FileEnv) (fname : List Char)
  | includeCmd (env : FileEnv) (cmd : List Char)

def FileOp.run (users : Users) : FileOp → FileState → Outcome
  | .readLine env envs, s => LineReader.readLine users env envs s
  | .includeFile env fname, s => LineReader.includeFile users env fname s
  | .includeCmd env cmd, s => doIncludeCmd users env cmd s

/-- Other commands change the stack of IFs and the other bits of `RunDisabled`. -/
def FileState.others (s : FileState) (runDisabled : BitVec 32) (ifPointer : ℕ) : FileState :=
  { s with runDisabled, ifPointer }

/-- The states that a run reaches all steps of which are `ok`. -/
inductive Reached (users : Users) (ok : FileOp → FileState → Prop) : FileState → Prop
  | start (shouldCache : Bool) (runDisabled : BitVec 32) (input : List Char) :
      Reached users ok (.init shouldCache runDisabled input)
  | step {s t : FileState} {op : FileOp} {r : Option ErrCode} :
      Reached users ok s → ok op s → op.run users s = .ret r t → Reached users ok t
  | others {s : FileState} {runDisabled : BitVec 32} (ifPointer : ℕ) :
      Reached users ok s → isOwned runDisabled = isOwned s.runDisabled →
      Reached users ok (s.others runDisabled ifPointer)

/-- A line has been read in a run, and is being interpreted. -/
inductive Interpreting (users : Users) (ok : FileOp → FileState → Prop) : FileState → Prop
  | read {s t : FileState} {env : FileEnv} {envs : ℕ → FileEnv} :
      Reached users ok s → readLine users env envs s = .ret none t → Interpreting users ok t
  | others {s : FileState} {runDisabled : BitVec 32} (ifPointer : ℕ) :
      Interpreting users ok s → isOwned runDisabled = isOwned s.runDisabled →
      Interpreting users ok (s.others runDisabled ifPointer)

section Runs

variable {P : Source → Bool → Prop} {users : Users} {ok : FileOp → FileState → Prop} {op : FileOp}
  {s t : FileState} {r : Option ErrCode} {bits : BitVec 32}

/-- `P` survives a failure of `glob`. -/
def FileOp.Keeps (P : Source → Bool → Prop) (users : Users) : FileOp → FileState → Prop
  | .includeFile env fname, s => ∀ st, (env.stat fname).filter (·.isDir) = some st →
      (checkSafetyAux users st s.runDisabled).1 = true → listing env s fname = none →
      s.cLine ≠ [] → P s.source (isOwned (checkSafetyAux users st s.runDisabled).2)
  | _, _ => True

theorem FileOp.run_inv (hP : ∀ src owned, src.Rightly users owned → P src owned)
    (hs : FileInv P bits s) (hop : op.Keeps P users s) (h : op.run users s = .ret r t) :
    FileInv P bits t := by
  cases op with
  | readLine env envs => exact (readLine_inv hP hs h).1
  | includeFile env fname => exact includeFile_inv hP hs hop h
  | includeCmd env cmd => exact doIncludeCmd_inv hP hs h

theorem FileInv.others (hs : FileInv P bits s) {runDisabled : BitVec 32}
    (h : isOwned runDisabled = isOwned s.runDisabled) (n : ℕ) :
    FileInv P (otherBits runDisabled) (s.others runDisabled n) where
  stdin := hs.stdin
  cache := hs.cache
  stack := hs.stack
  bits := rfl
  here hmore := by
    obtain ⟨hright, hname⟩ := hs.here hmore
    refine ⟨?_, hname⟩
    show P s.source (isOwned runDisabled)
    rw [h]
    exact hright
  one := hs.one
  stream := hs.stream
  nested := hs.nested

/-- **Every state that is reached** satisfies the invariant. -/
theorem Reached.inv (hP : ∀ src owned, src.Rightly users owned → P src owned)
    (hok : ∀ op s, FileInv P (otherBits s.runDisabled) s → ok op s → op.Keeps P users s)
    (h : Reached users ok s) : FileInv P (otherBits s.runDisabled) s := by
  induction h with
  | start => exact fileInv_closed ⟨rfl, nofun, nofun, rfl⟩ rfl rfl
  | step _ hop hrun ih =>
    have ht := FileOp.run_inv hP ih (hok _ _ ih hop) hrun
    have hbits := ht.bits
    rw [← hbits] at ht
    exact ht
  | others n _ hrd ih => exact ih.others hrd n

/-- In every line that is interpreted, a file is being read. -/
theorem Interpreting.reading (h : Interpreting users ok s) : Reading s := by
  induction h with
  | read hs hread =>
    have hinv := hs.inv (P := fun _ _ => True) (fun _ _ _ => trivial) fun op s _ _ => by
      cases op <;> simp [FileOp.Keeps]
    exact ((readLine_inv (fun _ _ _ => trivial) hinv hread).2 rfl).reading
  | others n _ _ ih => exact ⟨ih.named, ih.one, ih.stdin, ih.nested⟩

/-- No step changes another bit of `RunDisabled` than `RUN_NOTOWNER`. -/
theorem Reached.otherBits_eq (hs : Reached users ok s) (h : op.run users s = .ret r t) :
    otherBits t.runDisabled = otherBits s.runDisabled := by
  have hkeeps (op : FileOp) (s : FileState) : op.Keeps (fun _ _ => True) users s := by
    cases op <;> simp [FileOp.Keeps]
  have hinv := hs.inv (P := fun _ _ => True) (fun _ _ _ => trivial) fun op s _ _ => hkeeps op s
  exact (FileOp.run_inv (fun _ _ _ => trivial) hinv (hkeeps op s) h).bits

end Runs

end Remind.LineReader
