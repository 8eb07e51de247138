import Remind.Files

/-!
# FileFrame — what the reading and the opening of files leave alone

Reading changes the stream, the current line and its number only.  Whether a file can be cached
depends on what is read from it, not on the rest of the state.
-/

namespace Remind.LineReader

/-- The return code, `none` for a crash. -/
def Outcome.code : Outcome → Option (Option ErrCode)
  | .ret r _ => some r
  | .crash => none

/-! ### The stream -/

/-- Reading has gone on in the stream from `fp` to `q`. -/
structure Stream.Onward (fp q : Stream) : Prop where
  dev : q.dev = fp.dev
  rest : q.rest.length ≤ fp.rest.length
  ended : fp.ended = true → q.ended = true

/-- A read has taken something, or met the end. -/
def Stream.Advanced (fp q : Stream) : Prop := q.rest.length < fp.rest.length ∨ q.ended = true

section Streams

variable {fp q q' : Stream} {m n : ℕ} {dbuf : List Char}

theorem Stream.Onward.refl (fp : Stream) : fp.Onward fp := ⟨rfl, le_rfl, id⟩

theorem Stream.Onward.trans (h1 : fp.Onward q) (h2 : q.Onward q') : fp.Onward q' :=
  ⟨h2.dev.trans h1.dev, h2.rest.trans h1.rest, fun h => h2.ended (h1.ended h)⟩

theorem Stream.Advanced.onward (h : fp.Advanced q) (h2 : q.Onward q') : fp.Advanced q' := by
  rcases h with h | h
  · exact Or.inl (lt_of_le_of_lt h2.rest h)
  · exact Or.inr (h2.ended h)

theorem Stream.at_end (h : fp.ended = true) : fp.ferror = true ∨ fp.feof = true := by
  unfold Stream.ferror Stream.feof
  rw [h, Bool.true_and, Bool.true_and]
  cases fp.dev.broken
  · exact Or.inr rfl
  · exact Or.inl rfl

theorem takeLine_onward (n : ℕ) (fp : Stream) : fp.Onward (takeLine n fp).2 := by
  induction n generalizing fp with
  | zero => exact .refl fp
  | succ n ih =>
    unfold takeLine
    cases hrest : fp.rest with
    | nil => exact ⟨rfl, by simp [hrest], fun _ => rfl⟩
    | cons c rest =>
      have hc : fp.Onward { fp with rest, offset := fp.offset + 1 } := ⟨rfl, by simp [hrest], id⟩
      dsimp only
      split_ifs
      · exact hc
      · exact hc.trans (ih _)

theorem takeLine_advanced (n : ℕ) (fp : Stream) : fp.Advanced (takeLine (n + 1) fp).2 := by
  unfold takeLine
  cases hrest : fp.rest with
  | nil => exact Or.inr rfl
  | cons c rest =>
    have hc : fp.Advanced { fp with rest, offset := fp.offset + 1 } := Or.inl (by simp [hrest])
    dsimp only
    split_ifs
    · exact hc
    · exact hc.onward (takeLine_onward _ _)

/-- What is taken is gone from the stream. -/
theorem takeLine_taken (h : (takeLine (n + 1) fp).1 ≠ []) :
    (takeLine (n + 1) fp).2.rest.length < fp.rest.length := by
  unfold takeLine at h ⊢
  cases hrest : fp.rest with
  | nil => exact absurd (by simp [hrest]) h
  | cons c rest =>
    dsimp only
    split_ifs
    · simp
    · have hle := (takeLine_onward n { fp with rest, offset := fp.offset + 1 }).rest
      exact Nat.lt_succ_of_le hle

theorem fgets_onward (n : ℕ) (fp : Stream) : fp.Onward (fgets n fp).2 := by
  unfold fgets
  dsimp only
  split_ifs <;> exact takeLine_onward n fp

theorem fgets_advanced (n : ℕ) (fp : Stream) : fp.Advanced (fgets (n + 1) fp).2 := by
  unfold fgets
  dsimp only
  split_ifs <;> exact takeLine_advanced n fp

theorem fgets_taken (h : (fgets (n + 1) fp).1 ≠ []) :
    (fgets (n + 1) fp).2.rest.length < fp.rest.length := by
  unfold fgets at h ⊢
  dsimp only at h ⊢
  split_ifs at h ⊢
  · exact absurd rfl h
  · exact takeLine_taken h

theorem dBufGetsLoop_onward (m n : ℕ) (dbuf : List Char) (fp : Stream) :
    fp.Onward (dBufGetsLoop m n dbuf fp).2 := by
  induction n generalizing dbuf fp with
  | zero => exact .refl fp
  | succ n ih =>
    have hget := fgets_onward 255 fp
    unfold dBufGetsLoop
    dsimp only
    split_ifs
    all_goals first | exact hget | exact hget.trans (ih _ _)

theorem dBufGetsLoop_ends (hn : fp.rest.length < n) :
    (dBufGetsLoop m n dbuf fp).1 ≠ .error .diverges := by
  induction n generalizing dbuf fp with
  | zero => omega
  | succ n ih =>
    unfold dBufGetsLoop
    dsimp only
    split_ifs with htmp
    · simp
    · simp
    · refine ih ?_
      have htaken : (fgets 255 fp).2.rest.length < fp.rest.length :=
        fgets_taken (n := 254) fun h => htmp (by rw [h]; rfl)
      omega
    all_goals simp

theorem dBufGets_onward (m : ℕ) (fp : Stream) : fp.Onward (dBufGets m fp).2 := by
  have hget := fgets_onward 31 fp
  unfold dBufGets
  dsimp only
  split_ifs
  all_goals first | exact hget | exact hget.trans (dBufGetsLoop_onward _ _ _ _)

theorem dBufGets_advanced (m : ℕ) (fp : Stream) : fp.Advanced (dBufGets m fp).2 := by
  have hget := fgets_advanced 30 fp
  unfold dBufGets
  dsimp only
  split_ifs
  all_goals first | exact hget | exact hget.onward (dBufGetsLoop_onward _ _ _ _)

theorem dBufGets_ends (m : ℕ) (fp : Stream) : (dBufGets m fp).1 ≠ .error .diverges := by
  unfold dBufGets
  dsimp only
  split_ifs
  all_goals first | exact dBufGetsLoop_ends (Nat.lt_succ_self _) | simp

end Streams

/-! ### Reading a line -/

/-- The state with the stream and the current line of `t`. -/
def FileState.reading (s t : FileState) : FileState :=
  { s with
    fp := t.fp, stdin := t.stdin, curLine := t.curLine, lineNo := t.lineNo,
    lineNoStart := t.lineNoStart }

/-- The standard input is not what is being read. -/
def FileState.NotStdin (s : FileState) : Prop := ∀ q, s.fp = some q → q.dev.isStdin = false

section Reading

variable {env : FileEnv} {p : Bool} {n : ℕ} {buf : List Char} {r : Option ErrCode} {s t u : FileState}

/-- Reading has left the rest of the state as it was, and `stdin` unless it is what is read. -/
structure Read (s t : FileState) : Prop where
  eq : t = s.reading t
  dev : ∀ q, t.fp = some q → ∃ fp, s.fp = some fp ∧ q.dev = fp.dev
  stdin : t.stdin = s.stdin ∨
    ∃ fp, s.fp = some fp ∧ fp.dev.isStdin = true ∧ t.stdin.dev = fp.dev

theorem Read.refl (s : FileState) : Read s s := ⟨rfl, fun q hq => ⟨q, hq, rfl⟩, Or.inl rfl⟩

theorem Read.trans (h1 : Read s t) (h2 : Read t u) : Read s u where
  eq := by rw [h2.eq, h1.eq]; rfl
  dev q hq := by
    obtain ⟨q', hq', hdev'⟩ := h2.dev q hq
    obtain ⟨fp, hfp, hdev⟩ := h1.dev q' hq'
    exact ⟨fp, hfp, hdev'.trans hdev⟩
  stdin := by
    rcases h2.stdin with h | ⟨q, hq, hin, hdev⟩
    · rw [h]
      exact h1.stdin
    · obtain ⟨fp, hfp, hdev'⟩ := h1.dev q hq
      exact Or.inr ⟨fp, hfp, hdev' ▸ hin, hdev.trans hdev'⟩

theorem Read.stdin_eq (h : Read s t) (hs : s.NotStdin) : t.stdin = s.stdin := by
  refine h.stdin.resolve_right ?_
  rintro ⟨fp, hfp, hin, -⟩
  rw [hs fp hfp] at hin
  cases hin

/-- A line has been read from the stream. -/
theorem read_line {fp q : Stream} (hfp : s.fp = some fp) (hdev : q.dev = fp.dev) (no : ℕ) :
    Read s { s with fp := some q, lineNo := no } where
  eq := rfl
  dev _ hq := by
    cases hq
    exact ⟨fp, hfp, hdev⟩
  stdin := Or.inl rfl

theorem read_closed {fp : Stream} (hfp : s.fp = some fp) : Read s (s.closed fp) where
  eq := rfl
  dev _ hq := by cases hq
  stdin := by
    unfold FileState.closed
    cases hin : fp.dev.isStdin with
    | true => exact Or.inr ⟨fp, hfp, hin, rfl⟩
    | false => exact Or.inl rfl

theorem read_curLine (text : List Char) : Read s { s with curLine := text } :=
  ⟨rfl, (Read.refl s).dev, Or.inl rfl⟩

theorem fClose_ret {k : FileState → Outcome} (h : s.fClose k = .ret r t) :
    ∃ fp, s.fp = some fp ∧ k (s.closed fp) = .ret r t := by
  unfold FileState.fClose at h
  cases hfp : s.fp with
  | none => rw [hfp] at h; cases h
  | some fp => rw [hfp] at h; exact ⟨fp, rfl, h⟩

theorem readLineLoop_read (h : readLineLoop env p n buf s = .ret r t) : Read s t := by
  induction n generalizing buf s with
  | zero => cases h; exact .refl _
  | succ n ih =>
    unfold readLineLoop at h
    split at h
    next hfp =>
      cases h
      exact read_curLine _
    next fp hfp =>
      have hdev := (dBufGets_onward env.maxLineLength fp).dev
      cases hget : dBufGets env.maxLineLength fp with
      | mk res q =>
        rw [hget] at h hdev
        have hline := @read_line s fp q hfp hdev (s.lineNo + 1)
        cases res with
        | error e => cases h; exact hline
        | ok line =>
          dsimp only at h
          by_cases hferror : q.ferror = true
          · rw [if_pos hferror] at h
            cases h
            exact hline
          rw [if_neg hferror] at h
          by_cases hmuch : tooMuchOutput env p { s with fp := some q, lineNo := s.lineNo + 1 } = true
          · rw [if_pos hmuch] at h
            cases h
            exact hline
          rw [if_neg hmuch] at h
          -- the file is closed at its end
          have hnext : Read s (if q.feof = true then
              ({ s with fp := some q, lineNo := s.lineNo + 1 } : FileState).closed q
              else { s with fp := some q, lineNo := s.lineNo + 1 }) := by
            split_ifs
            · exact hline.trans (read_closed rfl)
            · exact hline
          generalize (if q.feof = true then
              ({ s with fp := some q, lineNo := s.lineNo + 1 } : FileState).closed q
              else { s with fp := some q, lineNo := s.lineNo + 1 }) = s' at h hnext
          refine hnext.trans ?_
          by_cases hback : line.getLast? = some '\\'
          · rw [if_pos hback] at h
            split_ifs at h
            · cases h; exact .refl _
            · exact ih h
            · cases h; exact .refl _
            · exact ih h
          · rw [if_neg hback] at h
            split_ifs at h
            · cases h; exact .refl _
            · obtain ⟨fp', hfp', hk⟩ := fClose_ret h
              cases hk
              exact (read_closed hfp').trans (read_curLine _)
            · cases h; exact read_curLine _

theorem readLineFromFile_read (h : readLineFromFile env p s = .ret r t) : Read s t := by
  have hstart : Read s { s with lineNoStart := s.lineNo + 1 } :=
    ⟨rfl, (Read.refl s).dev, Or.inl rfl⟩
  unfold readLineFromFile at h
  split at h
  next => cases h; exact hstart
  next => exact hstart.trans (readLineLoop_read h)

/-- How much there is to be read from the stream, and 0 where it is closed. -/
def FileState.unread (s : FileState) : ℕ := (s.fp.map (·.rest.length + 1)).getD 0

/-- With enough fuel, the loop ends; a line that is read is gone from the stream. -/
theorem readLineLoop_ends (hn : s.unread < n) (h : readLineLoop env p n buf s = .ret r t) :
    r ≠ some .diverges ∧ t.unread ≤ s.unread ∧ (r = none → s.fp ≠ none → t.unread < s.unread) := by
  induction n generalizing buf s with
  | zero => omega
  | succ n ih =>
    unfold readLineLoop at h
    split at h
    next hfp =>
      cases h
      exact ⟨nofun, by simp [FileState.unread, hfp], fun _ hne => absurd hfp hne⟩
    next fp hfp =>
      have hs : s.unread = fp.rest.length + 1 := by simp [FileState.unread, hfp]
      have honward := dBufGets_onward env.maxLineLength fp
      have hadvanced := dBufGets_advanced env.maxLineLength fp
      have hends := dBufGets_ends env.maxLineLength fp
      cases hget : dBufGets env.maxLineLength fp with
      | mk res q =>
        rw [hget] at h honward hadvanced hends
        have hle : q.rest.length ≤ fp.rest.length := honward.rest
        cases res with
        | error e =>
          cases h
          refine ⟨fun hr => hends (by cases hr; rfl), ?_, nofun⟩
          rw [hs]
          exact Nat.succ_le_succ hle
        | ok line =>
          dsimp only at h
          by_cases hferror : q.ferror = true
          · rw [if_pos hferror] at h
            cases h
            exact ⟨nofun, by rw [hs]; exact Nat.succ_le_succ hle, nofun⟩
          rw [if_neg hferror] at h
          by_cases hmuch : tooMuchOutput env p { s with fp := some q, lineNo := s.lineNo + 1 } = true
          · rw [if_pos hmuch] at h
            cases h
            exact ⟨nofun, by rw [hs]; exact Nat.succ_le_succ hle, nofun⟩
          rw [if_neg hmuch] at h
          -- either the file is closed or something has been taken from it
          have hnext : (if q.feof = true then
              ({ s with fp := some q, lineNo := s.lineNo + 1 } : FileState).closed q
              else { s with fp := some q, lineNo := s.lineNo + 1 }).unread < s.unread := by
            split_ifs with hfeof
            · rw [hs]
              exact Nat.succ_pos _
            · rw [hs]
              exact Nat.succ_lt_succ
                (hadvanced.resolve_right fun hended => (Stream.at_end hended).elim hferror hfeof)
          generalize (if q.feof = true then
              ({ s with fp := some q, lineNo := s.lineNo + 1 } : FileState).closed q
              else { s with fp := some q, lineNo := s.lineNo + 1 }) = s' at h hnext
          have hrest : r ≠ some .diverges ∧ t.unread ≤ s'.unread := by
            by_cases hback : line.getLast? = some '\\'
            · rw [if_pos hback] at h
              split_ifs at h
              · cases h; exact ⟨nofun, le_rfl⟩
              · have hrec := ih (by omega) h; exact ⟨hrec.1, hrec.2.1⟩
              · cases h; exact ⟨nofun, le_rfl⟩
              · have hrec := ih (by omega) h; exact ⟨hrec.1, hrec.2.1⟩
            · rw [if_neg hback] at h
              split_ifs at h
              · cases h; exact ⟨nofun, le_rfl⟩
              · obtain ⟨fp', hfp', hk⟩ := fClose_ret h
                cases hk
                exact ⟨nofun, Nat.zero_le _⟩
              · cases h; exact ⟨nofun, le_rfl⟩
          exact ⟨hrest.1, by omega, fun _ _ => by omega⟩

theorem readLineFromFile_ends (h : readLineFromFile env p s = .ret r t) :
    r ≠ some .diverges ∧ t.unread ≤ s.unread ∧ (r = none → s.fp ≠ none → t.unread < s.unread) := by
  unfold readLineFromFile at h
  split at h
  next hfp =>
    cases h
    exact ⟨nofun, le_rfl, nofun⟩
  next fp hfp =>
    refine readLineLoop_ends (s := { s with lineNoStart := s.lineNo + 1 }) ?_ h
    simp [FileState.unread, hfp]

/-- The two outcomes differ at most in what reading does not look at. -/
inductive SameReading : Outcome → Outcome → Prop
  | crash : SameReading .crash .crash
  | ret {r : Option ErrCode} {s t : FileState} : s.fp = t.fp → s.lineNo = t.lineNo →
      (r = none → s.curLine = t.curLine) → SameReading (.ret r s) (.ret r t)

theorem sameReading_fClose {k l : FileState → Outcome} (hfp : s.fp = t.fp)
    (h : ∀ fp, SameReading (k (s.closed fp)) (l (t.closed fp))) :
    SameReading (s.fClose k) (t.fClose l) := by
  unfold FileState.fClose
  cases hs : s.fp with
  | none =>
    rw [← hfp, hs]
    exact .crash
  | some fp =>
    rw [← hfp, hs]
    exact h fp

theorem sameReading_fail {e : ErrCode} (hfp : s.fp = t.fp) (hno : s.lineNo = t.lineNo) :
    SameReading (.ret (some e) s) (.ret (some e) t) :=
  .ret hfp hno fun h => by cases h

theorem sameReading_ite {c : Prop} [Decidable c] {a b a' b' : Outcome} (ha : SameReading a a')
    (hb : SameReading b b') : SameReading (if c then a else b) (if c then a' else b') := by
  by_cases hc : c
  · rwa [if_pos hc, if_pos hc]
  · rwa [if_neg hc, if_neg hc]

theorem readLineLoop_same (hfp : s.fp = t.fp) (hno : s.lineNo = t.lineNo) :
    SameReading (readLineLoop env p n buf s) (readLineLoop env p n buf t) := by
  induction n generalizing buf s t with
  | zero => exact .ret hfp hno nofun
  | succ n ih =>
    unfold readLineLoop
    cases hs : s.fp with
    | none =>
      rw [hs] at hfp
      simp only [← hfp]
      exact .ret rfl hno fun _ => rfl
    | some fp =>
      rw [hs] at hfp
      simp only [← hfp, tooMuchOutput, hno]
      rcases dBufGets env.maxLineLength fp with ⟨e | line, q⟩
      · exact .ret rfl rfl nofun
      · dsimp only
        refine sameReading_ite (sameReading_fail rfl rfl)
          (sameReading_ite (sameReading_fail rfl rfl) ?_)
        by_cases hend : q.feof = true
        all_goals
          simp only [hend, if_true, if_false, Bool.false_eq_true]
          exact sameReading_ite (sameReading_ite (sameReading_fail rfl rfl) (ih rfl rfl))
            (sameReading_ite (sameReading_fail rfl rfl) (sameReading_ite
              (sameReading_fClose rfl fun _ => .ret rfl rfl fun _ => rfl)
              (.ret rfl rfl fun _ => rfl)))

theorem readLineFromFile_same (hfp : s.fp = t.fp) (hno : s.lineNo = t.lineNo) :
    SameReading (readLineFromFile env p s) (readLineFromFile env p t) := by
  unfold readLineFromFile
  cases hs : s.fp with
  | none =>
    rw [hs] at hfp
    simp only [← hfp]
    exact .ret rfl hno nofun
  | some fp =>
    rw [hs] at hfp
    simp only [← hfp]
    exact readLineLoop_same rfl hno

end Reading

/-! ### Caching a file -/

section Caching

variable {env : FileEnv} {p : Bool} {n : ℕ} {r : Option ErrCode} {s t u : FileState}
  {cf cf' : CachedFile} {fname : List Char}

/-- `CacheFile` has read the file to its end and put it in the cache, or given up. -/
structure Cached (cf : CachedFile) (s : FileState) (r : Option ErrCode) (t : FileState) : Prop where
  read : ∃ u, Read s u ∧
    t = { u with cachedFiles := t.cachedFiles, shouldCache := t.shouldCache }
  fp : t.fp = none
  done : r = none → t.shouldCache = s.shouldCache ∧
    ∃ cache, t.cachedFiles = { cf with cache } :: s.cachedFiles
  givenUp : r ≠ none → t.shouldCache = false ∧ t.cachedFiles = s.cachedFiles

theorem Cached.of_read {cache : List CachedLine} (h1 : Read s u)
    (h2 : Cached { cf with cache } u r t) : Cached cf s r t where
  read := by
    obtain ⟨v, hv, ht⟩ := h2.read
    exact ⟨v, h1.trans hv, ht⟩
  fp := h2.fp
  done hr := by
    have hu := h1.eq
    obtain ⟨hshould, cache', hfiles⟩ := h2.done hr
    rw [hu] at hshould hfiles
    exact ⟨hshould, cache', hfiles⟩
  givenUp hr := by
    have hu := h1.eq
    obtain ⟨hshould, hfiles⟩ := h2.givenUp hr
    rw [hu] at hfiles
    exact ⟨hshould, hfiles⟩

/-- Caching is given up and the file closed. -/
theorem cached_givenUp {e : ErrCode} (h1 : Read s u)
    (h : FileState.fClose { u with shouldCache := false } (fun s => .ret (some e) s) = .ret r t) :
    Cached cf s r t := by
  obtain ⟨fp, hfp, hk⟩ := fClose_ret h
  cases hk
  have hu := h1.eq
  refine ⟨⟨u.closed fp, h1.trans (read_closed hfp), rfl⟩, rfl, nofun, fun _ => ⟨rfl, ?_⟩⟩
  show u.cachedFiles = s.cachedFiles
  rw [hu]
  rfl

theorem cacheLoop_cached (hn : s.unread < n) (h : cacheLoop env p n cf s = .ret r t) :
    Cached cf s r t ∧ r ≠ some .diverges := by
  induction n generalizing cf s with
  | zero => omega
  | succ n ih =>
    unfold cacheLoop at h
    split at h
    next hfp =>
      cases h
      exact ⟨⟨⟨s, .refl s, rfl⟩, hfp, fun _ => ⟨rfl, _, rfl⟩, fun hr => absurd rfl hr⟩, nofun⟩
    next fp hfp =>
      cases hread : readLineFromFile env p s with
      | crash => rw [hread] at h; cases h
      | ret r' u =>
        have hr := readLineFromFile_read hread
        have hends := readLineFromFile_ends hread
        rw [hread] at h
        cases r' with
        | some e =>
          refine ⟨cached_givenUp hr h, ?_⟩
          obtain ⟨fp', -, hk⟩ := fClose_ret h
          cases hk
          exact hends.1
        | none =>
          have hlt := hends.2.2 rfl (by simp [hfp])
          dsimp only at h
          split_ifs at h
          · obtain ⟨hc, hne⟩ := ih (by omega) h
            exact ⟨hc.of_read hr, hne⟩
          · refine ⟨cached_givenUp hr h, ?_⟩
            obtain ⟨fp', -, hk⟩ := fClose_ret h
            cases hk
            exact nofun
          · obtain ⟨hc, hne⟩ := ih (by omega) h
            exact ⟨hc.of_read hr, hne⟩

/-- The header that `CacheFile` makes of a file. -/
def FileState.header (s : FileState) (fname : List Char) : CachedFile :=
  ⟨fname, [], isOwned s.runDisabled, s.source⟩

theorem cacheFile_cached (h : cacheFile env p fname s = .ret r t) : Cached (s.header fname) s r t := by
  refine (cacheLoop_cached ?_ h).1
  unfold FileState.unread
  cases s.fp <;> simp

theorem cacheLoop_code (hfp : s.fp = t.fp) (hno : s.lineNo = t.lineNo)
    (hcf : cf.cache.length = cf'.cache.length) :
    (cacheLoop env p n cf s).code = (cacheLoop env p n cf' t).code := by
  induction n generalizing cf cf' s t with
  | zero => rfl
  | succ n ih =>
    have hsame := @readLineFromFile_same env p s t hfp hno
    unfold cacheLoop
    cases hs : s.fp with
    | none =>
      rw [hs] at hfp
      simp only [← hfp]
      rfl
    | some fp =>
      rw [hs] at hfp
      simp only [← hfp]
      revert hsame
      generalize readLineFromFile env p s = o
      generalize readLineFromFile env p t = o'
      intro hsame
      cases hsame with
      | crash => rfl
      | @ret r u v hfp' hno' hcur =>
        cases r with
        | some e =>
          simp only [FileState.fClose, hfp']
          cases v.fp <;> rfl
        | none =>
          simp only [hcur rfl, hcf]
          split_ifs
          · exact ih hfp' hno' hcf
          · simp only [FileState.fClose, hfp']
            cases v.fp <;> rfl
          · exact ih hfp' hno' (by simp [hcf])

/-- What `CacheFile` returns for a stream, `none` for a crash. -/
def caching (env : FileEnv) (usePclose : Bool) (fp : Stream) : Option (Option ErrCode) :=
  (cacheFile env usePclose [] { FileState.init true 0 [] with fp := some fp }).code

theorem cacheFile_code {fp : Stream} (hfp : s.fp = some fp) (hno : s.lineNo = 0) :
    (cacheFile env p fname s).code = caching env p fp := by
  unfold caching cacheFile
  simp only [hfp]
  exact cacheLoop_code hfp hno rfl

end Caching

/-! ### PopFile is not called -/

section Here

variable {users : Users} {s : FileState}

theorem popLoop_here {envs : ℕ → FileEnv} {n : ℕ} (h : s.cLine ≠ [] ∨ s.fp ≠ none) :
    popLoop users envs (n + 1) s = .ret none s := by
  unfold popLoop
  rw [if_neg]
  rintro ⟨hline, hfp⟩
  exact h.elim (absurd hline) (absurd hfp)

end Here

end Remind.LineReader
