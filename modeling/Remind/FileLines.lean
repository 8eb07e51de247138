import Mathlib.Data.List.TakeWhile
import Remind.FileFrame

/-!
# FileLines — the logical lines of a file, and what reads them

`rawLines` joins each line of a text that ends in a backslash to the next one.  `ReadLineFromFile`
reads one of them at a call, up to a line `__EOF__`.
-/

namespace Remind.LineReader

/-! ### The lines of a text -/

/-- The lines of a file, from line `no + 1` on, joined at their backslashes; `pre` is the text of
those before that end in one, and `start` the number of the first of them. -/
def joinLines (no start : ℕ) (pre : List Char) : List (List Char) → List CachedLine
  | [] => if pre = [] then [] else [⟨pre, no, start⟩]
  | line :: lines =>
    if line.getLast? = some '\\' then
      joinLines (no + 1) start (pre ++ (line.dropLast ++ ['\n'])) lines
    else ⟨pre ++ line, no + 1, start⟩ :: joinLines (no + 1) (no + 2) [] lines

/-- The logical lines of a text that begins with line `no + 1`. -/
def rawLines (no : ℕ) (text : List Char) : List CachedLine :=
  joinLines no (no + 1) [] (text.splitOn '\n')

/-- The lines before a line `__EOF__`. -/
def upToEof (raw : List CachedLine) : List CachedLine := raw.takeWhile (·.text ≠ eofMark)

/-- A line without its leading white space, unless it is blank or a comment. -/
def significant (l : CachedLine) : Option CachedLine :=
  let text := l.text.dropWhile isEmptyChar
  if isIgnored text then none else some { l with text }

/-- The lines of a file that are neither blank nor comments. -/
def sigLines (raw : List CachedLine) : List CachedLine := (upToEof raw).filterMap significant

/-- No line that is read is too long, and a line `__EOF__` has a newline behind it. -/
structure RawOk (maxLineLength : ℕ) (raw : List CachedLine) : Prop where
  fits : ∀ pre l post, raw = pre ++ l :: post → (∀ k ∈ pre, k.text ≠ eofMark) →
    tooLong maxLineLength l.text = false
  ended : ∀ pre l, raw = pre ++ [l] → (∀ k ∈ pre, k.text ≠ eofMark) → l.text ≠ eofMark

section Lines

variable {no start : ℕ} {pre : List Char} {lines : List (List Char)} {l : CachedLine}
  {raw : List CachedLine} {m : ℕ}

theorem joinLines_head (h : joinLines no start pre lines = l :: raw) :
    pre <+: l.text ∧ l.lineNoStart = start := by
  induction lines generalizing no pre with
  | nil =>
    unfold joinLines at h
    split_ifs at h with hp
    cases h
    exact ⟨List.prefix_refl _, rfl⟩
  | cons line lines ih =>
    unfold joinLines at h
    split_ifs at h with hb
    · obtain ⟨h1, h2⟩ := ih h
      exact ⟨(List.prefix_append _ _).trans h1, h2⟩
    · obtain ⟨rfl, -⟩ := List.cons.inj h
      exact ⟨List.prefix_append _ _, rfl⟩

theorem joinLines_ne_nil (hl : lines ≠ []) : joinLines no start pre lines ≠ [] := by
  induction lines generalizing no pre with
  | nil => exact absurd rfl hl
  | cons line lines ih =>
    unfold joinLines
    split_ifs with hb
    · by_cases hlines : lines = []
      · subst hlines
        simp [joinLines]
      · exact ih hlines
    · exact List.cons_ne_nil _ _

theorem tooLong_of_length {a b : List Char} (h : a.length ≤ b.length) (hb : tooLong m b = false) :
    tooLong m a = false := by
  simp only [tooLong, Bool.and_eq_false_iff, decide_eq_false_iff_not] at hb ⊢
  omega

/-- The first line is part of the first logical line. -/
theorem joinLines_first {line : List Char} (h : joinLines no start pre (line :: lines) = l :: raw) :
    line.length ≤ l.text.length := by
  unfold joinLines at h
  split_ifs at h with hb
  · have hle := (joinLines_head h).1.length_le
    have hpos : 0 < line.length := List.length_pos_of_mem (List.mem_of_getLast? hb)
    simp only [List.length_append, List.length_dropLast, List.length_singleton] at hle
    omega
  · obtain ⟨rfl, -⟩ := List.cons.inj h
    simp

theorem RawOk.head (h : RawOk m (l :: raw)) : tooLong m l.text = false :=
  h.fits [] l raw rfl (by simp)

theorem RawOk.tail (h : RawOk m (l :: raw)) (hl : l.text ≠ eofMark) : RawOk m raw where
  fits pre k post hraw hpre :=
    h.fits (l :: pre) k post (by rw [hraw, List.cons_append]) (List.forall_mem_cons.mpr ⟨hl, hpre⟩)
  ended pre k hraw hpre :=
    h.ended (l :: pre) k (by rw [hraw, List.cons_append]) (List.forall_mem_cons.mpr ⟨hl, hpre⟩)

theorem RawOk.not_last (h : RawOk m [l]) : l.text ≠ eofMark := h.ended [] l rfl (by simp)

theorem rawOk_nil : RawOk m [] where
  fits pre l post h := absurd h (by simp)
  ended pre l h := absurd h (by simp)

theorem sigLines_nil : sigLines [] = [] := rfl

theorem sigLines_eof (hl : l.text = eofMark) : sigLines (l :: raw) = [] := by
  simp [sigLines, upToEof, hl]

theorem sigLines_cons (hl : l.text ≠ eofMark) :
    sigLines (l :: raw) = (significant l).toList ++ sigLines raw := by
  unfold sigLines upToEof
  rw [List.takeWhile_cons_of_pos (by simpa using hl), List.filterMap_cons]
  cases significant l <;> rfl

end Lines

/-! ### Physical lines -/

section Physical

variable {line t : List Char} {o m n : ℕ} {dev : Device}

/-- The stream behind the line `line`, where `t` followed it. -/
def behind (dev : Device) (line t : List Char) (o : ℕ) : Stream :=
  ⟨dev, t.tail, o + line.length + (t.take 1).length, t.isEmpty⟩

/-- `t` begins with a newline or is empty. -/
def EndsLine (t : List Char) : Prop := t = [] ∨ ∃ r, t = '\n' :: r

theorem takeLine_line (hl : '\n' ∉ line) (ht : EndsLine t) (hn : line.length < n) :
    takeLine n ⟨dev, line ++ t, o, false⟩ = (line ++ t.take 1, behind dev line t o) := by
  induction line generalizing n o with
  | nil =>
    obtain ⟨n, rfl⟩ := Nat.exists_eq_succ_of_ne_zero (Nat.ne_of_gt hn)
    rcases ht with rfl | ⟨r, rfl⟩
    · rfl
    · simp [takeLine, behind]
  | cons c line ih =>
    obtain ⟨n, rfl⟩ := Nat.exists_eq_succ_of_ne_zero (Nat.ne_of_gt (Nat.zero_lt_of_lt hn))
    rw [List.mem_cons, not_or] at hl
    rw [List.length_cons] at hn
    have hrec := ih (o := o + 1) hl.2 (show line.length < n by omega)
    simp only [takeLine, List.cons_append, Ne.symm hl.1, if_false, hrec, behind, List.length_cons]
    rw [show o + 1 + line.length = o + (line.length + 1) by omega]

theorem takeLine_part (hl : '\n' ∉ line) (hn : n ≤ line.length) :
    takeLine n ⟨dev, line ++ t, o, false⟩ =
      (line.take n, ⟨dev, line.drop n ++ t, o + n, false⟩) := by
  induction n generalizing line o with
  | zero => rfl
  | succ n ih =>
    cases line with
    | nil => exact absurd hn (by simp)
    | cons c line =>
      rw [List.mem_cons, not_or] at hl
      rw [List.length_cons] at hn
      have hrec := ih (o := o + 1) hl.2 (show n ≤ line.length by omega)
      simp only [takeLine, List.cons_append, Ne.symm hl.1, if_false, hrec, List.take_succ_cons,
        List.drop_succ_cons]
      rw [show o + 1 + n = o + (n + 1) by omega]

theorem fgets_eq {fp : Stream} (hd : fp.dev.broken = false) (hdev : (takeLine n fp).2.dev = fp.dev) :
    fgets n fp = takeLine n fp := by
  have hno : (takeLine n fp).2.ferror = false := by
    unfold Stream.ferror
    rw [hdev, hd, Bool.and_false]
  simp only [fgets, hno, Bool.false_eq_true, if_false]

theorem fgets_line (hd : dev.broken = false) (hl : '\n' ∉ line) (ht : EndsLine t)
    (hn : line.length < n) :
    fgets n ⟨dev, line ++ t, o, false⟩ = (line ++ t.take 1, behind dev line t o) := by
  have hline := @takeLine_line line t o n dev hl ht hn
  rw [fgets_eq hd (by rw [hline]; rfl), hline]

theorem fgets_part (hd : dev.broken = false) (hl : '\n' ∉ line) (hn : n ≤ line.length) :
    fgets n ⟨dev, line ++ t, o, false⟩ =
      (line.take n, ⟨dev, line.drop n ++ t, o + n, false⟩) := by
  have hpart := @takeLine_part line t o n dev hl hn
  rw [fgets_eq hd (by rw [hpart]), hpart]

theorem cString_eq {buf : List Char} (h : '\x00' ∉ buf) : cString buf = buf := by
  unfold cString
  rw [List.takeWhile_eq_self_iff]
  intro c hc
  simp only [ne_eq, decide_not, Bool.not_eq_eq_eq_not, Bool.not_true, decide_eq_false_iff_not]
  rintro rfl
  exact h hc

theorem getLast?_ne {line : List Char} (hl : '\n' ∉ line) : line.getLast? ≠ some '\n' :=
  fun h => hl (List.mem_of_getLast? h)

theorem take_ne_nil (hn : 0 < n) (h : n ≤ line.length) : line.take n ≠ [] := by
  rw [← List.length_pos_iff, List.length_take]
  omega

theorem behind_drop (h : n ≤ line.length) : behind dev (line.drop n) t (o + n) = behind dev line t o := by
  unfold behind
  rw [List.length_drop, show o + n + (line.length - n) = o + line.length by omega]

/-- The loop of `DBufGets` takes the rest of a line. -/
theorem dBufGetsLoop_line {dbuf : List Char} (hd : dev.broken = false) (hl : '\n' ∉ line)
    (h0 : '\x00' ∉ line)
    (ht : EndsLine t) (hfit : tooLong m (dbuf ++ line) = false) (hn : line.length < n) :
    dBufGetsLoop m n dbuf ⟨dev, line ++ t, o, false⟩ = (.ok (dbuf ++ line), behind dev line t o) := by
  induction n generalizing line dbuf o with
  | zero => omega
  | succ n ih =>
    unfold dBufGetsLoop
    by_cases hlen : line.length < 255
    · rw [fgets_line hd hl ht hlen]
      rcases ht with rfl | ⟨r, rfl⟩
      · simp only [List.take_nil, List.append_nil]
        rw [cString_eq h0]
        by_cases hline : line = []
        · subst hline
          simp
        · -- the end of the file is met once more
          have hpos := List.length_pos_iff.mpr hline
          have hlast := getLast?_ne hl
          have hrec : dBufGetsLoop m n (dbuf ++ line) (behind dev line [] o) =
              (.ok (dbuf ++ line), behind dev line [] o) := by
            obtain ⟨n, rfl⟩ := Nat.exists_eq_succ_of_ne_zero (show n ≠ 0 by omega)
            simp [dBufGetsLoop, behind, fgets, takeLine, Stream.ferror, hd, cString]
          simp only [hline, if_false, hlast, ne_eq, not_false_eq_true, if_true, hfit,
            Bool.false_eq_true, hrec]
      · have hz : '\x00' ∉ line ++ ['\n'] := by simp [h0]
        simp only [List.take_succ_cons, List.take_zero, cString_eq hz]
        simp [hfit]
    · have hle : 255 ≤ line.length := by omega
      rw [fgets_part hd hl hle]
      have hsub : ∀ {c : Char}, c ∉ line → c ∉ line.take 255 := fun h hm => h (List.mem_of_mem_take hm)
      have hlast := getLast?_ne (hsub hl)
      have hne := take_ne_nil (by decide) hle
      have hsplit : (dbuf ++ line.take 255) ++ line.drop 255 = dbuf ++ line := by
        rw [List.append_assoc, List.take_append_drop]
      have hshort : tooLong m (dbuf ++ line.take 255) = false :=
        by
          refine tooLong_of_length ?_ hfit
          simp only [List.length_append, List.length_take]
          omega
      have hrec := @ih (line.drop 255) (o + 255) (dbuf ++ line.take 255)
        (fun hm => hl (List.mem_of_mem_drop hm)) (fun hm => h0 (List.mem_of_mem_drop hm))
        (by rw [hsplit]; exact hfit) (by rw [List.length_drop]; omega)
      simp only [cString_eq (hsub h0), hne, if_false, hlast, ne_eq, not_false_eq_true, if_true,
        hshort, Bool.false_eq_true, hrec, hsplit, behind_drop hle]

/-- **DBufGets** takes a line that is not too long, with the newline behind it. -/
theorem dBufGets_line (hd : dev.broken = false) (hl : '\n' ∉ line) (h0 : '\x00' ∉ line)
    (ht : EndsLine t) (hfit : tooLong m line = false) :
    dBufGets m ⟨dev, line ++ t, o, false⟩ = (.ok line, behind dev line t o) := by
  unfold dBufGets
  by_cases hlen : line.length < 31
  · rw [fgets_line hd hl ht hlen]
    rcases ht with rfl | ⟨r, rfl⟩
    · simp only [List.take_nil, List.append_nil]
      rw [cString_eq h0]
      by_cases hline : line = []
      · subst hline
        simp
      · have hloop : dBufGetsLoop m ((behind dev line [] o).rest.length + 1) line (behind dev line [] o) =
            (.ok line, behind dev line [] o) := by
          simp [dBufGetsLoop, behind, fgets, takeLine, Stream.ferror, hd, cString]
        simp only [hline, if_false, getLast?_ne hl, hloop]
    · have hz : '\x00' ∉ line ++ ['\n'] := by simp [h0]
      simp only [List.take_succ_cons, List.take_zero, cString_eq hz]
      simp [hfit]
  · have hle : 31 ≤ line.length := by omega
    rw [fgets_part hd hl hle]
    have hsub : ∀ {c : Char}, c ∉ line → c ∉ line.take 31 := fun h hm => h (List.mem_of_mem_take hm)
    have hne := take_ne_nil (by decide) hle
    have hsplit : line.take 31 ++ line.drop 31 = line := List.take_append_drop _ _
    have hrec := @dBufGetsLoop_line (line.drop 31) t (o + 31) m ((line.drop 31 ++ t).length + 1) dev
      (line.take 31) hd (fun hm => hl (List.mem_of_mem_drop hm))
      (fun hm => h0 (List.mem_of_mem_drop hm)) ht (by rw [hsplit]; exact hfit)
      (by rw [List.length_append]; omega)
    simp only [cString_eq (hsub h0), hne, if_false, getLast?_ne (hsub hl), hrec, hsplit, behind_drop hle]

end Physical

/-! ### Logical lines -/

section Logical

variable {env : FileEnv} {text : List Char} {no start n : ℕ} {l : CachedLine}
  {raw : List CachedLine} {s : FileState} {fp : Stream}

/-- The stream stands in the text and has not met its end. -/
structure Stream.At (fp : Stream) (text : List Char) : Prop where
  rest : fp.rest = text.drop fp.offset
  ended : fp.ended = false
  sound : fp.dev.broken = false

/-- The lines that are left in a file: none of a closed one. -/
def physical (fp : Option Stream) : List (List Char) :=
  match fp with
  | none => []
  | some fp => fp.rest.splitOn '\n'

/-- What is left to be read of the file are the logical lines `raw`, from line `no + 1` on. -/
structure Unread (text : List Char) (no : ℕ) (fp : Option Stream) (raw : List CachedLine) :
    Prop where
  stream : ∀ q, fp = some q → q.At text
  lines : raw = joinLines no (no + 1) [] (physical fp)

theorem openAt_at (offset : ℕ) : (openAt text false offset).At text := ⟨rfl, rfl, rfl⟩

/-- A text as its first line and what follows it. -/
theorem exists_line (rest : List Char) : ∃ line t, rest = line ++ t ∧ '\n' ∉ line ∧ EndsLine t ∧
    rest.splitOn '\n' = line :: if t = [] then [] else t.tail.splitOn '\n' := by
  induction rest with
  | nil => exact ⟨[], [], rfl, List.not_mem_nil, Or.inl rfl, rfl⟩
  | cons c rest ih =>
    by_cases hc : c = '\n'
    · subst hc
      refine ⟨[], '\n' :: rest, rfl, List.not_mem_nil, Or.inr ⟨rest, rfl⟩, ?_⟩
      exact List.splitOn_append_cons_self_of_not_mem List.not_mem_nil rest
    · obtain ⟨line, t, rfl, hl, ht, hsplit⟩ := ih
      refine ⟨c :: line, t, rfl, ?_, ht, ?_⟩
      · rw [List.mem_cons, not_or]
        exact ⟨Ne.symm hc, hl⟩
      · rw [List.splitOn_cons_eq_if_modifyHead, if_neg (by simpa using hc), hsplit]
        rfl

theorem length_splitOn_le (rest : List Char) : (rest.splitOn '\n').length ≤ rest.length + 1 := by
  induction rest with
  | nil => simp
  | cons c rest ih =>
    rw [List.splitOn_cons_eq_if_modifyHead, List.length_cons]
    split_ifs
    · rw [List.length_cons]
      omega
    · rw [List.length_modifyHead]
      omega

/-- **DBufGets** takes one of the lines that are left. -/
theorem dBufGets_physical {m : ℕ} (h0 : '\x00' ∉ text) (hat : fp.At text) : ∃ line q,
    (tooLong m line = false → dBufGets m fp = (.ok line, q)) ∧
      physical (some fp) = line :: physical (if q.feof then none else some q) ∧
      q.ferror = false ∧ (q.feof = false → q.At text) := by
  obtain ⟨dev, rest, offset, ended⟩ := fp
  obtain ⟨hrest, rfl, hd⟩ := hat
  obtain ⟨line, t, rfl, hl, ht, hsplit⟩ := exists_line rest
  have hz : '\x00' ∉ line := by
    refine fun hm => h0 (List.mem_of_mem_drop (i := offset) ?_)
    rw [← hrest]
    exact List.mem_append_left _ hm
  have hfeof : (behind dev line t offset).feof = t.isEmpty := by
    simp only at hd
    simp [Stream.feof, behind, hd]
  refine ⟨line, behind dev line t offset, fun hfit => dBufGets_line hd hl hz ht hfit, ?_, ?_, ?_⟩
  · show (line ++ t).splitOn '\n' = _
    rw [hsplit, hfeof]
    rcases ht with rfl | ⟨r, rfl⟩ <;> rfl
  · simp only at hd
    simp [Stream.ferror, behind, hd]
  · rw [hfeof]
    rcases ht with rfl | ⟨r, rfl⟩
    · exact fun h => absurd h (by simp)
    · refine fun _ => ⟨?_, rfl, hd⟩
      show r = text.drop (offset + line.length + 1)
      simp only at hrest
      rw [Nat.add_assoc, ← List.drop_drop, ← hrest, ← List.drop_drop, List.drop_left]
      rfl

theorem newline_not_eofMark {pre : List Char} (h : '\n' ∈ pre) : pre ≠ eofMark := by
  rintro rfl
  exact absurd h (by decide)

/-- `t` is the state `s` after the logical line `l` has been joined, with `raw` behind it. -/
structure LineRead (text : List Char) (s : FileState) (l : CachedLine) (raw : List CachedLine)
    (t : FileState) : Prop where
  curLine : t.curLine = if l.text = eofMark then [] else l.text
  lineNo : t.lineNo = l.lineNo
  lineNoStart : t.lineNoStart = s.lineNoStart
  unread : Unread text t.lineNo t.fp (if l.text = eofMark then [] else raw)

/-- The loop of `ReadLineFromFile` joins the lines up to the first that does not end in a
backslash. -/
theorem readLineLoop_spec {pre : List Char} (h0 : '\x00' ∉ text) (hpurge : env.purgeMode = false)
    (hpre : pre = [] ∨ '\n' ∈ pre) (hat : ∀ q, s.fp = some q → q.At text)
    (hraw : joinLines s.lineNo start pre (physical s.fp) = l :: raw)
    (hfit : tooLong env.maxLineLength l.text = false) (hlast : raw = [] → l.text ≠ eofMark)
    (hn : (physical s.fp).length < n) :
    ∃ t, readLineLoop env false n pre s = .ret none t ∧ LineRead text s l raw t := by
  induction n generalizing pre s with
  | zero => omega
  | succ n ih =>
    unfold readLineLoop
    split
    next hfp =>
      -- the text ends in a backslash
      rw [hfp] at hraw
      simp only [physical, joinLines] at hraw
      split_ifs at hraw with hnil
      obtain ⟨rfl, rfl⟩ := List.cons.inj hraw
      have hne := newline_not_eofMark (hpre.resolve_left hnil)
      refine ⟨_, rfl, by simp [hne], rfl, rfl, ?_⟩
      rw [if_neg hne, hfp]
      exact ⟨fun q hq => (by cases hq), rfl⟩
    next q hfp =>
      obtain ⟨line, q', hget, hphys, hferror, hat'⟩ :=
        dBufGets_physical (m := env.maxLineLength) h0 (hat q hfp)
      rw [hfp, hphys] at hraw
      rw [hfp, hphys, List.length_cons] at hn
      rw [hget (tooLong_of_length (joinLines_first hraw) hfit)]
      dsimp only
      rw [if_neg (by simp [hferror]), if_neg (by simp [tooMuchOutput])]
      -- the state with the line read, and with the file closed at its end
      have hat'' : ∀ p, (if q'.feof then none else some q') = some p → p.At text := by
        intro p hp
        split_ifs at hp with heof
        cases hp
        exact hat' (by simpa using heof)
      generalize hs' : (if q'.feof = true then
          ({ s with fp := some q', lineNo := s.lineNo + 1 } : FileState).closed q'
          else { s with fp := some q', lineNo := s.lineNo + 1 }) = s'
      have hfp' : s'.fp = if q'.feof then none else some q' := by
        rw [← hs']
        split_ifs <;> rfl
      have hno : s'.lineNo = s.lineNo + 1 := by
        rw [← hs']
        split_ifs <;> rfl
      have hstart : s'.lineNoStart = s.lineNoStart := by
        rw [← hs']
        split_ifs <;> rfl
      rw [← hfp'] at hraw hat'' hn
      unfold joinLines at hraw
      rw [← hno] at hraw
      by_cases hback : line.getLast? = some '\\'
      · rw [if_pos hback] at hraw ⊢
        rw [hpurge, if_neg Bool.false_ne_true, if_neg (by
          rw [tooLong_of_length (joinLines_head hraw).1.length_le hfit]
          decide)]
        obtain ⟨t, hres, ht⟩ := ih (Or.inr (by simp)) hat'' hraw (Nat.lt_of_succ_lt_succ hn)
        exact ⟨t, hres, ht.curLine, ht.lineNo, ht.lineNoStart.trans hstart, ht.unread⟩
      · rw [if_neg hback] at hraw ⊢
        obtain ⟨rfl, rfl⟩ := List.cons.inj hraw
        rw [if_neg (by rw [hfit]; decide)]
        by_cases heof : pre ++ line = eofMark
        · -- the stream is still open: there is a line behind this one
          have hopen : s'.fp ≠ none := by
            intro hclosed
            exact hlast (by rw [hclosed]; rfl) heof
          obtain ⟨q'', hq''⟩ := Option.ne_none_iff_exists'.mp hopen
          rw [if_pos heof]
          simp only [FileState.fClose, hq'']
          refine ⟨_, rfl, by simp [heof], rfl, hstart, ?_⟩
          rw [if_pos heof]
          exact ⟨fun q hq => (by cases hq), rfl⟩
        · rw [if_neg heof]
          refine ⟨_, rfl, by simp [heof], rfl, hstart, ?_⟩
          rw [if_neg heof]
          refine ⟨hat'', ?_⟩
          show _ = joinLines s'.lineNo (s'.lineNo + 1) [] (physical s'.fp)
          rw [hno]

theorem length_joinLines_le (no start : ℕ) (pre : List Char) (lines : List (List Char)) :
    (joinLines no start pre lines).length ≤ lines.length + if pre = [] then 0 else 1 := by
  induction lines generalizing no start pre with
  | nil =>
    unfold joinLines
    split_ifs <;> simp
  | cons line lines ih =>
    unfold joinLines
    split_ifs with hb hp
    · have h := ih (no + 1) start (pre ++ (line.dropLast ++ ['\n']))
      rw [if_neg (by simp)] at h
      simpa using h
    · have h := ih (no + 1) start (pre ++ (line.dropLast ++ ['\n']))
      rw [if_neg (by simp)] at h
      exact h.trans (by simp)
    all_goals
      have h := ih (no + 1) (no + 2) []
      rw [if_pos rfl] at h
      simp only [List.length_cons]
      omega

theorem Unread.length_le (h : Unread text no (some fp) raw) : raw.length ≤ fp.rest.length + 1 := by
  have hle := length_joinLines_le no (no + 1) [] (physical (some fp))
  rw [if_pos rfl, ← h.lines] at hle
  exact hle.trans (length_splitOn_le fp.rest)

theorem Unread.nil_iff (h : Unread text no (some fp) raw) : raw ≠ [] := by
  rw [h.lines]
  exact joinLines_ne_nil (List.splitOn_ne_nil _ _)

theorem Unread.of_none (h : Unread text no none raw) : raw = [] := h.lines

/-- **ReadLineFromFile** reads the next logical line. -/
theorem readLineFromFile_spec (h0 : '\x00' ∉ text) (hpurge : env.purgeMode = false)
    (hfp : s.fp = some fp) (hun : Unread text s.lineNo (some fp) (l :: raw))
    (hok : RawOk env.maxLineLength (l :: raw)) :
    ∃ t, readLineFromFile env false s = .ret none t ∧
      LineRead text { s with lineNoStart := l.lineNoStart } l raw t := by
  have hraw := hun.lines.symm
  have hstart := (joinLines_head hraw).2
  have hlen := length_splitOn_le fp.rest
  have hlast : raw = [] → l.text ≠ eofMark := by
    rintro rfl
    exact hok.not_last
  have hloop : readLineFromFile env false s =
      readLineLoop env false (fp.rest.length + 2) [] { s with lineNoStart := s.lineNo + 1 } := by
    unfold readLineFromFile
    simp only [hfp]
  obtain ⟨t, hres, ht⟩ := @readLineLoop_spec env text (s.lineNo + 1) (fp.rest.length + 2) l raw
    { s with lineNoStart := s.lineNo + 1 } [] h0 hpurge (Or.inl rfl)
    (fun q hq => hun.stream q (hfp ▸ hq)) (by simpa only [hfp] using hraw) hok.head hlast
    (by simp only [hfp, physical]; omega)
  exact ⟨t, hloop.trans hres, ht.curLine, ht.lineNo, ht.lineNoStart.trans hstart.symm, ht.unread⟩

end Logical

/-! ### Caching -/

section Caching

variable {env : FileEnv} {text fname : List Char} {n : ℕ} {l : CachedLine}
  {raw : List CachedLine} {cf : CachedFile} {s : FileState}

/-- The line that makes a file too long to be cached, `k` lines of it being cached already, is not
the last one. -/
def CacheOk (maxCachedLines k : ℕ) (raw : List CachedLine) : Prop :=
  ∀ pre l, raw = pre ++ [l] → (∀ j ∈ pre ++ [l], j.text ≠ eofMark) → significant l ≠ none →
    k + (pre.filterMap significant).length ≠ maxCachedLines

theorem CacheOk.tail {m k : ℕ} (h : CacheOk m k (l :: raw)) (hl : l.text ≠ eofMark) :
    CacheOk m (k + (significant l).toList.length) raw := by
  intro pre j hraw hpre hj
  have hne := h (l :: pre) j (by rw [hraw, List.cons_append])
    (List.forall_mem_cons.mpr ⟨hl, hpre⟩) hj
  rw [List.filterMap_cons] at hne
  cases hs : significant l with
  | none => simpa [hs] using hne
  | some k' =>
    rw [hs] at hne
    simp only [List.length_cons, Option.toList_some, List.length_nil] at hne ⊢
    omega

/-- The lines of the file are in the cache, or caching has been given up. -/
def Caches (cf : CachedFile) (lines : List CachedLine) (s : FileState) (o : Outcome) : Prop :=
  ∃ r t, o = .ret r t ∧
    (r = none → t.cachedFiles = { cf with cache := cf.cache ++ lines } :: s.cachedFiles)

theorem cacheLoop_spec (h0 : '\x00' ∉ text) (hpurge : env.purgeMode = false)
    (hun : Unread text s.lineNo s.fp raw) (hok : RawOk env.maxLineLength raw)
    (hend : CacheOk env.maxCachedLines cf.cache.length raw)
    (hcount : cf.cache.length ≤ env.maxCachedLines) (hn : raw.length < n) :
    Caches cf (sigLines raw) s (cacheLoop env false n cf s) := by
  induction n generalizing cf s raw with
  | zero => omega
  | succ n ih =>
    unfold cacheLoop
    split
    next hfp =>
      rw [hfp] at hun
      rw [hun.of_none, sigLines_nil]
      exact ⟨none, _, rfl, fun _ => by rw [List.append_nil]⟩
    next fp hfp =>
      rw [hfp] at hun
      obtain ⟨l, raw, rfl⟩ := List.exists_cons_of_ne_nil hun.nil_iff
      obtain ⟨t, hread, ht⟩ := readLineFromFile_spec h0 hpurge hfp hun hok
      have hfiles : t.cachedFiles = s.cachedFiles := by
        rw [(readLineFromFile_read hread).eq]
        rfl
      rw [List.length_cons] at hn
      simp only [hread, ht.curLine]
      have hnext := ht.unread
      by_cases heof : l.text = eofMark
      · rw [if_pos heof] at hnext ⊢
        rw [sigLines_eof heof, List.dropWhile_nil, if_pos (show isIgnored [] = true from rfl)]
        have hrec := @ih [] cf t hnext rawOk_nil (fun pre j hraw => absurd hraw (by simp)) hcount
          (by simp; omega)
        rwa [sigLines_nil, Caches, hfiles] at hrec
      · rw [if_neg heof] at hnext ⊢
        have hend' := hend.tail heof
        rw [sigLines_cons heof]
        cases hsig : significant l with
        | none =>
          have hignored : isIgnored (l.text.dropWhile isEmptyChar) = true := by
            by_contra h
            simp [significant, h] at hsig
          rw [hsig] at hend'
          rw [if_pos hignored]
          have hrec := ih hnext (hok.tail heof) hend' hcount (by omega)
          rwa [Caches, hfiles] at hrec
        | some k =>
          have hignored : ¬ isIgnored (l.text.dropWhile isEmptyChar) = true := by
            intro h
            simp [significant, h] at hsig
          have hk : k = ⟨l.text.dropWhile isEmptyChar, t.lineNo, t.lineNoStart⟩ := by
            rw [ht.lineNo, ht.lineNoStart]
            simpa [significant, hignored] using hsig.symm
          rw [hsig] at hend'
          rw [if_neg hignored]
          split_ifs with hmany
          · -- the file is still open where caching is given up
            have hopen : t.fp ≠ none := by
              intro hclosed
              rw [hclosed] at hnext
              have hone := hnext.of_none
              subst hone
              refine hend [] l rfl (by simpa using heof) (by simp [hsig]) ?_
              simp only [List.filterMap_nil, List.length_nil]
              omega
            obtain ⟨q, hq⟩ := Option.ne_none_iff_exists'.mp hopen
            simp only [FileState.fClose, hq]
            exact ⟨_, _, rfl, fun h => by cases h⟩
          · have hrec := @ih _ { cf with cache := cf.cache ++ [k] } t hnext (hok.tail heof)
              (by simpa using hend') (by simp; omega) (by omega)
            rw [Caches, hfiles, hk] at hrec
            simpa [Caches, hk] using hrec

/-- **CacheFile** -/
theorem cacheFile_spec {fp : Stream} (h0 : '\x00' ∉ text) (hpurge : env.purgeMode = false)
    (hfp : s.fp = some fp) (hun : Unread text s.lineNo (some fp) raw)
    (hok : RawOk env.maxLineLength raw) (hend : CacheOk env.maxCachedLines 0 raw) :
    Caches (s.header fname) (sigLines raw) s (cacheFile env false fname s) := by
  have hlen := hun.length_le
  unfold cacheFile
  refine @cacheLoop_spec env text _ raw (s.header fname) s h0 hpurge (hfp ▸ hun) hok hend (Nat.zero_le _) ?_
  simp only [hfp, Option.map_some, Option.getD_some]
  omega

end Caching

end Remind.LineReader
