import Remind.ParseLevel
import Remind.ParsePtr

/-!
# Escape — quoted text and its two readers (funcs.c: `FEscape`; trans.c:
# `print_escaped_string_helper`)

`quotedToken` reads the strings of expressions and `quotedLoop` those of commands.  What the
writers put between quotes, both read as the string it was made from.
-/

namespace Remind

/-! ### The writers -/

/-- A hexadecimal digit as `%02x` prints it. -/
def hexChar (n : ℕ) : Char := Char.ofNat (if n < 10 then 48 + n else 87 + n)

/-- The characters that have an escape of one letter, with the letter. -/
def namedEscapes : List (Char × Char) :=
  [('\x07', 'a'), ('\x08', 'b'), ('\x0c', 'f'), ('\n', 'n'), ('\r', 'r'), ('\t', 't'), ('\x0b', 'v'),
    ('\\', '\\'), ('"', '"')]

/-- `(*s > 0 && *s < ' ') || *s == 0x7f` -/
def isControl (c : Char) : Bool := (0 < c.toNat && c.toNat < 32) || c.toNat = 127

/-- The `switch` over the characters of a string, in both writers; the strings have no zero. -/
def escapedChar (c : Char) : List Char :=
  match namedEscapes.lookup c with
  | some l => ['\\', l]
  | none =>
    if isControl c then ['\\', 'x', hexChar (c.toNat / 16), hexChar (c.toNat % 16)] else [c]

/-- `escape(s, include_quotes)` -/
def fEscape (s : List Char) (includeQuotes : Bool) : List Char :=
  if includeQuotes then '"' :: s.flatMap escapedChar ++ ['"'] else s.flatMap escapedChar

example : fEscape "a\"\n\x01f".toList true = "\"a\\\"\\n\\x01f\"".toList := by decide +kernel

/-! ### What an escaped character looks like -/

/-- A character as it is written: itself, behind a backslash, or by its number. -/
inductive Written (c : Char) : List Char → Prop
  | plain : c ≠ '\\' → c ≠ '"' → isControl c = false → Written c [c]
  | letter (l : Char) : letterEscape l = c → l ≠ 'x' → isControl l = false → Written c ['\\', l]
  | hex (h h' : Char) : isHexDigit h = true → isHexDigit h' = true →
      hexbufVal [h, h'] = c.toNat → c.toNat ≠ 0 → Written c ['\\', 'x', h, h']

theorem namedEscapes_spec : ∀ p ∈ namedEscapes,
    letterEscape p.2 = p.1 ∧ p.2 ≠ 'x' ∧ isControl p.2 = false := by decide

theorem hexChar_spec : ∀ n < 128, isHexDigit (hexChar (n / 16)) = true ∧
    isHexDigit (hexChar (n % 16)) = true ∧ hexbufVal [hexChar (n / 16), hexChar (n % 16)] = n := by
  decide +kernel

theorem escapedChar_written {c : Char} (hc : c ≠ '\x00') : Written c (escapedChar c) := by
  unfold escapedChar
  cases hl : namedEscapes.lookup c with
  | some l =>
    obtain ⟨l₁, l₂, hsplit, -⟩ := List.lookup_eq_some_iff.mp hl
    obtain ⟨h1, h2, h3⟩ := namedEscapes_spec (c, l) (by simp [hsplit])
    exact .letter l h1 h2 h3
  | none =>
    simp only
    split_ifs with hctl
    · have hlt : c.toNat < 128 := by
        simp only [isControl, Bool.or_eq_true, Bool.and_eq_true, decide_eq_true_eq] at hctl
        omega
      obtain ⟨h1, h2, h3⟩ := hexChar_spec _ hlt
      refine .hex _ _ h1 h2 h3 fun h0 => hc ?_
      rw [← Char.ofNat_toNat c, h0]
    · refine .plain ?_ ?_ (by simpa using hctl)
      · rintro rfl
        exact absurd hl (by decide)
      · rintro rfl
        exact absurd hl (by decide)

/-! ### The strings of expressions -/

section Expressions

variable {c : Char} {s w rest : List Char}

theorem putHex_written {h h' : Char} (hv : hexbufVal [h, h'] = c.toNat) (h0 : c.toNat ≠ 0)
    (r : Except ErrCode (List Char × List Char)) : putHex [h, h'] r = putc c r := by
  rw [putHex, if_neg (by rw [hv]; exact h0), hv, Char.ofNat_toNat]

/-- An escaped character is read as the character; the readers go on behind it. -/
theorem quotedToken_written (hw : Written c w) (d : Char) :
    ∃ d', quotedToken d (w ++ rest) = putc c (quotedToken d' rest) := by
  cases hw with
  | plain h1 h2 h3 =>
    refine ⟨c, ?_⟩
    rw [List.singleton_append, quotedToken.eq_def]
    simp only
    rw [if_neg h1, if_neg h2]
  | letter l h1 h2 h3 =>
    refine ⟨d, ?_⟩
    show quotedToken d ('\\' :: l :: rest) = _
    rw [quotedToken.eq_def]
    simp only
    rw [if_pos trivial, if_neg h2, h1]
  | hex h h' h1 h2 h3 h4 =>
    refine ⟨d, ?_⟩
    show quotedToken d ('\\' :: 'x' :: h :: h' :: rest) = _
    rw [quotedToken.eq_def]
    simp only [h1, h2, if_true, Bool.not_true, Bool.false_eq_true, if_false]
    exact putHex_written h3 h4 _

/-- The reader of expressions takes an escaped string up to its quote. -/
theorem quotedToken_escaped (hs : ∀ c ∈ s, c ≠ '\x00') (d : Char) :
    quotedToken d (s.flatMap escapedChar ++ '"' :: rest) = .ok (s ++ ['"'], rest) := by
  induction s generalizing d with
  | nil =>
    rw [List.flatMap_nil, List.nil_append, quotedToken.eq_def]
    simp only
    rw [if_neg (by decide), if_pos trivial]
    rfl
  | cons c s ih =>
    rw [List.forall_mem_cons] at hs
    rw [List.flatMap_cons, List.append_assoc]
    obtain ⟨d', hd'⟩ := @quotedToken_written c _ (s.flatMap escapedChar ++ '"' :: rest)
      (escapedChar_written hs.1) d
    rw [hd', ih hs.2]
    rfl

theorem parseExprToken_quoted (sep : Char) (hs : ∀ c ∈ s, c ≠ '\x00') :
    parseExprToken sep (fEscape s true) = .ok ('"' :: s ++ ['"'], []) := by
  have hskip : (fEscape s true).dropWhile isEmptyChar =
      '"' :: (s.flatMap escapedChar ++ ['"']) := rfl
  have hne : s.flatMap escapedChar ++ ['"'] ≠ [] := by simp
  unfold parseExprToken
  rw [hskip]
  dsimp only
  rw [if_neg (by decide), if_neg (by decide), if_neg (by decide), if_pos rfl, if_neg hne,
    quotedToken_escaped hs]
  rfl

theorem makeAtom_quoted (env : ParserEnv) (locals : List (List Char)) (s : List Char) :
    makeAtom env locals ('"' :: s ++ ['"']) = .ok (.const (.str (String.ofList s))) := by
  rw [List.cons_append]
  unfold makeAtom
  dsimp only
  rw [if_neg (by decide), if_neg (by simp)]
  show (Except.ok (Value.str (String.ofList (s ++ ['"']).dropLast))).map Expr.const = _
  rw [List.dropLast_concat]
  rfl

end Expressions

/-! ### The strings of commands -/

section Commands

variable {σ : Type} {env : PasteEnv σ} {t : PtrState σ} {c : Char} {s w rest dbuf : List Char}
  {n : ℕ}

/-- The parser reads on behind the character `c`. -/
theorem bind_parseChar {α : Type} {f : Option Char → PtrM σ α} (h : t.Literal)
    (hpos : t.ptr.pos = c :: rest) (peek : Bool) :
    (parseChar env peek >>= f) t = f (some c) (if peek then t else t.moveTo rest) :=
  Lib.bind_ok (parseChar_literal h hpos peek)

theorem PtrState.Literal.tail (h : t.Literal) (hpos : t.ptr.pos = c :: rest) :
    (t.moveTo rest).Literal :=
  h.moveTo (by rw [hpos]; exact List.subset_cons_self c rest)

theorem quotedEscape_letter (h : t.Literal) (hpos : t.ptr.pos = c :: rest) (hc : c ≠ 'x') :
    quotedEscape env t = .ok (letterEscape c) (t.moveTo rest) := by
  unfold quotedEscape
  rw [bind_parseChar h hpos]
  simp only [hc, if_false, Bool.false_eq_true]
  rfl

theorem hexEscape_eq {hexbuf : List Char} (hv : hexbufVal hexbuf = c.toNat) (h0 : c.toNat ≠ 0) :
    (hexEscape hexbuf : PtrM σ Char) = pure c := by
  unfold hexEscape
  rw [if_neg (by rw [hv]; exact h0), hv, Char.ofNat_toNat]

theorem quotedEscape_hex {h₁ h₂ : Char} (h : t.Literal) (hpos : t.ptr.pos = 'x' :: h₁ :: h₂ :: rest)
    (hx₁ : isHexDigit h₁ = true) (hx₂ : isHexDigit h₂ = true) (hv : hexbufVal [h₁, h₂] = c.toNat)
    (h0 : c.toNat ≠ 0) : quotedEscape env t = .ok c (t.moveTo rest) := by
  have h1 := h.tail hpos
  have hpos1 : (t.moveTo (h₁ :: h₂ :: rest)).ptr.pos = h₁ :: h₂ :: rest := rfl
  have hpos2 : (t.moveTo (h₂ :: rest)).ptr.pos = h₂ :: rest := rfl
  have h2 := h1.tail hpos1
  have hd₁ : isHexDigitAt (some h₁) = true := hx₁
  have hd₂ : isHexDigitAt (some h₂) = true := hx₂
  unfold quotedEscape
  rw [bind_parseChar h hpos]
  simp only [if_true, Bool.false_eq_true, if_false]
  rw [bind_parseChar h1 hpos1]
  simp only [hd₁, Bool.not_true, Bool.false_eq_true, if_false, if_true]
  rw [bind_parseChar h1 hpos1]
  simp only [Bool.false_eq_true, if_false]
  rw [bind_parseChar h2 hpos2]
  simp only [hd₂, if_true]
  rw [bind_parseChar h2 hpos2]
  rw [show (some h₁).toList ++ (some h₂).toList = [h₁, h₂] from rfl, hexEscape_eq hv h0]
  rfl

theorem quotedLoop_quote : quotedLoop env (n + 1) (some '"') dbuf = pure dbuf := rfl

theorem quotedLoop_plain (h1 : c ≠ '\\') (h2 : c ≠ '"') :
    quotedLoop env (n + 1) (some c) dbuf =
      parseChar env false >>= fun ch => quotedLoop env n ch (dbuf ++ [c]) := by
  rw [quotedLoop]
  simp only [h1, h2, if_false]
  rfl

theorem quotedLoop_backslash :
    quotedLoop env (n + 1) (some '\\') dbuf =
      quotedEscape env >>= fun d =>
        parseChar env false >>= fun ch => quotedLoop env n ch (dbuf ++ [d]) := rfl

/-- The text `w` stands for the character `c` in a quoted string. -/
theorem quotedLoop_written (h : t.Literal) (hpos : t.ptr.pos = w ++ rest) (hw : Written c w) :
    (parseChar env false >>= fun ch => quotedLoop env (n + 1) ch dbuf) t =
      (parseChar env false >>= fun ch => quotedLoop env n ch (dbuf ++ [c])) (t.moveTo rest) := by
  cases hw with
  | plain h1 h2 h3 =>
    rw [bind_parseChar h hpos, quotedLoop_plain h1 h2]
    rfl
  | letter l h1 h2 h3 =>
    rw [bind_parseChar h hpos, quotedLoop_backslash]
    exact Lib.bind_ok (h1 ▸ quotedEscape_letter (h.tail hpos) rfl h2)
  | hex h₁ h₂ hx₁ hx₂ hv h0 =>
    rw [bind_parseChar h hpos, quotedLoop_backslash]
    exact Lib.bind_ok (quotedEscape_hex (h.tail hpos) rfl hx₁ hx₂ hv h0)

/-- The reader of commands takes an escaped string up to its quote. -/
theorem quotedLoop_escaped (hs : ∀ c ∈ s, c ≠ '\x00') (h : t.Literal)
    (hpos : t.ptr.pos = s.flatMap escapedChar ++ '"' :: rest) (hn : s.length < n) :
    (parseChar env false >>= fun ch => quotedLoop env n ch dbuf) t = .ok (dbuf ++ s) (t.moveTo rest) := by
  induction s generalizing t dbuf n with
  | nil =>
    obtain ⟨n, rfl⟩ := Nat.exists_eq_succ_of_ne_zero (show n ≠ 0 by omega)
    rw [bind_parseChar h hpos, quotedLoop_quote, List.append_nil]
    rfl
  | cons c s ih =>
    obtain ⟨n, rfl⟩ := Nat.exists_eq_succ_of_ne_zero (show n ≠ 0 by omega)
    rw [List.forall_mem_cons] at hs
    rw [List.flatMap_cons, List.append_assoc] at hpos
    rw [List.length_cons] at hn
    have hsub : s.flatMap escapedChar ++ '"' :: rest ⊆ t.ptr.pos := by
      rw [hpos]
      exact List.subset_append_right _ _
    rw [quotedLoop_written h hpos (escapedChar_written hs.1),
      ih hs.2 (h.moveTo hsub) rfl (by omega), List.append_assoc]
    rfl

theorem nonSpaceLoop_literal {blanks : List Char} (h : t.Literal)
    (hpos : t.ptr.pos = blanks ++ c :: rest) (hb : ∀ b ∈ blanks, isEmptyChar b = true)
    (hc : isEmptyChar c = false) (hn : blanks.length < n) :
    (parseChar env true >>= fun ch => nonSpaceLoop env n ch) t =
      .ok (some c) (t.moveTo (c :: rest)) := by
  induction blanks generalizing t n with
  | nil =>
    obtain ⟨n, rfl⟩ := Nat.exists_eq_succ_of_ne_zero (show n ≠ 0 by omega)
    have hstop : ¬ isEmptyAt (some c) = true := by
      show ¬ isEmptyChar c = true
      rw [hc]
      decide
    rw [bind_parseChar h hpos, nonSpaceLoop]
    simp only [hstop, if_true]
    rw [List.nil_append] at hpos
    rw [← hpos]
    rfl
  | cons b blanks ih =>
    obtain ⟨n, rfl⟩ := Nat.exists_eq_succ_of_ne_zero (show n ≠ 0 by omega)
    rw [List.forall_mem_cons] at hb
    rw [List.length_cons] at hn
    have hgo : isEmptyAt (some b) = true := hb.1
    rw [bind_parseChar h hpos, nonSpaceLoop]
    simp only [hgo, if_true]
    rw [bind_parseChar h hpos]
    exact ih (h.tail hpos) rfl hb.2 (by omega)

/-- White space is skipped up to the next character. -/
theorem parseNonSpaceChar_literal {blanks : List Char} (h : t.Literal)
    (hpos : t.ptr.pos = blanks ++ c :: rest) (hb : ∀ b ∈ blanks, isEmptyChar b = true)
    (hc : isEmptyChar c = false) (hn : blanks.length < n) (peek : Bool) :
    parseNonSpaceChar env n peek t =
      .ok (some c) (t.moveTo (if peek then c :: rest else rest)) := by
  have hmove : (t.moveTo (c :: rest)).Literal := h.moveTo (by
    rw [hpos]
    exact List.subset_append_right _ _)
  have hloop := @nonSpaceLoop_literal _ env _ _ _ _ _ h hpos hb hc hn
  have hassoc : parseNonSpaceChar env n peek =
      (parseChar env true >>= fun ch => nonSpaceLoop env n ch) >>=
        fun ch => if peek then pure ch else parseChar env false := by
    unfold parseNonSpaceChar
    simp only [bind_assoc]
  rw [hassoc, Lib.bind_ok hloop]
  cases peek with
  | true => rfl
  | false => exact parseChar_literal hmove rfl false

/-- **ParseQuotedString** takes an escaped string, in quotes and behind white space. -/
theorem parseQuotedString_escaped {blanks : List Char} (hs : ∀ c ∈ s, c ≠ '\x00') (h : t.Literal)
    (hpos : t.ptr.pos = blanks ++ fEscape s true ++ rest)
    (hb : ∀ b ∈ blanks, isEmptyChar b = true) (hn : blanks.length < n ∧ s.length < n) :
    parseQuotedString env n t = .ok s (t.moveTo rest) := by
  have hpos' : t.ptr.pos = blanks ++ '"' :: (s.flatMap escapedChar ++ '"' :: rest) := by
    rw [hpos]
    simp [fEscape]
  have hmove : (t.moveTo (s.flatMap escapedChar ++ '"' :: rest)).Literal := h.moveTo (by
    rw [hpos']
    exact List.subset_append_of_subset_right _ (List.subset_cons_self _ _))
  unfold parseQuotedString
  rw [Lib.bind_ok (parseNonSpaceChar_literal h hpos' hb (by decide) hn.1 false)]
  simp only [ne_eq, not_true_eq_false, if_false]
  exact @quotedLoop_escaped _ env _ _ _ [] _ hs hmove rfl hn.2

end Commands

/-! ### What stands between the quotes -/

section Body

variable {s : List Char}

/-- How many backslashes stand at the end of a text. -/
def backslashesAt (pre : List Char) : ℕ := (pre.reverse.takeWhile (· = '\\')).length

theorem backslashesAt_backslash (pre : List Char) :
    backslashesAt (pre ++ ['\\']) = backslashesAt pre + 1 := by
  simp [backslashesAt]

theorem backslashesAt_other (pre : List Char) {c : Char} (hc : c ≠ '\\') :
    backslashesAt (pre ++ [c]) = 0 := by
  simp [backslashesAt, hc]

theorem hexDigit_plain {h : Char} (hx : isHexDigit h = true) :
    h ≠ '\\' ∧ h ≠ '"' ∧ isControl h = false := by
  have hlo : 48 ≤ h.toNat ∧ h.toNat ≤ 102 ∧ h.toNat ≠ 92 := by
    simp only [isHexDigit, Char.isDigit, Bool.or_eq_true, Bool.and_eq_true, decide_eq_true_eq] at hx
    rcases hx with (⟨h1, h2⟩ | ⟨h1, h2⟩) | ⟨h1, h2⟩
    · have h1' : 48 ≤ h.toNat := h1
      have h2' : h.toNat ≤ 57 := h2
      omega
    · have h1' : 97 ≤ h.toNat := h1
      have h2' : h.toNat ≤ 102 := h2
      omega
    · have h1' : 65 ≤ h.toNat := h1
      have h2' : h.toNat ≤ 70 := h2
      omega
  refine ⟨?_, ?_, ?_⟩
  · rintro rfl
    exact hlo.2.2 rfl
  · rintro rfl
    exact absurd hlo.1 (by decide)
  · simp only [isControl, Bool.or_eq_false_iff, Bool.and_eq_false_iff, decide_eq_false_iff_not]
    omega

/-- No character is written as a control character. -/
theorem Written.no_control {c d : Char} {w : List Char} (hw : Written c w) (hd : d ∈ w) :
    isControl d = false := by
  cases hw with
  | plain h1 h2 h3 => rwa [List.mem_singleton.mp hd]
  | letter l h1 h2 h3 =>
    simp only [List.mem_cons, List.not_mem_nil, or_false] at hd
    rcases hd with rfl | rfl
    · decide
    · exact h3
  | hex h h' h1 h2 h3 h4 =>
    simp only [List.mem_cons, List.not_mem_nil, or_false] at hd
    rcases hd with rfl | rfl | rfl | rfl
    · decide
    · decide
    · exact (hexDigit_plain h1).2.2
    · exact (hexDigit_plain h2).2.2

theorem Written.no_zero {c d : Char} {w : List Char} (hw : Written c w) (hd : d ∈ w)
    (hc : c ≠ '\x00') : d ≠ '\x00' := by
  rintro rfl
  cases hw with
  | plain h1 h2 h3 => exact hc (List.mem_singleton.mp hd).symm
  | letter l h1 h2 h3 =>
    simp only [List.mem_cons, List.not_mem_nil, or_false] at hd
    rcases hd with hd | rfl
    · exact absurd hd (by decide)
    · exact hc (h1.symm.trans (by decide))
  | hex h h' h1 h2 h3 h4 =>
    simp only [List.mem_cons, List.not_mem_nil, or_false] at hd
    rcases hd with hd | hd | rfl | rfl
    · exact absurd hd (by decide)
    · exact absurd hd (by decide)
    · exact absurd h1 (by decide)
    · exact absurd h2 (by decide)

/-- A quote among what is written for a character stands behind one backslash, and behind the whole
of it the backslashes pair up again. -/
theorem Written.backslashes {c : Char} {w : List Char} (hw : Written c w) {q : List Char}
    (hq : Even (backslashesAt q)) :
    Even (backslashesAt (q ++ w)) ∧
      ∀ pre post, w = pre ++ '"' :: post → Odd (backslashesAt (q ++ pre)) := by
  cases hw with
  | plain h1 h2 h3 =>
    refine ⟨by rw [backslashesAt_other q h1]; exact Even.zero, fun pre post h => ?_⟩
    rcases List.cons_eq_append_iff.mp h with ⟨rfl, hh⟩ | ⟨pre', rfl, hh⟩
    · exact absurd (List.cons.inj hh).1.symm h2
    · exact absurd hh (by simp)
  | letter l h1 h2 h3 =>
    have hsplit : q ++ ['\\', l] = (q ++ ['\\']) ++ [l] := by simp
    have hodd : Odd (backslashesAt (q ++ ['\\'])) := by
      rw [backslashesAt_backslash]
      exact hq.add_one
    refine ⟨?_, fun pre post h => ?_⟩
    · rw [hsplit]
      by_cases hl : l = '\\'
      · rw [hl, backslashesAt_backslash]
        exact hodd.add_one
      · rw [backslashesAt_other _ hl]
        exact Even.zero
    · rcases List.cons_eq_append_iff.mp h with ⟨rfl, hh⟩ | ⟨pre', rfl, hh⟩
      · exact absurd (List.cons.inj hh).1 (by decide)
      · rcases List.cons_eq_append_iff.mp hh with ⟨rfl, hh'⟩ | ⟨pre'', rfl, hh'⟩
        · exact hodd
        · exact absurd hh' (by simp)
  | hex h h' h1 h2 h3 h4 =>
    have hsplit : q ++ ['\\', 'x', h, h'] = (q ++ ['\\', 'x', h]) ++ [h'] := by simp
    refine ⟨?_, fun pre post hh => ?_⟩
    · rw [hsplit, backslashesAt_other _ (hexDigit_plain h2).1]
      exact Even.zero
    · have hmem : '"' ∈ ['\\', 'x', h, h'] := by
        rw [hh]
        simp
      simp only [List.mem_cons, List.not_mem_nil, or_false] at hmem
      rcases hmem with hm | hm | hm | hm
      · exact absurd hm (by decide)
      · exact absurd hm (by decide)
      · exact absurd hm.symm (hexDigit_plain h1).2.1
      · exact absurd hm.symm (hexDigit_plain h2).2.1

/-- Every quote in an escaped string stands behind an odd number of backslashes. -/
theorem escaped_quote (hs : ∀ c ∈ s, c ≠ '\x00') {q pre post : List Char}
    (hq : Even (backslashesAt q)) (h : s.flatMap escapedChar = pre ++ '"' :: post) :
    Odd (backslashesAt (q ++ pre)) := by
  induction s generalizing q pre with
  | nil => exact absurd h (by simp)
  | cons c s ih =>
    rw [List.forall_mem_cons] at hs
    obtain ⟨heven, hin⟩ := (escapedChar_written hs.1).backslashes hq
    rw [List.flatMap_cons] at h
    rcases List.append_eq_append_iff.mp h with ⟨as, rfl, hh⟩ | ⟨bs, hh, hh'⟩
    · have := ih hs.2 heven hh
      rwa [List.append_assoc] at this
    · cases bs with
      | nil =>
        rw [List.append_nil] at hh
        have := @ih hs.2 _ [] heven (by simpa using hh'.symm)
        rwa [List.append_nil, hh] at this
      | cons b bs =>
        obtain ⟨rfl, rfl⟩ := List.cons.inj hh'
        exact hin pre bs hh

end Body

/-! ### The way there and back -/

section ReadBack

variable {s : List Char}

theorem parseExpression_escaped (c : ParseCall) (g : ParserGlobals) (hs : ∀ ch ∈ s, ch ≠ '\x00')
    (hd : c.env.disabled = false) (htext : c.text = fEscape s true) :
    (c.run g).1 = .ok (.const (.str (String.ofList s)), []) := by
  refine c.run_token g hd (htext ▸ parseExprToken_quoted _ hs) ?_ ?_
    (makeAtom_quoted _ _ s) rfl rfl
  · exact ⟨'"', s ++ ['"'], rfl, by decide⟩
  · rw [List.getLast?_concat]
    decide

/-- The parser of a command's text with expression pasting off. -/
def unpastedParser (text : List Char) : ParserPtr :=
  { createParser text with allownested := false }

theorem parseQuotedString_unpasted {σ : Type} (env : PasteEnv σ) (world : σ)
    (hs : ∀ ch ∈ s, ch ≠ '\x00') {n : ℕ} (hn : s.length < n) :
    parseQuotedString env n ⟨unpastedParser (fEscape s true), world⟩ =
      .ok s ⟨unpastedParser [], world⟩ := by
  refine @parseQuotedString_escaped _ env _ _ [] _ [] hs ⟨rfl, rfl, Or.inl rfl⟩ ?_ ?_ ?_
  · simp [unpastedParser, createParser]
  · simp
  · exact ⟨Nat.zero_lt_of_lt hn, hn⟩

/-- **What `escape(s, 1)` writes reads as `s`**, in expressions and in commands; between its quotes
there is no control character, and every quote there is behind a backslash that escapes it. -/
theorem escape_readsBack (hs : ∀ ch ∈ s, ch ≠ '\x00') :
    (∀ (c : ParseCall) (g : ParserGlobals), c.env.disabled = false → c.text = fEscape s true →
      (c.run g).1 = .ok (.const (.str (String.ofList s)), [])) ∧
    (∃ body, fEscape s true = '"' :: body ++ ['"'] ∧
      (∀ d ∈ body, d ≠ '\x00' ∧ d ≠ '\n' ∧ isControl d = false) ∧
      ∀ pre post, body = pre ++ '"' :: post → Odd (backslashesAt pre)) ∧
    ∀ (σ : Type) (env : PasteEnv σ) (world : σ) (n : ℕ), s.length < n →
      parseQuotedString env n ⟨unpastedParser (fEscape s true), world⟩ =
        .ok s ⟨unpastedParser [], world⟩ := by
  refine ⟨fun c g => parseExpression_escaped c g hs, ⟨s.flatMap escapedChar, rfl, ?_, ?_⟩,
    fun σ env world n => parseQuotedString_unpasted env world hs⟩
  · intro d hd
    obtain ⟨c, hc, hdc⟩ := List.mem_flatMap.mp hd
    have hw := escapedChar_written (hs c hc)
    refine ⟨hw.no_zero hdc (hs c hc), ?_, hw.no_control hdc⟩
    rintro rfl
    exact absurd (hw.no_control hdc) (by decide)
  · intro pre post h
    exact escaped_quote (q := []) hs Even.zero h

theorem escape_readsBack_control : ∃ body,
    fEscape ['a', '"', '\n', '\x01', 'f', '\\'] true = '"' :: body ++ ['"'] ∧ '\n' ∉ body := by
  have hs : ∀ ch ∈ ['a', '"', '\n', '\x01', 'f', '\\'], ch ≠ '\x00' := by simp
  obtain ⟨body, hbody, hctl, -⟩ := (escape_readsBack hs).2.1
  exact ⟨body, hbody, fun hmem => (hctl _ hmem).2.1 rfl⟩

end ReadBack

end Remind
