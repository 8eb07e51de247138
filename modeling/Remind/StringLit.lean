import Remind.Escape

/-!
# StringLit — string literals and their two readers (expr.c: `parse_expr_token`,
# `set_constant_value`; main.c: `ParseQuotedString`)

`Quoted` says what the text behind a double quote stands for, character by character.  Both readers
take it, and the reader of expressions takes nothing else but a text of escapes that no quote closes:
it tells by the last character that was not escaped whether there was one.
-/

namespace Remind

/-! ### What stands behind a quote -/

/-- What the text behind a double quote begins with: a character, and whether it is escaped; the
closing quote; `\x00`; or no whole character. -/
inductive Piece where
  | char (c : Char) (escaped : Bool) (rest : List Char)
  | close (rest : List Char)
  | zero
  | cut

/-- The digits of a `\x` escape, two at most. -/
def hexDigits (s : List Char) : List Char := (s.takeWhile isHexDigit).take 2

def nextPiece : List Char → Piece
  | [] => .cut
  | c :: s =>
    if c = '"' then .close s
    else if c ≠ '\\' then .char c false s
    else match s with
      | [] => .cut
      | e :: s =>
        if e ≠ 'x' then .char (letterEscape e) true s
        else if hexDigits s = [] then .char 'x' true s
        else if hexbufVal (hexDigits s) = 0 then .zero
        else .char (Char.ofNat (hexbufVal (hexDigits s))) true (s.drop (hexDigits s).length)

/-- The text stands for `content`, up to the closing quote; `rest` is behind it. -/
inductive Quoted : List Char → List Char → List Char → Prop
  | close {s rest : List Char} : nextPiece s = .close rest → Quoted s [] rest
  | char {s s' content rest : List Char} {c : Char} {escaped : Bool} :
      nextPiece s = .char c escaped s' → Quoted s' content rest → Quoted s (c :: content) rest

/-- There is a `\x00` escape in the text before it is closed. -/
inductive HasZero : List Char → Prop
  | here {s : List Char} : nextPiece s = .zero → HasZero s
  | later {s s' : List Char} {c : Char} {escaped : Bool} :
      nextPiece s = .char c escaped s' → HasZero s' → HasZero s

/-- There is nothing but whole escapes in the text. -/
inductive OnlyEscapes : List Char → List Char → Prop
  | nil : OnlyEscapes [] []
  | escape {s s' content : List Char} {c : Char} :
      nextPiece s = .char c true s' → OnlyEscapes s' content → OnlyEscapes s (c :: content)

/-- There is a double quote in the text that is not behind an odd run of backslashes. -/
def Closed (s : List Char) : Prop :=
  ∃ body rest, s = body ++ '"' :: rest ∧ Even (backslashesAt body)

/-- How a character is written: itself, or behind a backslash as a letter or by its number of one or
two digits.  `next` is the text behind it, which decides where the digits end. -/
inductive Spelled (next : List Char) : Char → Bool → List Char → Prop
  | plain {c : Char} : c ≠ '"' → c ≠ '\\' → Spelled next c false [c]
  | letter {e : Char} : e ≠ 'x' → Spelled next (letterEscape e) true ['\\', e]
  | noDigit : isHexDigitAt next.head? = false → Spelled next 'x' true ['\\', 'x']
  | oneDigit {h : Char} : isHexDigit h = true → isHexDigitAt next.head? = false →
      hexbufVal [h] ≠ 0 → Spelled next (Char.ofNat (hexbufVal [h])) true ['\\', 'x', h]
  | twoDigits {h h' : Char} : isHexDigit h = true → isHexDigit h' = true →
      hexbufVal [h, h'] ≠ 0 → Spelled next (Char.ofNat (hexbufVal [h, h'])) true ['\\', 'x', h, h']

section Grammar

variable {s s' rest content w : List Char} {c d : Char} {escaped : Bool}

theorem hexDigits_none (hx : isHexDigitAt s.head? = false) : hexDigits s = [] := by
  cases s with
  | nil => rfl
  | cons h s =>
    have hh : isHexDigit h = false := hx
    simp [hexDigits, hh]

theorem hexDigits_one {h : Char} (hx : isHexDigit h = true) (hs : isHexDigitAt s.head? = false) :
    hexDigits (h :: s) = [h] := by
  cases s with
  | nil => simp [hexDigits, hx]
  | cons h' s =>
    have hh : isHexDigit h' = false := hs
    simp [hexDigits, hx, hh]

theorem hexDigits_two {h h' : Char} (hx : isHexDigit h = true) (hx' : isHexDigit h' = true) :
    hexDigits (h :: h' :: s) = [h, h'] := by
  simp [hexDigits, hx, hx']

/-- A text has no digit, one or two in front. -/
theorem hexDigits_cases {P : List Char → Prop} (s : List Char)
    (none : ∀ s, isHexDigitAt s.head? = false → P s)
    (one : ∀ h s, isHexDigit h = true → isHexDigitAt s.head? = false → P (h :: s))
    (two : ∀ h h' s, isHexDigit h = true → isHexDigit h' = true → P (h :: h' :: s)) : P s := by
  rcases s with _ | ⟨h, s⟩
  · exact none [] rfl
  by_cases hx : isHexDigit h = true
  · rcases s with _ | ⟨h', s⟩
    · exact one h [] hx rfl
    by_cases hx' : isHexDigit h' = true
    · exact two h h' s hx hx'
    · exact one h (h' :: s) hx (by simpa [isHexDigitAt] using hx')
  · exact none (h :: s) (by simpa [isHexDigitAt] using hx)

theorem nextPiece_plain (h1 : c ≠ '"') (h2 : c ≠ '\\') : nextPiece (c :: s) = .char c false s := by
  unfold nextPiece
  dsimp only
  rw [if_neg h1, if_pos h2]

theorem nextPiece_letter (hc : c ≠ 'x') :
    nextPiece ('\\' :: c :: s) = .char (letterEscape c) true s := by
  unfold nextPiece
  dsimp only
  rw [if_neg (by decide), if_neg (by decide), if_pos hc]

theorem nextPiece_hex : nextPiece ('\\' :: 'x' :: s) =
    if hexDigits s = [] then .char 'x' true s
    else if hexbufVal (hexDigits s) = 0 then .zero
    else .char (Char.ofNat (hexbufVal (hexDigits s))) true (s.drop (hexDigits s).length) := rfl

theorem nextPiece_noDigit (hs : isHexDigitAt s.head? = false) :
    nextPiece ('\\' :: 'x' :: s) = .char 'x' true s := by
  rw [nextPiece_hex, hexDigits_none hs, if_pos rfl]

theorem nextPiece_oneDigit {h : Char} (hx : isHexDigit h = true)
    (hs : isHexDigitAt s.head? = false) : nextPiece ('\\' :: 'x' :: h :: s) =
      if hexbufVal [h] = 0 then .zero else .char (Char.ofNat (hexbufVal [h])) true s := by
  rw [nextPiece_hex, hexDigits_one hx hs, if_neg (by simp)]
  rfl

theorem nextPiece_twoDigits {h h' : Char} (hx : isHexDigit h = true) (hx' : isHexDigit h' = true) :
    nextPiece ('\\' :: 'x' :: h :: h' :: s) =
      if hexbufVal [h, h'] = 0 then .zero
      else .char (Char.ofNat (hexbufVal [h, h'])) true s := by
  rw [nextPiece_hex, hexDigits_two hx hx', if_neg (by simp)]
  rfl

/-- A text begins with nothing, a quote, a backslash and what it escapes, or another character. -/
theorem text_cases {P : List Char → Prop} (s : List Char) (nil : P []) (quote : ∀ s, P ('"' :: s))
    (plain : ∀ c s, c ≠ '"' → c ≠ '\\' → P (c :: s)) (lone : P ['\\'])
    (letter : ∀ c s, c ≠ 'x' → P ('\\' :: c :: s))
    (noDigit : ∀ s, isHexDigitAt s.head? = false → P ('\\' :: 'x' :: s))
    (oneDigit : ∀ h s, isHexDigit h = true → isHexDigitAt s.head? = false →
      P ('\\' :: 'x' :: h :: s))
    (twoDigits : ∀ h h' s, isHexDigit h = true → isHexDigit h' = true →
      P ('\\' :: 'x' :: h :: h' :: s)) : P s := by
  rcases s with _ | ⟨c, s⟩
  · exact nil
  by_cases h1 : c = '"'
  · exact h1 ▸ quote s
  by_cases h2 : c = '\\'
  · subst h2
    rcases s with _ | ⟨e, s⟩
    · exact lone
    by_cases hx : e = 'x'
    · subst hx
      exact hexDigits_cases s noDigit oneDigit twoDigits
    · exact letter e s hx
  · exact plain c s h1 h2

/-- What a text is, told by its first piece. -/
inductive PieceView : List Char → Piece → Prop
  | nil : PieceView [] .cut
  | lone : PieceView ['\\'] .cut
  | quote (s : List Char) : PieceView ('"' :: s) (.close s)
  | char {s w : List Char} {c : Char} {escaped : Bool} :
      Spelled s c escaped w → PieceView (w ++ s) (.char c escaped s)
  | zero (s : List Char) : PieceView s .zero

theorem nextPiece_view (s : List Char) : PieceView s (nextPiece s) := by
  induction s using text_cases with
  | nil => exact .nil
  | quote s => exact .quote s
  | plain c s h1 h2 =>
    rw [nextPiece_plain h1 h2]
    exact .char (.plain h1 h2)
  | lone => exact .lone
  | letter c s hc =>
    rw [nextPiece_letter hc]
    exact .char (.letter hc)
  | noDigit s hs =>
    rw [nextPiece_noDigit hs]
    exact .char (.noDigit hs)
  | oneDigit h s hx hs =>
    rw [nextPiece_oneDigit hx hs]
    split_ifs with h0
    · exact .zero _
    · exact .char (.oneDigit hx hs h0)
  | twoDigits h h' s hx hx' =>
    rw [nextPiece_twoDigits hx hx']
    split_ifs with h0
    · exact .zero _
    · exact .char (.twoDigits hx hx' h0)

theorem nextPiece_close (h : nextPiece s = .close rest) : s = '"' :: rest := by
  have hview := nextPiece_view s
  rw [h] at hview
  cases hview
  rfl

/-- A character of the text is spelled in front of the text behind it. -/
theorem nextPiece_spelled (h : nextPiece s = .char c escaped s') :
    ∃ w, s = w ++ s' ∧ Spelled s' c escaped w := by
  have hview := nextPiece_view s
  rw [h] at hview
  cases hview with
  | char hw => exact ⟨_, rfl, hw⟩

theorem nextPiece_shorter (h : nextPiece s = .char c escaped s') : s'.length < s.length := by
  obtain ⟨w, rfl, hw⟩ := nextPiece_spelled h
  have hpos : 0 < w.length := by cases hw <;> exact Nat.succ_pos _
  rw [List.length_append]
  omega

theorem nextPiece_cut (h : nextPiece s = .cut) : s = [] ∨ s = ['\\'] := by
  have hview := nextPiece_view s
  rw [h] at hview
  cases hview with
  | nil => exact Or.inl rfl
  | lone => exact Or.inr rfl

end Grammar

/-! ### The reader of expressions -/

section Tokens

variable {s s' rest content : List Char} {c d : Char} {escaped : Bool}

/-- What the reader of expressions does with the next piece. -/
def pieceToken (d : Char) (s : List Char) : Piece → Except ErrCode (List Char × List Char)
  | .cut => if s = [] ∧ d = '"' then .ok ([], []) else .error .missQuote
  | .close rest => .ok (['"'], rest)
  | .zero => .error .noMem
  | .char c escaped s' => putc c (quotedToken (if escaped then d else c) s')

theorem putHex_eq (hexbuf : List Char) (d : Char) (s t : List Char) :
    putHex hexbuf (quotedToken d s) = pieceToken d t
      (if hexbufVal hexbuf = 0 then .zero else .char (Char.ofNat (hexbufVal hexbuf)) true s) := by
  unfold putHex
  split_ifs <;> rfl

/-- The reader of expressions goes piece by piece. -/
theorem quotedToken_eq (d : Char) (s : List Char) :
    quotedToken d s = pieceToken d s (nextPiece s) := by
  induction s using text_cases with
  | nil =>
    rw [quotedToken.eq_def]
    simp [nextPiece, pieceToken]
  | quote s =>
    rw [quotedToken.eq_def]
    rfl
  | plain c s h1 h2 =>
    rw [quotedToken.eq_def, nextPiece_plain h1 h2]
    simp only [h1, h2, if_false]
    rfl
  | lone => rfl
  | letter c s hc =>
    rw [quotedToken.eq_def, nextPiece_letter hc]
    simp only [hc, if_true, if_false]
    rfl
  | noDigit s hs =>
    rw [nextPiece_noDigit hs, quotedToken.eq_def]
    rcases s with _ | ⟨h, _ | ⟨h', s⟩⟩
    · rfl
    · have hh : isHexDigit h = false := hs
      simp only [if_true, hh, Bool.false_eq_true, if_false]
      rfl
    · have hh : isHexDigit h = false := hs
      simp only [if_true, hh, Bool.not_false]
      rfl
  | oneDigit h s hx hs =>
    rw [nextPiece_oneDigit hx hs, quotedToken.eq_def]
    rcases s with _ | ⟨h', s⟩
    · simp only [if_true, hx]
      exact putHex_eq _ _ _ _
    · have hh : isHexDigit h' = false := hs
      simp only [if_true, hx, hh, Bool.not_true, Bool.false_eq_true, if_false]
      exact putHex_eq _ _ _ _
  | twoDigits h h' s hx hx' =>
    rw [nextPiece_twoDigits hx hx', quotedToken.eq_def]
    simp only [if_true, hx, hx', Bool.not_true, Bool.false_eq_true, if_false]
    exact putHex_eq _ _ _ _

/-- By the pieces of a text, from its end. -/
theorem pieces_induction {P : List Char → Prop} (s : List Char)
    (cut : ∀ s, nextPiece s = .cut → P s)
    (close : ∀ s rest, nextPiece s = .close rest → P s)
    (zero : ∀ s, nextPiece s = .zero → P s)
    (char : ∀ s c escaped s', nextPiece s = .char c escaped s' → P s' → P s) : P s := by
  induction hl : s.length using Nat.strong_induction_on generalizing s with
  | _ n ih =>
    cases hp : nextPiece s with
    | cut => exact cut s hp
    | close rest => exact close s rest hp
    | zero => exact zero s hp
    | char c escaped s' =>
      exact char s c escaped s' hp (ih s'.length (hl ▸ nextPiece_shorter hp) s' rfl)

theorem quoted_char (h : nextPiece s = .char c escaped s') :
    (∃ content rest, Quoted s content rest) ↔ ∃ content rest, Quoted s' content rest := by
  constructor
  · rintro ⟨content, rest, hq⟩
    cases hq with
    | close hs => cases h.symm.trans hs
    | char hs hq =>
      cases h.symm.trans hs
      exact ⟨_, _, hq⟩
  · rintro ⟨content, rest, hq⟩
    exact ⟨_, _, .char h hq⟩

theorem hasZero_char (h : nextPiece s = .char c escaped s') : HasZero s ↔ HasZero s' := by
  refine ⟨fun hz => ?_, .later h⟩
  cases hz with
  | here hs => cases h.symm.trans hs
  | later hs hz =>
    cases h.symm.trans hs
    exact hz

theorem onlyEscapes_char (h : nextPiece s = .char c escaped s') :
    (∃ content, OnlyEscapes s content) ↔ escaped = true ∧ ∃ content, OnlyEscapes s' content := by
  constructor
  · rintro ⟨content, ho⟩
    cases ho with
    | nil => cases h
    | escape hs ho =>
      cases h.symm.trans hs
      exact ⟨rfl, _, ho⟩
  · rintro ⟨rfl, content, ho⟩
    exact ⟨_, .escape h ho⟩

theorem not_quoted (h : ∀ rest, nextPiece s ≠ .close rest)
    (h' : ∀ c escaped s', nextPiece s ≠ .char c escaped s') :
    ¬ ∃ content rest, Quoted s content rest := by
  rintro ⟨content, rest, hq⟩
  cases hq with
  | close hs => exact h _ hs
  | char hs hq => exact h' _ _ _ hs

/-- A text that is closed is not one of escapes alone. -/
theorem Quoted.not_onlyEscapes {content' : List Char} (hq : Quoted s content rest) :
    ¬ OnlyEscapes s content' := by
  induction hq generalizing content' with
  | close hs =>
    intro ho
    cases ho with
    | nil => cases hs
    | escape hs' ho => cases hs.symm.trans hs'
  | char hs hq ih =>
    intro ho
    cases ho with
    | nil => cases hs
    | escape hs' ho =>
      cases hs.symm.trans hs'
      exact ih ho

/-- A quoted text is read as what it stands for, up to the quote. -/
theorem Quoted.token (hq : Quoted s content rest) (d : Char) :
    quotedToken d s = .ok (content ++ ['"'], rest) := by
  induction hq generalizing d with
  | close hs => rw [quotedToken_eq, hs, pieceToken, List.nil_append]
  | char hs hq ih =>
    rw [quotedToken_eq, hs, pieceToken, ih]
    rfl

theorem putc_isOk (r : Except ErrCode (List Char × List Char)) :
    (∃ out, putc c r = .ok out) ↔ ∃ out, r = .ok out := by
  rcases r with e | ⟨buf, rest⟩
  · exact ⟨fun ⟨_, h⟩ => (by cases h), fun ⟨_, h⟩ => (by cases h)⟩
  · exact ⟨fun _ => ⟨_, rfl⟩, fun _ => ⟨_, rfl⟩⟩

/-- What the reader of expressions takes: what is closed, and a text of escapes that is not, for
then the last character read that was not escaped is the quote in front. -/
theorem quotedToken_isOk (d : Char) (s : List Char) :
    (∃ out, quotedToken d s = .ok out) ↔
      (∃ content rest, Quoted s content rest) ∨ (d = '"' ∧ ∃ content, OnlyEscapes s content) := by
  induction s using pieces_induction generalizing d with
  | cut s hs =>
    have hq : ¬ ∃ content rest, Quoted s content rest :=
      not_quoted (by simp [hs]) (by simp [hs])
    rw [quotedToken_eq, hs, pieceToken]
    by_cases hd : s = [] ∧ d = '"'
    · rw [if_pos hd]
      exact ⟨fun _ => Or.inr ⟨hd.2, [], hd.1 ▸ .nil⟩, fun _ => ⟨_, rfl⟩⟩
    · rw [if_neg hd]
      refine ⟨fun ⟨_, h⟩ => (by cases h), fun h => ?_⟩
      rcases h with h | ⟨rfl, content, ho⟩
      · exact absurd h hq
      · cases ho with
        | nil => exact absurd ⟨rfl, rfl⟩ hd
        | escape hs' ho => cases hs.symm.trans hs'
  | close s rest hs =>
    rw [quotedToken_eq, hs, pieceToken]
    exact ⟨fun _ => Or.inl ⟨_, _, .close hs⟩, fun _ => ⟨_, rfl⟩⟩
  | zero s hs =>
    rw [quotedToken_eq, hs, pieceToken]
    refine ⟨fun ⟨_, h⟩ => (by cases h), fun h => ?_⟩
    rcases h with h | ⟨-, content, ho⟩
    · exact absurd h (not_quoted (by simp [hs]) (by simp [hs]))
    · cases ho with
      | nil => cases hs
      | escape hs' ho => cases hs.symm.trans hs'
  | char s c escaped s' hs ih =>
    rw [quotedToken_eq, hs, pieceToken, putc_isOk, ih, quoted_char hs, onlyEscapes_char hs]
    cases escaped with
    | true => simp
    | false =>
      obtain ⟨w, -, hw⟩ := nextPiece_spelled hs
      have hc : c ≠ '"' := by
        cases hw with
        | plain h1 h2 => exact h1
      simp [hc]

end Tokens

/-! ### The quote that closes -/

section Closing

variable {s s' rest content w body : List Char} {c d : Char} {escaped : Bool}

/-- Behind a text with backslashes in pairs the backslashes count as they would without it. -/
theorem backslashesAt_append (hw : Even (backslashesAt w)) :
    Even (backslashesAt (w ++ body)) ↔ Even (backslashesAt body) := by
  induction body using List.reverseRecOn with
  | nil =>
    rw [List.append_nil]
    exact ⟨fun _ => Even.zero, fun _ => hw⟩
  | append_singleton body c ih =>
    rw [← List.append_assoc]
    by_cases hc : c = '\\'
    · subst hc
      rw [backslashesAt_backslash, backslashesAt_backslash, Nat.even_add_one, Nat.even_add_one, ih]
    · rw [backslashesAt_other _ hc, backslashesAt_other _ hc]

/-- The backslashes of what stands for a character pair up. -/
theorem Spelled.backslashes (hw : Spelled s' c escaped w) : Even (backslashesAt w) := by
  cases hw with
  | plain h1 h2 => exact backslashesAt_other [] h2 ▸ Even.zero
  | @letter e h =>
    rw [show ['\\', e] = ['\\'] ++ [e] from rfl]
    by_cases he : e = '\\'
    · subst he
      decide
    · rw [backslashesAt_other _ he]
      exact Even.zero
  | noDigit hs => decide
  | @oneDigit h hx hs h0 =>
    rw [show ['\\', 'x', h] = ['\\', 'x'] ++ [h] from rfl,
      backslashesAt_other _ (hexDigit_plain hx).1]
    exact Even.zero
  | @twoDigits h h' hx hx' h0 =>
    rw [show ['\\', 'x', h, h'] = ['\\', 'x', h] ++ [h'] from rfl,
      backslashesAt_other _ (hexDigit_plain hx').1]
    exact Even.zero

/-- A quote in what stands for a character is behind one backslash. -/
theorem Spelled.quote {pre post : List Char} (hw : Spelled s' c escaped w)
    (h : w = pre ++ '"' :: post) : pre = ['\\'] := by
  have hmem : '"' ∈ w := by
    rw [h]
    exact List.mem_append_right pre List.mem_cons_self
  cases hw with
  | plain h1 h2 => exact absurd (List.mem_singleton.mp hmem).symm h1
  | letter he =>
    rcases pre with _ | ⟨a, _ | ⟨b, pre⟩⟩
    · exact absurd (List.cons.inj h).1 (by decide)
    · rw [(List.cons.inj h).1]
    · simp at h
  | noDigit hs => exact absurd hmem (by decide)
  | oneDigit hx hs h0 =>
    have hne := (hexDigit_plain hx).2.1.symm
    simp [hne] at hmem
  | twoDigits hx hx' h0 =>
    have hne := (hexDigit_plain hx).2.1.symm
    have hne' := (hexDigit_plain hx').2.1.symm
    simp [hne, hne'] at hmem

theorem closed_char (hw : Spelled s' c escaped w) : Closed (w ++ s') ↔ Closed s' := by
  constructor
  · rintro ⟨body, rest, h, heven⟩
    rcases List.append_eq_append_iff.mp h with ⟨as, rfl, hs⟩ | ⟨bs, hw', hs⟩
    · exact ⟨as, rest, hs, (backslashesAt_append hw.backslashes).mp heven⟩
    · cases bs with
      | nil => exact ⟨[], rest, hs.symm, Even.zero⟩
      | cons b bs =>
        obtain ⟨rfl, -⟩ := List.cons.inj hs
        rw [hw.quote hw'] at heven
        exact absurd heven (by decide)
  · rintro ⟨body, rest, rfl, heven⟩
    exact ⟨w ++ body, rest, (List.append_assoc _ _ _).symm,
      (backslashesAt_append hw.backslashes).mpr heven⟩

/-- What is closed without `\x00` stands for something. -/
theorem quoted_iff_closed (s : List Char) :
    (∃ content rest, Quoted s content rest) ↔ Closed s ∧ ¬ HasZero s := by
  induction s using pieces_induction with
  | cut s hs =>
    refine ⟨fun h => absurd h (not_quoted (by simp [hs]) (by simp [hs])), ?_⟩
    rintro ⟨⟨body, rest, h, -⟩, -⟩
    have hmem : '"' ∈ s := by
      rw [h]
      exact List.mem_append_right body List.mem_cons_self
    rcases nextPiece_cut hs with rfl | rfl
    · exact absurd hmem (by decide)
    · exact absurd hmem (by decide)
  | close s rest hs =>
    refine ⟨fun _ => ⟨⟨[], rest, nextPiece_close hs, Even.zero⟩, fun hz => ?_⟩,
      fun _ => ⟨_, _, .close hs⟩⟩
    cases hz with
    | here hs' => cases hs.symm.trans hs'
    | later hs' hz => cases hs.symm.trans hs'
  | zero s hs =>
    exact ⟨fun h => absurd h (not_quoted (by simp [hs]) (by simp [hs])),
      fun h => absurd (.here hs) h.2⟩
  | char s c escaped s' hs ih =>
    obtain ⟨w, rfl, hw⟩ := nextPiece_spelled hs
    rw [quoted_char hs, hasZero_char hs, closed_char hw, ih]

end Closing

/-! ### The reader of commands -/

section Commands

variable {σ : Type} {env : PasteEnv σ} {t t' t₁ : PtrState σ} {s s' rest used content dbuf : List Char}
  {c : Char} {n : ℕ}

/-- `ParseChar` gives these characters one after the other: the text, with the values of the
expressions in brackets in their place. -/
inductive Delivers (env : PasteEnv σ) : PtrState σ → List Char → PtrState σ → Prop
  | nil (t : PtrState σ) : Delivers env t [] t
  | cons {t t₁ t' : PtrState σ} {c : Char} {s : List Char} :
      parseChar env false t = .ok (some c) t₁ → Delivers env t₁ s t' → Delivers env t (c :: s) t'

/-- Text without expressions is given as it stands. -/
theorem delivers_literal (h : t.Literal) (hpos : t.ptr.pos = s ++ rest) :
    Delivers env t s (t.moveTo rest) := by
  induction s generalizing t with
  | nil =>
    rw [List.nil_append] at hpos
    rw [← hpos]
    exact .nil t
  | cons c s ih => exact .cons (parseChar_literal h hpos false) (ih (h.tail hpos) rfl)

theorem pasteExpr_pushed {pos : List Char} {t₁ : PtrState σ}
    (h : pasteExpr env pos t = .ok () t₁) : t₁.ptr.pushed = t.ptr.pushed := by
  unfold pasteExpr at h
  dsimp only at h
  split at h
  · cases h
  · split at h
    · cases h
    · split_ifs at h
      cases h
      rfl

/-- A character that is there already is read again after it was looked at. -/
theorem peek_of_take {d : Char} {p : ParserPtr} (hp : t.ptr.pushed = [])
    (ht : ∀ n peek, parseCharLoop env peek (n + 1) t = t.take peek d p)
    (h : parseCharLoop env false (n + 1) t = .ok (some c) t') :
    ∃ t₁, parseCharLoop env true (n + 1) t = .ok (some c) t₁ ∧
      parseChar env false t₁ = .ok (some c) t' := by
  have hread : parseChar env false t = .ok (some c) t' := by
    unfold parseChar
    rw [hp]
    dsimp only
    rw [ht, ← ht n, h]
  refine ⟨t, ?_, hread⟩
  rw [ht] at h ⊢
  obtain ⟨rfl, -⟩ : d = c ∧ _ = t' := by simpa [PtrState.take] using h
  rfl

/-- A character that is looked at is the one that is read next. -/
theorem parseCharLoop_peek (hp : t.ptr.pushed = [])
    (h : parseCharLoop env false n t = .ok (some c) t') :
    ∃ t₁, parseCharLoop env true n t = .ok (some c) t₁ ∧
      parseChar env false t₁ = .ok (some c) t' := by
  induction n generalizing t with
  | zero => cases h
  | succ n ih =>
    obtain ⟨⟨pos, nested, allow, pushed, happened, nonconst⟩, world⟩ := t
    obtain rfl : pushed = [] := hp
    -- once a pasted value has been read to its end, the text is read as if there had been none
    have hplain : ∀ t : PtrState σ, t = ⟨⟨pos, none, allow, [], happened, nonconst⟩, world⟩ →
        parseCharLoop env false (n + 1) t = .ok (some c) t' →
        ∃ t₁, parseCharLoop env true (n + 1) t = .ok (some c) t₁ ∧
          parseChar env false t₁ = .ok (some c) t' := by
      rintro t rfl h
      rcases pos with _ | ⟨d, pos⟩
      · cases h
      by_cases hd : d ≠ '[' ∨ allow = false
      · refine peek_of_take (d := d) (p := ⟨pos, none, allow, [], happened, nonconst⟩) rfl
          (fun n peek => ?_) h
        rw [parseCharLoop]
        simp only [hd, if_true]
      by_cases he : ∃ pos', pos = '[' :: pos'
      · obtain ⟨pos', rfl⟩ := he
        refine peek_of_take (d := '[') (p := ⟨pos', none, allow, [], happened, nonconst⟩) rfl
          (fun n peek => ?_) h
        rw [parseCharLoop]
        simp only [hd, if_false]
      have hpaste : ∀ peek, parseCharLoop env peek (n + 1)
          ⟨⟨d :: pos, none, allow, [], happened, nonconst⟩, world⟩ =
          (pasteExpr env pos >>= fun _ => parseCharLoop env peek n)
            ⟨⟨d :: pos, none, allow, [], happened, nonconst⟩, world⟩ := by
        intro peek
        rw [parseCharLoop]
        simp only [hd, if_false]
        split
        · exact absurd ⟨_, rfl⟩ he
        · rfl
      rw [hpaste] at h ⊢
      obtain ⟨_, t₂, h2, h⟩ := Lib.bind_eq_ok h
      obtain ⟨t₁, h1, hread⟩ := ih (pasteExpr_pushed h2) h
      exact ⟨t₁, (Lib.bind_ok h2).trans h1, hread⟩
    rcases nested with _ | _ | ⟨d, epos⟩
    · exact hplain _ rfl h
    · exact hplain ⟨⟨pos, none, allow, [], happened, nonconst⟩, world⟩ rfl h
    · exact peek_of_take rfl (fun n peek => rfl) h

theorem parseChar_peek (h : parseChar env false t = .ok (some c) t') :
    ∃ t₁, parseChar env true t = .ok (some c) t₁ ∧ parseChar env false t₁ = .ok (some c) t' := by
  cases hp : t.ptr.pushed with
  | nil =>
    obtain ⟨t₁, h1, h2⟩ := parseCharLoop_peek hp (by simpa [parseChar, hp] using h)
    exact ⟨t₁, by simpa [parseChar, hp] using h1, h2⟩
  | cons p pushed =>
    refine ⟨t, ?_, h⟩
    have hread : parseChar env false t = .ok (some p) { t with ptr := { t.ptr with pushed } } := by
      simp [parseChar, hp, PtrState.take]
    obtain ⟨hc, -⟩ : some p = some c ∧ _ := by simpa using hread.symm.trans h
    simp [parseChar, hp, PtrState.take, Option.some.inj hc]

theorem Delivers.read (h : Delivers env t (c :: s) t') :
    ∃ t₁, parseChar env false t = .ok (some c) t₁ ∧ Delivers env t₁ s t' := by
  cases h with
  | cons h1 h => exact ⟨_, h1, h⟩

theorem Delivers.peek (h : Delivers env t (c :: s) t') :
    ∃ t₁, parseChar env true t = .ok (some c) t₁ ∧ Delivers env t₁ (c :: s) t' := by
  obtain ⟨t₂, h2, h⟩ := h.read
  obtain ⟨t₁, h1, hread⟩ := parseChar_peek h2
  exact ⟨t₁, h1, .cons hread h⟩

/-- What follows decides where the digits end, and its first character is enough for that. -/
theorem Spelled.of_head {escaped : Bool} {w : List Char} (hw : Spelled s' c escaped w)
    (hs : s'.head? = s.head?) : Spelled s c escaped w := by
  cases hw with
  | plain h1 h2 => exact .plain h1 h2
  | letter he => exact .letter he
  | noDigit h => exact .noDigit (hs ▸ h)
  | oneDigit hx h h0 => exact .oneDigit hx (hs ▸ h) h0
  | twoDigits hx hx' h0 => exact .twoDigits hx hx' h0

theorem hexEscape_ne {hexbuf : List Char} (h0 : hexbufVal hexbuf ≠ 0) :
    (hexEscape hexbuf : PtrM σ Char) t = .ok (Char.ofNat (hexbufVal hexbuf)) t := by
  unfold hexEscape
  rw [if_neg h0]
  rfl

/-- The reader of commands takes an escape as it is spelled. -/
theorem quotedEscape_spelled {w : List Char} (hw : Spelled s c true ('\\' :: w)) (hs : s ≠ [])
    (h : Delivers env t (w ++ s) t') :
    ∃ t₁, quotedEscape env t = .ok c t₁ ∧ Delivers env t₁ s t' := by
  obtain ⟨d, s, rfl⟩ := List.exists_cons_of_ne_nil hs
  unfold quotedEscape
  cases hw with
  | letter he =>
    obtain ⟨t₁, h1, h⟩ := h.read
    refine ⟨t₁, ?_, h⟩
    rw [Lib.bind_ok h1]
    dsimp only
    rw [if_neg he]
    rfl
  | noDigit hx =>
    obtain ⟨t₁, h1, h⟩ := h.read
    obtain ⟨t₂, h2, h⟩ := h.peek
    refine ⟨t₂, ?_, h⟩
    rw [Lib.bind_ok h1]
    dsimp only
    rw [if_pos rfl, Lib.bind_ok h2, if_pos (by simpa using hx)]
    rfl
  | @oneDigit h' hx hd h0 =>
    obtain ⟨t₁, h1, h⟩ := h.read
    obtain ⟨t₂, h2, h⟩ := h.peek
    obtain ⟨t₃, h3, h⟩ := h.read
    obtain ⟨t₄, h4, h⟩ := h.peek
    refine ⟨t₄, ?_, h⟩
    have hh : isHexDigitAt (some h') = true := hx
    have hn : isHexDigitAt (some d) = false := hd
    rw [Lib.bind_ok h1]
    dsimp only
    rw [if_pos rfl, Lib.bind_ok h2, if_neg (by simp [hh]), Lib.bind_ok h3, Lib.bind_ok h4,
      if_neg (by simp [hn])]
    exact hexEscape_ne h0
  | @twoDigits h₁ h₂ hx hx' h0 =>
    obtain ⟨t₁, h1, h⟩ := h.read
    obtain ⟨t₂, h2, h⟩ := h.peek
    obtain ⟨t₃, h3, h⟩ := h.read
    obtain ⟨t₄, h4, h⟩ := h.peek
    obtain ⟨t₅, h5, h⟩ := h.read
    refine ⟨t₅, ?_, h⟩
    have hh₁ : isHexDigitAt (some h₁) = true := hx
    have hh₂ : isHexDigitAt (some h₂) = true := hx'
    rw [Lib.bind_ok h1]
    dsimp only
    rw [if_pos rfl, Lib.bind_ok h2, if_neg (by simp [hh₁]), Lib.bind_ok h3, Lib.bind_ok h4,
      if_pos hh₂, Lib.bind_ok h5]
    exact hexEscape_ne h0

/-- The reader of commands goes character by character. -/
theorem quotedLoop_spelled {escaped : Bool} {w : List Char} (hw : Spelled s c escaped w)
    (hs : s ≠ []) (h : Delivers env t (w ++ s) t') :
    ∃ t₁, Delivers env t₁ s t' ∧ ∀ n dbuf,
      (parseChar env false >>= fun ch => quotedLoop env (n + 1) ch dbuf) t =
        (parseChar env false >>= fun ch => quotedLoop env n ch (dbuf ++ [c])) t₁ := by
  have hescape : ∀ w', w = '\\' :: w' → escaped = true → ∃ t₁, Delivers env t₁ s t' ∧ ∀ n dbuf,
      (parseChar env false >>= fun ch => quotedLoop env (n + 1) ch dbuf) t =
        (parseChar env false >>= fun ch => quotedLoop env n ch (dbuf ++ [c])) t₁ := by
    rintro w' rfl rfl
    obtain ⟨t₁, h1, h⟩ := h.read
    obtain ⟨t₂, h2, h⟩ := quotedEscape_spelled hw hs h
    refine ⟨t₂, h, fun n dbuf => ?_⟩
    rw [Lib.bind_ok h1, quotedLoop_backslash]
    exact Lib.bind_ok h2
  cases hw with
  | plain h1 h2 =>
    obtain ⟨t₁, hread, h⟩ := h.read
    refine ⟨t₁, h, fun n dbuf => ?_⟩
    rw [Lib.bind_ok hread, quotedLoop_plain h2 h1]
  | letter he => exact hescape _ rfl rfl
  | noDigit hx => exact hescape _ rfl rfl
  | oneDigit hx hd h0 => exact hescape _ rfl rfl
  | twoDigits hx hx' h0 => exact hescape _ rfl rfl

end Commands

section Agreement

variable {s rest content : List Char}

/-- A quoted text is `used` up to its quote, and where `ParseChar` gives `used` the reader of
commands reads what the text stands for. -/
theorem Quoted.commands (hq : Quoted s content rest) : ∃ used, s = used ++ rest ∧ used ≠ [] ∧
    ∀ (σ : Type) (env : PasteEnv σ) (t t' : PtrState σ), Delivers env t used t' →
      ∀ n dbuf, content.length < n →
        (parseChar env false >>= fun ch => quotedLoop env n ch dbuf) t =
          .ok (dbuf ++ content) t' := by
  induction hq with
  | close hs =>
    refine ⟨['"'], nextPiece_close hs, by simp, fun σ env t t' h n dbuf hn => ?_⟩
    obtain ⟨n, rfl⟩ := Nat.exists_eq_succ_of_ne_zero (show n ≠ 0 by omega)
    obtain ⟨t₁, h1, h⟩ := h.read
    cases h
    rw [Lib.bind_ok h1, quotedLoop_quote, List.append_nil]
    rfl
  | char hs hq ih =>
    obtain ⟨used, rfl, hused, ih⟩ := ih
    obtain ⟨w, rfl, hw⟩ := nextPiece_spelled hs
    refine ⟨w ++ used, (List.append_assoc _ _ _).symm, by simp [hused],
      fun σ env t t' h n dbuf hn => ?_⟩
    obtain ⟨n, rfl⟩ := Nat.exists_eq_succ_of_ne_zero (show n ≠ 0 by omega)
    rw [List.length_cons] at hn
    obtain ⟨t₁, h, hstep⟩ :=
      quotedLoop_spelled (hw.of_head (List.head?_append_of_ne_nil used hused)) hused h
    rw [hstep, ih σ env t₁ t' h n _ (by omega), List.append_assoc]
    rfl

/-- The quote in front. -/
theorem parseQuotedString_quote {σ : Type} {env : PasteEnv σ} {t t' : PtrState σ} {n : ℕ}
    (h : Delivers env t ('"' :: s) t') (hn : 0 < n) : ∃ t₁, Delivers env t₁ s t' ∧
      parseQuotedString env n t = (parseChar env false >>= fun ch => quotedLoop env n ch []) t₁ := by
  obtain ⟨n, rfl⟩ := Nat.exists_eq_succ_of_ne_zero (Nat.pos_iff_ne_zero.mp hn)
  obtain ⟨t₁, h1, h⟩ := h.peek
  obtain ⟨t₂, h2, h⟩ := h.read
  refine ⟨t₂, h, ?_⟩
  have hskip : parseNonSpaceChar env (n + 1) false t = .ok (some '"') t₂ := by
    unfold parseNonSpaceChar
    rw [Lib.bind_ok h1]
    exact h2
  unfold parseQuotedString
  rw [Lib.bind_ok hskip]
  rfl

end Agreement

/-! ### The law of string literals -/

/-- What the text `s` behind a double quote must come to: it is read if it is closed and has no
`\x00`, the constant is what it stands for, and a command reads it as the same. -/
structure LiteralLaw (seps : LiteralSeps) (s : List Char) : Prop where
  accepted : (∃ out, parseExprToken seps.timeSep ('"' :: s) = .ok out) ↔ Closed s ∧ ¬ HasZero s
  agrees : Closed s → ¬ HasZero s → ∃ content used rest, s = used ++ rest ∧ Quoted s content rest ∧
    parseExprToken seps.timeSep ('"' :: s) = .ok ('"' :: content ++ ['"'], rest) ∧
    setConstantValue seps ('"' :: content ++ ['"']) = .ok (.str (String.ofList content)) ∧
    ∀ (σ : Type) (env : PasteEnv σ) (t t' : PtrState σ), Delivers env t ('"' :: used) t' →
      ∀ n, content.length < n → parseQuotedString env n t = .ok content t'

section Law

variable {s rest content : List Char}

theorem parseExprToken_quote (sep : Char) (hs : s ≠ []) :
    parseExprToken sep ('"' :: s) = putc '"' (quotedToken '"' s) := by
  have hskip : ('"' :: s).dropWhile isEmptyChar = '"' :: s := rfl
  unfold parseExprToken
  rw [hskip]
  dsimp only
  rw [if_neg (by decide), if_neg (by decide), if_neg (by decide), if_pos rfl, if_neg hs]

theorem setConstantValue_quoted (seps : LiteralSeps) (content : List Char) :
    setConstantValue seps ('"' :: content ++ ['"']) = .ok (.str (String.ofList content)) := by
  show Except.ok (Value.str (String.ofList (content ++ ['"']).dropLast)) = _
  rw [List.dropLast_concat]

theorem literal_accepted_iff (sep : Char) (s : List Char) :
    (∃ out, parseExprToken sep ('"' :: s) = .ok out) ↔
      (Closed s ∧ ¬ HasZero s) ∨ (s ≠ [] ∧ ∃ content, OnlyEscapes s content) := by
  rw [← quoted_iff_closed]
  rcases eq_or_ne s [] with rfl | hs
  · refine ⟨fun ⟨out, h⟩ => (by cases h), fun h => ?_⟩
    rcases h with ⟨content, rest, hq⟩ | h
    · exact absurd ⟨content, rest, hq⟩ (not_quoted (by simp [nextPiece]) (by simp [nextPiece]))
    · exact absurd rfl h.1
  · rw [parseExprToken_quote sep hs, putc_isOk, quotedToken_isOk]
    simp [hs]

/-- **String literals**: they are read as they should be, except for a text of escapes alone, which
is taken although no quote closes it. -/
theorem literalLaw_iff (seps : LiteralSeps) (s : List Char) :
    LiteralLaw seps s ↔ ¬ (s ≠ [] ∧ ∃ content, OnlyEscapes s content) := by
  constructor
  · rintro ⟨haccept, -⟩ hbad
    have hclosed := haccept.mp ((literal_accepted_iff _ s).mpr (Or.inr hbad))
    obtain ⟨content, rest, hq⟩ := (quoted_iff_closed s).mpr hclosed
    exact hq.not_onlyEscapes hbad.2.choose_spec
  · intro hgood
    refine ⟨(literal_accepted_iff _ s).trans (or_iff_left hgood), fun hc hz => ?_⟩
    obtain ⟨content, rest, hq⟩ := (quoted_iff_closed s).mpr ⟨hc, hz⟩
    obtain ⟨used, hs, hused, hread⟩ := hq.commands
    have hne : s ≠ [] := by
      rintro rfl
      exact hused (List.append_eq_nil_iff.mp hs.symm).1
    refine ⟨content, used, rest, hs, hq, ?_, setConstantValue_quoted seps content,
      fun σ env t t' h n hn => ?_⟩
    · rw [parseExprToken_quote _ hne, hq.token]
      rfl
    · obtain ⟨t₁, h, hquote⟩ := parseQuotedString_quote h (Nat.zero_lt_of_lt hn)
      rw [hquote, hread σ env t₁ t' h n [] hn]
      rfl

/-- `"\n`: the escape is taken for a string, and the constant loses it. -/
theorem literalLaw_unclosed : ¬ LiteralLaw ⟨':', '-'⟩ ['\\', 'n'] := fun h => by
  obtain ⟨⟨body, rest, hs, -⟩, -⟩ := h.accepted.mp ⟨(['"', '\n'], []), by decide +kernel⟩
  have hmem : '"' ∈ ['\\', 'n'] := hs ▸ List.mem_append_right body List.mem_cons_self
  exact absurd hmem (by decide)

end Law

end Remind
