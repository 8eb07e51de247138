import Mathlib

/-!
# Lib.Wrap — setting a text in rows of a fixed width

A `Face` says which characters are blank, which blanks end a line, and how wide the others are; a
blank is one column wide.  `Wrap cols s rows` is the specification: the rows hold the text in order,
blanks between two rows apart; each fits; a row ends at a new line, or before a blank because the
next word does not fit any more, or within a word because it is wider than a row.

`setRow` sets one row.  It scans as far as a row reaches and one column beyond, and cuts at the last
blank that it has seen; without one it takes as many characters as fit.  `wrap_setRow` and
`setRow_done` are the rules for a program that sets row after row.
-/

namespace Remind.Lib

/-- Characters as they are set in columns. -/
structure Face (α : Type*) where
  blank : α → Bool
  newline : α → Bool
  width : α → ℕ
  newline_blank : ∀ c, newline c = true → blank c = true

namespace Face

variable {α : Type*} (k : Face α) (cols : ℕ)

/-- The columns that a character takes. -/
def cell (c : α) : ℕ := if k.blank c then 1 else k.width c

/-- The columns that a text takes. -/
def span (s : List α) : ℕ := (s.map k.cell).sum

/-- The word at the front of a text. -/
def word (s : List α) : List α := s.takeWhile fun c => !k.blank c

/-- The characters of a text that are not blank. -/
def ink (s : List α) : List α := s.filter fun c => !k.blank c

/-- Why a row ends where it does, with `gap` skipped behind it and `rest` to come. -/
def Full (row gap rest : List α) : Prop :=
  match gap with
  | [] => (∀ c ∈ row, k.blank c = false) ∧ cols < k.span row + k.span (k.word rest) ∧
      ∀ c ∈ rest.head?, cols < k.span row + max 1 (k.width c)
  | b :: _ => k.newline b = true ∨ cols < k.span row + 1 + k.span (k.word rest)

/-- The text `s` is set in `rows`. -/
inductive Wrap : List α → List (List α) → Prop
  | last {row gap : List α} (hfit : k.span row ≤ cols) (hline : ∀ c ∈ row, k.newline c = false)
      (hgap : ∀ c ∈ gap, k.blank c = true) : Wrap (row ++ gap) [row]
  | cut {row gap rest : List α} {rows : List (List α)} (hfit : k.span row ≤ cols)
      (hline : ∀ c ∈ row, k.newline c = false) (hgap : ∀ c ∈ gap, k.blank c = true)
      (hrest : ∃ c ∈ rest.head?, k.blank c = false) (hfull : k.Full cols row gap rest)
      (hwrap : Wrap rest rows) : Wrap (row ++ (gap ++ rest)) (row :: rows)

/-- The scan for the last blank: `n` characters that take `w` columns are behind, and `found` of
them stand before the last blank. -/
def lastBreak : ℕ → ℕ → Option ℕ → List α → Option ℕ
  | n, w, found, [] => if cols < w then found else some n
  | n, w, found, c :: s =>
    if cols < w then found
    else if k.newline c then some n
    else if k.blank c then lastBreak (n + 1) (w + 1) (some n) s
    else if cols < w + k.width c then found
    else lastBreak (n + 1) (w + k.width c) found s

/-- How many characters fit behind `w` columns. -/
def fitting : ℕ → List α → ℕ
  | _, [] => 0
  | w, c :: s => if w < cols ∧ w + k.cell c ≤ cols then fitting (w + k.cell c) s + 1 else 0

/-- How many characters go into the next row. -/
def rowLength (s : List α) : ℕ := (k.lastBreak cols 0 0 none s).getD (k.fitting cols 0 s)

/-- The next row, and the text behind it. -/
def setRow (s : List α) : List α × List α :=
  (s.take (k.rowLength cols s), (s.drop (k.rowLength cols s)).dropWhile k.blank)

/-! ### Columns, words -/

@[simp] theorem span_nil : k.span [] = 0 := rfl

@[simp] theorem span_cons (c : α) (s : List α) : k.span (c :: s) = k.cell c + k.span s :=
  List.sum_cons

@[simp] theorem span_append (s t : List α) : k.span (s ++ t) = k.span s + k.span t := by
  simp [span]

@[simp] theorem ink_append (s t : List α) : k.ink (s ++ t) = k.ink s ++ k.ink t :=
  List.filter_append ..

variable {k cols}

theorem cell_of_blank {c : α} (h : k.blank c = true) : k.cell c = 1 := if_pos h

theorem cell_of_not_blank {c : α} (h : k.blank c = false) : k.cell c = k.width c :=
  if_neg (by simp [h])

theorem newline_of_not_blank {c : α} (h : k.blank c = false) : k.newline c = false :=
  Bool.eq_false_iff.2 fun hn => by simp [k.newline_blank c hn] at h

theorem ink_of_blank {s : List α} (h : ∀ c ∈ s, k.blank c = true) : k.ink s = [] :=
  List.filter_eq_nil_iff.2 fun c hc => by simp [h c hc]

theorem word_append {s t : List α} (h : ∀ c ∈ s, k.blank c = false) :
    k.word (s ++ t) = s ++ k.word t :=
  List.takeWhile_append_of_pos fun c hc => by simp [h c hc]

theorem word_of_head {s : List α} (h : ∃ c ∈ s.head?, k.blank c = false) :
    s.dropWhile k.blank = s := by
  obtain ⟨c, hc, hb⟩ := h
  cases s with
  | nil => cases hc
  | cons d s =>
    obtain rfl : d = c := by simpa using hc
    simp [hb]

theorem span_take_le (n : ℕ) (s : List α) : k.span (s.take n) ≤ k.span s := by
  conv_rhs => rw [← List.take_append_drop n s, span_append]
  omega

/-! ### The scan -/

/-- Between the characters `p` behind it and what it has found, the scan of a row is on its way. -/
def Scanned (k : Face α) (cols : ℕ) (p : List α) : Option ℕ → Prop
  | none => (∀ c ∈ p, k.blank c = false) ∧ k.span p ≤ cols
  | some n => ∃ row b word, p = row ++ b :: word ∧ n = row.length ∧ k.blank b = true ∧
      (∀ c ∈ word, k.blank c = false) ∧ k.span row ≤ cols ∧ (k.span p ≤ cols ∨ word = [])

/-- The text `t` can be cut behind `n` characters. -/
def CutAt (k : Face α) (cols : ℕ) (t : List α) (n : ℕ) : Prop :=
  ∃ row behind, t = row ++ behind ∧ n = row.length ∧ k.span row ≤ cols ∧
    (∀ c ∈ row, k.newline c = false) ∧
    (behind = [] ∨ ∃ b rest, behind = b :: rest ∧ k.blank b = true ∧
      (k.newline b = true ∨ cols < k.span row + 1 + k.span (k.word (rest.dropWhile k.blank))))

/-- The text `t` begins with more of one word than fits. -/
def Jammed (k : Face α) (cols : ℕ) (t : List α) : Prop :=
  ∃ p c s, t = p ++ c :: s ∧ (∀ c ∈ p, k.blank c = false) ∧ k.blank c = false ∧
    k.span p ≤ cols ∧ cols < k.span p + k.width c

/-- The scan ends: with a cut at the last blank, or jammed. -/
theorem Scanned.stop {p : List α} {found : Option ℕ} {c : α} {s : List α}
    (h : Scanned k cols p found) (hline : ∀ c ∈ p, k.newline c = false)
    (hp : k.span p ≤ cols) (hc : k.blank c = false) (hover : cols < k.span p + k.width c) :
    match found with
    | none => Jammed k cols (p ++ c :: s)
    | some n => CutAt k cols (p ++ c :: s) n := by
  cases found with
  | none => exact ⟨p, c, s, rfl, h.1, hc, hp, hover⟩
  | some n =>
    obtain ⟨row, b, word, rfl, rfl, hb, hword, hrow, -⟩ := h
    refine ⟨row, b :: (word ++ c :: s), by simp, rfl, hrow, ?_, .inr ⟨b, _, rfl, hb, .inr ?_⟩⟩
    · exact fun d hd => hline d (List.mem_append_left _ hd)
    · have hhead : ∃ d ∈ (word ++ c :: s).head?, k.blank d = false := by
        cases word with
        | nil => exact ⟨c, rfl, hc⟩
        | cons d word => exact ⟨d, rfl, hword d List.mem_cons_self⟩
      have hsplit : k.word (word ++ c :: s) = word ++ c :: k.word s := by
        rw [word_append hword, Face.word, List.takeWhile_cons_of_pos (by simp [hc]), Face.word]
      rw [word_of_head hhead, hsplit]
      simp only [span_append, span_cons, cell_of_blank hb, cell_of_not_blank hc] at hover ⊢
      omega

/-- A scan that has gone past the row has found the blank that took it there. -/
theorem Scanned.past {p : List α} {found : Option ℕ} {s : List α} (h : Scanned k cols p found)
    (hline : ∀ c ∈ p, k.newline c = false) (hp : cols < k.span p) :
    ∃ n, found = some n ∧ CutAt k cols (p ++ s) n := by
  cases found with
  | none => exact absurd h.2 (by omega)
  | some n =>
    obtain ⟨row, b, word, rfl, rfl, hb, -, hrow, hreach⟩ := h
    obtain rfl := hreach.resolve_left (by omega)
    refine ⟨_, rfl, row, b :: s, by simp, rfl, hrow, ?_, .inr ⟨b, s, rfl, hb, .inr ?_⟩⟩
    · exact fun d hd => hline d (List.mem_append_left _ hd)
    · simp only [span_append, span_cons, span_nil, cell_of_blank hb] at hp
      omega

theorem lastBreak_spec {p s : List α} {found : Option ℕ} (h : Scanned k cols p found)
    (hline : ∀ c ∈ p, k.newline c = false) :
    match k.lastBreak cols p.length (k.span p) found s with
    | none => Jammed k cols (p ++ s)
    | some n => CutAt k cols (p ++ s) n := by
  induction s generalizing p found with
  | nil =>
    rw [lastBreak]
    split_ifs with hp
    · obtain ⟨n, rfl, hcut⟩ := h.past hline hp (s := [])
      exact hcut
    · exact ⟨p, [], rfl, rfl, by omega, hline, .inl rfl⟩
  | cons c s ih =>
    have hlen : (p ++ [c]).length = p.length + 1 := by simp
    rw [lastBreak]
    split_ifs with hp hn hb hover
    · obtain ⟨n, rfl, hcut⟩ := h.past hline hp (s := c :: s)
      exact hcut
    · exact ⟨p, c :: s, rfl, rfl, by omega, hline,
        .inr ⟨c, s, rfl, k.newline_blank c hn, .inl hn⟩⟩
    · -- a blank: the scan goes on behind it
      have hspan : k.span (p ++ [c]) = k.span p + 1 := by simp [cell_of_blank hb]
      have hnext : Scanned k cols (p ++ [c]) (some p.length) :=
        ⟨p, c, [], rfl, rfl, hb, by simp, by omega, .inr rfl⟩
      have hl : ∀ d ∈ p ++ [c], k.newline d = false := by
        intro d hd
        rcases List.mem_append.1 hd with hd | hd
        · exact hline d hd
        · rw [List.mem_singleton.1 hd]
          simpa using hn
      simpa [hlen, hspan, List.append_assoc] using ih hnext hl
    · have hstop := h.stop hline (s := s) (by omega) (by simpa using hb) hover
      cases found with
      | none => exact hstop
      | some n => exact hstop
    · have hb' : k.blank c = false := by simpa using hb
      have hspan : k.span (p ++ [c]) = k.span p + k.width c := by simp [cell_of_not_blank hb']
      have hnext : Scanned k cols (p ++ [c]) found := by
        cases found with
        | none =>
          refine ⟨fun d hd => ?_, by omega⟩
          rcases List.mem_append.1 hd with hd | hd
          · exact h.1 d hd
          · rw [List.mem_singleton.1 hd, hb']
        | some n =>
          obtain ⟨row, b, word, rfl, rfl, hbl, hword, hrow, -⟩ := h
          refine ⟨row, b, word ++ [c], by simp, rfl, hbl, fun d hd => ?_, hrow, .inl (by omega)⟩
          rcases List.mem_append.1 hd with hd | hd
          · exact hword d hd
          · rw [List.mem_singleton.1 hd, hb']
      have hl : ∀ d ∈ p ++ [c], k.newline d = false := by
        intro d hd
        rcases List.mem_append.1 hd with hd | hd
        · exact hline d hd
        · rw [List.mem_singleton.1 hd]
          exact newline_of_not_blank hb'
      simpa [hlen, hspan, List.append_assoc] using ih hnext hl

theorem fitting_spec {w : ℕ} (hw : w ≤ cols) (s : List α) :
    w + k.span (s.take (k.fitting cols w s)) ≤ cols ∧
      ∀ c ∈ (s.drop (k.fitting cols w s)).head?,
        cols < w + k.span (s.take (k.fitting cols w s)) + max 1 (k.cell c) := by
  induction s generalizing w with
  | nil => simp [fitting, hw]
  | cons c s ih =>
    rw [fitting]
    split_ifs with h
    · obtain ⟨h1, h2⟩ := ih h.2
      simp only [List.take_succ_cons, List.drop_succ_cons, span_cons, ← Nat.add_assoc]
      exact ⟨h1, h2⟩
    · refine ⟨by simpa using hw, fun d hd => ?_⟩
      obtain rfl : c = d := by simpa using hd
      simp only [List.take_zero, span_nil]
      omega

/-! ### One row -/

/-- How the next row and the text behind it lie in the text. -/
structure IsRow (k : Face α) (cols : ℕ) (t row gap rest : List α) : Prop where
  split : t = row ++ (gap ++ rest)
  fit : k.span row ≤ cols
  line : ∀ c ∈ row, k.newline c = false
  skipped : ∀ c ∈ gap, k.blank c = true
  head : ∀ c ∈ rest.head?, k.blank c = false
  full : rest ≠ [] → k.Full cols row gap rest

theorem CutAt.isRow {t : List α} {n : ℕ} (h : CutAt k cols t n) :
    ∃ gap, IsRow k cols t (t.take n) gap ((t.drop n).dropWhile k.blank) := by
  obtain ⟨row, behind, rfl, rfl, hfit, hline, hbehind⟩ := h
  rw [List.take_left, List.drop_left]
  refine ⟨behind.takeWhile k.blank, by rw [List.takeWhile_append_dropWhile], hfit, hline,
    fun c hc => List.mem_takeWhile_imp hc, fun c hc => ?_, fun hrest => ?_⟩
  · have hne : behind.dropWhile k.blank ≠ [] := by
      rintro h
      rw [h] at hc
      cases hc
    rw [List.head?_eq_some_head hne] at hc
    obtain rfl : _ = c := by simpa using hc
    simpa using List.head_dropWhile_not k.blank hne
  · rcases hbehind with rfl | ⟨b, rest, rfl, hb, hwhy⟩
    · exact absurd rfl hrest
    · rw [List.takeWhile_cons_of_pos hb, List.dropWhile_cons_of_pos hb]
      exact hwhy

theorem Jammed.isRow {t : List α} (h : Jammed k cols t) :
    ∃ gap, IsRow k cols t (t.take (k.fitting cols 0 t)) gap
      ((t.drop (k.fitting cols 0 t)).dropWhile k.blank) := by
  obtain ⟨p, c, s, ht, hp, hc, hfit, hover⟩ := h
  obtain ⟨hspan, hnext⟩ := fitting_spec (k := k) (Nat.zero_le cols) t
  rw [Nat.zero_add] at hspan
  set n := k.fitting cols 0 t
  -- no more than the front of the word fits
  have hn : n ≤ p.length := by
    by_contra hlt
    have hle : k.span (p ++ [c]) ≤ k.span (t.take n) := by
      have hpre : (t.take n).take (p.length + 1) = p ++ [c] := by
        rw [List.take_take, Nat.min_eq_left (by omega), ht, List.append_cons]
        exact List.take_left' (by simp)
      rw [← hpre]
      exact span_take_le _ _
    rw [span_append, span_cons, span_nil, cell_of_not_blank hc] at hle
    omega
  have htake : t.take n = p.take n := by rw [ht, List.take_append_of_le_length hn]
  have hdrop : t.drop n = p.drop n ++ c :: s := by rw [ht, List.drop_append_of_le_length hn]
  have hrow : ∀ d ∈ t.take n, k.blank d = false := fun d hd =>
    hp d (List.mem_of_mem_take (htake ▸ hd))
  have hhead : ∃ d ∈ (t.drop n).head?, k.blank d = false := by
    rw [hdrop]
    cases hd : p.drop n with
    | nil => exact ⟨c, rfl, hc⟩
    | cons d l => exact ⟨d, rfl, hp d (List.mem_of_mem_drop (hd ▸ List.mem_cons_self))⟩
  have hblank : ∀ d ∈ (t.drop n).head?, k.blank d = false := by
    obtain ⟨d, hd, hb⟩ := hhead
    intro d' hd'
    rw [Option.mem_unique hd' hd, hb]
  rw [word_of_head hhead]
  refine ⟨[], by simp, hspan, fun d hd => newline_of_not_blank (hrow d hd), nofun, hblank,
    fun _ => ⟨hrow, ?_, fun d hd => ?_⟩⟩
  · have hword : k.word (t.drop n) = p.drop n ++ c :: k.word s := by
      rw [hdrop, word_append fun d hd => hp d (List.mem_of_mem_drop hd), Face.word,
        List.takeWhile_cons_of_pos (by simp [hc]), Face.word]
    have hwhole : k.span p = k.span (t.take n) + k.span (p.drop n) := by
      rw [htake, ← span_append, List.take_append_drop]
    rw [hword, span_append, span_cons, cell_of_not_blank hc]
    omega
  · have := hnext d hd
    rw [cell_of_not_blank (hblank d hd)] at this
    omega

/-- One row is set: the text is the row, blanks and the text behind. -/
theorem setRow_isRow (t : List α) :
    ∃ gap, IsRow k cols t (k.setRow cols t).1 gap (k.setRow cols t).2 := by
  have hspec := @lastBreak_spec α k cols [] t none ⟨nofun, Nat.zero_le _⟩ nofun
  simp only [List.length_nil, span_nil, List.nil_append] at hspec
  unfold setRow rowLength
  cases hl : k.lastBreak cols 0 0 none t with
  | none =>
    rw [hl] at hspec
    exact hspec.isRow
  | some n =>
    rw [hl] at hspec
    exact hspec.isRow

variable {t row gap rest : List α} {rows : List (List α)}

theorem IsRow.last (h : IsRow k cols t row gap []) : Wrap k cols t [row] := by
  rw [h.split, List.append_nil]
  exact .last h.fit h.line h.skipped

theorem IsRow.cut (h : IsRow k cols t row gap rest) (hrest : rest ≠ []) (hw : Wrap k cols rest rows) :
    Wrap k cols t (row :: rows) := by
  rw [h.split]
  have hhead := List.head?_eq_some_head hrest
  exact .cut h.fit h.line h.skipped ⟨_, hhead, h.head _ hhead⟩ (h.full hrest) hw

/-- The rest of a text is a part of it. -/
theorem IsRow.mem (h : IsRow k cols t row gap rest) {c : α} (hc : c ∈ rest) : c ∈ t := by
  rw [h.split]
  exact List.mem_append_right _ (List.mem_append_right _ hc)

/-- Where each character fits, a row takes something of the text. -/
theorem IsRow.length_lt (h : IsRow k cols t row gap rest) (hcols : 0 < cols)
    (hwidth : ∀ c ∈ t, k.width c ≤ cols) (ht : t ≠ []) : rest.length < t.length := by
  rcases eq_or_ne rest [] with rfl | hrest
  · exact List.length_pos_of_ne_nil ht
  have hsum : t.length = row.length + (gap.length + rest.length) := by
    rw [h.split, List.length_append, List.length_append]
  rcases Nat.eq_zero_or_pos (row.length + gap.length) with h0 | h0
  · obtain rfl : row = [] := List.length_eq_zero_iff.1 (by omega)
    obtain rfl : gap = [] := List.length_eq_zero_iff.1 (by omega)
    have hhead := List.head?_eq_some_head hrest
    have hover := (h.full hrest).2.2 _ hhead
    have hfits := hwidth _ (h.mem (List.head_mem hrest))
    simp only [span_nil] at hover
    omega
  · omega

/-! ### What the rows hold -/

/-- **The rows hold the text**: without the blanks they are the text without its blanks. -/
theorem Wrap.ink_eq (h : Wrap k cols t rows) : (rows.map k.ink).flatten = k.ink t := by
  induction h with
  | last _ _ hgap => simp [ink_of_blank hgap]
  | cut _ _ hgap _ _ _ ih => simp [ink_of_blank hgap, ih]

/-- Each row fits, on one line. -/
theorem Wrap.fits (h : Wrap k cols t rows) : ∀ row ∈ rows,
    k.span row ≤ cols ∧ ∀ c ∈ row, k.newline c = false := by
  induction h with
  | last hfit hline => simpa using ⟨hfit, hline⟩
  | cut hfit hline _ _ _ _ ih => exact List.forall_mem_cons.2 ⟨⟨hfit, hline⟩, ih⟩

/-- The rows hold characters of the text only. -/
theorem Wrap.mem (h : Wrap k cols t rows) {row : List α} (hrow : row ∈ rows) {c : α}
    (hc : c ∈ row) : c ∈ t := by
  induction h with
  | last =>
    rw [List.mem_singleton.1 hrow] at hc
    exact List.mem_append_left _ hc
  | cut _ _ _ _ _ _ ih =>
    rcases List.mem_cons.1 hrow with rfl | hrow
    · exact List.mem_append_left _ hc
    · exact List.mem_append_right _ (List.mem_append_right _ (ih hrow))

/-- `w` is a word of the text `u ++ (w ++ v)`. -/
structure IsWord (k : Face α) (u w v : List α) : Prop where
  ne_nil : w ≠ []
  ink : ∀ c ∈ w, k.blank c = false
  before : ∀ c ∈ u.getLast?, k.blank c = true
  behind : ∀ c ∈ v.head?, k.blank c = true

theorem IsWord.word_eq {u w v : List α} (hw : IsWord k u w v) {w₁ w₂ : List α}
    (hsplit : w = w₁ ++ w₂) : k.word (w₂ ++ v) = w₂ := by
  have hv : k.word v = [] := by
    cases v with
    | nil => rfl
    | cons c v => exact List.takeWhile_cons_of_neg (by simp [hw.behind c rfl])
  rw [word_append fun c hc => hw.ink c (hsplit ▸ List.mem_append_right _ hc), hv, List.append_nil]

/-- A word that fits lies in the row, or behind what is skipped. -/
theorem IsWord.in_row_or_behind {u w v : List α} (hw : IsWord k u w v) (hfit : k.span w ≤ cols)
    (ht : row ++ (gap ++ rest) = u ++ (w ++ v)) (hgap : ∀ c ∈ gap, k.blank c = true)
    (hfull : rest ≠ [] → k.Full cols row gap rest) :
    (∃ right, row = u ++ (w ++ right)) ∨
      ∃ u', u = row ++ (gap ++ u') ∧ rest = u' ++ (w ++ v) := by
  obtain ⟨c, cs, hcw⟩ := List.exists_cons_of_ne_nil hw.ne_nil
  have hc : k.blank c = false := hw.ink c (hcw ▸ List.mem_cons_self)
  rcases List.append_eq_append_iff.1 ht with ⟨l, rfl, hl⟩ | ⟨l, rfl, hl⟩
  · -- the word begins behind the row
    rcases List.append_eq_append_iff.1 hl with ⟨u', rfl, rfl⟩ | ⟨l', rfl, hl'⟩
    · exact .inr ⟨u', by simp, rfl⟩
    · cases l' with
      | nil => exact .inr ⟨[], by simp, hl'.symm⟩
      | cons b l' =>
        rw [hcw, List.cons_append, List.cons_append, List.cons.injEq] at hl'
        have := hgap b (by simp)
        rw [← hl'.1, hc] at this
        cases this
  · rcases List.append_eq_append_iff.1 hl with ⟨right, rfl, -⟩ | ⟨l', hll, hl'⟩
    · exact .inl ⟨right, rfl⟩
    · cases l' with
      | nil => exact .inl ⟨[], by rw [hll, List.append_nil, List.append_nil]⟩
      | cons d l' =>
        -- the word goes on behind the row
        have hd : k.blank d = false := hw.ink d (by simp [hll])
        cases gap with
        | cons b gap =>
          rw [List.cons_append, List.cons_append, List.cons.injEq] at hl'
          have := hgap b List.mem_cons_self
          rw [hl'.1, hd] at this
          cases this
        | nil =>
          rw [List.nil_append] at hl'
          obtain ⟨hrow, hover, -⟩ := hfull (by simp [hl'])
          have hu : u = [] := by
            refine List.getLast?_eq_none_iff.1 (Option.eq_none_iff_forall_ne_some.2 fun b hb => ?_)
            have := hw.before b hb
            rw [hrow b (List.mem_append_left _ (List.mem_of_getLast? hb))] at this
            cases this
          rw [hl', hw.word_eq hll, hu, List.nil_append] at hover
          rw [hll, span_append] at hfit
          omega

/-- **A word that fits is in one row**, and what is printed before it is what stands before it. -/
theorem Wrap.word_whole (h : Wrap k cols t rows) {u w v : List α} (ht : t = u ++ (w ++ v))
    (hw : IsWord k u w v) (hfit : k.span w ≤ cols) :
    ∃ above left right below, rows = above ++ (left ++ (w ++ right)) :: below ∧
      (above.map k.ink).flatten ++ k.ink left = k.ink u := by
  induction h generalizing u with
  | @last row gap _ _ hgap =>
    have ht' : row ++ (gap ++ []) = u ++ (w ++ v) := by rw [List.append_nil, ht]
    rcases hw.in_row_or_behind hfit ht' hgap (absurd rfl) with ⟨right, rfl⟩ | ⟨u', -, h⟩
    · exact ⟨[], u, right, [], rfl, rfl⟩
    · exact absurd (List.append_eq_nil_iff.1 h.symm).2
        fun h => hw.ne_nil (List.append_eq_nil_iff.1 h).1
  | @cut row gap rest rows _ _ hgap _ hfull hwrap ih =>
    rcases hw.in_row_or_behind hfit ht hgap (fun _ => hfull) with ⟨right, rfl⟩ | ⟨u', rfl, hrest⟩
    · exact ⟨[], u, right, rows, rfl, rfl⟩
    · have hw' : IsWord k u' w v := by
        refine ⟨hw.ne_nil, hw.ink, fun c hc => hw.before c ?_, hw.behind⟩
        rw [List.getLast?_append, List.getLast?_append, Option.mem_def.1 hc]
        rfl
      obtain ⟨above, left, right, below, rfl, hink⟩ := ih hrest hw'
      refine ⟨row :: above, left, right, below, rfl, ?_⟩
      simp [ink_of_blank hgap, hink]

end Face

end Remind.Lib
