import Mathlib.Data.List.TakeWhile

/-!
# CString — strings in blocks of characters, and the reading of lines

A block is the list of its characters; a string in it ends at the first zero.  `none` is an access
outside of the block.
-/

namespace Remind.Lib

/-- The string at the start of a block. -/
def cString (cells : List Char) : Option (List Char) :=
  if '\x00' ∈ cells then some (cells.takeWhile (· ≠ '\x00')) else none

/-- A block with `cs` written into it from `i` on. -/
def writeCells (cells : List Char) (i : ℕ) (cs : List Char) : Option (List Char) :=
  if i + cs.length ≤ cells.length then some (cells.take i ++ cs ++ cells.drop (i + cs.length))
  else none

/-- `strcpy` -/
def strcpy (cells : List Char) (i : ℕ) (s : List Char) : Option (List Char) :=
  writeCells cells i (s ++ ['\x00'])

/-- What `fgets` takes of a stream: at most `n` characters, and none behind a newline. -/
def fgetsRead : ℕ → List Char → List Char
  | 0, _ => []
  | _, [] => []
  | n + 1, c :: s => if c = '\n' then [c] else c :: fgetsRead n s

/-- `fgets(cells, n, s)`: the block, unless it returns `NULL`, and the rest of the stream. -/
def fgets (cells : List Char) (n : ℕ) (s : List Char) :
    Option (Option (List Char) × List Char) :=
  match fgetsRead (n - 1) s with
  | [] => some (none, s)
  | read => do
    let cells ← strcpy cells 0 read
    return (some cells, s.drop read.length)

/-- The first line of a stream, without its newline, and what follows it. -/
def lineOf (s : List Char) : List Char := s.takeWhile (· ≠ '\n')

def afterLine (s : List Char) : List Char := (s.dropWhile (· ≠ '\n')).drop 1

section Strings

variable {cells cs junk s : List Char} {n : ℕ}

theorem cString_of (hcs : '\x00' ∉ cs) (junk : List Char) :
    cString (cs ++ '\x00' :: junk) = some cs := by
  have hall : ∀ c ∈ cs, decide (c ≠ '\x00') = true := by
    intro c hc
    rw [decide_eq_true_eq]
    rintro rfl
    exact hcs hc
  rw [cString, if_pos (by simp), List.takeWhile_append_of_pos hall,
    List.takeWhile_cons_of_neg (by simp), List.append_nil]

/-- Writing over the middle of a block. -/
theorem writeCells_middle {front middle back : List Char} (h : cs.length = middle.length) :
    writeCells (front ++ middle ++ back) front.length cs = some (front ++ cs ++ back) := by
  rw [writeCells, if_pos (by simp only [List.length_append]; omega)]
  simp [h, List.append_assoc]

/-- `strcpy` into a block that is long enough. -/
theorem strcpy_fits {front back : List Char} (h : cs.length < back.length) :
    ∃ junk, strcpy (front ++ back) front.length cs = some (front ++ (cs ++ '\x00' :: junk)) ∧
      cs.length + 1 + junk.length = back.length := by
  refine ⟨back.drop (cs.length + 1), ?_, by rw [List.length_drop]; omega⟩
  have hsplit : front ++ back = front ++ back.take (cs.length + 1) ++ back.drop (cs.length + 1) := by
    rw [List.append_assoc, List.take_append_drop]
  rw [strcpy, hsplit, writeCells_middle (by simp; omega)]
  simp

/-! ### Lines -/

theorem lineOf_cons {c : Char} (hc : c ≠ '\n') (s : List Char) : lineOf (c :: s) = c :: lineOf s :=
  List.takeWhile_cons_of_pos (by simpa using hc)

theorem afterLine_cons {c : Char} (hc : c ≠ '\n') (s : List Char) :
    afterLine (c :: s) = afterLine s := by
  rw [afterLine, List.dropWhile_cons_of_pos (by simpa using hc), afterLine]

/-- `fgets` takes the first line with its newline, or a part of it. -/
theorem fgetsRead_cases (n : ℕ) (s : List Char) :
    (fgetsRead n s = lineOf s ++ ['\n'] ∧ s = lineOf s ++ '\n' :: afterLine s) ∨
      '\n' ∉ fgetsRead n s ∧ fgetsRead n s = s.take n ∧
        lineOf s = fgetsRead n s ++ lineOf (s.drop n) ∧ afterLine s = afterLine (s.drop n) := by
  fun_induction fgetsRead n s with
  | case1 s => exact .inr ⟨List.not_mem_nil, rfl, rfl, rfl⟩
  | case2 n hn => exact .inr ⟨List.not_mem_nil, by simp, by simp, by simp⟩
  | case3 n s => exact .inl ⟨rfl, rfl⟩
  | case4 n c s hc ih =>
    rcases ih with ⟨hread, hs⟩ | ⟨hno, hread, hline, hafter⟩
    · left
      rw [lineOf_cons hc, afterLine_cons hc, hread]
      exact ⟨rfl, congrArg (c :: ·) hs⟩
    · right
      rw [lineOf_cons hc, afterLine_cons hc, List.take_succ_cons, List.drop_succ_cons]
      refine ⟨?_, congrArg (c :: ·) hread, congrArg (c :: ·) hline, hafter⟩
      rw [List.mem_cons]
      exact not_or.2 ⟨Ne.symm hc, hno⟩

theorem fgetsRead_length (n : ℕ) (s : List Char) : (fgetsRead n s).length ≤ n := by
  fun_induction fgetsRead n s with
  | case4 n c s hc ih => exact Nat.succ_le_succ ih
  | _ => simp

theorem fgetsRead_prefix (n : ℕ) (s : List Char) : fgetsRead n s <+: s := by
  fun_induction fgetsRead n s with
  | case1 s => exact List.nil_prefix
  | case2 n hn => exact List.nil_prefix
  | case3 n s => exact ⟨s, rfl⟩
  | case4 n c s hc ih => exact (List.prefix_cons_inj c).2 ih

theorem fgetsRead_ne_nil {n : ℕ} (hn : n ≠ 0) {s : List Char} (hs : s ≠ []) :
    fgetsRead n s ≠ [] := by
  obtain ⟨n, rfl⟩ := Nat.exists_eq_succ_of_ne_zero hn
  obtain ⟨c, s, rfl⟩ := List.exists_cons_of_ne_nil hs
  rw [fgetsRead]
  split_ifs <;> exact List.cons_ne_nil _ _

/-- `fgets` at the end of a stream. -/
theorem fgets_nil (cells : List Char) (n : ℕ) : fgets cells n [] = some (none, []) := by
  have hread : fgetsRead (n - 1) [] = [] := by
    cases n - 1 <;> rfl
  rw [fgets, hread]

/-- `fgets` before it, into a block of at least `n` characters. -/
theorem fgets_some {cells : List Char} {n : ℕ} (hn : 2 ≤ n) (hlen : n ≤ cells.length)
    {s : List Char} (hs : s ≠ []) :
    ∃ junk, fgets cells n s = some (some (fgetsRead (n - 1) s ++ '\x00' :: junk),
        s.drop (fgetsRead (n - 1) s).length) ∧
      (fgetsRead (n - 1) s).length + 1 + junk.length = cells.length := by
  have hne := fgetsRead_ne_nil (n := n - 1) (by omega) hs
  have hle := fgetsRead_length (n - 1) s
  obtain ⟨junk, hcopy, hsize⟩ := @strcpy_fits (fgetsRead (n - 1) s) [] cells (by omega)
  refine ⟨junk, ?_, hsize⟩
  rw [fgets]
  split
  · rename_i hnil
    exact absurd hnil hne
  · rw [List.nil_append, List.length_nil] at hcopy
    rw [hcopy]
    rfl

/-- A chunk that ends in a newline is the rest of the line. -/
theorem fgetsRead_newline {n : ℕ} {s : List Char} (h : (fgetsRead n s).getLast? = some '\n') :
    fgetsRead n s = lineOf s ++ ['\n'] ∧ s.drop (fgetsRead n s).length = afterLine s := by
  rcases fgetsRead_cases n s with ⟨hread, hs⟩ | ⟨hno, -⟩
  · have hsplit : s = (lineOf s ++ ['\n']) ++ afterLine s := by
      rw [List.append_assoc]
      exact hs
    refine ⟨hread, ?_⟩
    calc s.drop (fgetsRead n s).length
        = (lineOf s ++ ['\n'] ++ afterLine s).drop (lineOf s ++ ['\n']).length := by
          rw [hread, ← hsplit]
      _ = afterLine s := List.drop_left
  · exact absurd (List.mem_of_getLast? h) hno

/-- The line goes on behind a chunk that does not. -/
theorem fgetsRead_part {n : ℕ} {s : List Char} (h : (fgetsRead n s).getLast? ≠ some '\n') :
    lineOf s = fgetsRead n s ++ lineOf (s.drop (fgetsRead n s).length) ∧
      afterLine s = afterLine (s.drop (fgetsRead n s).length) := by
  rcases fgetsRead_cases n s with ⟨hread, -⟩ | ⟨-, hread, hline, hafter⟩
  · rw [hread] at h
    simp at h
  · have hdrop : s.drop (fgetsRead n s).length = s.drop n := by
      rw [hread, List.length_take]
      by_cases hn : n ≤ s.length
      · rw [Nat.min_eq_left hn]
      · rw [Nat.min_eq_right (by omega), List.drop_length, List.drop_eq_nil_of_le (by omega)]
    rw [hdrop]
    exact ⟨hline, hafter⟩

end Strings

end Remind.Lib
