import Mathlib.Data.List.Basic

/-!
# JsonBody — what stands between the quotes of a JSON string (RFC 8259, section 7)
-/

namespace Remind.Lib

/-- The escapes of one letter. -/
def jsonLetters : List (Char × Char) :=
  [('"', '"'), ('\\', '\\'), ('/', '/'), ('b', '\x08'), ('f', '\x0c'), ('n', '\n'), ('r', '\r'),
    ('t', '\t')]

def jsonHexDigit (c : Char) : Option ℕ :=
  if '0' ≤ c ∧ c ≤ '9' then some (c.toNat - 48)
  else if 'a' ≤ c ∧ c ≤ 'f' then some (c.toNat - 87)
  else if 'A' ≤ c ∧ c ≤ 'F' then some (c.toNat - 55)
  else none

/-- Four hexadecimal digits: a UTF-16 code unit. -/
def jsonUnit (a b c d : Char) : Option ℕ := do
  let a ← jsonHexDigit a
  let b ← jsonHexDigit b
  let c ← jsonHexDigit c
  let d ← jsonHexDigit d
  return ((a * 16 + b) * 16 + c) * 16 + d

/-- The string that a body stands for, if it is one. -/
def jsonDecode : List Char → Option (List Char)
  | [] => some []
  | '\\' :: 'u' :: a :: b :: c :: d :: s =>
    match jsonUnit a b c d with
    | none => none
    | some high =>
      if 0xD800 ≤ high ∧ high < 0xDC00 then
        match s with
        | '\\' :: 'u' :: e :: f :: g :: h :: t =>
          match jsonUnit e f g h with
          | none => none
          | some low =>
            if 0xDC00 ≤ low ∧ low < 0xE000 then
              (jsonDecode t).map
                (Char.ofNat (0x10000 + (high - 0xD800) * 0x400 + (low - 0xDC00)) :: ·)
            else none
        | _ => none
      else if 0xDC00 ≤ high ∧ high < 0xE000 then none
      else (jsonDecode s).map (Char.ofNat high :: ·)
  | '\\' :: l :: s =>
    match jsonLetters.lookup l with
    | some c => (jsonDecode s).map (c :: ·)
    | none => none
  | c :: s => if c.toNat < 32 ∨ c = '"' ∨ c = '\\' then none else (jsonDecode s).map (c :: ·)

/-- `w` is a way to write the character `c`. -/
def jsonWrites (w : List Char) (c : Char) : Bool :=
  match w with
  | [d] => d = c && 32 ≤ c.toNat && c ≠ '"' && c ≠ '\\'
  | ['\\', l] => jsonLetters.lookup l = some c
  | ['\\', 'u', a, b, d, e] => jsonUnit a b d e = some c.toNat && c.toNat < 0xD800
  | _ => false

section Decode

variable {w rest : List Char} {c l : Char}

theorem jsonDecode_plain (hc : 32 ≤ c.toNat) (hq : c ≠ '"') (hb : c ≠ '\\') (rest : List Char) :
    jsonDecode (c :: rest) = (jsonDecode rest).map (c :: ·) := by
  have hplain : ¬ (c.toNat < 32 ∨ c = '"' ∨ c = '\\') := by
    rintro (h | h | h)
    · omega
    · exact hq h
    · exact hb h
  rw [jsonDecode.eq_def]
  split
  · rename_i heq
    cases heq
  · rename_i heq
    exact absurd (List.cons.inj heq).1 hb
  · rename_i heq
    exact absurd (List.cons.inj heq).1 hb
  · rename_i heq
    obtain ⟨rfl, rfl⟩ := List.cons.inj heq
    rw [if_neg hplain]

theorem jsonDecode_letter (hl : l ≠ 'u') (rest : List Char) :
    jsonDecode ('\\' :: l :: rest) =
      (jsonLetters.lookup l).bind fun c => (jsonDecode rest).map (c :: ·) := by
  rw [jsonDecode.eq_def]
  split
  · rename_i heq
    cases heq
  · rename_i heq
    exact absurd (List.cons.inj (List.cons.inj heq).2).1 hl
  · rename_i heq
    obtain ⟨-, heq⟩ := List.cons.inj heq
    obtain ⟨rfl, rfl⟩ := List.cons.inj heq
    cases jsonLetters.lookup l <;> rfl
  · rename_i hno heq
    exact (hno _ _ (List.cons.inj heq).1.symm (List.cons.inj heq).2.symm).elim

theorem jsonDecode_unit {a b d e : Char} {n : ℕ} (hn : jsonUnit a b d e = some n) (hlt : n < 0xD800)
    (rest : List Char) :
    jsonDecode ('\\' :: 'u' :: a :: b :: d :: e :: rest) =
      (jsonDecode rest).map (Char.ofNat n :: ·) := by
  rw [jsonDecode.eq_def]
  simp only [hn]
  rw [if_neg (by omega), if_neg (by omega)]

/-- A character is read as it was written. -/
theorem jsonDecode_writes (h : jsonWrites w c = true) (rest : List Char) :
    jsonDecode (w ++ rest) = (jsonDecode rest).map (c :: ·) := by
  unfold jsonWrites at h
  split at h
  · simp only [Bool.and_eq_true, decide_eq_true_eq] at h
    obtain ⟨⟨⟨rfl, hc⟩, hq⟩, hb⟩ := h
    exact jsonDecode_plain hc hq hb rest
  · rename_i l
    simp only [decide_eq_true_eq] at h
    have hl : l ≠ 'u' := by
      rintro rfl
      cases h
    show jsonDecode ('\\' :: l :: rest) = _
    rw [jsonDecode_letter hl, h]
    rfl
  · simp only [Bool.and_eq_true, decide_eq_true_eq] at h
    have hread := jsonDecode_unit h.1 h.2 rest
    rw [Char.ofNat_toNat] at hread
    exact hread
  · cases h

end Decode

end Remind.Lib
