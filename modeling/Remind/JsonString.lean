import Remind.Escape
import Remind.Lib.JsonBody

/-!
# JsonString — the two writers of JSON strings (calendar.c: `PrintJSONString`; trans.c:
# `print_escaped_string_helper`)

Both go through the bytes of a string; what they print is compared with what a reader of JSON makes
of it.
-/

namespace Remind

open Lib

/-- The bytes of a text. -/
def utf8 (s : List Char) : List UInt8 := s.flatMap String.utf8EncodeChar

/-- An ASCII character as a byte. -/
def charByte (c : Char) : UInt8 := UInt8.ofNat c.toNat

/-! ### The writers -/

/-- The letters of `PrintJSONString`. -/
def jsonEscapes : List (Char × Char) :=
  [('\x08', 'b'), ('\x0c', 'f'), ('\n', 'n'), ('\r', 'r'), ('\t', 't'), ('"', '"'), ('\\', '\\')]

/-- `\\u%04x` of a byte. -/
def uEscape (b : UInt8) : List Char :=
  ['\\', 'u', '0', '0', hexChar (b.toNat / 16), hexChar (b.toNat % 16)]

/-- `\\x%02x` -/
def xEscape (b : UInt8) : List Char := ['\\', 'x', hexChar (b.toNat / 16), hexChar (b.toNat % 16)]

/-- The `switch` over the bytes of a string: a letter behind a backslash, the number of a control
character, or what is printed for the others.  A byte from 128 on is no control character, whether
`char` is signed or not. -/
def printedByte (letters : List (Char × Char)) (number : UInt8 → List Char)
    (other : UInt8 → List UInt8) (b : UInt8) : List UInt8 :=
  match letters.find? fun p => charByte p.1 = b with
  | some p => [charByte '\\', charByte p.2]
  | none => if (0 < b ∧ b < 32) ∨ b = 0x7F then (number b).map charByte else other b

/-- `PrintJSONString` -/
def printJSONString (s : List UInt8) : List UInt8 :=
  s.flatMap (printedByte jsonEscapes uEscape fun b => [b])

/-- What `print_escaped_string_helper` puts between the quotes. -/
def escapedStringBody (escForRemind json : Bool) (s : List UInt8) : List UInt8 :=
  s.flatMap (printedByte namedEscapes (if json then uEscape else xEscape) fun b =>
    if escForRemind ∧ b = charByte '[' then "[\"[\"]".toList.map charByte else [b])

/-- `print_escaped_string_helper` -/
def printEscapedStringHelper (s : List UInt8) (escForRemind json : Bool) : List UInt8 :=
  charByte '"' :: escapedStringBody escForRemind json s ++ [charByte '"']

/-! ### A character at a time -/

/-- A character as a writer of JSON with `letters` prints it. -/
def jsonChar (letters : List (Char × Char)) (c : Char) : List Char :=
  if c.toNat < 128 then
    (printedByte letters uEscape (fun b => [b]) (charByte c)).map fun b => Char.ofNat b.toNat
  else [c]

theorem utf8_append (s t : List Char) : utf8 (s ++ t) = utf8 s ++ utf8 t := List.flatMap_append

theorem utf8_inj {s t : List Char} (h : utf8 s = utf8 t) : s = t := by
  have hbytes : s.utf8Encode = t.utf8Encode := congrArg List.toByteArray h
  rw [← String.toByteArray_ofList, ← String.toByteArray_ofList, String.toByteArray_inj] at hbytes
  exact String.ofList_injective hbytes

theorem utf8EncodeChar_low {c : Char} (hc : c.toNat < 128) :
    String.utf8EncodeChar c = [charByte c] := by
  have hv : c.val.toNat ≤ 0x7F := Nat.le_of_lt_succ hc
  unfold String.utf8EncodeChar
  exact if_pos hv

theorem utf8EncodeChar_high {c : Char} (hc : 128 ≤ c.toNat) :
    ∀ b ∈ String.utf8EncodeChar c, 128 ≤ b.toNat := by
  have hv : ¬ c.val.toNat ≤ 0x7F := Nat.not_le.2 hc
  unfold String.utf8EncodeChar
  dsimp only
  rw [if_neg hv]
  intro b hb
  split_ifs at hb <;> simp only [List.mem_cons, List.not_mem_nil, or_false] at hb
  all_goals
    rcases hb with rfl | rfl | rfl | rfl <;> rw [UInt8.toNat_ofNat'] <;> omega

/-- A byte from 128 on is printed as it is. -/
theorem printedByte_high {letters : List (Char × Char)} (hletters : ∀ p ∈ letters, p.1.toNat < 128)
    (number : UInt8 → List Char) (other : UInt8 → List UInt8) {b : UInt8} (hb : 128 ≤ b.toNat) :
    printedByte letters number other b = other b := by
  have hfind : letters.find? (fun p => charByte p.1 = b) = none := by
    rw [List.find?_eq_none]
    intro p hp heq
    have hlow := hletters p hp
    rw [← of_decide_eq_true heq, charByte, UInt8.toNat_ofNat'] at hb
    omega
  have hno : ¬ ((0 < b ∧ b < 32) ∨ b = 0x7F) := by
    rintro (⟨-, h⟩ | h)
    · rw [UInt8.lt_iff_toNat_lt] at h
      simp at h
      omega
    · rw [h] at hb
      simp at hb
  unfold printedByte
  rw [hfind]
  exact if_neg hno

/-- The letters of both writers are ASCII. -/
theorem printedByte_low : ∀ letters ∈ [jsonEscapes, namedEscapes], ∀ n < 128,
    ∀ b ∈ printedByte letters uEscape (fun b => [b]) (UInt8.ofNat n), b.toNat < 128 := by
  -- `all` walks the bytes that are printed; `∀ b ∈ _` may be decided over all bytes there are
  have hall : ([jsonEscapes, namedEscapes].all fun letters => (List.range 128).all fun n =>
      (printedByte letters uEscape (fun b => [b]) (UInt8.ofNat n)).all (·.toNat < 128)) = true := by
    decide +kernel
  intro letters hl n hn b hb
  have hbytes := List.all_eq_true.mp (List.all_eq_true.mp hall letters hl) n (List.mem_range.2 hn)
  exact of_decide_eq_true (List.all_eq_true.mp hbytes b hb)

theorem utf8_ascii {bs : List UInt8} (h : ∀ b ∈ bs, b.toNat < 128) :
    utf8 (bs.map fun b => Char.ofNat b.toNat) = bs := by
  induction bs with
  | nil => rfl
  | cons b bs ih =>
    have hb := h b List.mem_cons_self
    have hchar : (Char.ofNat b.toNat).toNat = b.toNat := by
      rw [Char.ofNat, dif_pos (.inl (by omega))]
      rfl
    have hbyte : charByte (Char.ofNat b.toNat) = b := by
      rw [charByte, hchar, UInt8.ofNat_toNat]
    rw [List.map_cons, utf8, List.flatMap_cons, utf8EncodeChar_low (by rw [hchar]; exact hb), hbyte]
    exact congrArg (b :: ·) (ih fun d hd => h d (List.mem_cons_of_mem _ hd))

/-- What a writer prints for the bytes of a character. -/
theorem printed_char {letters : List (Char × Char)} (hl : letters ∈ [jsonEscapes, namedEscapes])
    (c : Char) :
    (String.utf8EncodeChar c).flatMap (printedByte letters uEscape fun b => [b]) =
      utf8 (jsonChar letters c) := by
  have hascii : ∀ letters ∈ [jsonEscapes, namedEscapes], ∀ p ∈ letters, p.1.toNat < 128 := by decide
  by_cases hc : c.toNat < 128
  · have hlow : ∀ b ∈ printedByte letters uEscape (fun b => [b]) (charByte c), b.toNat < 128 :=
      printedByte_low letters hl c.toNat hc
    rw [utf8EncodeChar_low hc, List.flatMap_singleton, jsonChar, if_pos hc, utf8_ascii hlow]
  · have hcopy : ∀ b ∈ String.utf8EncodeChar c,
        printedByte letters uEscape (fun b => [b]) b = [b] := fun b hb =>
      printedByte_high (hascii letters hl) _ _ (utf8EncodeChar_high (Nat.le_of_not_lt hc) b hb)
    rw [jsonChar, if_neg hc, utf8, List.flatMap_singleton, List.flatMap_congr hcopy,
      List.flatMap_singleton']

/-- What a writer prints for a text. -/
theorem printed_text {letters : List (Char × Char)} (hl : letters ∈ [jsonEscapes, namedEscapes])
    (s : List Char) :
    (utf8 s).flatMap (printedByte letters uEscape fun b => [b]) =
      utf8 (s.flatMap (jsonChar letters)) := by
  induction s with
  | nil => rfl
  | cons c s ih =>
    rw [List.flatMap_cons, utf8_append, ← printed_char hl, ← ih, ← List.flatMap_append]
    rfl

/-! ### What a reader makes of it -/

/-- The letters that JSON does not know. -/
def notJson (c : Char) : Bool := c = '\x07' || c = '\x0b'

theorem jsonChar_writes : ∀ n < 128, n ≠ 0 →
    jsonWrites (jsonChar jsonEscapes (Char.ofNat n)) (Char.ofNat n) = true ∧
      (notJson (Char.ofNat n) = false →
        jsonChar namedEscapes (Char.ofNat n) = jsonChar jsonEscapes (Char.ofNat n)) := by
  decide +kernel

theorem jsonChar_json {c : Char} (hc : c ≠ '\x00') :
    jsonWrites (jsonChar jsonEscapes c) c = true ∧
      (notJson c = false → jsonChar namedEscapes c = jsonChar jsonEscapes c) := by
  by_cases hlow : c.toNat < 128
  · have hne : c.toNat ≠ 0 := fun h => hc (by rw [← Char.ofNat_toNat c, h])
    have hall := jsonChar_writes c.toNat hlow hne
    rwa [Char.ofNat_toNat] at hall
  · have hchar : ∀ letters, jsonChar letters c = [c] := fun letters => if_neg hlow
    refine ⟨?_, fun _ => by rw [hchar, hchar]⟩
    have h32 : 32 ≤ c.toNat := by omega
    have hq : c ≠ '"' := by
      rintro rfl
      exact hlow (by decide)
    have hb : c ≠ '\\' := by
      rintro rfl
      exact hlow (by decide)
    rw [hchar, jsonWrites.eq_def]
    simp [h32, hq, hb]

/-- `PrintJSONString`: what is printed is the string. -/
theorem jsonDecode_printed {s : List Char} (hs : '\x00' ∉ s) :
    jsonDecode (s.flatMap (jsonChar jsonEscapes)) = some s := by
  induction s with
  | nil => rfl
  | cons c s ih =>
    rw [List.mem_cons, not_or] at hs
    rw [List.flatMap_cons, jsonDecode_writes (jsonChar_json (Ne.symm hs.1)).1, ih hs.2]
    rfl

/-- `print_escaped_string_helper`: what is printed is a JSON string, and that string, if and only if
there is no BEL and no VT in it. -/
theorem jsonDecode_escaped {s : List Char} (hs : '\x00' ∉ s) :
    jsonDecode (s.flatMap (jsonChar namedEscapes)) = some s ↔ ∀ c ∈ s, notJson c = false := by
  induction s with
  | nil => simp [jsonDecode]
  | cons c s ih =>
    rw [List.mem_cons, not_or] at hs
    obtain ⟨hwrites, hsame⟩ := jsonChar_json (Ne.symm hs.1)
    rw [List.flatMap_cons, List.forall_mem_cons, ← ih hs.2]
    by_cases hc : notJson c = false
    · rw [hsame hc, jsonDecode_writes hwrites]
      simp [hc]
    · have hnone : jsonDecode (jsonChar namedEscapes c ++ s.flatMap (jsonChar namedEscapes)) =
          none := by
        simp only [notJson, Bool.or_eq_false_iff, decide_eq_false_iff_not, not_and_or,
          not_not] at hc
        rcases hc with rfl | rfl
        · exact jsonDecode_letter (by decide) _
        · exact jsonDecode_letter (by decide) _
      rw [hnone]
      simp [hc]

/-- The bytes `out` between the quotes are a JSON string body that stands for `s`. -/
def JsonFaithful (out : List UInt8) (s : List Char) : Prop :=
  ∃ body, out = utf8 body ∧ jsonDecode body = some s

theorem jsonFaithful_utf8 {body s : List Char} :
    JsonFaithful (utf8 body) s ↔ jsonDecode body = some s := by
  constructor
  · rintro ⟨body', hbody, hs⟩
    rwa [utf8_inj hbody]
  · exact fun h => ⟨body, rfl, h⟩

/-- For every text, `PrintJSONString` prints a JSON string that stands for it, and
`print_escaped_string_helper` does in JSON mode if and only if there is no BEL and no VT in it. -/
theorem jsonStrings_faithful_iff (s : List Char) (hs : '\x00' ∉ s) :
    JsonFaithful (printJSONString (utf8 s)) s ∧
      (JsonFaithful (escapedStringBody false true (utf8 s)) s ↔ '\x07' ∉ s ∧ '\x0b' ∉ s) := by
  have hbody : escapedStringBody false true (utf8 s) =
      utf8 (s.flatMap (jsonChar namedEscapes)) := by
    rw [← printed_text (by simp), escapedStringBody]
    rfl
  constructor
  · rw [printJSONString, printed_text (by simp), jsonFaithful_utf8]
    exact jsonDecode_printed hs
  · rw [hbody, jsonFaithful_utf8, jsonDecode_escaped hs]
    simp only [notJson, Bool.or_eq_false_iff, decide_eq_false_iff_not]
    constructor
    · exact fun h => ⟨fun hm => (h _ hm).1 rfl, fun hm => (h _ hm).2 rfl⟩
    · rintro ⟨hbel, hvt⟩ c hc
      exact ⟨fun h => hbel (h ▸ hc), fun h => hvt (h ▸ hc)⟩

/-- With a letter of two bytes, a newline and a control character. -/
theorem jsonStrings_faithful_text :
    '\x00' ∉ "é\n\x01".toList ∧
      JsonFaithful (printJSONString (utf8 "é\n\x01".toList)) "é\n\x01".toList ∧
      (JsonFaithful (escapedStringBody false true (utf8 "é\n\x01".toList)) "é\n\x01".toList ↔
        '\x07' ∉ "é\n\x01".toList ∧ '\x0b' ∉ "é\n\x01".toList) :=
  ⟨by decide, jsonStrings_faithful_iff _ (by decide)⟩

/-- The bell comes out as `\\a`, which no reader of JSON takes. -/
theorem escapedString_bell :
    printEscapedStringHelper (utf8 ['\x07']) false true = utf8 "\"\\a\"".toList ∧
      ¬ JsonFaithful (escapedStringBody false true (utf8 ['\x07'])) ['\x07'] := by
  have hbody : escapedStringBody false true (utf8 ['\x07']) = utf8 ['\\', 'a'] := by decide +kernel
  refine ⟨by decide +kernel, ?_⟩
  rw [hbody, jsonFaithful_utf8]
  decide

end Remind
