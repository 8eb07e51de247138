import Remind.Literal

/-!
# LiteralExact — which numbers are read at their value

The digit loops compute the value of the digits modulo `2^32`.  The tests for overflow that some of
them have see only a value that became smaller; the numbers that slip through are exactly those of
the conditions below.
-/

namespace Remind

open Lib (wrap intMax InInt)

/-- The number that digits denote after `v`, in base `b`. -/
def digitsFrom (b : ℤ) (val : Char → ℤ) (v : ℤ) (ds : List Char) : ℤ :=
  ds.foldl (fun v c => v * b + val c) v

/-- The number that decimal digits denote. -/
def decimalValue (ds : List Char) : ℤ := digitsFrom 10 digitVal 0 ds

/-- The number that hexadecimal digits denote. -/
def hexValue (ds : List Char) : ℤ := digitsFrom 16 hexVal 0 ds

/-- Some first digits denote, modulo `2^32`, a smaller number than those before the last of them. -/
def Drops (b : ℤ) (val : Char → ℤ) (v : ℤ) (ds : List Char) : Prop :=
  ∃ pre c suf, ds = pre ++ c :: suf ∧
    wrap (digitsFrom b val v (pre ++ [c])) < wrap (digitsFrom b val v pre)

section Loops

variable {b v : ℤ} {val : Char → ℤ} {c : Char} {ds : List Char}

theorem digitsFrom_cons : digitsFrom b val v (c :: ds) = digitsFrom b val (v * b + val c) ds := rfl

theorem drops_nil : ¬ Drops b val v [] := by
  rintro ⟨pre, c, suf, h, -⟩
  simp at h

theorem drops_cons :
    Drops b val v (c :: ds) ↔ wrap (v * b + val c) < wrap v ∨ Drops b val (v * b + val c) ds := by
  constructor
  · rintro ⟨pre, c', suf, h, hlt⟩
    cases pre with
    | nil =>
      obtain ⟨rfl, -⟩ := List.cons.inj h
      exact Or.inl hlt
    | cons p pre =>
      obtain ⟨rfl, htail⟩ := List.cons.inj h
      exact Or.inr ⟨pre, c', suf, htail, hlt⟩
  · rintro (hlt | ⟨pre, c', suf, rfl, hlt⟩)
    · exact ⟨[], c, ds, rfl, hlt⟩
    · exact ⟨c :: pre, c', suf, rfl, hlt⟩

theorem addDigit_wrap : addDigit (wrap v) c = wrap (v * 10 + digitVal c) := by
  unfold addDigit
  rw [Lib.wrap_mul_wrap, Lib.wrap_add_wrap]

theorem addHexDigit_wrap : addHexDigit (wrap v) c = wrap (v * 16 + hexVal c) := by
  unfold addHexDigit
  rw [Lib.wrap_mul_wrap, Lib.wrap_add_wrap]

/-- The loop without a test. -/
theorem readDigits_wrap (hds : ∀ c ∈ ds, c.isDigit = true) :
    readDigits (wrap v) ds = (wrap (digitsFrom 10 digitVal v ds), []) := by
  induction ds generalizing v with
  | nil => rfl
  | cons c ds ih =>
    rw [readDigits, if_pos (hds c (by simp)), addDigit_wrap, ih fun x hx => hds x (by simp [hx])]
    rfl

/-- The loop of ParsePriority, which subtracts `'0'` last. -/
theorem priorityDigits_wrap (hds : ∀ c ∈ ds, c.isDigit = true) :
    priorityDigits (wrap v) ds = (wrap (digitsFrom 10 digitVal v ds), []) := by
  induction ds generalizing v with
  | nil => rfl
  | cons c ds ih =>
    have hstep : wrap (wrap (wrap (wrap v * 10) + c.toNat) - 48) = wrap (v * 10 + digitVal c) := by
      rw [Lib.wrap_mul_wrap, Lib.wrap_add_wrap, Int.sub_eq_add_neg, Lib.wrap_add_wrap]
      unfold digitVal
      rw [show v * 10 + (c.toNat : ℤ) + -48 = v * 10 + ((c.toNat : ℤ) - 48) by omega]
    rw [priorityDigits, if_pos (hds c (by simp)), hstep, ih fun x hx => hds x (by simp [hx])]
    rfl

/-- The loop of a decimal constant stops at the first drop. -/
theorem decimalLoop_wrap (hds : ∀ c ∈ ds, c.isDigit = true) :
    (Drops 10 digitVal v ds → decimalLoop (wrap v) ds = .error .tooHigh) ∧
      (¬ Drops 10 digitVal v ds →
        decimalLoop (wrap v) ds = .ok (wrap (digitsFrom 10 digitVal v ds), [])) := by
  induction ds generalizing v with
  | nil => exact ⟨fun h => (drops_nil h).elim, fun _ => rfl⟩
  | cons c ds ih =>
    obtain ⟨ih1, ih2⟩ := @ih (v * 10 + digitVal c) fun x hx => hds x (by simp [hx])
    rw [drops_cons, decimalLoop, if_pos (hds c (by simp)), addDigit_wrap]
    by_cases hlt : wrap (v * 10 + digitVal c) < wrap v
    · rw [if_pos hlt]
      exact ⟨fun _ => rfl, fun h => (h (Or.inl hlt)).elim⟩
    · rw [if_neg hlt]
      exact ⟨fun h => ih1 (h.resolve_left hlt), fun h => ih2 fun hd => h (Or.inr hd)⟩

theorem hexLoop_wrap (hds : ∀ c ∈ ds, isHexDigit c = true) :
    (Drops 16 hexVal v ds → hexLoop (wrap v) ds = .error .tooHigh) ∧
      (¬ Drops 16 hexVal v ds →
        hexLoop (wrap v) ds = .ok (wrap (digitsFrom 16 hexVal v ds), [])) := by
  induction ds generalizing v with
  | nil => exact ⟨fun h => (drops_nil h).elim, fun _ => rfl⟩
  | cons c ds ih =>
    obtain ⟨ih1, ih2⟩ := @ih (v * 16 + hexVal c) fun x hx => hds x (by simp [hx])
    rw [drops_cons, hexLoop, if_pos (hds c (by simp)), addHexDigit_wrap]
    by_cases hlt : wrap (v * 16 + hexVal c) < wrap v
    · rw [if_pos hlt]
      exact ⟨fun _ => rfl, fun h => (h (Or.inl hlt)).elim⟩
    · rw [if_neg hlt]
      exact ⟨fun h => ih1 (h.resolve_left hlt), fun h => ih2 fun hd => h (Or.inr hd)⟩

end Loops

section Values

variable {b v : ℤ} {val : Char → ℤ} {c : Char} {ds : List Char}

theorem digitVal_nonneg (h : c.isDigit = true) : 0 ≤ digitVal c := by
  unfold Char.isDigit at h
  simp only [Bool.and_eq_true, decide_eq_true_eq, ge_iff_le] at h
  have h48 : 48 ≤ c.toNat := h.1
  unfold digitVal
  omega

theorem hexVal_nonneg (h : isHexDigit c = true) : 0 ≤ hexVal c := by
  unfold hexVal
  by_cases hd : c.isDigit = true
  · rw [if_pos hd]
    exact digitVal_nonneg hd
  rw [if_neg hd]
  have hrange : 97 ≤ c.toNat ∧ c.toNat ≤ 102 ∨ 65 ≤ c.toNat ∧ c.toNat ≤ 70 := by
    unfold isHexDigit at h
    simp only [hd, Bool.false_or, Bool.or_eq_true, Bool.and_eq_true, decide_eq_true_eq] at h
    exact h
  have hup : c.toUpper = Char.toUpper (Char.ofNat c.toNat) := by rw [Char.ofNat_toNat]
  rw [hup]
  generalize c.toNat = k at hrange
  rcases hrange with ⟨hlo, hhi⟩ | ⟨hlo, hhi⟩
  · interval_cases k <;> decide
  · interval_cases k <;> decide

theorem digitsFrom_nonneg (hb : 0 ≤ b) (hval : ∀ c ∈ ds, 0 ≤ val c) (hv : 0 ≤ v) :
    0 ≤ digitsFrom b val v ds := by
  induction ds generalizing v with
  | nil => exact hv
  | cons c ds ih =>
    refine ih (fun x hx => hval x (by simp [hx])) ?_
    have := Int.mul_nonneg hv hb
    have := hval c (by simp)
    simp only
    omega

/-- A number that is not negative is read at its value modulo `2^32` when it fits. -/
theorem wrap_eq_iff {n : ℤ} (h0 : 0 ≤ n) : wrap n = n ↔ n ≤ intMax := by
  rw [Lib.wrap_eq_self_iff, Lib.inInt_iff]
  show _ ↔ n ≤ 2147483647
  omega

/-- A negated number also when it is `2^31`. -/
theorem wrap_neg_iff {n : ℤ} (h0 : 0 ≤ n) : wrap (wrap n * -1) = -n ↔ n ≤ intMax + 1 := by
  rw [Lib.wrap_mul_wrap, show n * -1 = -n by omega, Lib.wrap_eq_self_iff, Lib.inInt_iff]
  show _ ↔ n ≤ 2147483647 + 1
  omega

end Values

/-- The value of a numeric token. -/
def NumToken.val : NumToken → Option ℤ
  | .illegal _ => none
  | .year n => some n
  | .day n => some n
  | .number n => some n
  | .date n => some n
  | .time n => some n
  | .longTime n => some n
  | .dateTime n => some n
  | .rep n => some n
  | .delta n => some n
  | .back n => some n
  | .backAdj n => some n

section Readers

variable {cfg : LiteralSeps} {c : Char} {ds : List Char}

theorem digitNext_of_digits (hds : ∀ c ∈ ds, c.isDigit = true) (hne : ds ≠ []) :
    digitNext ds = true := by
  cases ds with
  | nil => exact (hne rfl).elim
  | cons c ds => exact hds c (by simp)

/-- The value of the digits as the loops without a test read it. -/
theorem readDigits_zero (hds : ∀ c ∈ ds, c.isDigit = true) :
    readDigits 0 ds = (wrap (decimalValue ds), []) :=
  @readDigits_wrap 0 ds hds

theorem decimalValue_nonneg (hds : ∀ c ∈ ds, c.isDigit = true) : 0 ≤ decimalValue ds :=
  digitsFrom_nonneg (by omega) (fun c hc => digitVal_nonneg (hds c hc)) le_rfl

theorem decimal_iff {sep : Char} (hds : ∀ c ∈ ds, c.isDigit = true) :
    (∀ v, numberConstant.decimal sep ds = .ok v → v = .int (decimalValue ds)) ↔
      decimalValue ds ≤ intMax ∨ Drops 10 digitVal 0 ds := by
  obtain ⟨h1, h2⟩ := @decimalLoop_wrap 0 ds hds
  change (Drops 10 digitVal 0 ds → decimalLoop 0 ds = _) at h1
  change (¬ Drops 10 digitVal 0 ds → decimalLoop 0 ds = .ok (wrap (decimalValue ds), [])) at h2
  unfold numberConstant.decimal
  by_cases hd : Drops 10 digitVal 0 ds
  · rw [h1 hd]
    exact ⟨fun _ => Or.inr hd, fun _ v hv => by cases hv⟩
  · rw [h2 hd]
    have hw := wrap_eq_iff (decimalValue_nonneg hds)
    constructor
    · intro h
      exact Or.inl (hw.mp (Value.int.inj (h _ rfl)))
    · rintro (h | h) v hv
      · rw [← hw.mpr h]
        exact (Except.ok.inj hv).symm
      · exact (hd h).elim

theorem setConstantValue_digit {s : List Char} (hne : s ≠ []) (h : digitNext s = true) :
    setConstantValue cfg s = numberConstant cfg.timeSep s := by
  cases s with
  | nil => exact (hne rfl).elim
  | cons c s =>
    have hc : c.isDigit = true := h
    unfold setConstantValue
    split
    · contradiction
    · next heq => obtain ⟨rfl, -⟩ := List.cons.inj heq; exact absurd hc (by decide)
    · next heq => obtain ⟨rfl, -⟩ := List.cons.inj heq; exact absurd hc (by decide)
    · next heq =>
      obtain ⟨rfl, rfl⟩ := List.cons.inj heq
      rw [if_pos hc]

theorem numberConstant_digits {sep : Char} (hds : ∀ c ∈ ds, c.isDigit = true) :
    numberConstant sep ds = numberConstant.decimal sep ds := by
  unfold numberConstant
  split
  · next x hex =>
    have hx : x.isDigit = true := hds x (by simp)
    rw [if_neg]
    rintro (rfl | rfl)
    · exact absurd hx (by decide)
    · exact absurd hx (by decide)
  · rfl

/-- Decimal constants of expressions. -/
theorem setConstantValue_decimal_iff (hds : ∀ c ∈ ds, c.isDigit = true) (hne : ds ≠ []) :
    (∀ v, setConstantValue cfg ds = .ok v → v = .int (decimalValue ds)) ↔
      decimalValue ds ≤ intMax ∨ Drops 10 digitVal 0 ds := by
  rw [setConstantValue_digit hne (digitNext_of_digits hds hne), numberConstant_digits hds,
    decimal_iff hds]

/-- Hexadecimal constants of expressions. -/
theorem setConstantValue_hex_iff (hds : ∀ c ∈ ds, isHexDigit c = true) (hne : ds ≠ [])
    (hx : c = 'x' ∨ c = 'X') :
    (∀ v, setConstantValue cfg ('0' :: c :: ds) = .ok v → v = .int (hexValue ds)) ↔
      hexValue ds ≤ intMax ∨ Drops 16 hexVal 0 ds := by
  obtain ⟨h, hs, rfl⟩ : ∃ h hs, ds = h :: hs := List.exists_cons_of_ne_nil hne
  obtain ⟨h1, h2⟩ := @hexLoop_wrap 0 (h :: hs) hds
  change (Drops 16 hexVal 0 (h :: hs) → hexLoop 0 (h :: hs) = _) at h1
  change (¬ Drops 16 hexVal 0 (h :: hs) →
    hexLoop 0 (h :: hs) = .ok (wrap (hexValue (h :: hs)), [])) at h2
  have hfirst : isHexDigit h = true := hds h (by simp)
  rw [setConstantValue_digit (by simp) (show digitNext ('0' :: c :: h :: hs) = true from rfl)]
  simp only [numberConstant, if_pos hx, hfirst, Bool.not_true, Bool.false_eq_true, if_false]
  by_cases hd : Drops 16 hexVal 0 (h :: hs)
  · rw [h1 hd]
    exact ⟨fun _ => Or.inr hd, fun _ v hv => by cases hv⟩
  · rw [h2 hd]
    have hw := wrap_eq_iff (n := hexValue (h :: hs))
      (digitsFrom_nonneg (by omega) (fun c hc => hexVal_nonneg (hds c hc)) le_rfl)
    constructor
    · intro hall
      exact Or.inl (hw.mp (Value.int.inj (hall _ rfl)))
    · rintro (hle | hdrop) v hv
      · rw [← hw.mpr hle]
        exact (Except.ok.inj hv).symm
      · exact (hd hdrop).elim

theorem classifyNumber_val (n : ℤ) : (classifyNumber n).val = some n := by
  unfold classifyNumber
  split_ifs <;> rfl

/-- Plain numbers in a reminder: years, days and others. -/
theorem findNumericToken_plain_iff (hds : ∀ c ∈ ds, c.isDigit = true) (hne : ds ≠ []) :
    (∀ n, (findNumericToken cfg ds).val = some n → n = decimalValue ds) ↔
      decimalValue ds ≤ intMax := by
  obtain ⟨c, cs, rfl⟩ := List.exists_cons_of_ne_nil hne
  have heq : findNumericToken cfg (c :: cs) = classifyNumber (wrap (decimalValue (c :: cs))) := by
    simp only [findNumericToken, if_pos (hds c (by simp)), digitToken, readDigits_zero hds]
  rw [heq, classifyNumber_val, ← wrap_eq_iff (decimalValue_nonneg hds)]
  exact ⟨fun h => h _ rfl, fun h n hn => (Option.some.inj hn).symm.trans h⟩

/-- A number after a single sign. -/
theorem signedToken_single_iff {mk : ℤ → NumToken} {sign : Option Char}
    (hmk : ∀ n, (mk n).val = some n) (hsign : ∀ c, sign = some c → c.isDigit = false)
    (hds : ∀ c ∈ ds, c.isDigit = true) (hne : ds ≠ []) :
    (∀ n, (signedToken mk sign ds).val = some n → n = decimalValue ds) ↔
      decimalValue ds ≤ intMax := by
  obtain ⟨c, cs, rfl⟩ := List.exists_cons_of_ne_nil hne
  have hc : c.isDigit = true := hds c (by simp)
  have hno : some c ≠ sign := fun h => absurd hc (by rw [hsign c h.symm]; simp)
  have heq : signedToken mk sign (c :: cs) = mk (wrap (wrap (decimalValue (c :: cs)) * 1)) := by
    simp only [signedToken, if_neg hno, digitNext_of_digits hds hne, readDigits_zero hds,
      Bool.not_true, Bool.false_eq_true, if_false, ne_eq, not_true_eq_false]
  rw [heq, hmk, Lib.wrap_mul_wrap, Int.mul_one, ← wrap_eq_iff (decimalValue_nonneg hds)]
  exact ⟨fun h => h _ rfl, fun h n hn => (Option.some.inj hn).symm.trans h⟩

/-- A number after a doubled sign, which is negated. -/
theorem signedToken_double_iff {mk : ℤ → NumToken} {sign : Char}
    (hmk : ∀ n, (mk n).val = some n) (hds : ∀ c ∈ ds, c.isDigit = true) (hne : ds ≠ []) :
    (∀ n, (signedToken mk (some sign) (sign :: ds)).val = some n → n = -decimalValue ds) ↔
      decimalValue ds ≤ intMax + 1 := by
  have heq : signedToken mk (some sign) (sign :: ds) = mk (wrap (wrap (decimalValue ds) * -1)) := by
    simp only [signedToken, if_true, digitNext_of_digits hds hne, readDigits_zero hds,
      Bool.not_true, Bool.false_eq_true, if_false, ne_eq, not_true_eq_false]
  rw [heq, hmk, ← wrap_neg_iff (decimalValue_nonneg hds)]
  exact ⟨fun h => h _ rfl, fun h n hn => (Option.some.inj hn).symm.trans h⟩

theorem parsePriority_iff (hds : ∀ c ∈ ds, c.isDigit = true) (hne : ds ≠ []) :
    (∀ p, parsePriority ds = .ok p → p = decimalValue ds) ↔
      decimalValue ds ≤ 9999 ∨ decimalValue ds % 4294967296 > 9999 := by
  have hread : priorityDigits 0 ds = (wrap (decimalValue ds), []) := @priorityDigits_wrap 0 ds hds
  have h0 := decimalValue_nonneg hds
  unfold parsePriority
  rw [digitNext_of_digits hds hne, hread]
  simp only [Bool.not_true, Bool.false_eq_true, if_false, ne_eq, not_true_eq_false]
  generalize decimalValue ds = n at *
  have hmod : wrap n < 0 ∨ wrap n > 9999 ↔ n % 4294967296 > 9999 := by
    unfold wrap
    omega
  by_cases hbad : wrap n < 0 ∨ wrap n > 9999
  · rw [if_pos hbad]
    exact ⟨fun _ => Or.inr (hmod.mp hbad), fun _ p hp => by cases hp⟩
  · rw [if_neg hbad]
    have hfit : wrap n = n ↔ n ≤ 9999 := by
      unfold wrap at hbad ⊢
      omega
    constructor
    · exact fun h => Or.inl (hfit.mp (h _ rfl))
    · rintro (h | h) p hp
      · rw [← hfit.mpr h]
        exact (Except.ok.inj hp).symm
      · exact (hbad (hmod.mpr h)).elim

theorem coerceStringToInt_digits (hds : ∀ c ∈ ds, c.isDigit = true) :
    coerceStringToInt ds = .ok (wrap (decimalValue ds)) := by
  unfold coerceStringToInt
  split
  next mult s hms =>
  split at hms
  · exact absurd (hds '-' (by simp)) (by decide)
  · obtain ⟨rfl, rfl⟩ := Prod.mk.inj hms
    simp only [readDigits_zero hds, ne_eq, not_true_eq_false, if_false, Int.mul_one,
      Lib.wrap_of_inInt (Lib.wrap_inInt _)]

theorem coerceStringToInt_minus (hds : ∀ c ∈ ds, c.isDigit = true) :
    coerceStringToInt ('-' :: ds) = .ok (wrap (wrap (decimalValue ds) * -1)) := by
  simp only [coerceStringToInt, readDigits_zero hds, ne_eq, not_true_eq_false, if_false]

theorem coerceStringToInt_iff (hds : ∀ c ∈ ds, c.isDigit = true) :
    ((∀ n, coerceStringToInt ds = .ok n → n = decimalValue ds) ↔ decimalValue ds ≤ intMax) ∧
      ((∀ n, coerceStringToInt ('-' :: ds) = .ok n → n = -decimalValue ds) ↔
        decimalValue ds ≤ intMax + 1) := by
  have h0 := decimalValue_nonneg hds
  rw [coerceStringToInt_digits hds, coerceStringToInt_minus hds, ← wrap_eq_iff h0,
    ← wrap_neg_iff h0]
  exact ⟨⟨fun h => h _ rfl, fun h n hn => (Except.ok.inj hn).symm.trans h⟩,
    ⟨fun h => h _ rfl, fun h n hn => (Except.ok.inj hn).symm.trans h⟩⟩

/-- **Numeric literals**: which digits are read at their value or rejected, in constants of
expressions, in the words of a reminder, in PRIORITY and in the coercion of a string to INT. -/
theorem numericLiterals_exact_iff {hs : List Char} (hds : ∀ c ∈ ds, c.isDigit = true)
    (hne : ds ≠ []) (hhs : ∀ c ∈ hs, isHexDigit c = true) (hhne : hs ≠ []) :
    ((∀ v, setConstantValue cfg ds = .ok v → v = .int (decimalValue ds)) ↔
        decimalValue ds ≤ intMax ∨ Drops 10 digitVal 0 ds) ∧
      (∀ x, x = 'x' ∨ x = 'X' →
        ((∀ v, setConstantValue cfg ('0' :: x :: hs) = .ok v → v = .int (hexValue hs)) ↔
          hexValue hs ≤ intMax ∨ Drops 16 hexVal 0 hs)) ∧
      ((∀ n, (findNumericToken cfg ds).val = some n → n = decimalValue ds) ↔
        decimalValue ds ≤ intMax) ∧
      (∀ sign ∈ ['*', '+', '-', '~'],
        ((∀ n, (findNumericToken cfg (sign :: ds)).val = some n → n = decimalValue ds) ↔
          decimalValue ds ≤ intMax)) ∧
      (∀ sign ∈ ['+', '-', '~'],
        ((∀ n, (findNumericToken cfg (sign :: sign :: ds)).val = some n → n = -decimalValue ds) ↔
          decimalValue ds ≤ intMax + 1)) ∧
      ((∀ p, parsePriority ds = .ok p → p = decimalValue ds) ↔
        decimalValue ds ≤ 9999 ∨ decimalValue ds % 4294967296 > 9999) ∧
      ((∀ n, coerceStringToInt ds = .ok n → n = decimalValue ds) ↔ decimalValue ds ≤ intMax) ∧
      ((∀ n, coerceStringToInt ('-' :: ds) = .ok n → n = -decimalValue ds) ↔
        decimalValue ds ≤ intMax + 1) := by
  have hsign : ∀ x : Char, x.isDigit = false → ∀ c, some x = some c → c.isDigit = false := by
    rintro x hx c ⟨⟩
    exact hx
  refine ⟨setConstantValue_decimal_iff hds hne, fun x hx => setConstantValue_hex_iff hhs hhne hx,
    findNumericToken_plain_iff hds hne, ?_, ?_, parsePriority_iff hds hne,
    (coerceStringToInt_iff hds).1, (coerceStringToInt_iff hds).2⟩
  · intro sign hs
    simp only [List.mem_cons, List.not_mem_nil, or_false] at hs
    rcases hs with rfl | rfl | rfl | rfl
    · exact @signedToken_single_iff ds .rep none (fun _ => rfl) (by rintro c ⟨⟩) hds hne
    · exact @signedToken_single_iff ds .delta (some '+') (fun _ => rfl) (hsign '+' rfl) hds hne
    · exact @signedToken_single_iff ds .back (some '-') (fun _ => rfl) (hsign '-' rfl) hds hne
    · exact @signedToken_single_iff ds .backAdj (some '~') (fun _ => rfl) (hsign '~' rfl) hds hne
  · intro sign hs
    simp only [List.mem_cons, List.not_mem_nil, or_false] at hs
    rcases hs with rfl | rfl | rfl
    · exact @signedToken_double_iff ds .delta '+' (fun _ => rfl) hds hne
    · exact @signedToken_double_iff ds .back '-' (fun _ => rfl) hds hne
    · exact @signedToken_double_iff ds .backAdj '~' (fun _ => rfl) hds hne

end Readers

/-- Ten digits that are read as something else. -/
theorem tenDigits_misread :
    setConstantValue {} "4800000000".toList = .ok (.int 505032704) ∧
      findNumericToken {} "4294967297".toList = .day 1 ∧
      findNumericToken {} "*4294967303".toList = .rep 7 ∧
      parsePriority "4294967297".toList = .ok 1 ∧
      coerceStringToInt "4294967297".toList = .ok 1 := by
  refine ⟨?_, ?_, ?_, ?_, ?_⟩
  · decide
  · decide +kernel
  · decide +kernel
  · decide +kernel
  · decide +kernel

theorem numericLiterals_exact_twelve :
    findNumericToken {} "12".toList = .day 12 ∧
      ∀ n, (findNumericToken {} ['1', '2']).val = some n → n = 12 := by
  have hds : ∀ c ∈ ['1', '2'], c.isDigit = true := by simp
  have hhs : ∀ c ∈ ['a'], isHexDigit c = true := by simp [isHexDigit]
  refine ⟨by decide, ?_⟩
  exact (@numericLiterals_exact_iff {} ['1', '2'] ['a'] hds (by decide) hhs
    (by decide)).2.2.1.mpr (by decide)

end Remind
