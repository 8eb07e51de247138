import Mathlib
import Remind.FindToken
import Remind.Lib.PrefixSearch

/-!
# TokenSearch — the bisection finds what a scan of the table finds (token.c: `FindToken`,
# `TokArray`, `TokStrCmp`)
-/

namespace Remind

open Lib (prefixCmp prefixCmp_eq_iff prefixCmp_gt_of_lt prefixCmp_lt_of_lt prefixCmp_between)

/-- The word that is looked up: without a trailing comma, in lower case. -/
def plainWord (s : List Char) : List Char :=
  (if s.getLast? = some ',' then s.dropLast else s).map Char.toLower

/-- The word is an abbreviation of the entry's name, and long enough for one. -/
def TokEntry.Abbreviates (e : TokEntry) (s : List Char) : Prop :=
  plainWord s <+: e.name.toList ∧ e.minLen ≤ (plainWord s).length

instance (e : TokEntry) (s : List Char) : Decidable (e.Abbreviates s) :=
  inferInstanceAs (Decidable (_ ∧ _))

/-- A linear scan of the table. -/
def scanTokArray (s : List Char) : RemToken :=
  match tokArray.find? fun e => e.Abbreviates s with
  | some e => e.tok
  | none => .num (.illegal none)

section Compare

variable {s : List Char} {k : List Char}

theorem plainWord_cons {c : Char} {s : List Char} (h : s ≠ []) :
    plainWord (c :: s) = c.toLower :: plainWord s := by
  obtain ⟨d, s, rfl⟩ := List.exists_cons_of_ne_nil h
  unfold plainWord
  rw [List.getLast?_cons_cons]
  split_ifs <;> simp

theorem wordLen_eq (s : List Char) : wordLen s = (plainWord s).length := by
  unfold wordLen plainWord
  split_ifs <;> simp

theorem plainWord_single {c : Char} (hc : c ≠ ',') : plainWord [c] = [c.toLower] := by
  simp [plainWord, hc]

theorem compare_toNat (a b : Char) :
    ((a.toNat : ℤ) - b.toNat < 0 ↔ compare a b = .lt) ∧
      ((a.toNat : ℤ) - b.toNat > 0 ↔ compare a b = .gt) := by
  rw [compare_lt_iff_lt, compare_gt_iff_gt, gt_iff_lt, Char.lt_def, Char.lt_def,
    UInt32.lt_iff_toNat_lt, UInt32.lt_iff_toNat_lt]
  change ((a.val.toNat : ℤ) - b.val.toNat < 0 ↔ _) ∧ ((a.val.toNat : ℤ) - b.val.toNat > 0 ↔ _)
  omega

theorem lower_toNat_pos {c : Char} (hc : c ≠ '\x00') : 0 < c.toLower.toNat := by
  by_cases hup : c.val ≥ 'A'.val ∧ c.val ≤ 'Z'.val
  · have hlo : 65 ≤ c.val.toNat := hup.1
    have hhi : c.val.toNat ≤ 90 := hup.2
    rw [Char.toLower, dif_pos hup]
    change 0 < (c.val + 32).toNat
    rw [UInt32.toNat_add, show (32 : UInt32).toNat = 32 from rfl]
    omega
  · rw [Char.toLower, dif_neg hup]
    exact Nat.pos_of_ne_zero fun h0 => hc (Char.toNat_inj.mp h0)

/-- `TokStrCmp` compares the name with the word as far as the word goes. -/
theorem tokStrCmp_sign (hs : '\x00' ∉ s) :
    (tokStrCmp k s < 0 ↔ prefixCmp k (plainWord s) = .lt) ∧
      (tokStrCmp k s > 0 ↔ prefixCmp k (plainWord s) = .gt) := by
  induction s generalizing k with
  | nil => cases k <;> simp [tokStrCmp, plainWord, prefixCmp]
  | cons c s ih =>
    rw [List.mem_cons, not_or] at hs
    by_cases hcomma : c = ',' ∧ s = []
    · obtain ⟨rfl, rfl⟩ := hcomma
      cases k <;> simp [tokStrCmp, plainWord, prefixCmp]
    · have hword : plainWord (c :: s) = c.toLower :: plainWord s := by
        by_cases hnil : s = []
        · subst hnil
          exact plainWord_single fun h => hcomma ⟨h, rfl⟩
        · exact plainWord_cons hnil
      have hpos := lower_toNat_pos (Ne.symm hs.1)
      rw [hword]
      cases k with
      | nil =>
        rw [tokStrCmp, if_neg hcomma, prefixCmp]
        exact ⟨by simp; omega, by simp⟩
      | cons d k =>
        obtain ⟨hlt, hgt⟩ := compare_toNat d c.toLower
        rw [tokStrCmp, if_neg hcomma, prefixCmp, Ordering.then_eq_lt, Ordering.then_eq_gt, ← hlt,
          ← hgt, compare_eq_iff_eq]
        by_cases heq : d = c.toLower
        · subst heq
          simpa using ih hs.2
        · have hne : (d.toNat : ℤ) - c.toLower.toNat ≠ 0 := fun h =>
            heq (Char.toNat_inj.mp (by omega))
          rw [if_pos hne]
          exact ⟨⟨Or.inl, fun h => h.resolve_right fun h => heq h.1⟩,
            ⟨Or.inl, fun h => h.resolve_right fun h => heq h.1⟩⟩

theorem tokStrCmp_eq_zero (hs : '\x00' ∉ s) : tokStrCmp k s = 0 ↔ plainWord s <+: k := by
  obtain ⟨hlt, hgt⟩ := @tokStrCmp_sign s k hs
  rw [← prefixCmp_eq_iff]
  constructor
  · intro h
    cases hcmp : prefixCmp k (plainWord s) with
    | eq => rfl
    | lt => exact absurd (hlt.mpr hcmp) (by omega)
    | gt => exact absurd (hgt.mpr hcmp) (by omega)
  · intro h
    rw [h] at hlt hgt
    have h1 := mt hlt.mp nofun
    have h2 := mt hgt.mp nofun
    omega

end Compare

/-! ### The table -/

/-- The names stand in increasing order. -/
theorem tokArray_sorted : tokArray.Pairwise fun e e' => e.name.toList < e'.name.toList := by
  have hnext : (tokArray.map fun e => e.name.toList).IsChain (· < ·) := by decide +kernel
  exact List.pairwise_map.mp hnext.pairwise

/-- Two names differ before the place where an abbreviation of either is long enough. -/
theorem tokArray_apart : tokArray.Pairwise fun e e' =>
    e.name.toList.take (max e.minLen e'.minLen) ≠ e'.name.toList.take (max e.minLen e'.minLen) := by
  decide +kernel

section Search

variable {s : List Char} {e e' : TokEntry}

/-- A word that is long enough for an abbreviation shows where the names differ. -/
theorem TokEntry.Abbreviates.take_eq (h : e.Abbreviates s) (h' : e'.Abbreviates s) :
    e.name.toList.take (max e.minLen e'.minLen) =
      e'.name.toList.take (max e.minLen e'.minLen) := by
  have htake : ∀ {k : List Char}, plainWord s <+: k →
      k.take (max e.minLen e'.minLen) = (plainWord s).take (max e.minLen e'.minLen) := by
    rintro k ⟨t, rfl⟩
    exact List.take_append_of_le_length (max_le h.2 h'.2)
  rw [htake h.1, htake h'.1]

/-- A word abbreviates one entry at most. -/
theorem abbreviates_unique {i j : ℕ} (hi : tokArray[i]? = some e) (hj : tokArray[j]? = some e')
    (h : e.Abbreviates s) (h' : e'.Abbreviates s) : i = j := by
  have hpair := List.pairwise_iff_getElem.mp tokArray_apart
  obtain ⟨hil, rfl⟩ := List.getElem?_eq_some_iff.mp hi
  obtain ⟨hjl, rfl⟩ := List.getElem?_eq_some_iff.mp hj
  rcases lt_trichotomy i j with hij | hij | hij
  · exact (hpair i j hil hjl hij (h.take_eq h')).elim
  · exact hij
  · exact (hpair j i hjl hil hij (h'.take_eq h)).elim

theorem scanTokArray_of_mem {i : ℕ} (hi : tokArray[i]? = some e) (h : e.Abbreviates s) :
    scanTokArray s = e.tok := by
  unfold scanTokArray
  cases hf : tokArray.find? fun e => e.Abbreviates s with
  | none =>
    have := List.find?_eq_none.mp hf e (List.mem_of_getElem? hi)
    exact absurd h (by simpa using this)
  | some e' =>
    obtain ⟨j, hj⟩ := List.mem_iff_getElem?.mp (List.mem_of_find?_eq_some hf)
    have h' : e'.Abbreviates s := by simpa using List.find?_some hf
    obtain rfl := abbreviates_unique hi hj h h'
    rw [hi] at hj
    cases hj
    rfl

theorem scanTokArray_of_none (h : ∀ e ∈ tokArray, ¬ e.Abbreviates s) :
    scanTokArray s = .num (.illegal none) := by
  unfold scanTokArray
  rw [List.find?_eq_none.mpr fun e he => by simpa using h e he]

/-- The sign of the comparison along the table. -/
theorem tokStrCmp_pos_mono {i j : ℕ} (hs : '\x00' ∉ s) (hij : i < j)
    (hi : tokArray[i]? = some e) (hj : tokArray[j]? = some e')
    (h : tokStrCmp e.name.toList s > 0) : tokStrCmp e'.name.toList s > 0 := by
  obtain ⟨hil, rfl⟩ := List.getElem?_eq_some_iff.mp hi
  obtain ⟨hjl, rfl⟩ := List.getElem?_eq_some_iff.mp hj
  have hlt := List.pairwise_iff_getElem.mp tokArray_sorted i j hil hjl hij
  exact (tokStrCmp_sign hs).2.mpr (prefixCmp_gt_of_lt hlt ((tokStrCmp_sign hs).2.mp h))

theorem tokStrCmp_neg_mono {i j : ℕ} (hs : '\x00' ∉ s) (hij : i < j)
    (hi : tokArray[i]? = some e) (hj : tokArray[j]? = some e')
    (h : tokStrCmp e'.name.toList s < 0) : tokStrCmp e.name.toList s < 0 := by
  obtain ⟨hil, rfl⟩ := List.getElem?_eq_some_iff.mp hi
  obtain ⟨hjl, rfl⟩ := List.getElem?_eq_some_iff.mp hj
  have hlt := List.pairwise_iff_getElem.mp tokArray_sorted i j hil hjl hij
  exact (tokStrCmp_sign hs).1.mpr (prefixCmp_lt_of_lt hlt ((tokStrCmp_sign hs).1.mp h))

/-- The entries that a word begins stand side by side. -/
theorem tokStrCmp_between {i j k : ℕ} {e'' : TokEntry} (hs : '\x00' ∉ s) (hij : i ≤ j) (hjk : j ≤ k)
    (hi : tokArray[i]? = some e) (hj : tokArray[j]? = some e') (hk : tokArray[k]? = some e'')
    (h : tokStrCmp e.name.toList s = 0) (h'' : tokStrCmp e''.name.toList s = 0) :
    tokStrCmp e'.name.toList s = 0 := by
  rcases eq_or_lt_of_le hij with rfl | hij
  · rw [hi] at hj
    cases hj
    exact h
  rcases eq_or_lt_of_le hjk with rfl | hjk
  · rw [hj] at hk
    cases hk
    exact h''
  have h1 : ¬ tokStrCmp e'.name.toList s < 0 := fun hneg =>
    absurd (tokStrCmp_neg_mono hs hij hi hj hneg) (by omega)
  have h2 : ¬ tokStrCmp e'.name.toList s > 0 := fun hpos =>
    absurd (tokStrCmp_pos_mono hs hjk hj hk hpos) (by omega)
  omega

/-- `firstMatch` goes back to the first of the entries that a word begins. -/
theorem firstMatch_spec (s : List Char) (mid : ℕ) : firstMatch s mid ≤ mid ∧
    (∀ i, firstMatch s mid ≤ i → i < mid → entryMatches s i = true) ∧
      (firstMatch s mid = 0 ∨ entryMatches s (firstMatch s mid - 1) = false) := by
  induction mid with
  | zero => exact ⟨le_rfl, fun i _ hi => absurd hi (Nat.not_lt_zero i), Or.inl rfl⟩
  | succ mid ih =>
    obtain ⟨hle, hall, hend⟩ := ih
    unfold firstMatch
    split_ifs with hm
    · refine ⟨by omega, fun i h1 h2 => ?_, hend⟩
      rcases eq_or_lt_of_le (Nat.le_of_lt_succ h2) with rfl | h2
      · exact hm
      · exact hall i h1 h2
    · exact ⟨le_rfl, fun i h1 h2 => by omega, Or.inr (by simpa using hm)⟩

/-- Among entries of which those that the word begins come first, `longEnough` finds the one that
it abbreviates. -/
theorem longEnough_eq {es : List TokEntry} (hs : '\x00' ∉ s)
    (hes : es.Pairwise fun e e' => tokStrCmp e'.name.toList s = 0 → tokStrCmp e.name.toList s = 0) :
    longEnough s (wordLen s) es =
      match es.find? fun e => e.Abbreviates s with
      | some e => e.tok
      | none => .num (.illegal none) := by
  induction es with
  | nil => rfl
  | cons e es ih =>
    obtain ⟨hfst, hes⟩ := List.pairwise_cons.mp hes
    unfold longEnough
    rw [wordLen_eq] at ih ⊢
    by_cases hzero : tokStrCmp e.name.toList s = 0
    · rw [if_pos hzero]
      by_cases hlen : (plainWord s).length < e.minLen
      · rw [if_pos hlen, ih hes, List.find?_cons_of_neg]
        simpa using fun h : e.Abbreviates s => absurd h.2 (by omega)
      · rw [if_neg hlen, List.find?_cons_of_pos]
        exact decide_eq_true ⟨(tokStrCmp_eq_zero hs).mp hzero, by omega⟩
    · rw [if_neg hzero, List.find?_eq_none.mpr]
      intro e' he'
      have hno : ¬ e'.Abbreviates s := by
        intro h
        rcases List.mem_cons.mp he' with rfl | he'
        · exact hzero ((tokStrCmp_eq_zero hs).mpr h.1)
        · exact hzero (hfst e' he' ((tokStrCmp_eq_zero hs).mpr h.1))
      simpa using hno

/-- The correction of `FindToken` around a hit. -/
theorem longEnough_hit {mid : ℕ} (hs : '\x00' ∉ s) (hmid : tokArray[mid]? = some e)
    (hzero : tokStrCmp e.name.toList s = 0) :
    longEnough s (wordLen s) (tokArray.drop (firstMatch s mid)) = scanTokArray s := by
  obtain ⟨hle, hall, hend⟩ := firstMatch_spec s mid
  set f := firstMatch s mid with hf
  have hmatch : ∀ {i : ℕ} {e : TokEntry}, tokArray[i]? = some e →
      (entryMatches s i = true ↔ tokStrCmp e.name.toList s = 0) := by
    intro i e hi
    unfold entryMatches
    rw [hi]
    exact decide_eq_true_iff
  have hblock : (tokArray.drop f).Pairwise fun e e' =>
      tokStrCmp e'.name.toList s = 0 → tokStrCmp e.name.toList s = 0 := by
    rw [List.pairwise_iff_getElem]
    intro i j hi hj hij hj0
    rw [List.getElem_drop] at hj0 ⊢
    have hget : ∀ {k : ℕ} (hk : k < tokArray.length), tokArray[k]? = some tokArray[k] :=
      fun hk => List.getElem?_eq_getElem hk
    rw [List.length_drop] at hi hj
    rcases lt_or_ge (f + i) mid with h | h
    · exact (hmatch (hget (by omega))).mp (hall _ (by omega) h)
    · exact tokStrCmp_between hs h (by omega) hmid (hget (by omega)) (hget (by omega)) hzero hj0
  rw [longEnough_eq hs hblock]
  -- none of the entries before the first match is abbreviated
  have hbefore : (tokArray.take f).find? (fun e => e.Abbreviates s) = none := by
    rw [List.find?_eq_none]
    intro e' he' habb
    obtain ⟨i, hi⟩ := List.mem_iff_getElem?.mp he'
    rw [List.getElem?_take] at hi
    split_ifs at hi with hif
    have hzero' : tokStrCmp e'.name.toList s = 0 :=
      (tokStrCmp_eq_zero hs).mpr (of_decide_eq_true habb).1
    rcases hend with h0 | hend
    · omega
    · obtain ⟨e'', he''⟩ : ∃ e'', tokArray[f - 1]? = some e'' := by
        obtain ⟨hlt, -⟩ := List.getElem?_eq_some_iff.mp hmid
        exact ⟨_, List.getElem?_eq_getElem (by omega)⟩
      have := (hmatch he'').mpr
        (tokStrCmp_between hs (by omega) (by omega) hi he'' hmid hzero' hzero)
      rw [hend] at this
      cases this
  have hsplit : tokArray.find? (fun e => e.Abbreviates s) =
      (tokArray.drop f).find? fun e => e.Abbreviates s := by
    conv_lhs => rw [← List.take_append_drop f tokArray]
    rw [List.find?_append, hbefore, Option.none_or]
  unfold scanTokArray
  rw [hsplit]

/-- No entry is left in an empty window. -/
theorem scanTokArray_of_window {bot top : ℤ} (hs : '\x00' ∉ s) (hlt : top < bot)
    (hlow : ∀ (i : ℕ) (e : TokEntry), (i : ℤ) < bot → tokArray[i]? = some e →
      tokStrCmp e.name.toList s < 0)
    (hhigh : ∀ (i : ℕ) (e : TokEntry), top < (i : ℤ) → tokArray[i]? = some e →
      tokStrCmp e.name.toList s > 0) :
    scanTokArray s = .num (.illegal none) := by
  refine scanTokArray_of_none fun e he habb => ?_
  obtain ⟨i, hi⟩ := List.mem_iff_getElem?.mp he
  have hzero := (tokStrCmp_eq_zero hs).mpr habb.1
  rcases lt_or_ge (i : ℤ) bot with h | h
  · exact absurd (hlow i e h hi) (by omega)
  · exact absurd (hhigh i e (by omega) hi) (by omega)

/-- The bisection: the entries before `bot` are less than the word, those behind `top` greater. -/
theorem wordLoop_eq {n : ℕ} {bot top : ℤ} (hs : '\x00' ∉ s) (hbot : 0 ≤ bot)
    (htop : top < tokArray.length) (hn : top + 1 - bot ≤ n)
    (hlow : ∀ (i : ℕ) (e : TokEntry), (i : ℤ) < bot → tokArray[i]? = some e →
      tokStrCmp e.name.toList s < 0)
    (hhigh : ∀ (i : ℕ) (e : TokEntry), top < (i : ℤ) → tokArray[i]? = some e →
      tokStrCmp e.name.toList s > 0) :
    wordLoop s (wordLen s) n bot top = scanTokArray s := by
  induction n generalizing bot top with
  | zero => exact (scanTokArray_of_window hs (by omega) hlow hhigh).symm
  | succ n ih =>
    unfold wordLoop
    by_cases hlt : top < bot
    · rw [if_pos hlt, scanTokArray_of_window hs hlt hlow hhigh]
    rw [if_neg hlt]
    obtain ⟨mid, hmid⟩ : ∃ mid : ℕ, (top + bot) / 2 = mid := ⟨((top + bot) / 2).toNat, by omega⟩
    have hlen : mid < tokArray.length := by omega
    have hget := List.getElem?_eq_getElem hlen
    simp only [hmid, Int.toNat_natCast, hget]
    by_cases hzero : tokStrCmp tokArray[mid].name.toList s = 0
    · rw [if_pos hzero]
      split_ifs with hl
      · rw [wordLen_eq] at hl
        exact (scanTokArray_of_mem hget ⟨(tokStrCmp_eq_zero hs).mp hzero, hl⟩).symm
      · exact longEnough_hit hs hget hzero
    · rw [if_neg hzero]
      split_ifs with hpos
      · refine ih hbot (by omega) (by omega) hlow fun i e hi hie => ?_
        rcases eq_or_lt_of_le (show mid ≤ i by omega) with rfl | hi
        · rw [hget] at hie
          cases hie
          exact hpos
        · exact tokStrCmp_pos_mono hs hi hget hie hpos
      · refine ih (by omega) htop (by omega) (fun i e hi hie => ?_) hhigh
        rcases eq_or_lt_of_le (show i ≤ mid by omega) with rfl | hi
        · rw [hget] at hie
          cases hie
          omega
        · exact tokStrCmp_neg_mono hs hi hie hget (by omega)

end Search

/-- **`FindToken` follows the plain rule**: it finds the entry of the table that the word
abbreviates, of which there is one at most, and no token where there is none; that is what a scan
of the table finds. -/
theorem findToken_abbreviation (c : LiteralSeps) {ch : Char} {s : List Char}
    (hch : ch.isAlpha = true) (hs : '\x00' ∉ ch :: s) :
    (∀ e ∈ tokArray, e.Abbreviates (ch :: s) → findToken c (ch :: s) = e.tok) ∧
      ((∀ e ∈ tokArray, ¬ e.Abbreviates (ch :: s)) →
        findToken c (ch :: s) = .num (.illegal none)) ∧
      (∀ (i j : ℕ) (e e' : TokEntry), tokArray[i]? = some e → tokArray[j]? = some e' →
        e.Abbreviates (ch :: s) → e'.Abbreviates (ch :: s) → i = j) ∧
      findToken c (ch :: s) = scanTokArray (ch :: s) := by
  have hscan : findToken c (ch :: s) = scanTokArray (ch :: s) := by
    unfold findToken
    dsimp only
    rw [if_neg (by rintro (rfl | rfl) <;> exact absurd hch (by decide)), hch]
    refine wordLoop_eq hs le_rfl (by omega) (by omega) (fun i e hi _ => by omega) ?_
    intro i e hi hie
    have hlen := (List.getElem?_eq_some_iff.mp hie).1
    omega
  refine ⟨fun e he h => ?_, fun h => ?_, fun i j e e' hi hj h h' => abbreviates_unique hi hj h h',
    hscan⟩
  · obtain ⟨i, hi⟩ := List.mem_iff_getElem?.mp he
    rw [hscan, scanTokArray_of_mem hi h]
  · rw [hscan, scanTokArray_of_none h]

/-- `Sept,` is September. -/
theorem findToken_abbreviation_sept :
    findToken {} ['S', 'e', 'p', 't', ','] = .month 8 ∧
      findToken {} ['P', 's', 'f'] = .num (.illegal none) := by
  constructor
  · refine (@findToken_abbreviation {} 'S' ['e', 'p', 't', ','] (by decide) (by decide)).1
      ⟨"september", 3, .month 8⟩ ?_ (by decide +kernel)
    exact List.mem_of_getElem? (show tokArray[73]? = some _ from rfl)
  · exact (@findToken_abbreviation {} 'P' ['s', 'f'] (by decide) (by decide)).2.1
      (by decide +kernel)

end Remind
