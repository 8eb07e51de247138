import Remind.StringFuncs

/-!
# StringPairs — the string functions and their multibyte versions agree on ASCII

The pairs walk their strings in different ways; where both stay inside they come to the same value.
-/

namespace Remind

open Lib

/-- ASCII characters other than the zero. -/
def Ascii (s : List Char) : Prop := ∀ c ∈ s, 0 < c.toNat ∧ c.toNat < 128

/-- Both stay inside of their strings, and come to the same. -/
def Agree (f g : StringRun Value) : Prop := ∃ r : Except ErrCode Value, f = some r ∧ g = some r

section Walks

variable {env : StringEnv} {str needle : List Char} {p k : ℕ} {q : ℤ}

theorem agree_pure (v : Value) : Agree (pure v) (pure v) := ⟨.ok v, rfl, rfl⟩

theorem agree_throw (e : ErrCode) : Agree (throw e) (throw e) := ⟨.error e, rfl, rfl⟩

theorem wide_ascii (hs : Ascii str) : env.wide str = pure str := by
  rw [StringEnv.wide, env.mbstowcs_ascii str hs]

theorem readAt_nat (h : p ≤ str.length) : readAt str p = pure str[p]? := by
  rw [readAt, if_pos (by omega)]
  rfl

theorem stringAt_nat (h : p ≤ str.length) : stringAt str p = pure (str.drop p) := by
  rw [stringAt, if_pos (by omega)]
  rfl

/-- The walk over a string stops at its end. -/
theorem startLoop_nat (k : ℕ) (q : ℤ) (h : p ≤ str.length) :
    startLoop str k (p, q) =
      pure (((min (p + k) str.length : ℕ) : ℤ), q + (min (p + k) str.length - p : ℕ)) := by
  induction k generalizing p q with
  | zero =>
    rw [Nat.add_zero, Nat.min_eq_left h, Nat.sub_self]
    simp [startLoop]
  | succ k ih =>
    rw [startLoop, readAt_nat h]
    cases hp : str[p]? with
    | none =>
      have hle := List.getElem?_eq_none_iff.1 hp
      have hmin : min (p + (k + 1)) str.length = p := by omega
      rw [hmin, Nat.sub_self]
      simp
    | some c =>
      have hlt := (List.getElem?_eq_some_iff.1 hp).1
      have hnext := ih (p := p + 1) (q + 1) hlt
      have hmin : min (p + 1 + k) str.length = min (p + (k + 1)) str.length := by
        rw [Nat.add_assoc, Nat.add_comm 1 k]
      rw [hmin] at hnext
      push_cast at hnext
      rw [pure_bind]
      dsimp only
      rw [hnext]
      congr 2 <;> omega

/-! ### strlen, index and substr -/

theorem strlen_agree (hs : Ascii str) :
    Agree (fStrlen [strVal str]) (fMbstrlen env [strVal str]) := by
  have htext : (String.ofList str).toList = str := String.toList_ofList
  simp only [fStrlen, fMbstrlen, strVal, htext, wide_ascii hs, pure_bind]
  split_ifs
  · exact agree_throw _
  · exact agree_pure _

/-- Where a pointer of `FIndex` stands behind its loop. -/
theorem findIndex_third (n : ℤ) (hay needle : List Char) :
    findIndex hay needle (some n) = (do
      return foundValue (← strstr hay (min (n - 1).toNat hay.length : ℕ) needle)) := by
  have hskip := @startLoop_nat hay 0 (n - 1).toNat 1 (Nat.zero_le _)
  rw [Nat.zero_add, Nat.sub_zero] at hskip
  rw [findIndex]
  rw [show ((0 : ℤ), (1 : ℤ)) = (((0 : ℕ) : ℤ), 1) from rfl, hskip]
  rfl

/-- Where `strstr` finds the first `needle` from `p` on, as `index` counts; 0 for nowhere. -/
def foundFrom (str : List Char) (p : ℕ) (needle : List Char) : ℤ :=
  match (List.range ((str.drop p).length + 1)).find? fun q =>
      needle.isPrefixOf ((str.drop p).drop q) with
  | none => 0
  | some q => wrap (p + q + 1)

/-- A search from inside of a string comes to a value. -/
theorem search_nat (h : p ≤ str.length) (needle : List Char) :
    (do return foundValue (← strstr str p needle)) =
      (pure (.int (foundFrom str p needle)) : StringRun Value) := by
  rw [strstr, stringAt_nat h, pure_bind, pure_bind, foundFrom]
  cases (List.range ((str.drop p).length + 1)).find? fun q =>
    needle.isPrefixOf ((str.drop p).drop q) <;> rfl

theorem agree_pure_iff {v w : Value} : Agree (pure v) (pure w) ↔ v = w := by
  constructor
  · rintro ⟨r, hv, hw⟩
    have hr := hv.trans hw.symm
    cases hr
    rfl
  · rintro rfl
    exact agree_pure v

theorem pointerAdd_nat (h : p ≤ str.length) : pointerAdd str 0 p = pure (p : ℤ) := by
  rw [pointerAdd, Int.zero_add, if_pos (by omega)]

theorem wrap_le {n : ℤ} (h : 0 ≤ n) : wrap n ≤ n := by
  unfold wrap
  omega

/-- The third argument of `index` is one where `mbindex` starts at the same place, or comes to the
same: it is a position up to the `int` length, or the search from it finds what the search from the
end finds. -/
def SameStart (str needle : List Char) (n : ℤ) : Prop :=
  1 ≤ n ∧ n ≤ wrap str.length ∨
    wrap str.length < n ∧
      foundFrom str (min (n - 1).toNat str.length) needle = foundFrom str str.length needle

/-- Up to 2^31 characters any position from 1 on is one. -/
theorem sameStart_iff (hlen : str.length < 2 ^ 31) (n : ℤ) :
    SameStart str needle n ↔ 1 ≤ n := by
  have hwrap : wrap (str.length : ℤ) = str.length := wrap_of_inInt (by rw [inInt_iff]; omega)
  rw [SameStart, hwrap]
  constructor
  · rintro (⟨hpos, -⟩ | ⟨hlt, -⟩) <;> omega
  · intro hpos
    by_cases hle : n ≤ str.length
    · exact .inl ⟨hpos, hle⟩
    · have hmin : min (n - 1).toNat str.length = str.length := by omega
      exact .inr ⟨by omega, by rw [hmin]⟩

/-- `index` and `mbindex` agree where their starts do. -/
theorem index_agree_iff (hs : Ascii str) (hn : Ascii needle) (third : Option ℤ) :
    Agree (findIndex str needle third) (findMbIndex env str needle third) ↔
      ∀ n ∈ third, SameStart str needle n := by
  cases third with
  | none =>
    refine iff_of_true ?_ nofun
    have hsearch := @search_nat str 0 (Nat.zero_le _) needle
    rw [findIndex, findMbIndex, wide_ascii hs, wide_ascii hn]
    simp only [pure_bind]
    rw [Nat.cast_zero] at hsearch
    rw [hsearch]
    exact agree_pure _
  | some n =>
    have hmin : min (n - 1).toNat str.length ≤ str.length := Nat.min_le_right _ _
    have hle := wrap_le (Int.natCast_nonneg str.length)
    rw [findIndex_third, search_nat hmin, findMbIndex, wide_ascii hs, wide_ascii hn]
    simp only [pure_bind, Option.mem_some_iff, forall_eq', SameStart]
    by_cases hbig : n > wrap str.length
    · rw [if_pos hbig, pointerAdd_nat (Nat.le_refl _), pure_bind, search_nat (Nat.le_refl _),
        agree_pure_iff, Value.int.injEq]
      constructor
      · exact fun h => .inr ⟨hbig, h⟩
      · rintro (⟨-, hle'⟩ | ⟨-, h⟩)
        · omega
        · exact h
    · rw [if_neg hbig]
      by_cases hpos : 1 ≤ n
      · have hstart : min (n - 1).toNat str.length = (n - 1).toNat := by omega
        have hn' : n - 1 = ((n - 1).toNat : ℤ) := by omega
        refine iff_of_true ?_ (.inl ⟨hpos, by omega⟩)
        rw [hstart, hn', pointerAdd_nat (by omega), pure_bind, search_nat (by omega),
          Int.toNat_natCast]
        exact agree_pure _
      · refine iff_of_false ?_ (by omega)
        rw [pointerAdd, if_neg (by omega)]
        rintro ⟨r, -, hr⟩
        cases hr

theorem ascii_drop (hs : Ascii str) (p : ℕ) : Ascii (str.drop p) := fun c hc =>
  hs c (List.mem_of_mem_drop hc)

theorem ascii_take (hs : Ascii str) (p : ℕ) : Ascii (str.take p) := fun c hc =>
  hs c (List.mem_of_mem_take hc)

theorem stringBetween_nat {e : ℕ} (hp : p ≤ e) (he : e ≤ str.length) :
    stringBetween str p e = pure ((str.take e).drop p) := by
  rw [stringBetween, Int.toNat_natCast, stringAt_nat]
  rw [List.length_take]
  omega

/-- `substr` and `mbsubstr` agree. -/
theorem substr_agree (hs : Ascii str) (first : ℤ) (last : Option ℤ) :
    Agree (subString str first last) (mbSubString env str first last) := by
  have hstart := @startLoop_nat str 0 (first - 1).toNat 1 (Nat.zero_le _)
  have hle : min (0 + (first - 1).toNat) str.length ≤ str.length := Nat.min_le_right _ _
  rw [subString, mbSubString, wide_ascii hs]
  rw [show ((0 : ℤ), (1 : ℤ)) = (((0 : ℕ) : ℤ), 1) from rfl, pure_bind, hstart]
  generalize min (0 + (first - 1).toNat) str.length = p at hle
  simp only [pure_bind]
  cases last with
  | none =>
    dsimp only
    rw [stringAt_nat hle, pure_bind, pure_bind, env.wcstombs_ascii _ (ascii_drop hs p)]
    exact agree_pure _
  | some n =>
    dsimp only
    have hmore := @startLoop_nat str p
      (n - (1 + ((p - 0 : ℕ) : ℤ)) + 1).toNat (1 + ((p - 0 : ℕ) : ℤ)) hle
    have hend := Nat.min_le_right (p + (n - (1 + ((p - 0 : ℕ) : ℤ)) + 1).toNat) str.length
    have hge : p ≤ min (p + (n - (1 + ((p - 0 : ℕ) : ℤ)) + 1).toNat) str.length := by omega
    rw [hmore, readAt_nat hle, pure_bind]
    generalize min (p + (n - (1 + ((p - 0 : ℕ) : ℤ)) + 1).toNat) str.length = e at hend hge
    simp only [pure_bind]
    rw [stringBetween_nat hge hend]
    simp only [pure_bind]
    rw [env.wcstombs_ascii _ (ascii_drop (ascii_take hs e) p)]
    cases hp : str[p]? with
    | none =>
      have hlast := List.getElem?_eq_none_iff.1 hp
      dsimp only
      rw [stringAt_nat hle, pure_bind, List.drop_eq_nil_of_le hlast,
        List.drop_eq_nil_of_le (by rw [List.length_take]; omega)]
      exact agree_pure _
    | some c => exact agree_pure _

/-! ### pad -/

/-- The characters that the loop of `pad` puts, from the index `p` on. -/
def padding (pad : List Char) : ℕ → ℕ → List Char
  | 0, _ => []
  | n + 1, p => pad.getD p '\x00' :: padding pad n (if p + 1 < pad.length then p + 1 else 0)

theorem padding_length (pad : List Char) (n p : ℕ) : (padding pad n p).length = n := by
  induction n generalizing p with
  | zero => rfl
  | succ n ih => rw [padding, List.length_cons, ih]

theorem padding_mem {pad : List Char} (n : ℕ) (h : p < pad.length) :
    ∀ c ∈ padding pad n p, c ∈ pad := by
  induction n generalizing p with
  | zero => exact nofun
  | succ n ih =>
    intro c hc
    rw [padding] at hc
    rcases List.mem_cons.1 hc with rfl | hc
    · rw [List.getD_eq_getElem?_getD, List.getElem?_eq_getElem h]
      exact List.getElem_mem h
    · refine ih ?_ c hc
      split_ifs <;> omega

/-- The loop puts these characters. -/
theorem padLoop_eq {β : Type} (put : β → Char → StringRun β) {pad : List Char} (n : ℕ) (b : β)
    (h : p < pad.length) : padLoop put pad n p b = (padding pad n p).foldlM put b := by
  induction n generalizing p b with
  | zero => rfl
  | succ n ih =>
    have hnext : (p : ℤ) + 1 = ((p + 1 : ℕ) : ℤ) := by push_cast; rfl
    have hchar : (pad[p]?).getD '\x00' = pad.getD p '\x00' := List.getD_eq_getElem?_getD.symm
    rw [padLoop, padding, List.foldlM_cons, readAt_nat h.le, pure_bind, hchar]
    congr 1
    funext b'
    rw [hnext, @readAt_nat pad _ h, pure_bind]
    by_cases hlt : p + 1 < pad.length
    · rw [if_pos hlt, List.getElem?_eq_getElem hlt]
      exact ih b' hlt
    · rw [if_neg hlt, List.getElem?_eq_none (Nat.le_of_not_lt hlt)]
      exact ih b' (Nat.zero_lt_of_lt h)

/-- A buffer takes less than 2^62 characters. -/
theorem bufHolds_small {b : DynBuf} {cs : List Char} (hb : b.Holds cs) : cs.length < 2 ^ 62 := by
  have hroom := hb.room
  have hsmall := hb.small
  rw [hb.len] at hroom
  omega

/-- A step of `pad` on its buffer: there is no memory from 2^62 characters on. -/
theorem putChar_spec {b : DynBuf} {cs : List Char} {c : Char} (hb : b.Holds cs) (hc : c ≠ '\x00') :
    (env.putChar b c = throw .noMem ∧ 2 ^ 62 ≤ cs.length + 1) ∨
      ∃ b', env.putChar b c = pure b' ∧ b'.Holds (cs ++ [c]) := by
  obtain ⟨r, b', hrun, hor⟩ := dbufPutc_spec env.heap hb hc
  rw [StringEnv.putChar, hrun]
  rcases hor with ⟨rfl, hb'⟩ | ⟨rfl, -, m, hm, hnone⟩
  · exact .inr ⟨b', rfl, hb'⟩
  · refine .inl ⟨rfl, ?_⟩
    by_contra hlt
    exact env.ample m (by omega) hnone

theorem puts_spec {b : DynBuf} {cs : List Char} (hb : b.Holds cs) (hs : '\x00' ∉ str)
    (hlen : str.length < 2 ^ 31) :
    (bufResult (dbufPuts env.heap b str) = throw .noMem ∧ 2 ^ 62 ≤ cs.length + str.length) ∨
      ∃ b', bufResult (dbufPuts env.heap b str) = pure b' ∧ b'.Holds (cs ++ str) := by
  obtain ⟨r, b', hrun, hor⟩ := dbufPuts_spec env.heap hb hs hlen
  rw [hrun]
  rcases hor with ⟨rfl, hb'⟩ | ⟨rfl, -, m, hm, hnone⟩
  · exact .inr ⟨b', rfl, hb'⟩
  · refine .inl ⟨rfl, ?_⟩
    by_contra hlt
    exact env.ample m (by omega) hnone

theorem putChars_spec {b : DynBuf} {cs : List Char} {l : List Char} (hb : b.Holds cs)
    (hl : '\x00' ∉ l) :
    (l.foldlM env.putChar b = throw .noMem ∧ 2 ^ 62 ≤ cs.length + l.length) ∨
      ∃ b', l.foldlM env.putChar b = pure b' ∧ b'.Holds (cs ++ l) := by
  induction l generalizing b cs with
  | nil => exact .inr ⟨b, rfl, by rwa [List.append_nil]⟩
  | cons c l ih =>
    rw [List.mem_cons, not_or] at hl
    rw [List.foldlM_cons]
    rcases @putChar_spec env _ _ _ hb (Ne.symm hl.1) with ⟨hput, hfull⟩ | ⟨b', hput, hb'⟩
    · refine .inl ⟨by rw [hput]; rfl, ?_⟩
      rw [List.length_cons]
      omega
    · rw [hput, pure_bind]
      rcases ih hb' hl.2 with ⟨hrun, hfull⟩ | ⟨b'', hrun, hb''⟩
      · refine .inl ⟨hrun, ?_⟩
        rw [List.length_append, List.length_singleton] at hfull
        rw [List.length_cons]
        omega
      · rw [List.append_assoc] at hb''
        exact .inr ⟨b'', hrun, hb''⟩

/-- What `pad` and `mbpad` come to where they pad. -/
def padded (s pad : List Char) (wantlen : ℕ) (right : Bool) : List Char :=
  if right then s ++ padding pad (wantlen - s.length) 0
  else padding pad (wantlen - s.length) 0 ++ s

theorem ascii_noZero (hs : Ascii str) : '\x00' ∉ str := fun hm =>
  absurd (hs _ hm).1 (by decide)

theorem padding_ascii {pad : List Char} (hp : Ascii pad) (hne : pad ≠ []) (n : ℕ) :
    Ascii (padding pad n 0) := fun c hc =>
  hp c (padding_mem n (List.length_pos_of_ne_nil hne) c hc)

theorem padded_ascii {pad : List Char} (hs : Ascii str) (hp : Ascii pad) (hne : pad ≠ [])
    (wantlen : ℕ) (right : Bool) : Ascii (padded str pad wantlen right) := by
  intro c hc
  have hboth : c ∈ str ∨ c ∈ padding pad (wantlen - str.length) 0 := by
    unfold padded at hc
    split_ifs at hc
    · exact List.mem_append.1 hc
    · exact (List.mem_append.1 hc).symm
  exact hboth.elim (hs c) (padding_ascii hp hne _ c)

theorem padded_length {pad : List Char} {wantlen : ℕ} (hlt : str.length < wantlen) (right : Bool) :
    (padded str pad wantlen right).length = wantlen := by
  unfold padded
  split_ifs <;> rw [List.length_append, padding_length] <;> omega

/-- The buffer of `pad` takes a text of less than 2^31 characters. -/
theorem padAround_buffer {pad : List Char} {wantlen : ℕ} {b : DynBuf} (hb : b.Holds [])
    (hs : Ascii str) (hp : Ascii pad) (hne : pad ≠ []) (hlt : str.length < wantlen)
    (hwant : wantlen < 2 ^ 31) (right : Bool) :
    ∃ b', padAround (fun b => bufResult (dbufPuts env.heap b str)) env.putChar pad
      (wantlen - str.length) right b = pure b' ∧ b'.Holds (padded str pad wantlen right) := by
  have hpos := List.length_pos_of_ne_nil hne
  have hfill := padding_length pad (wantlen - str.length) 0
  have hnoZero := ascii_noZero (padding_ascii hp hne (wantlen - str.length))
  have hlen : str.length < 2 ^ 31 := hlt.trans hwant
  have hloop : ∀ b, padLoop env.putChar pad (wantlen - str.length) 0 b =
      (padding pad (wantlen - str.length) 0).foldlM env.putChar b := fun b =>
    padLoop_eq env.putChar (wantlen - str.length) b hpos
  cases right with
  | true =>
    simp only [padAround, if_true, hloop]
    rcases @puts_spec env _ _ _ hb (ascii_noZero hs) hlen with ⟨-, hfull⟩ | ⟨b', hputs, hb'⟩
    · rw [List.length_nil] at hfull
      omega
    · rw [hputs, pure_bind]
      rcases @putChars_spec env _ _ _ hb' hnoZero with ⟨-, hfull⟩ | ⟨b'', hrun, hb''⟩
      · rw [hfill, List.nil_append] at hfull
        omega
      · exact ⟨b'', hrun, hb''⟩
  | false =>
    simp only [padAround, Bool.false_eq_true, if_false, hloop]
    rcases @putChars_spec env _ _ _ hb hnoZero with ⟨-, hfull⟩ | ⟨b', hrun, hb'⟩
    · rw [hfill, List.length_nil] at hfull
      omega
    · rw [hrun, pure_bind]
      rcases @puts_spec env _ _ _ hb' (ascii_noZero hs) hlen with ⟨-, hfull⟩ | ⟨b'', hputs, hb''⟩
      · rw [List.nil_append, hfill] at hfull
        omega
      · exact ⟨b'', hputs, hb''⟩

/-- No buffer takes 2^62 characters of padding. -/
theorem padChars_full {pad : List Char} {b : DynBuf} {cs : List Char} {n : ℕ} (hb : b.Holds cs)
    (hp : Ascii pad) (hne : pad ≠ []) (hn : 2 ^ 62 ≤ n) :
    padLoop env.putChar pad n 0 b = throw .noMem := by
  have hloop := padLoop_eq env.putChar n b (List.length_pos_of_ne_nil hne)
  rw [Nat.cast_zero] at hloop
  rw [hloop]
  rcases @putChars_spec env _ _ _ hb (ascii_noZero (padding_ascii hp hne n)) with
    ⟨hrun, -⟩ | ⟨b', -, hb'⟩
  · exact hrun
  · have hsmall := bufHolds_small hb'
    rw [List.length_append, padding_length] at hsmall
    omega

/-- The length of a text that is put into an empty buffer is right, or at least zero: 2^31
characters and more are outside of the block, but for the multiples of 2^32. -/
theorem puts_empty {b : DynBuf} (hb : b.Holds []) (hnew : b.heap = none) (hs : '\x00' ∉ str) :
    (2 ^ 31 ≤ str.length ∧ wrap str.length ≠ 0 ∧
        bufResult (dbufPuts env.heap b str) = outside) ∨
      ((str.length < 2 ^ 31 ∨ wrap str.length = 0) ∧
        ∃ b' cs, bufResult (dbufPuts env.heap b str) = pure b' ∧ b'.Holds cs) := by
  by_cases hlen : str.length < 2 ^ 31
  · refine .inr ⟨.inl hlen, ?_⟩
    rcases @puts_spec env _ _ _ hb hs hlen with ⟨-, hfull⟩ | ⟨b', hputs, hb'⟩
    · rw [List.length_nil] at hfull
      omega
    · exact ⟨b', _, hputs, hb'⟩
  by_cases hzero : wrap (str.length : ℤ) = 0
  · refine .inr ⟨.inr hzero, b, [], ?_, hb⟩
    rw [dbufPuts]
    simp only [hzero, if_true]
    rfl
  · refine .inl ⟨by omega, hzero, ?_⟩
    rcases dbufPuts_beyond env.heap hb hnew (by omega) hzero with hputs | ⟨b', -, m, hm, hnone⟩
    · rw [hputs]
      rfl
    · exact absurd hnone (env.ample m hm)

/-- The buffer of `pad` where the padding is too long for it. -/
theorem padAround_full {pad : List Char} {n : ℕ} {b : DynBuf} (hb : b.Holds [])
    (hnew : b.heap = none) (hs : Ascii str) (hp : Ascii pad) (hne : pad ≠ []) (hn : 2 ^ 62 ≤ n)
    (right : Bool) :
    padAround (fun b => bufResult (dbufPuts env.heap b str)) env.putChar pad n right b =
      if right = true ∧ 2 ^ 31 ≤ str.length ∧ wrap str.length ≠ 0 then outside
      else throw .noMem := by
  cases right with
  | true =>
    simp only [padAround, if_true, true_and]
    rcases @puts_empty env _ _ hb hnew (ascii_noZero hs) with
      ⟨hlen, hzero, hputs⟩ | ⟨hor, b', cs, hputs, hb'⟩
    · rw [hputs, if_pos ⟨hlen, hzero⟩]
      rfl
    · have hshort : ¬(2 ^ 31 ≤ str.length ∧ wrap (str.length : ℤ) ≠ 0) := by
        rintro ⟨hlen, hzero⟩
        exact hor.elim (fun h => by omega) hzero
      rw [hputs, pure_bind, if_neg hshort, padChars_full hb' hp hne hn]
  | false =>
    simp only [padAround, Bool.false_eq_true, if_false, false_and]
    rw [padChars_full hb hp hne hn]
    rfl

/-- `pad` where it has to pad, by its buffer. -/
theorem padString_buffer {pad : List Char} {width : ℤ} (hne : pad ≠ [])
    (hlt : str.length < sizeT width)
    (hmax : ¬(0 < env.text.maxStringLen ∧ (sizeT width : ℤ) > env.text.maxStringLen))
    (right : Bool) :
    ∃ b : DynBuf, b.Holds [] ∧ b.heap = none ∧ padString env str pad width right = (do
      let b ← padAround (fun b => bufResult (dbufPuts env.heap b str)) env.putChar pad
        (sizeT width - str.length) right b
      return strVal (← inside (cString b.buffer))) := by
  obtain ⟨b, hinit, hb, hnew⟩ := dbufInit_spec env.static
  refine ⟨b, hb, hnew, ?_⟩
  rw [padString, if_neg (Nat.not_le_of_lt hlt), if_neg hne, if_neg hmax, hinit]
  rfl

/-! The block of `mbpad`. -/

theorem putWides_fit (front l : List Char) (k : ℕ) :
    l.foldlM putWide (front ++ List.replicate (l.length + k) '\x00', front.length) =
      pure (front ++ l ++ List.replicate k '\x00', front.length + l.length) := by
  induction l generalizing front with
  | nil => simp
  | cons c l ih =>
    have hsplit : front ++ List.replicate ((c :: l).length + k) '\x00' =
        front ++ ['\x00'] ++ List.replicate (l.length + k) '\x00' := by
      rw [List.length_cons, Nat.add_right_comm, List.replicate_succ, List.append_assoc]
      rfl
    have hwrite := @writeCells_middle [c] front ['\x00']
      (List.replicate (l.length + k) '\x00') rfl
    have hnext := ih (front ++ [c])
    rw [List.length_append, List.length_singleton] at hnext
    rw [List.foldlM_cons, putWide, hsplit, hwrite, inside, pure_bind, pure_bind, hnext]
    simp [List.append_assoc, Nat.add_assoc, Nat.add_comm 1]

/-- Nothing fits into a block of no characters. -/
theorem putWides_none {l : List Char} (hl : l ≠ []) : l.foldlM putWide ([], 0) = outside := by
  obtain ⟨c, l, rfl⟩ := List.exists_cons_of_ne_nil hl
  rfl

theorem padAround_block {pad : List Char} {wantlen : ℕ} (hne : pad ≠ [])
    (hlt : str.length < wantlen) (right : Bool) :
    padAround (fun d => str.foldlM putWide d) putWide pad (wantlen - str.length) right
        (List.replicate (wantlen + 1) '\x00', 0) =
      pure (padded str pad wantlen right ++ ['\x00'], wantlen) := by
  have hpos := List.length_pos_of_ne_nil hne
  have hfill := padding_length pad (wantlen - str.length) 0
  have hloop : ∀ d, padLoop putWide pad (wantlen - str.length) 0 d =
      (padding pad (wantlen - str.length) 0).foldlM putWide d := fun d =>
    padLoop_eq putWide (wantlen - str.length) d hpos
  cases right with
  | true =>
    have hfirst := putWides_fit [] str (wantlen - str.length + 1)
    have hsecond := putWides_fit str (padding pad (wantlen - str.length) 0) 1
    rw [hfill] at hsecond
    simp only [List.nil_append, List.length_nil, Nat.zero_add] at hfirst
    simp only [padAround, if_true, hloop]
    rw [show wantlen + 1 = str.length + (wantlen - str.length + 1) by omega, hfirst, pure_bind,
      hsecond]
    rw [padded, if_pos rfl, show str.length + (wantlen - str.length) = wantlen by omega]
    rfl
  | false =>
    have hfirst := putWides_fit [] (padding pad (wantlen - str.length) 0) (str.length + 1)
    have hsecond := putWides_fit (padding pad (wantlen - str.length) 0) str 1
    rw [hfill] at hfirst hsecond
    simp only [List.nil_append, List.length_nil, Nat.zero_add] at hfirst
    simp only [padAround, Bool.false_eq_true, if_false, hloop]
    rw [show wantlen + 1 = wantlen - str.length + (str.length + 1) by omega, hfirst, pure_bind,
      hsecond]
    rw [padded, if_neg nofun, show wantlen - str.length + str.length = wantlen by omega]
    rfl

theorem padAround_none {pad : List Char} {wantlen : ℕ} (hne : pad ≠ [])
    (hlt : str.length < wantlen) (right : Bool) :
    padAround (fun d => str.foldlM putWide d) putWide pad (wantlen - str.length) right ([], 0) =
      outside := by
  have hpos := List.length_pos_of_ne_nil hne
  have hfill : padding pad (wantlen - str.length) 0 ≠ [] := by
    rw [← List.length_pos_iff, padding_length]
    omega
  have hloop : ∀ d, padLoop putWide pad (wantlen - str.length) 0 d =
      (padding pad (wantlen - str.length) 0).foldlM putWide d := fun d =>
    padLoop_eq putWide (wantlen - str.length) d hpos
  cases right with
  | true =>
    simp only [padAround, if_true, hloop]
    cases str with
    | nil => exact putWides_none hfill
    | cons c str => rfl
  | false =>
    simp only [padAround, Bool.false_eq_true, if_false, hloop]
    rw [putWides_none hfill]
    rfl

/-- The wide characters of a string are a block that `malloc` may give. -/
def WideFits (s : List Char) : Prop := (s.length + 1) * 4 < 2 ^ 63

instance : DecidablePred WideFits := fun _ => inferInstanceAs (Decidable (_ < _))

theorem callocWide_fits (h : WideFits str) :
    callocWide (str.length + 1) = pure (List.replicate (str.length + 1) '\x00') := if_pos h

/-- `mbpad` where it has to pad, by the block that it asks for. -/
theorem mbPadString_block {pad : List Char} {width : ℤ} (hs : Ascii str)
    (hp : Ascii pad) (hne : pad ≠ []) (hsw : WideFits str) (hpw : WideFits pad)
    (hlt : str.length < sizeT width)
    (hmax : ¬(0 < env.text.maxStringLen ∧ (sizeT width : ℤ) > env.text.maxStringLen))
    (right : Bool) :
    mbPadString env str pad width right = (do
      let dest ← callocWide (sizeT (sizeT width + 1))
      let (dest, _) ← padAround (fun d => str.foldlM putWide d) putWide pad
        (sizeT width - str.length) right (dest, 0)
      let text ← inside (cString dest)
      match env.wcstombs text with
      | some result => return strVal result
      | none => outside) := by
  rw [mbPadString]
  dsimp only
  rw [wide_ascii hs, pure_bind, if_neg (Nat.not_le_of_lt hlt), if_neg hne, if_neg hmax,
    callocWide_fits hsw, pure_bind, wide_ascii hp, pure_bind, callocWide_fits hpw, pure_bind] <;> rfl

theorem sizeT_neg {width : ℤ} (hneg : width < 0) (hint : -2 ^ 31 ≤ width) :
    (sizeT width : ℤ) = width + 2 ^ 64 := by
  rw [sizeT]
  omega

theorem sizeT_nat {width : ℤ} (hpos : 0 ≤ width) (hint : width < 2 ^ 31) :
    (sizeT width : ℤ) = width := by
  rw [sizeT]
  omega

/-- The widths and strings where `pad` or `mbpad` goes outside: a block for no characters at the
width -1, or a string whose length is no `int`. -/
def PadsOutside (env : StringEnv) (str pad : List Char) (width : ℤ) (right : Bool) : Prop :=
  width < 0 ∧ env.text.maxStringLen ≤ 0 ∧ pad ≠ [] ∧
    (width = -1 ∨ right = true ∧ 2 ^ 31 ≤ str.length ∧ wrap str.length ≠ 0)

/-- Where there is nothing to pad, or an error ahead of it, both come to the same. -/
theorem pad_agree_early {pad : List Char} {width : ℤ} (hs : Ascii str) (right : Bool)
    (h : str.length ≥ sizeT width ∨ pad = [] ∨
      0 < env.text.maxStringLen ∧ (sizeT width : ℤ) > env.text.maxStringLen) :
    Agree (padString env str pad width right) (mbPadString env str pad width right) := by
  rw [padString, mbPadString]
  dsimp only
  rw [wide_ascii hs, pure_bind]
  by_cases hfits : str.length ≥ sizeT width
  · rw [if_pos hfits, if_pos hfits]
    exact agree_pure _
  by_cases hne : pad = []
  · rw [if_neg hfits, if_neg hfits, if_pos hne, if_pos hne]
    exact agree_throw _
  have hmax := (h.resolve_left hfits).resolve_left hne
  rw [if_neg hfits, if_neg hfits, if_neg hne, if_neg hne, if_pos hmax, if_pos hmax]
  exact agree_throw _

/-- Both pad to a width that is not negative. -/
theorem pad_agree_nat {pad : List Char} {width : ℤ} (hs : Ascii str) (hp : Ascii pad)
    (hne : pad ≠ []) (hsw : WideFits str) (hpw : WideFits pad) (hpos : 0 ≤ width)
    (hint : width < 2 ^ 31) (hlt : str.length < sizeT width)
    (hmax : ¬(0 < env.text.maxStringLen ∧ (sizeT width : ℤ) > env.text.maxStringLen))
    (right : Bool) :
    Agree (padString env str pad width right) (mbPadString env str pad width right) := by
  have hwidth := sizeT_nat hpos hint
  have hblock : sizeT (sizeT width + 1) = sizeT width + 1 := by
    rw [sizeT]
    omega
  have htext := padded_ascii hs hp hne (sizeT width) right
  have hzero : '\x00' ∉ padded str pad (sizeT width) right := ascii_noZero htext
  obtain ⟨b, hb, -, hpad⟩ := @padString_buffer env _ _ _ hne hlt hmax right
  obtain ⟨b', hrun, hb'⟩ := @padAround_buffer env _ _ _ _ hb hs hp hne hlt (by omega) right
  obtain ⟨junk, hjunk⟩ := hb'.cells
  rw [hpad, hrun, pure_bind, hjunk, cString_of hb'.noZero]
  rw [mbPadString_block hs hp hne hsw hpw hlt hmax right, hblock, callocWide,
    if_pos (by omega), pure_bind, padAround_block hne hlt, pure_bind]
  dsimp only
  rw [cString_of hzero, inside, pure_bind, pure_bind, env.wcstombs_ascii _ htext]
  exact agree_pure _

/-- `pad` and `mbpad` agree but where one of them goes outside. -/
theorem pad_agree_iff {pad : List Char} {width : ℤ} (hs : Ascii str) (hp : Ascii pad)
    (hsw : WideFits str) (hpw : WideFits pad) (hw : InInt width) (right : Bool) :
    Agree (padString env str pad width right) (mbPadString env str pad width right) ↔
      ¬PadsOutside env str pad width right := by
  rw [inInt_iff] at hw
  have hmaxInt := env.maxStringLen_int
  rw [intMax] at hmaxInt
  have hshort : str.length < 2 ^ 61 := by
    unfold WideFits at hsw
    omega
  by_cases hpos : 0 ≤ width
  · refine iff_of_true ?_ (fun h => by have := h.1; omega)
    by_cases hearly : str.length ≥ sizeT width ∨ pad = [] ∨
        0 < env.text.maxStringLen ∧ (sizeT width : ℤ) > env.text.maxStringLen
    · exact pad_agree_early hs right hearly
    · rw [not_or, not_or] at hearly
      obtain ⟨hfits, hne, hmax⟩ := hearly
      exact pad_agree_nat hs hp hne hsw hpw hpos (by omega) (Nat.lt_of_not_le hfits) hmax right
  have hwidth := @sizeT_neg width (by omega) (by omega)
  by_cases hearly : pad = [] ∨ 0 < env.text.maxStringLen
  · refine iff_of_true (pad_agree_early hs right (.inr ?_)) ?_
    · exact hearly.imp_right fun h => ⟨h, by omega⟩
    · rintro ⟨-, hmax, hne, -⟩
      exact hearly.elim hne (fun h => by omega)
  rw [not_or] at hearly
  obtain ⟨hne, hmax⟩ := hearly
  have hlt : str.length < sizeT width := by omega
  have hmax' : ¬(0 < env.text.maxStringLen ∧ (sizeT width : ℤ) > env.text.maxStringLen) :=
    fun h => hmax h.1
  obtain ⟨b, hb, hnew, hpad⟩ := @padString_buffer env _ _ _ hne hlt hmax' right
  have hfull := @padAround_full env _ _ (sizeT width - str.length) _ hb hnew hs hp
    hne (by omega) right
  rw [hpad, hfull, mbPadString_block hs hp hne hsw hpw hlt hmax' right]
  by_cases hone : width = -1
  · -- `wantlen + 1` is zero
    subst hone
    have hblock : callocWide (sizeT (sizeT (-1) + 1)) = pure [] := rfl
    refine iff_of_false ?_ (fun h => h ⟨by omega, by omega, hne, .inl rfl⟩)
    rw [hblock, pure_bind, padAround_none hne hlt]
    rintro ⟨r, -, hr⟩
    cases hr
  have hblock : ¬sizeT (sizeT width + 1) * 4 < 2 ^ 63 := by
    rw [sizeT]
    omega
  rw [callocWide, if_neg hblock]
  by_cases hlong : right = true ∧ 2 ^ 31 ≤ str.length ∧ wrap str.length ≠ 0
  · refine iff_of_false ?_ (fun h => h ⟨by omega, by omega, hne, .inr hlong⟩)
    rw [if_pos hlong]
    rintro ⟨r, hr, -⟩
    cases hr
  · refine iff_of_true ?_ (fun h => h.2.2.2.elim hone hlong)
    rw [if_neg hlong]
    exact agree_throw _

/-- The pairs agree on ASCII strings, but for positions where `mbindex` starts elsewhere and widths
where `pad` or `mbpad` goes outside. -/
theorem stringPairs_agree_iff (env : StringEnv) {s t : List Char} (hs : Ascii s) (ht : Ascii t)
    (hsw : WideFits s) (htw : WideFits t) :
    Agree (fStrlen [strVal s]) (fMbstrlen env [strVal s]) ∧
      (∀ (first : ℤ) (last : Option ℤ),
        Agree (fSubstr ([strVal s, .int first] ++ (last.map .int).toList))
          (fMbsubstr env ([strVal s, .int first] ++ (last.map .int).toList))) ∧
      (∀ third : Option ℤ,
        Agree (fIndex ([strVal s, strVal t] ++ (third.map .int).toList))
            (fMbindex env ([strVal s, strVal t] ++ (third.map .int).toList)) ↔
          ∀ n ∈ third, SameStart s t n) ∧
      ∀ (width : ℤ) (right : Option ℤ), InInt width →
        (Agree (fPad env ([strVal s, strVal t, .int width] ++ (right.map .int).toList))
            (fMbpad env ([strVal s, strVal t, .int width] ++ (right.map .int).toList)) ↔
          ¬PadsOutside env s t width (right.getD 0 ≠ 0)) := by
  have htext : ∀ s : List Char, (String.ofList s).toList = s := fun s => String.toList_ofList
  have hpadText : env.padText (.str (String.ofList s)) = s := htext s
  refine ⟨strlen_agree hs, fun first last => ?_, fun third => ?_, fun width right hw => ?_⟩
  · have hagree := @substr_agree env _ hs first last
    cases last <;> simpa [fSubstr, fMbsubstr, strVal, htext] using hagree
  · have hagree := @index_agree_iff env _ _ hs ht third
    cases third <;> simpa [fIndex, fMbindex, strVal, htext] using hagree
  · cases right with
    | none =>
      have hagree := @pad_agree_iff env _ _ _ hs ht hsw htw hw false
      simpa [fPad, fMbpad, padArgs, hpadText, strVal, htext] using hagree
    | some right =>
      have hagree := @pad_agree_iff env _ _ _ hs ht hsw htw hw (right ≠ 0)
      simpa [fPad, fMbpad, padArgs, hpadText, strVal, htext] using hagree

/-- A locale where each byte is a character, and a heap that gives what it may. -/
def asciiEnv : StringEnv where
  text := {}
  maxStringLen_int := by decide
  heap := plainHeap
  ample n hn := by
    show (if n < 2 ^ 63 then some (List.replicate n 'x') else none) ≠ none
    rw [if_pos hn]
    exact Option.some_ne_none _
  staticBuf := List.replicate 32 'x'
  static := rfl
  mbstowcs := some
  wcstombs := some
  mbstowcs_ascii _ _ := rfl
  wcstombs_ascii _ _ := rfl

theorem stringPairs_agree_ab :
    (Agree (fStrlen [strVal ['a', 'b']]) (fMbstrlen asciiEnv [strVal ['a', 'b']])) ∧
      ∀ third : Option ℤ,
        Agree (fIndex ([strVal ['a', 'b'], strVal ['a']] ++ (third.map .int).toList))
            (fMbindex asciiEnv ([strVal ['a', 'b'], strVal ['a']] ++ (third.map .int).toList)) ↔
          ∀ n ∈ third, SameStart ['a', 'b'] ['a'] n := by
  have hagree := stringPairs_agree_iff asciiEnv (s := ['a', 'b']) (t := ['a'])
    (by simp [Ascii]) (by simp [Ascii]) (by decide) (by decide)
  exact ⟨hagree.1, hagree.2.2.1⟩

/-- The position 0 is before the string for `mbindex` only. -/
theorem mbindex_before_string :
    fIndex [strVal ['a', 'b'], strVal ['a'], .int 0] = pure (.int 1) ∧
      fMbindex asciiEnv [strVal ['a', 'b'], strVal ['a'], .int 0] = outside := by
  simp only [fIndex, fMbindex, strVal, String.toList_ofList]
  constructor
  · have hfound : foundFrom ['a', 'b'] 0 ['a'] = 1 := by decide
    rw [findIndex_third, search_nat (Nat.min_le_right _ _)]
    exact congrArg (fun n => (pure (.int n) : StringRun Value)) hfound
  · have hwide : ∀ s, asciiEnv.wide s = pure s := fun _ => rfl
    have hlast : ¬(0 : ℤ) > wrap (['a', 'b'].length : ℕ) := by decide
    rw [findMbIndex, hwide, hwide]
    simp only [pure_bind, if_neg hlast]
    rfl

end Walks

end Remind
