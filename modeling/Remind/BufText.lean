import Remind.DynBuf

/-!
# BufText — what a dynamic buffer holds

Each call keeps the text of the buffer: the characters put into it since it was last freed, with a
zero behind them, whatever `malloc` gives.
-/

namespace Remind

open Lib

/-- The buffer holds `cs`. -/
structure DynBuf.Holds (b : DynBuf) (cs : List Char) : Prop where
  cells : ∃ junk, b.buffer = cs ++ '\x00' :: junk
  len : b.len = cs.length
  size : b.buffer.length = b.allocatedLen
  static : b.staticBuf.length = dbufStaticSize
  power : ∃ k ≤ 62, b.allocatedLen = 2 ^ k
  noZero : '\x00' ∉ cs

section Holds

variable {h : Heap} {b : DynBuf} {cs cells : List Char} {c : Char} {n : ℕ}

@[simp] theorem DynBuf.withCells_buffer (b : DynBuf) (cells : List Char) :
    (b.withCells cells).buffer = cells := by
  obtain ⟨s, heap, l, a⟩ := b
  cases heap <;> rfl

@[simp] theorem DynBuf.withCells_allocatedLen (b : DynBuf) (cells : List Char) :
    (b.withCells cells).allocatedLen = b.allocatedLen := by
  obtain ⟨s, heap, l, a⟩ := b
  cases heap <;> rfl

@[simp] theorem DynBuf.withCells_withCells (b : DynBuf) (cells cells' : List Char) :
    (b.withCells cells).withCells cells' = b.withCells cells' := by
  obtain ⟨s, heap, l, a⟩ := b
  cases heap <;> rfl

theorem DynBuf.withCells_staticBuf (b : DynBuf) (h : cells.length = b.buffer.length) :
    (b.withCells cells).staticBuf.length = b.staticBuf.length := by
  obtain ⟨s, heap, l, a⟩ := b
  cases heap with
  | none => exact h
  | some block => rfl

theorem DynBuf.Holds.room (hb : b.Holds cs) : b.len < b.allocatedLen := by
  obtain ⟨junk, hjunk⟩ := hb.cells
  have hsize := hb.size
  rw [hjunk, List.length_append, List.length_cons] at hsize
  rw [hb.len]
  omega

theorem DynBuf.Holds.small (hb : b.Holds cs) : b.allocatedLen ≤ 2 ^ 62 := by
  obtain ⟨k, hk, hpower⟩ := hb.power
  rw [hpower]
  exact Nat.pow_le_pow_right (by decide) hk

/-- Other characters in the block, as long as the block. -/
theorem DynBuf.Holds.withCells {cs' junk : List Char} (hb : b.Holds cs)
    (hlen : cells.length = b.buffer.length) (hcells : cells = cs' ++ '\x00' :: junk)
    (hzero : '\x00' ∉ cs') : DynBuf.Holds { b.withCells cells with len := cs'.length } cs' where
  cells := ⟨junk, (b.withCells_buffer cells).trans hcells⟩
  len := rfl
  size := by
    show (b.withCells cells).buffer.length = (b.withCells cells).allocatedLen
    rw [withCells_buffer, withCells_allocatedLen, hlen, hb.size]
  static := (b.withCells_staticBuf hlen).trans hb.static
  power := by
    show ∃ k ≤ 62, (b.withCells cells).allocatedLen = 2 ^ k
    rw [withCells_allocatedLen]
    exact hb.power
  noZero := hzero

/-! ### DBufMakeRoom -/

theorem growSize_power (k i n : ℕ) (hi : i ≤ 63) (hk : 63 - i < k) (hn : n < 2 ^ 63) :
    ∃ j ≤ 63, growSize k (2 ^ i) n = some (2 ^ j) ∧ n < 2 ^ j ∧ 2 ^ j ≤ max (2 ^ i) (2 * n) := by
  induction k generalizing i with
  | zero => omega
  | succ k ih =>
    rw [growSize]
    by_cases hle : 2 ^ i ≤ n
    · have hlt : i < 63 := by
        by_contra hge
        have hpow : 2 ^ 63 ≤ 2 ^ i := Nat.pow_le_pow_right (by decide) (by omega)
        omega
      have hdouble : 2 ^ i * 2 % 2 ^ 64 = 2 ^ (i + 1) := by
        have hpow : 2 ^ (i + 1) < 2 ^ 64 := Nat.pow_lt_pow_right (by decide) (by omega)
        rw [← Nat.pow_succ, Nat.mod_eq_of_lt hpow]
      obtain ⟨j, hj, hgrow, hn', hmax⟩ := ih (i + 1) hlt (by omega)
      have htwice : max (2 ^ (i + 1)) (2 * n) ≤ max (2 ^ i) (2 * n) := by
        rw [Nat.pow_succ]
        omega
      rw [if_pos hle, hdouble]
      exact ⟨j, hj, hgrow, hn', hmax.trans htwice⟩
    · rw [if_neg hle]
      exact ⟨i, hi, rfl, Nat.lt_of_not_le hle, Nat.le_max_left _ _⟩

theorem dbufMakeRoom_spec (h : Heap) (hb : b.Holds cs) (hn : n < 2 ^ 63) :
    ∃ r b', dbufMakeRoom h b n = some (r, b') ∧ b'.Holds cs ∧
      (r = none ∧ n < b'.allocatedLen ∨
        r = some .noMem ∧ ∃ m ≤ 2 * n, h.malloc m = none) := by
  unfold dbufMakeRoom
  by_cases hroom : b.allocatedLen > n
  · rw [if_pos hroom]
    exact ⟨none, b, rfl, hb, .inl ⟨rfl, hroom⟩⟩
  · rw [if_neg hroom]
    obtain ⟨i, hi, hpower⟩ := hb.power
    obtain ⟨j, hj, hgrow, hlt, hmax⟩ := growSize_power 65 i n (by omega) (by omega) hn
    rw [← hpower] at hmax
    rw [hpower, hgrow]
    dsimp only [Option.bind_eq_bind, Option.bind_some]
    cases hmalloc : h.malloc (2 ^ j) with
    | none => exact ⟨_, _, rfl, hb, .inr ⟨rfl, _, by omega, hmalloc⟩⟩
    | some block =>
      obtain ⟨junk, hjunk⟩ := hb.cells
      have hlen := h.length_eq hmalloc
      have hfits : cs.length < block.length := by
        have hbroom := hb.room
        rw [hb.len] at hbroom
        omega
      obtain ⟨junk', hcopy, hsize⟩ := @strcpy_fits _ [] _ hfits
      rw [List.nil_append, List.length_nil] at hcopy
      rw [hjunk, cString_of hb.noZero]
      dsimp only [Option.bind_some]
      rw [hcopy]
      refine ⟨_, _, rfl, ⟨⟨junk', rfl⟩, hb.len, ?_, hb.static, ⟨j, ?_, rfl⟩, hb.noZero⟩,
        .inl ⟨rfl, hlt⟩⟩
      · show (cs ++ '\x00' :: junk').length = 2 ^ j
        rw [← hlen, ← hsize, List.length_append, List.length_cons]
        omega
      · by_contra h63
        have hmax := h.max hmalloc
        have hpow : 2 ^ 63 ≤ 2 ^ j := Nat.pow_le_pow_right (by decide) (by omega)
        omega

/-- A size that `size_t` has no power of two above for is never reached. -/
theorem growSize_none (k : ℕ) {n : ℕ} (hn : 2 ^ 63 ≤ n) {size : ℕ}
    (hsize : size = 0 ∨ ∃ i ≤ 63, size = 2 ^ i) : growSize k size n = none := by
  induction k generalizing size with
  | zero => rfl
  | succ k ih =>
    have hle : size ≤ n := by
      rcases hsize with rfl | ⟨i, hi, rfl⟩
      · exact Nat.zero_le n
      · exact (Nat.pow_le_pow_right (by decide) hi).trans hn
    rw [growSize, if_pos hle]
    refine ih ?_
    rcases hsize with rfl | ⟨i, hi, rfl⟩
    · exact .inl rfl
    · rcases Nat.lt_or_eq_of_le hi with hlt | rfl
      · have hpow : 2 ^ (i + 1) < 2 ^ 64 := Nat.pow_lt_pow_right (by decide) (by omega)
        exact .inr ⟨i + 1, hlt, by rw [← Nat.pow_succ, Nat.mod_eq_of_lt hpow]⟩
      · exact .inl rfl

/-- The new block is not larger than it has to be. -/
theorem dbufMakeRoom_size (h : Heap) (hb : b.Holds cs) (hn : n < 2 ^ 63) {r : Option ErrCode}
    {b' : DynBuf} (hmake : dbufMakeRoom h b n = some (r, b')) :
    b'.allocatedLen ≤ max b.allocatedLen (2 * n) := by
  unfold dbufMakeRoom at hmake
  by_cases hroom : b.allocatedLen > n
  · rw [if_pos hroom] at hmake
    cases hmake
    exact Nat.le_max_left _ _
  · rw [if_neg hroom] at hmake
    obtain ⟨i, hi, hpower⟩ := hb.power
    obtain ⟨j, -, hgrow, -, hmax⟩ := growSize_power 65 i n (by omega) (by omega) hn
    rw [← hpower] at hgrow hmax
    rw [hgrow] at hmake
    simp only [Option.bind_eq_bind, Option.bind_some] at hmake
    cases hmalloc : h.malloc (2 ^ j) with
    | none =>
      rw [hmalloc] at hmake
      cases hmake
      exact Nat.le_max_left _ _
    | some block =>
      rw [hmalloc] at hmake
      simp only [Option.bind_eq_some_iff] at hmake
      obtain ⟨_, -, _, -, hsome⟩ := hmake
      cases hsome
      exact hmax

/-! ### DBufPutc and DBufPuts -/

/-- A character over another. -/
theorem DynBuf.set_middle {front back : List Char} {d : Char}
    (hb : b.buffer = front ++ d :: back) (hn : n = front.length) (c : Char) :
    b.set n c = some (b.withCells (front ++ c :: back)) := by
  have hsplit : b.buffer = front ++ [d] ++ back := by rw [hb, List.append_assoc]; rfl
  have hwrite := @writeCells_middle [c] front [d] back rfl
  rw [DynBuf.set, hsplit, hn, hwrite, List.append_assoc]
  rfl

theorem DynBuf.Holds.append (hb : b.Holds cs) (hc : c ≠ '\x00')
    (hroom : b.len + 1 < b.allocatedLen) :
    ∃ b', b.append c = some b' ∧ b'.Holds (cs ++ [c]) := by
  obtain ⟨junk, hjunk⟩ := hb.cells
  cases junk with
  | nil =>
    have hsize := hb.size
    rw [hjunk, List.length_append, List.length_singleton, ← hb.len] at hsize
    omega
  | cons d junk =>
    have hfirst := DynBuf.set_middle hjunk hb.len c
    have hcells : (b.withCells (cs ++ c :: d :: junk)).buffer = (cs ++ [c]) ++ d :: junk := by
      rw [withCells_buffer, List.append_assoc]
      rfl
    have hsecond := DynBuf.set_middle (n := b.len + 1) hcells (by simp [hb.len]) '\x00'
    rw [DynBuf.append, hfirst]
    dsimp only [Option.bind_eq_bind, Option.bind_some]
    rw [hsecond]
    refine ⟨_, rfl, ?_⟩
    have hlen : b.len + 1 = (cs ++ [c]).length := by simp [hb.len]
    rw [withCells_withCells, hlen]
    refine hb.withCells ?_ rfl ?_
    · simp [hjunk]
    · simp [hb.noZero, Ne.symm hc]

theorem dbufPutc_spec (h : Heap) (hb : b.Holds cs) (hc : c ≠ '\x00') :
    ∃ r b', dbufPutc h b c = some (r, b') ∧
      (r = none ∧ b'.Holds (cs ++ [c]) ∨
        r = some .noMem ∧ b'.Holds cs ∧ ∃ m ≤ 2 * (cs.length + 1), h.malloc m = none) := by
  unfold dbufPutc
  by_cases hfull : b.allocatedLen ≤ b.len + 1
  · have hroom := hb.room
    have hsmall := hb.small
    have heq : b.allocatedLen = b.len + 1 := by omega
    obtain ⟨r, b', hmake, hb', hor⟩ := dbufMakeRoom_spec h hb (n := b.len + 1) (by omega)
    rw [if_pos hfull, dbufPutcFN, if_pos heq, hmake]
    dsimp only [Option.bind_eq_bind, Option.bind_some]
    rw [hb.len] at hor
    rcases hor with ⟨rfl, hlt⟩ | ⟨rfl, hm⟩
    · rw [← hb'.len] at hlt
      obtain ⟨b'', happend, hb''⟩ := hb'.append hc hlt
      simp only [ne_eq, not_true_eq_false, if_false, happend]
      exact ⟨_, _, rfl, .inl ⟨rfl, hb''⟩⟩
    · exact ⟨_, _, rfl, .inr ⟨rfl, hb', hm⟩⟩
  · obtain ⟨b', happend, hb'⟩ := hb.append hc (Nat.lt_of_not_le hfull)
    rw [if_neg hfull, happend]
    exact ⟨_, _, rfl, .inl ⟨rfl, hb'⟩⟩

theorem dbufPuts_spec (h : Heap) {str : List Char} (hb : b.Holds cs) (hstr : '\x00' ∉ str)
    (hlen : str.length < 2 ^ 31) :
    ∃ r b', dbufPuts h b str = some (r, b') ∧
      (r = none ∧ b'.Holds (cs ++ str) ∨
        r = some .noMem ∧ b'.Holds cs ∧
          ∃ m ≤ 2 * (cs.length + str.length), h.malloc m = none) := by
  have hwrap : wrap (str.length : ℤ) = str.length := wrap_of_inInt (by rw [inInt_iff]; omega)
  unfold dbufPuts
  rw [hwrap]
  dsimp only
  by_cases hnil : (str.length : ℤ) = 0
  · rw [if_pos hnil]
    have hempty : str = [] := List.length_eq_zero_iff.1 (by omega)
    subst hempty
    exact ⟨none, b, rfl, .inl ⟨rfl, by rwa [List.append_nil]⟩⟩
  · have hroom := hb.room
    have hsmall := hb.small
    have hsum : (((b.len : ℤ) + str.length) % 2 ^ 64).toNat = b.len + str.length := by omega
    rw [if_neg hnil, hsum]
    obtain ⟨r, b', hmake, hb', hor⟩ := dbufMakeRoom_spec h hb (n := b.len + str.length) (by omega)
    rw [hmake]
    dsimp only [Option.bind_eq_bind, Option.bind_some]
    rw [hb.len] at hor
    rcases hor with ⟨rfl, hlt⟩ | ⟨rfl, hm⟩
    · obtain ⟨junk, hjunk⟩ := hb'.cells
      have hsize := hb'.size
      rw [hjunk, List.length_append] at hsize
      have hfits : str.length < ('\x00' :: junk).length := by omega
      obtain ⟨junk', hcopy, hcells⟩ := @strcpy_fits _ cs _ hfits
      simp only [ne_eq, not_true_eq_false, if_false, hjunk, hb'.len, hcopy]
      refine ⟨_, _, rfl, .inl ⟨rfl, ?_⟩⟩
      have hlen' : b.len + str.length = (cs ++ str).length := by
        rw [List.length_append, hb.len]
      rw [hlen']
      refine hb'.withCells ?_ (List.append_assoc _ _ _).symm ?_
      · rw [hjunk, List.length_append, List.length_append, List.length_append, List.length_cons]
        omega
      · rw [List.mem_append]
        exact not_or.2 ⟨hb.noZero, hstr⟩
    · exact ⟨_, _, rfl, .inr ⟨rfl, hb', hm⟩⟩

/-- A string whose length is no `int`, put into a new buffer: the block is for the `int`, or there
is none for it. -/
theorem dbufPuts_beyond (h : Heap) {str : List Char} (hb : b.Holds []) (hnew : b.heap = none)
    (hlen : 2 ^ 31 ≤ str.length) (hzero : wrap str.length ≠ 0) :
    dbufPuts h b str = none ∨
      ∃ b', dbufPuts h b str = some (some .noMem, b') ∧ ∃ m < 2 ^ 63, h.malloc m = none := by
  have hlen0 : b.len = 0 := hb.len
  have hsize : b.allocatedLen = 32 := by
    rw [← hb.size, DynBuf.buffer, hnew]
    exact hb.static
  have hint := wrap_inInt (str.length : ℤ)
  rw [inInt_iff] at hint
  rw [dbufPuts]
  simp only [hzero, if_false, hlen0, Nat.cast_zero, zero_add]
  by_cases hneg : wrap (str.length : ℤ) < 0
  · -- the sum is a `size_t` that no size comes up to
    have hgrow := growSize_none 65 (n := (wrap (str.length : ℤ) % 2 ^ 64).toNat) (by omega)
      (.inr ⟨5, by decide, hsize⟩)
    left
    rw [dbufMakeRoom, if_neg (by omega), hgrow]
    rfl
  · have hsum : (wrap (str.length : ℤ) % 2 ^ 64).toNat = (wrap (str.length : ℤ)).toNat := by
      rw [Int.emod_eq_of_lt (by omega) (by omega)]
    have hlong : 2 ^ 32 ≤ str.length - (wrap (str.length : ℤ)).toNat := by
      unfold wrap at hneg hzero ⊢
      omega
    rw [hsum]
    obtain ⟨r, b', hmake, hb', hor⟩ :=
      dbufMakeRoom_spec h hb (n := (wrap (str.length : ℤ)).toNat) (by omega)
    have hroom := dbufMakeRoom_size h hb (by omega) hmake
    rw [hmake]
    dsimp only [Option.bind_eq_bind, Option.bind_some]
    rcases hor with ⟨rfl, -⟩ | ⟨rfl, m, hm, hnone⟩
    · left
      have hshort : ¬b'.len + (str ++ ['\x00']).length ≤ b'.buffer.length := by
        rw [hb'.size, List.length_append]
        omega
      rw [strcpy, writeCells, if_neg hshort]
      rfl
    · exact .inr ⟨b', rfl, m, by omega, hnone⟩

/-! ### DBufFree -/

theorem dbufInit_spec {staticBuf : List Char} (hs : staticBuf.length = dbufStaticSize) :
    ∃ b, dbufInit staticBuf = some b ∧ b.Holds [] ∧ b.heap = none := by
  cases staticBuf with
  | nil => cases hs
  | cons d junk =>
    have hset := @DynBuf.set_middle ⟨d :: junk, none, 0, dbufStaticSize⟩ 0 [] _ _ rfl rfl '\x00'
    refine ⟨_, hset, ⟨⟨junk, rfl⟩, rfl, hs, hs, ⟨5, by decide, rfl⟩, List.not_mem_nil⟩, rfl⟩

theorem dbufFree_spec (hb : b.Holds cs) :
    ∃ b', dbufFree b = some b' ∧ b'.Holds [] ∧ b'.heap = none :=
  dbufInit_spec hb.static

/-! ### DBufGets -/

/-- What a `DBufGets` comes to that is to read `line`, with `rest` behind it: the whole line, a line
that is too long, or no memory. -/
inductive GetsOutcome (h : Heap) (maxlen : ℤ) (line rest : List Char) :
    Option ErrCode → DynBuf → List Char → Prop
  | line {b : DynBuf} : b.Holds line → GetsOutcome h maxlen line rest none b rest
  | tooLong {b : DynBuf} {cs fp : List Char} : b.Holds cs → cs <+: line → 0 < maxlen →
      maxlen < line.length → GetsOutcome h maxlen line rest (some .lineTooLong) b fp
  | noMem {b : DynBuf} {cs fp : List Char} : b.Holds cs → cs <+: line →
      (∃ m, h.malloc m = none) → GetsOutcome h maxlen line rest (some .noMem) b fp

theorem lineOf_nil : lineOf [] = [] := rfl

theorem dbufGetsLoop_spec (h : Heap) {tmp : List Char} (htmp : tmp.length = 256) (maxlen : ℤ)
    (k : ℕ) {b : DynBuf} {cs fp : List Char} (hb : b.Holds cs) (hfp : '\x00' ∉ fp)
    (hk : fp.length < k) :
    ∃ r b' rest, dbufGetsLoop h tmp maxlen k b fp = some (r, b', rest) ∧
      GetsOutcome h maxlen (cs ++ lineOf fp) (afterLine fp) r b' rest := by
  induction k generalizing tmp b cs fp with
  | zero => omega
  | succ k ih =>
    rw [dbufGetsLoop]
    by_cases hnil : fp = []
    · subst hnil
      rw [fgets_nil]
      exact ⟨_, _, _, rfl, .line (by rwa [lineOf_nil, List.append_nil])⟩
    · obtain ⟨junk, hgets, hjunk⟩ := @fgets_some tmp 256 (by decide) htmp.ge _ hnil
      rw [hgets]
      have hne := fgetsRead_ne_nil (n := 255) (by decide) hnil
      have hinit := fgetsRead_prefix 255 fp
      have hlen := fgetsRead_length 255 fp
      have hnewline := @fgetsRead_newline 255 fp
      have hpart := @fgetsRead_part 255 fp
      dsimp only [Option.bind_eq_bind, Option.bind_some, Nat.reduceSub] at hjunk ⊢
      generalize fgetsRead 255 fp = chunk at *
      have hzero : '\x00' ∉ chunk := fun hm => hfp (hinit.subset hm)
      rw [cString_of hzero]
      dsimp only [Option.bind_some]
      rw [if_neg hne]
      have hdrop : (fp.drop chunk.length).length < k := by
        have hpos := List.length_pos_of_ne_nil hne
        have hle := hinit.length_le
        rw [List.length_drop]
        omega
      have hzero' : '\x00' ∉ fp.drop chunk.length := fun hm => hfp (List.mem_of_mem_drop hm)
      by_cases hlast : chunk.getLast? = some '\n'
      · obtain ⟨hchunk, hrest⟩ := hnewline hlast
        have hline : chunk.dropLast = lineOf fp := by rw [hchunk, List.dropLast_concat]
        obtain ⟨r, b', hputs, hor⟩ := @dbufPuts_spec _ _ h chunk.dropLast hb
          (fun hm => hzero (List.mem_of_mem_dropLast hm)) (by rw [List.length_dropLast]; omega)
        rw [if_pos hlast, hputs, hrest]
        dsimp only [Option.bind_some]
        rw [hline] at hor
        rcases hor with ⟨rfl, hb'⟩ | ⟨rfl, hb', hm⟩
        · rw [if_neg (by simp)]
          split_ifs with hmax
          · rw [hb'.len] at hmax
            exact ⟨_, _, _, rfl, .tooLong hb' (List.prefix_refl _) hmax.1 hmax.2⟩
          · exact ⟨_, _, _, rfl, .line hb'⟩
        · exact ⟨_, _, _, rfl, .noMem hb' (List.prefix_append _ _) (hm.imp fun _ h => h.2)⟩
      · obtain ⟨hline, hafter⟩ := hpart hlast
        obtain ⟨r, b', hputs, hor⟩ := @dbufPuts_spec _ _ h chunk hb hzero (by omega)
        rw [if_neg hlast, hputs]
        dsimp only [Option.bind_some]
        rw [hline, hafter, ← List.append_assoc]
        rcases hor with ⟨rfl, hb'⟩ | ⟨rfl, hb', hm⟩
        · rw [if_neg (by simp)]
          split_ifs with hmax
          · rw [hb'.len] at hmax
            refine ⟨_, _, _, rfl, .tooLong hb' (List.prefix_append _ _) hmax.1 ?_⟩
            rw [List.length_append]
            push_cast
            omega
          · refine ih ?_ hb' hzero' hdrop
            rw [← htmp, ← hjunk, List.length_append, List.length_cons]
            omega
        · exact ⟨_, _, _, rfl, .noMem hb' (by simp [List.append_assoc])
            (hm.imp fun _ h => h.2)⟩

/-- `DBufGets` reads the first line of a stream, of any length. -/
theorem dbufGets_spec (h : Heap) {tmp : List Char} (htmp : tmp.length = 256) (maxlen : ℤ)
    {b : DynBuf} {cs fp : List Char} (hb : b.Holds cs) (hfp : '\x00' ∉ fp) :
    ∃ r b' rest, dbufGets h tmp b fp maxlen = some (r, b', rest) ∧
      GetsOutcome h maxlen (lineOf fp) (afterLine fp) r b' rest := by
  obtain ⟨b₀, hfree, hb₀, hstatic⟩ := dbufFree_spec hb
  have hsize : b₀.allocatedLen = 32 := by
    rw [← hb₀.size, DynBuf.buffer, hstatic]
    exact hb₀.static
  rw [dbufGets, hfree]
  dsimp only [Option.bind_eq_bind, Option.bind_some]
  rw [hsize]
  by_cases hnil : fp = []
  · subst hnil
    rw [fgets_nil]
    exact ⟨_, _, _, rfl, .line hb₀⟩
  · have hcells : b₀.buffer.length = 32 := hb₀.size.trans hsize
    obtain ⟨junk, hgets, hjunk⟩ := @fgets_some b₀.buffer 32 (by decide) hcells.ge _ hnil
    rw [hgets]
    have hne := fgetsRead_ne_nil (n := 31) (by decide) hnil
    have hinit := fgetsRead_prefix 31 fp
    have hnewline := @fgetsRead_newline 31 fp
    have hpart := @fgetsRead_part 31 fp
    dsimp only [Option.bind_eq_bind, Option.bind_some, Nat.reduceSub] at hjunk ⊢
    generalize fgetsRead 31 fp = chunk at *
    have hzero : '\x00' ∉ chunk := fun hm => hfp (hinit.subset hm)
    have hchunk : DynBuf.Holds { b₀.withCells (chunk ++ '\x00' :: junk) with len := chunk.length }
        chunk := by
      refine hb₀.withCells ?_ rfl hzero
      rw [hcells, ← hcells, ← hjunk, List.length_append, List.length_cons]
      omega
    rw [DynBuf.withCells_buffer, cString_of hzero]
    dsimp only [Option.bind_some]
    rw [if_neg hne]
    by_cases hlast : chunk.getLast? = some '\n'
    · obtain ⟨hline, hrest⟩ := hnewline hlast
      have hbuffer : (b₀.withCells (chunk ++ '\x00' :: junk)).buffer =
          lineOf fp ++ '\n' :: '\x00' :: junk := by
        rw [DynBuf.withCells_buffer, hline, List.append_assoc]
        rfl
      have hlen : chunk.length - 1 = (lineOf fp).length := by rw [hline]; simp
      have hset := DynBuf.set_middle hbuffer hlen '\x00'
      have hb' : DynBuf.Holds { b₀.withCells (lineOf fp ++ '\x00' :: '\x00' :: junk) with
          len := (lineOf fp).length } (lineOf fp) := by
        refine hb₀.withCells ?_ rfl ?_
        · have hsame := congrArg List.length hbuffer
          rw [DynBuf.withCells_buffer] at hsame
          rw [hcells, ← hcells, ← hjunk]
          rw [List.length_append, List.length_cons] at hsame ⊢
          rw [List.length_append, List.length_cons] at hsame
          rw [List.length_cons] at hsame ⊢
          omega
        · intro hm
          exact hzero (by rw [hline]; exact List.mem_append_left _ hm)
      rw [if_pos hlast, hset, hrest, DynBuf.withCells_withCells, hlen]
      dsimp only [Option.bind_some]
      split_ifs with hmax
      · exact ⟨_, _, _, rfl, .tooLong hb' (List.prefix_refl _) hmax.1 hmax.2⟩
      · exact ⟨_, _, _, rfl, .line hb'⟩
    · obtain ⟨hline, hafter⟩ := hpart hlast
      rw [if_neg hlast, hline, hafter]
      exact dbufGetsLoop_spec h htmp maxlen _ hchunk
        (fun hm => hfp (List.mem_of_mem_drop hm)) (Nat.lt_succ_self _)

end Holds

/-! ### Runs -/

/-- A call, with what it is given. -/
inductive BufCall where
  | putc (c : Char)
  | puts (str : List Char)
  | free
  | gets (tmp fp : List Char) (maxlen : ℤ)

/-- Strings without a zero in them, as long as an `int` can say. -/
def BufCall.Proper : BufCall → Prop
  | .putc c => c ≠ '\x00'
  | .puts str => '\x00' ∉ str ∧ str.length < 2 ^ 31
  | .free => True
  | .gets tmp fp _ => tmp.length = 256 ∧ '\x00' ∉ fp

/-- The result of a call, and the buffer behind it. -/
def BufCall.run (h : Heap) (b : DynBuf) : BufCall → Option (Option ErrCode × DynBuf)
  | .putc c => dbufPutc h b c
  | .puts str => dbufPuts h b str
  | .free => (dbufFree b).map fun b => (none, b)
  | .gets tmp fp maxlen => (dbufGets h tmp b fp maxlen).map fun r => (r.1, r.2.1)

/-- What has been put into the buffer since it was last freed, by a call that has put `len` characters
of its line into it if it is a `DBufGets` that fails. -/
def BufCall.appended (cs : List Char) (r : Option ErrCode) (len : ℕ) : BufCall → List Char
  | .putc c => if r = none then cs ++ [c] else cs
  | .puts str => if r = none then cs ++ str else cs
  | .free => []
  | .gets _ fp _ => if r = none then lineOf fp else (lineOf fp).take len

/-- A sequence of calls: the buffer, and what has been put into it. -/
def runBuf : List (Heap × BufCall) → DynBuf → List Char → Option (DynBuf × List Char)
  | [], b, cs => some (b, cs)
  | (h, call) :: calls, b, cs => do
    let (r, b) ← call.run h b
    runBuf calls b (call.appended cs r b.len)

theorem BufCall.run_spec (h : Heap) {b : DynBuf} {cs : List Char} (hb : b.Holds cs)
    {call : BufCall} (hcall : call.Proper) :
    ∃ r b', call.run h b = some (r, b') ∧ b'.Holds (call.appended cs r b'.len) := by
  cases call with
  | putc c =>
    obtain ⟨r, b', hrun, hor⟩ := dbufPutc_spec h hb hcall
    refine ⟨r, b', hrun, ?_⟩
    rcases hor with ⟨rfl, hb'⟩ | ⟨rfl, hb', -⟩ <;> exact hb'
  | puts str =>
    obtain ⟨r, b', hrun, hor⟩ := dbufPuts_spec h hb hcall.1 hcall.2
    refine ⟨r, b', hrun, ?_⟩
    rcases hor with ⟨rfl, hb'⟩ | ⟨rfl, hb', -⟩ <;> exact hb'
  | free =>
    obtain ⟨b', hrun, hb', -⟩ := dbufFree_spec hb
    exact ⟨none, b', by rw [run, hrun]; rfl, hb'⟩
  | gets tmp fp maxlen =>
    obtain ⟨r, b', rest, hrun, hout⟩ := dbufGets_spec h hcall.1 maxlen hb hcall.2
    refine ⟨r, b', by rw [run, hrun]; rfl, ?_⟩
    cases hout with
    | line hb' => exact hb'
    | tooLong hb' hinit =>
      show b'.Holds ((lineOf fp).take b'.len)
      rwa [hb'.len, ← List.prefix_iff_eq_take.1 hinit]
    | noMem hb' hinit =>
      show b'.Holds ((lineOf fp).take b'.len)
      rwa [hb'.len, ← List.prefix_iff_eq_take.1 hinit]

theorem runBuf_holds {calls : List (Heap × BufCall)} (hcalls : ∀ c ∈ calls, c.2.Proper)
    {b : DynBuf} {cs : List Char} (hb : b.Holds cs) :
    ∃ b' cs', runBuf calls b cs = some (b', cs') ∧ b'.Holds cs' := by
  induction calls generalizing b cs with
  | nil => exact ⟨b, cs, rfl, hb⟩
  | cons call calls ih =>
    rw [List.forall_mem_cons] at hcalls
    obtain ⟨r, b', hrun, hb'⟩ := BufCall.run_spec call.1 hb hcalls.1
    rw [runBuf, hrun]
    exact ih hcalls.2 hb'

/-- For every sequence of calls on a buffer, whatever the blocks of `malloc` hold and whenever it gives
none: no access is outside of a block, and the buffer holds what has been put into it.  The next
`DBufGets` reads one line, of any length, and leaves the rest of the stream unread. -/
theorem dynBuf_calls (calls : List (Heap × BufCall)) (hcalls : ∀ c ∈ calls, c.2.Proper)
    (staticBuf : List Char) (hs : staticBuf.length = dbufStaticSize) :
    ∃ b₀ b cs, dbufInit staticBuf = some b₀ ∧ runBuf calls b₀ [] = some (b, cs) ∧
      b.len < b.allocatedLen ∧ b.buffer.take b.len = cs ∧ b.buffer[b.len]? = some '\x00' ∧
      ∀ (h : Heap) (tmp fp : List Char) (maxlen : ℤ), tmp.length = 256 → '\x00' ∉ fp →
        ∃ r b' rest, dbufGets h tmp b fp maxlen = some (r, b', rest) ∧
          (r = none → b'.buffer.take b'.len = lineOf fp ∧ rest = afterLine fp) ∧
          (r = some .lineTooLong → 0 < maxlen ∧ maxlen < (lineOf fp).length) ∧
          (r ≠ none → r ≠ some .lineTooLong → r = some .noMem ∧ ∃ m, h.malloc m = none) := by
  have htext : ∀ {b : DynBuf} {cs : List Char}, b.Holds cs →
      b.buffer.take b.len = cs ∧ b.buffer[b.len]? = some '\x00' := by
    intro b cs hb
    obtain ⟨junk, hjunk⟩ := hb.cells
    rw [hjunk, hb.len]
    exact ⟨List.take_left, by simp⟩
  obtain ⟨b₀, hinit, hb₀, -⟩ := dbufInit_spec hs
  obtain ⟨b, cs, hrun, hb⟩ := runBuf_holds hcalls hb₀
  refine ⟨b₀, b, cs, hinit, hrun, hb.room, (htext hb).1, (htext hb).2, ?_⟩
  intro h tmp fp maxlen htmp hfp
  obtain ⟨r, b', rest, hgets, hout⟩ := dbufGets_spec h htmp maxlen hb hfp
  refine ⟨r, b', rest, hgets, ?_⟩
  cases hout with
  | line hb' => exact ⟨fun _ => ⟨(htext hb').1, rfl⟩, nofun, fun hne => absurd rfl hne⟩
  | tooLong hb' _ hpos hlt => exact ⟨nofun, fun _ => ⟨hpos, hlt⟩, fun _ hne => absurd rfl hne⟩
  | noMem hb' _ hm => exact ⟨nofun, nofun, fun _ _ => ⟨rfl, hm⟩⟩

/-- A heap that gives every block that it may. -/
def plainHeap : Heap where
  malloc n := if n < 2 ^ 63 then some (List.replicate n 'x') else none
  length_eq h := by
    split_ifs at h
    · rw [← Option.some.inj h, List.length_replicate]
  max h := by
    split_ifs at h with hn
    · exact hn

/-- A buffer that moves to the heap with a line of 40 characters, and is freed. -/
theorem dynBuf_calls_line :
    ∃ b₀ b cs, dbufInit (List.replicate 32 'x') = some b₀ ∧
      runBuf [(plainHeap, .gets (List.replicate 256 'x') (List.replicate 40 'a' ++ ['\n']) 0),
        (plainHeap, .putc 'b'), (plainHeap, .free), (plainHeap, .puts ['c'])] b₀ [] = some (b, cs) ∧
      b.len < b.allocatedLen ∧ b.buffer.take b.len = cs ∧ b.buffer[b.len]? = some '\x00' ∧
      ∀ (h : Heap) (tmp fp : List Char) (maxlen : ℤ), tmp.length = 256 → '\x00' ∉ fp →
        ∃ r b' rest, dbufGets h tmp b fp maxlen = some (r, b', rest) ∧
          (r = none → b'.buffer.take b'.len = lineOf fp ∧ rest = afterLine fp) ∧
          (r = some .lineTooLong → 0 < maxlen ∧ maxlen < (lineOf fp).length) ∧
          (r ≠ none → r ≠ some .lineTooLong → r = some .noMem ∧ ∃ m, h.malloc m = none) :=
  dynBuf_calls _ (by
    rintro c hc
    simp only [List.mem_cons, List.not_mem_nil, or_false] at hc
    rcases hc with rfl | rfl | rfl | rfl
    · exact ⟨List.length_replicate, by decide⟩
    · exact (by decide : 'b' ≠ '\x00')
    · exact trivial
    · exact ⟨by decide, by decide⟩) _ List.length_replicate

/-- A string of 2^31 characters has no length in an `int`. -/
theorem dbufPuts_long (h : Heap) {str : List Char} (hlen : str.length = 2 ^ 31) (cells : List Char) :
    dbufPuts h ⟨cells, none, 0, 32⟩ str = none := by
  have hgrow : growSize 65 32 18446744071562067968 = none := by decide +kernel
  have hwrap : wrap (str.length : ℤ) = -2147483648 := by
    rw [hlen]
    decide
  have hsum : (((0 : ℕ) + (-2147483648 : ℤ)) % 2 ^ 64).toNat = 18446744071562067968 := by decide
  have hmake : dbufMakeRoom h ⟨cells, none, 0, 32⟩ 18446744071562067968 = none := by
    have hroom : ¬ 32 > 18446744071562067968 := by decide
    rw [dbufMakeRoom, if_neg hroom, hgrow]
    rfl
  rw [dbufPuts, hwrap]
  dsimp only
  rw [if_neg (by decide), hsum, hmake]
  rfl

/-- A zero in a line joins it to the next one; a limit leaves the rest of a long line unread; a string
of 2^31 characters sends `DBufMakeRoom` into a loop without end. -/
theorem dynBuf_limits :
    (dbufGets plainHeap (List.replicate 256 'x')
        ⟨'\x00' :: List.replicate 31 'x', none, 0, 32⟩ "a\x00b\ncd\nef".toList 0).map
      (fun r => (r.1, r.2.1.buffer.take r.2.1.len, r.2.2)) =
        some (none, "acd".toList, "ef".toList) ∧
    (dbufGets plainHeap (List.replicate 256 'x')
        ⟨'\x00' :: List.replicate 31 'x', none, 0, 32⟩
        (List.replicate 300 'a' ++ "\nb".toList) 40).map (fun r => (r.1, r.2.2)) =
        some (some .lineTooLong, List.replicate 14 'a' ++ "\nb".toList) ∧
    dbufPuts plainHeap ⟨'\x00' :: List.replicate 31 'x', none, 0, 32⟩
      (List.replicate (2 ^ 31) 'a') = none := by
  exact ⟨by decide +kernel, by decide +kernel, dbufPuts_long _ List.length_replicate _⟩

end Remind
