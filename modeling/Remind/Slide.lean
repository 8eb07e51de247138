import Remind.DateFuncs
import Remind.Lib.Progression

/-!
# Slide — slide() and nonomitted() (funcs.c: `FSlide`, `FNonomitted`)

A walk over the days that are not omitted is `Lib.Nth`, the loops find where it ends.  The loop into
the future ends where the walk does not leave the `int` range before.
-/

namespace Remind

section Loops

variable {omitted : ℤ → Bool} {step : ℤ}

theorem slideUp_eq_some_iff (hstep : 1 ≤ step) {r : ℤ} : ∀ {n amt : ℕ} {d : ℤ}, d ≤ Lib.intMax →
    (Lib.intMax - d).toNat < n →
    (slideUp omitted step n amt d = some r ↔
      Lib.Nth (fun x => !omitted x) d step amt r ∧ r ≤ Lib.intMax) := by
  intro n
  induction n with
  | zero => exact fun _ hn => absurd hn (by omega)
  | succ n ih =>
    intro amt d hd hn
    cases amt with
    | zero =>
      rw [slideUp, Lib.nth_zero_iff, Option.some_inj]
      exact ⟨fun h => ⟨h.symm, by omega⟩, fun h => h.1.symm⟩
    | succ amt =>
      rw [slideUp]
      by_cases hmax : d + step > Lib.intMax
      · rw [if_pos hmax]
        refine ⟨nofun, fun ⟨hnth, hr⟩ => ?_⟩
        rw [Lib.nth_succ_iff] at hnth
        have hle : d + step ≤ r := by
          split_ifs at hnth
          · exact hnth.le (by omega)
          · exact hnth.le (by omega)
        omega
      · rw [if_neg hmax, Lib.nth_succ_iff]
        cases ho : omitted (d + step) with
        | true => simpa [ho] using ih (by omega) (by omega)
        | false => simpa [ho] using ih (by omega) (by omega)

theorem slideDown_eq_ok_iff (hstep : 1 ≤ step) {r : ℤ} : ∀ {n amt : ℕ} {d : ℤ}, 0 ≤ d →
    d.toNat < n →
    (slideDown omitted step n amt d = .ok r ↔
      Lib.Nth (fun x => !omitted x) d (-step) amt r ∧ 0 ≤ r) := by
  intro n
  induction n with
  | zero => exact fun _ hn => absurd hn (by omega)
  | succ n ih =>
    intro amt d hd hn
    cases amt with
    | zero =>
      rw [slideDown, Lib.nth_zero_iff, Except.ok.injEq]
      exact ⟨fun h => ⟨h.symm, by omega⟩, fun h => h.1.symm⟩
    | succ amt =>
      rw [slideDown]
      by_cases hlow : d - step < 0
      · rw [if_pos hlow]
        refine ⟨nofun, fun ⟨hnth, hr⟩ => ?_⟩
        rw [Lib.nth_succ_iff] at hnth
        have hle : r ≤ d + -step := by
          split_ifs at hnth
          · exact hnth.ge (by omega)
          · exact hnth.ge (by omega)
        omega
      · rw [if_neg hlow, Lib.nth_succ_iff, ← Int.sub_eq_add_neg]
        cases ho : omitted (d - step) with
        | true => simpa [ho] using ih (by omega) (by omega)
        | false => simpa [ho] using ih (by omega) (by omega)

/-- The loop into the past ends. -/
theorem slideDown_ends (hstep : 1 ≤ step) : ∀ {n amt : ℕ} {d : ℤ}, 0 ≤ d → d.toNat < n →
    (∃ r, slideDown omitted step n amt d = .ok r) ∨
      slideDown omitted step n amt d = .error .dateOver := by
  intro n
  induction n with
  | zero => exact fun _ hn => absurd hn (by omega)
  | succ n ih =>
    intro amt d hd hn
    cases amt with
    | zero => exact Or.inl ⟨d, rfl⟩
    | succ amt =>
      rw [slideDown]
      by_cases hlow : d - step < 0
      · exact Or.inr (if_pos hlow)
      · rw [if_neg hlow]
        split_ifs
        · exact ih (by omega) (by omega)
        · exact ih (by omega) (by omega)

/-- `FNonomitted` with step 1 counts from the earlier date up to the one before the later. -/
theorem nonomittedLoop_one : ∀ {k n : ℕ} {d : ℤ} {ans : ℕ}, k < n →
    nonomittedLoop omitted 1 (d + k) n d ans =
      some (ans + Lib.tally (fun x => !omitted x) (d - 1) 1 k) := by
  intro k
  induction k with
  | zero =>
    intro n d ans hn
    obtain ⟨n, rfl⟩ := Nat.exists_eq_add_of_lt hn
    rw [nonomittedLoop, if_neg (by omega), Lib.tally_zero]
    rfl
  | succ k ih =>
    intro n d ans hn
    obtain ⟨n, rfl⟩ := Nat.exists_eq_add_of_lt hn
    rw [nonomittedLoop, if_pos (by omega), Lib.tally_succ',
      show d + ((k + 1 : ℕ) : ℤ) = d + 1 + k by omega, ih (by omega), Int.sub_add_cancel,
      Int.add_sub_cancel]
    cases omitted d with
    | true => simp
    | false =>
      simp only [Bool.false_eq_true, if_false, Bool.not_false, if_true, Option.some_inj]
      omega

theorem slide_eq_ok_iff (hstep : 1 ≤ step) {d amt r : ℤ} (hd : 0 ≤ d) (hd' : d ≤ Lib.intMax) :
    slide omitted step d amt = some (.ok r) ↔
      Lib.Nth (fun x => !omitted x) d (if 0 < amt then step else -step) amt.natAbs r ∧ 0 ≤ r ∧
        r ≤ Lib.intMax := by
  unfold slide
  split_ifs with hamt
  · have hup := @slideUp_eq_some_iff omitted _ hstep r _ amt.toNat _ hd'
      (Nat.lt_succ_self _)
    rw [show amt.natAbs = amt.toNat by omega]
    rw [Option.map_eq_some_iff]
    constructor
    · rintro ⟨r', hr', heq⟩
      cases heq
      obtain ⟨hnth, hle⟩ := hup.mp hr'
      have := hnth.le (by omega)
      exact ⟨hnth, by omega, hle⟩
    · exact fun ⟨hnth, _, hle⟩ => ⟨r, hup.mpr ⟨hnth, hle⟩, rfl⟩
  · rw [show amt.natAbs = (-amt).toNat by omega, Option.some_inj,
      slideDown_eq_ok_iff hstep hd (Nat.lt_succ_self _)]
    constructor
    · rintro ⟨hnth, hle⟩
      have := hnth.ge (by omega)
      exact ⟨hnth, hle, by omega⟩
    · exact fun ⟨hnth, hle, _⟩ => ⟨hnth, hle⟩

end Loops

/-! ### What slide() accepts -/

section Args

variable {c : OmitContext} {findToken : String → Token} {args rest : List Value}
  {v : Value} {d amt step : ℤ} {w : WdSet}

theorem stepArgs_pos (h : stepArgs findToken args = .ok (step, w)) : 1 ≤ step := by
  unfold stepArgs at h
  split at h
  · split_ifs at h with hlow
    cases hw : weekdayArgs findToken _ 0 with
    | error r => rw [hw] at h; cases h
    | ok w' =>
      rw [hw] at h
      cases h
      omega
  · cases hw : weekdayArgs findToken args 0 with
    | error r => rw [hw] at h; cases h
    | ok w' =>
      rw [hw] at h
      cases h
      omega

/-- What slide() asks of its arguments. -/
structure SlideArgs (c : OmitContext) (findToken : String → Token) (v : Value) (amt : ℤ)
    (rest : List Value) (d step : ℤ) (w : WdSet) : Prop where
  date : v.datePart = some d
  high : amt ≤ 1000000
  low : -1000000 ≤ amt
  step : stepArgs findToken rest = .ok (step, w)
  weekdays : ¬(c.weekday ||| w = BitVec.allOnes 7 ∧ amt ≠ 0)

theorem slideArgs_ok_iff {amt' : ℤ} :
    slideArgs c findToken (v :: .int amt :: rest) = .ok (d, amt', step, w) ↔
      amt' = amt ∧ SlideArgs c findToken v amt rest d step w := by
  unfold slideArgs
  constructor
  · intro h
    cases hv : v.datePart with
    | none => simp [hv] at h
    | some d' =>
      cases hs : stepArgs findToken rest with
      | error r => simp only [hv, hs] at h; split_ifs at h
      | ok p =>
        obtain ⟨step', w'⟩ := p
        simp only [hv, hs] at h
        split_ifs at h with h1 h2 h3
        cases h
        exact ⟨rfl, hv, by omega, by omega, hs, h3⟩
  · rintro ⟨rfl, h⟩
    simp only [h.date, h.step]
    have h1 := h.high
    have h2 := h.low
    rw [if_neg (by omega), if_neg (by omega), if_neg h.weekdays]

theorem slideArgs_step (h : slideArgs c findToken args = .ok (d, amt, step, w)) : 1 ≤ step := by
  match args, h with
  | v :: .int _ :: rest, h => exact stepArgs_pos (slideArgs_ok_iff.mp h).2.step

theorem fSlide_eq (h : slideArgs c findToken args = .ok (d, amt, step, w)) :
    fSlide c findToken args = (slide (omittedDay c w) step d amt).map fun r => r.map .date := by
  unfold fSlide
  rw [h]

theorem fSlide_eq_date_iff {r : ℤ} (h : slideArgs c findToken args = .ok (d, amt, step, w)) :
    fSlide c findToken args = some (.ok (.date r)) ↔
      slide (omittedDay c w) step d amt = some (.ok r) := by
  rw [fSlide_eq h]
  cases slide (omittedDay c w) step d amt with
  | none => simp
  | some o =>
    cases o with
    | error e => simp [Except.map]
    | ok r' => simp [Except.map]

end Args

/-! ### slide() and nonomitted() -/

section Agree

variable {c : OmitContext} {findToken : String → Token} {v : Value} {n d step r : ℤ} {w : WdSet}
  {rest : List Value}

theorem fNonomitted_one (hrest : stepArgs findToken rest = .ok (1, w)) (k : ℕ) :
    fNonomitted c findToken (.date d :: .date (d + k) :: rest) =
      some (.ok (.int (Lib.tally (fun x => !omittedDay c w x) (d - 1) 1 k))) := by
  have hloop := @nonomittedLoop_one (omittedDay c w) k (k + 1) d 0 (Nat.lt_succ_self k)
  have hle : ¬ d + k < d := by omega
  unfold fNonomitted nonomitted
  simp only [Value.datePart, hrest, if_neg hle]
  rw [show (d + k - d).toNat = k by omega, hloop, Nat.zero_add]
  rfl

/-- **slide() and nonomitted() agree**: where slide() goes to `r`, exactly `|n|` of the dates on its
way are not omitted and `r` is the last of them; nonomitted() counts them, and the way back is as
long. -/
theorem fSlide_nonomitted
    (hargs : slideArgs c findToken (v :: .int n :: rest) = .ok (d, n, step, w))
    (hd : 0 ≤ d) (hd' : d ≤ Lib.intMax)
    (h : fSlide c findToken (v :: .int n :: rest) = some (.ok (.date r))) :
    (∃ k : ℕ, r = d + (if 0 < n then step else -step) * k ∧
      Lib.tally (fun x => !omittedDay c w x) d (if 0 < n then step else -step) k = n.natAbs ∧
      (n ≠ 0 → 0 < k ∧ omittedDay c w r = false)) ∧
    (step = 1 → 0 < n →
      fNonomitted c findToken (.date (d + 1) :: .date (r + 1) :: rest) = some (.ok (.int n))) ∧
    (step = 1 → n < 0 →
      fNonomitted c findToken (.date r :: .date d :: rest) = some (.ok (.int (-n)))) ∧
    (omittedDay c w d = false →
      fSlide c findToken (.date r :: .int (-n) :: rest) = some (.ok (.date d))) := by
  have ok := (slideArgs_ok_iff.mp hargs).2
  have hstep := stepArgs_pos ok.step
  rw [fSlide_eq_date_iff hargs, slide_eq_ok_iff hstep hd hd'] at h
  obtain ⟨hnth, hr0, hrmax⟩ := h
  obtain ⟨k, hr, hcount, hlast⟩ := id hnth
  refine ⟨⟨k, hr, hcount, fun hn => ?_⟩, fun h1 hn => ?_, fun h1 hn => ?_, fun hdo => ?_⟩
  · have hk : k ≠ 0 := by
      rintro rfl
      rw [Lib.tally_zero] at hcount
      omega
    refine ⟨Nat.pos_of_ne_zero hk, ?_⟩
    rcases hlast with rfl | hlast
    · exact absurd rfl hk
    · simpa using hlast
  · subst h1
    rw [if_pos hn] at hr hcount
    rw [show r + 1 = d + 1 + k by omega, fNonomitted_one ok.step k, Int.add_sub_cancel, hcount]
    rw [show (n.natAbs : ℤ) = n by omega]
  · subst h1
    rw [if_neg (by omega)] at hr hcount
    -- the days from `r` up to `d` are those on the way down
    rw [Lib.tally_reverse, show d + -1 * ((k : ℤ) + 1) = r - 1 by omega, Int.neg_neg] at hcount
    rw [show d = r + k by omega, fNonomitted_one ok.step k, hcount]
    rw [show (n.natAbs : ℤ) = -n by omega]
  · have hback : slideArgs c findToken (.date r :: .int (-n) :: rest) = .ok (r, -n, step, w) :=
      slideArgs_ok_iff.mpr ⟨rfl, rfl, by have := ok.low; omega, by have := ok.high; omega, ok.step,
        fun hall => ok.weekdays ⟨hall.1, by have := hall.2; omega⟩⟩
    rw [fSlide_eq_date_iff hback, slide_eq_ok_iff hstep hr0 hrmax]
    refine ⟨?_, hd, hd'⟩
    have hrev := hnth.reverse (by simpa using hdo)
    rw [Int.natAbs_neg]
    rcases lt_trichotomy n 0 with hn | rfl | hn
    · rw [if_neg (by omega), Int.neg_neg] at hrev
      rwa [if_pos (by omega)]
    · rw [Int.natAbs_zero, Lib.nth_zero_iff] at hrev ⊢
      exact hrev
    · rw [if_pos hn] at hrev
      rwa [if_neg (by omega)]

theorem fSlide_nonomitted_workdays :
    slideArgs ⟨[], [], 0x60#7⟩ (fun _ => .empty) [.date 3, .int 5] = .ok (3, 5, 1, 0) ∧
      fNonomitted ⟨[], [], 0x60#7⟩ (fun _ => .empty) [.date 4, .date 11] = some (.ok (.int 5)) := by
  have hargs : slideArgs ⟨[], [], 0x60#7⟩ (fun _ => .empty) [.date 3, .int 5] =
      .ok (3, 5, 1, 0) := by decide
  exact ⟨hargs, (fSlide_nonomitted (r := 10) hargs (by decide) (by decide)
    (by decide +kernel)).2.1 rfl (by decide)⟩

end Agree

/-! ### Where slide() ends -/

section Ends

variable {c : OmitContext} {findToken : String → Token} {args : List Value} {d amt step : ℤ}
  {w : WdSet}

theorem slide_ends_iff {omitted : ℤ → Bool} (hstep : 1 ≤ step) (hd : 0 ≤ d)
    (hd' : d ≤ Lib.intMax) :
    ((∃ r, slide omitted step d amt = some (.ok r)) ∨
        slide omitted step d amt = some (.error .dateOver)) ↔
      amt ≤ 0 ∨
        amt ≤ Lib.tally (fun x => !omitted x) d step ((Lib.intMax - d) / step).toNat := by
  by_cases hamt : amt > 0
  · have hnot : slide omitted step d amt ≠ some (.error .dateOver) := by
      unfold slide
      rw [if_pos hamt]
      cases slideUp omitted step ((Lib.intMax - d).toNat + 1) amt.toNat d <;> simp
    -- the dates in the `int` range are the first `(intMax - d) / step` of them
    have hrange : ∀ k : ℕ, d + step * k ≤ Lib.intMax ↔ k ≤ ((Lib.intMax - d) / step).toNat := by
      intro k
      have hquot : 0 ≤ (Lib.intMax - d) / step := Int.ediv_nonneg (by omega) (by omega)
      rw [show k ≤ ((Lib.intMax - d) / step).toNat ↔ (k : ℤ) ≤ (Lib.intMax - d) / step by omega,
        Int.le_ediv_iff_mul_le (by omega), Int.mul_comm]
      omega
    have hwalk := @Lib.exists_nth_iff (fun x => !omitted x) d step amt.natAbs
      ((Lib.intMax - d) / step).toNat
    rw [show (amt ≤ 0 ∨ amt ≤ Lib.tally (fun x => !omitted x) d step
        ((Lib.intMax - d) / step).toNat) ↔ amt.natAbs ≤ Lib.tally (fun x => !omitted x) d step
        ((Lib.intMax - d) / step).toNat by omega, ← hwalk]
    constructor
    · rintro (⟨r, hr⟩ | herr)
      · rw [slide_eq_ok_iff hstep hd hd', if_pos hamt] at hr
        obtain ⟨⟨k, rfl, hcount, hlast⟩, -, hmax⟩ := hr
        exact ⟨k, (hrange k).mp hmax, hcount, hlast⟩
      · exact absurd herr hnot
    · rintro ⟨k, hk, hcount, hlast⟩
      refine Or.inl ⟨d + step * k, ?_⟩
      rw [slide_eq_ok_iff hstep hd hd', if_pos hamt]
      have := Int.mul_nonneg (show 0 ≤ step by omega) (Int.natCast_nonneg k)
      exact ⟨⟨k, rfl, hcount, hlast⟩, by omega, (hrange k).mpr hk⟩
  · refine iff_of_true ?_ (Or.inl (by omega))
    unfold slide
    rw [if_neg hamt]
    rcases @slideDown_ends omitted _ hstep _ (-amt).toNat _ hd
      (Nat.lt_succ_self _) with ⟨r, hr⟩ | hr
    · exact Or.inl ⟨r, congrArg some hr⟩
    · exact Or.inr (congrArg some hr)

theorem fSlide_ends_iff_slide (hargs : slideArgs c findToken args = .ok (d, amt, step, w)) :
    ((∃ r, fSlide c findToken args = some (.ok (.date r))) ∨
        fSlide c findToken args = some (.error .dateOver)) ↔
      (∃ r, slide (omittedDay c w) step d amt = some (.ok r)) ∨
        slide (omittedDay c w) step d amt = some (.error .dateOver) := by
  rw [fSlide_eq hargs]
  cases slide (omittedDay c w) step d amt with
  | none => simp
  | some o =>
    cases o with
    | error e => simp [Except.map]
    | ok r => simp [Except.map]

theorem omittedDay_weekday {n : ℤ} (h : (c.weekday ||| w).has n = true) :
    omittedDay c w n = true := by
  have hor : w.has n = true ∨ c.weekday.has n = true := by
    unfold WdSet.has at h ⊢
    rw [BitVec.getLsbD_or, Bool.or_eq_true] at h
    exact h.symm
  unfold omittedDay isOmitted
  rcases hor with hw | hw
  · simp only [hw, if_true]
  · by_cases hl : w.has n = true
    · simp only [hl, if_true]
    · simp only [if_neg hl, hw, if_true]

/-- **slide() ends** exactly where the dates up to the end of the `int` range do: with steps of
whole weeks from an omitted weekday it meets no date that counts. -/
theorem fSlide_ends_iff (hargs : slideArgs c findToken args = .ok (d, amt, step, w))
    (hd : 0 ≤ d) (hd' : d ≤ Lib.intMax) :
    ((∃ r, fSlide c findToken args = some (.ok (.date r))) ∨
        fSlide c findToken args = some (.error .dateOver)) ↔
      amt ≤ 0 ∨ amt ≤ Lib.tally (fun x => !omittedDay c w x) d step
        ((Lib.intMax - d) / step).toNat := by
  rw [fSlide_ends_iff_slide hargs]
  exact slide_ends_iff (slideArgs_step hargs) hd hd'

theorem fSlide_ends_iff_back :
    (∃ r, fSlide ⟨[], [], 0x60#7⟩ (fun _ => .empty) [.date 3, .int (-2)] =
        some (.ok (.date r))) ∨
      fSlide ⟨[], [], 0x60#7⟩ (fun _ => .empty) [.date 3, .int (-2)] = some (.error .dateOver) :=
  (@fSlide_ends_iff ⟨[], [], 0x60#7⟩ (fun _ => .empty) [.date 3, .int (-2)] 3 (-2) 1 0 (by decide)
    (by decide) (by decide)).mpr (Or.inl (by decide))

theorem fSlide_weekly_never_ends :
    slideArgs ⟨[], [], 0x01#7⟩ (fun _ => .empty) [.date 0, .int 1, .int 7] = .ok (0, 1, 7, 0) ∧
      ¬ ((∃ r, fSlide ⟨[], [], 0x01#7⟩ (fun _ => .empty) [.date 0, .int 1, .int 7] =
            some (.ok (.date r))) ∨
          fSlide ⟨[], [], 0x01#7⟩ (fun _ => .empty) [.date 0, .int 1, .int 7] =
            some (.error .dateOver)) := by
  have hargs : slideArgs ⟨[], [], 0x01#7⟩ (fun _ => .empty) [.date 0, .int 1, .int 7] =
      .ok (0, 1, 7, 0) := by decide
  refine ⟨hargs, ?_⟩
  rw [fSlide_ends_iff_slide hargs, slide_ends_iff (by decide) (by decide) (by decide),
    Lib.tally_eq_zero fun i => ?_]
  · omega
  · rw [omittedDay_weekday, Bool.not_true]
    unfold WdSet.has
    rw [show ((0 + 7 * ((i : ℤ) + 1)) % 7).toNat = 0 by omega]
    rfl

end Ends

end Remind
