import Remind.DurationDays
import Remind.Lib.Asks
import Remind.SearchSound

/-!
# OmitQueries — the dates that a look for a date asks about (`GetNextTriggerDate`, `IsOmitted`)

`IsOmitted` shifts by the date modulo 7, and so must not be asked about a date before the first one.
`noting e` are surroundings that note each date asked about.
-/

namespace Remind

open Lib (Asks ask)

/-- The surroundings, noting the dates that `IsOmitted` is asked about. -/
def noting (e : Env Id) : Env (StateM (List ℤ)) where
  weekdayOmits := e.weekdayOmits
  maxSatIter := e.maxSatIter
  calmode := e.calmode
  isOmitted localomit omitfunc n := ask n (e.isOmitted localomit omitfunc n)
  viewLocally t tim n := pure (e.viewLocally t tim n)

/-- The law: all the dates that `GetNextTriggerDate` asks about are dates, and so is what it returns
without an error, unless it is -1. -/
def QueriesInRange (e : Env Id) (t : Trigger) (start nextstart : ℤ) : Prop :=
  let r := getNextTriggerDate (noting e) t start nextstart []
  (∀ n ∈ r.2, 0 ≤ n) ∧ ∀ d ns, r.1 = .ok (d, ns) → d = -1 ∨ 0 ≤ d

section Scans

variable {e : Env Id} {t : Trigger}

theorem asks_omitted (n : ℤ) :
    Asks (0 ≤ ·) (e.omitted t n) (0 ≤ n) ((noting e).omitted t n) := Lib.asks_ask n _

/-- The first AFTER loop asks about the day before the first one where all the days before the start
are omitted. -/
theorem backUpStart_asks {k : ℕ} {start : ℤ} (hs : 0 ≤ start) :
    Asks (0 ≤ ·) (backUpStart e t k start)
      (¬ (start < k ∧ ∀ d, 0 ≤ d → d < start → e.omitted t d = .ok true))
      (backUpStart (noting e) t k start) := by
  induction k generalizing start with
  | zero => exact (Asks.of_pure _).congr (iff_of_true trivial (by omega))
  | succ k ih =>
    unfold backUpStart
    refine ((asks_omitted (start - 1)).of_bind (Q := 0 ≤ start - 1 →
      e.omitted t (start - 1) = .ok true →
      ¬ (start - 1 < k ∧ ∀ d, 0 ≤ d → d < start - 1 → e.omitted t d = .ok true)) ?_).congr ?_
    · rcases e.omitted t (start - 1) with r | omitted
      · exact (Asks.of_pure _).congr (iff_of_true trivial fun _ h => by cases h)
      · cases omitted with
        | false => exact (Asks.of_pure _).congr (iff_of_true trivial fun _ h => by cases h)
        | true =>
          change Asks _
            (if start - 1 < 0 then .error .cantTrig else backUpStart e t k (start - 1)) _
            (if start - 1 < 0 then pure (.error .cantTrig) else
              backUpStart (noting e) t k (start - 1))
          by_cases hneg : start - 1 < 0
          · rw [if_pos hneg, if_pos hneg]
            exact (Asks.of_pure _).congr (iff_of_true trivial fun h => by omega)
          · rw [if_neg hneg, if_neg hneg]
            exact (ih (by omega)).congr ⟨fun h _ _ => h, fun h => h (by omega) rfl⟩
    · constructor
      · rintro ⟨h0, hrest⟩ ⟨hk, hall⟩
        exact hrest h0 (hall _ h0 (by omega)) ⟨by omega, fun d h1 h2 => hall d h1 (by omega)⟩
      · intro h
        by_cases h0 : 0 ≤ start - 1
        · refine ⟨h0, fun _ hom hrest => h ⟨by omega, fun d h1 h2 => ?_⟩⟩
          by_cases hd : d = start - 1
          · rw [hd, hom]
          · exact hrest.2 d h1 (by omega)
        · exact (h ⟨by omega, fun d h1 h2 => by omega⟩).elim

/-- Going back for `mod` free days passes the first date: in `k` rounds, with too few days free. -/
def BackPasses (e : Env Id) (t : Trigger) (k : ℕ) (mod s : ℤ) : Prop :=
  0 < k ∧ s < k ∧ (∀ d, 0 ≤ d → d < s → ∃ b, e.omitted t d = .ok b) ∧
    Lib.freeIn (e.om t) 0 s < mod

theorem backPasses_step {k : ℕ} {mod s : ℤ} (hmod : 0 < mod) :
    ¬ BackPasses e t (k + 1) mod s ↔ 0 ≤ s - 1 ∧ ∀ b, e.omitted t (s - 1) = .ok b →
      ¬ BackPasses e t k (if b then mod else mod - 1) (s - 1) := by
  unfold BackPasses
  by_cases h0 : 0 ≤ s - 1
  · rw [and_iff_right h0, not_iff_comm, not_forall]
    have hfree := Lib.freeIn_pred (p := e.om t) (x := 0) (b := s) (by omega)
    constructor
    · rintro ⟨b, hb⟩
      rw [Classical.not_imp, not_not] at hb
      obtain ⟨hom, hk, hsk, hall, hlt⟩ := hb
      rw [Env.om_of_ok hom] at hfree
      refine ⟨by omega, by push_cast; omega, fun d h1 h2 => ?_, ?_⟩
      · by_cases hd : d = s - 1
        · exact ⟨b, by rw [hd, hom]⟩
        · exact hall d h1 (by omega)
      · cases b <;> simp only [Bool.false_eq_true, if_true, if_false] at hfree hlt <;> omega
    · rintro ⟨-, hsk, hall, hlt⟩
      obtain ⟨b, hom⟩ := hall (s - 1) h0 (by omega)
      rw [Env.om_of_ok hom] at hfree
      refine ⟨b, Classical.not_imp.mpr ⟨hom, not_not.mpr ⟨by omega, by omega,
        fun d h1 h2 => hall d h1 (by omega), ?_⟩⟩⟩
      cases b <;> simp only [Bool.false_eq_true, if_true, if_false] at hfree ⊢ <;> omega
  · refine iff_of_false (not_not.mpr ⟨by omega, by push_cast; omega, fun d h1 h2 => by omega, ?_⟩)
      fun h => h0 h.1
    unfold Lib.freeIn
    rw [show (s - 0).toNat = 0 by omega, Nat.count_zero]
    exact hmod

theorem backLoop_asks {k : ℕ} {mod s : ℤ} (hmod : 0 ≤ mod) :
    Asks (0 ≤ ·) (backLoop e t k mod s) (¬ BackPasses e t k mod s)
      (backLoop (noting e) t k mod s) := by
  induction k generalizing mod s with
  | zero => exact (Asks.of_pure _).congr (iff_of_true trivial fun h => absurd h.1 (by omega))
  | succ k ih =>
    unfold backLoop
    by_cases h0 : mod = 0
    · rw [if_pos h0, if_pos h0]
      refine (Asks.of_pure _).congr (iff_of_true trivial fun h => ?_)
      have := h.2.2.2
      omega
    · rw [if_neg h0, if_neg h0]
      refine ((asks_omitted (s - 1)).of_bind (Q := ∀ b, e.omitted t (s - 1) = .ok b →
        ¬ BackPasses e t k (if b then mod else mod - 1) (s - 1)) ?_).congr
        (backPasses_step (by omega)).symm
      rcases e.omitted t (s - 1) with r | omitted
      · exact (Asks.of_pure _).congr (iff_of_true trivial fun _ h => by cases h)
      · have hrest : 0 ≤ if omitted then mod else mod - 1 := by split_ifs <;> omega
        refine (ih hrest).congr ?_
        exact ⟨fun h b hb => by cases hb; exact h, fun h => h omitted rfl⟩

/-- Where BACK asks about dates only, it stops at one. -/
theorem backLoop_nonneg {k : ℕ} {mod s x : ℤ} (hs : 0 ≤ s) (hmod : 0 ≤ mod)
    (hpass : ¬ BackPasses e t k mod s) (h : backLoop e t k mod s = .ok x) : 0 ≤ x := by
  induction k generalizing mod s with
  | zero => cases h
  | succ k ih =>
    unfold backLoop at h
    by_cases h0 : mod = 0
    · rw [if_pos h0] at h
      split_ifs at h
      cases h
      exact hs
    · rw [if_neg h0] at h
      rw [backPasses_step (by omega)] at hpass
      rcases ho : e.omitted t (s - 1) with r | b
      · simp [ho, bind, pure] at h
      · simp only [ho, bind] at h
        exact ih hpass.1 (by split_ifs <;> omega) (hpass.2 b ho) h

/-- The BEFORE loop asks about the date given and, having checked them, about those before it. -/
theorem beforeLoop_asks {k : ℕ} {s : ℤ} :
    Asks (0 ≤ ·) (beforeLoop e t k s) (0 < k → 0 ≤ s) (beforeLoop (noting e) t k s) := by
  induction k generalizing s with
  | zero => exact (Asks.of_pure _).congr (iff_of_true trivial (by omega))
  | succ k ih =>
    unfold beforeLoop
    refine ((asks_omitted s).of_bind (Q := True) ?_).congr (by simp)
    rcases e.omitted t s with r | omitted
    · exact .of_pure _
    · cases omitted with
      | false => exact .of_pure _
      | true =>
        change Asks _ (if s - 1 < 0 then (.error .cantTrig : Except ErrCode ℤ)
          else beforeLoop e t k (s - 1)) _
          (if s - 1 < 0 then pure (.error .cantTrig) else beforeLoop (noting e) t k (s - 1))
        by_cases hneg : s - 1 < 0
        · rw [if_pos hneg, if_pos hneg]
          exact .of_pure _
        · rw [if_neg hneg, if_neg hneg]
          exact ih.congr (iff_true_intro (by omega))

/-- The second AFTER loop asks about the date given and about those behind it. -/
theorem afterLoop_asks {k : ℕ} {s : ℤ} :
    Asks (0 ≤ ·) (afterLoop e t k s) (0 < k → 0 ≤ s) (afterLoop (noting e) t k s) := by
  induction k generalizing s with
  | zero => exact (Asks.of_pure _).congr (iff_of_true trivial (by omega))
  | succ k ih =>
    unfold afterLoop
    refine ((asks_omitted s).of_bind
      (Q := e.omitted t s = .ok true → 0 < k → 0 ≤ s + 1) ?_).congr ?_
    · rcases e.omitted t s with r | omitted
      · exact (Asks.of_pure _).congr (iff_of_true trivial fun h => by cases h)
      · cases omitted with
        | false => exact (Asks.of_pure _).congr (iff_of_true trivial fun h => by cases h)
        | true => exact (ih (s := s + 1)).congr ⟨fun h _ => h, fun h => h rfl⟩
    · exact ⟨fun h _ => h.1, fun h => ⟨h (by omega), fun _ _ => by have := h (by omega); omega⟩⟩

end Scans

section Look

variable {e : Env Id} {t : Trigger}

theorem applyBack_asks (s : ℤ) :
    Asks (0 ≤ ·) (applyBack e t s)
      (¬ BackPasses e t (max e.maxSatIter (2 * t.back).toNat + 1) t.back s)
      (applyBack (noting e) t s) := by
  have hnot : t.back ≤ 0 → ¬ BackPasses e t (max e.maxSatIter (2 * t.back).toNat + 1) t.back s :=
    fun h hpass => by
      have := hpass.2.2.2
      omega
  unfold applyBack
  by_cases hneg : t.back < 0
  · rw [if_pos hneg, if_pos hneg]
    exact (Asks.of_pure _).congr (iff_of_true trivial (hnot hneg.le))
  · rw [if_neg hneg, if_neg hneg]
    by_cases h0 : t.back = 0
    · rw [if_pos h0, if_pos h0]
      exact (Asks.of_pure _).congr (iff_of_true trivial (hnot h0.le))
    · rw [if_neg h0, if_neg h0]
      exact backLoop_asks (by omega)

theorem applySkip_asks (s : ℤ) :
    Asks (0 ≤ ·) (applySkip e t s) (t.skip = .before ∨ t.skip = .after → 0 ≤ s)
      (applySkip (noting e) t s) := by
  unfold applySkip
  rcases t.skip with _ | _ | _ | _
  · exact (Asks.of_pure _).congr (iff_of_true trivial (by simp))
  · exact (Asks.of_pure _).congr (iff_of_true trivial (by simp))
  · exact beforeLoop_asks.congr (by simp)
  · exact afterLoop_asks.congr (by simp)

/-- What follows `NextSimpleTrig` leaves the dates: BACK passes the first date, or `--n` goes beyond
it, with no repeat that comes back, so that the skip rule asks about a date there or returns one. -/
def MovesOut (e : Env Id) (t : Trigger) (s : ℤ) : Prop :=
  BackPasses e t (max e.maxSatIter (2 * t.back).toNat + 1) t.back s ∨
  t.back < 0 ∧ t.rep = 0 ∧ s + t.back < 0 ∧
    (t.skip = .before ∨ t.skip = .after ∨
      s + t.back ≠ -1 ∧ pastUntil t.untilDate (s + t.back) = false)

/-- A repeat comes back to the start. -/
theorem applyRep_nonneg {start b : ℤ} (hrep : 0 ≤ t.rep) (hs : 0 ≤ start) (h : 0 ≤ b ∨ t.rep ≠ 0) :
    0 ≤ applyRep t start b := by
  by_cases hb : 0 ≤ b
  · obtain ⟨k, -, hk⟩ := applyRep_eq hrep start b
    rw [hk]
    exact Int.add_nonneg hb (Int.mul_nonneg (Int.natCast_nonneg k) hrep)
  · have hrep0 : t.rep ≠ 0 := h.resolve_left hb
    unfold applyRep
    rw [if_pos ⟨hrep0, by omega⟩]
    have hdiv := Int.mul_tdiv_add_tmod (start - b) t.rep
    have hmod := Int.tmod_lt_of_pos (start - b) (lt_of_le_of_ne hrep (Ne.symm hrep0))
    rw [mul_comm] at hdiv
    dsimp only
    split_ifs <;> omega

/-- Where BACK stays with the dates, so does the repeat, but for `--n` beyond the first date. -/
theorem applyBack_cases {s start b : ℤ} (hs : 0 ≤ s) (hstart : 0 ≤ start) (hrep : 0 ≤ t.rep)
    (hpass : ¬ BackPasses e t (max e.maxSatIter (2 * t.back).toNat + 1) t.back s)
    (h : applyBack e t s = .ok b) :
    0 ≤ applyRep t start b ∨
      t.back < 0 ∧ t.rep = 0 ∧ s + t.back < 0 ∧ applyRep t start b = s + t.back := by
  unfold applyBack at h
  split_ifs at h with hneg h0
  · cases h
    by_cases hb : 0 ≤ s + t.back ∨ t.rep ≠ 0
    · exact .inl (applyRep_nonneg hrep hstart hb)
    · rw [not_or, not_not] at hb
      refine .inr ⟨hneg, hb.2, by omega, ?_⟩
      rw [applyRep, if_neg fun h => h.1 hb.2]
  · cases h
    exact .inl (applyRep_nonneg hrep hstart (.inl hs))
  · exact .inl (applyRep_nonneg hrep hstart (.inl (backLoop_nonneg hs (by omega) hpass h)))

theorem moveDate_asks {start s : ℤ} :
    Asks (0 ≤ ·) (moveDate e t start s)
      (¬ BackPasses e t (max e.maxSatIter (2 * t.back).toNat + 1) t.back s ∧
        ∀ b, applyBack e t s = .ok b → t.skip = .before ∨ t.skip = .after → 0 ≤ applyRep t start b)
      (moveDate (noting e) t start s) := by
  unfold moveDate
  refine (applyBack_asks s).of_bind ?_
  rcases applyBack e t s with r | b
  · exact (Asks.of_pure _).congr (iff_of_true trivial fun _ h => nomatch h)
  · exact (applySkip_asks (applyRep t start b)).congr
      ⟨fun h c hc => by cases hc; exact h, fun h => h b rfl⟩

/-- The law for a simple date. -/
theorem moveDate_law {start s : ℤ} (hs : 0 ≤ s) (hstart : 0 ≤ start) (hrep : 0 ≤ t.rep) :
    ((¬ BackPasses e t (max e.maxSatIter (2 * t.back).toNat + 1) t.back s ∧
        ∀ b, applyBack e t s = .ok b → t.skip = .before ∨ t.skip = .after →
          0 ≤ applyRep t start b) ∧
      ∀ x, moveDate e t start s = .ok x → pastUntil t.untilDate x = false → x = -1 ∨ 0 ≤ x) ↔
    ¬ MovesOut e t s := by
  constructor
  · rintro ⟨⟨hpass, hskip⟩, hval⟩ (hout | ⟨hneg, hrep0, hlt, hout⟩)
    · exact hpass hout
    · have hback : applyBack e t s = .ok (s + t.back) := by
        unfold applyBack
        rw [if_pos hneg]
        rfl
      have hrepeat : applyRep t start (s + t.back) = s + t.back := by
        rw [applyRep, if_neg fun h => h.1 hrep0]
      have hno : ¬ (t.skip = .before ∨ t.skip = .after) := fun h => by
        have := hskip _ hback h
        omega
      obtain ⟨hne, hpast⟩ := (hout.resolve_left fun h => hno (.inl h)).resolve_left
        fun h => hno (.inr h)
      have hmove : moveDate e t start s = .ok (s + t.back) := by
        unfold moveDate
        simp only [hback, bind, hrepeat]
        unfold applySkip
        rcases hsk : t.skip with _ | _ | _ | _
        · rfl
        · rfl
        · exact (hno (.inl hsk)).elim
        · exact (hno (.inr hsk)).elim
      have := hval _ hmove hpast
      omega
  · intro hout
    unfold MovesOut at hout
    rw [not_or] at hout
    obtain ⟨hpass, hout⟩ := hout
    refine ⟨⟨hpass, fun b hb hskip => ?_⟩, fun x hx hpast => ?_⟩
    · rcases applyBack_cases hs hstart hrep hpass hb with h | ⟨h1, h2, h3, -⟩
      · exact h
      · exact (hout ⟨h1, h2, h3, hskip.imp_right .inl⟩).elim
    · unfold moveDate at hx
      rcases hb : applyBack e t s with r | b
      · simp [hb, bind, pure] at hx
      · simp only [hb, bind] at hx
        obtain ⟨hmoved, -, hnonneg⟩ := applySkip_ok hx
        rcases applyBack_cases hs hstart hrep hpass hb with h | ⟨h1, h2, h3, heq⟩
        · exact .inr (hnonneg h)
        · have hno : ¬ (t.skip = .before ∨ t.skip = .after) := fun h =>
            hout ⟨h1, h2, h3, h.imp_right .inl⟩
          have hx' : x = s + t.back := by
            rw [← heq]
            unfold Moved at hmoved
            rcases hsk : t.skip with _ | _ | _ | _ <;> simp only [hsk] at hmoved
            · exact hmoved
            · exact hmoved
            · exact (hno (.inl hsk)).elim
            · exact (hno (.inr hsk)).elim
          by_contra hx1
          rw [not_or] at hx1
          exact hout ⟨h1, h2, h3, .inr (.inr ⟨by omega, by rw [← hx']; exact hpast⟩)⟩

/-- The law for what is noted and returned. -/
def LawOf (P : Prop) (v : Except ErrCode (ℤ × ℤ)) : Prop :=
  P ∧ ∀ d ns, v = .ok (d, ns) → d = -1 ∨ 0 ≤ d

theorem lookFrom_law {start : ℤ} (hs : 0 ≤ start) (ht : t.Parsed) (ns : ℤ) :
    ∃ P, Asks (0 ≤ ·) (lookFrom e t ns start) P (lookFrom (noting e) t ns start) ∧
      (LawOf P (lookFrom e t ns start) ↔
        ∀ s, nextSimpleTrig start t = some (.ok s) → s ≠ -1 → ¬ MovesOut e t s) := by
  unfold lookFrom LawOf
  rcases hj : nextSimpleTrig start t with _ | r | s
  · exact ⟨True, .of_pure _, iff_of_true ⟨trivial, fun _ _ h => nomatch h⟩ fun _ h => nomatch h⟩
  · exact ⟨True, .of_pure _, iff_of_true ⟨trivial, fun _ _ h => nomatch h⟩ fun _ h => nomatch h⟩
  · by_cases hneg : s = -1
    · simp only [if_pos hneg]
      refine ⟨True, .of_pure _, iff_of_true ⟨trivial, fun d ns' h => ?_⟩ fun s' h hs' => ?_⟩
      · cases h
        exact .inl rfl
      · cases h
        exact (hs' hneg).elim
    · simp only [if_neg hneg]
      have h0 : 0 ≤ s := simpleDates_nonneg
        ((nextSimpleTrig_nextAnswer hs ht.toInRange hj).mem hneg)
      refine ⟨_, (moveDate_asks.of_bind (Q := True) ?_).congr (iff_of_eq (and_true _)), ?_⟩
      · rcases moveDate e t start s with r | x <;> exact .of_pure _
      · refine Iff.trans (and_congr_right fun _ => ?_) ((moveDate_law h0 hs ht.rep).trans ?_)
        · constructor
          · intro hval x hx hpast
            have := hval x (s + 1) (by simp [hx, hpast, bind, pure])
            exact this
          · intro hval d ns' h
            rcases hm : moveDate e t start s with r | x
            · simp [hm, bind, pure] at h
            · simp only [hm, bind] at h
              cases h
              by_cases hpast : pastUntil t.untilDate x = true
              · exact .inl (if_pos hpast)
              · rw [if_neg hpast]
                exact hval x hm (by simpa using hpast)
        · exact ⟨fun h s' hs' _ => by cases hs'; exact h, fun h => h s rfl hneg⟩

/-- The start of an AFTER search: the first of the omitted days before the start, where there are
fewer of them than the loop goes through. -/
def SearchStart (e : Env Id) (t : Trigger) (start s : ℤ) : Prop :=
  if t.skip = .after then
    0 ≤ s ∧ s ≤ start ∧ start - s < e.maxSatIter ∧ e.omitted t (s - 1) = .ok false ∧
      ∀ d, s ≤ d → d < start → e.omitted t d = .ok true
  else s = start

theorem backUpStart_eq_ok_iff {k : ℕ} {start s : ℤ} (hs : 0 ≤ start) :
    backUpStart e t k start = .ok s ↔ 0 ≤ s ∧ s ≤ start ∧ start - s + 1 < k ∧
      e.omitted t (s - 1) = .ok false ∧ ∀ d, s ≤ d → d < start → e.omitted t d = .ok true := by
  induction k generalizing start with
  | zero => exact iff_of_false (fun h => by cases h) fun h => by omega
  | succ k ih =>
    unfold backUpStart
    rcases ho : e.omitted t (start - 1) with r | omitted
    · refine iff_of_false (by simp [bind, pure]) ?_
      rintro ⟨-, hle, -, hfree, hall⟩
      rcases hle.eq_or_lt with rfl | hlt
      · cases ho.symm.trans hfree
      · cases ho.symm.trans (hall (start - 1) (by omega) (by omega))
    · cases omitted with
      | false =>
        simp only [bind, pure, Bool.not_false, if_true]
        constructor
        · intro h
          split_ifs at h with hk
          cases h
          exact ⟨hs, le_rfl, by push_cast; omega, ho, fun d h1 h2 => by omega⟩
        · rintro ⟨-, hle, hk, -, hall⟩
          rcases hle.eq_or_lt with rfl | hlt
          · rw [if_neg (by push_cast at hk; omega)]
          · cases ho.symm.trans (hall (start - 1) (by omega) (by omega))
      | true =>
        simp only [bind, pure, Bool.not_true, Bool.false_eq_true, if_false]
        have hne : e.omitted t (s - 1) = .ok false → s ≠ start := by
          rintro hfree rfl
          cases ho.symm.trans hfree
        by_cases hneg : start - 1 < 0
        · rw [if_pos hneg]
          refine iff_of_false (fun h => by cases h) fun h => hne h.2.2.2.1 (by omega)
        · rw [if_neg hneg, ih (by omega)]
          push_cast
          constructor
          · rintro ⟨h0, hle, hk, hfree, hall⟩
            refine ⟨h0, by omega, by omega, hfree, fun d h1 h2 => ?_⟩
            by_cases hd : d = start - 1
            · rw [hd, ho]
            · exact hall d h1 (by omega)
          · rintro ⟨h0, hle, hk, hfree, hall⟩
            have := hne hfree
            exact ⟨h0, by omega, by omega, hfree, fun d h1 h2 => hall d h1 (by omega)⟩

/-- `GetNextTriggerDate` gives up before it looks for a date. -/
def Expired (e : Env Id) (t : Trigger) (start : ℤ) : Prop :=
  t.isTodo = false ∧ pastUntil t.untilDate start = true ∨
    e.calmode = false ∧ t.isTodo = true ∧ ∃ c, t.completeThrough = some c ∧ start ≤ c

/-- The look for a date leaves the dates: an AFTER search goes back through days all of them omitted
to the one before the first, or the next simple date is moved out. -/
def GoesOut (e : Env Id) (t : Trigger) (start : ℤ) : Prop :=
  (t.skip = .after ∧ start ≤ e.maxSatIter ∧
    ∀ d, 0 ≤ d → d < start → e.omitted t d = .ok true) ∨
  ∃ s j, SearchStart e t start s ∧ nextSimpleTrig s t = some (.ok j) ∧ j ≠ -1 ∧ MovesOut e t j

theorem law_of_asks {P : Prop} {start ns : ℤ} {v : Except ErrCode (ℤ × ℤ)}
    (h : Asks (0 ≤ ·) v P (getNextTriggerDate (noting e) t start ns)) :
    QueriesInRange e t start ns ↔ LawOf P v := by
  obtain ⟨hval, hasked⟩ := h.run
  unfold QueriesInRange LawOf
  dsimp only
  rw [hval, hasked]

theorem LawOf.pure_none (ns : ℤ) : LawOf True (.ok (-1, ns)) :=
  ⟨trivial, fun d ns' h => .inl (by cases h; rfl)⟩

/-- The AFTER search, once the trigger has not expired. -/
theorem afterSearch_law {start : ℤ} (hs : 0 ≤ start) (ht : t.Parsed) (ha : t.skip = .after)
    (ns : ℤ) :
    ∃ v P, Asks (0 ≤ ·) v P ((do
        match ← backUpStart (noting e) t (e.maxSatIter + 1) start with
        | .error r => pure (.error r)
        | .ok start => lookFrom (noting e) t ns start) :
          StateM (List ℤ) (Except ErrCode (ℤ × ℤ))) ∧
      (LawOf P v ↔ ¬ GoesOut e t start) := by
  have hback := backUpStart_asks (e := e) (t := t) (k := e.maxSatIter + 1) hs
  have hout : (start < ↑(e.maxSatIter + 1) ∧ ∀ d, 0 ≤ d → d < start → e.omitted t d = .ok true) ↔
      t.skip = .after ∧ start ≤ e.maxSatIter ∧
        ∀ d, 0 ≤ d → d < start → e.omitted t d = .ok true := by
    rw [and_iff_right ha]
    exact and_congr_left fun _ => by omega
  rw [hout] at hback
  have hstart : ∀ s, SearchStart e t start s ↔
      backUpStart e t (e.maxSatIter + 1) start = .ok s := fun s => by
    unfold SearchStart
    rw [if_pos ha, backUpStart_eq_ok_iff hs]
    push_cast
    simp only [add_lt_add_iff_right]
  unfold GoesOut
  rw [not_or]
  rcases hb : backUpStart e t (e.maxSatIter + 1) start with r | s
  · rw [hb] at hback
    refine ⟨.error r, _, (hback.of_bind (Q := True) ?_).congr (iff_of_eq (and_true _)), ?_⟩
    · exact .of_pure _
    refine and_congr_right fun _ => iff_of_true (fun _ _ h => nomatch h) ?_
    rintro ⟨s, j, hss, -⟩
    exact nomatch hb.symm.trans ((hstart s).mp hss)
  · rw [hb] at hback
    obtain ⟨P, hlook, hlaw⟩ := lookFrom_law ((backUpStart_eq_ok_iff hs).mp hb).1 ht ns
    refine ⟨lookFrom e t ns s, _, hback.of_bind hlook, ?_⟩
    rw [LawOf, and_assoc]
    refine and_congr_right fun _ => hlaw.trans ?_
    constructor
    · rintro h ⟨s', j, hss, hj, hne, hmoves⟩
      cases hb.symm.trans ((hstart s').mp hss)
      exact h j hj hne hmoves
    · intro h j hj hne hmoves
      exact h ⟨s, j, (hstart s).mpr hb, hj, hne, hmoves⟩

end Look

/-! ### Lines that go out of the dates -/

/-- The start of the search for the date of a line on `today`, the dates asked about, and the date
found. -/
def queriesOfLine (line : String) (today : ℤ) :
    Option (ℤ × List ℤ × Option ℤ) :=
  match parseRem plainConfig 60 (atStart line) with
  | .ok p _ =>
    let start := getScanfrom false today p.trig
    let e := noting (contextEnv {} (fun _ => none) 1000 false)
    let r := getNextTriggerDate e p.trig start 0 []
    some (start, r.2, r.1.toOption.map Prod.fst)
  | .error _ _ => none

theorem queriesOfLine_some {line : String} {today start : ℤ} {asked : List ℤ} {d : Option ℤ}
    (h : queriesOfLine line today = some (start, asked, d)) :
    ∃ p s', parseRem plainConfig 60 (atStart line) = .ok p s' ∧
      getScanfrom false today p.trig = start ∧
      (QueriesInRange (contextEnv {} (fun _ => none) 1000 false) p.trig start 0 →
        (∀ n ∈ asked, 0 ≤ n) ∧ ∀ n, d = some n → n = -1 ∨ 0 ≤ n) := by
  unfold queriesOfLine at h
  cases hp : parseRem plainConfig 60 (atStart line) with
  | error e s => simp [hp] at h
  | ok p s' =>
    simp only [hp, Option.some.injEq, Prod.mk.injEq] at h
    obtain ⟨hstart, hasked, hd⟩ := h
    refine ⟨p, s', rfl, hstart, fun ⟨hq, hr⟩ => ⟨?_, fun n hn => ?_⟩⟩
    · rw [← hasked, hstart]
      exact hq
    · rw [hstart, hn] at hd
      rcases hget : (getNextTriggerDate (noting (contextEnv {} (fun _ => none) 1000 false)) p.trig
        start 0 []).1 with r | ⟨x, ns⟩
      · rw [hget] at hd
        cases hd
      · rw [hget] at hd
        cases hd
        exact hr x ns hget

end Remind
