import Mathlib.Data.Nat.Count
import Remind.OmitStore

/-!
# OmitLimit — the capacity of the omit list (omit.c: `DoOmit`, `AddGlobalOmit`)

A range of full dates is inserted date by date, and the array may run full before its end: what has
been inserted stays.  `AddGlobalOmit` looks at the capacity before it looks for the date.
-/

namespace Remind

/-- The dates from `tmp` on, `n` of them, that are not in the array. -/
def newDates (a : List ℤ) (tmp : ℤ) (n : ℕ) : ℕ := Nat.count (fun i : ℕ => tmp + i ∉ a) n

section Array

variable {a : List ℤ} {tmp : ℤ} {n : ℕ}

theorem newDates_succ (a : List ℤ) (tmp : ℤ) (n : ℕ) :
    newDates a tmp (n + 1) = newDates a (tmp + 1) n + if tmp ∈ a then 0 else 1 := by
  have hshift : (fun i : ℕ => tmp + ((i + 1 : ℕ) : ℤ) ∉ a) =
      fun i : ℕ => tmp + 1 + (i : ℤ) ∉ a := by
    funext i
    rw [show tmp + ((i + 1 : ℕ) : ℤ) = tmp + 1 + i by push_cast; omega]
  unfold newDates
  rw [Nat.count_succ']
  simp only [hshift, Nat.cast_zero, add_zero, ite_not]

/-- The dates behind `tmp` are as new as before when `tmp` is inserted. -/
theorem newDates_insertKey (a : List ℤ) (tmp : ℤ) (n : ℕ) :
    newDates (Lib.insertKey a tmp) (tmp + 1) n = newDates a (tmp + 1) n := by
  have hsame : (fun i : ℕ => tmp + 1 + (i : ℤ) ∉ Lib.insertKey a tmp) =
      fun i : ℕ => tmp + 1 + (i : ℤ) ∉ a := by
    funext i
    rw [Lib.mem_insertKey, show (tmp + 1 + (i : ℤ) = tmp) = False by simp; omega, false_or]
  unfold newDates
  simp only [hsame]

/-- The loop stores the whole range if there is room for it; else it fills the array, and fails. -/
theorem addFull_room (ha : a.Pairwise (· < ·)) (hlen : a.length ≤ maxFullOmits) :
    (a.length + newDates a tmp n ≤ maxFullOmits → (addFull n tmp a).2 = none) ∧
      (maxFullOmits < a.length + newDates a tmp n →
        (addFull n tmp a).2 = some .tooManyFull ∧ (addFull n tmp a).1.length = maxFullOmits) := by
  induction n generalizing tmp a with
  | zero => exact ⟨fun _ => rfl, fun h => absurd h (by simp [newDates]; omega)⟩
  | succ n ih =>
    rw [newDates_succ]
    unfold addFull
    by_cases hmem : tmp ∈ a
    · rw [if_pos ((Lib.bsearch_iff ha).mpr hmem), if_pos hmem, add_zero]
      exact ih ha hlen
    · rw [if_neg (mt (Lib.bsearch_iff ha).mp hmem), if_neg hmem]
      by_cases hfull : a.length ≥ maxFullOmits
      · rw [if_pos hfull]
        exact ⟨fun h => by omega, fun _ => ⟨rfl, by dsimp only; omega⟩⟩
      · rw [if_neg hfull]
        have hrest := @ih (Lib.insertKey a tmp) (tmp + 1) (Lib.insertKey_pairwise ha hmem)
          (by rw [Lib.length_insertKey]; omega)
        rw [newDates_insertKey, Lib.length_insertKey] at hrest
        rw [← add_assoc, add_right_comm]
        exact hrest

/-- Nothing is stored in a full array. -/
theorem addFull_full (hlen : a.length = maxFullOmits) : (addFull n tmp a).1 = a := by
  induction n generalizing tmp with
  | zero => rfl
  | succ n ih =>
    unfold addFull
    split_ifs
    · exact ih
    · rfl
    · omega

end Array

/-! ### What a line does -/

/-- The line runs the array full: it omits a range of full dates more of which are new than there is
room for, and there is room for some. -/
def RunsFull (c : OmitContext) (line : Line) : Prop :=
  ∃ l asRem y0 m0 d0 y1 m1 d1, parseOmit true {} line = .ok (some (l, asRem)) ∧ l.wd = 0 ∧
    l.range = .ok (.full y0 m0 d0 y1 m1 d1) ∧ d0 ≤ daysInMonth m0 y0 ∧ d1 ≤ daysInMonth m1 y1 ∧
    dse y0 m0 d0 ≤ dse y1 m1 d1 ∧ c.full.length < maxFullOmits ∧
    maxFullOmits < c.full.length +
      newDates c.full (dse y0 m0 d0) (dse y1 m1 d1 - dse y0 m0 d0 + 1).toNat

/-- The command has not been done; with `E_PARSE_AS_REM` it has, and its line is read once more. -/
def Failed (r : Option ErrCode) : Prop := r ≠ none ∧ r ≠ some .parseAsRem

instance (r : Option ErrCode) : Decidable (Failed r) := inferInstanceAs (Decidable (_ ∧ _))

section Line

variable {c : OmitContext} {line : Line} {l : OmitLine} {asRem : Bool} {n : ℤ}

theorem doOmit_parsed (hp : parseOmit true {} line = .ok (some (l, asRem))) :
    (doOmit c line).1 = (applyOmit c l).1 ∧
      (Failed (doOmit c line).2 ↔ Failed (applyOmit c l).2) := by
  have hne := applyOmit_ne_parseAsRem c l
  unfold doOmit
  simp only [hp]
  rcases happ : applyOmit c l with ⟨c', _ | r⟩
  · rw [happ] at hne
    cases asRem <;> exact ⟨rfl, by simp [Failed]⟩
  · exact ⟨rfl, Iff.rfl⟩

/-- A failed line has changed nothing, unless it is a range of full dates that is stored in part. -/
theorem applyOmit_failed (hc : c.WF) (hfail : Failed (applyOmit c l).2) :
    (applyOmit c l).1 = c ∨ ∃ y0 m0 d0 y1 m1 d1, l.wd = 0 ∧
      l.range = .ok (.full y0 m0 d0 y1 m1 d1) ∧ d0 ≤ daysInMonth m0 y0 ∧
      d1 ≤ daysInMonth m1 y1 ∧ dse y0 m0 d0 ≤ dse y1 m1 d1 ∧ c.full.length < maxFullOmits ∧
      maxFullOmits < c.full.length +
        newDates c.full (dse y0 m0 d0) (dse y1 m1 d1 - dse y0 m0 d0 + 1).toNat := by
  unfold applyOmit at hfail ⊢
  by_cases hwd : l.wd ≠ 0
  · rw [if_pos hwd] at hfail ⊢
    split_ifs at hfail ⊢
    · exact Or.inl rfl
    · exact Or.inl rfl
    · exact absurd rfl hfail.1
  rw [if_neg hwd] at hfail ⊢
  rcases hr : l.range with r | ⟨m0, d0, m1, d1⟩ | ⟨y0, m0, d0, y1, m1, d1⟩
  · exact Or.inl rfl
  · rw [hr] at hfail
    simp only at hfail ⊢
    split_ifs at hfail ⊢
    · exact Or.inl rfl
    · exact Or.inl rfl
    · rcases hp : addPartial c.part m0 d0 m1 d1 with _ | part
      · exact Or.inl rfl
      · rw [hp] at hfail
        exact absurd rfl hfail.1
  · rw [hr] at hfail
    simp only at hfail ⊢
    split_ifs at hfail ⊢ with h0 h1 hle
    · exact Or.inl rfl
    · exact Or.inl rfl
    · exact Or.inl rfl
    obtain ⟨hroom, -⟩ := @addFull_room _ (dse y0 m0 d0) (dse y1 m1 d1 - dse y0 m0 d0 + 1).toNat
      hc.fullIncr hc.fullLen
    rcases hc.fullLen.eq_or_lt with hfull | hfull
    · left
      simp only [addFull_full hfull]
    · refine Or.inr ⟨y0, m0, d0, y1, m1, d1, not_not.mp hwd, rfl, by omega, by omega, by omega,
        hfull, ?_⟩
      by_contra hno
      exact hfail.1 (hroom (by omega))

/-- A range that runs the array full is stored in part, and the line fails. -/
theorem applyOmit_runsFull (hc : c.WF) {y0 m0 d0 y1 m1 d1 : ℤ} (hwd : l.wd = 0)
    (hr : l.range = .ok (.full y0 m0 d0 y1 m1 d1)) (h0 : d0 ≤ daysInMonth m0 y0)
    (h1 : d1 ≤ daysInMonth m1 y1) (hle : dse y0 m0 d0 ≤ dse y1 m1 d1)
    (hmany : maxFullOmits < c.full.length +
      newDates c.full (dse y0 m0 d0) (dse y1 m1 d1 - dse y0 m0 d0 + 1).toNat) :
    (applyOmit c l).2 = some .tooManyFull ∧ (applyOmit c l).1.full.length = maxFullOmits := by
  obtain ⟨-, hover⟩ := @addFull_room _ (dse y0 m0 d0) (dse y1 m1 d1 - dse y0 m0 d0 + 1).toNat
    hc.fullIncr hc.fullLen
  unfold applyOmit
  rw [if_neg (not_not.mpr hwd), hr]
  simp only
  rw [if_neg (by omega), if_neg (by omega), if_neg (by omega)]
  exact hover hmany

/-- A line that fails leaves the context alone, but for a range that runs the array full. -/
theorem doOmit_unchanged_iff (hc : c.WF) (line : Line) :
    (∀ c' r, doOmit c line = (c', some r) → r ≠ .parseAsRem → c' = c) ↔ ¬ RunsFull c line := by
  constructor
  · rintro hsame ⟨l, asRem, y0, m0, d0, y1, m1, d1, hp, hwd, hr, h0, h1, hle, hfull, hmany⟩
    obtain ⟨herr, hlen⟩ := applyOmit_runsFull hc hwd hr h0 h1 hle hmany
    have hdo : doOmit c line = ((applyOmit c l).1, some .tooManyFull) := by
      unfold doOmit
      simp only [hp]
      rcases happ : applyOmit c l with ⟨c', r⟩
      rw [happ] at herr
      cases herr
      rfl
    have hno := hsame _ _ hdo (by simp)
    rw [hno] at hlen
    omega
  · intro hruns c' r hdo hne
    have hfst : (doOmit c line).1 = c' := by rw [hdo]
    have hsnd : Failed (doOmit c line).2 := by
      rw [hdo]
      exact ⟨by simp, by simpa using hne⟩
    rcases hp : parseOmit true {} line with e | _ | ⟨l, asRem⟩
    · unfold doOmit at hfst
      rw [hp] at hfst
      exact hfst.symm
    · unfold doOmit at hfst
      rw [hp] at hfst
      exact hfst.symm
    · obtain ⟨h1, h2⟩ := doOmit_parsed (c := c) hp
      rcases applyOmit_failed hc (h2.mp hsnd) with h | ⟨y0, m0, d0, y1, m1, d1, h⟩
      · rw [← hfst, h1, h]
      · exact absurd ⟨l, asRem, y0, m0, d0, y1, m1, d1, hp, h⟩ hruns

end Line

/-! ### One date -/

/-- The line omits the single full date `n`. -/
def OmitsDate (line : Line) (n : ℤ) : Prop :=
  ∃ l asRem y m d, parseOmit true {} line = .ok (some (l, asRem)) ∧ l.wd = 0 ∧
    l.seenThrough = false ∧ l.fst = ⟨some y, some m, some d⟩ ∧ d ≤ daysInMonth m y ∧
    dse y m d = n

theorem OmitsDate.nonneg {line : Line} {n : ℤ} (h : OmitsDate line n) : 0 ≤ n := by
  obtain ⟨l, asRem, y, m, d, hp, -, -, hfst, -, rfl⟩ := h
  have hl : l.InRange := parseOmit_inRange (l := {}) ⟨⟨by simp, by simp, by simp⟩,
    ⟨by simp, by simp, by simp⟩⟩ hp
  obtain ⟨h0, h11⟩ := hl.fst.mon m (by rw [hfst])
  have hd := (hl.fst.day d (by rw [hfst])).1
  have hy := hl.fst.yr y (by rw [hfst])
  have hpos := monthStart_nonneg (show baseMonth ≤ monthNo y m by unfold baseMonth monthNo; omega)
  rw [dse_eq_monthStart h0 h11]
  omega

/-- `OMIT` of one date looks for it first, and at the capacity only where it is new. -/
theorem applyOmit_date {c : OmitContext} {l : OmitLine} {y m d : ℤ} (hwd : l.wd = 0)
    (hth : l.seenThrough = false) (hfst : l.fst = ⟨some y, some m, some d⟩)
    (hd : d ≤ daysInMonth m y) :
    applyOmit c l = if Lib.bsearch c.full (dse y m d) then (c, none)
      else if c.full.length ≥ maxFullOmits then (c, some .tooManyFull)
      else ({ c with full := Lib.insertKey c.full (dse y m d) }, none) := by
  have hr : l.range = .ok (.full y m d y m d) := by
    unfold OmitLine.range OmitLine.last
    simp only [hth, hfst, Bool.false_eq_true, if_false, Option.getD_some]
  unfold applyOmit
  rw [if_neg (not_not.mpr hwd), hr]
  simp only
  rw [if_neg (by omega), if_neg (lt_irrefl _), if_neg (by omega),
    show (dse y m d - dse y m d + 1).toNat = 0 + 1 by omega]
  unfold addFull
  split_ifs <;> rfl

/-- `OMIT` of one date and `AddGlobalOmit` of it agree on the array, and on the failure but for a
date that a full array has. -/
theorem doOmit_addGlobalOmit {c : OmitContext} (hc : c.WF) {line : Line} {n : ℤ}
    (h : OmitsDate line n) :
    (doOmit c line).1 = (addGlobalOmit c n).1 ∧
      ((Failed (doOmit c line).2 ↔ Failed (addGlobalOmit c n).2) ↔
        ¬ (c.full.length = maxFullOmits ∧ n ∈ c.full)) := by
  have hn := h.nonneg
  have hlen := hc.fullLen
  have hok : ¬ Failed none := fun h => h.1 rfl
  have herr : Failed (some .tooManyFull) := ⟨by simp, by simp⟩
  obtain ⟨l, asRem, y, m, d, hp, hwd, hth, hfst, hd, rfl⟩ := h
  obtain ⟨h1, h2⟩ := doOmit_parsed (c := c) hp
  rw [h1, h2, applyOmit_date hwd hth hfst hd, ← Lib.bsearch_iff hc.fullIncr]
  unfold addGlobalOmit Lib.insertNew
  rw [if_neg (show ¬ dse y m d < 0 by omega)]
  by_cases hfull : c.full.length = maxFullOmits
  · rw [if_pos hfull, if_pos (show c.full.length ≥ maxFullOmits by omega)]
    by_cases hmem : Lib.bsearch c.full (dse y m d) = true
    · rw [if_pos hmem]
      simp only [hfull, hmem, and_self, not_true_eq_false, iff_false, true_and]
      exact fun h => hok (h.mpr herr)
    · rw [if_neg hmem]
      simp [hmem]
  · rw [if_neg hfull, if_neg (show ¬ c.full.length ≥ maxFullOmits by omega)]
    simp only [hfull, false_and, not_false_eq_true, iff_true]
    by_cases hmem : Lib.bsearch c.full (dse y m d) = true
    · rw [if_pos hmem, if_pos hmem]
      exact ⟨rfl, Iff.rfl⟩
    · rw [if_neg hmem, if_neg hmem]
      exact ⟨rfl, Iff.rfl⟩

/-- Exactly the ranges that run the array full are stored by a command that fails, and exactly the
dates that a full array has are refused by `AddGlobalOmit` and taken by `OMIT`. -/
theorem omit_capacity {c : OmitContext} (hc : c.WF) :
    (∀ line, (∀ c' r, doOmit c line = (c', some r) → r ≠ .parseAsRem → c' = c) ↔
        ¬ RunsFull c line) ∧
      (∀ n c' r, addGlobalOmit c n = (c', some r) → c' = c) ∧
      ∀ line n, OmitsDate line n → (doOmit c line).1 = (addGlobalOmit c n).1 ∧
        ((Failed (doOmit c line).2 ↔ Failed (addGlobalOmit c n).2) ↔
          ¬ (c.full.length = maxFullOmits ∧ n ∈ c.full)) := by
  refine ⟨doOmit_unchanged_iff hc, fun n c' r hadd => ?_, fun line n => doOmit_addGlobalOmit hc⟩
  unfold addGlobalOmit at hadd
  split_ifs at hadd <;> cases hadd
  rfl

/-- The first `n` days are omitted. -/
def firstDays (n : ℕ) : OmitContext := { full := (List.range n).map fun i : ℕ => (i : ℤ) }

theorem mem_firstDays {n : ℕ} {x : ℤ} : x ∈ (firstDays n).full ↔ 0 ≤ x ∧ x < n := by
  unfold firstDays
  simp only [List.mem_map, List.mem_range]
  constructor
  · rintro ⟨i, hi, rfl⟩
    omega
  · rintro ⟨h0, hn⟩
    exact ⟨x.toNat, by omega, by omega⟩

theorem firstDays_wf {n : ℕ} (hn : n ≤ maxFullOmits) : (firstDays n).WF where
  fullIncr := by
    unfold firstDays
    rw [List.pairwise_map]
    exact List.pairwise_lt_range.imp fun h => by omega
  fullLen := by simpa [firstDays] using hn
  partIncr := List.Pairwise.nil
  partSyn := by simp [firstDays]
  weekday := by
    unfold firstDays
    simp

/-- `OMIT 2000-01-01 THROUGH 2000-01-02` -/
def twoDays : Line := [.ok (.date 3652), .ok .through, .ok (.date 3653)]

/-- `OMIT 1990-01-01` -/
def firstDay : Line := [.ok (.date 0)]

theorem omit_capacity_999 :
    (firstDays 999).WF ∧ ∀ line n, OmitsDate line n →
      ((Failed (doOmit (firstDays 999) line).2 ↔ Failed (addGlobalOmit (firstDays 999) n).2) ↔
        ¬ ((firstDays 999).full.length = maxFullOmits ∧ n ∈ (firstDays 999).full)) :=
  ⟨firstDays_wf (by decide), fun line n h =>
    ((omit_capacity (firstDays_wf (by decide))).2.2 line n h).2⟩

/-- With room for one date a range of two is stored by half and fails; and with no room at all
`AddGlobalOmit` refuses a date that is there. -/
theorem omit_runs_full : (firstDays 999).WF ∧ (firstDays 1000).WF ∧
    (∃ c', doOmit (firstDays 999) twoDays = (c', some .tooManyFull) ∧ c' ≠ firstDays 999) ∧
    OmitsDate firstDay 0 ∧ ¬ Failed (doOmit (firstDays 1000) firstDay).2 ∧
    Failed (addGlobalOmit (firstDays 1000) 0).2 := by
  have hparse : parseOmit true {} twoDays = .ok (some
      ({ fst := ⟨some 2000, some 0, some 1⟩, snd := ⟨some 2000, some 0, some 2⟩,
         seenThrough := true }, false)) := by decide
  have hday : OmitsDate firstDay 0 :=
    ⟨{ fst := ⟨some 1990, some 0, some 1⟩ }, false, 1990, 0, 1, by decide, rfl, rfl, rfl, by decide,
      by decide⟩
  have h999 : (firstDays 999).full.length = 999 := by simp [firstDays]
  have h1000 : (firstDays 1000).full.length = 1000 := by simp [firstDays]
  have hwf := firstDays_wf (n := 999) (by decide)
  have hwf' := firstDays_wf (n := 1000) (by decide)
  refine ⟨hwf, hwf', ?_, hday, ?_, ?_⟩
  · have hnew : newDates (firstDays 999).full 3652 2 = 2 := by
      rw [newDates_succ, newDates_succ, if_neg (by rw [mem_firstDays]; omega),
        if_neg (by rw [mem_firstDays]; omega)]
      rfl
    obtain ⟨herr, hlen⟩ := applyOmit_runsFull
      (l := { fst := ⟨some 2000, some 0, some 1⟩, snd := ⟨some 2000, some 0, some 2⟩,
              seenThrough := true }) hwf rfl
      (show _ = Except.ok (OmitRange.full 2000 0 1 2000 0 2) by decide) (by decide) (by decide)
      (by decide) (by
        rw [show dse 2000 0 1 = 3652 by decide, show (dse 2000 0 2 - 3652 + 1).toNat = 2 by decide,
          hnew, h999]
        decide)
    refine ⟨(doOmit (firstDays 999) twoDays).1, ?_, fun hsame => ?_⟩
    · unfold doOmit
      simp only [hparse]
      rcases happ : applyOmit (firstDays 999) _ with ⟨c', r⟩
      rw [happ] at herr
      cases herr
      rfl
    · rw [(doOmit_parsed hparse).1] at hsame
      rw [hsame, h999] at hlen
      exact absurd hlen (by decide)
  · have hmem : Lib.bsearch (firstDays 1000).full (dse 1990 0 1) = true :=
      (Lib.bsearch_iff hwf'.fullIncr).mpr (mem_firstDays.mpr (by decide))
    have hparse' : parseOmit true {} firstDay =
        .ok (some ({ fst := ⟨some 1990, some 0, some 1⟩ }, false)) := by decide
    rw [(doOmit_parsed hparse').2,
      applyOmit_date (y := 1990) (m := 0) (d := 1) rfl rfl rfl (by decide), if_pos hmem]
    exact fun hfail => hfail.1 rfl
  · unfold addGlobalOmit
    rw [if_neg (by omega), if_pos (show _ = maxFullOmits from h1000)]
    exact ⟨by simp, by simp⟩

end Remind
