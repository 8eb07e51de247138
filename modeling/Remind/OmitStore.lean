import Remind.Omit
import Remind.CalendarTrig

/-!
# OmitStore — the OMIT context stores what was omitted

Beside the arrays runs an abstract store: the list of the OMITs in force, each with the dates it
covers, and the stack of the lists that PUSH-OMIT-CONTEXT saved.  `Represents` ties an
`OmitContext` to such a list; every command that returns without error keeps it.
-/

namespace Remind

/-! ### What an OMIT covers -/

/-- An OMIT: weekdays, a date or month with or without a year, a THROUGH range, or the trigger
date of an ADDOMIT reminder. -/
inductive Omit where
  | weekdays (wd : WdSet)
  | dates (p : DateParts)
  | range (lo hi : DateParts)
  | added (n : ℤ)

/-- Month and day `a` come no later in the year than month and day `b`. -/
def MdLe (a b : ℤ × ℤ) : Prop := a.1 < b.1 ∨ (a.1 = b.1 ∧ a.2 ≤ b.2)

/-- `x` lies between `lo` and `hi` in the circle of the year. -/
def InCycle (lo hi x : ℤ × ℤ) : Prop :=
  (MdLe lo hi ∧ MdLe lo x ∧ MdLe x hi) ∨ (¬ MdLe lo hi ∧ (MdLe lo x ∨ MdLe x hi))

/-- The dates that an OMIT covers.  A missing day stands for the first day of the month before
THROUGH and for the last one after it. -/
def Omit.Covers : Omit → ℤ → Prop
  | .weekdays wd, n => wd.has n = true
  | .dates p, n => MatchesParts p.d p.m p.y n
  | .range lo hi, n => ∃ m0 m1, lo.m = some m0 ∧ hi.m = some m1 ∧
      ((lo.y = none ∧ hi.y = none ∧ InCycle (m0, lo.d.getD 1) (m1, hi.d.getD (monthDays m1))
        ((fromDSE n).m, (fromDSE n).d)) ∨
      ∃ y0 y1, lo.y = some y0 ∧ hi.y = some y1 ∧ dse y0 m0 (lo.d.getD 1) ≤ n ∧
        n ≤ dse y1 m1 (hi.d.getD (daysInMonth m1 y1)))
  | .added k, n => n = k

/-- The OMIT that a line stands for. -/
def OmitLine.omit (l : OmitLine) : Omit :=
  if l.wd ≠ 0 then .weekdays l.wd
  else if l.seenThrough then .range l.fst l.snd
  else .dates l.fst

/-- The OMITs in force and the saved lists of them. -/
structure InForce where
  now : List Omit := []
  saved : List (List Omit) := []

/-- What a command that succeeds does to the OMITs in force. -/
def InForce.step (o : InForce) : OmitCmd → InForce
  | .doOmit line =>
    match parseOmit true {} line with
    | .ok (some (l, _)) => { o with now := l.omit :: o.now }
    | _ => o
  | .addGlobalOmit n => { o with now := .added n :: o.now }
  | .doClear _ => { o with now := [] }
  | .push _ => { o with saved := o.now :: o.saved }
  | .pop _ =>
    match o.saved with
    | [] => o
    | l :: rest => { now := l, saved := rest }

/-! ### The invariant -/

/-- The elements of `PartialOmitArray` are days of the year. -/
def IsSyndrome (x : ℤ) : Prop :=
  ∃ m d, 0 ≤ m ∧ m ≤ 11 ∧ 1 ≤ d ∧ d ≤ monthDays m ∧ x = syndrome m d

structure OmitContext.WF (c : OmitContext) : Prop where
  fullIncr : c.full.Pairwise (· < ·)
  fullLen : c.full.length ≤ maxFullOmits
  partIncr : c.part.Pairwise (· < ·)
  partSyn : ∀ x ∈ c.part, IsSyndrome x
  weekday : c.weekday ≠ 0x7F

/-- The date is omitted by what the context holds. -/
def OmitContext.Omits (c : OmitContext) (n : ℤ) : Prop :=
  c.weekday.has n = true ∨ n ∈ c.full ∨ syndrome (fromDSE n).m (fromDSE n).d ∈ c.part

/-- The context is well formed and omits what the list of OMITs covers. -/
structure Represents (c : OmitContext) (os : List Omit) : Prop where
  wf : c.WF
  omits : ∀ n, 0 ≤ n → (c.Omits n ↔ ∃ o ∈ os, o.Covers n)

theorem represents_empty : Represents {} [] where
  wf := ⟨by simp, by simp, by simp, by simp, by decide⟩
  omits n _ := by simp [OmitContext.Omits, WdSet.has]

/-- All days of the year, 29 February among them. -/
def allSyndromes : List ℤ :=
  (List.range 12).flatMap fun m : ℕ =>
    (List.range (monthDays m).toNat).map fun d : ℕ => syndrome m (d + 1)

theorem length_allSyndromes : allSyndromes.length = 366 := by decide +kernel

/-- `NumPartialOmits` needs no check: there are only 366 days to omit. -/
theorem OmitContext.WF.partLen {c : OmitContext} (h : c.WF) : c.part.length ≤ 366 := by
  rw [← length_allSyndromes]
  refine (List.Nodup.subperm (h.partIncr.imp fun h => ne_of_lt h) fun x hx => ?_).length_le
  obtain ⟨m, d, h0, h11, h1, hd, rfl⟩ := h.partSyn x hx
  obtain ⟨k, rfl⟩ := Int.eq_ofNat_of_zero_le h0
  obtain ⟨j, hj⟩ := Int.eq_ofNat_of_zero_le (show 0 ≤ d - 1 by omega)
  refine List.mem_flatMap.mpr ⟨k, List.mem_range.mpr ?_, List.mem_map.mpr ⟨j, ?_, ?_⟩⟩
  · omega
  · rw [List.mem_range]
    omega
  · rw [← hj, Int.sub_add_cancel]

theorem WdSet.has_or (a b : WdSet) (n : ℤ) : (a ||| b).has n = (a.has n || b.has n) := by
  unfold WdSet.has
  exact BitVec.getLsbD_or

/-- `IsOmitted` without a function asks the weekday sets and what the context holds. -/
theorem isOmitted_spec {c : OmitContext} (h : c.WF) (localomit : WdSet) (n : ℤ) :
    ∃ b, isOmitted c localomit none n = .ok b ∧
      (b = true ↔ localomit.has n = true ∨ c.Omits n) := by
  unfold isOmitted OmitContext.Omits
  rw [← Lib.bsearch_iff h.fullIncr, ← Lib.bsearch_iff h.partIncr]
  simp only
  split_ifs with h1 h2 h3 h4
  · exact ⟨true, rfl, by simp [h1]⟩
  · exact ⟨true, rfl, by simp [h2]⟩
  · exact ⟨true, rfl, by simp [h3]⟩
  · exact ⟨true, rfl, by simp [h4]⟩
  · exact ⟨false, rfl, by simp [h1, h2, h3, h4]⟩

/-! ### Full OMITs -/

/-- The loop over a full range that does not run into the limit stores the whole range. -/
theorem addFull_spec {n : ℕ} {tmp : ℤ} {a a' : List ℤ} (h : addFull n tmp a = (a', none))
    (ha : a.Pairwise (· < ·)) (hlen : a.length ≤ maxFullOmits) :
    a'.Pairwise (· < ·) ∧ a'.length ≤ maxFullOmits ∧
      ∀ x, x ∈ a' ↔ x ∈ a ∨ (tmp ≤ x ∧ x < tmp + n) := by
  induction n generalizing tmp a with
  | zero =>
    cases h
    exact ⟨ha, hlen, fun x => ⟨Or.inl, fun h => h.resolve_right (by omega)⟩⟩
  | succ n ih =>
    unfold addFull at h
    split_ifs at h with hmem hfull
    · obtain ⟨h1, h2, h3⟩ := ih h ha hlen
      have hin := (Lib.bsearch_iff ha).mp hmem
      refine ⟨h1, h2, fun x => (h3 x).trans ⟨?_, ?_⟩⟩
      · rintro (hx | hx)
        · exact Or.inl hx
        · exact Or.inr (by push_cast; omega)
      · rintro (hx | hx)
        · exact Or.inl hx
        · by_cases hxt : x = tmp
          · exact Or.inl (hxt ▸ hin)
          · exact Or.inr (by push_cast at hx; omega)
    · cases h
    · have hnot : tmp ∉ a := fun hin => hmem ((Lib.bsearch_iff ha).mpr hin)
      obtain ⟨h1, h2, h3⟩ := ih h (Lib.insertKey_pairwise ha hnot)
        (by rw [Lib.length_insertKey]; omega)
      refine ⟨h1, h2, fun x => (h3 x).trans ?_⟩
      rw [Lib.mem_insertKey]
      constructor
      · rintro ((hx | hx) | hx)
        · exact Or.inr (by push_cast; omega)
        · exact Or.inl hx
        · exact Or.inr (by push_cast; omega)
      · rintro (hx | hx)
        · exact Or.inl (Or.inr hx)
        · by_cases hxt : x = tmp
          · exact Or.inl (Or.inl hxt)
          · exact Or.inr (by push_cast at hx; omega)

/-! ### Partial OMITs -/

/-- Number of a day in a year that has 29 February, from 0 on. -/
def yearDay (s : ℤ × ℤ) : ℤ := monthIndex 1 s.1 + s.2 - 1

/-- Month and day of some year. -/
def IsMonthDay (s : ℤ × ℤ) : Prop := 0 ≤ s.1 ∧ s.1 ≤ 11 ∧ 1 ≤ s.2 ∧ s.2 ≤ monthDays s.1

theorem monthDays_bounds {m : ℤ} (h0 : 0 ≤ m) (h11 : m ≤ 11) :
    28 ≤ monthDays m ∧ monthDays m ≤ 31 := by
  interval_cases m <;> decide

theorem leapIndex_succ {m : ℤ} (h0 : 0 ≤ m) (h11 : m < 11) :
    monthIndex 1 (m + 1) = monthIndex 1 m + monthDays m := by
  interval_cases m <;> rfl

theorem leapIndex_lt {m k : ℤ} (h0 : 0 ≤ m) (hmk : m < k) (h11 : k ≤ 11) :
    monthIndex 1 m + monthDays m ≤ monthIndex 1 k := by
  have : m ≤ 10 := by omega
  interval_cases m <;> interval_cases k <;> decide

theorem yearDay_bounds {s : ℤ × ℤ} (hs : IsMonthDay s) : 0 ≤ yearDay s ∧ yearDay s < 366 := by
  obtain ⟨m, d⟩ := s
  obtain ⟨h0, h11, h1, hd⟩ := hs
  simp only at h0 h11 h1 hd
  have hlo : 0 ≤ monthIndex 1 m := by interval_cases m <;> decide
  have hhi : monthIndex 1 m + monthDays m ≤ 366 := by interval_cases m <;> decide
  unfold yearDay
  simp only
  omega

theorem mdLe_iff {s t : ℤ × ℤ} (hs : IsMonthDay s) (ht : IsMonthDay t) :
    MdLe s t ↔ yearDay s ≤ yearDay t := by
  obtain ⟨m, d⟩ := s
  obtain ⟨k, e⟩ := t
  obtain ⟨h0, h11, h1, hd⟩ := hs
  obtain ⟨h0', h11', h1', hd'⟩ := ht
  unfold MdLe yearDay
  simp only at *
  rcases lt_trichotomy m k with h | h | h
  · have := leapIndex_lt h0 h h11'
    omega
  · subst h
    omega
  · have := leapIndex_lt h0' h h11
    omega

theorem yearDay_inj {s t : ℤ × ℤ} (hs : IsMonthDay s) (ht : IsMonthDay t)
    (h : yearDay s = yearDay t) : s = t := by
  have h1 := (mdLe_iff hs ht).mpr (by omega)
  have h2 := (mdLe_iff ht hs).mpr (by omega)
  unfold MdLe at h1 h2
  ext <;> omega

theorem nextPartial_spec {s : ℤ × ℤ} (hs : IsMonthDay s) :
    IsMonthDay (nextPartial s) ∧ yearDay (nextPartial s) = (yearDay s + 1) % 366 := by
  have hb := yearDay_bounds hs
  obtain ⟨m, d⟩ := s
  obtain ⟨h0, h11, h1, hd⟩ := hs
  have hlen : ∀ k, 0 ≤ k → k ≤ 11 → 1 ≤ monthDays k := fun k hk0 hk11 => by
    have := monthDays_bounds hk0 hk11
    omega
  simp only at h0 h11 h1 hd
  unfold nextPartial
  by_cases hend : d + 1 > monthDays m
  · rw [if_pos hend]
    by_cases hdec : m + 1 > 11
    · -- 31 December is followed by 1 January
      rw [if_pos hdec]
      obtain rfl : m = 11 := by omega
      obtain rfl : d = 31 := by
        have : monthDays 11 = 31 := rfl
        omega
      exact ⟨⟨le_rfl, by decide, le_rfl, by decide⟩, by decide⟩
    · rw [if_neg hdec]
      have hmd : IsMonthDay (m + 1, 1) :=
        ⟨by simp only; omega, by simp only; omega, le_rfl, hlen _ (by omega) (by omega)⟩
      have hb' := yearDay_bounds hmd
      have hsucc := leapIndex_succ h0 (show m < 11 by omega)
      refine ⟨hmd, ?_⟩
      unfold yearDay at *
      simp only at *
      omega
  · rw [if_neg hend]
    have hmd : IsMonthDay (m, d + 1) :=
      ⟨h0, h11, by simp only; omega, by simp only; omega⟩
    have hb' := yearDay_bounds hmd
    refine ⟨hmd, ?_⟩
    unfold yearDay at *
    simp only at *
    omega

/-- How many days after `lo`, going round the year, the day `s` comes. -/
def daysAfter (lo s : ℤ × ℤ) : ℤ := (yearDay s - yearDay lo) % 366

theorem daysAfter_bounds (lo s : ℤ × ℤ) : 0 ≤ daysAfter lo s ∧ daysAfter lo s < 366 := by
  unfold daysAfter
  omega

theorem daysAfter_self (lo : ℤ × ℤ) : daysAfter lo lo = 0 := by
  unfold daysAfter
  omega

theorem daysAfter_inj (lo : ℤ × ℤ) {s t : ℤ × ℤ} (hs : IsMonthDay s) (ht : IsMonthDay t)
    (h : daysAfter lo s = daysAfter lo t) : s = t := by
  have h1 := yearDay_bounds hs
  have h2 := yearDay_bounds ht
  unfold daysAfter at h
  exact yearDay_inj hs ht (by omega)

/-- Away from the end of the circle the next day is one day further. -/
theorem daysAfter_next {lo hi s : ℤ × ℤ} (hs : IsMonthDay s)
    (hlt : daysAfter lo s < daysAfter lo hi) :
    daysAfter lo (nextPartial s) = daysAfter lo s + 1 := by
  obtain ⟨-, hnext⟩ := nextPartial_spec hs
  have := daysAfter_bounds lo hi
  unfold daysAfter at *
  omega

theorem inCycle_iff {lo hi x : ℤ × ℤ} (hlo : IsMonthDay lo) (hhi : IsMonthDay hi)
    (hx : IsMonthDay x) : InCycle lo hi x ↔ daysAfter lo x ≤ daysAfter lo hi := by
  have h1 := yearDay_bounds hlo
  have h2 := yearDay_bounds hhi
  have h3 := yearDay_bounds hx
  unfold InCycle daysAfter
  rw [mdLe_iff hlo hhi, mdLe_iff hlo hx, mdLe_iff hx hhi]
  omega

theorem syndrome_inj {s t : ℤ × ℤ} (hs : IsMonthDay s) (ht : IsMonthDay t)
    (h : syndrome s.1 s.2 = syndrome t.1 t.2) : s = t := by
  obtain ⟨h0, h11, h1, hd⟩ := hs
  obtain ⟨h0', h11', h1', hd'⟩ := ht
  have := monthDays_bounds h0 h11
  have := monthDays_bounds h0' h11'
  unfold syndrome at h
  ext <;> omega

/-- The array of a partial loop that has got from `lo` to the day `s.2`. -/
structure PartialLoop (part : List ℤ) (lo hi : ℤ × ℤ) (s : List ℤ × ℤ × ℤ) : Prop where
  incr : s.1.Pairwise (· < ·)
  syn : ∀ x ∈ s.1, IsSyndrome x
  day : IsMonthDay s.2
  le : daysAfter lo s.2 ≤ daysAfter lo hi
  mem : ∀ x, IsMonthDay x →
    (syndrome x.1 x.2 ∈ s.1 ↔ syndrome x.1 x.2 ∈ part ∨ daysAfter lo x ≤ daysAfter lo s.2)

section Loop

variable {part : List ℤ} {lo hi : ℤ × ℤ}

theorem mem_insertNew_syndrome {l : List ℤ} (hl : l.Pairwise (· < ·)) {x t : ℤ × ℤ}
    (hx : IsMonthDay x) (ht : IsMonthDay t) :
    syndrome x.1 x.2 ∈ Lib.insertNew l (syndrome t.1 t.2) ↔ x = t ∨ syndrome x.1 x.2 ∈ l := by
  rw [Lib.mem_insertNew hl]
  exact or_congr_left ⟨syndrome_inj hx ht, fun h => h ▸ rfl⟩

theorem insertNew_isSyndrome {l : List ℤ} (hl : l.Pairwise (· < ·))
    (hsyn : ∀ x ∈ l, IsSyndrome x) {t : ℤ × ℤ} (ht : IsMonthDay t) :
    ∀ x ∈ Lib.insertNew l (syndrome t.1 t.2), IsSyndrome x := by
  intro x hx
  rcases (Lib.mem_insertNew hl).mp hx with rfl | hx
  · exact ⟨t.1, t.2, ht.1, ht.2.1, ht.2.2.1, ht.2.2.2, rfl⟩
  · exact hsyn x hx

/-- The first insertion, before the loop test. -/
theorem PartialLoop.start (hp : part.Pairwise (· < ·)) (hsyn : ∀ x ∈ part, IsSyndrome x)
    (hlo : IsMonthDay lo) :
    PartialLoop part lo hi (Lib.insertNew part (syndrome lo.1 lo.2), lo) where
  incr := Lib.insertNew_pairwise hp
  syn := insertNew_isSyndrome hp hsyn hlo
  day := hlo
  le := by
    rw [daysAfter_self]
    exact (daysAfter_bounds lo hi).1
  mem x hx := by
    rw [mem_insertNew_syndrome hp hx hlo, or_comm, daysAfter_self]
    refine or_congr_right ⟨fun h => by rw [h, daysAfter_self], fun h => ?_⟩
    have := daysAfter_bounds lo x
    exact daysAfter_inj lo hx hlo (by rw [daysAfter_self]; omega)

/-- One round of the loop stores the next day, which is one day further from `lo`. -/
theorem PartialLoop.step {s : List ℤ × ℤ × ℤ} (h : PartialLoop part lo hi s)
    (hhi : IsMonthDay hi) (hne : s.2 ≠ hi) :
    PartialLoop part lo hi (Lib.insertNew s.1 (syndrome (nextPartial s.2).1 (nextPartial s.2).2),
        nextPartial s.2) ∧
      daysAfter lo (nextPartial s.2) = daysAfter lo s.2 + 1 ∧
      daysAfter lo s.2 < daysAfter lo hi := by
  have hlt : daysAfter lo s.2 < daysAfter lo hi := by
    refine lt_of_le_of_ne h.le fun heq => hne (daysAfter_inj lo h.day hhi heq)
  obtain ⟨hnext, -⟩ := nextPartial_spec h.day
  have hsucc := daysAfter_next h.day hlt
  refine ⟨⟨Lib.insertNew_pairwise h.incr, insertNew_isSyndrome h.incr h.syn hnext, hnext,
    by rw [hsucc]; omega, fun x hx => ?_⟩, hsucc, hlt⟩
  have hx1 : x = nextPartial s.2 ↔ daysAfter lo x = daysAfter lo s.2 + 1 := by
    rw [← hsucc]
    exact ⟨fun h => h ▸ rfl, daysAfter_inj lo hx hnext⟩
  rw [mem_insertNew_syndrome h.incr hx hnext, h.mem x hx, hx1, hsucc]
  constructor
  · rintro (h | h | h)
    · exact Or.inr (by omega)
    · exact Or.inl h
    · exact Or.inr (by omega)
  · rintro (h | h)
    · exact Or.inr (Or.inl h)
    · by_cases heq : daysAfter lo x = daysAfter lo s.2 + 1
      · exact Or.inl heq
      · exact Or.inr (Or.inr (by omega))

/-- The loop over a partial range ends, and stores the days of the range. -/
theorem addPartial_spec (hp : part.Pairwise (· < ·)) (hsyn : ∀ x ∈ part, IsSyndrome x)
    (hlo : IsMonthDay lo) (hhi : IsMonthDay hi) :
    ∃ part', addPartial part lo.1 lo.2 hi.1 hi.2 = some part' ∧ part'.Pairwise (· < ·) ∧
      (∀ x ∈ part', IsSyndrome x) ∧
      ∀ x, IsMonthDay x →
        (syndrome x.1 x.2 ∈ part' ↔ syndrome x.1 x.2 ∈ part ∨ InCycle lo hi x) := by
  obtain ⟨r, hr, hI, hend⟩ := Lib.whileFuel_total (n := 366)
    (c := fun s : List ℤ × ℤ × ℤ => decide (s.2 ≠ (hi.1, hi.2)))
    (f := fun s => (Lib.insertNew s.1 (syndrome (nextPartial s.2).1 (nextPartial s.2).2),
      nextPartial s.2)) (PartialLoop part lo hi)
    (fun s => (daysAfter lo hi - daysAfter lo s.2).toNat)
    (fun s hs hne => by
      obtain ⟨h1, h2, h3⟩ := hs.step hhi (by simpa using hne)
      exact ⟨h1, by simp only [h2]; omega⟩)
    (PartialLoop.start hp hsyn hlo)
    (by
      have := daysAfter_bounds lo hi
      have := daysAfter_bounds lo lo
      simp only
      omega)
  have hday : r.2 = hi := by simpa using hend
  refine ⟨r.1, congrArg (Option.map Prod.fst) hr, hI.incr, hI.syn, fun x hx => ?_⟩
  rw [hI.mem x hx, hday, inCycle_iff hlo hhi hx]

end Loop

/-! ### One command -/

/-- The parts lie in the ranges of the tokens they come from. -/
structure DateParts.InRange (p : DateParts) : Prop where
  day : ∀ d, p.d = some d → 1 ≤ d ∧ d ≤ 31
  mon : ∀ m, p.m = some m → 0 ≤ m ∧ m ≤ 11
  yr : ∀ y, p.y = some y → baseYr ≤ y

structure OmitLine.InRange (l : OmitLine) : Prop where
  fst : l.fst.InRange
  snd : l.snd.InRange

theorem OmitLine.InRange.setCur {l : OmitLine} (h : l.InRange) {p : DateParts} (hp : p.InRange) :
    (l.setCur p).InRange := by
  unfold OmitLine.setCur
  split_ifs
  · exact ⟨h.fst, hp⟩
  · exact ⟨hp, h.snd⟩

theorem OmitLine.InRange.cur {l : OmitLine} (h : l.InRange) : l.cur.InRange := by
  unfold OmitLine.cur
  split_ifs
  · exact h.snd
  · exact h.fst

theorem DateParts.InRange.fromDSE (n : ℕ) : DateParts.InRange
    { y := some (fromDSE n).y, m := some (fromDSE n).m, d := some (fromDSE n).d } := by
  obtain ⟨hv, -⟩ := fromDSE_spec (n := n) (by omega)
  have hlen := (daysInMonth_bounds hv.monthLo hv.monthHi (Remind.fromDSE n).y).2
  have := hv.dayHi
  refine ⟨fun d hd => ?_, fun m hm => ?_, fun y hy => ?_⟩
  · rw [← Option.some.inj hd]
    exact ⟨hv.dayLo, by omega⟩
  · rw [← Option.some.inj hm]
    exact ⟨hv.monthLo, hv.monthHi⟩
  · rw [← Option.some.inj hy]
    exact hv.year

/-- The parsing loop stores only what the tokens say. -/
theorem parseOmit_inRange {firstToken : Bool} {l l' : OmitLine} {line : Line} {asRem : Bool}
    (hl : l.InRange) (h : parseOmit firstToken l line = .ok (some (l', asRem))) : l'.InRange := by
  fun_induction parseOmit firstToken l line
  case case4 ih => exact ih ⟨hl.fst, hl.snd⟩ h
  case case11 n _ _ _ s ih => exact ih (hl.setCur (.fromDSE n)) h
  case case13 v _ ih =>
    exact ih (hl.setCur { hl.cur with yr := fun y hy => Option.some.inj hy ▸ v.2.1 }) h
  case case15 v _ ih =>
    exact ih (hl.setCur { hl.cur with mon := fun m hm => Option.some.inj hm ▸ v.2 }) h
  case case17 v _ ih =>
    exact ih (hl.setCur { hl.cur with day := fun d hd => Option.some.inj hd ▸ v.2 }) h
  case case18 ih => exact ih hl h
  case case21 ih => exact ih ⟨hl.fst, hl.snd⟩ h
  -- the other branches return: an error, or the line as it is
  all_goals first
    | (cases h; done)
    | (cases h; exact hl)

/-- A day of month `m` in the year of a date. -/
theorem isMonthDay_fromDSE {n : ℤ} (hn : 0 ≤ n) : IsMonthDay ((fromDSE n).m, (fromDSE n).d) := by
  obtain ⟨hv, -⟩ := fromDSE_spec hn
  have := daysInMonth_le_monthDays (m := (fromDSE n).m) (fromDSE n).y
  have := hv.dayHi
  exact ⟨hv.monthLo, hv.monthHi, hv.dayLo, by simp only; omega⟩

/-- A month, or a day of it, in every year is a range of the circle of the year. -/
theorem matchesParts_partial {p : DateParts} {m n : ℤ} (hn : 0 ≤ n) (hp : p.InRange)
    (hm : p.m = some m) (hy : p.y = none) :
    MatchesParts p.d p.m p.y n ↔
      InCycle (m, p.d.getD 1) (m, p.d.getD (monthDays m)) ((fromDSE n).m, (fromDSE n).d) := by
  obtain ⟨-, -, h1, hd⟩ := isMonthDay_fromDSE hn
  obtain ⟨h0, h11⟩ := hp.mon m hm
  have hlen := monthDays_bounds h0 h11
  simp only at h1 hd
  simp only [InCycle, MdLe, true_and, lt_irrefl, false_or]
  constructor
  · rintro ⟨-, hpd, hpm, -⟩
    have hnm := hpm m hm
    rw [hnm] at hd
    rcases hpd' : p.d with _ | d
    · simp only [Option.getD_none]
      omega
    · have := hpd d hpd'
      simp only [Option.getD_some]
      omega
  · intro h
    rcases hpd' : p.d with _ | d <;> rw [hpd'] at h
    · simp only [Option.getD_none] at h
      refine ⟨hn, by simp, fun x hx => ?_, by simp [hy]⟩
      rw [hm] at hx
      cases hx
      omega
    · simp only [Option.getD_some] at h
      refine ⟨hn, fun x hx => ?_, fun x hx => ?_, by simp [hy]⟩
      · cases hx
        omega
      · rw [hm] at hx
        cases hx
        omega

/-- A month of a year, or a day of it, is a range of dates. -/
theorem matchesParts_full {p : DateParts} {y m n : ℤ} (hp : p.InRange) (hm : p.m = some m)
    (hy : p.y = some y) (hd : p.d.getD 1 ≤ daysInMonth m y) :
    MatchesParts p.d p.m p.y n ↔
      dse y m (p.d.getD 1) ≤ n ∧ n ≤ dse y m (p.d.getD (daysInMonth m y)) := by
  obtain ⟨h0, h11⟩ := hp.mon m hm
  have hyr := hp.yr y hy
  have hbase : baseMonth = 12 * baseYr := rfl
  have hb : baseMonth ≤ monthNo y m := by unfold monthNo; omega
  rw [hm, hy]
  rcases hpd : p.d with _ | d
  · rw [matchesParts_monYr y h0 h11, Option.getD_none, Option.getD_none, dse_eq_monthStart h0 h11,
      dse_eq_monthStart h0 h11, monthLen_monthNo h0 h11]
    omega
  · obtain ⟨h1, -⟩ := hp.day d hpd
    rw [hpd, Option.getD_some] at hd
    rw [matchesParts_day h1, Option.getD_some, Option.getD_some, dse_eq_monthStart h0 h11]
    constructor
    · rintro ⟨N, -, -, rfl, hNm, hNy⟩
      have hN : N = monthNo y m := by
        have := hNm m rfl
        have := hNy y rfl
        unfold monthNo
        omega
      rw [hN]
      omega
    · intro h
      refine ⟨monthNo y m, hb, by rw [monthLen_monthNo h0 h11]; exact hd, by omega,
        fun x hx => ?_, fun x hx => ?_⟩
      · cases hx
        exact monthNo_mod h0 h11
      · cases hx
        exact monthNo_div h0 h11

theorem OmitLine.InRange.last {l : OmitLine} (h : l.InRange) : l.last.InRange := by
  unfold OmitLine.last
  split_ifs
  · exact h.snd
  · exact h.fst

theorem range_part {l : OmitLine} {m0 d0 m1 d1 : ℤ} (h : l.range = .ok (.part m0 d0 m1 d1)) :
    l.fst.m = some m0 ∧ l.last.m = some m1 ∧ l.fst.y = none ∧ l.last.y = none ∧
      d0 = l.fst.d.getD 1 ∧ d1 = l.last.d.getD (monthDays m1) := by
  unfold OmitLine.range at h
  rcases hm0 : l.fst.m with _ | a <;> rcases hm1 : l.last.m with _ | b <;>
    rcases hy0 : l.fst.y with _ | u <;> rcases hy1 : l.last.y with _ | v <;>
    simp only [hm0, hm1, hy0, hy1] at h <;> cases h
  exact ⟨rfl, rfl, rfl, rfl, rfl, rfl⟩

theorem range_full {l : OmitLine} {y0 m0 d0 y1 m1 d1 : ℤ}
    (h : l.range = .ok (.full y0 m0 d0 y1 m1 d1)) :
    l.fst.m = some m0 ∧ l.last.m = some m1 ∧ l.fst.y = some y0 ∧ l.last.y = some y1 ∧
      d0 = l.fst.d.getD 1 ∧ d1 = l.last.d.getD (daysInMonth m1 y1) := by
  unfold OmitLine.range at h
  rcases hm0 : l.fst.m with _ | a <;> rcases hm1 : l.last.m with _ | b <;>
    rcases hy0 : l.fst.y with _ | u <;> rcases hy1 : l.last.y with _ | v <;>
    simp only [hm0, hm1, hy0, hy1] at h <;> cases h
  exact ⟨rfl, rfl, rfl, rfl, rfl, rfl⟩

/-- A line without years omits its days of the year. -/
theorem covers_part {l : OmitLine} (hl : l.InRange) (hwd : l.wd = 0) {m0 d0 m1 d1 n : ℤ}
    (h : l.range = .ok (.part m0 d0 m1 d1)) (hn : 0 ≤ n) :
    l.omit.Covers n ↔ InCycle (m0, d0) (m1, d1) ((fromDSE n).m, (fromDSE n).d) := by
  obtain ⟨hm0, hm1, hy0, hy1, rfl, rfl⟩ := range_part h
  unfold OmitLine.omit
  rw [if_neg (by simpa using hwd)]
  by_cases hthru : l.seenThrough = true
  · rw [if_pos hthru]
    simp only [OmitLine.last, hthru, if_true] at hm1 hy1 ⊢
    simp [Omit.Covers, hm0, hm1, hy0, hy1]
  · rw [if_neg hthru]
    simp only [OmitLine.last, hthru, if_false, Bool.false_eq_true] at hm1 hy1 ⊢
    rw [hm0] at hm1
    cases hm1
    exact matchesParts_partial hn hl.fst hm0 hy0

/-- A line with years omits the dates from its first to its last day. -/
theorem covers_full {l : OmitLine} (hl : l.InRange) (hwd : l.wd = 0) {y0 m0 d0 y1 m1 d1 n : ℤ}
    (h : l.range = .ok (.full y0 m0 d0 y1 m1 d1)) (hd : d0 ≤ daysInMonth m0 y0) :
    l.omit.Covers n ↔ dse y0 m0 d0 ≤ n ∧ n ≤ dse y1 m1 d1 := by
  obtain ⟨hm0, hm1, hy0, hy1, rfl, rfl⟩ := range_full h
  unfold OmitLine.omit
  rw [if_neg (by simpa using hwd)]
  by_cases hthru : l.seenThrough = true
  · rw [if_pos hthru]
    simp only [OmitLine.last, hthru, if_true] at hm1 hy1 ⊢
    simp [Omit.Covers, hm0, hm1, hy0, hy1]
  · rw [if_neg hthru]
    simp only [OmitLine.last, hthru, if_false, Bool.false_eq_true] at hm1 hy1 ⊢
    rw [hm0] at hm1
    rw [hy0] at hy1
    cases hm1
    cases hy1
    exact matchesParts_full hl.fst hm0 hy0 hd

/-- One more OMIT is in force. -/
theorem Represents.cons {c c' : OmitContext} {os : List Omit} {o : Omit} (hc : Represents c os)
    (hwf : c'.WF) (h : ∀ n, 0 ≤ n → (c'.Omits n ↔ o.Covers n ∨ c.Omits n)) :
    Represents c' (o :: os) where
  wf := hwf
  omits n hn := by rw [h n hn, hc.omits n hn, List.exists_mem_cons_iff]

/-- `DoOmit` after its parsing loop puts the OMIT of the line in force. -/
theorem applyOmit_represents {c c' : OmitContext} {os : List Omit} {l : OmitLine} (hl : l.InRange)
    (hc : Represents c os) (h : applyOmit c l = (c', none)) : Represents c' (l.omit :: os) := by
  have hwf := hc.wf
  unfold applyOmit at h
  by_cases hwd : l.wd ≠ 0
  · rw [if_pos hwd] at h
    split_ifs at h with hparts hall
    · cases h
    · cases h
    · cases h
      refine hc.cons ⟨hwf.fullIncr, hwf.fullLen, hwf.partIncr, hwf.partSyn, hall⟩ fun n _ => ?_
      have homit : l.omit = .weekdays l.wd := by unfold OmitLine.omit; rw [if_pos hwd]
      rw [homit]
      simp only [OmitContext.Omits, Omit.Covers, WdSet.has_or, Bool.or_eq_true]
      simp only [or_assoc, or_comm, or_left_comm]
  rw [if_neg hwd] at h
  have hwd0 : l.wd = 0 := by simpa using hwd
  have hlast := hl.last
  rcases hr : l.range with r | ⟨m0, d0, m1, d1⟩ | ⟨y0, m0, d0, y1, m1, d1⟩
  · rw [hr] at h
    cases h
  · rw [hr] at h
    simp only at h
    split_ifs at h with h1 h2
    · cases h
    · cases h
    · obtain ⟨hm0, hm1, hy0, hy1, hd0, hd1⟩ := range_part hr
      have hlo : IsMonthDay (m0, d0) := by
        obtain ⟨h0, h11⟩ := hl.fst.mon m0 hm0
        refine ⟨h0, h11, ?_, by simp only; omega⟩
        rcases hd : l.fst.d with _ | d <;> rw [hd] at hd0 <;> simp only [hd0]
        · simp
        · exact (hl.fst.day d hd).1
      have hhi : IsMonthDay (m1, d1) := by
        obtain ⟨h0, h11⟩ := hlast.mon m1 hm1
        refine ⟨h0, h11, ?_, by simp only; omega⟩
        rcases hd : l.last.d with _ | d <;> rw [hd] at hd1 <;> simp only [hd1]
        · have := monthDays_bounds h0 h11
          simp only [Option.getD_none]
          omega
        · exact (hlast.day d hd).1
      obtain ⟨part', hpart, k1, k2, k3⟩ := addPartial_spec hwf.partIncr hwf.partSyn hlo hhi
      simp only at hpart
      rw [hpart] at h
      cases h
      refine hc.cons ⟨hwf.fullIncr, hwf.fullLen, k1, k2, hwf.weekday⟩ fun n hn => ?_
      have := k3 _ (isMonthDay_fromDSE hn)
      simp only at this
      simp only [OmitContext.Omits, this, covers_part hl hwd0 hr hn]
      simp only [or_assoc, or_comm, or_left_comm]
  · rw [hr] at h
    simp only at h
    split_ifs at h with h1 h2 h3
    · cases h
    · cases h
    · cases h
    · rcases hf : addFull (dse y1 m1 d1 - dse y0 m0 d0 + 1).toNat (dse y0 m0 d0) c.full with ⟨f, r⟩
      rw [hf] at h
      cases h
      obtain ⟨k1, k2, k3⟩ := addFull_spec hf hwf.fullIncr hwf.fullLen
      refine hc.cons ⟨k1, k2, hwf.partIncr, hwf.partSyn, hwf.weekday⟩ fun n hn => ?_
      have hmem : n ∈ f ↔ n ∈ c.full ∨ (dse y0 m0 d0 ≤ n ∧ n ≤ dse y1 m1 d1) :=
        (k3 n).trans (or_congr_right (by omega))
      simp only [OmitContext.Omits, hmem, covers_full hl hwd0 hr (by omega)]
      simp only [or_assoc, or_comm, or_left_comm]

/-- The error codes of `DoOmit` after its parsing loop are real errors. -/
theorem applyOmit_ne_parseAsRem (c : OmitContext) (l : OmitLine) :
    (applyOmit c l).2 ≠ some .parseAsRem := by
  have hfull : ∀ n tmp a, (addFull n tmp a).2 ≠ some .parseAsRem := by
    intro n
    induction n with
    | zero => simp [addFull]
    | succ n ih =>
      intro tmp a
      unfold addFull
      split_ifs
      · exact ih _ _
      · simp
      · exact ih _ _
  have hrange : l.range ≠ .error .parseAsRem := by
    unfold OmitLine.range
    split
    · split <;> simp
    · simp
  unfold applyOmit
  split_ifs <;> try simp
  split
  · intro h
    simp_all
  · split_ifs <;> try simp
    split <;> simp
  · split_ifs <;> try simp
    exact hfull _ _ _

/-- The contexts represent the lists of OMITs, the saved ones included. -/
structure Tracks (s : OmitState) (o : InForce) : Prop where
  now : Represents s.ctx o.now
  saved : List.Forall₂ Represents s.saved o.saved

theorem doOmit_tracks {s : OmitState} {o : InForce} (h : Tracks s o) {line : Line}
    {c : OmitContext} {r : Option ErrCode} (hdo : doOmit s.ctx line = (c, r))
    (hr : r = none ∨ r = some .parseAsRem) :
    Tracks { s with ctx := c } (o.step (.doOmit line)) := by
  unfold doOmit at hdo
  unfold InForce.step
  rcases hp : parseOmit true {} line with e | _ | ⟨l, asRem⟩ <;> simp only [hp] at hdo ⊢
  · cases hdo
    exact h
  · cases hdo
    exact h
  · have hl : l.InRange := parseOmit_inRange (l := {}) ⟨⟨by simp, by simp, by simp⟩,
      ⟨by simp, by simp, by simp⟩⟩ hp
    have hne := applyOmit_ne_parseAsRem s.ctx l
    rcases ha : applyOmit s.ctx l with ⟨c', _ | e⟩ <;> simp only [ha] at hdo hne
    · cases hdo
      exact ⟨applyOmit_represents hl h.now ha, h.saved⟩
    · cases hdo
      rcases hr with hr | hr
      · cases hr
      · exact (hne hr).elim

theorem addGlobalOmit_tracks {s : OmitState} {o : InForce} (h : Tracks s o) {n : ℤ}
    {c : OmitContext} {r : Option ErrCode} (hdo : addGlobalOmit s.ctx n = (c, r))
    (hr : r = none ∨ r = some .parseAsRem) :
    Tracks { s with ctx := c } (o.step (.addGlobalOmit n)) := by
  have hwf := h.now.wf
  unfold addGlobalOmit at hdo
  split_ifs at hdo with hneg hfull
  · cases hdo
    refine ⟨h.now.cons hwf fun k hk => ?_, h.saved⟩
    simp only [Omit.Covers]
    exact ⟨Or.inr, fun hx => hx.resolve_left (by omega)⟩
  · cases hdo
    rcases hr with hr | hr <;> cases hr
  · cases hdo
    refine ⟨h.now.cons ⟨Lib.insertNew_pairwise hwf.fullIncr, ?_, hwf.partIncr, hwf.partSyn,
      hwf.weekday⟩ fun k _ => ?_, h.saved⟩
    · have := hwf.fullLen
      simp only [Lib.insertNew]
      split_ifs
      · exact this
      · rw [Lib.length_insertKey]
        omega
    · simp only [OmitContext.Omits, Lib.mem_insertNew hwf.fullIncr, Omit.Covers]
      tauto

/-- A command that succeeds keeps the contexts and the lists of OMITs together. -/
theorem step_tracks {s s' : OmitState} {o : InForce} (h : Tracks s o) {cmd : OmitCmd}
    {r : Option ErrCode} (hstep : s.step cmd = (s', r)) (hr : r = none ∨ r = some .parseAsRem) :
    Tracks s' (o.step cmd) := by
  cases cmd with
  | doOmit line =>
    rcases hdo : doOmit s.ctx line with ⟨c, r'⟩
    simp only [OmitState.step, hdo] at hstep
    cases hstep
    exact doOmit_tracks h hdo hr
  | addGlobalOmit n =>
    rcases hdo : addGlobalOmit s.ctx n with ⟨c, r'⟩
    simp only [OmitState.step, hdo] at hstep
    cases hstep
    exact addGlobalOmit_tracks h hdo hr
  | doClear line =>
    cases hstep
    exact ⟨represents_empty, h.saved⟩
  | push line =>
    cases hstep
    exact ⟨h.now, .cons h.now h.saved⟩
  | pop line =>
    rcases hs : s.saved with _ | ⟨c, rest⟩ <;> simp only [OmitState.step, hs] at hstep
    · cases hstep
      rcases hr with hr | hr <;> cases hr
    · cases hstep
      have hsaved := h.saved
      rw [hs] at hsaved
      rcases ho : o.saved with _ | ⟨l, ls⟩ <;> rw [ho] at hsaved
      · cases hsaved
      · cases hsaved with
        | cons hc hrest =>
          simp only [InForce.step, ho]
          exact ⟨hc, hrest⟩

/-- A run takes a step that succeeds and goes on from there. -/
theorem run_cons {s s' : OmitState} {cmd : OmitCmd} {rest : List OmitCmd}
    (h : s.run (cmd :: rest) = some s') :
    ∃ s1 r, s.step cmd = (s1, r) ∧ (r = none ∨ r = some .parseAsRem) ∧ s1.run rest = some s' := by
  unfold OmitState.run at h
  split at h
  · next s1 hs => exact ⟨s1, none, hs, Or.inl rfl, h⟩
  · next s1 hs => exact ⟨s1, _, hs, Or.inr rfl, h⟩
  · cases h

theorem run_tracks {cmds : List OmitCmd} {s s' : OmitState} {o : InForce} (h : Tracks s o)
    (hrun : s.run cmds = some s') : Tracks s' (cmds.foldl InForce.step o) := by
  induction cmds generalizing s o with
  | nil =>
    cases hrun
    exact h
  | cons cmd rest ih =>
    obtain ⟨s1, r, hstep, hr, hrest⟩ := run_cons hrun
    exact ih (step_tracks h hstep hr) hrest

/-! ### Matching PUSH and POP -/

/-- Commands in which every POP matches a PUSH among them. -/
inductive Nested : List OmitCmd → Prop
  | nil : Nested []
  | cons {cmd rest} : (∀ l, cmd ≠ .push l) → (∀ l, cmd ≠ .pop l) → Nested rest →
      Nested (cmd :: rest)
  | bracket {l l' body rest} : Nested body → Nested rest →
      Nested (.push l :: (body ++ .pop l' :: rest))

theorem run_append {a b : List OmitCmd} {s s' : OmitState} (h : s.run (a ++ b) = some s') :
    ∃ s1, s.run a = some s1 ∧ s1.run b = some s' := by
  induction a generalizing s with
  | nil => exact ⟨s, rfl, h⟩
  | cons cmd rest ih =>
    obtain ⟨s1, r, hstep, hr, hrest⟩ := run_cons h
    obtain ⟨s2, h1, h2⟩ := ih hrest
    refine ⟨s2, ?_, h2⟩
    unfold OmitState.run
    rcases hr with rfl | rfl <;> simp only [hstep] <;> exact h1

/-- Commands other than PUSH and POP leave the stack alone. -/
theorem step_saved {s s1 : OmitState} {cmd : OmitCmd} {r : Option ErrCode}
    (hpush : ∀ l, cmd ≠ .push l) (hpop : ∀ l, cmd ≠ .pop l) (h : s.step cmd = (s1, r)) :
    s1.saved = s.saved := by
  cases cmd with
  | doOmit line => cases h; rfl
  | addGlobalOmit n => cases h; rfl
  | doClear line => cases h; rfl
  | push line => exact (hpush line rfl).elim
  | pop line => exact (hpop line rfl).elim

theorem run_pop {s s' : OmitState} {c : OmitContext} {saved : List OmitContext} {l : Line}
    {rest : List OmitCmd} (hs : s.saved = c :: saved) (h : s.run (.pop l :: rest) = some s') :
    OmitState.run { ctx := c, saved := saved } rest = some s' := by
  obtain ⟨s1, r, hstep, -, hrest⟩ := run_cons h
  simp only [OmitState.step, hs] at hstep
  cases hstep
  exact hrest

theorem nested_saved {body : List OmitCmd} (hb : Nested body) {s s' : OmitState}
    (h : s.run body = some s') : s'.saved = s.saved := by
  induction hb generalizing s s' with
  | nil => cases h; rfl
  | cons hpush hpop _ ih =>
    obtain ⟨s1, r, hstep, -, hrest⟩ := run_cons h
    rw [ih hrest, step_saved hpush hpop hstep]
  | bracket _ _ ihbody ihrest =>
    obtain ⟨s1, r, hstep, -, hrest⟩ := run_cons h
    obtain ⟨s2, hbody, htail⟩ := run_append hrest
    cases hstep
    have h2 := ihbody hbody
    rw [ihrest (run_pop h2 htail)]

/-- A POP brings back the context and the stack from before its PUSH. -/
theorem pop_restores {body : List OmitCmd} (hb : Nested body) {s s' : OmitState} {l l' : Line}
    (h : s.run (.push l :: (body ++ [OmitCmd.pop l'])) = some s') : s' = s := by
  obtain ⟨s1, r, hstep, -, hrest⟩ := run_cons h
  obtain ⟨s2, hbody, htail⟩ := run_append hrest
  cases hstep
  have h2 := run_pop (nested_saved hb hbody) htail
  cases h2
  rfl

/-- `OMIT Sat Sun`, PUSH, `OMIT Dec 31 THROUGH Jan 1` -/
def newYearOmits : List OmitCmd :=
  [.doOmit [.ok (.wkDay 5), .ok (.wkDay 6)], .push [],
    .doOmit [.ok (.month ⟨11, by decide⟩), .ok (.day ⟨31, by decide⟩), .ok .through,
      .ok (.month ⟨0, by decide⟩), .ok (.day ⟨1, by decide⟩)]]

end Remind
