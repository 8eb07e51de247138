import Remind.Clauses

/-!
# DurationDays — the length of an event and the order of its clauses (dorem.c: `ParseRem`,
# `ComputeTrigDuration`)

`duration_days` follows from the time and the duration.  `ParseRem` computes it again in the clauses
that set one of them, but for a date-time token.
-/

namespace Remind

/-! ### The time and the duration that clauses give -/

def TimeItem.timeAfter (t : Option ℤ) : TimeItem → Option ℤ
  | .time v => storedTime v
  | _ => t

/-- `ttime` after a clause. -/
def Clause.timeAfter (t : Option ℤ) : Clause → Option ℤ
  | .timeTrig (some v) items => items.foldl TimeItem.timeAfter (storedTime v)
  | .timeTrig none items => items.foldl TimeItem.timeAfter t
  | .dateTime v => some (v.tmod minutesPerDay)
  | _ => t

/-- `duration` after a clause. -/
def Clause.durationAfter (d : Option ℤ) : Clause → Option ℤ
  | .duration v => storedDuration v
  | _ => d

/-- The clauses that compute `duration_days`: a time, AT and DURATION. -/
def Clause.setsDays : Clause → Bool
  | .timeTrig _ _ => true
  | .duration _ => true
  | _ => false

/-- The time and the duration that the clauses give. -/
def eventOf (cs : List Clause) : TimeTrig where
  ttime := cs.foldl Clause.timeAfter none
  duration := cs.foldl Clause.durationAfter none

/-- The days of the event have not been computed since a date-time token gave its time, and they are
not those that the time before the token made. -/
def StaleDays (cs : List Clause) : Prop :=
  ∃ a v b, cs = a ++ Clause.dateTime v :: b ∧ (∀ c ∈ b, c.setsDays = false) ∧
    computeTrigDuration (eventOf a) ≠ computeTrigDuration (eventOf (a ++ [Clause.dateTime v]))

theorem eventOf_snoc (cs : List Clause) (c : Clause) :
    eventOf (cs ++ [c]) =
      { ttime := c.timeAfter (eventOf cs).ttime
        duration := c.durationAfter (eventOf cs).duration } := by
  unfold eventOf
  rw [List.foldl_append, List.foldl_append]
  rfl

theorem computeTrigDuration_congr {t t' : TimeTrig} (htime : t.ttime = t'.ttime)
    (hdur : t.duration = t'.duration) : computeTrigDuration t = computeTrigDuration t' := by
  unfold computeTrigDuration
  rw [htime, hdur]

/-! ### What a clause does to them -/

section Step

variable {c : Clause} {p p' : ParsedRem}

theorem applyTimeItems_spec {items : List TimeItem} {seenDelta : Bool} {tim tim' : TimeTrig}
    (h : applyTimeItems items seenDelta tim = .ok tim') :
    tim'.ttime = items.foldl TimeItem.timeAfter tim.ttime ∧ tim'.duration = tim.duration := by
  fun_induction applyTimeItems items seenDelta tim with
  | case1 => cases h
  | case2 =>
    cases h
    exact ⟨rfl, rfl⟩
  | case3 => cases h
  | case4 _ _ _ _ _ ih => exact ih h
  | case5 => cases h
  | case6 _ _ _ _ _ ih => exact ih h
  | case7 => cases h
  | case8 _ _ _ _ _ ih => exact ih h

/-- What a clause does to the data of an event. -/
structure EventStep (c : Clause) (p p' : ParsedRem) : Prop where
  ttime : p'.tim.ttime = c.timeAfter p.tim.ttime
  duration : p'.tim.duration = c.durationAfter p.tim.duration
  days : p'.trig.durationDays =
    if c.setsDays then computeTrigDuration p'.tim else p.trig.durationDays
  day : p.trig.d ≠ none → p'.trig.d ≠ none
  dateTime : ∀ v, c = .dateTime v → p.trig.d = none ∧ p'.trig.d ≠ none

theorem Clause.apply_step (h : c.apply p = .ok p') : EventStep c p p' := by
  cases c with
  | date v =>
    dsimp only [Clause.apply] at h
    cases hd : dateTwice p.trig with
    | some r =>
      rw [hd] at h
      cases h
    | none =>
      rw [hd] at h
      cases h
      exact ⟨rfl, rfl, rfl, fun _ => nofun, nofun⟩
  | dateTime v =>
    dsimp only [Clause.apply] at h
    cases hd : dateTwice p.trig with
    | some r =>
      rw [hd] at h
      cases h
    | none =>
      rw [hd] at h
      cases h
      refine ⟨rfl, rfl, rfl, fun _ => nofun, fun _ _ => ⟨?_, nofun⟩⟩
      by_contra hsome
      unfold dateTwice at hd
      rw [if_pos hsome] at hd
      cases hd
  | timeTrig start items =>
    cases start with
    | none =>
      dsimp only [Clause.apply] at h
      cases hi : applyTimeItems items false p.tim with
      | error r =>
        rw [hi] at h
        cases h
      | ok tim =>
        rw [hi] at h
        cases h
        obtain ⟨h1, h2⟩ := applyTimeItems_spec hi
        exact ⟨h1, h2, rfl, id, nofun⟩
    | some v =>
      dsimp only [Clause.apply] at h
      split_ifs at h
      cases hi : applyTimeItems items false
          { p.tim with ttime := storedTime v, ttimeOrig := storedTime v } with
      | error r =>
        rw [hi] at h
        cases h
      | ok tim =>
        rw [hi] at h
        cases h
        obtain ⟨h1, h2⟩ := applyTimeItems_spec hi
        exact ⟨h1, h2, rfl, id, nofun⟩
  | scanfrom type d =>
    cases d with
    | date dse =>
      dsimp only [Clause.apply] at h
      split_ifs at h
      all_goals
        cases h
        exact ⟨rfl, rfl, rfl, id, nofun⟩
    | back v =>
      dsimp only [Clause.apply] at h
      split_ifs at h
      cases h
      exact ⟨rfl, rfl, rfl, id, nofun⟩
  | «omit» wds =>
    dsimp only [Clause.apply] at h
    cases hl : applyLocalOmit wds p.trig.localomit with
    | error r =>
      rw [hl] at h
      cases h
    | ok localomit =>
      rw [hl] at h
      cases h
      exact ⟨rfl, rfl, rfl, id, nofun⟩
  | info s =>
    dsimp only [Clause.apply] at h
    cases hi : appendTrigInfo p.infos s with
    | error r =>
      rw [hi] at h
      cases h
    | ok infos =>
      rw [hi] at h
      cases h
      exact ⟨rfl, rfl, rfl, id, nofun⟩
  | _ =>
    dsimp only [Clause.apply] at h
    try split_ifs at h
    all_goals
      cases h
      exact ⟨rfl, rfl, rfl, by first | exact id | exact fun _ => nofun, nofun⟩

end Step

/-! ### A line -/

section Run

variable {σ : Type} {w : RemConfig σ} {n : ℕ} {cs a b : List Clause} {p p' : ParsedRem}

theorem foldlM_snoc {c : Clause} : (cs ++ [c]).foldlM Clause.apply p = .ok p' ↔
    ∃ q, cs.foldlM Clause.apply p = .ok q ∧ c.apply q = .ok p' := by
  rw [List.foldlM_append]
  cases cs.foldlM Clause.apply p with
  | error r => exact ⟨nofun, fun ⟨_, h, _⟩ => nomatch h⟩
  | ok q =>
    change c.apply q >>= pure = _ ↔ _
    rw [bind_pure]
    exact ⟨fun h => ⟨q, rfl, h⟩, fun ⟨_, h, hc⟩ => Except.ok.inj h ▸ hc⟩

theorem staleDays_snoc_other {c : Clause} (hdays : c.setsDays = false)
    (hdate : ∀ v, c ≠ .dateTime v) : StaleDays (cs ++ [c]) ↔ StaleDays cs := by
  constructor
  · rintro ⟨a, v, b, hcs, hb, hne⟩
    rcases List.eq_nil_or_concat b with rfl | ⟨b, c', rfl⟩
    · exact (hdate v (by simpa using (List.append_inj' hcs rfl).2)).elim
    · rw [List.concat_eq_append, ← List.cons_append, ← List.append_assoc] at hcs
      obtain ⟨rfl, -⟩ := List.append_inj' hcs rfl
      exact ⟨a, v, b, rfl, fun c hc => hb c (by simp [hc]), hne⟩
  · rintro ⟨a, v, b, rfl, hb, hne⟩
    refine ⟨a, v, b ++ [c], by simp, fun c' hc' => ?_, hne⟩
    rcases List.mem_append.mp hc' with hc' | hc'
    · exact hb c' hc'
    · rw [List.mem_singleton.mp hc']
      exact hdays

theorem not_staleDays_snoc {c : Clause} (hdays : c.setsDays = true) : ¬ StaleDays (cs ++ [c]) := by
  rintro ⟨a, v, b, hcs, hb, -⟩
  rcases List.eq_nil_or_concat b with rfl | ⟨b, c', rfl⟩
  · have hc : c = .dateTime v := by simpa using (List.append_inj' hcs rfl).2
    rw [hc] at hdays
    cases hdays
  · rw [List.concat_eq_append, ← List.cons_append, ← List.append_assoc] at hcs
    have hc : c = c' := by simpa using (List.append_inj' hcs rfl).2
    have := hb c' (by simp)
    rw [← hc, hdays] at this
    cases this

theorem staleDays_snoc_dateTime {v : ℤ} (hno : ∀ v, Clause.dateTime v ∉ cs) :
    StaleDays (cs ++ [Clause.dateTime v]) ↔ computeTrigDuration (eventOf cs) ≠
      computeTrigDuration (eventOf (cs ++ [Clause.dateTime v])) := by
  constructor
  · rintro ⟨a, v', b, hcs, hb, hne⟩
    rcases List.eq_nil_or_concat b with rfl | ⟨b, c', rfl⟩
    · obtain ⟨rfl, hv⟩ := List.append_inj' hcs rfl
      rw [hv]
      exact hne
    · rw [List.concat_eq_append, ← List.cons_append, ← List.append_assoc] at hcs
      obtain ⟨rfl, -⟩ := List.append_inj' hcs rfl
      exact (hno v' (by simp)).elim
  · exact fun hne => ⟨cs, v, [], rfl, by simp, hne⟩

/-- What holds after the clauses of a line. -/
structure EventInv (cs : List Clause) (p : ParsedRem) : Prop where
  ttime : p.tim.ttime = (eventOf cs).ttime
  duration : p.tim.duration = (eventOf cs).duration
  day : ∀ v, .dateTime v ∈ cs → p.trig.d ≠ none
  days : p.trig.durationDays = computeTrigDuration p.tim ↔ ¬ StaleDays cs
  fresh : (∀ v, .dateTime v ∉ cs) → ¬ StaleDays cs
  once : ∀ a v b, cs = a ++ Clause.dateTime v :: b → ∀ u, .dateTime u ∉ a
  kept : ∀ a v b, cs = a ++ Clause.dateTime v :: b → (∀ c ∈ b, c.setsDays = false) →
    p.trig.durationDays = computeTrigDuration (eventOf a)

theorem EventInv.due (h : EventInv cs p) :
    computeTrigDuration p.tim = computeTrigDuration (eventOf cs) :=
  computeTrigDuration_congr h.ttime h.duration

/-- One clause. -/
theorem EventInv.step {c : Clause} (h : EventInv cs p) (hs : EventStep c p p') :
    EventInv (cs ++ [c]) p' := by
  have htime : p'.tim.ttime = (eventOf (cs ++ [c])).ttime := by
    rw [eventOf_snoc, hs.ttime, h.ttime]
  have hdur : p'.tim.duration = (eventOf (cs ++ [c])).duration := by
    rw [eventOf_snoc, hs.duration, h.duration]
  have hfresh : (∀ v, Clause.dateTime v ∉ cs ++ [c]) → ¬ StaleDays (cs ++ [c]) := by
    rintro hno ⟨a, v, b, hcs, -⟩
    exact hno v (by rw [hcs]; simp)
  have hold : ∀ v, c = .dateTime v → ∀ u, Clause.dateTime u ∉ cs :=
    fun v hv u hu => h.day u hu (hs.dateTime v hv).1
  refine ⟨htime, hdur, fun v hv => ?_, ?_, hfresh, fun a v b hcs => ?_, fun a v b hcs hb => ?_⟩
  · rcases List.mem_append.mp hv with hv | hv
    · exact hs.day (h.day v hv)
    · exact (hs.dateTime v (List.mem_singleton.mp hv).symm).2
  · by_cases hsets : c.setsDays = true
    · have hdays := hs.days
      rw [if_pos hsets] at hdays
      exact iff_of_true hdays (not_staleDays_snoc hsets)
    have hkept := hs.days
    rw [if_neg hsets] at hkept
    by_cases hdt : ∃ v, c = .dateTime v
    · obtain ⟨v, rfl⟩ := hdt
      have hno := hold v rfl
      rw [staleDays_snoc_dateTime hno, not_ne_iff, hkept, h.days.mpr (h.fresh hno), h.due,
        computeTrigDuration_congr htime hdur]
    · rw [staleDays_snoc_other (by simpa using hsets) (not_exists.mp hdt), ← h.days, hkept]
      have hsame : computeTrigDuration p'.tim = computeTrigDuration p.tim := by
        refine computeTrigDuration_congr (hs.ttime.trans ?_) (hs.duration.trans ?_)
        · cases c with
          | timeTrig start items => exact (hsets rfl).elim
          | dateTime v => exact (hdt ⟨v, rfl⟩).elim
          | _ => rfl
        · cases c with
          | duration v => exact (hsets rfl).elim
          | _ => rfl
      rw [hsame]
  · rcases List.eq_nil_or_concat b with rfl | ⟨b, c', rfl⟩
    · obtain ⟨rfl, hc⟩ := List.append_inj' hcs rfl
      exact hold v (by simpa using hc)
    · rw [List.concat_eq_append, ← List.cons_append, ← List.append_assoc] at hcs
      obtain ⟨hcs, -⟩ := List.append_inj' hcs rfl
      exact h.once a v b hcs
  · rcases List.eq_nil_or_concat b with rfl | ⟨b, c', rfl⟩
    · obtain ⟨rfl, hc⟩ := List.append_inj' hcs rfl
      obtain rfl : c = .dateTime v := by simpa using hc
      have hdays := hs.days
      rw [hdays, if_neg (by simp [Clause.setsDays]), h.days.mpr (h.fresh (hold v rfl)), h.due]
    · rw [List.concat_eq_append, ← List.cons_append, ← List.append_assoc] at hcs
      obtain ⟨hcs', hc⟩ := List.append_inj' hcs rfl
      obtain rfl : c = c' := by simpa using hc
      have hdays := hs.days
      rw [hdays, hb c (by simp)]
      exact h.kept a v b hcs' fun c hc => hb c (by simp [hc])

theorem eventInv_run (h : cs.foldlM Clause.apply (initRem w) = .ok p) : EventInv cs p := by
  induction cs using List.reverseRecOn generalizing p with
  | nil =>
    cases h
    have hno : ¬ StaleDays [] := fun ⟨a, v, b, h, _⟩ => by simp at h
    exact ⟨rfl, rfl, nofun, iff_of_true rfl hno, fun _ => hno, fun a v b h => by simp at h,
      fun a v b h => by simp at h⟩
  | append_singleton cs c ih =>
    obtain ⟨q, hq, hc⟩ := foldlM_snoc.mp h
    exact (ih hq).step (Clause.apply_step hc)

/-! ### The end of the line -/

theorem fixSpecialType_days (t : Trigger) : (fixSpecialType t).durationDays = t.durationDays := by
  unfold fixSpecialType
  split
  · rfl
  · split <;> rfl

theorem adjustLast_event (p : ParsedRem) :
    p.adjustLast.trig.durationDays = p.trig.durationDays ∧ p.adjustLast.tim = p.tim := by
  unfold ParsedRem.adjustLast
  split_ifs
  · split
    · exact ⟨rfl, rfl⟩
    · split_ifs <;> exact ⟨rfl, rfl⟩
  · exact ⟨rfl, rfl⟩

theorem ignoreDelta_event (p : ParsedRem) :
    p.ignoreDelta.trig = p.trig ∧ p.ignoreDelta.tim.ttime = p.tim.ttime ∧
      p.ignoreDelta.tim.duration = p.tim.duration := by
  unfold ParsedRem.ignoreDelta
  split_ifs <;> exact ⟨rfl, rfl, rfl⟩

theorem finishRem_event {ptr : ParserPtr} {r : ParsedRem} (h : finishRem ptr p = .ok r) :
    r.trig.durationDays = p.trig.durationDays ∧ r.tim.ttime = p.tim.ttime ∧
      r.tim.duration = p.tim.duration := by
  unfold finishRem at h
  split_ifs at h
  cases h
  obtain ⟨h1, h2⟩ := adjustLast_event (p.addFlags ptr)
  obtain ⟨h3, h4, h5⟩ := ignoreDelta_event (p.addFlags ptr).adjustLast
  refine ⟨?_, ?_, ?_⟩
  · change (p.addFlags ptr).adjustLast.ignoreDelta.trig.durationDays = _
    rw [h3, h1]
    rfl
  · change (p.addFlags ptr).adjustLast.ignoreDelta.tim.ttime = _
    rw [h4, h2]
    rfl
  · change (p.addFlags ptr).adjustLast.ignoreDelta.tim.duration = _
    rw [h5, h2]
    rfl

theorem finish_event {bd : BodyStart} {nx : RemNext} {ptr : ParserPtr} {r : ParsedRem}
    (hb : bd.apply p = .ok nx) (hf : nx.finish ptr = .ok r) :
    r.trig.durationDays = p.trig.durationDays ∧ r.tim.ttime = p.tim.ttime ∧
      r.tim.duration = p.tim.duration := by
  have hbody : ∀ q, nx = .parsed q ∨ nx = .returned q →
      q.trig.durationDays = p.trig.durationDays ∧ q.tim = p.tim := by
    intro q hq
    cases bd with
    | remType v buf =>
      dsimp only [BodyStart.apply] at hb
      split_ifs at hb
      · cases hb
        rcases hq with hq | hq <;> cases hq
        exact ⟨fixSpecialType_days _, rfl⟩
      · cases hb
        rcases hq with hq | hq <;> cases hq
        exact ⟨fixSpecialType_days _, rfl⟩
    | stopped =>
      dsimp only [BodyStart.apply] at hb
      split_ifs at hb
      cases hb
      rcases hq with hq | hq <;> cases hq
      exact ⟨rfl, rfl⟩
    | _ =>
      cases hb
      rcases hq with hq | hq <;> cases hq
      exact ⟨rfl, rfl⟩
  cases nx with
  | parsing q => exact (BodyStart.apply_ne_parsing hb).elim
  | returned q =>
    cases hf
    obtain ⟨h1, h2⟩ := hbody r (Or.inr rfl)
    exact ⟨h1, by rw [h2], by rw [h2]⟩
  | parsed q =>
    obtain ⟨h1, h2⟩ := hbody q (Or.inl rfl)
    obtain ⟨h3, h4, h5⟩ := finishRem_event hf
    rw [h3, h4, h5, h1, h2]
    exact ⟨rfl, rfl, rfl⟩

end Run

/-! ### Moving the DURATION clause -/

/-- What was parsed but for the duration, which is `d`, and the days of the event. -/
def ParsedRem.forget (d : Option ℤ) (p : ParsedRem) : ParsedRem :=
  { p with trig.durationDays := 0, tim.duration := d }

section Move

variable {d : Option ℤ} {c : Clause} {cs a b : List Clause} {p p' : ParsedRem}

theorem applyTimeItems_duration (items : List TimeItem) (seenDelta : Bool) (tim : TimeTrig) :
    applyTimeItems items seenDelta { tim with duration := d } =
      (applyTimeItems items seenDelta tim).map fun tim => { tim with duration := d } := by
  induction items generalizing seenDelta tim with
  | nil =>
    unfold applyTimeItems
    split_ifs <;> rfl
  | cons item items ih =>
    cases item with
    | time v =>
      dsimp only [applyTimeItems]
      split_ifs
      · rfl
      · exact ih _ { tim with ttime := storedTime v, ttimeOrig := storedTime v }
    | delta v =>
      dsimp only [applyTimeItems]
      by_cases hseen : seenDelta = true
      · rw [if_pos hseen, if_pos hseen]
        rfl
      · rw [if_neg hseen, if_neg hseen]
        exact ih _ { tim with delta := if v ≥ 0 then v else Lib.wrap (-v) }
    | rep v =>
      dsimp only [applyTimeItems]
      split_ifs
      · rfl
      · exact ih _ { tim with rep := v }

/-- Every other clause does the same whatever the duration is. -/
theorem apply_forget (hc : ∀ v, c ≠ .duration v) :
    (c.apply p).map (ParsedRem.forget d) =
      (c.apply (p.forget d)).map (ParsedRem.forget d) := by
  cases c with
  | duration v => exact (hc v rfl).elim
  | date v =>
    have hd : dateTwice (p.forget d).trig = dateTwice p.trig := rfl
    dsimp only [Clause.apply]
    rw [hd]
    cases dateTwice p.trig <;> rfl
  | dateTime v =>
    have hd : dateTwice (p.forget d).trig = dateTwice p.trig := rfl
    dsimp only [Clause.apply]
    rw [hd]
    cases dateTwice p.trig <;> rfl
  | timeTrig start items =>
    cases start with
    | none =>
      have hnew := @applyTimeItems_duration d items false p.tim
      dsimp only [Clause.apply, ParsedRem.forget]
      rw [hnew]
      cases applyTimeItems items false p.tim <;> rfl
    | some v =>
      have hnew := @applyTimeItems_duration d items false
        { p.tim with ttime := storedTime v, ttimeOrig := storedTime v }
      dsimp only [Clause.apply, ParsedRem.forget]
      split_ifs
      · rfl
      · rw [hnew]
        cases applyTimeItems items false
          { p.tim with ttime := storedTime v, ttimeOrig := storedTime v } <;> rfl
  | scanfrom type sd =>
    cases sd <;> dsimp only [Clause.apply, ParsedRem.forget] <;> split_ifs <;> rfl
  | «omit» wds =>
    dsimp only [Clause.apply, ParsedRem.forget]
    cases applyLocalOmit wds p.trig.localomit <;> rfl
  | info s =>
    dsimp only [Clause.apply, ParsedRem.forget]
    cases appendTrigInfo p.infos s <;> rfl
  | _ =>
    dsimp only [Clause.apply, ParsedRem.forget]
    try split_ifs
    all_goals rfl

theorem foldlM_forget (hb : ∀ v, .duration v ∉ b) (hp : p.forget d = p'.forget d) :
    (b.foldlM Clause.apply p).map (ParsedRem.forget d) =
      (b.foldlM Clause.apply p').map (ParsedRem.forget d) := by
  induction b generalizing p p' with
  | nil => exact congrArg Except.ok hp
  | cons c b ih =>
    have hc : (c.apply p).map (ParsedRem.forget d) = (c.apply p').map (ParsedRem.forget d) := by
      have hno : ∀ v, c ≠ .duration v := fun v hv => hb v (by simp [hv])
      rw [apply_forget hno, hp, ← apply_forget hno]
    rw [List.foldlM_cons, List.foldlM_cons]
    cases h1 : c.apply p with
    | error r =>
      cases h2 : c.apply p' with
      | error r' =>
        rw [h1, h2] at hc
        cases hc
        rfl
      | ok q' =>
        rw [h1, h2] at hc
        cases hc
    | ok q =>
      cases h2 : c.apply p' with
      | error r' =>
        rw [h1, h2] at hc
        cases hc
      | ok q' =>
        rw [h1, h2] at hc
        exact ih (fun v hv => hb v (List.mem_cons_of_mem _ hv)) (Except.ok.inj hc)

/-- A DURATION clause may stand anywhere before others. -/
theorem foldlM_duration {v : ℤ} (hb : ∀ v, .duration v ∉ b) :
    ((a ++ .duration v :: b).foldlM Clause.apply p).map (ParsedRem.forget (storedDuration v)) =
      ((a ++ b).foldlM Clause.apply p).map (ParsedRem.forget (storedDuration v)) := by
  rw [List.foldlM_append, List.foldlM_append]
  cases a.foldlM Clause.apply p with
  | error r => rfl
  | ok q =>
    change ((Clause.duration v :: b).foldlM Clause.apply q).map _ = (b.foldlM Clause.apply q).map _
    rw [List.foldlM_cons]
    exact foldlM_forget hb rfl

theorem adjustLast_forget (p : ParsedRem) :
    (p.forget d).adjustLast = p.adjustLast.forget d := by
  unfold ParsedRem.adjustLast
  change (if p.adjForLast then _ else _) = _
  split_ifs
  · cases hm : p.trig.m with
    | none =>
      have hm' : (p.forget d).trig.m = none := hm
      rw [hm']
      rfl
    | some m =>
      have hm' : (p.forget d).trig.m = some m := hm
      rw [hm']
      dsimp only
      split_ifs <;> rfl
  · rfl

theorem ignoreDelta_forget (p : ParsedRem) :
    (p.forget d).ignoreDelta = p.ignoreDelta.forget d := by
  unfold ParsedRem.ignoreDelta
  change (if p.trig.sched ≠ "" then _ else _) = _
  split_ifs <;> rfl

theorem finishRem_forget (ptr : ParserPtr) (p : ParsedRem) :
    (finishRem ptr (p.forget d)).map (ParsedRem.forget d) =
      (finishRem ptr p).map (ParsedRem.forget d) := by
  unfold finishRem
  change Except.map _ (if p.needWkday ∧ p.trig.wd = 0 then _ else _) =
    Except.map _ (if p.needWkday ∧ p.trig.wd = 0 then _ else _)
  split_ifs
  · rfl
  · rw [show (p.forget d).addFlags ptr = (p.addFlags ptr).forget d from rfl, adjustLast_forget,
      ignoreDelta_forget]
    rfl

theorem fixSpecialType_forget (t : Trigger) :
    fixSpecialType { t with durationDays := 0 } = { fixSpecialType t with durationDays := 0 } := by
  unfold fixSpecialType
  dsimp only
  split_ifs
  · rfl
  · split <;> rfl

/-- What follows the clauses. -/
theorem finish_forget (bd : BodyStart) (ptr : ParserPtr) (p : ParsedRem) :
    (bd.apply (p.forget d) >>= RemNext.finish ptr).map (ParsedRem.forget d) =
      (bd.apply p >>= RemNext.finish ptr).map (ParsedRem.forget d) := by
  have htype : ∀ t : Trigger,
      (finishRem ptr { p.forget d with trig := fixSpecialType { t with durationDays := 0 } }).map
          (ParsedRem.forget d) =
        (finishRem ptr { p with trig := fixSpecialType t }).map (ParsedRem.forget d) := by
    intro t
    rw [fixSpecialType_forget]
    exact finishRem_forget ptr { p with trig := fixSpecialType t }
  cases bd with
  | remType v buf =>
    dsimp only [BodyStart.apply]
    split_ifs
    · rfl
    · exact htype { p.trig with typ := v, passthru := String.ofList (strnCpy buf passthruLen) }
    · exact htype { p.trig with typ := v }
  | empty => exact finishRem_forget ptr p
  | implicit => exact finishRem_forget ptr { p with trig.typ := .msg }
  | stopped =>
    dsimp only [BodyStart.apply, ParsedRem.forget]
    split_ifs <;> rfl

theorem fillRem_forget {bd : BodyStart} {ptr : ParserPtr} {cs' : List Clause}
    (h : (cs.foldlM Clause.apply p).map (ParsedRem.forget d) =
      (cs'.foldlM Clause.apply p).map (ParsedRem.forget d)) :
    (fillRem cs bd ptr p).map (ParsedRem.forget d) =
      (fillRem cs' bd ptr p).map (ParsedRem.forget d) := by
  unfold fillRem
  cases h1 : cs.foldlM Clause.apply p with
  | error r =>
    cases h2 : cs'.foldlM Clause.apply p with
    | error r' =>
      rw [h1, h2] at h
      cases h
      rfl
    | ok q' =>
      rw [h1, h2] at h
      cases h
  | ok q =>
    cases h2 : cs'.foldlM Clause.apply p with
    | error r' =>
      rw [h1, h2] at h
      cases h
    | ok q' =>
      rw [h1, h2] at h
      change (bd.apply q >>= RemNext.finish ptr).map _ = (bd.apply q' >>= RemNext.finish ptr).map _
      rw [← finish_forget, Except.ok.inj h, finish_forget]

/-- Only the flags of the parser matter for the end. -/
theorem fillRem_flags {bd : BodyStart} {ptr ptr' : ParserPtr}
    (hnonconst : ptr.nonconstExpr = ptr'.nonconstExpr)
    (hhappened : ptr.exprHappened = ptr'.exprHappened) :
    fillRem cs bd ptr p = fillRem cs bd ptr' p := by
  have hfinish : ∀ q, finishRem ptr q = finishRem ptr' q := by
    intro q
    unfold finishRem ParsedRem.addFlags
    rw [hnonconst, hhappened]
  have hnext : RemNext.finish ptr = RemNext.finish ptr' := by
    funext nx
    cases nx with
    | parsed q => exact hfinish q
    | _ => rfl
  unfold fillRem
  rw [hnext]

theorem ParsedRem.eq_of_forget {r r' : ParsedRem} (h : r.forget d = r'.forget d)
    (hd : r.tim.duration = d) (hd' : r'.tim.duration = d)
    (hdays : r.trig.durationDays = r'.trig.durationDays) : r = r' := by
  have hback : ∀ q : ParsedRem, q.tim.duration = d →
      { q.forget d with trig.durationDays := q.trig.durationDays } = q := by
    rintro q rfl
    rfl
  rw [← hback r hd, ← hback r' hd', h, hdays]

theorem foldl_timeAfter_duration {v : ℤ} {t : Option ℤ} :
    (a ++ .duration v :: b).foldl Clause.timeAfter t = (a ++ b).foldl Clause.timeAfter t := by
  rw [List.foldl_append, List.foldl_append]
  rfl

theorem foldl_durationAfter {x : Option ℤ} (hb : ∀ v, .duration v ∉ b) :
    b.foldl Clause.durationAfter x = x := by
  induction b generalizing x with
  | nil => rfl
  | cons c b ih =>
    have hc : c.durationAfter x = x := by
      cases c with
      | duration v => exact (hb v (by simp)).elim
      | _ => rfl
    rw [List.foldl_cons, hc]
    exact ih fun v hv => hb v (List.mem_cons_of_mem _ hv)

/-- The last DURATION clause gives the duration. -/
theorem eventOf_duration {v : ℤ} (hb : ∀ v, .duration v ∉ b) :
    eventOf (a ++ .duration v :: b) =
      { ttime := (eventOf (a ++ b)).ttime, duration := storedDuration v } := by
  have hdur : (a ++ .duration v :: b).foldl Clause.durationAfter none = storedDuration v := by
    rw [List.foldl_append, List.foldl_cons]
    exact foldl_durationAfter hb
  unfold eventOf
  rw [hdur, foldl_timeAfter_duration]

/-- The days of a stale event are those that the clauses before the date-time token make. -/
theorem EventInv.stale_days {v : ℤ} (h : EventInv (a ++ .duration v :: b) p)
    (hb : ∀ v, .duration v ∉ b) (hstale : StaleDays (a ++ .duration v :: b)) :
    ∃ x u y, a ++ b = x ++ Clause.dateTime u :: y ∧ (∀ u, Clause.dateTime u ∉ x) ∧
      p.trig.durationDays =
        computeTrigDuration { ttime := (eventOf x).ttime, duration := storedDuration v } := by
  obtain ⟨x, u, y, hcs, hy, -⟩ := hstale
  have hdays := h.kept x u y hcs hy
  have honce := h.once x u y hcs
  rcases List.append_eq_append_iff.mp hcs with ⟨c, rfl, hc⟩ | ⟨c, rfl, hc⟩
  · cases c with
    | nil => simp at hc
    | cons c₀ c =>
      obtain ⟨rfl, rfl⟩ := List.cons.inj hc
      refine ⟨a ++ c, u, y, by simp, fun u hu => honce u ?_, ?_⟩
      · simpa using hu
      · rw [hdays, eventOf_duration fun v hv => hb v (by simp [hv])]
  · cases c with
    | nil => simp at hc
    | cons c₀ c =>
      obtain ⟨rfl, rfl⟩ := List.cons.inj hc
      have := hy (.duration v) (by simp)
      cases this

/-- The first date-time token of a line stands at one place. -/
theorem dateTime_unique {x y x' y' : List Clause} {u u' : ℤ}
    (h : x ++ .dateTime u :: y = x' ++ .dateTime u' :: y') (hx : ∀ u, Clause.dateTime u ∉ x)
    (hx' : ∀ u, Clause.dateTime u ∉ x') : x = x' := by
  rcases List.append_eq_append_iff.mp h with ⟨c, rfl, hc⟩ | ⟨c, rfl, hc⟩
  · cases c with
    | nil => simp
    | cons c₀ c =>
      obtain ⟨rfl, -⟩ := List.cons.inj hc
      exact (hx' u (by simp)).elim
  · cases c with
    | nil => simp
    | cons c₀ c =>
      obtain ⟨rfl, -⟩ := List.cons.inj hc
      exact (hx u' (by simp)).elim

end Move

section Order

variable {σ : Type} {w : RemConfig σ} {n : ℕ} {cs a b a' b' : List Clause} {bd : BodyStart}
  {ptr ptr' : ParserPtr} {r r' : ParsedRem} {v : ℤ}

theorem fillRem_parts (h : fillRem cs bd ptr (initRem w) = .ok r) :
    ∃ p, EventInv cs p ∧ r.trig.durationDays = p.trig.durationDays ∧
      r.tim.ttime = p.tim.ttime ∧ r.tim.duration = p.tim.duration := by
  unfold fillRem at h
  cases hcs : cs.foldlM Clause.apply (initRem w) with
  | error e =>
    rw [hcs] at h
    cases h
  | ok p =>
    rw [hcs] at h
    change bd.apply p >>= RemNext.finish ptr = .ok r at h
    cases hb : bd.apply p with
    | error e =>
      rw [hb] at h
      cases h
    | ok nx =>
      rw [hb] at h
      exact ⟨p, eventInv_run hcs, finish_event hb h⟩

theorem fillRem_days_iff (h : fillRem cs bd ptr (initRem w) = .ok r) :
    r.trig.durationDays = computeTrigDuration r.tim ↔ ¬ StaleDays cs := by
  obtain ⟨p, hp, hdays, htime, hdur⟩ := fillRem_parts h
  rw [hdays, computeTrigDuration_congr htime hdur, hp.days]

/-- The same clauses with the DURATION clause at another place. -/
theorem fillRem_move (hno : ∀ v, .duration v ∉ a ++ b) (hab : a ++ b = a' ++ b')
    (hnonconst : ptr.nonconstExpr = ptr'.nonconstExpr)
    (hhappened : ptr.exprHappened = ptr'.exprHappened)
    (h : fillRem (a ++ .duration v :: b) bd ptr (initRem w) = .ok r) :
    ∃ r', fillRem (a' ++ .duration v :: b') bd ptr' (initRem w) = .ok r' ∧
      (r' = r ↔ (StaleDays (a ++ .duration v :: b) ↔ StaleDays (a' ++ .duration v :: b'))) := by
  have hb : ∀ v, .duration v ∉ b := fun v hv => hno v (List.mem_append_right _ hv)
  have hb' : ∀ v, .duration v ∉ b' := fun v hv => hno v (hab ▸ List.mem_append_right _ hv)
  have hsame : (fillRem (a' ++ .duration v :: b') bd ptr' (initRem w)).map
      (ParsedRem.forget (storedDuration v)) = .ok (r.forget (storedDuration v)) := by
    have hfold := (@foldlM_duration a b (initRem w) v hb).trans
      (hab ▸ (@foldlM_duration a' b' (initRem w) v hb').symm)
    rw [← fillRem_flags hnonconst hhappened, ← fillRem_forget hfold, h]
    rfl
  cases hr' : fillRem (a' ++ .duration v :: b') bd ptr' (initRem w) with
  | error e =>
    rw [hr'] at hsame
    cases hsame
  | ok r' =>
    rw [hr'] at hsame
    have hforget : r'.forget (storedDuration v) = r.forget (storedDuration v) :=
      Except.ok.inj hsame
    obtain ⟨p, hp, hdays, htime, hdur⟩ := fillRem_parts h
    obtain ⟨p', hp', hdays', htime', hdur'⟩ := fillRem_parts hr'
    have hd : r.tim.duration = storedDuration v := by
      rw [hdur, hp.duration, eventOf_duration hb]
    have hd' : r'.tim.duration = storedDuration v := by
      rw [hdur', hp'.duration, eventOf_duration hb']
    have htim : r'.tim.ttime = r.tim.ttime := by
      have hkeep := congrArg (fun q : ParsedRem => q.tim.ttime) hforget
      exact hkeep
    have hdue : computeTrigDuration r'.tim = computeTrigDuration r.tim :=
      computeTrigDuration_congr htim (hd'.trans hd.symm)
    refine ⟨r', rfl, ?_, fun hiff => ParsedRem.eq_of_forget hforget hd' hd ?_⟩
    · rintro rfl
      rw [← not_iff_not, ← fillRem_days_iff h, ← fillRem_days_iff hr']
    · by_cases hstale : StaleDays (a ++ .duration v :: b)
      · obtain ⟨x, u, y, hx, hxno, hxd⟩ := hp.stale_days hb hstale
        obtain ⟨x', u', y', hx', hxno', hxd'⟩ := hp'.stale_days hb' (hiff.mp hstale)
        obtain rfl := dateTime_unique (hx.symm.trans (hab.trans hx')) hxno hxno'
        rw [hdays', hxd', hdays, hxd]
      · rw [(fillRem_days_iff hr').mpr (mt hiff.mpr hstale), (fillRem_days_iff h).mpr hstale, hdue]

/-- **The length of an event follows from its clauses unless a date-time token made it stale.**
`ParseRem` leaves the days of the time and the duration in `duration_days` if and only if the line
is not stale, and the DURATION clause may be moved if and only if that makes no line stale that was
not, or the other way round. -/
theorem parseRem_durationDays_iff (w : RemConfig σ) (n : ℕ) :
    (∀ (s s' : PtrState σ) (r : ParsedRem), parseRem w n s = .ok r s' →
      ∃ cs bd, readLine w n n s = .ok (cs, bd) s' ∧
        (r.trig.durationDays = computeTrigDuration r.tim ↔ ¬ StaleDays cs)) ∧
    ∀ (s₁ s₁' s₂ s₂' : PtrState σ) (r : ParsedRem) (a b a' b' : List Clause) (v : ℤ)
      (bd : BodyStart), (∀ v, .duration v ∉ a ++ b) → a ++ b = a' ++ b' →
      readLine w n n s₁ = .ok (a ++ .duration v :: b, bd) s₁' →
      readLine w n n s₂ = .ok (a' ++ .duration v :: b', bd) s₂' →
      s₁'.ptr.nonconstExpr = s₂'.ptr.nonconstExpr → s₁'.ptr.exprHappened = s₂'.ptr.exprHappened →
      parseRem w n s₁ = .ok r s₁' →
      ∃ r', parseRem w n s₂ = .ok r' s₂' ∧
        (r' = r ↔ (StaleDays (a ++ .duration v :: b) ↔ StaleDays (a' ++ .duration v :: b'))) := by
  constructor
  · intro s s' r h
    obtain ⟨cs, bd, hline, hfill⟩ := parseRem_eq_ok.mp h
    exact ⟨cs, bd, hline, fillRem_days_iff hfill⟩
  · intro s₁ s₁' s₂ s₂' r a b a' b' v bd hno hab hline hline' hnonconst hhappened h
    obtain ⟨cs, bd', hline₁, hfill⟩ := parseRem_eq_ok.mp h
    cases hline.symm.trans hline₁
    obtain ⟨r', hr', hiff⟩ := fillRem_move hno hab hnonconst hhappened hfill
    exact ⟨r', parseRem_eq_ok.mpr ⟨_, _, hline', hr'⟩, hiff⟩

end Order

/-! ### A date-time token behind DURATION -/

/-- Lines without expressions. -/
def plainConfig : RemConfig Unit where
  evalExpr s world := ((.error .parseErr, s), world)
  text := {}

/-- A parser at the start of a line. -/
def atStart (line : String) : PtrState Unit := ⟨createParser line.toList, ()⟩

/-- The days that `ParseRem` stores for a line, and those of its time and duration. -/
def daysOfLine (line : String) : Option (ℤ × ℤ) :=
  match parseRem plainConfig 60 (atStart line) with
  | .ok r _ => some (r.trig.durationDays, computeTrigDuration r.tim)
  | .error _ _ => none

theorem daysOfLine_some {line : String} {x y : ℤ} (h : daysOfLine line = some (x, y)) :
    ∃ r s', parseRem plainConfig 60 (atStart line) = .ok r s' ∧ r.trig.durationDays = x ∧
      computeTrigDuration r.tim = y := by
  unfold daysOfLine at h
  cases hr : parseRem plainConfig 60 (atStart line) with
  | error e s => simp [hr] at h
  | ok r s' =>
    simp only [hr, Option.some.injEq, Prod.mk.injEq] at h
    exact ⟨r, s', rfl, h.1, h.2⟩

/-- The clauses of a line, and the flags of the parser behind them. -/
def clausesOfLine (line : String) : Option (List Clause × BodyStart × Bool × Bool) :=
  match readLine plainConfig 60 60 (atStart line) with
  | .ok (cs, bd) s' => some (cs, bd, s'.ptr.nonconstExpr, s'.ptr.exprHappened)
  | .error _ _ => none

theorem clausesOfLine_some {line : String} {cs : List Clause} {bd : BodyStart} {x y : Bool}
    (h : clausesOfLine line = some (cs, bd, x, y)) :
    ∃ s', readLine plainConfig 60 60 (atStart line) = .ok (cs, bd) s' ∧
      s'.ptr.nonconstExpr = x ∧ s'.ptr.exprHappened = y := by
  unfold clausesOfLine at h
  cases hr : readLine plainConfig 60 60 (atStart line) with
  | error e s => simp [hr] at h
  | ok l s' =>
    simp only [hr, Option.some.injEq, Prod.mk.injEq] at h
    exact ⟨s', by rw [← h.1, ← h.2.1], h.2.2.1, h.2.2.2⟩

theorem parseRem_durationDays_iff_trip :
    ∃ s₁' s₂' r r',
      parseRem plainConfig 60 (atStart "DURATION 25:00 2024-01-01@10:00 MSG Trip") = .ok r s₁' ∧
      parseRem plainConfig 60 (atStart "2024-01-01@10:00 DURATION 25:00 MSG Trip") = .ok r' s₂' ∧
      (r.trig.durationDays = computeTrigDuration r.tim ↔
        ¬ StaleDays [.duration 1500, .dateTime 17882520]) ∧
      (r' = r ↔ (StaleDays [.duration 1500, .dateTime 17882520] ↔
        StaleDays [.dateTime 17882520, .duration 1500])) := by
  obtain ⟨r, s₁', h, -⟩ := @daysOfLine_some "DURATION 25:00 2024-01-01@10:00 MSG Trip" 0 1
    (by decide +kernel)
  obtain ⟨t₁, h₁, hn₁, hx₁⟩ := @clausesOfLine_some "DURATION 25:00 2024-01-01@10:00 MSG Trip"
    [.duration 1500, .dateTime 17882520] (.remType .msg []) false false (by decide +kernel)
  obtain ⟨t₂, h₂, hn₂, hx₂⟩ := @clausesOfLine_some "2024-01-01@10:00 DURATION 25:00 MSG Trip"
    [.dateTime 17882520, .duration 1500] (.remType .msg []) false false (by decide +kernel)
  obtain ⟨cs, bd, hline, hiff⟩ := (parseRem_durationDays_iff plainConfig 60).1 _ _ _ h
  cases hline.symm.trans h₁
  obtain ⟨r', hr', hsame⟩ := (parseRem_durationDays_iff plainConfig 60).2 _ _ _ _ r []
    [.dateTime 17882520] [.dateTime 17882520] [] 1500 _ (by simp) rfl h₁ h₂ (hn₁.trans hn₂.symm)
    (hx₁.trans hx₂.symm) h
  exact ⟨_, _, r, r', h, hr', hiff, hsame⟩

/-- An event of 25 hours from ten o'clock on lasts to the next day; with DURATION first it is
stored as one of a single day. -/
theorem durationFirst_stale :
    (∃ r s', parseRem plainConfig 60 (atStart "DURATION 25:00 2024-01-01@10:00 MSG Trip") =
        .ok r s' ∧ r.trig.durationDays ≠ computeTrigDuration r.tim) ∧
    ∃ r s', parseRem plainConfig 60 (atStart "2024-01-01@10:00 DURATION 25:00 MSG Trip") =
        .ok r s' ∧ r.trig.durationDays = computeTrigDuration r.tim := by
  constructor
  · obtain ⟨r, s', h, h1, h2⟩ := @daysOfLine_some "DURATION 25:00 2024-01-01@10:00 MSG Trip" 0 1
      (by decide +kernel)
    exact ⟨r, s', h, by rw [h1, h2]; decide⟩
  · obtain ⟨r, s', h, h1, h2⟩ := @daysOfLine_some "2024-01-01@10:00 DURATION 25:00 MSG Trip" 1 1
      (by decide +kernel)
    exact ⟨r, s', h, by rw [h1, h2]⟩

end Remind
