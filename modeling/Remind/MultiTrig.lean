import Remind.LastTrig

/-!
# MultiTrig — the earliest of several triggers (funcs.c: `FMultiTrig`)

An argument gives a date, a negative one if it is expired, or none if it is uncomputable.  The loop
starts over at every expired argument, so that its result is the least date behind the last of them.
-/

namespace Remind

open Lib (Yields)

/-- What one argument of `FMultiTrig` makes of the earliest date. -/
def earlier (d : Option ℤ) (earliest : ℤ) : ℤ :=
  match d with
  | none => earliest
  | some d => if d < earliest ∨ earliest < 0 then d else earliest

/-- The arguments behind the last expired one, from the last one on. -/
def behindExpired (ds : List (Option ℤ)) : List (Option ℤ) :=
  ds.reverse.takeWhile fun d => d.all (0 ≤ ·)

/-- The least date from day 0 on of a list, where it has one. -/
def Least (ds : List (Option ℤ)) (r : ℤ) : Prop := IsLeast {d | 0 ≤ d ∧ some d ∈ ds} r

section Fold

variable {ds : List (Option ℤ)}

theorem foldr_earlier (ds : List (Option ℤ)) :
    (0 ≤ ds.foldr earlier (-1) ∧
        Least (ds.takeWhile fun d => d.all (0 ≤ ·)) (ds.foldr earlier (-1))) ∨
      (ds.foldr earlier (-1) < 0 ∧
        ∀ d, some d ∈ ds.takeWhile (fun d => d.all (0 ≤ ·)) → d < 0) := by
  induction ds with
  | nil => exact Or.inr ⟨by decide, by simp⟩
  | cons d ds ih =>
    rw [List.foldr_cons]
    cases d with
    | none =>
      have hmem : ∀ x, some x ∈ (none :: ds).takeWhile (fun d => d.all (0 ≤ ·)) ↔
          some x ∈ ds.takeWhile fun d => d.all (0 ≤ ·) := by
        intro x
        simp
      unfold Least at ih ⊢
      simp only [hmem]
      exact ih
    | some d =>
      by_cases hd : 0 ≤ d
      · have hmem : ∀ x, some x ∈ (some d :: ds).takeWhile (fun d => d.all (0 ≤ ·)) ↔
            x = d ∨ some x ∈ ds.takeWhile fun d => d.all (0 ≤ ·) := by
          intro x
          simp [hd]
        unfold Least at ih ⊢
        simp only [hmem, earlier]
        rcases ih with ⟨h0, ⟨-, hin⟩, hleast⟩ | ⟨hneg, hnone⟩
        · refine Or.inl ⟨by split_ifs <;> omega, ⟨by split_ifs <;> omega, ?_⟩, ?_⟩
          · split_ifs
            · exact Or.inl rfl
            · exact Or.inr hin
          · rintro x ⟨hx0, rfl | hx⟩
            · split_ifs <;> omega
            · have := hleast ⟨hx0, hx⟩
              split_ifs <;> omega
        · rw [if_pos (Or.inr hneg)]
          refine Or.inl ⟨hd, ⟨hd, Or.inl rfl⟩, ?_⟩
          rintro x ⟨hx0, rfl | hx⟩
          · exact le_refl x
          · have := hnone x hx
            omega
      · refine Or.inr ⟨?_, by simp [hd]⟩
        unfold earlier
        dsimp only
        split_ifs <;> omega

/-- The result is the least date behind the last expired argument, or date 0. -/
theorem foldl_earlier_iff {r : ℤ} :
    (if ds.foldl (fun a d => earlier d a) (-1) ≥ 0 then ds.foldl (fun a d => earlier d a) (-1)
      else 0) = r ↔
    Least (behindExpired ds) r ∨ ((∀ d, some d ∈ behindExpired ds → d < 0) ∧ r = 0) := by
  have h := foldr_earlier ds.reverse
  rw [List.foldr_reverse] at h
  unfold behindExpired
  rcases h with ⟨h0, hleast⟩ | ⟨hneg, hnone⟩
  · rw [if_pos h0]
    constructor
    · rintro rfl
      exact Or.inl hleast
    · rintro (h | ⟨hnone, -⟩)
      · exact IsLeast.unique hleast h
      · have := hnone _ hleast.1.2
        omega
  · rw [if_neg (by omega)]
    constructor
    · exact fun h => Or.inr ⟨hnone, h.symm⟩
    · rintro (h | ⟨-, rfl⟩)
      · have h0 := h.1.1
        have := hnone _ h.1.2
        omega
      · rfl

/-- The arguments behind the last expired one are arguments. -/
theorem mem_of_behindExpired {d : Option ℤ} (h : d ∈ behindExpired ds) : d ∈ ds :=
  List.mem_reverse.mp ((List.takeWhile_sublist _).subset h)

/-- The least date of all is the result where one as early stands behind every expired argument. -/
theorem least_iff_behind :
    (∀ r, Least (behindExpired ds) r ∨ ((∀ d, some d ∈ behindExpired ds → d < 0) ∧ r = 0) →
      Least ds r ∨ ((∀ d, some d ∈ ds → d < 0) ∧ r = 0)) ↔
    ∀ d, 0 ≤ d → some d ∈ ds →
      (∃ d', 0 ≤ d' ∧ d' ≤ d ∧ some d' ∈ behindExpired ds) ∨
        ((∀ d', some d' ∈ behindExpired ds → d' < 0) ∧ some 0 ∈ ds) := by
  constructor
  · intro h d hd hmem
    rcases (@foldl_earlier_iff ds _).mp rfl with hleast | hnone
    · rcases h _ (Or.inl hleast) with hall | ⟨hall, -⟩
      · exact Or.inl ⟨_, hleast.1.1, hall.2 ⟨hd, hmem⟩, hleast.1.2⟩
      · have := hall d hmem
        omega
    · rcases h _ (Or.inr hnone) with hall | ⟨hall, -⟩
      · exact Or.inr ⟨hnone.1, hnone.2 ▸ hall.1.2⟩
      · have := hall d hmem
        omega
  · rintro h r (hleast | ⟨hnone, rfl⟩)
    · refine Or.inl ⟨⟨hleast.1.1, mem_of_behindExpired hleast.1.2⟩, ?_⟩
      rintro d ⟨hd, hmem⟩
      rcases h d hd hmem with ⟨d', hd', hle, hmem'⟩ | ⟨hnone, -⟩
      · exact (hleast.2 ⟨hd', hmem'⟩).trans hle
      · have := hnone r hleast.1.2
        have := hleast.1.1
        omega
    · by_cases hlive : ∃ d, 0 ≤ d ∧ some d ∈ ds
      · obtain ⟨d, hd, hmem⟩ := hlive
        rcases h d hd hmem with ⟨d', hd', -, hmem'⟩ | ⟨-, hzero⟩
        · have := hnone d' hmem'
          omega
        · exact Or.inl ⟨⟨le_refl 0, hzero⟩, fun x hx => hx.1⟩
      · refine Or.inr ⟨fun d hmem => ?_, rfl⟩
        by_contra hd
        exact hlive ⟨d, by omega, hmem⟩

end Fold

/-! ### The function -/

section Function

variable {e : RemEnv Id} {parseRem : String → Except ErrCode (Trigger × TimeTrig)} {today : ℤ}

/-- The date of an argument of `FMultiTrig`, negative if it is expired; `none` if it is
uncomputable. -/
def multiTrigDate (e : RemEnv Id) (today : ℤ) (p : Trigger × TimeTrig) : Option ℤ :=
  let c : Computed := computeTrigger e (getScanfrom e.modes.calmode today p.1) p.1 p.2
  if c.err = some .cantTrig then none else some c.result

/-- What `FMultiTrig` accepts as an argument. -/
def MultiTrigArg (parseRem : String → Except ErrCode (Trigger × TimeTrig)) (s : String)
    (p : Trigger × TimeTrig) : Prop :=
  parseTrigArg parseRem s = .ok p ∧ p.2.ttime = none

theorem MultiTrigArg.noTz {s : String} {p : Trigger × TimeTrig} (h : MultiTrigArg parseRem s p) :
    p.1.tz = none := by
  obtain ⟨hparse, htime⟩ := h
  unfold parseTrigArg at hparse
  cases hrem : parseRem s with
  | error r => rw [hrem] at hparse; cases hparse
  | ok q =>
    rw [hrem] at hparse
    dsimp only at hparse
    split_ifs at hparse with htz
    cases hparse
    by_contra hne
    exact htz ⟨hne, htime⟩

theorem multiTrigLoop_yields {P : LastInfo → Prop} {args : List String}
    {ps : List (Trigger × TimeTrig)} (h : List.Forall₂ (MultiTrigArg parseRem) args ps)
    (earliest : ℤ) :
    Yields P (.ok ((ps.map (multiTrigDate e today)).foldl (fun a d => earlier d a) earliest))
      (multiTrigLoop e parseRem today args earliest) := by
  induction h generalizing earliest with
  | nil => exact .of_pure _
  | @cons s p args ps harg _ ih =>
    have hsafe : Safe e P p.1 p.2 := fun htz => absurd harg.noTz htz
    obtain ⟨hparse, htime⟩ := harg
    unfold multiTrigLoop
    rw [hparse]
    dsimp only
    rw [if_neg (not_not.mpr htime)]
    refine .of_bind (computeTriggerSaving_yields hsafe) ?_
    rw [List.map_cons, List.foldl_cons]
    have hstep : earlier (multiTrigDate e today p) earliest =
        if (computeTrigger e (getScanfrom e.modes.calmode today p.1) p.1 p.2 : Computed).err ≠
            some .cantTrig ∧
          ((computeTrigger e (getScanfrom e.modes.calmode today p.1) p.1 p.2 : Computed).result <
            earliest ∨ earliest < 0) then
          (computeTrigger e (getScanfrom e.modes.calmode today p.1) p.1 p.2 : Computed).result
        else earliest := by
      unfold multiTrigDate
      generalize (computeTrigger e (getScanfrom e.modes.calmode today p.1) p.1 p.2 : Computed) = c
      by_cases hc : c.err = some .cantTrig
      · simp [earlier, hc]
      · simp [earlier, hc]
    rw [hstep]
    exact ih _

theorem fMultitrig_yields {P : LastInfo → Prop} {args : List String}
    {ps : List (Trigger × TimeTrig)} (h : List.Forall₂ (MultiTrigArg parseRem) args ps) :
    Yields P (.ok (.date
        (if (ps.map (multiTrigDate e today)).foldl (fun a d => earlier d a) (-1) ≥ 0 then
          (ps.map (multiTrigDate e today)).foldl (fun a d => earlier d a) (-1) else 0)))
      (fMultitrig e parseRem today (args.map .str)) := by
  unfold fMultitrig
  rw [strArgs_map]
  exact .of_bind (multiTrigLoop_yields h (-1)) (.of_pure _)

/-- **multitrig()** is the least date of its arguments exactly where, for every argument with a
date, one that is not later stands behind all expired arguments. -/
theorem fMultitrig_least_iff {args : List String} {ps : List (Trigger × TimeTrig)}
    (h : List.Forall₂ (MultiTrigArg parseRem) args ps) (g : LastInfo) :
    (∃ r, (fMultitrig e parseRem today (args.map .str) g).1 = .ok (.date r) ∧
      (Least (ps.map (multiTrigDate e today)) r ∨
        ((∀ d, some d ∈ ps.map (multiTrigDate e today) → d < 0) ∧ r = 0))) ↔
    ∀ d, 0 ≤ d → some d ∈ ps.map (multiTrigDate e today) →
      (∃ d', 0 ≤ d' ∧ d' ≤ d ∧ some d' ∈ behindExpired (ps.map (multiTrigDate e today))) ∨
        ((∀ d', some d' ∈ behindExpired (ps.map (multiTrigDate e today)) → d' < 0) ∧
          some 0 ∈ ps.map (multiTrigDate e today)) := by
  have hval := (@fMultitrig_yields e _ today _ _ _ h).value g
  rw [hval, ← least_iff_behind]
  constructor
  · rintro ⟨r, hr, hleast⟩ r' hr'
    cases hr
    rw [← foldl_earlier_iff.mpr hr']
    exact hleast
  · exact fun hall => ⟨_, rfl, hall _ (foldl_earlier_iff.mp rfl)⟩

end Function

/-- `ParseRem` on two full dates. -/
def parseTwoDates (s : String) : Except ErrCode (Trigger × TimeTrig) :=
  if s = "5 Jan 2026" then .ok ({ d := some 5, m := some 0, y := some 2026 }, {})
  else if s = "1 Jan 1991" then .ok ({ d := some 1, m := some 0, y := some 1991 }, {})
  else .error .parseErr

/-- What `parseTwoDates` makes of the dates: on 1 January 2026 the second is expired. -/
theorem parseTwoDates_args :
    MultiTrigArg parseTwoDates "5 Jan 2026" ({ d := some 5, m := some 0, y := some 2026 }, {}) ∧
      MultiTrigArg parseTwoDates "1 Jan 1991" ({ d := some 1, m := some 0, y := some 1991 }, {}) ∧
      multiTrigDate (plainEnv {} 13149).toRemEnv 13149
        ({ d := some 5, m := some 0, y := some 2026 }, {}) = some 13153 ∧
      multiTrigDate (plainEnv {} 13149).toRemEnv 13149
        ({ d := some 1, m := some 0, y := some 1991 }, {}) = some (-1) :=
  ⟨⟨rfl, rfl⟩, ⟨rfl, rfl⟩, by decide +kernel, by decide +kernel⟩

theorem fMultitrig_least_iff_expiredFirst :
    ∃ r, (fMultitrig (plainEnv {} 13149).toRemEnv parseTwoDates 13149
        (["1 Jan 1991", "5 Jan 2026"].map .str) {}).1 = .ok (.date r) ∧
      (Least [some (-1), some 13153] r ∨
        ((∀ d, some d ∈ [some (-1), some (13153 : ℤ)] → d < 0) ∧ r = 0)) := by
  obtain ⟨h1, h2, hd1, hd2⟩ := parseTwoDates_args
  have h := @fMultitrig_least_iff (plainEnv {} 13149).toRemEnv parseTwoDates 13149 _ _
    (.cons h2 (.cons h1 .nil)) {}
  simp only [List.map_cons, List.map_nil, hd1, hd2] at h
  refine h.mpr fun d hd hmem => Or.inl ⟨13153, by omega, ?_, by decide⟩
  simp at hmem
  omega

/-- An expired argument behind the live one makes the result date 0. -/
theorem multitrig_expired_last :
    ¬ ∃ r, (fMultitrig (plainEnv {} 13149).toRemEnv parseTwoDates 13149
        (["5 Jan 2026", "1 Jan 1991"].map .str) {}).1 = .ok (.date r) ∧
      (Least [some 13153, some (-1)] r ∨
        ((∀ d, some d ∈ [some (13153 : ℤ), some (-1)] → d < 0) ∧ r = 0)) := by
  obtain ⟨h1, h2, hd1, hd2⟩ := parseTwoDates_args
  have h := (@fMultitrig_yields (plainEnv {} 13149).toRemEnv parseTwoDates 13149
    (fun _ => True) _ _ (.cons h1 (.cons h2 .nil))).value {}
  simp only [List.map_cons, List.map_nil, hd1, hd2] at h
  rw [List.map_cons, List.map_cons, List.map_nil, h]
  rintro ⟨r, hr, hleast | ⟨hall, -⟩⟩
  · cases hr
    have hmem := hleast.1.2
    simp [earlier] at hmem
  · exact absurd (hall 13153 (by simp)) (by decide)

end Remind
