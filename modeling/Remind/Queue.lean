import Mathlib.Order.Bounds.Basic
import Remind.Lib.CInt
import Remind.Lib.Trace
import Remind.Trigger

/-!
# Queue — when a queued reminder is issued next (queue.c: `CalculateNextDtime`)

Times are minutes since the start of 1 January 1990.  The clock and the evaluator are operations on a
world; what a SCHED function returns is any value or error, and other each time.
-/

namespace Remind

/-- `QueuedRem`, with the fields of its time trigger; `nextdtime` is `none` for `NO_DATETIME`, and
`sched` is empty where there is no SCHED function. -/
structure QueuedRem where
  dse : ℤ
  ttime : ℤ
  delta : ℤ
  rep : ℤ
  nextdtime : Option ℤ := none
  ntrig : ℤ := 0
  sched : String := ""
  runDisabled : Bool := false
  deriving DecidableEq

/-- `SystemDateTime(1)`, `UserFuncExists(f) == 1` and `EvalExpr` of the call of a user function with
an INT, with RUN disabled or not. -/
structure QueueEnv (σ : Type) where
  systemDateTime : σ → ℤ × σ
  userFuncExists : String → Bool
  evalSched : Bool → String → ℤ → σ → Except ErrCode Value × σ

/-- `GetQDateTime` -/
def QueuedRem.dateTime (q : QueuedRem) : ℤ := q.dse * minutesPerDay + q.ttime

section Next

variable {σ : Type} (env : QueueEnv σ)

/-- `q->sched[0] = 0; return NO_DATETIME` -/
def QueuedRem.dropSched (q : QueuedRem) : Option ℤ × QueuedRem := (none, { q with sched := "" })

/-- What a value of the SCHED function stands for, behind `LastDTime`; a time before the beginning is
the beginning. -/
def QueuedRem.schedTime (q : QueuedRem) (last : ℤ) : Value → Option ℤ
  | .time v => some (max 0 (q.dse * minutesPerDay + v))
  | .int v =>
    if v > 0 ∧ last ≥ 0 then some (max 0 (Lib.wrap (last + v)))
    else some (max 0 (Lib.wrap (q.dateTime + v)))
  | _ => none

/-- `ThisDTime > q->tt.nextdtime && ThisDTime >= SystemDateTime(1)` -/
def QueuedRem.isDue (q : QueuedRem) (this : ℤ) (w : σ) : Bool × σ :=
  if this > q.nextdtime.getD (-1) then
    let (now, w) := env.systemDateTime w
    (decide (this ≥ now), w)
  else (false, w)

/-- The loop of `CalculateNextDtimeUsingSched`; `LastDTime` gets later in every round. -/
def schedLoop (q : QueuedRem) (last : ℤ) (w : σ) : (Option ℤ × QueuedRem) × σ :=
  match env.evalSched q.runDisabled q.sched q.ntrig w with
  | (.error _, w) => (q.dropSched, w)
  | (.ok v, w) =>
    match q.schedTime last v with
    | none => (q.dropSched, w)
    | some this =>
      if _hday : this / minutesPerDay > q.dse then ((none, q), w)
      else
        match q.isDue env this w with
        | (true, w) => ((some this, q), w)
        | (false, w) =>
          if _hlast : this ≤ last then (q.dropSched, w)
          else schedLoop { q with ntrig := q.ntrig + 1 } this w
termination_by ((q.dse + 1) * minutesPerDay - last).toNat
decreasing_by
  unfold minutesPerDay at *
  omega

/-- `CalculateNextDtimeUsingSched` -/
def calculateNextDtimeUsingSched (q : QueuedRem) (w : σ) : (Option ℤ × QueuedRem) × σ :=
  if env.userFuncExists q.sched then schedLoop env q (q.nextdtime.getD (-1)) w
  else (q.dropSched, w)

/-- `if (dtim < t) dtim += ((t - dtim) / rep) * rep; if (dtim < t) dtim += rep;` -/
def advanceTo (rep t dtim : ℤ) : ℤ :=
  let dtim := if dtim < t then dtim + (t - dtim).tdiv rep * rep else dtim
  if dtim < t then dtim + rep else dtim

/-- `CalculateNextDtime` where the SCHED function has no say. -/
def QueuedRem.nextByRep (q : QueuedRem) (curdtime now : ℤ) : Option ℤ :=
  if q.delta = 0 then if q.dateTime < curdtime then none else some q.dateTime
  else
    let rep := if q.rep = 0 then q.delta else q.rep
    let dtim := advanceTo rep now (advanceTo rep curdtime (q.dateTime - q.delta))
    let dtim := if dtim > q.dateTime then q.dateTime else dtim
    if dtim < curdtime then none else some dtim

/-- The time from which on `CalculateNextDtime` looks: behind the last one, or the first. -/
def QueuedRem.curdtime (q : QueuedRem) : ℤ :=
  match q.nextdtime with
  | none => q.dateTime - q.delta
  | some t => t + 1

/-- `CalculateNextDtime` -/
def calculateNextDtime (q : QueuedRem) (w : σ) : (Option ℤ × QueuedRem) × σ :=
  let (now, w) := env.systemDateTime w
  let curdtime := q.curdtime
  let q := { q with ntrig := q.ntrig + 1 }
  if q.sched = "" then ((q.nextByRep curdtime now, q), w)
  else
    match calculateNextDtimeUsingSched env q w with
    | ((some r, q), w) => ((some r, q), w)
    | ((none, q), w) => ((q.nextByRep curdtime now, q), w)

end Next

/-! ### The SCHED function -/

section Sched

variable {σ : Type} {env : QueueEnv σ} {q q' : QueuedRem} {w w' : σ} {last this r : ℤ}

theorem isDue_spec (h : q.isDue env this w = (true, w')) :
    q.nextdtime.getD (-1) < this ∧ ∃ w₁ now, env.systemDateTime w₁ = (now, w') ∧ now ≤ this := by
  unfold QueuedRem.isDue at h
  split_ifs at h with hlate
  swap
  · cases h
  refine ⟨hlate, w, (env.systemDateTime w).1, ?_⟩
  rcases hclock : env.systemDateTime w with ⟨now, w₂⟩
  rw [hclock] at h
  simp only [Prod.mk.injEq, decide_eq_true_eq] at h
  exact ⟨by rw [h.2], h.1⟩

/-- What the loop returns is later than the last time, not past the day, and not before what the clock
shows when it is returned. -/
theorem schedLoop_some (h : schedLoop env q last w = ((some r, q'), w')) :
    q.nextdtime.getD (-1) < r ∧ r < (q.dse + 1) * minutesPerDay ∧
      ∃ w₁ now, env.systemDateTime w₁ = (now, w') ∧ now ≤ r := by
  fun_induction schedLoop env q last w with
  | case1 => cases h
  | case2 => cases h
  | case3 => cases h
  | case4 q last w v w₁ _ this _ hday w₂ hdue =>
    cases h
    obtain ⟨hlate, hnow⟩ := isDue_spec hdue
    refine ⟨hlate, ?_, hnow⟩
    unfold minutesPerDay at *
    omega
  | case5 => cases h
  | case6 _ _ _ _ _ _ _ _ _ _ _ _ ih => exact ih h

/-- The loop calls the function once for each minute that is left at most. -/
theorem schedLoop_calls {o : Option ℤ} (h : schedLoop env q last w = ((o, q'), w')) :
    q'.ntrig ≤ q.ntrig + ((q.dse + 1) * minutesPerDay - 1 - last).toNat := by
  fun_induction schedLoop env q last w with
  | case1 =>
    cases h
    exact Int.le_add_of_nonneg_right (Int.natCast_nonneg _)
  | case2 =>
    cases h
    exact Int.le_add_of_nonneg_right (Int.natCast_nonneg _)
  | case3 =>
    cases h
    exact Int.le_add_of_nonneg_right (Int.natCast_nonneg _)
  | case4 =>
    cases h
    exact Int.le_add_of_nonneg_right (Int.natCast_nonneg _)
  | case5 =>
    cases h
    exact Int.le_add_of_nonneg_right (Int.natCast_nonneg _)
  | case6 q last w v w₁ _ this _ hday w₂ _ hlast ih =>
    have hrest := ih h
    unfold minutesPerDay at *
    dsimp only at hrest
    omega

/-- **CalculateNextDtimeUsingSched** comes to an end whatever the SCHED function returns, and a time
that it returns is later than the last one, not before the current time and not past the day. -/
theorem calculateNextDtimeUsingSched_progress (env : QueueEnv σ) (q : QueuedRem) (w : σ) :
    ∃ o q' w', calculateNextDtimeUsingSched env q w = ((o, q'), w') ∧
      q'.ntrig ≤ q.ntrig + ((q.dse + 1) * minutesPerDay - 1 - q.nextdtime.getD (-1)).toNat ∧
      ∀ r, o = some r → (∀ p, q.nextdtime = some p → p < r) ∧
        (∃ w₁ now, env.systemDateTime w₁ = (now, w') ∧ now ≤ r) ∧
        r ≤ q.dse * minutesPerDay + 1439 := by
  unfold calculateNextDtimeUsingSched
  split_ifs with hexists
  · rcases hloop : schedLoop env q (q.nextdtime.getD (-1)) w with ⟨⟨o, q'⟩, w'⟩
    refine ⟨o, q', w', rfl, schedLoop_calls hloop, ?_⟩
    rintro r rfl
    obtain ⟨hlate, hday, hnow⟩ := schedLoop_some hloop
    refine ⟨fun p hp => ?_, hnow, ?_⟩
    · rw [hp] at hlate
      exact hlate
    · unfold minutesPerDay at *
      omega
  · refine ⟨none, _, w, rfl, ?_, nofun⟩
    exact Int.le_add_of_nonneg_right (Int.natCast_nonneg _)

end Sched

/-! ### Repeats -/

section Repeats

variable {rep t x c now : ℤ}

/-- The points from `x` on in steps of `rep` that are not before `t`. -/
def RepeatsFrom (rep x t : ℤ) : Set ℤ := {y | (∃ k : ℕ, y = x + k * rep) ∧ t ≤ y}

theorem advanceTo_isLeast (hrep : 0 < rep) : IsLeast (RepeatsFrom rep x t) (advanceTo rep t x) := by
  unfold advanceTo
  by_cases hlt : x < t
  · have hdiv : (t - x).tdiv rep = (t - x) / rep := Int.tdiv_eq_ediv_of_nonneg (by omega)
    have hsplit := Int.emod_add_ediv_mul (t - x) rep
    have hmod := Int.emod_nonneg (t - x) (ne_of_gt hrep)
    have hmod' := Int.emod_lt_of_pos (t - x) hrep
    have hquot : 0 ≤ (t - x) / rep := Int.ediv_nonneg (by omega) (by omega)
    obtain ⟨q, hq⟩ := Int.eq_ofNat_of_zero_le hquot
    simp only [if_pos hlt, hdiv]
    rw [hq] at hsplit ⊢
    split_ifs with hshort
    · -- `t` lies between two of the points
      refine ⟨⟨⟨q + 1, ?_⟩, by omega⟩, ?_⟩
      · push_cast
        rw [Int.add_mul, Int.one_mul]
        omega
      · rintro y ⟨⟨k, rfl⟩, hk⟩
        have hqk : (q : ℤ) < k := Int.lt_of_mul_lt_mul_right (by omega) hrep.le
        have hmul := Int.mul_le_mul_of_nonneg_right (show (q : ℤ) + 1 ≤ k by omega) hrep.le
        rw [Int.add_mul, Int.one_mul] at hmul
        omega
    · refine ⟨⟨⟨q, rfl⟩, by omega⟩, ?_⟩
      rintro y ⟨-, hy⟩
      omega
  · simp only [if_neg hlt]
    refine ⟨⟨⟨0, by simp⟩, by omega⟩, ?_⟩
    rintro y ⟨⟨k, rfl⟩, -⟩
    have hk : 0 ≤ (k : ℤ) * rep := Int.mul_nonneg (Int.natCast_nonneg k) hrep.le
    omega

/-- Two advances are one to the later of the two times. -/
theorem advanceTo_twice (hrep : 0 < rep) :
    IsLeast (RepeatsFrom rep x (max c now)) (advanceTo rep now (advanceTo rep c x)) := by
  obtain ⟨⟨⟨k, hk⟩, hc⟩, hleast⟩ := @advanceTo_isLeast rep c x hrep
  obtain ⟨⟨⟨j, hj⟩, hnow⟩, hleast'⟩ := @advanceTo_isLeast rep now (advanceTo rep c x) hrep
  have hstep : 0 ≤ (j : ℤ) * rep := Int.mul_nonneg (Int.natCast_nonneg j) hrep.le
  refine ⟨⟨⟨k + j, ?_⟩, max_le (by omega) hnow⟩, ?_⟩
  · rw [hj, hk]
    push_cast
    rw [Int.add_mul]
    omega
  · rintro y ⟨⟨n, rfl⟩, hy⟩
    have hfirst : advanceTo rep c x ≤ x + n * rep :=
      hleast ⟨⟨n, rfl⟩, le_trans (le_max_left _ _) hy⟩
    have hkn : (k : ℤ) ≤ n := Int.le_of_mul_le_mul_right (by omega) hrep
    refine hleast' ⟨⟨n - k, ?_⟩, le_trans (le_max_right _ _) hy⟩
    rw [hk, Int.ofNat_sub (by omega), Int.sub_mul]
    omega

end Repeats

section NextTime

variable {σ : Type} {env : QueueEnv σ} {q q' : QueuedRem} {w w' : σ} {r now : ℤ}

/-- `rep`, which is `delta` if no repeat is given. -/
def QueuedRem.repeatOrDelta (q : QueuedRem) : ℤ := if q.rep = 0 then q.delta else q.rep

/-- `r` is the next time of a reminder that is issued from `c` on at the latest at its own time. -/
def NextTime (q : QueuedRem) (c now r : ℤ) : Prop :=
  if q.delta = 0 then r = q.dateTime
  else
    ∃ l, IsLeast (RepeatsFrom q.repeatOrDelta (q.dateTime - q.delta) (max c now)) l ∧
      r = min q.dateTime l

theorem nextByRep_spec (hdelta : 0 ≤ q.delta) (hrep : 0 ≤ q.rep) (c now : ℤ) :
    (q.nextByRep c now = none ↔ c > q.dateTime) ∧
      (c ≤ q.dateTime → ∃ r, q.nextByRep c now = some r ∧ NextTime q c now r) := by
  unfold QueuedRem.nextByRep NextTime
  by_cases hzero : q.delta = 0
  · simp only [if_pos hzero]
    constructor
    · split_ifs <;> simp <;> omega
    · intro hc
      exact ⟨_, if_neg (by omega), rfl⟩
  · have hpos : 0 < q.repeatOrDelta := by
      unfold QueuedRem.repeatOrDelta
      split_ifs <;> omega
    unfold QueuedRem.repeatOrDelta at hpos ⊢
    generalize (if q.rep = 0 then q.delta else q.rep) = rep at hpos ⊢
    have hleast := @advanceTo_twice rep (q.dateTime - q.delta) c now hpos
    have hc := le_trans (le_max_left c now) hleast.1.2
    simp only [if_neg hzero]
    generalize advanceTo rep now (advanceTo rep c (q.dateTime - q.delta)) = l at hleast hc ⊢
    have hmin : (if l > q.dateTime then q.dateTime else l) = min q.dateTime l := by
      rw [min_def]
      split_ifs <;> omega
    rw [hmin]
    constructor
    · split_ifs with hlt
      · refine iff_of_true rfl ?_
        rw [min_lt_iff] at hlt
        omega
      · refine iff_of_false nofun ?_
        have := min_le_left q.dateTime l
        omega
    · intro hcq
      have hle : c ≤ min q.dateTime l := le_min hcq hc
      exact ⟨_, if_neg (by omega), l, hleast, rfl⟩

theorem NextTime.bounds {c : ℤ} (h : NextTime q c now r) (hc : c ≤ q.dateTime) :
    c ≤ r ∧ r ≤ q.dateTime := by
  unfold NextTime at h
  split_ifs at h
  · omega
  · obtain ⟨l, hl, rfl⟩ := h
    exact ⟨le_min hc (le_trans (le_max_left _ _) hl.1.2), min_le_left _ _⟩

theorem calculateNextDtime_plain (hsched : q.sched = "") : calculateNextDtime env q w =
    ((q.nextByRep q.curdtime (env.systemDateTime w).1, { q with ntrig := q.ntrig + 1 }),
      (env.systemDateTime w).2) := by
  unfold calculateNextDtime
  simp only [hsched, if_true]
  rfl

/-- A call of `CalculateNextDtime` that returns a time, which becomes the next time of the reminder. -/
inductive NextCall (env : QueueEnv σ) : QueuedRem → Option ℤ → QueuedRem → Prop
  | call {q q' : QueuedRem} {w w' : σ} {r : ℤ} :
      calculateNextDtime env q w = ((some r, q'), w') →
      NextCall env q (some r) { q' with nextdtime := some r }

/-- The reminder, but for its next time and the number of calls. -/
def QueuedRem.clauses (q : QueuedRem) : QueuedRem := { q with nextdtime := none, ntrig := 0 }

/-- One call, where there is no SCHED function. -/
theorem NextCall.inv {o : Option ℤ} (h : NextCall env q o q') (hsched : q.sched = "")
    (hdelta : 0 ≤ q.delta) (hrep : 0 ≤ q.rep) :
    ∃ r, o = some r ∧ q.curdtime ≤ r ∧ r ≤ q.dateTime ∧ q'.curdtime = r + 1 ∧
      q'.nextdtime = some r ∧ q'.clauses = q.clauses := by
  cases h with
  | @call q' w _ r hcall =>
    rw [calculateNextDtime_plain hsched] at hcall
    simp only [Prod.mk.injEq] at hcall
    obtain ⟨⟨hres, rfl⟩, -⟩ := hcall
    obtain ⟨hnone, hsome⟩ := nextByRep_spec hdelta hrep q.curdtime (env.systemDateTime w).1
    have hc : q.curdtime ≤ q.dateTime := by
      by_contra hlt
      rw [hnone.mpr (by omega)] at hres
      cases hres
    obtain ⟨r', hr', hnext⟩ := hsome hc
    rw [hr'] at hres
    cases hres
    obtain ⟨hge, hle⟩ := hnext.bounds hc
    exact ⟨r, rfl, hge, hle, rfl, rfl, rfl⟩

/-- Successive calls. -/
theorem nextCalls_inv {rs : List ℤ} (h : Lib.Trace (NextCall env) q rs q') (hsched : q.sched = "")
    (hdelta : 0 ≤ q.delta) (hrep : 0 ≤ q.rep) :
    rs.Pairwise (· < ·) ∧ (∀ r ∈ rs, q.curdtime ≤ r ∧ r ≤ q.dateTime) ∧
      q'.clauses = q.clauses ∧ (rs = [] → q' = q) ∧
      ∀ r, rs.getLast? = some r → q'.nextdtime = some r := by
  induction h with
  | nil q => exact ⟨.nil, by simp, rfl, fun _ => rfl, by simp⟩
  | @cons q u q' o rs hcall _ ih =>
    obtain ⟨r, rfl, hge, hle, hcur, hnext, hsame⟩ := hcall.inv hsched hdelta hrep
    have hfields := QueuedRem.mk.inj hsame
    obtain ⟨hdse, htime, hdelta', hrep', -, -, hsched', -⟩ := hfields
    obtain ⟨hpair, hall, hkeep, hnil, hlast⟩ :=
      ih (hsched'.trans hsched) (by omega) (by omega)
    have hdate : u.dateTime = q.dateTime := by
      unfold QueuedRem.dateTime
      rw [hdse, htime]
    rw [hcur, hdate] at hall
    refine ⟨?_, ?_, hkeep.trans hsame, by simp, fun r' hr' => ?_⟩
    · refine List.pairwise_cons.mpr ⟨fun y hy => ?_, hpair⟩
      have := (hall y hy).1
      omega
    · refine List.forall_mem_cons.mpr ⟨⟨hge, hle⟩, fun y hy => ?_⟩
      have := hall y hy
      omega
    · cases rs with
      | nil =>
        rw [hnil rfl]
        simp only [Option.toList_some, List.append_nil, List.getLast?_singleton] at hr'
        rw [← hr', hnext]
      | cons y ys => exact hlast r' (by simpa using hr')

/-- AT 12:00 +60 *25 on 1 January 1990. -/
def noonEvent : QueuedRem := { dse := 0, ttime := 720, delta := 60, rep := 25 }

/-- The clock shows 11:30. -/
def halfPastEleven : QueueEnv Unit where
  systemDateTime w := (690, w)
  userFuncExists _ := false
  evalSched _ _ _ w := (.error .swerr, w)

example : (calculateNextDtime halfPastEleven noonEvent ()).1.1 = some 710 := by decide

end NextTime

end Remind
