import Remind.CalendarTrig

/-!
# AnchoredTrig — a day together with a weekday set (`NextSimpleTrig`, `GOT_DAY` and `GOT_WD`)

The dates are anchored: from every date with the given day (and month or year) move forward to the
first day of the weekday set.  With the month free or given, the search is right.  With the year
given it is right except in three places, which `AnchoredYearOk` names: the anchor of December
that falls into the next year, the January after that year, and 29 February.
-/

namespace Remind

/-- The anchored dates of the day `td`, one for each month of `P` that has the day. -/
def anchoredIn (P : ℤ → Prop) (td : ℤ) (wd : WdSet) : Set ℤ :=
  {n | ∃ N, baseMonth ≤ N ∧ P N ∧ td ≤ monthLen N ∧ FirstOn wd (monthStart N + td - 1) n}

section Anchored

variable {start td tm ty : ℤ} {wd : WdSet} {P : ℤ → Prop}

theorem mem_simpleDates_anchored {t : Trigger} (hwd : t.wd ≠ 0) (hd : t.d = some td)
    (h1 : 1 ≤ td) {n : ℤ} :
    n ∈ simpleDates t ↔ n ∈ anchoredIn (fun N => (∀ x, t.m = some x → N % 12 = x) ∧
      (∀ x, t.y = some x → N / 12 = x)) td t.wd := by
  unfold simpleDates anchoredIn
  rw [if_pos ⟨by simp [hd], hwd⟩, hd]
  constructor
  · rintro ⟨b, hb, hfirst⟩
    obtain ⟨N, hN, hlen, rfl, hm, hy⟩ := (matchesParts_day h1).mp hb
    exact ⟨N, hN, ⟨hm, hy⟩, hlen, hfirst⟩
  · rintro ⟨N, hN, ⟨hm, hy⟩, hlen, hfirst⟩
    exact ⟨_, (matchesParts_day h1).mpr ⟨N, hN, hlen, rfl, hm, hy⟩, hfirst⟩

/-- Anchors keep the order of their months. -/
theorem anchor_mono {K C r n : ℤ} (hK : baseMonth ≤ K) (hKC : K ≤ C)
    (hr : FirstOn wd (monthStart K + td - 1) r) (hn : FirstOn wd (monthStart C + td - 1) n) :
    r ≤ n := by
  have hb := baseMonth_ge
  have := monthStart_mono (M := K) (N := C) (by omega) hKC
  exact hr.mono hn (by omega)

/-- An anchor leaves its month by at most six days. -/
theorem anchor_lt (hwd : wd ≠ 0) {C M r : ℤ} (hC : baseMonth ≤ C) (hCM : C + 2 ≤ M)
    (hlen : td ≤ monthLen C) (hr : FirstOn wd (monthStart C + td - 1) r) : r < monthStart M := by
  have hb := baseMonth_ge
  have h6 := hr.le_add hwd
  have h1 := monthStart_succ (M := C) (by omega)
  have h2 := monthStart_add_monthLen_le (M := C + 1) (N := M) (by omega) (by omega)
  have h3 := monthLen_bounds (C + 1)
  omega

/-- The anchor of month `K` is the answer when it is not too early and all earlier ones are. -/
theorem anchored_least {K r : ℤ} (hK : baseMonth ≤ K) (hP : P K) (hlen : td ≤ monthLen K)
    (hr : FirstOn wd (monthStart K + td - 1) r) (hsr : start ≤ r)
    (hearly : ∀ C n, baseMonth ≤ C → P C → td ≤ monthLen C → C < K →
      FirstOn wd (monthStart C + td - 1) n → n < start) :
    IsLeast {n | n ∈ anchoredIn P td wd ∧ start ≤ n} r := by
  refine ⟨⟨⟨K, hK, hP, hlen, hr⟩, hsr⟩, ?_⟩
  rintro n ⟨⟨C, hC, hPC, hClen, hn⟩, hsn⟩
  by_cases hCK : C < K
  · have := hearly C n hC hPC hClen hCK hn
    omega
  · exact anchor_mono hK (by omega) hr hn

/-- `tryMonth` looks at the anchor of one month. -/
theorem tryMonth_spec (start td : ℤ) (hwd : wd ≠ 0) {y m : ℤ} (h0 : 0 ≤ m) (h11 : m ≤ 11) :
    ∃ o, tryMonth start y m td wd = some o ∧
      (td ≤ monthLen (monthNo y m) → ∃ r, FirstOn wd (monthStart (monthNo y m) + td - 1) r ∧
        o = if r ≥ start then some r else none) ∧
      (¬ td ≤ monthLen (monthNo y m) → o = none) := by
  unfold tryMonth
  rw [monthLen_monthNo h0 h11, ← dse_eq_monthStart h0 h11]
  split_ifs with hlen
  · obtain ⟨r, hr, hfirst⟩ := advanceToWd_spec hwd (dse y m td)
    exact ⟨if r ≥ start then some r else none, by simp [hr], fun _ => ⟨r, hfirst, rfl⟩,
      fun h => (h hlen).elim⟩
  · exact ⟨none, rfl, fun h => (hlen h).elim, fun _ => rfl⟩

/-- What `tryMonth` says about its month: it returns that anchor, or the anchor is too early. -/
theorem tryMonth_cases (start td : ℤ) (hwd : wd ≠ 0) {y m : ℤ} (h0 : 0 ≤ m) (h11 : m ≤ 11) :
    (∃ r, tryMonth start y m td wd = some (some r) ∧ td ≤ monthLen (monthNo y m) ∧
        FirstOn wd (monthStart (monthNo y m) + td - 1) r ∧ start ≤ r) ∨
      (tryMonth start y m td wd = some none ∧ ∀ n, td ≤ monthLen (monthNo y m) →
        FirstOn wd (monthStart (monthNo y m) + td - 1) n → n < start) := by
  obtain ⟨o, ho, hyes, hno⟩ := tryMonth_spec start td hwd (y := y) h0 h11
  by_cases hlen : td ≤ monthLen (monthNo y m)
  · obtain ⟨r, hr, rfl⟩ := hyes hlen
    by_cases hsr : r ≥ start
    · rw [if_pos hsr] at ho
      exact Or.inl ⟨r, ho, hlen, hr, hsr⟩
    · rw [if_neg hsr] at ho
      refine Or.inr ⟨ho, fun n _ hn => ?_⟩
      rw [← hr.unique hn]
      omega
  · rw [hno hlen] at ho
    exact Or.inr ⟨ho, fun n h => (hlen h).elim⟩

/-- "Try this month" and "Try next avail. month", once the previous month is out. -/
theorem thisOrNextAvail_spec (hwd : wd ≠ 0) (h31 : td ≤ 31) (h1 : 1 ≤ td) {M d : ℤ}
    (hM : baseMonth ≤ M) (hhi : start < monthStart M + monthLen M)
    (hearly : ∀ C n, baseMonth ≤ C → td ≤ monthLen C → C < M →
      FirstOn wd (monthStart C + td - 1) n → n < start) :
    ∃ j, thisOrNextAvail start ⟨M / 12, M % 12, d⟩ td wd = some j ∧
      IsLeast {n | n ∈ anchoredIn (fun _ => True) td wd ∧ start ≤ n} j := by
  have hb := baseMonth_ge
  have hMno : monthNo (M / 12) (M % 12) = M := by unfold monthNo; omega
  unfold thisOrNextAvail
  rcases tryMonth_cases start td hwd (y := M / 12) (m := M % 12)
    (by omega) (by omega) with ⟨r, hr, hlen, hfirst, hsr⟩ | ⟨hnone, hthis⟩
  · rw [hMno] at hlen hfirst
    exact ⟨r, by simp [hr], anchored_least hM trivial hlen hfirst hsr
      fun C n hC _ hClen hCM hn => hearly C n hC hClen hCM hn⟩
  · rw [hMno] at hthis
    have hnext : (if M % 12 + 1 > 11 then ((0 : ℤ), M / 12 + 1) else (M % 12 + 1, M / 12)) =
        ((M + 1) % 12, (M + 1) / 12) := by
      split_ifs <;> simp only [Prod.mk.injEq] <;> omega
    obtain ⟨z, hz, hz11, ⟨hmz, hzlen⟩, hleast⟩ := nextMonthWith_spec
      (m := (M + 1) % 12) (by omega) (by omega) h31 ((M + 1) / 12)
    obtain ⟨r, hr, hfirst⟩ := advanceToWd_spec hwd (dse ((M + 1) / 12) z td)
    refine ⟨r, by simp only [hnone, hnext, hz, hr, Option.bind_eq_bind, Option.bind_some], ?_⟩
    rw [dse_eq_monthStart (by omega) hz11] at hfirst
    obtain ⟨K, hK⟩ : ∃ K, K = monthNo ((M + 1) / 12) z := ⟨_, rfl⟩
    rw [← hK] at hfirst
    have hMK : M + 1 ≤ K := by unfold monthNo at hK; omega
    have hKlen : td ≤ monthLen K := by rw [hK, monthLen_monthNo (by omega) hz11]; exact hzlen
    have hafter := monthStart_add_monthLen_le (M := M) (N := K) (by omega) (by omega)
    have hle := hfirst.le
    refine anchored_least (by omega) trivial hKlen hfirst (by omega) ?_
    intro C n hC _ hClen hCK hn
    by_cases hCM : C < M
    · exact hearly C n hC hClen hCM hn
    · by_cases hCM' : C = M
      · subst hCM'
        exact hthis n hClen hn
      · -- a month between this one and `K` does not have the day
        exfalso
        have hCy : C / 12 = (M + 1) / 12 := by unfold monthNo at hK; omega
        have := hleast ⟨show (M + 1) % 12 ≤ C % 12 by omega,
          by unfold monthLen at hClen; rwa [hCy] at hClen⟩
        unfold monthNo at hK
        omega

/-- `case GOT_DAY+GOT_WD` -/
theorem nextDayWd_spec (hwd : wd ≠ 0) (hs : 0 ≤ start) (h31 : td ≤ 31) (h1 : 1 ≤ td) :
    ∃ j, nextDayWd start (fromDSE start) td wd = some j ∧
      IsLeast {n | n ∈ anchoredIn (fun _ => True) td wd ∧ start ≤ n} j := by
  have hb := baseMonth_ge
  obtain ⟨M, hM, hlo, hhi, he⟩ := fromDSE_month hs
  have hold : ∀ C n, baseMonth ≤ C → td ≤ monthLen C → C + 2 ≤ M →
      FirstOn wd (monthStart C + td - 1) n → n < start := fun C n hC hlen hCM hn => by
    have := anchor_lt hwd hC hCM hlen hn
    omega
  unfold nextDayWd
  simp only [he]
  by_cases hfirstMonth : M % 12 ≠ 0 ∨ M / 12 > baseYr
  · rw [if_pos hfirstMonth]
    have hMb : baseMonth ≤ M - 1 := by unfold baseMonth at *; omega
    have hprevNo : (if M % 12 - 1 < 0 then ((11 : ℤ), M / 12 - 1) else (M % 12 - 1, M / 12)) =
        ((M - 1) % 12, (M - 1) / 12) := by
      split_ifs <;> simp only [Prod.mk.injEq] <;> omega
    have hMno' : monthNo ((M - 1) / 12) ((M - 1) % 12) = M - 1 := by unfold monthNo; omega
    rcases tryMonth_cases start td hwd (y := (M - 1) / 12) (m := (M - 1) % 12)
      (by omega) (by omega) with ⟨r, hr, hlen, hfirst, hsr⟩ | ⟨hnone, hprev⟩
    · rw [hMno'] at hlen hfirst
      refine ⟨r, by simp only [hprevNo, hr, Option.bind_eq_bind, Option.bind_some]; rfl,
        anchored_least hMb trivial hlen hfirst hsr ?_⟩
      exact fun C n hC _ hClen hCM hn => hold C n hC hClen (by omega) hn
    · rw [hMno'] at hprev
      obtain ⟨j, hj, hl⟩ := thisOrNextAvail_spec (d := start - monthStart M + 1)
        hwd h31 h1 hM hhi fun C n hC hlen hCM hn => by
          by_cases hC1 : C = M - 1
          · subst hC1
            exact hprev n hlen hn
          · exact hold C n hC hlen (by omega) hn
      exact ⟨j, by simp only [hprevNo, hnone, Option.bind_eq_bind, Option.bind_some]; exact hj, hl⟩
  · rw [if_neg hfirstMonth]
    exact thisOrNextAvail_spec hwd h31 h1 hM hhi
      fun C n hC _ hCM => by unfold baseMonth at *; omega

/-- `case GOT_DAY+GOT_MON+GOT_WD`, for a day that the month has in some year. -/
theorem nextDayMonWd_spec (hwd : wd ≠ 0) (hs : 0 ≤ start) (h0 : 0 ≤ tm) (h11 : tm ≤ 11)
    (h1 : 1 ≤ td) (htd : td ≤ monthDays tm) :
    ∃ j, nextDayMonWd start (fromDSE start) td tm wd = some j ∧
      IsLeast {n | n ∈ anchoredIn (fun N => N % 12 = tm) td wd ∧ start ≤ n} j := by
  have hb := baseMonth_ge
  obtain ⟨M, hM, hlo, hhi, he⟩ := fromDSE_month hs
  obtain ⟨Y0, hY0⟩ : ∃ Y0, Y0 = if M / 12 > baseYr then M / 12 - 1 else M / 12 := ⟨_, rfl⟩
  have hbase : baseMonth = 12 * baseYr := rfl
  have hY0b : baseYr ≤ Y0 := by rw [hY0]; split_ifs <;> omega
  obtain ⟨Y1, hY1, ⟨hY01, hlen1⟩, hleast1⟩ := nextYearWith_spec htd Y0
  obtain ⟨Y2, hY2, ⟨hY12, hlen2⟩, hleast2⟩ := nextYearWith_spec htd (Y1 + 1)
  obtain ⟨Y3, hY3, ⟨hY23, hlen3⟩, hleast3⟩ := nextYearWith_spec htd (Y2 + 1)
  obtain ⟨j1, hj1, hf1⟩ := advanceToWd_spec hwd (dse Y1 tm td)
  obtain ⟨j2, hj2, hf2⟩ := advanceToWd_spec hwd (dse Y2 tm td)
  obtain ⟨j3, hj3, hf3⟩ := advanceToWd_spec hwd (dse Y3 tm td)
  have hno : ∀ Y, monthNo Y tm = 12 * Y + tm := fun _ => rfl
  -- the months with the day, in order: those before `Y0`, `Y1`, `Y2`, then `Y3`
  have hmonths : ∀ C n, baseMonth ≤ C → C % 12 = tm → td ≤ monthLen C →
      FirstOn wd (monthStart C + td - 1) n →
      n < start ∨ C = monthNo Y1 tm ∨ C = monthNo Y2 tm ∨ monthNo Y3 tm ≤ C := by
    intro C n hC hCm hClen hn
    have hClen' : td ≤ daysInMonth tm (C / 12) := by unfold monthLen at hClen; rwa [hCm] at hClen
    by_cases hold : C / 12 < Y0
    · have hCM : C + 2 ≤ M := by split_ifs at hY0 <;> omega
      have := anchor_lt hwd hC hCM hClen hn
      exact Or.inl (by omega)
    · have hge1 := hleast1 ⟨show Y0 ≤ C / 12 by omega, hClen'⟩
      by_cases h1C : C / 12 = Y1
      · exact Or.inr (Or.inl (by rw [hno]; omega))
      · have hge2 := hleast2 ⟨show Y1 + 1 ≤ C / 12 by omega, hClen'⟩
        by_cases h2C : C / 12 = Y2
        · exact Or.inr (Or.inr (Or.inl (by rw [hno]; omega)))
        · have hge3 := hleast3 ⟨show Y2 + 1 ≤ C / 12 by omega, hClen'⟩
          exact Or.inr (Or.inr (Or.inr (by rw [hno]; omega)))
  have hanchor : ∀ Y j, baseYr ≤ Y → td ≤ daysInMonth tm Y → FirstOn wd (dse Y tm td) j →
      baseMonth ≤ monthNo Y tm ∧ td ≤ monthLen (monthNo Y tm) ∧
        FirstOn wd (monthStart (monthNo Y tm) + td - 1) j := by
    intro Y j hY hlen hf
    rw [dse_eq_monthStart h0 h11] at hf
    rw [monthLen_monthNo h0 h11, hno]
    exact ⟨by omega, hlen, hf⟩
  obtain ⟨hb1, hl1, hf1'⟩ := hanchor Y1 j1 (by omega) hlen1 hf1
  obtain ⟨hb2, hl2, hf2'⟩ := hanchor Y2 j2 (by omega) hlen2 hf2
  obtain ⟨hb3, hl3, hf3'⟩ := hanchor Y3 j3 (by omega) hlen3 hf3
  unfold nextDayMonWd
  simp only [he]
  rw [← hY0]
  simp only [hY1, hj1, hY2, hj2, hY3, hj3, Option.bind_eq_bind, Option.bind_some, Option.pure_def]
  split_ifs with hs1 hs2
  · refine ⟨j1, rfl, anchored_least hb1 (monthNo_mod h0 h11) hl1 hf1' hs1 ?_⟩
    intro C n hC hCm hClen hCK hn
    rcases hmonths C n hC hCm hClen hn with h | h | h | h
    · exact h
    all_goals rw [hno] at *; omega
  · refine ⟨j2, rfl, anchored_least hb2 (monthNo_mod h0 h11) hl2 hf2' hs2 ?_⟩
    intro C n hC hCm hClen hCK hn
    rcases hmonths C n hC hCm hClen hn with h | h | h | h
    · exact h
    · subst h
      rw [hn.unique hf1']
      omega
    all_goals rw [hno] at *; omega
  · have hafter := monthStart_add_monthLen_le (M := M) (N := monthNo Y3 tm) (by omega)
      (by rw [hno]; split_ifs at hY0 <;> omega)
    have hle3 := hf3'.le
    refine ⟨j3, rfl, anchored_least hb3 (monthNo_mod h0 h11) hl3 hf3' (by omega) ?_⟩
    intro C n hC hCm hClen hCK hn
    rcases hmonths C n hC hCm hClen hn with h | h | h | h
    · exact h
    · subst h
      rw [hn.unique hf1']
      omega
    · subst h
      rw [hn.unique hf2']
      omega
    · omega

/-- The anchored date of day `td` of month `m` in year `ty`. -/
def anchorIn (ty td : ℤ) (wd : WdSet) (m : ℤ) : ℤ := firstOn wd (dse ty m td)

/-- The month before December that has the day `td`. -/
def lastBeforeDec (td : ℤ) : ℤ := if td ≤ 30 then 10 else 9

/-- Where `case GOT_WD+GOT_YR+GOT_DAY` is right: not at the end of the year when the anchor of
December is next and falls into the new year, not in the January after it, and not at the end of
January of a leap year with day 29. -/
def AnchoredYearOk (start td ty : ℤ) (wd : WdSet) : Prop :=
  ¬ (dseYear start = ty ∧ anchorIn ty td wd (lastBeforeDec td) < start ∧
      dseYear (anchorIn ty td wd 11) > ty) ∧
    ¬ (dseYear start = ty + 1 ∧ dseMonth start = 0 ∧ anchorIn ty td wd 11 < start) ∧
    ¬ (dseYear start = ty ∧ dseMonth start = 0 ∧ td = 29 ∧ isLeapYear ty = 1 ∧
      anchorIn ty td wd 0 < start)

instance (start td ty : ℤ) (wd : WdSet) : Decidable (AnchoredYearOk start td ty wd) := by
  unfold AnchoredYearOk; infer_instance

/-- The anchored dates of a year. -/
def yearDates (td ty : ℤ) (wd : WdSet) : Set ℤ := anchoredIn (fun N => N / 12 = ty) td wd

/-- What `case GOT_WD+GOT_YR+GOT_DAY` answers: the right date, or one of three wrong ones. -/
inductive YearAnswer (start td ty : ℤ) (wd : WdSet) : ℤ → Prop
  | right {j : ℤ} : NextIn (yearDates td ty wd) start j → AnchoredYearOk start td ty wd →
      YearAnswer start td ty wd j
  /-- The anchor of December lies in the next year. -/
  | spill : dseYear start = ty → anchorIn ty td wd (lastBeforeDec td) < start →
      dseYear (anchorIn ty td wd 11) > ty → YearAnswer start td ty wd (-1)
  /-- The search starts in the January after the year, behind the anchor of December. -/
  | january {z : ℤ} : dseYear start = ty + 1 → dseMonth start = 0 →
      anchorIn ty td wd 11 < start → 1 ≤ z → z ≤ 2 → (td = 29 → z = 2) → td ≤ daysInMonth z ty →
      YearAnswer start td ty wd (anchorIn ty td wd z)
  /-- 29 February is overlooked from the end of January. -/
  | slip : dseYear start = ty → dseMonth start = 0 → td = 29 → isLeapYear ty = 1 →
      anchorIn ty td wd 0 < start → YearAnswer start td ty wd (anchorIn ty td wd 2)

theorem dseYear_of_bounds {n y : ℤ} (hy : baseYr ≤ y) (h1 : monthStart (12 * y) ≤ n)
    (h2 : n < monthStart (12 * y + 12)) : dseYear n = y := by
  have hb := baseMonth_ge
  have hbase : baseMonth = 12 * baseYr := rfl
  have h0 := monthStart_nonneg (M := 12 * y) (by omega)
  obtain ⟨N, hN, hlo, hhi, he⟩ := fromDSE_month (n := n) (by omega)
  have h3 := month_le (n := n) (K := N) (M := 12 * y) (by omega) hhi h1
  have h4 : N < 12 * y + 12 := by
    by_contra hlt
    have := monthStart_mono (M := 12 * y + 12) (N := N) (by omega) (by omega)
    omega
  unfold dseYear
  rw [he]
  show N / 12 = y
  omega

section Year

variable (hwd : wd ≠ 0) (hty : baseYr ≤ ty)
include hwd hty

/-- The anchor of a month in terms of month numbers; it lies within six days of the month. -/
theorem anchorIn_spec (td : ℤ) {m : ℤ} (h0 : 0 ≤ m) (h11 : m ≤ 11) :
    FirstOn wd (monthStart (12 * ty + m) + td - 1) (anchorIn ty td wd m) ∧
      monthStart (12 * ty + m) + td - 1 ≤ anchorIn ty td wd m ∧
      anchorIn ty td wd m ≤ monthStart (12 * ty + m) + td + 5 ∧ baseMonth ≤ 12 * ty + m ∧
      daysInMonth m ty = monthLen (12 * ty + m) := by
  have hf := firstOn_spec hwd (dse ty m td)
  have hle := hf.le
  have h6 := hf.le_add hwd
  have hbase : baseMonth = 12 * baseYr := rfl
  rw [dse_eq_monthStart h0 h11] at hf hle h6
  unfold anchorIn
  rw [dse_eq_monthStart h0 h11]
  unfold monthNo at *
  exact ⟨hf, hle, by omega, by omega, (monthLen_monthNo h0 h11).symm⟩

theorem anchorIn_mono (td : ℤ) {m k : ℤ} (h0 : 0 ≤ m) (hmk : m ≤ k) (h11 : k ≤ 11) :
    anchorIn ty td wd m ≤ anchorIn ty td wd k := by
  obtain ⟨hm, -, -, hb, -⟩ := anchorIn_spec hwd hty td (m := m) h0 (by omega)
  obtain ⟨hk, -⟩ := anchorIn_spec hwd hty td (m := k) (by omega) h11
  exact anchor_mono hb (by omega) hm hk

/-- Only the anchor of December can leave the year. -/
theorem anchorIn_year (h1 : 1 ≤ td) (h31 : td ≤ 31) {m : ℤ} (h0 : 0 ≤ m) (h10 : m ≤ 10) :
    dseYear (anchorIn ty td wd m) = ty := by
  obtain ⟨-, hlo, hhi, hb, -⟩ := anchorIn_spec hwd hty td (m := m) h0 (by omega)
  have hb12 := baseMonth_ge
  have hbase : baseMonth = 12 * baseYr := rfl
  have h2 := monthStart_mono (M := 12 * ty) (N := 12 * ty + m) (by omega) (by omega)
  have h3 := monthStart_le (M := 12 * ty + m) (N := 12 * ty + 12) (by omega) (by omega)
  refine dseYear_of_bounds hty (by omega) (by omega)

/-- The candidates of the year, by month. -/
theorem mem_yearDates {n : ℤ} :
    n ∈ yearDates td ty wd ↔
      ∃ m, 0 ≤ m ∧ m ≤ 11 ∧ td ≤ daysInMonth m ty ∧ n = anchorIn ty td wd m := by
  constructor
  · rintro ⟨N, hN, hy, hlen, hf⟩
    have hNm : 12 * ty + N % 12 = N := by omega
    obtain ⟨hm, -, -, -, hl⟩ := anchorIn_spec hwd hty td (m := N % 12) (by omega) (by omega)
    rw [hNm] at hm hl
    exact ⟨N % 12, by omega, by omega, by omega, hf.unique hm⟩
  · rintro ⟨m, h0, h11, hlen, rfl⟩
    obtain ⟨hm, -, -, hb, hl⟩ := anchorIn_spec hwd hty td (m := m) h0 h11
    exact ⟨12 * ty + m, hb, by omega, by omega, hm⟩

/-- The anchor of month `k` is the answer when it is not too early and all earlier ones are. -/
theorem nextIn_year {k : ℤ} (h0 : 0 ≤ k) (h11 : k ≤ 11) (hlen : td ≤ daysInMonth k ty)
    (hsr : start ≤ anchorIn ty td wd k)
    (hearly : ∀ m, 0 ≤ m → m < k → td ≤ daysInMonth m ty → anchorIn ty td wd m < start) :
    NextIn (yearDates td ty wd) start (anchorIn ty td wd k) := by
  refine Or.inl ⟨⟨(mem_yearDates hwd hty).mpr ⟨k, h0, h11, hlen, rfl⟩, hsr⟩, ?_⟩
  rintro n ⟨hn, hsn⟩
  obtain ⟨m, hm0, hm11, hmlen, rfl⟩ := (mem_yearDates hwd hty).mp hn
  by_cases hmk : m < k
  · have := hearly m hm0 hmk hmlen
    omega
  · exact anchorIn_mono hwd hty td h0 (by omega) hm11

omit hwd hty in
/-- December has every day, and so does some month before it. -/
theorem lastBeforeDec_spec (ty : ℤ) (h31 : td ≤ 31) :
    0 ≤ lastBeforeDec td ∧ lastBeforeDec td ≤ 10 ∧ td ≤ daysInMonth (lastBeforeDec td) ty ∧
      (∀ m, 0 ≤ m → m ≤ 10 → td ≤ daysInMonth m ty → m ≤ lastBeforeDec td) ∧
      td ≤ daysInMonth 11 ty ∧ td ≤ daysInMonth 0 ty := by
  have h9 : daysInMonth 9 ty = 31 := rfl
  have h10 : daysInMonth 10 ty = 30 := rfl
  have h11 : daysInMonth 11 ty = 31 := rfl
  have h0 : daysInMonth 0 ty = 31 := rfl
  unfold lastBeforeDec
  split_ifs with h
  · exact ⟨by omega, by omega, by omega, fun m _ hm _ => hm, by omega, by omega⟩
  · refine ⟨by omega, by omega, by omega, fun m _ hm hlen => ?_, by omega, by omega⟩
    by_contra hlt
    rw [show m = 10 by omega] at hlen
    omega

/-- "Must be next month", when no anchor up to this month `m` is late enough. -/
theorem mustBeNextMonth_spec (h1 : 1 ≤ td) (h31 : td ≤ 31) {m : ℤ} (h0 : 0 ≤ m)
    (h11 : m ≤ 11) (hym : dseYear start = ty ∧ dseMonth start = m)
    (hbound : ∀ k, m < k → k ≤ 11 → start < monthStart (12 * ty + k))
    (hearly : ∀ k, 0 ≤ k → k ≤ m → td ≤ daysInMonth k ty → anchorIn ty td wd k < start)
    (hspill : m = 11 → dseYear (anchorIn ty td wd 11) ≤ ty) :
    ∃ j, mustBeNextMonth m td ty wd = some j ∧ YearAnswer start td ty wd j := by
  obtain ⟨hp0, hp10, hplen, hplast, hdec, hjan⟩ := lastBeforeDec_spec ty h31
  obtain ⟨hy, hm⟩ := hym
  unfold mustBeNextMonth
  split_ifs with hm11
  · -- December: nothing is left
    refine ⟨-1, rfl, .right (Or.inr ⟨rfl, fun n hn => ?_⟩) ⟨?_, ?_, ?_⟩⟩
    · obtain ⟨k, hk0, hk11, hklen, rfl⟩ := (mem_yearDates hwd hty).mp hn
      exact hearly k hk0 (by omega) hklen
    · rintro ⟨-, -, h⟩
      have := hspill hm11
      omega
    · omega
    · omega
  · obtain ⟨z, hz, hz11, ⟨hmz, hzlen⟩, hzleast⟩ :=
      nextMonthWith_spec (m := m + 1) (by omega) (by omega) h31 td
    simp only [hz, advanceToWd_eq hwd, Option.bind_eq_bind, Option.bind_some, Option.pure_def]
    show ∃ j, (if dseYear (anchorIn ty td wd z) > ty then some (-1)
      else some (anchorIn ty td wd z)) = some j ∧ _
    have hfeb : ∀ y, daysInMonth 1 y = 28 + isLeapYear y := fun _ => rfl
    have hmar : ∀ y, daysInMonth 2 y = 31 := fun _ => rfl
    have hother : ∀ k y, k ≠ 1 → daysInMonth k y = daysInMonth k ty := by
      intro k y hk
      unfold daysInMonth
      rw [if_pos hk, if_pos hk]
    by_cases hslip : m = 0 ∧ td = 29 ∧ isLeapYear ty = 1
    · -- the year 29 has no 29 February, so the loop goes on to March
      obtain ⟨hm0, htd, hleap⟩ := hslip
      have hl29 : isLeapYear td = 0 := by rw [htd]; rfl
      have hz2 : z = 2 := by
        have hle : z ≤ 2 := hzleast ⟨by omega, by rw [hmar]; omega⟩
        have hne : z ≠ 1 := by rintro rfl; rw [hfeb, hl29] at hzlen; omega
        omega
      have hyear := anchorIn_year hwd hty h1 h31 (m := z) (by omega) (by omega)
      rw [if_neg (by omega), hz2]
      exact ⟨_, rfl, .slip hy (by omega) htd hleap (hearly 0 le_rfl (by omega) hjan)⟩
    · -- the loop finds the next month of the right year
      have hzlen' : td ≤ daysInMonth z ty := by
        by_cases hz1 : z = 1
        · subst hz1
          rw [hfeb] at hzlen ⊢
          have h29 : isLeapYear 29 = 0 := by decide
          rcases isLeapYear_eq_or ty with h | h <;> rcases isLeapYear_eq_or td with h' | h'
          · omega
          · have : td ≠ 29 := by rintro rfl; omega
            omega
          · omega
          · omega
        · rw [hother z td hz1] at hzlen
          exact hzlen
      have hgap : ∀ k, m < k → k < z → ¬ td ≤ daysInMonth k ty := by
        intro k hmk hkz hlen
        have hk : ¬ td ≤ daysInMonth k td := fun h => by
          have := hzleast ⟨show m + 1 ≤ k by omega, h⟩
          omega
        by_cases hk1 : k = 1
        · subst hk1
          rw [hfeb] at hk hlen
          rcases isLeapYear_eq_or ty with h | h
          · rcases isLeapYear_eq_or td with h' | h' <;> omega
          · refine hslip ⟨by omega, ?_, h⟩
            rcases isLeapYear_eq_or td with h' | h' <;> omega
        · rw [hother k td hk1] at hk
          exact hk hlen
      obtain ⟨-, hzlo, hzhi, hzb, -⟩ := anchorIn_spec hwd hty td (m := z) (by omega) hz11
      have hsz : start ≤ anchorIn ty td wd z := by
        have := hbound z (by omega) hz11
        omega
      have hallEarly : ∀ k, 0 ≤ k → k < z → td ≤ daysInMonth k ty → anchorIn ty td wd k < start := by
        intro k hk0 hkz hlen
        by_cases hkm : k ≤ m
        · exact hearly k hk0 hkm hlen
        · exact (hgap k (by omega) hkz hlen).elim
      split_ifs with hout
      · have hz : z = 11 := by
          by_contra hne
          have := anchorIn_year hwd hty h1 h31 (m := z) (by omega) (by omega)
          omega
        rw [hz] at hout hallEarly
        exact ⟨-1, rfl, .spill hy (hallEarly _ hp0 (by omega) hplen) hout⟩
      · refine ⟨_, rfl, .right (nextIn_year hwd hty (by omega) hz11 hzlen' hsz hallEarly)
          ⟨?_, by omega, ?_⟩⟩
        · rintro ⟨-, hpe, hdy⟩
          by_cases hz : z = 11
          · rw [hz] at hout
            omega
          · have := anchorIn_mono hwd hty td (m := z) (k := lastBeforeDec td) (by omega)
              (hplast z (by omega) (by omega) hzlen') (by omega)
            omega
        · rintro ⟨-, hm0, h29, hleap, -⟩
          exact hslip ⟨by omega, h29, hleap⟩

/-- "Try this month", when all earlier anchors are too early. -/
theorem thisOrNextMonth_spec (hs : 0 ≤ start) (h1 : 1 ≤ td) (h31 : td ≤ 31) {m : ℤ} (h0 : 0 ≤ m)
    (h11 : m ≤ 11) (hym : dseYear start = ty ∧ dseMonth start = m)
    (hin : start < monthStart (12 * ty + m) + monthLen (12 * ty + m))
    (hearly : ∀ k, 0 ≤ k → k < m → td ≤ daysInMonth k ty → anchorIn ty td wd k < start) :
    ∃ j, thisOrNextMonth start m td ty wd = some j ∧ YearAnswer start td ty wd j := by
  obtain ⟨hp0, hp10, hplen, hplast, hdec, hjan⟩ := lastBeforeDec_spec ty h31
  have hb := baseMonth_ge
  have hbase : baseMonth = 12 * baseYr := rfl
  have hbound : ∀ k, m < k → k ≤ 11 → start < monthStart (12 * ty + k) := fun k hk _ => by
    have := monthStart_add_monthLen_le (M := 12 * ty + m) (N := 12 * ty + k) (by omega) (by omega)
    omega
  have hnext := fun hearly hspill =>
    mustBeNextMonth_spec hwd hty h1 h31 h0 h11 hym hbound hearly hspill
  unfold thisOrNextMonth
  by_cases hlen : td ≤ daysInMonth m ty
  · simp only [if_pos hlen, advanceToWd_eq hwd, Option.bind_eq_bind, Option.bind_some,
      Option.pure_def]
    change ∃ j, (if dseYear (anchorIn ty td wd m) > ty then some (-1)
      else if anchorIn ty td wd m ≥ start then some (anchorIn ty td wd m)
      else mustBeNextMonth m td ty wd) = some j ∧ _
    by_cases hout : dseYear (anchorIn ty td wd m) > ty
    · -- the anchor of December lies in the next year
      have hm : m = 11 := by
        by_contra hne
        have := anchorIn_year hwd hty h1 h31 h0 (by omega)
        omega
      subst hm
      rw [if_pos hout]
      exact ⟨-1, rfl, .spill hym.1 (hearly _ hp0 (by omega) hplen) hout⟩
    rw [if_neg hout]
    by_cases hsr : anchorIn ty td wd m ≥ start
    · rw [if_pos hsr]
      refine ⟨_, rfl, .right (nextIn_year hwd hty h0 h11 hlen hsr hearly) ⟨?_, by omega, ?_⟩⟩
      · rintro ⟨-, hpe, hdy⟩
        by_cases hm : m = 11
        · rw [hm] at hout
          omega
        · have := anchorIn_mono hwd hty td h0 (hplast m h0 (by omega) hlen) (by omega)
          omega
      · rintro ⟨-, hm0, -, -, hlt⟩
        rw [show m = 0 by omega] at hsr
        omega
    · rw [if_neg hsr]
      refine hnext (fun k hk0 hkm hklen => ?_) fun hm => by rw [hm] at hout; omega
      by_cases hk : k = m
      · rw [hk]
        omega
      · exact hearly k hk0 (by omega) hklen
  · rw [if_neg hlen]
    refine hnext (fun k hk0 hkm hklen => ?_) fun hm => by rw [hm] at hlen; omega
    by_cases hk : k = m
    · rw [hk] at hklen
      omega
    · exact hearly k hk0 (by omega) hklen

/-- In the January after the year, once the anchor of December is out, the code goes on with
January of the year itself and returns a date before the start. -/
theorem thisOrNextMonth_january (h1 : 1 ≤ td) (h31 : td ≤ 31) (hy : dseYear start = ty + 1)
    (hm : dseMonth start = 0) (hdec : anchorIn ty td wd 11 < start) :
    ∃ j, thisOrNextMonth start 0 td ty wd = some j ∧ YearAnswer start td ty wd j := by
  have hjan : daysInMonth 0 ty = 31 := rfl
  have hmar : ∀ y, daysInMonth 2 y = 31 := fun _ => rfl
  have hfeb : ∀ y, daysInMonth 1 y = 28 + isLeapYear y := fun _ => rfl
  obtain ⟨z, hz, hz11, ⟨hz1, hzlen⟩, hzleast⟩ :=
    nextMonthWith_spec (m := 1) (by omega) (by omega) h31 td
  have hz2 : z ≤ 2 := hzleast ⟨show (1 : ℤ) ≤ 2 by omega, by rw [hmar]; omega⟩
  have hj0 := anchorIn_mono hwd hty td (m := 0) (k := 11) (by omega) (by omega) (by omega)
  have hjz := anchorIn_mono hwd hty td (m := z) (k := 11) (by omega) (by omega) (by omega)
  have hy0 := anchorIn_year hwd hty h1 h31 (m := 0) (by omega) (by omega)
  have hyz := anchorIn_year hwd hty h1 h31 (m := z) (by omega) (by omega)
  have h29 : td = 29 → z = 2 := by
    intro htd
    have hl29 : isLeapYear td = 0 := by rw [htd]; rfl
    have hne : z ≠ 1 := by rintro rfl; rw [hfeb, hl29] at hzlen; omega
    omega
  have hzlen' : td ≤ daysInMonth z ty := by
    by_cases hz1' : z = 1
    · rw [hz1', hfeb] at hzlen ⊢
      rcases isLeapYear_eq_or td with h | h <;> rcases isLeapYear_eq_or ty with h' | h' <;> omega
    · rw [show z = 2 by omega, hmar]
      exact h31
  refine ⟨anchorIn ty td wd z, ?_, .january hy hm hdec hz1 hz2 h29 hzlen'⟩
  unfold thisOrNextMonth
  rw [if_pos (by omega)]
  simp only [advanceToWd_eq hwd, Option.bind_eq_bind, Option.bind_some, Option.pure_def]
  change (if dseYear (anchorIn ty td wd 0) > ty then some (-1)
    else if anchorIn ty td wd 0 ≥ start then some (anchorIn ty td wd 0)
    else mustBeNextMonth 0 td ty wd) = _
  rw [if_neg (by omega), if_neg (by omega)]
  unfold mustBeNextMonth
  rw [if_neg (by omega)]
  simp only [zero_add, hz, advanceToWd_eq hwd, Option.bind_eq_bind, Option.bind_some,
    Option.pure_def]
  change (if dseYear (anchorIn ty td wd z) > ty then some (-1)
    else some (anchorIn ty td wd z)) = _
  rw [if_neg (by omega)]

/-- `case GOT_WD+GOT_YR+GOT_DAY` -/
theorem nextDayYrWd_spec (hs : 0 ≤ start) (h1 : 1 ≤ td) (h31 : td ≤ 31) :
    ∃ j, nextDayYrWd start (fromDSE start) td ty wd = some j ∧ YearAnswer start td ty wd j := by
  obtain ⟨hp0, hp10, hplen, hplast, hdec, hjan⟩ := lastBeforeDec_spec ty h31
  have hb := baseMonth_ge
  have hbase : baseMonth = 12 * baseYr := rfl
  obtain ⟨M, hM, hlo, hhi, he⟩ := fromDSE_month hs
  have hyear : dseYear start = M / 12 := by unfold dseYear; rw [he]
  have hmonth : dseMonth start = M % 12 := by unfold dseMonth; rw [he]
  -- an anchor of month `k` lies before the second month after it
  have hold : ∀ k, 0 ≤ k → k ≤ 11 → 12 * ty + k + 2 ≤ M → anchorIn ty td wd k < start := by
    intro k hk0 hk11 hkM
    obtain ⟨-, -, hk, -, -⟩ := anchorIn_spec hwd hty td hk0 hk11
    have h2 := monthStart_succ (M := 12 * ty + k) (by omega)
    have h3 := monthStart_add_monthLen_le (M := 12 * ty + k + 1) (N := M) (by omega) (by omega)
    have h4 := monthLen_bounds (12 * ty + k)
    have h5 := monthLen_bounds (12 * ty + k + 1)
    have h6 := monthStart_le (M := 12 * ty + k) (N := M) (by omega) (by omega)
    omega
  unfold nextDayYrWd
  simp only [he, advanceToWd_eq hwd, Option.bind_eq_bind, Option.bind_some, Option.pure_def]
  by_cases hafter : M / 12 > ty + 1 ∨ (M / 12 > ty ∧ M % 12 > 0)
  · rw [if_pos hafter]
    refine ⟨-1, rfl, .right (Or.inr ⟨rfl, fun n hn => ?_⟩) ⟨by omega, by omega, by omega⟩⟩
    obtain ⟨k, hk0, hk11, -, rfl⟩ := (mem_yearDates hwd hty).mp hn
    exact hold k hk0 hk11 (by omega)
  rw [if_neg hafter]
  by_cases hjanuary : M / 12 > ty
  · -- January of the next year: only the anchor of December is left
    rw [if_pos hjanuary]
    have hm0 : M % 12 = 0 := by omega
    by_cases hsr : firstOn wd (dse ty 11 td) ≥ start
    · rw [if_pos hsr]
      refine ⟨_, rfl, .right (nextIn_year hwd hty (by omega) le_rfl hdec hsr fun k hk0 hk _ =>
          hold k hk0 (by omega) (by omega)) ⟨by omega, ?_, by omega⟩⟩
      rintro ⟨-, -, hlt⟩
      unfold anchorIn at hlt
      omega
    · rw [if_neg hsr, hm0]
      have hlt : anchorIn ty td wd 11 < start := by unfold anchorIn; omega
      exact thisOrNextMonth_january hwd hty h1 h31 (by omega) (by omega) hlt
  rw [if_neg hjanuary]
  by_cases hbefore : M / 12 < ty
  · rw [if_pos hbefore]
    obtain ⟨-, hjlo, -, -, -⟩ := anchorIn_spec hwd hty td (m := 0) (by omega) (by omega)
    have := monthStart_add_monthLen_le (M := M) (N := 12 * ty + 0) (by omega) (by omega)
    exact ⟨_, rfl, .right (nextIn_year hwd hty le_rfl (by omega) hjan (by omega)
      fun k hk0 hk _ => by omega) ⟨by omega, by omega, by omega⟩⟩
  rw [if_neg hbefore]
  have hMy : M = 12 * ty + M % 12 := by omega
  have hthis := fun hearly => thisOrNextMonth_spec hwd hty hs h1 h31 (m := M % 12)
    (by omega) (by omega) ⟨by omega, hmonth⟩ (by rw [← hMy]; exact hhi) hearly
  by_cases hm : M % 12 > 0
  · rw [if_pos hm]
    obtain ⟨r, hr, hr0, hrm, hrlen, hrgap⟩ :=
      prevMonthWith_spec (m := M % 12 - 1) (by omega) (by omega) h31 ty
    have hry := anchorIn_year hwd hty h1 h31 (m := r) hr0 (by omega)
    simp only [hr, Option.bind_some]
    change ∃ j, (if dseYear (anchorIn ty td wd r) > ty then some (-1)
      else if anchorIn ty td wd r ≥ start then some (anchorIn ty td wd r)
      else thisOrNextMonth start (M % 12) td ty wd) = some j ∧ _
    rw [if_neg (by omega)]
    by_cases hsr : anchorIn ty td wd r ≥ start
    · rw [if_pos hsr]
      refine ⟨_, rfl, .right (nextIn_year hwd hty hr0 (by omega) hrlen hsr fun k hk0 hk _ =>
          hold k hk0 (by omega) (by omega)) ⟨?_, by omega, by omega⟩⟩
      rintro ⟨-, hpe, -⟩
      have := anchorIn_mono hwd hty td hr0 (hplast r hr0 (by omega) hrlen) (by omega)
      omega
    · rw [if_neg hsr]
      refine hthis fun k hk0 hkm hklen => ?_
      by_cases hkr : k ≤ r
      · have := anchorIn_mono hwd hty td hk0 hkr (by omega)
        omega
      · exact (hrgap k (by omega) (by omega) hklen).elim
  · rw [if_neg hm]
    exact hthis fun k hk0 hkm _ => by omega

/-- Anchors of different months lie at least 22 days apart. -/
theorem anchorIn_lt (td : ℤ) {m k : ℤ} (h0 : 0 ≤ m) (hmk : m < k) (h11 : k ≤ 11) :
    anchorIn ty td wd m < anchorIn ty td wd k := by
  obtain ⟨-, -, hm, hb, -⟩ := anchorIn_spec hwd hty td (m := m) h0 (by omega)
  obtain ⟨-, hk, -, -, -⟩ := anchorIn_spec hwd hty td (m := k) (by omega) h11
  have hb12 := baseMonth_ge
  have h1 := monthStart_add_monthLen_le (M := 12 * ty + m) (N := 12 * ty + k) (by omega) (by omega)
  have h2 := monthLen_bounds (12 * ty + m)
  omega

/-- From a day of month `m` on, the anchors of the later months are still to come. -/
theorem lt_anchorIn_of_month (td : ℤ) (hs : 0 ≤ start) (h1 : 1 ≤ td) (hy : dseYear start = ty) {k : ℤ}
    (hmk : dseMonth start < k) (h11 : k ≤ 11) : start < anchorIn ty td wd k := by
  have hb := baseMonth_ge
  obtain ⟨M, hM, hlo, hhi, he⟩ := fromDSE_month hs
  have hyear : dseYear start = M / 12 := by unfold dseYear; rw [he]
  have hmonth : dseMonth start = M % 12 := by unfold dseMonth; rw [he]
  obtain ⟨-, hk, -, -, -⟩ := anchorIn_spec hwd hty td (m := k) (by omega) h11
  have := monthStart_add_monthLen_le (M := M) (N := 12 * ty + k) (by omega) (by omega)
  omega

/-- From a day of the year on, an anchor in the next year is still to come. -/
theorem lt_anchorIn_of_spill (hs : 0 ≤ start) (h1 : 1 ≤ td) (hy : dseYear start = ty)
    (hspill : dseYear (anchorIn ty td wd 11) > ty) : start < anchorIn ty td wd 11 := by
  have hb := baseMonth_ge
  have hbase : baseMonth = 12 * baseYr := rfl
  obtain ⟨M, hM, hlo, hhi, he⟩ := fromDSE_month hs
  have hyear : dseYear start = M / 12 := by unfold dseYear; rw [he]
  by_contra hlt
  -- otherwise the anchor would lie between the start of December and a day of the year
  have hle := monthStart_add_monthLen_le (M := M) (N := 12 * ty + 12) (by omega) (by omega)
  have h0 := monthStart_mono (M := 12 * ty) (N := 12 * ty + 11) (by omega) (by omega)
  obtain ⟨-, hlo', -, -, -⟩ := anchorIn_spec hwd hty td (m := 11) (by omega) (by omega)
  have := dseYear_of_bounds (n := anchorIn ty td wd 11) hty (by omega) (by omega)
  omega

/-- Where 29 February is overlooked it is the next anchored date, and the answer the one after. -/
theorem slip_overlooks (hs : 0 ≤ start) (hy : dseYear start = ty) (hm : dseMonth start = 0)
    (h29 : td = 29) (hleap : isLeapYear ty = 1) (hjan : anchorIn ty td wd 0 < start) :
    IsLeast {n | n ∈ yearDates td ty wd ∧ start ≤ n} (anchorIn ty td wd 1) ∧
      IsLeast {n | n ∈ yearDates td ty wd ∧ anchorIn ty td wd 1 < n} (anchorIn ty td wd 2) := by
  have hfeb : daysInMonth 1 ty = 28 + isLeapYear ty := rfl
  have hmar : daysInMonth 2 ty = 31 := rfl
  have hlt := lt_anchorIn_of_month hwd hty td hs (by omega) hy (k := 1) (by omega) (by omega)
  have h12 := anchorIn_lt hwd hty td (m := 1) (k := 2) (by omega) (by omega) (by omega)
  refine ⟨⟨⟨(mem_yearDates hwd hty).mpr ⟨1, by omega, by omega, by omega, rfl⟩, le_of_lt hlt⟩, ?_⟩,
    ⟨(mem_yearDates hwd hty).mpr ⟨2, by omega, by omega, by omega, rfl⟩, h12⟩, ?_⟩
  · rintro n ⟨hn, hsn⟩
    obtain ⟨k, hk0, hk11, -, rfl⟩ := (mem_yearDates hwd hty).mp hn
    by_cases hk : k = 0
    · rw [hk] at hsn
      omega
    · exact anchorIn_mono hwd hty td (by omega) (by omega) hk11
  · rintro n ⟨hn, hsn⟩
    obtain ⟨k, hk0, hk11, -, rfl⟩ := (mem_yearDates hwd hty).mp hn
    by_cases hk : k ≤ 1
    · have := anchorIn_mono hwd hty td hk0 hk (by omega)
      have hsn' : anchorIn ty td wd 1 < anchorIn ty td wd k := hsn
      omega
    · exact anchorIn_mono hwd hty td (by omega) (by omega) hk11

/-- Where the anchor of December is overlooked it is the last anchored date. -/
theorem spill_overlooks (hs : 0 ≤ start) (h1 : 1 ≤ td) (h31 : td ≤ 31) (hy : dseYear start = ty)
    (hlast : anchorIn ty td wd (lastBeforeDec td) < start)
    (hspill : dseYear (anchorIn ty td wd 11) > ty) :
    IsLeast {n | n ∈ yearDates td ty wd ∧ start ≤ n} (anchorIn ty td wd 11) ∧
      ∀ n ∈ yearDates td ty wd, n ≠ anchorIn ty td wd 11 → n < start := by
  obtain ⟨hp0, hp10, hplen, hplast, hdec, hjan⟩ := lastBeforeDec_spec ty h31
  have hlt := lt_anchorIn_of_spill hwd hty hs h1 hy hspill
  have hearly : ∀ n ∈ yearDates td ty wd, n ≠ anchorIn ty td wd 11 → n < start := by
    intro n hn hne
    obtain ⟨k, hk0, hk11, hklen, rfl⟩ := (mem_yearDates hwd hty).mp hn
    have hk10 : k ≤ 10 := by
      by_contra hk
      exact hne (by rw [show k = 11 by omega])
    have := anchorIn_mono hwd hty td hk0 (hplast k hk0 hk10 hklen) (by omega)
    omega
  refine ⟨⟨⟨(mem_yearDates hwd hty).mpr ⟨11, by omega, le_rfl, hdec, rfl⟩, le_of_lt hlt⟩, ?_⟩,
    hearly⟩
  rintro n ⟨hn, hsn⟩
  by_contra hlt'
  have hsn' : start ≤ n := hsn
  have := hearly n hn (by rintro rfl; exact hlt' le_rfl)
  omega

/-- The answer is the next anchored date exactly under `AnchoredYearOk`. -/
theorem YearAnswer.nextIn_iff {j : ℤ} (h : YearAnswer start td ty wd j) (hs : 0 ≤ start)
    (h1 : 1 ≤ td) (h31 : td ≤ 31) :
    NextIn (yearDates td ty wd) start j ↔ AnchoredYearOk start td ty wd := by
  cases h with
  | right hnext hok => exact ⟨fun _ => hok, fun _ => hnext⟩
  | spill hy hlast hspill =>
    obtain ⟨⟨⟨hmem, hsn⟩, -⟩, -⟩ := spill_overlooks hwd hty hs h1 h31 hy hlast hspill
    refine ⟨?_, fun hok => (hok.1 ⟨hy, hlast, hspill⟩).elim⟩
    rintro (⟨⟨-, h⟩, -⟩ | ⟨-, h⟩)
    · have : start ≤ -1 := h
      omega
    · have := h _ hmem
      omega
  | @january z hy hm hdec hz1 hz2 _ _ =>
    have hlt := anchorIn_mono hwd hty td (m := z) (k := 11) (by omega) (by omega) (by omega)
    obtain ⟨-, hlo, -, hb, -⟩ := anchorIn_spec hwd hty td (m := z) (by omega) (by omega)
    have h0 := monthStart_nonneg hb
    refine ⟨?_, fun hok => (hok.2.1 ⟨hy, hm, hdec⟩).elim⟩
    rintro (⟨⟨-, h⟩, -⟩ | ⟨h, -⟩)
    · have : start ≤ anchorIn ty td wd z := h
      omega
    · omega
  | slip hy hm h29 hleap hjan =>
    obtain ⟨hleast, ⟨-, hlt⟩, -⟩ := slip_overlooks hwd hty hs hy hm h29 hleap hjan
    have hlt' : anchorIn ty td wd 1 < anchorIn ty td wd 2 := hlt
    have hs1 : start ≤ anchorIn ty td wd 1 := hleast.1.2
    refine ⟨?_, fun hok => (hok.2.2 ⟨hy, hm, h29, hleap, hjan⟩).elim⟩
    rintro (h | ⟨h, -⟩)
    · have := h.unique hleast
      omega
    · omega

end Year

/-- `case GOT_DAY+GOT_MON+GOT_YR+GOT_WD`: one anchor, whatever the start. -/
theorem simpleDates_full {t : Trigger} (hwd : t.wd ≠ 0) (hd : t.d = some td) (hm : t.m = some tm)
    (hy : t.y = some ty) (hv : Valid ty tm td) :
    simpleDates t = {anchorIn ty td t.wd tm} := by
  ext n
  have h0 := hv.monthLo
  have h11 := hv.monthHi
  obtain ⟨hf, -, -, hb, hl⟩ := anchorIn_spec hwd hv.year td h0 h11
  rw [mem_simpleDates_anchored hwd hd hv.dayLo]
  constructor
  · rintro ⟨N, hN, ⟨hNm, hNy⟩, -, hn⟩
    have hNeq : N = 12 * ty + tm := by
      have := hNm tm hm
      have := hNy ty hy
      omega
    rw [hNeq] at hn
    exact hn.unique hf
  · rintro rfl
    have := hv.dayHi
    refine ⟨12 * ty + tm, hb, ⟨fun x hx => ?_, fun x hx => ?_⟩, by omega, hf⟩
    · rw [hm] at hx
      cases hx
      omega
    · rw [hy] at hx
      cases hx
      omega

end Anchored

/-- What the C function returns: -1 beside an error code. -/
def returned : Except ErrCode ℤ → ℤ
  | .ok j => j
  | .error _ => -1

/-- Where a trigger is searched rightly: everywhere, unless a day, a year and a weekday set are
given without a month. -/
def AnchoredOk (start : ℤ) (t : Trigger) : Prop :=
  t.wd ≠ 0 → ∀ d y, t.d = some d → t.m = none → t.y = some y → AnchoredYearOk start d y t.wd

/-- The answers to two starts come in the order of the starts; -1 counts as the last date. -/
theorem NextIn.monotone {S : Set ℤ} {start start' j j' : ℤ} (hs : 0 ≤ start)
    (h : NextIn S start j) (h' : NextIn S start' j') (hle : start ≤ start') :
    j' = -1 ∨ (0 ≤ j ∧ j ≤ j') := by
  rcases h' with ⟨⟨hmem, hsj⟩, -⟩ | ⟨rfl, -⟩
  · have hsj' : start' ≤ j' := hsj
    rcases h with ⟨⟨-, hj⟩, hleast⟩ | ⟨-, hnone⟩
    · have hj' : start ≤ j := hj
      exact Or.inr ⟨by omega, hleast ⟨hmem, show start ≤ j' by omega⟩⟩
    · have := hnone j' hmem
      omega
  · exact Or.inl rfl

theorem anchoredOk_year {start td ty : ℤ} {t : Trigger} (hwd : t.wd ≠ 0) (hd : t.d = some td)
    (hm : t.m = none) (hy : t.y = some ty) :
    AnchoredOk start t ↔ AnchoredYearOk start td ty t.wd := by
  refine ⟨fun h => h hwd td ty hd hm hy, fun h _ d y hd' _ hy' => ?_⟩
  rw [hd] at hd'
  rw [hy] at hy'
  cases hd'
  cases hy'
  exact h

theorem simpleDates_anchoredYear {td ty : ℤ} {t : Trigger} (hwd : t.wd ≠ 0) (h1 : 1 ≤ td)
    (hd : t.d = some td) (hm : t.m = none) (hy : t.y = some ty) :
    simpleDates t = yearDates td ty t.wd := by
  ext n
  rw [mem_simpleDates_anchored hwd hd h1]
  simp [yearDates, hm, hy]

/-- The search of an anchored trigger, at one start. -/
theorem nextSimpleTrig_anchored_iff {start : ℤ} {t : Trigger} (hs : 0 ≤ start) (ht : t.InRange)
    (hwd : t.wd ≠ 0) (hd : t.d ≠ none) (hopen : t.m = none ∨ t.y = none) :
    ∃ r, nextSimpleTrig start t = some r ∧
      (NextIn (simpleDates t) start (returned r) ↔ AnchoredOk start t) := by
  obtain ⟨td, hd⟩ := Option.ne_none_iff_exists'.mp hd
  obtain ⟨h1, h31⟩ := ht.day td hd
  have hmem := fun n => mem_simpleDates_anchored (n := n) hwd hd h1
  unfold nextSimpleTrig
  simp only [hd, hwd, ne_eq, not_false_eq_true, decide_true]
  rcases hy : t.y with _ | ty
  · have hok : AnchoredOk start t := fun _ d y _ _ hy' => by rw [hy] at hy'; cases hy'
    rcases hm : t.m with _ | tm
    · obtain ⟨j, hj, hl⟩ := nextDayWd_spec hwd hs h31 h1
      refine ⟨.ok j, by simp [hj], fun _ => hok, fun _ => Or.inl ?_⟩
      simpa [hmem, hm, hy, returned] using hl
    · obtain ⟨h0, h11⟩ := ht.mon tm hm
      by_cases hbad : td > monthDays tm
      · refine ⟨.error .badDate, by simp [hbad], fun _ => hok, fun _ => Or.inr ⟨rfl, ?_⟩⟩
        intro n hn
        obtain ⟨N, -, ⟨hNm, -⟩, hlen, -⟩ := (hmem n).mp hn
        have := daysInMonth_le_monthDays (y := N / 12) (m := tm)
        unfold monthLen at hlen
        rw [hNm tm hm] at hlen
        omega
      · obtain ⟨j, hj, hl⟩ := nextDayMonWd_spec hwd hs h0 h11 h1 (by omega)
        refine ⟨.ok j, by simp [hj, hbad], fun _ => hok, fun _ => Or.inl ?_⟩
        simpa [hmem, hm, hy, returned] using hl
  · have hm : t.m = none := hopen.resolve_right (by simp [hy])
    obtain ⟨j, hj, hans⟩ := nextDayYrWd_spec hwd (ht.yr ty hy) hs h1 h31
    refine ⟨.ok j, by simp [hm, hj], ?_⟩
    rw [simpleDates_anchoredYear hwd h1 hd hm hy, anchoredOk_year hwd hd hm hy]
    exact hans.nextIn_iff hwd (ht.yr ty hy) hs h1 h31

/-- `REM 29 2024 Mon` on 31 January 2024. -/
def monday29 : Trigger := { d := some 29, y := some 2024, wd := 1 }

end Remind
