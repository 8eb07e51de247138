import Remind.SimpleTrig

/-!
# CalendarTrig — calendar patterns (`NextSimpleTrig` without an anchored weekday)

`simpleDates t` is what the day, month, year and weekday of a trigger denote: the dates that match
every part given or, when a day comes with a weekday set, the first day of the set on or after
each date that matches the other parts.  For every pattern without a day or without a weekday
`nextSimpleTrig` finds the least such date from the start on.
-/

namespace Remind

/-- The fields lie in the ranges that the token parser guarantees. -/
structure Trigger.InRange (t : Trigger) : Prop where
  day : ∀ d, t.d = some d → 1 ≤ d ∧ d ≤ 31
  mon : ∀ m, t.m = some m → 0 ≤ m ∧ m ≤ 11
  yr : ∀ y, t.y = some y → baseYr ≤ y

/-- `n` has the day, the month and the year given. -/
structure MatchesParts (d m y : Option ℤ) (n : ℤ) : Prop where
  nonneg : 0 ≤ n
  day : ∀ x, d = some x → (fromDSE n).d = x
  mon : ∀ x, m = some x → (fromDSE n).m = x
  yr : ∀ x, y = some x → (fromDSE n).y = x

/-- The dates that the day, month, year and weekday parts of `t` denote. -/
def simpleDates (t : Trigger) : Set ℤ :=
  if t.d ≠ none ∧ t.wd ≠ 0 then {r | ∃ b, MatchesParts t.d t.m t.y b ∧ FirstOn t.wd b r}
  else {n | MatchesParts t.d t.m t.y n ∧ (t.wd ≠ 0 → t.wd.has n = true)}

/-- `j` is the least date of `S` from `start` on, or -1 if there is none. -/
def NextIn (S : Set ℤ) (start j : ℤ) : Prop :=
  IsLeast {n | n ∈ S ∧ start ≤ n} j ∨ (j = -1 ∧ ∀ n ∈ S, n < start)

/-- The day exceeds the greatest length the month can have (in the year, when one is given). -/
def Trigger.BadDay (t : Trigger) : Prop :=
  ∃ d m, t.d = some d ∧ t.m = some m ∧
    d > (match t.y with | some y => daysInMonth m y | none => monthDays m)

section Patterns

variable {start td tm ty : ℤ}

theorem matchesParts_iff {d m y : Option ℤ} {n : ℤ} :
    MatchesParts d m y n ↔ ∃ N, baseMonth ≤ N ∧ monthStart N ≤ n ∧ n < monthStart N + monthLen N ∧
      (∀ x, d = some x → n = monthStart N + x - 1) ∧ (∀ x, m = some x → N % 12 = x) ∧
      (∀ x, y = some x → N / 12 = x) := by
  constructor
  · rintro ⟨h0, hd, hm, hy⟩
    obtain ⟨N, hN, h1, h2, he⟩ := fromDSE_month h0
    rw [he] at hd hm hy
    refine ⟨N, hN, h1, h2, fun x hx => ?_, hm, hy⟩
    have := hd x hx
    simp only at this
    omega
  · rintro ⟨N, hN, h1, h2, hd, hm, hy⟩
    have h0 := monthStart_nonneg hN
    refine ⟨by omega, fun x hx => ?_, fun x hx => ?_, fun x hx => ?_⟩ <;>
      rw [fromDSE_of_month hN h1 h2]
    · have := hd x hx
      simp only
      omega
    · exact hm x hx
    · exact hy x hx

/-- The dates with day `td` are the `td`-th days of the months long enough. -/
theorem matchesParts_day {m y : Option ℤ} {n : ℤ} (h1 : 1 ≤ td) :
    MatchesParts (some td) m y n ↔ ∃ N, baseMonth ≤ N ∧ td ≤ monthLen N ∧
      n = monthStart N + td - 1 ∧ (∀ x, m = some x → N % 12 = x) ∧
      (∀ x, y = some x → N / 12 = x) := by
  rw [matchesParts_iff]
  constructor
  · rintro ⟨N, hN, hlo, hhi, hd, hm, hy⟩
    have := hd td rfl
    exact ⟨N, hN, by omega, this, hm, hy⟩
  · rintro ⟨N, hN, hlen, rfl, hm, hy⟩
    refine ⟨N, hN, by omega, by omega, ?_, hm, hy⟩
    rintro x ⟨⟩
    rfl

/-- `case GOT_DAY` -/
theorem nextDay_spec (hs : 0 ≤ start) (h1 : 1 ≤ td) (h31 : td ≤ 31) :
    ∃ j, nextDay (fromDSE start) td = some j ∧
      IsLeast {n | MatchesParts (some td) none none n ∧ start ≤ n} j := by
  have hb := baseMonth_ge
  obtain ⟨M, hM, hlo, hhi, he⟩ := fromDSE_month hs
  -- the month where the search for a month with day `td` starts
  obtain ⟨K, hK, hKM, hMK⟩ : ∃ K, (if start - monthStart M + 1 > td then
      (if M % 12 + 1 = 12 then (0, M / 12 + 1) else (M % 12 + 1, M / 12)) else (M % 12, M / 12)) =
      (K % 12, K / 12) ∧ M ≤ K ∧ (K = M + 1 ∧ start - monthStart M + 1 > td ∨
      K = M ∧ start - monthStart M + 1 ≤ td) := by
    split_ifs with h h'
    · exact ⟨M + 1, by simp only [Prod.mk.injEq]; omega, by omega, Or.inl ⟨rfl, h⟩⟩
    · exact ⟨M + 1, by simp only [Prod.mk.injEq]; omega, by omega, Or.inl ⟨rfl, h⟩⟩
    · exact ⟨M, rfl, le_rfl, Or.inr ⟨rfl, by omega⟩⟩
  obtain ⟨N, hN, ⟨hKN, hNlen⟩, hleast⟩ :=
    carryToMonth_spec (m := K % 12) (y := K / 12) (by omega) (by omega) h31
  have hKno : monthNo (K / 12) (K % 12) = K := by unfold monthNo; omega
  simp only [hKno] at hKN hleast
  have hNno : monthNo (N / 12) (N % 12) = N := by unfold monthNo; omega
  refine ⟨monthStart N + td - 1, ?_, ⟨?_, ?_⟩, ?_⟩
  · unfold nextDay
    simp only [he, hK, hN, Option.bind_eq_bind, Option.bind_some, Option.pure_def]
    rw [dse_eq_monthStart (by omega) (by omega), hNno]
  · exact (matchesParts_day h1).mpr ⟨N, by omega, hNlen, rfl, by simp, by simp⟩
  · show start ≤ monthStart N + td - 1
    rcases hMK with ⟨hK1, hgt⟩ | ⟨hK1, hle⟩
    · have := monthStart_add_monthLen_le (M := M) (N := N) (by omega) (by omega)
      omega
    · have := monthStart_mono (M := M) (N := N) (by omega) (by omega)
      omega
  · rintro c ⟨hc, hsc⟩
    obtain ⟨C, hC, hClen, hcC, -, -⟩ := (matchesParts_day h1).mp hc
    have hMC : M ≤ C := month_le (n := c) (by omega) (by omega) (by omega)
    have hKC : K ≤ C := by
      rcases hMK with ⟨hK1, hgt⟩ | ⟨hK1, hle⟩
      · have : C ≠ M := by rintro rfl; omega
        omega
      · omega
    have := monthStart_mono (M := N) (N := C) (by omega) (hleast ⟨hKC, hClen⟩)
    omega

/-- A month has at least four weeks, so the first day of `wd` on or after its start lies in it. -/
theorem firstOn_monthStart {wd : WdSet} (hwd : wd ≠ 0) {N r : ℤ}
    (h : FirstOn wd (monthStart N) r) : monthStart N ≤ r ∧ r < monthStart N + monthLen N := by
  have h1 := h.le
  have h2 := h.le_add hwd
  have h3 := monthLen_bounds N
  omega

/-- `case GOT_MON` -/
theorem nextMon_spec (hs : 0 ≤ start) (h0 : 0 ≤ tm) (h11 : tm ≤ 11) :
    IsLeast {n | MatchesParts none (some tm) none n ∧ start ≤ n}
      (nextMon start (fromDSE start) tm) := by
  have hb := baseMonth_ge
  obtain ⟨M, hM, hlo, hhi, he⟩ := fromDSE_month hs
  -- the answer is the first day of month `N` unless today's month matches
  have key : ∀ N, M < N → N % 12 = tm → (∀ C, M ≤ C → C % 12 = tm → N ≤ C) →
      IsLeast {n | MatchesParts none (some tm) none n ∧ start ≤ n} (monthStart N) := by
    intro N hMN hN hleast
    have hlen := monthLen_bounds N
    refine ⟨⟨matchesParts_iff.mpr ⟨N, by omega, le_rfl, by omega, by simp, by simp [hN],
      by simp⟩, ?_⟩, ?_⟩
    · have := monthStart_add_monthLen_le (M := M) (N := N) (by omega) hMN
      omega
    · rintro c ⟨hc, hsc⟩
      obtain ⟨C, hC, hlc, hhc, -, hmc, -⟩ := matchesParts_iff.mp hc
      have hMC := month_le (n := c) (K := C) (M := M) (by omega) hhc (by omega)
      have := monthStart_mono (M := N) (N := C) (by omega) (hleast C hMC (hmc tm rfl))
      omega
  unfold nextMon
  rw [he]
  simp only
  split_ifs with h1 h2
  · refine ⟨⟨matchesParts_iff.mpr ⟨M, hM, hlo, hhi, by simp, by simp [h1], by simp⟩, le_rfl⟩, ?_⟩
    rintro c ⟨-, hc⟩
    exact hc
  · rw [← monthStart_monthNo h0 h11]
    exact key _ (by unfold monthNo; omega) (monthNo_mod h0 h11)
      (fun C hMC hC => by unfold monthNo; omega)
  · rw [← monthStart_monthNo h0 h11]
    exact key _ (by unfold monthNo; omega) (monthNo_mod h0 h11)
      (fun C hMC hC => by unfold monthNo; omega)

/-- The first day from `start` on that lies in year `ty` (for a start not after that year). -/
theorem yearFirst {M : ℤ} (hM : baseMonth ≤ M) (hlo : monthStart M ≤ start)
    (hhi : start < monthStart M + monthLen M) (hty : M / 12 ≤ ty) {x : ℤ}
    (hx : x = if M / 12 < ty then dse ty 0 1 else start) :
    MatchesParts none none (some ty) x ∧ start ≤ x ∧
      ∀ c, MatchesParts none none (some ty) c → start ≤ c → x ≤ c := by
  have hb := baseMonth_ge
  by_cases h : M / 12 < ty
  · rw [if_pos h, ← monthStart_monthNo (by omega) (by omega)] at hx
    have hno : monthNo ty 0 = 12 * ty := by unfold monthNo; omega
    rw [hno] at hx
    have hlen := monthLen_bounds (12 * ty)
    have hle := monthStart_add_monthLen_le (M := M) (N := 12 * ty) (by omega) (by omega)
    refine ⟨matchesParts_iff.mpr ⟨12 * ty, by omega, by omega, by omega, by simp, by simp, ?_⟩,
      by omega, ?_⟩
    · rintro y ⟨⟩
      omega
    · intro c hc hsc
      obtain ⟨C, hC, hlc, hhc, -, -, hyc⟩ := matchesParts_iff.mp hc
      have := hyc ty rfl
      have := monthStart_mono (M := 12 * ty) (N := C) (by omega) (by omega)
      omega
  · rw [if_neg h] at hx
    subst hx
    refine ⟨matchesParts_iff.mpr ⟨M, hM, hlo, hhi, by simp, by simp, ?_⟩, le_rfl,
      fun c _ hc => hc⟩
    rintro y ⟨⟩
    omega

/-- A date of an earlier year comes before the start. -/
theorem lt_start_of_year {M c : ℤ} {d m : Option ℤ} (hlo : monthStart M ≤ start)
    (hty : ty < M / 12) (hc : MatchesParts d m (some ty) c) : c < start := by
  have hb := baseMonth_ge
  obtain ⟨C, hC, hlc, hhc, -, -, hyc⟩ := matchesParts_iff.mp hc
  have := hyc ty rfl
  have := monthStart_add_monthLen_le (M := C) (N := M) (by omega) (by omega)
  omega

/-- `case GOT_YR` -/
theorem nextYr_spec (hs : 0 ≤ start) :
    NextIn {n | MatchesParts none none (some ty) n} start (nextYr start (fromDSE start) ty) := by
  obtain ⟨M, hM, hlo, hhi, he⟩ := fromDSE_month hs
  unfold nextYr
  rw [he]
  simp only
  by_cases hty : M / 12 ≤ ty
  · obtain ⟨h1, h2, h3⟩ := yearFirst hM hlo hhi hty rfl
    left
    have hif : (if M / 12 = ty then start else if M / 12 < ty then dse ty 0 1 else -1) =
        if M / 12 < ty then dse ty 0 1 else start := by
      split_ifs <;> first | rfl | omega
    rw [hif]
    exact ⟨⟨h1, h2⟩, fun c hc => h3 c hc.1 hc.2⟩
  · right
    rw [if_neg (by omega), if_neg (by omega)]
    exact ⟨rfl, fun c hc => lt_start_of_year hlo (by omega) hc⟩

/-- `case GOT_YR+GOT_WD` -/
theorem nextYrWd_spec (ty : ℤ) {wd : WdSet} (hwd : wd ≠ 0) (hs : 0 ≤ start) :
    ∃ j, nextYrWd start (fromDSE start) ty wd = some j ∧
      NextIn {n | MatchesParts none none (some ty) n ∧ wd.has n = true} start j := by
  have hb := baseMonth_ge
  obtain ⟨M, hM, hlo, hhi, he⟩ := fromDSE_month hs
  unfold nextYrWd
  rw [he]
  simp only
  by_cases hty : M / 12 ≤ ty
  · rw [if_neg (by omega)]
    obtain ⟨h1, h2, h3⟩ := yearFirst hM hlo hhi hty rfl
    generalize (if M / 12 < ty then dse ty 0 1 else start) = x at h1 h2 h3
    obtain ⟨j, hj, hfirst⟩ := advanceToWd_spec hwd x
    simp only [hj, Option.bind_eq_bind, Option.bind_some, Option.pure_def]
    have hxj := hfirst.le
    obtain ⟨J, hJ, hlj, hhj, hej⟩ := fromDSE_month (n := j) (le_trans h1.nonneg hxj)
    have hyj : dseYear j = J / 12 := by unfold dseYear; rw [hej]
    obtain ⟨X, hX, hlx, hhx, -, -, hyx⟩ := matchesParts_iff.mp h1
    have hX := hyx ty rfl
    have hXJ := month_le (n := j) (K := J) (M := X) (by omega) hhj (by omega)
    rw [hyj]
    split_ifs with hlast
    · refine ⟨-1, rfl, Or.inr ⟨rfl, ?_⟩⟩
      rintro c ⟨hc, hcwd⟩
      by_contra hcs
      have hjc : j ≤ c := hfirst.2 ⟨h3 c hc (by omega), hcwd⟩
      obtain ⟨C, hC, hlc, hhc, -, -, hyc⟩ := matchesParts_iff.mp hc
      have := hyc ty rfl
      have := month_le (n := c) (K := C) (M := J) (by omega) hhc (by omega)
      omega
    · refine ⟨j, rfl, Or.inl ⟨⟨⟨?_, hfirst.1.2⟩, by omega⟩, ?_⟩⟩
      · refine matchesParts_iff.mpr ⟨J, hJ, hlj, hhj, by simp, by simp, ?_⟩
        rintro y ⟨⟩
        omega
      · rintro c ⟨⟨hc, hcwd⟩, hsc⟩
        exact hfirst.2 ⟨h3 c hc hsc, hcwd⟩
  · rw [if_pos (by omega)]
    exact ⟨-1, rfl, Or.inr ⟨rfl, fun c hc => lt_start_of_year hlo (by omega) hc.1⟩⟩

/-- `case GOT_DAY+GOT_MON`, for a day that the month has in some year. -/
theorem nextDayMon_spec (hs : 0 ≤ start) (h1 : 1 ≤ td) (h0 : 0 ≤ tm) (h11 : tm ≤ 11)
    (htd : td ≤ monthDays tm) :
    ∃ j, nextDayMon (fromDSE start) td tm = some j ∧
      IsLeast {n | MatchesParts (some td) (some tm) none n ∧ start ≤ n} j := by
  have hb := baseMonth_ge
  obtain ⟨M, hM, hlo, hhi, he⟩ := fromDSE_month hs
  obtain ⟨K, hK⟩ : ∃ K, K = if M % 12 > tm ∨ (M % 12 = tm ∧ start - monthStart M + 1 > td)
    then M / 12 + 1 else M / 12 := ⟨_, rfl⟩
  obtain ⟨Y, hY, ⟨hKY, hlen⟩, hleast⟩ := nextYearWith_spec htd K
  have hbase : baseMonth / 12 ≤ M / 12 := by omega
  have hKM : M / 12 ≤ K := by rw [hK]; split_ifs <;> omega
  have hno : monthNo Y tm = 12 * Y + tm := rfl
  have hl := monthLen_monthNo (y := Y) h0 h11
  have hNb : baseMonth ≤ monthNo Y tm := by unfold baseMonth baseYr at *; omega
  refine ⟨dse Y tm td, ?_, ⟨?_, ?_⟩, ?_⟩
  · unfold nextDayMon
    simp only [he]
    rw [← hK, hY]
    rfl
  · rw [dse_eq_monthStart h0 h11]
    refine (matchesParts_day h1).mpr ⟨monthNo Y tm, hNb, by omega, rfl, ?_, by simp⟩
    rintro x ⟨⟩
    exact monthNo_mod h0 h11
  · show start ≤ dse Y tm td
    rw [dse_eq_monthStart h0 h11]
    by_cases hlate : M % 12 > tm ∨ (M % 12 = tm ∧ start - monthStart M + 1 > td)
    · rw [if_pos hlate] at hK
      have := monthStart_add_monthLen_le (M := M) (N := monthNo Y tm) (by omega) (by omega)
      omega
    · rw [if_neg hlate] at hK
      by_cases hMN : M = monthNo Y tm
      · rw [← hMN] at hno ⊢
        omega
      · have := monthStart_add_monthLen_le (M := M) (N := monthNo Y tm) (by omega) (by omega)
        omega
  · rintro c ⟨hc, hsc⟩
    obtain ⟨C, hC, hClen, hcC, hmc, -⟩ := (matchesParts_day h1).mp hc
    have hCm := hmc tm rfl
    have hMC : M ≤ C := month_le (n := c) (by omega) (by omega) (by omega)
    have hCK : K ≤ C / 12 := by
      rw [hK]
      split_ifs with hlate
      · have : C ≠ M ∨ M % 12 > tm := by
          by_contra hno'
          push Not at hno'
          obtain ⟨rfl, -⟩ := hno'
          omega
        omega
      · omega
    have hYC : Y ≤ C / 12 := hleast ⟨hCK, by unfold monthLen at hClen; rwa [hCm] at hClen⟩
    have := monthStart_mono (M := monthNo Y tm) (N := C) (by omega) (by omega)
    rw [dse_eq_monthStart h0 h11]
    omega

/-- `case GOT_DAY+GOT_YR` -/
theorem nextDayYr_spec (hs : 0 ≤ start) (h1 : 1 ≤ td) (h31 : td ≤ 31) (hty : baseYr ≤ ty) :
    ∃ j, nextDayYr (fromDSE start) td ty = some j ∧
      NextIn {n | MatchesParts (some td) none (some ty) n} start j := by
  have hb := baseMonth_ge
  obtain ⟨M, hM, hlo, hhi, he⟩ := fromDSE_month hs
  -- the answer is the day `td` of the least month `z ≥ k` of the year that is long enough
  have key : ∀ k z, 0 ≤ k → z ≤ 11 → IsLeast {z | k ≤ z ∧ td ≤ daysInMonth z ty} z →
      M / 12 ≤ ty → (∀ C, C / 12 = ty → td ≤ monthLen C → (start ≤ monthStart C + td - 1 ↔
        k ≤ C % 12)) →
      NextIn {n | MatchesParts (some td) none (some ty) n} start (dse ty z td) := by
    intro k z hk hz hleast hMty hiff
    have hz0 : 0 ≤ z := le_trans hk hleast.1.1
    have hl := monthLen_monthNo (y := ty) hz0 hz
    have hd := monthNo_div (y := ty) hz0 hz
    have hm := monthNo_mod (y := ty) hz0 hz
    have hzlen : td ≤ daysInMonth z ty := hleast.1.2
    rw [dse_eq_monthStart hz0 hz]
    refine Or.inl ⟨⟨(matchesParts_day h1).mpr ⟨monthNo ty z, ?_, by omega, rfl, by simp, ?_⟩,
      ?_⟩, ?_⟩
    · unfold monthNo baseMonth; omega
    · rintro y ⟨⟩
      exact hd
    · exact (hiff _ hd (by omega)).mpr (by rw [hm]; exact hleast.1.1)
    · rintro c ⟨hc, hsc⟩
      obtain ⟨C, hC, hClen, hcC, -, hyc⟩ := (matchesParts_day h1).mp hc
      have hCy := hyc ty rfl
      have hkC := (hiff C hCy hClen).mp (by omega)
      have hzC : z ≤ C % 12 := hleast.2 ⟨hkC, by unfold monthLen at hClen; rwa [hCy] at hClen⟩
      have := monthStart_mono (M := monthNo ty z) (N := C)
        (by unfold monthNo baseYr at *; omega) (by unfold monthNo; omega)
      omega
  unfold nextDayYr
  simp only [he]
  by_cases hlt : M / 12 < ty
  · rw [if_pos hlt]
    refine ⟨_, rfl, key 0 0 le_rfl (by omega) ⟨⟨le_rfl, ?_⟩, fun z hz => hz.1⟩ (by omega) ?_⟩
    · simpa [daysInMonth, monthDays] using h31
    · intro C hCy hClen
      have := monthStart_add_monthLen_le (M := M) (N := C) (by omega) (by omega)
      constructor
      · intro; omega
      · intro; omega
  · rw [if_neg hlt]
    by_cases hgt : M / 12 > ty
    · rw [if_pos hgt]
      exact ⟨-1, rfl, Or.inr ⟨rfl, fun c hc => lt_start_of_year hlo hgt hc⟩⟩
    · rw [if_neg hgt]
      have hMy : M / 12 = ty := by omega
      -- `k` is the first month of the year that is not wholly before the start
      obtain ⟨k, hk⟩ : ∃ k, k = if start - monthStart M + 1 > td then M % 12 + 1 else M % 12 :=
        ⟨_, rfl⟩
      have hkM : k = M % 12 + 1 ∧ start - monthStart M + 1 > td ∨
          k = M % 12 ∧ start - monthStart M + 1 ≤ td := by
        rw [hk]; split_ifs with h
        · exact Or.inl ⟨rfl, h⟩
        · exact Or.inr ⟨rfl, by omega⟩
      have hiff : ∀ C, C / 12 = ty → td ≤ monthLen C →
          (start ≤ monthStart C + td - 1 ↔ k ≤ C % 12) := by
        intro C hCy hClen
        constructor
        · intro hsc
          have hMC := month_le (n := monthStart C + td - 1) (K := C) (M := M) (by omega)
            (by omega) (by omega)
          have : C ≠ M ∨ k = M % 12 := by
            by_contra hno
            push Not at hno
            obtain ⟨rfl, hne⟩ := hno
            omega
          omega
        · intro hkC
          rcases hkM with ⟨h, -⟩ | ⟨h, hle⟩
          · have := monthStart_add_monthLen_le (M := M) (N := C) (by omega) (by omega)
            omega
          · have := monthStart_mono (M := M) (N := C) (by omega) (by omega)
            omega
      rw [← hk]
      by_cases hdec : start - monthStart M + 1 > td ∧ k = 12
      · rw [if_pos hdec]
        refine ⟨-1, rfl, Or.inr ⟨rfl, ?_⟩⟩
        intro c hc
        obtain ⟨C, hC, hClen, hcC, -, hyc⟩ := (matchesParts_day h1).mp hc
        have := (hiff C (hyc ty rfl) hClen).not.mpr (by omega)
        omega
      · rw [if_neg hdec]
        have hk0 : 0 ≤ k := by omega
        have hk11 : k ≤ 11 := by omega
        obtain ⟨z, hz, hz11, hleast⟩ := nextMonthWith_spec hk0 hk11 h31 ty
        simp only [hz, Option.bind_eq_bind, Option.bind_some, Option.pure_def]
        exact ⟨_, rfl, key k z hk0 hz11 hleast (by omega) hiff⟩

/-- The dates of month `tm` of year `ty` are the days of one month. -/
theorem matchesParts_monYr (ty : ℤ) {c : ℤ} (h0 : 0 ≤ tm) (h11 : tm ≤ 11) :
    MatchesParts none (some tm) (some ty) c ↔ baseMonth ≤ monthNo ty tm ∧
      monthStart (monthNo ty tm) ≤ c ∧
      c < monthStart (monthNo ty tm) + monthLen (monthNo ty tm) := by
  rw [matchesParts_iff]
  constructor
  · rintro ⟨N, hN, h1, h2, -, hm, hy⟩
    have h3 := hm tm rfl
    have h4 := hy ty rfl
    have : N = monthNo ty tm := by unfold monthNo; omega
    subst this
    exact ⟨hN, h1, h2⟩
  · rintro ⟨hN, h1, h2⟩
    refine ⟨_, hN, h1, h2, by simp, ?_, ?_⟩
    · rintro x ⟨⟩
      exact monthNo_mod h0 h11
    · rintro x ⟨⟩
      exact monthNo_div h0 h11

/-- `case GOT_MON+GOT_YR` -/
theorem nextMonYr_spec (hs : 0 ≤ start) (h0 : 0 ≤ tm) (h11 : tm ≤ 11) :
    NextIn {n | MatchesParts none (some tm) (some ty) n} start
      (nextMonYr start (fromDSE start) tm ty) := by
  have hb := baseMonth_ge
  obtain ⟨M, hM, hlo, hhi, he⟩ := fromDSE_month hs
  have hmem := fun c => matchesParts_monYr ty (c := c) h0 h11
  have hno : monthNo ty tm = 12 * ty + tm := rfl
  have hlen := monthLen_bounds (monthNo ty tm)
  unfold nextMonYr
  rw [he]
  simp only
  split_ifs with hpast hbefore hthis
  · refine Or.inr ⟨rfl, ?_⟩
    intro c hc
    obtain ⟨hN, h1, h2⟩ := (hmem _).mp hc
    have := monthStart_add_monthLen_le (M := monthNo ty tm) (N := M) (by omega) (by omega)
    omega
  · left
    rw [← monthStart_monthNo h0 h11]
    have := monthStart_add_monthLen_le (M := M) (N := monthNo ty tm) (by omega) (by omega)
    exact ⟨⟨(hmem _).mpr ⟨by omega, by omega, by omega⟩, by omega⟩, fun c hc => ((hmem _).mp hc.1).2.1⟩
  · left
    have : M = monthNo ty tm := by omega
    subst this
    exact ⟨⟨(hmem _).mpr ⟨hM, hlo, hhi⟩, le_rfl⟩, fun c hc => hc.2⟩
  · left
    rw [← monthStart_monthNo h0 h11]
    have := monthStart_add_monthLen_le (M := M) (N := monthNo ty tm) (by omega) (by omega)
    exact ⟨⟨(hmem _).mpr ⟨by omega, by omega, by omega⟩, by omega⟩, fun c hc => ((hmem _).mp hc.1).2.1⟩

/-- `case GOT_MON+GOT_WD` -/
theorem nextMonWd_spec {wd : WdSet} (hwd : wd ≠ 0) (hs : 0 ≤ start) (h0 : 0 ≤ tm)
    (h11 : tm ≤ 11) :
    ∃ j, nextMonWd start (fromDSE start) tm wd = some j ∧
      IsLeast {n | (MatchesParts none (some tm) none n ∧ wd.has n = true) ∧ start ≤ n} j := by
  have hb := baseMonth_ge
  obtain ⟨M, hM, hlo, hhi, he⟩ := fromDSE_month hs
  -- once this month is out, the answer is in the next month `N` with number `tm`
  have key : ∀ N j, M < N → N % 12 = tm → FirstOn wd (monthStart N) j →
      (∀ C c, M ≤ C → C % 12 = tm → monthStart C ≤ c → c < monthStart C + monthLen C →
        start ≤ c → wd.has c = true → N ≤ C) →
      IsLeast {n | (MatchesParts none (some tm) none n ∧ wd.has n = true) ∧ start ≤ n} j := by
    intro N j hMN hN hfirst hleast
    obtain ⟨hj1, hj2⟩ := firstOn_monthStart hwd hfirst
    have hafter := monthStart_add_monthLen_le (M := M) (N := N) (by omega) hMN
    refine ⟨⟨⟨matchesParts_iff.mpr ⟨N, by omega, hj1, hj2, by simp, by simp [hN], by simp⟩,
      hfirst.1.2⟩, by omega⟩, ?_⟩
    rintro c ⟨⟨hc, hcwd⟩, hsc⟩
    obtain ⟨C, hC, hlc, hhc, -, hmc, -⟩ := matchesParts_iff.mp hc
    have hMC := month_le (n := c) (K := C) (M := M) (by omega) hhc (by omega)
    have := monthStart_mono (M := N) (N := C) (by omega)
      (hleast C c hMC (hmc tm rfl) hlc hhc hsc hcwd)
    exact hfirst.2 ⟨by omega, hcwd⟩
  have hnext : ∀ k : ℤ, dse (M / 12 + k) tm 1 = monthStart (monthNo (M / 12 + k) tm) :=
    fun k => (monthStart_monthNo h0 h11).symm
  unfold nextMonWd
  simp only [he]
  by_cases hm : M % 12 = tm
  · obtain ⟨j, hj, hfirst⟩ := advanceToWd_spec hwd start
    have hsj := hfirst.le
    obtain ⟨J, hJ, hlj, hhj, hej⟩ := fromDSE_month (n := j) (by omega)
    have hmj : dseMonth j = J % 12 := by unfold dseMonth; rw [hej]
    have hMJ := month_le (n := j) (K := J) (M := M) (by omega) hhj (by omega)
    have hj6 := hfirst.le_add hwd
    have hJM : J ≤ M + 1 := by
      by_contra hlt
      have h2 := monthStart_add_monthLen_le (M := M + 1) (N := J) (by omega) (by omega)
      have h3 := monthStart_succ (M := M) (by omega)
      have h4 := monthLen_bounds (M + 1)
      omega
    rw [if_pos hm]
    simp only [hj, Option.bind_eq_bind, Option.bind_some]
    by_cases hin : dseMonth j = tm
    · rw [if_pos hin]
      have hJM' : J = M := by omega
      subst hJM'
      refine ⟨j, rfl, ⟨⟨⟨matchesParts_iff.mpr ⟨J, hM, hlj, hhj, by simp, by simp [hm], by simp⟩,
        hfirst.1.2⟩, hsj⟩, ?_⟩⟩
      rintro c ⟨⟨-, hcwd⟩, hsc⟩
      exact hfirst.2 ⟨hsc, hcwd⟩
    · rw [if_neg hin, if_pos (by omega)]
      have hJ1 : J = M + 1 := by
        have : J ≠ M := by rintro rfl; omega
        omega
      obtain ⟨j', hj', hfirst'⟩ := advanceToWd_spec hwd (dse (M / 12 + 1) tm 1)
      refine ⟨j', hj', key _ _ ?_ (monthNo_mod h0 h11) (by rwa [← hnext]) ?_⟩
      · unfold monthNo; omega
      · intro C c hMC hCm hlc hhc hsc hcwd
        have hjc := hfirst.2 ⟨hsc, hcwd⟩
        have hne : C ≠ M := by
          rintro rfl
          have := monthStart_succ (M := C) (by omega)
          rw [hJ1] at hlj
          omega
        unfold monthNo
        omega
  · rw [if_neg hm]
    have hgap : ∀ k : ℤ, (k = if M % 12 ≥ tm then 1 else 0) →
        (if M % 12 ≥ tm then dse (M / 12 + 1) tm 1 else dse (M / 12) tm 1) =
          dse (M / 12 + k) tm 1 := by
      intro k hk
      split_ifs at hk ⊢ <;> simp [hk]
    obtain ⟨k, hk⟩ : ∃ k : ℤ, k = if M % 12 ≥ tm then 1 else 0 := ⟨_, rfl⟩
    obtain ⟨j, hj, hfirst⟩ := advanceToWd_spec hwd (dse (M / 12 + k) tm 1)
    refine ⟨j, by rw [hgap k hk]; exact hj, key _ _ ?_ (monthNo_mod h0 h11) (by rwa [← hnext]) ?_⟩
    · unfold monthNo; split_ifs at hk <;> omega
    · intro C c hMC hCm _ _ _ _
      unfold monthNo
      split_ifs at hk <;> omega

/-- `case GOT_WD+GOT_MON+GOT_YR` -/
theorem nextMonYrWd_spec (ty : ℤ) {wd : WdSet} (hwd : wd ≠ 0) (hs : 0 ≤ start) (h0 : 0 ≤ tm)
    (h11 : tm ≤ 11) :
    ∃ j, nextMonYrWd start (fromDSE start) tm ty wd = some j ∧
      NextIn {n | MatchesParts none (some tm) (some ty) n ∧ wd.has n = true} start j := by
  have hb := baseMonth_ge
  obtain ⟨M, hM, hlo, hhi, he⟩ := fromDSE_month hs
  have hmem := fun c => matchesParts_monYr ty (c := c) h0 h11
  have hno : monthNo ty tm = 12 * ty + tm := rfl
  have hlen := monthLen_bounds (monthNo ty tm)
  unfold nextMonYrWd
  rw [he]
  simp only
  split_ifs with hpast hbefore
  · refine ⟨-1, rfl, Or.inr ⟨rfl, ?_⟩⟩
    rintro c ⟨hc, -⟩
    obtain ⟨hN, h1, h2⟩ := (hmem c).mp hc
    have := monthStart_add_monthLen_le (M := monthNo ty tm) (N := M) (by omega) (by omega)
    omega
  · rw [← monthStart_monthNo h0 h11]
    obtain ⟨j, hj, hfirst⟩ := advanceToWd_spec hwd (monthStart (monthNo ty tm))
    obtain ⟨hj1, hj2⟩ := firstOn_monthStart hwd hfirst
    have := monthStart_add_monthLen_le (M := M) (N := monthNo ty tm) (by omega) (by omega)
    refine ⟨j, hj, Or.inl ⟨⟨⟨(hmem j).mpr ⟨by omega, hj1, hj2⟩, hfirst.1.2⟩, by omega⟩, ?_⟩⟩
    rintro c ⟨⟨hc, hcwd⟩, -⟩
    exact hfirst.2 ⟨((hmem c).mp hc).2.1, hcwd⟩
  · have hMN : M = monthNo ty tm := by omega
    obtain ⟨j, hj, hfirst⟩ := advanceToWd_spec hwd start
    have hsj := hfirst.le
    have hj6 := hfirst.le_add hwd
    obtain ⟨J, hJ, hlj, hhj, hej⟩ := fromDSE_month (n := j) (by omega)
    have hMJ := month_le (n := j) (K := J) (M := M) (by omega) hhj (by omega)
    have hJM : J ≤ M + 1 := by
      by_contra hlt
      have h2 := monthStart_add_monthLen_le (M := M + 1) (N := J) (by omega) (by omega)
      have h3 := monthStart_succ (M := M) (by omega)
      have h4 := monthLen_bounds (M + 1)
      omega
    simp only [hj, Option.bind_eq_bind, Option.bind_some]
    rw [hej]
    simp only
    split_ifs with hin
    · have hJM' : J = M := by omega
      subst hJM'
      refine ⟨j, rfl, Or.inl ⟨⟨⟨(hmem j).mpr ⟨by omega, by rwa [← hMN], by rwa [← hMN]⟩,
        hfirst.1.2⟩, hsj⟩, ?_⟩⟩
      rintro c ⟨⟨-, hcwd⟩, hsc⟩
      exact hfirst.2 ⟨hsc, hcwd⟩
    · refine ⟨-1, rfl, Or.inr ⟨rfl, ?_⟩⟩
      rintro c ⟨hc, hcwd⟩
      by_contra hcs
      have hjc := hfirst.2 ⟨show start ≤ c by omega, hcwd⟩
      obtain ⟨-, h1, h2⟩ := (hmem c).mp hc
      rw [← hMN] at h1 h2
      have hJ1 : J = M + 1 := by
        have : J ≠ M := by rintro rfl; omega
        omega
      have := monthStart_succ (M := M) (by omega)
      rw [hJ1] at hlj
      omega

end Patterns

theorem simpleDates_of_pattern {t : Trigger} (h : t.d = none ∨ t.wd = 0) :
    simpleDates t = {n | MatchesParts t.d t.m t.y n ∧ (t.wd ≠ 0 → t.wd.has n = true)} := by
  unfold simpleDates
  rw [if_neg]
  rintro ⟨h1, h2⟩
  rcases h with h | h
  · exact h1 h
  · exact h2 h

/-- `NextIn` only depends on the members of the set. -/
theorem NextIn.congr {S T : Set ℤ} {start j : ℤ} (h : NextIn S start j) (hST : ∀ n, n ∈ S ↔ n ∈ T) :
    NextIn T start j := by
  rwa [show T = S from Set.ext fun n => (hST n).symm]

theorem matchesParts_all {n : ℤ} : MatchesParts none none none n ↔ 0 ≤ n :=
  ⟨fun h => h.nonneg, fun h => ⟨h, by simp, by simp, by simp⟩⟩

/-- The patterns without a weekday that leave a part open. -/
theorem nextSimpleTrig_plain {start : ℤ} {t : Trigger} (hs : 0 ≤ start) (ht : t.InRange)
    (hwd : t.wd = 0) (hopen : t.d = none ∨ t.m = none ∨ t.y = none) (hgood : ¬ t.BadDay) :
    ∃ j, nextSimpleTrig start t = some (.ok j) ∧
      NextIn {n | MatchesParts t.d t.m t.y n} start j := by
  obtain ⟨hday, hmon, hyr⟩ := ht
  unfold Trigger.BadDay at hgood
  unfold nextSimpleTrig
  rw [hwd]
  generalize t.d = d, t.m = m, t.y = y at *
  rcases d with _ | td <;> rcases m with _ | tm <;> rcases y with _ | ty
  · exact ⟨start, rfl, Or.inl ⟨⟨matchesParts_all.mpr hs, le_rfl⟩, fun c hc => hc.2⟩⟩
  · exact ⟨_, rfl, nextYr_spec hs⟩
  · obtain ⟨h0, h11⟩ := hmon tm rfl
    exact ⟨_, rfl, Or.inl (nextMon_spec hs h0 h11)⟩
  · obtain ⟨h0, h11⟩ := hmon tm rfl
    exact ⟨_, rfl, nextMonYr_spec hs h0 h11⟩
  · obtain ⟨h1, h31⟩ := hday td rfl
    obtain ⟨j, hj, hl⟩ := nextDay_spec hs h1 h31
    exact ⟨j, by simp [hj], Or.inl hl⟩
  · obtain ⟨h1, h31⟩ := hday td rfl
    obtain ⟨j, hj, hl⟩ := nextDayYr_spec hs h1 h31 (hyr ty rfl)
    exact ⟨j, by simp [hj], hl⟩
  · obtain ⟨h1, h31⟩ := hday td rfl
    obtain ⟨h0, h11⟩ := hmon tm rfl
    have hlen : ¬ td > monthDays tm := fun h => hgood ⟨td, tm, rfl, rfl, h⟩
    obtain ⟨j, hj, hl⟩ := nextDayMon_spec hs h1 h0 h11 (by omega)
    exact ⟨j, by simp [hj, hlen], Or.inl hl⟩
  · simp at hopen

/-- The patterns with a weekday set and no day. -/
theorem nextSimpleTrig_weekday {start : ℤ} {t : Trigger} (hs : 0 ≤ start) (ht : t.InRange)
    (hwd : t.wd ≠ 0) (hd : t.d = none) :
    ∃ j, nextSimpleTrig start t = some (.ok j) ∧
      NextIn {n | MatchesParts t.d t.m t.y n ∧ t.wd.has n = true} start j := by
  obtain ⟨-, hmon, -⟩ := ht
  unfold nextSimpleTrig
  rw [hd]
  generalize t.m = m, t.y = y at *
  rcases m with _ | tm <;> rcases y with _ | ty <;> simp only [hwd, ne_eq, not_false_eq_true,
    decide_true]
  · obtain ⟨j, hj, hfirst⟩ := advanceToWd_spec hwd start
    have := hfirst.le
    exact ⟨j, by simp [hj], Or.inl ⟨⟨⟨matchesParts_all.mpr (by omega), hfirst.1.2⟩, this⟩,
      fun c hc => hfirst.2 ⟨hc.2, hc.1.2⟩⟩⟩
  · obtain ⟨j, hj, hl⟩ := nextYrWd_spec ty hwd hs
    exact ⟨j, by simp [hj], hl⟩
  · obtain ⟨h0, h11⟩ := hmon tm rfl
    obtain ⟨j, hj, hl⟩ := nextMonWd_spec hwd hs h0 h11
    exact ⟨j, by simp [hj], Or.inl hl⟩
  · obtain ⟨h0, h11⟩ := hmon tm rfl
    obtain ⟨j, hj, hl⟩ := nextMonYrWd_spec ty hwd hs h0 h11
    exact ⟨j, by simp [hj], hl⟩

end Remind
