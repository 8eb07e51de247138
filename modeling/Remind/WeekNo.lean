import Remind.DateFuncs

/-!
# WeekNo — week numbers (funcs.c: `FWeekno`)

`WeekStart` is the start of the numbering in a year.  The starts of consecutive years are a year
apart, so that the one before a date is found in its year or one of the two before.
-/

namespace Remind

/-- `s` is the first day `wkstart` of a week on or after day `daystart` of January or December. -/
def WeekStart (wkstart daystart y s : ℤ) : Prop :=
  IsLeast {x | dse y (if daystart ≤ 7 then 0 else 11) daystart ≤ x ∧ x % 7 = wkstart} s

/-- `k` is the number of the week of `n` from the last start on that is not after `n`. -/
def WeekNumber (wkstart daystart n k : ℤ) : Prop :=
  ∃ y s, baseYr ≤ y ∧ WeekStart wkstart daystart y s ∧ s ≤ n ∧
    (∀ y' s', baseYr ≤ y' → WeekStart wkstart daystart y' s' → s' ≤ n → s' ≤ s) ∧
    k = (n - s) / 7 + 1

/-- The week number of ISO 8601: a week belongs to the year of its Thursday, and the first week of a
year is the one with its first Thursday. -/
def isoWeek (n : ℤ) : ℤ :=
  let thursday := n - n % 7 + 3
  (thursday - dse (fromDSE thursday).y 0 1) / 7 + 1

section Starts

variable {w d y n : ℤ}

theorem yearStart_lt {y y' : ℤ} (hy : 1 ≤ y) (h : y < y') : yearStart y + 365 ≤ yearStart y' := by
  rw [yearStart_eq hy, yearStart_eq (by omega)]
  omega

theorem yearStart_nonneg {y : ℤ} (hy : baseYr ≤ y) : 0 ≤ yearStart y := by
  rw [show baseYr = 1990 from rfl] at hy
  rw [yearStart_eq (by omega)]
  omega

/-- The day that the numbering starts on or after, by the beginning of a year. -/
theorem dse_daystart (hy : baseYr ≤ y) :
    dse y (if d ≤ 7 then 0 else 11) d =
      if d ≤ 7 then yearStart y + d - 1 else yearStart (y + 1) + d - 32 := by
  rw [show baseYr = 1990 from rfl] at hy
  have hdec := monthIndex_dec y
  have hzero := monthIndex_zero y
  have hsucc := yearStart_succ (show 1 ≤ y by omega)
  unfold dse
  split_ifs
  · omega
  · omega

theorem weekFrom_isLeast (hw : 0 ≤ w ∧ w ≤ 6) {c : ℤ} (hc : 0 ≤ c) :
    IsLeast {x | c ≤ x ∧ x % 7 = w} (weekFrom w c) := by
  have hmod : ∀ x, c ≤ x → (decide (x.tmod 7 = w) = true ↔ x % 7 = w) := by
    intro x hx
    rw [decide_eq_true_iff, Int.tmod_eq_emod_of_nonneg (by omega)]
  have hex : ∃ j : ℕ, j < 7 ∧ decide ((c + j).tmod 7 = w) = true := by
    refine ⟨((w - c) % 7).toNat, by omega, ?_⟩
    rw [hmod _ (by omega)]
    omega
  obtain ⟨r, hr, hleast⟩ :=
    @Lib.whileFuel_scanUp_isLeast (fun x => decide (x.tmod 7 = w)) c 7 hex
  have hset : {z | c ≤ z ∧ decide (z.tmod 7 = w) = true} = {x | c ≤ x ∧ x % 7 = w} := by
    ext x
    exact and_congr_right fun hx => hmod x hx
  rw [hset] at hleast
  unfold weekFrom
  rw [hr]
  exact hleast

theorem weekCandidate_spec (hw : 0 ≤ w ∧ w ≤ 6) (hd : 1 ≤ d) (hy : baseYr ≤ y) :
    WeekStart w d y (weekCandidate w d y) := by
  refine weekFrom_isLeast hw ?_
  rw [dse_daystart hy]
  have h0 := yearStart_nonneg hy
  have h1 := yearStart_nonneg (y := y + 1) (by omega)
  have h2 := yearStart_lt (show 1 ≤ y by rw [show baseYr = 1990 from rfl] at hy; omega)
    (show y < y + 1 by omega)
  split_ifs <;> omega

theorem WeekStart.unique {s s' : ℤ} (h : WeekStart w d y s) (h' : WeekStart w d y s') : s = s' :=
  IsLeast.unique h h'

/-- A start is within a week of the day that the numbering starts on or after. -/
theorem WeekStart.bounds {s : ℤ} (h : WeekStart w d y s) (hw : 0 ≤ w ∧ w ≤ 6)
    (hy : baseYr ≤ y) : (if d ≤ 7 then yearStart y + d - 1 else yearStart (y + 1) + d - 32) ≤ s ∧
      s ≤ (if d ≤ 7 then yearStart y + d - 1 else yearStart (y + 1) + d - 32) + 6 ∧ s % 7 = w := by
  obtain ⟨⟨hle, hmod⟩, hmin⟩ := h
  rw [dse_daystart hy] at hle
  refine ⟨hle, ?_, hmod⟩
  generalize hc : (if d ≤ 7 then yearStart y + d - 1 else yearStart (y + 1) + d - 32) = c at hle
  have hmem : c + (w - c) % 7 ∈ {x | dse y (if d ≤ 7 then 0 else 11) d ≤ x ∧ x % 7 = w} := by
    rw [Set.mem_ofPred_eq, dse_daystart hy, hc]
    omega
  have := hmin hmem
  omega

/-- Later years start later. -/
theorem WeekStart.lt {y y' s s' : ℤ} (h : WeekStart w d y s) (h' : WeekStart w d y' s')
    (hw : 0 ≤ w ∧ w ≤ 6) (hy : baseYr ≤ y) (hyy : y < y') : s < s' := by
  obtain ⟨-, hhi, -⟩ := h.bounds hw hy
  obtain ⟨hlo, -, -⟩ := h'.bounds hw (hy.trans hyy.le)
  rw [show baseYr = 1990 from rfl] at hy
  have h1 := yearStart_lt (show 1 ≤ y by omega) hyy
  have h2 := yearStart_lt (show 1 ≤ y + 1 by omega) (show y + 1 < y' + 1 by omega)
  split_ifs at hhi hlo <;> omega

/-- The year of a day. -/
theorem fromDSE_year (hn : 0 ≤ n) : baseYr ≤ (fromDSE n).y ∧ yearStart (fromDSE n).y ≤ n ∧
    n < yearStart ((fromDSE n).y + 1) := by
  obtain ⟨⟨h1, h2, h3, h4, h5⟩, h⟩ := fromDSE_spec hn
  generalize fromDSE n = t at h1 h2 h3 h4 h5 h
  have hfirst := dse_eq_monthStart (y := t.y) h2 h3 t.d
  have hz : ∀ y, monthStart (monthNo y 0) = yearStart y := fun y => by
    rw [monthStart_monthNo (le_refl _) (by omega), dse, monthIndex_zero]
    omega
  have hstart := monthStart_mono (M := monthNo t.y 0) (N := monthNo t.y t.m)
    (by unfold monthNo baseYr at *; omega) (by unfold monthNo; omega)
  have hend := monthStart_add_monthLen_le (M := monthNo t.y t.m) (N := monthNo (t.y + 1) 0)
    (by unfold monthNo baseYr at *; omega) (by unfold monthNo; omega)
  rw [monthLen_monthNo h2 h3, hz] at hend
  rw [hz] at hstart
  exact ⟨h1, by omega, by omega⟩

end Starts

/-! ### The search for the start -/

section Search

variable {w d n : ℤ}

/-- **FWeekno** counts the weeks from the last start that is not after the date, and fails where
there is none. -/
theorem weekno_spec (hn : 0 ≤ n) (hw : 0 ≤ w ∧ w ≤ 6) (hd : 1 ≤ d ∧ d ≤ 31) :
    (∃ k, weekno n w d = .ok k ∧ WeekNumber w d n k) ∨
      (weekno n w d = .error .dateOver ∧
        ∀ y s, baseYr ≤ y → WeekStart w d y s → n < s) := by
  obtain ⟨hbase, hlo, hhi⟩ := fromDSE_year hn
  unfold weekno
  generalize (fromDSE n).y = y at hbase hlo hhi
  have hb : baseYr = 1990 := rfl
  have hspec : ∀ y, baseYr ≤ y → WeekStart w d y (weekCandidate w d y) := fun y hy =>
    weekCandidate_spec hw hd.1 hy
  -- the starts of later years come after the date
  have hlater : ∀ y' s', y < y' → WeekStart w d y' s' → n < s' := by
    intro y' s' hy' hs'
    obtain ⟨hlow, -, -⟩ := hs'.bounds hw (by omega)
    have h1 : yearStart (y + 1) ≤ yearStart y' := by
      rcases eq_or_lt_of_le (show y + 1 ≤ y' by omega) with rfl | hlt
      · exact le_refl _
      · have := yearStart_lt (show 1 ≤ y + 1 by omega) hlt
        omega
    have h2 := yearStart_lt (show 1 ≤ y' by omega) (show y' < y' + 1 by omega)
    split_ifs at hlow <;> omega
  -- the start of one year is the last one, where those of the years up to `y` are after the date
  have hfound : ∀ z, baseYr ≤ z → weekCandidate w d z ≤ n →
      (∀ y', z < y' → y' ≤ y → n < weekCandidate w d y') →
      WeekNumber w d n ((n - weekCandidate w d z).tdiv 7 + 1) := by
    intro z hz hle hafter
    refine ⟨z, _, hz, hspec z hz, hle, fun y' s' hy' hs' hs'n => ?_, ?_⟩
    · rcases lt_trichotomy y' z with hlt | rfl | hlt
      · exact (hs'.lt (hspec z hz) hw hy' hlt).le
      · exact (hs'.unique (hspec y' hz)).le
      · by_cases hy'y : y' ≤ y
        · have := hafter y' hlt hy'y
          rw [hs'.unique (hspec y' hy')] at hs'n
          omega
        · have := hlater y' s' (by omega) hs'
          omega
    · rw [Int.tdiv_eq_ediv_of_nonneg (by omega)]
  -- where the years tried do not do and there are no more, there is no start
  have hnone : ∀ z, (∀ y', z ≤ y' → y' ≤ y → n < weekCandidate w d y') → z - 1 < baseYr →
      ∀ y' s', baseYr ≤ y' → WeekStart w d y' s' → n < s' := by
    intro z hafter hz y' s' hy' hs'
    by_cases hy'y : y' ≤ y
    · rw [hs'.unique (hspec y' hy')]
      exact hafter y' (by omega) hy'y
    · exact hlater y' s' (by omega) hs'
  dsimp only
  split_ifs with h1 h2 h3 h4
  · exact Or.inl ⟨_, rfl, hfound y hbase h1 fun y' hy' hle => absurd hle (by omega)⟩
  · refine Or.inr ⟨rfl, hnone y (fun y' h hle => ?_) h2⟩
    rw [show y' = y by omega]
    omega
  · refine Or.inl ⟨_, rfl, hfound (y - 1) (by omega) h3 fun y' h hle => ?_⟩
    rw [show y' = y by omega]
    omega
  · refine Or.inr ⟨rfl, hnone (y - 1) (fun y' h hle => ?_) (by omega)⟩
    rcases eq_or_lt_of_le hle with rfl | hlt
    · omega
    · rw [show y' = y - 1 by omega]
      omega
  · -- the start of the year before the last is before any date of this one
    have hlast : weekCandidate w d (y - 2) ≤ n := by
      obtain ⟨-, hup, -⟩ := (hspec (y - 2) (by omega)).bounds hw (by omega)
      have h5 := yearStart_lt (show 1 ≤ y - 2 by omega) (show y - 2 < y by omega)
      have h6 := yearStart_lt (show 1 ≤ y - 2 + 1 by omega) (show y - 2 + 1 < y by omega)
      split_ifs at hup <;> omega
    refine Or.inl ⟨_, rfl, hfound (y - 2) (by omega) hlast fun y' h hle => ?_⟩
    rcases eq_or_lt_of_le hle with rfl | hlt
    · omega
    · rw [show y' = y - 1 by omega]
      omega

/-- The week of a day belongs to the year of its Thursday. -/
theorem WeekNumber.eq_isoWeek {k : ℤ} (hn : 0 ≤ n) (h : WeekNumber 0 29 n k) : k = isoWeek n := by
  obtain ⟨y, s, hy, hs, hsn, hmax, rfl⟩ := h
  have hw : (0 : ℤ) ≤ 0 ∧ (0 : ℤ) ≤ 6 := by omega
  have hb : baseYr = 1990 := rfl
  obtain ⟨hbase, hlo, hhi⟩ := fromDSE_year (n := n - n % 7 + 3) (by omega)
  have hfirst : dse (fromDSE (n - n % 7 + 3)).y 0 1 = yearStart (fromDSE (n - n % 7 + 3)).y := by
    rw [dse, monthIndex_zero]
    omega
  unfold isoWeek
  dsimp only
  rw [hfirst]
  generalize (fromDSE (n - n % 7 + 3)).y = yt at hbase hlo hhi
  -- the numbering that starts at the end of the Thursday's year is still to come
  have hnext := weekCandidate_spec (d := 29) hw (by omega) hbase
  obtain ⟨hnext1, -, hnext2⟩ := hnext.bounds hw hbase
  rw [if_neg (by omega)] at hnext1
  have hyt : y < yt := by
    by_contra hge
    rcases eq_or_lt_of_le (not_lt.mp hge) with rfl | hlt
    · have := hs.unique hnext
      omega
    · have := hnext.lt hs hw hbase hlt
      omega
  -- the one that starts around its beginning has come
  have hprev := weekCandidate_spec (y := yt - 1) (d := 29) hw (by omega) (by omega)
  obtain ⟨hprev1, hprev2, hprev3⟩ := hprev.bounds hw (by omega)
  rw [if_neg (by omega), show yt - 1 + 1 = yt by omega] at hprev1 hprev2
  have hle := hmax _ _ (by omega) hprev (by omega)
  have hyy : y = yt - 1 := by
    by_contra hne
    have := hs.lt hprev hw hy (by omega)
    omega
  subst hyy
  have := hs.unique hprev
  omega

theorem WeekNumber.unique {k k' : ℤ} (h : WeekNumber w d n k) (h' : WeekNumber w d n k') :
    k = k' := by
  obtain ⟨y, s, hy, hs, hsn, hmax, rfl⟩ := h
  obtain ⟨y', s', hy', hs', hsn', hmax', rfl⟩ := h'
  rw [le_antisymm (hmax' y s hy hs hsn) (hmax y' s' hy' hs' hsn')]

end Search

/-! ### The function -/

theorem weeknoStart_bounds {v : Option Value} {w : ℤ} (h : weeknoStart v = .ok w) :
    0 ≤ w ∧ w ≤ 6 := by
  unfold weeknoStart at h
  split at h
  · cases h
    omega
  · split_ifs at h <;> (cases h; omega)
  · cases h

theorem weeknoDay_bounds {v : Option Value} {d : ℤ} (h : weeknoDay v = .ok d) :
    1 ≤ d ∧ d ≤ 31 := by
  unfold weeknoDay at h
  split at h
  · cases h
    omega
  · split_ifs at h
    cases h
    omega
  · cases h

theorem weeknoArgs_ok {today : ℤ} {args : List Value} {n w d : ℤ}
    (h : weeknoArgs today args = .ok (n, w, d)) :
    weeknoDate today args[0]? = .ok n ∧ weeknoStart args[1]? = .ok w ∧
      weeknoDay args[2]? = .ok d := by
  unfold weeknoArgs at h
  cases hn : weeknoDate today args[0]? with
  | error r => rw [hn] at h; cases h
  | ok n' =>
    cases hw : weeknoStart args[1]? with
    | error r => rw [hn, hw] at h; cases h
    | ok w' =>
      cases hd : weeknoDay args[2]? with
      | error r => rw [hn, hw, hd] at h; cases h
      | ok d' =>
        rw [hn, hw, hd] at h
        cases h
        exact ⟨rfl, rfl, rfl⟩

end Remind
