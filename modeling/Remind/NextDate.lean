import Remind.AnchoredTrig

/-!
# NextDate — what a caller of `NextSimpleTrig` can rely on

For every trigger in range and without an impossible day the search for a simple date answers in
one of three ways: with the next simple date, with one that has gone by (all of them have), or,
where `AnchoredOk` fails, with the one after the next.
-/

namespace Remind

/-- The answer of `NextSimpleTrig` to a start. -/
inductive NextAnswer (t : Trigger) (start : ℤ) : ℤ → Prop
  | next {j : ℤ} : NextIn (simpleDates t) start j → AnchoredOk start t → NextAnswer t start j
  /-- All simple dates have gone by; the answer is one that is never overlooked. -/
  | past {j : ℤ} : j ∈ simpleDates t → j < start → (∀ n ∈ simpleDates t, n < start) →
      (∀ s, 0 ≤ s → IsLeast {n | n ∈ simpleDates t ∧ s ≤ n} j → AnchoredOk s t) →
      NextAnswer t start j
  /-- The next simple date is overlooked, and the answer is the one after it, if there is one. -/
  | overlooked {b j : ℤ} : ¬ AnchoredOk start t →
      IsLeast {n | n ∈ simpleDates t ∧ start ≤ n} b →
      NextIn {n | n ∈ simpleDates t ∧ n ≠ b} start j → (j ≠ -1 → AnchoredOk (b + 1) t) →
      NextAnswer t start j

section Answer

variable {start td ty : ℤ} {t : Trigger}

theorem anchoredOk_of_mon (hm : t.m ≠ none) (start : ℤ) : AnchoredOk start t :=
  fun _ _ _ _ h _ => (hm h).elim

theorem anchoredOk_of_pattern (h : t.d = none ∨ t.wd = 0 ∨ t.y = none) (start : ℤ) :
    AnchoredOk start t := by
  intro hwd d y hd _ hy
  rcases h with h | h | h
  · rw [h] at hd
    cases hd
  · exact (hwd h).elim
  · rw [h] at hy
    cases hy

theorem month_mono {a b : ℤ} (ha : 0 ≤ a) (hab : a ≤ b) :
    monthNo (dseYear a) (dseMonth a) ≤ monthNo (dseYear b) (dseMonth b) ∧ 0 ≤ dseMonth a ∧
      dseMonth a ≤ 11 := by
  obtain ⟨M, hM, hlo, hhi, he⟩ := fromDSE_month ha
  obtain ⟨N, hN, hlo', hhi', he'⟩ := fromDSE_month (n := b) (by omega)
  have hb := baseMonth_ge
  have := month_le (K := N) (M := M) (n := b) (by omega) hhi' (by omega)
  unfold dseYear dseMonth monthNo
  rw [he, he']
  exact ⟨by simp only; omega, by simp only; omega, by simp only; omega⟩

/-- A start that `NextSimpleTrig` gets right can be moved up to the date it finds. -/
theorem AnchoredOk.up {l b : ℤ} (hs : 0 ≤ start) (ht : t.InRange) (h : AnchoredOk start t)
    (hb : IsLeast {n | n ∈ simpleDates t ∧ start ≤ n} b) (hsl : start ≤ l) (hlb : l ≤ b) :
    AnchoredOk l t := by
  intro hwd d y hd hm hy
  have hok := h hwd d y hd hm hy
  obtain ⟨h1, h31⟩ := ht.day d hd
  have hty := ht.yr y hy
  obtain ⟨hp0, hp10, hplen, -, -, hjan⟩ := lastBeforeDec_spec y h31
  rw [simpleDates_anchoredYear hwd h1 hd hm hy] at hb
  -- a date before `l` is before `start`
  have hgap : ∀ k, 0 ≤ k → k ≤ 11 → d ≤ daysInMonth k y → anchorIn y d t.wd k < l →
      anchorIn y d t.wd k < start := by
    intro k hk0 hk11 hlen hk
    by_contra hge
    have hle : b ≤ anchorIn y d t.wd k :=
      hb.2 ⟨(mem_yearDates hwd hty).mpr ⟨k, hk0, hk11, hlen, rfl⟩, by omega⟩
    omega
  have hyear : ∀ k, 0 ≤ k → k ≤ 10 → anchorIn y d t.wd k < start → dseYear l = y →
      dseYear start = y := by
    intro k hk0 hk10 hk hyl
    have hky := anchorIn_year hwd hty h1 h31 hk0 hk10
    obtain ⟨-, hlo, -, hbase, -⟩ := anchorIn_spec hwd hty d hk0 (by omega)
    have hpos := monthStart_nonneg hbase
    obtain ⟨hm1, -⟩ := month_mono (a := anchorIn y d t.wd k) (b := start) (by omega) (by omega)
    obtain ⟨hm2, -⟩ := month_mono hs hsl
    obtain ⟨-, h3, h4⟩ := month_mono (a := anchorIn y d t.wd k) (by omega) le_rfl
    obtain ⟨-, h5, h6⟩ := month_mono hs le_rfl
    obtain ⟨-, h7, h8⟩ := month_mono (a := l) (by omega) le_rfl
    unfold monthNo at hm1 hm2
    omega
  refine ⟨?_, ?_, ?_⟩
  · rintro ⟨hyl, hlast, hspill⟩
    have hlast' := hgap _ hp0 (by omega) hplen hlast
    exact hok.1 ⟨hyear _ hp0 hp10 hlast' hyl, hlast', hspill⟩
  · rintro ⟨-, -, hlt⟩
    obtain ⟨k, hk0, hk11, -, rfl⟩ := (mem_yearDates hwd hty).mp hb.1.1
    have := anchorIn_mono hwd hty d hk0 hk11 le_rfl
    omega
  · rintro ⟨hyl, hml, h29, hleap, hjl⟩
    have hj' := hgap 0 le_rfl (by omega) hjan hjl
    have hys := hyear 0 le_rfl (by omega) hj' hyl
    obtain ⟨hm2, h0, -⟩ := month_mono hs hsl
    refine hok.2.2 ⟨hys, ?_, h29, hleap, hj'⟩
    unfold monthNo at hm2
    omega

/-- One simple date, whatever the start. -/
theorem nextAnswer_single {n : ℤ} (hset : simpleDates t = {n})
    (hok : ∀ s, AnchoredOk s t) (start : ℤ) : NextAnswer t start n := by
  by_cases hle : start ≤ n
  · refine .next (Or.inl ⟨⟨by rw [hset]; rfl, hle⟩, ?_⟩) (hok start)
    rintro x ⟨hx, -⟩
    rw [hset] at hx
    exact le_of_eq hx.symm
  · refine .past (by rw [hset]; rfl) (by omega) ?_ fun s _ _ => hok s
    intro x hx
    rw [hset] at hx
    rw [show x = n from hx]
    omega

theorem nextAnswer_year (hwd : t.wd ≠ 0) (hty : baseYr ≤ ty) (hs : 0 ≤ start) (h1 : 1 ≤ td)
    (h31 : td ≤ 31) (hd : t.d = some td) (hm : t.m = none) (hy : t.y = some ty) {j : ℤ}
    (h : YearAnswer start td ty t.wd j) : NextAnswer t start j := by
  have hset := simpleDates_anchoredYear hwd h1 hd hm hy
  have hok := fun s => (anchoredOk_year hwd hd hm hy : AnchoredOk s t ↔ _)
  cases h with
  | right hnext hyok => exact .next (by rw [hset]; exact hnext) ((hok _).mpr hyok)
  | spill hyr hlast hspill =>
    obtain ⟨hleast, hrest⟩ := spill_overlooks hwd hty hs h1 h31 hyr hlast hspill
    refine .overlooked (b := anchorIn ty td t.wd 11) ?_ (by rw [hset]; exact hleast)
      (Or.inr ⟨rfl, ?_⟩) (fun h => (h rfl).elim)
    · exact fun h => ((hok _).mp h).1 ⟨hyr, hlast, hspill⟩
    · rintro n ⟨hn, hne⟩
      rw [hset] at hn
      exact hrest n hn hne
  | @january z hyr hmon hdec hz1 hz2 hz29 hzlen =>
    obtain ⟨hp0, hp10, hplen, hplast, hdec', hjan⟩ := lastBeforeDec_spec ty h31
    have hmono := fun k (hk0 : 0 ≤ k) (hk11 : k ≤ 11) =>
      anchorIn_mono hwd hty td (m := k) (k := 11) hk0 hk11 le_rfl
    have hz11 := hmono z (by omega) (by omega)
    refine .past ?_ (by omega) ?_ fun s hs0 hleast => (hok s).mpr ⟨?_, ?_, ?_⟩
    · rw [hset]
      exact (mem_yearDates hwd hty).mpr ⟨z, by omega, by omega, hzlen, rfl⟩
    · intro n hn
      rw [hset] at hn
      obtain ⟨k, hk0, hk11, -, rfl⟩ := (mem_yearDates hwd hty).mp hn
      have := hmono k hk0 hk11
      omega
    · rintro ⟨-, hlast, -⟩
      have hle := anchorIn_mono hwd hty td (m := z) (k := lastBeforeDec td) (by omega)
        (hplast z (by omega) (by omega) hzlen) (by omega)
      have hsz : s ≤ anchorIn ty td t.wd z := hleast.1.2
      omega
    · rintro ⟨-, -, hlt⟩
      have hsz : s ≤ anchorIn ty td t.wd z := hleast.1.2
      omega
    · rintro ⟨hys, hms, h29, hleap, hjs⟩
      -- 29 February would come before the answer
      obtain ⟨hfeb, -⟩ := slip_overlooks hwd hty hs0 hys hms h29 hleap hjs
      rw [hset] at hleast
      have heq := hleast.unique hfeb
      rw [hz29 h29] at heq
      have := anchorIn_lt hwd hty td (m := 1) (k := 2) (by omega) (by omega) (by omega)
      omega
  | slip hyr hmon h29 hleap hjs =>
    obtain ⟨hfeb, hmar⟩ := slip_overlooks hwd hty hs hyr hmon h29 hleap hjs
    have hb12 : anchorIn ty td t.wd 1 < anchorIn ty td t.wd 2 := hmar.1.2
    have hs1 : start ≤ anchorIn ty td t.wd 1 := hfeb.1.2
    refine .overlooked (b := anchorIn ty td t.wd 1) ?_ (by rw [hset]; exact hfeb)
      (Or.inl ⟨⟨⟨by rw [hset]; exact hmar.1.1, by omega⟩,
        show start ≤ anchorIn ty td t.wd 2 by omega⟩, ?_⟩) fun _ => (hok _).mpr ?_
    · exact fun h => ((hok _).mp h).2.2 ⟨hyr, hmon, h29, hleap, hjs⟩
    · rintro n ⟨⟨hn, hne⟩, hsn⟩
      rw [hset] at hn
      have := hfeb.2 ⟨hn, hsn⟩
      exact hmar.2 ⟨hn, lt_of_le_of_ne this (Ne.symm hne)⟩
    · have hlast := (lastBeforeDec_spec ty h31).2.1
      have hlt : ∀ k, 1 < k → k ≤ 11 → anchorIn ty td t.wd 1 < anchorIn ty td t.wd k :=
        fun k hk hk11 => anchorIn_lt hwd hty td (by omega) hk hk11
      refine ⟨?_, ?_, ?_⟩
      · rintro ⟨-, h, -⟩
        have := hlt (lastBeforeDec td) (by unfold lastBeforeDec; split_ifs <;> omega) (by omega)
        omega
      · rintro ⟨-, -, h⟩
        have := hlt 11 (by omega) le_rfl
        omega
      · rintro ⟨hy', hm', -⟩
        have := lt_anchorIn_of_month hwd hty td (k := 1) (by omega) h1 hy' (by omega)
          (by omega)
        omega

/-- The only error is that of a day which the month cannot have. -/
theorem nextSimpleTrig_error {e : ErrCode} (h : nextSimpleTrig start t = some (.error e)) :
    e = .badDate ∧ t.BadDay := by
  unfold nextSimpleTrig at h
  unfold Trigger.BadDay
  rcases hd : t.d with _ | td <;> rcases hm : t.m with _ | tm <;> rcases hy : t.y with _ | ty <;>
    rcases hw : decide (t.wd ≠ 0) with _ | _ <;> simp only [hd, hm, hy, hw] at h <;>
    first
    | (split_ifs at h with hbad <;> simp at h
       exact ⟨h.symm, td, tm, rfl, rfl, hbad⟩)
    | simp at h

theorem nextSimpleTrig_badDay (hbad : t.BadDay) :
    nextSimpleTrig start t = some (.error .badDate) := by
  obtain ⟨d, m, hd, hm, hlt⟩ := hbad
  unfold nextSimpleTrig
  rcases hy : t.y with _ | y <;> simp only [hy] at hlt <;>
    rcases hw : decide (t.wd ≠ 0) with _ | _ <;> simp only [hd, hm, hy, hw] <;> rw [if_pos hlt]

/-- Day, month and year: the one date they name. -/
theorem simpleDates_date {td tm ty : ℤ} (hwd : t.wd = 0) (hd : t.d = some td) (hm : t.m = some tm)
    (hy : t.y = some ty) (hv : Valid ty tm td) : simpleDates t = {dse ty tm td} := by
  rw [simpleDates_of_pattern (Or.inr hwd)]
  ext n
  simp only [hwd, ne_eq, not_true_eq_false, false_imp_iff, and_true, Set.mem_ofPred_eq,
    Set.mem_singleton_iff, hd, hm, hy]
  constructor
  · rintro ⟨hn, h1, h2, h3⟩
    obtain ⟨-, hdse⟩ := fromDSE_spec hn
    rw [← hdse, h1 td rfl, h2 tm rfl, h3 ty rfl]
  · rintro rfl
    have hn : 0 ≤ dse ty tm td := by
      have hbase : baseMonth = 12 * baseYr := rfl
      have := monthStart_nonneg (M := monthNo ty tm)
        (by have := hv.year; have := hv.monthLo; unfold monthNo; omega)
      have := hv.dayLo
      rw [dse_eq_monthStart hv.monthLo hv.monthHi]
      omega
    have he := fromDSE_dse hv
    refine ⟨hn, ?_, ?_, ?_⟩ <;> rw [he] <;> rintro x ⟨⟩ <;> rfl

theorem Trigger.InRange.valid {td tm ty : ℤ} (ht : t.InRange) (hd : t.d = some td)
    (hm : t.m = some tm) (hy : t.y = some ty) (hgood : ¬ t.BadDay) : Valid ty tm td where
  year := ht.yr ty hy
  monthLo := (ht.mon tm hm).1
  monthHi := (ht.mon tm hm).2
  dayLo := (ht.day td hd).1
  dayHi := by
    by_contra hlt
    exact hgood ⟨td, tm, hd, hm, by rw [hy]; simp only; omega⟩

/-- Day, month and year: the one date they name is found from every start. -/
theorem nextSimpleTrig_date (ht : t.InRange) (hgood : ¬ t.BadDay) (hd : t.d ≠ none)
    (hm : t.m ≠ none) (hy : t.y ≠ none) :
    ∃ n, 0 ≤ n ∧ simpleDates t = {n} ∧ ∀ start, nextSimpleTrig start t = some (.ok n) := by
  obtain ⟨td, hd⟩ := Option.ne_none_iff_exists'.mp hd
  obtain ⟨tm, hm⟩ := Option.ne_none_iff_exists'.mp hm
  obtain ⟨ty, hy⟩ := Option.ne_none_iff_exists'.mp hy
  have hv := ht.valid hd hm hy hgood
  have hlen := hv.dayHi
  by_cases hwd : t.wd = 0
  · have hset := simpleDates_date hwd hd hm hy hv
    refine ⟨dse ty tm td, ?_, hset, fun start => ?_⟩
    · have : dse ty tm td ∈ simpleDates t := by rw [hset]; rfl
      rw [simpleDates_of_pattern (Or.inr hwd)] at this
      exact this.1.nonneg
    · unfold nextSimpleTrig
      simp only [hd, hm, hy, hwd, ne_eq, not_true_eq_false, decide_false]
      rw [if_neg (by omega)]
  · refine ⟨anchorIn ty td t.wd tm, ?_, simpleDates_full hwd hd hm hy hv, fun start => ?_⟩
    · obtain ⟨-, hlo, -, hb, -⟩ := anchorIn_spec hwd hv.year td hv.monthLo hv.monthHi
      have := monthStart_nonneg hb
      have := hv.dayLo
      omega
    · unfold nextSimpleTrig
      simp only [hd, hm, hy, hwd, ne_eq, not_false_eq_true, decide_true]
      rw [if_neg (by omega), advanceToWd_eq hwd]
      rfl

/-- **The answer of `NextSimpleTrig`**, for every trigger in range with a possible day. -/
theorem nextSimpleTrig_answer (hs : 0 ≤ start) (ht : t.InRange) (hgood : ¬ t.BadDay) :
    ∃ j, nextSimpleTrig start t = some (.ok j) ∧ NextAnswer t start j := by
  by_cases hfull : t.d = none ∨ t.m = none ∨ t.y = none
  · by_cases hwd : t.wd = 0
    · obtain ⟨j, hj, hnext⟩ := nextSimpleTrig_plain hs ht hwd hfull hgood
      refine ⟨j, hj, .next ?_ (anchoredOk_of_pattern (Or.inr (Or.inl hwd)) _)⟩
      rw [simpleDates_of_pattern (Or.inr hwd)]
      exact hnext.congr fun n => by simp [hwd]
    by_cases hd : t.d = none
    · obtain ⟨j, hj, hnext⟩ := nextSimpleTrig_weekday hs ht hwd hd
      refine ⟨j, hj, .next ?_ (anchoredOk_of_pattern (Or.inl hd) _)⟩
      rw [simpleDates_of_pattern (Or.inl hd)]
      exact hnext.congr fun n => ⟨fun h => ⟨h.1, fun _ => h.2⟩, fun h => ⟨h.1, h.2 hwd⟩⟩
    have hopen : t.m = none ∨ t.y = none := hfull.resolve_left hd
    by_cases hyear : t.m = none ∧ t.y ≠ none
    · obtain ⟨hm, hy⟩ := hyear
      obtain ⟨td, hd⟩ := Option.ne_none_iff_exists'.mp hd
      obtain ⟨ty, hy⟩ := Option.ne_none_iff_exists'.mp hy
      obtain ⟨h1, h31⟩ := ht.day td hd
      obtain ⟨j, hj, hans⟩ := nextDayYrWd_spec hwd (ht.yr ty hy) hs h1 h31
      refine ⟨j, ?_, nextAnswer_year hwd (ht.yr ty hy) hs h1 h31 hd hm hy hans⟩
      unfold nextSimpleTrig
      simp only [hd, hm, hy, hwd, ne_eq, not_false_eq_true, decide_true, hj, Option.map_some]
    · have hok : AnchoredOk start t := fun _ d y _ hm hy =>
        (hyear ⟨hm, by rw [hy]; exact Option.some_ne_none y⟩).elim
      obtain ⟨r, hr, hiff⟩ := nextSimpleTrig_anchored_iff hs ht hwd hd hopen
      rcases r with e | j
      · exact (hgood (nextSimpleTrig_error hr).2).elim
      · exact ⟨j, hr, .next (hiff.mpr hok) hok⟩
  · push Not at hfull
    obtain ⟨hd, hm, hy⟩ := hfull
    obtain ⟨n, hn, hset, hnext⟩ := nextSimpleTrig_date ht hgood hd hm hy
    exact ⟨n, hnext start, nextAnswer_single hset (anchoredOk_of_mon hm) start⟩

theorem nextSimpleTrig_nextAnswer {j : ℤ} (hs : 0 ≤ start) (ht : t.InRange)
    (h : nextSimpleTrig start t = some (.ok j)) : NextAnswer t start j := by
  by_cases hbad : t.BadDay
  · rw [nextSimpleTrig_badDay hbad] at h
    cases h
  · obtain ⟨j', hj', hans⟩ := nextSimpleTrig_answer hs ht hbad
    rw [h] at hj'
    cases hj'
    exact hans

theorem simpleDates_nonneg {n : ℤ} (h : n ∈ simpleDates t) : 0 ≤ n := by
  unfold simpleDates at h
  split_ifs at h
  · obtain ⟨b, hb, hn⟩ := h
    have := hb.nonneg
    have := hn.le
    omega
  · exact h.1.nonneg

end Answer

end Remind
