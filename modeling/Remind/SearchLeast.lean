import Remind.SearchRepeat

/-!
# SearchLeast — when the search finds the least candidate

The result of a search without an error is the least candidate from today on exactly when the
search is not led past it: `SearchFinds`.
-/

namespace Remind

/-- The condition under which the search finds `c`, the least candidate from today on. -/
def SearchFinds (om : ℤ → Bool) (t : Trigger) (today c : ℤ) : Prop :=
  if t.rep = 0 then ScanFinds om t today c else RepeatFinds om t today c

section Least

variable {e : Env Id} {t : Trigger} {today c : ℤ} {tim : TimeTrig} {f : Found}

/-- Without a repeat. -/
theorem searchLoop_scanFinds {n : ℕ} {ns sns : ℤ} (ht : t.Parsed) (htodo : t.isTodo = false)
    (htz : t.tz = none) (hrep : t.rep = 0) (h0 : 0 ≤ today)
    (hc : IsLeast {r | Candidate (e.om t) t r ∧ today ≤ r} c)
    (h : searchLoop e tim today 0 (n + 1) t today ns sns = f) (herr : f.err = none) :
    f.result = c ↔ ScanFinds (e.om t) t today c := by
  obtain ⟨⟨hmoved, hfree, hu⟩, htoday⟩ := hc.1
  have htoday' : today ≤ c := htoday
  -- the first look has found the start of the search
  have hσ : ∃ σ, LocalStart (e.om t) t.skip today σ := by
    have hlook : ∀ r ns', Look e t today (r, ns') → ∃ σ, LocalStart (e.om t) t.skip today σ := by
      intro r ns' hl
      generalize hp : (r, ns') = p at hl
      cases hl with
      | untilPassed _ hpast =>
        exact (pastUntil_of_candidate hc.1.1 htoday' hpast).elim
      | complete htd =>
        rw [htodo] at htd
        cases htd
      | noDate hls _ => exact ⟨_, hls⟩
      | date _ hls _ _ _ _ _ _ => exact ⟨_, hls⟩
    cases searchLoop_round htz h0 h herr with
    | gone hl => exact hlook _ _ hl
    | accepted hl _ _ _ => exact hlook _ _ hl
    | stopped hl _ _ _ _ => exact hlook _ _ hl
    | rescan hl _ _ _ _ _ _ _ => exact hlook _ _ hl
  obtain ⟨σ, hσ⟩ := hσ
  have hσ0 := hσ.nonneg h0
  have hend := searchLoop_scan ht htodo htz hrep hσ0 hσ hσ (Or.inl ⟨rfl, rfl⟩) ?_ h herr
  · have hacc : ∀ b, MovedTo (e.om t) t b c → Accepted (e.om t) t today b c := fun b hb =>
      ⟨hb, htoday', hfree, hu⟩
    generalize f.result = res at hend
    cases hend with
    | @found b _ hseen hb hfirst =>
      constructor
      · rintro rfl
        exact ⟨σ, hσ, b, hseen, hb.moved, fun a ha hab => (hfirst a ha hab).2⟩
      · rintro ⟨σ', hσ', b', hseen', hb', -⟩
        rw [hσ'.unique hσ] at hseen'
        have hbb : b ≤ b' := by
          by_contra hlt
          exact (hfirst b' hseen' (by omega)).1 c (hacc b' hb')
        refine le_antisymm (hb.moved.mono hb' hbb) (hc.2 ⟨⟨?_, hb.free, hb.inUntil⟩, hb.today_le⟩)
        exact (isMoved_iff hrep).mpr ⟨b, hseen.mem, hb.moved⟩
    | missed hmiss =>
      constructor
      · rintro rfl
        omega
      · rintro ⟨σ', hσ', b', hseen', hb', hgo⟩
        rw [hσ'.unique hσ] at hseen' hgo
        obtain ⟨a, ha, hab, hst⟩ := hmiss b' c hseen' (hacc b' hb')
        exact (hgo a ha hab hst).elim
  · rintro b ⟨s, hs, hb, -⟩ hlt
    have h1 := hs.ge
    have h2 : s ≤ b := hb.1.2
    omega

theorem simpleDates_badDay (hbad : t.BadDay) {n : ℤ} : n ∉ simpleDates t := by
  obtain ⟨td, tm, hd, hm, hlt⟩ := hbad
  have key : ∀ b, ¬ MatchesParts t.d t.m t.y b := by
    intro b hb
    obtain ⟨hv, -⟩ := fromDSE_spec hb.nonneg
    have h1 := hv.dayHi
    rw [hb.day td hd, hb.mon tm hm] at h1
    rcases hy : t.y with _ | y <;> rw [hy] at hlt
    · have := daysInMonth_le_monthDays (m := tm) (fromDSE b).y
      simp only at hlt
      omega
    · rw [hb.yr y hy] at h1
      simp only at hlt
      omega
  intro hn
  unfold simpleDates at hn
  split_ifs at hn
  · obtain ⟨b, hb, -⟩ := hn
    exact key b hb
  · exact key n hn.1

/-- The condition for one date and one anchor. -/
theorem repeatFinds_iff {d b : ℤ} (hd : Names t d) (hb : Backed (e.om t) t.back d b) :
    RepeatFinds (e.om t) t today c ↔
      match t.skip with
      | .noSkip => True
      | .after => True
      | .skip => d < c ∨ FirstRepeat t.rep b today c
      | .before => ∃ x, Lib.LastFree (e.om t) x c ∧
          (FirstRepeat t.rep b today x ∨ today ≤ d ∧ pastUntil t.untilDate (d + 1) = false ∧
            FirstRepeat t.rep b (d + 1) x) := by
  constructor
  · rintro ⟨d', hd', b', hb', hmatch⟩
    rw [hd.dates] at hd'
    obtain rfl : d' = d := hd'
    rwa [hb'.unique hb] at hmatch
  · exact fun hmatch => ⟨d, by rw [hd.dates]; rfl, b, hb, hmatch⟩

/-- With a repeat. -/
theorem searchLoop_repeatFinds {n : ℕ} {d ns sns : ℤ} (hd : Names t d) (hrep : 0 < t.rep)
    (htodo : t.isTodo = false) (htz : t.tz = none) (h0 : 0 ≤ today)
    (hc : IsLeast {r | Candidate (e.om t) t r ∧ today ≤ r} c)
    (h : searchLoop e tim today 0 (n + 1) t today ns sns = f) (herr : f.err = none) :
    f.result = c ↔ RepeatFinds (e.om t) t today c := by
  have hcand := hc.1.1
  have htoday : today ≤ c := hc.1.2
  have hc0 : c ≠ -1 := by omega
  -- what the first look finds, and that no candidate comes before it
  have hvisit : ∀ r ns', Look e t today (r, ns') → r ≠ -1 →
      ∃ s b x, LocalStart (e.om t) t.skip today s ∧ Backed (e.om t) t.back d b ∧
        FirstRepeat t.rep b s x ∧ Moved (e.om t) t.skip x r ∧ ns' = d + 1 ∧
        pastUntil t.untilDate r = false ∧ r ≤ c := by
    intro r ns' hlook hr
    obtain ⟨s, b, x, -, hls, hb, hx, hm, hns, hu⟩ := hlook.repeated hd hrep hr
    exact ⟨s, b, x, hls, hb, hx, hm, hns, hu, hx.le_candidate hd hb hls hm hcand htoday⟩
  cases searchLoop_round htz h0 h herr with
  | gone hlook =>
    exfalso
    rcases hlook.repeated_gone hd hrep htodo h0 with hu | ⟨s, b, x, r, hls, hb, hx, hm, hu⟩
    · exact pastUntil_of_candidate hcand htoday hu
    · exact pastUntil_of_candidate hcand (hx.le_candidate hd hb hls hm hcand htoday) hu
  | @accepted r ns' hlook hr htoday' hom =>
    obtain ⟨s, b, x, hls, hb, hx, hm, -, hu, hrc⟩ := hvisit _ _ hlook hr
    have hr' : Candidate (e.om t) t r :=
      Candidate.of_repeat hd hb (by omega) hx hm (fun hsk => Env.om_of_ok (hom hsk)) hu
    obtain rfl : r = c := le_antisymm hrc (hc.2 ⟨hr', show today ≤ r by omega⟩)
    refine ⟨fun _ => ⟨d, by rw [hd.dates]; rfl, b, hb, ?_⟩, fun _ => rfl⟩
    rcases hsk : t.skip with _ | _ | _ | _ <;> rw [hsk] at hls hm <;> simp only
    · rw [localStart_of_ne (by simp) hls, ← (show r = x from hm)] at hx
      exact Or.inr hx
    · rw [localStart_of_ne (by simp) hls] at hx
      exact ⟨x, hm, Or.inl hx⟩
  | @stopped r ns' hlook hr hrej1 hrej2 hend =>
    obtain ⟨s, b, x, hls, hb, hx, hm, hns, -, -⟩ := hvisit _ _ hlook hr
    have hsx : s ≤ x := hx.1.2
    refine ⟨fun hneg => (hc0 hneg.symm).elim, ?_⟩
    rintro ⟨d', hd', b', hb', hmatch⟩
    rw [hd.dates] at hd'
    obtain rfl : d' = d := hd'
    rw [hb'.unique hb] at hmatch
    exfalso
    by_cases hsk : t.skip = .before
    · rw [hsk] at hmatch hls hm
      obtain ⟨x', hl, hx' | ⟨hle, -⟩⟩ := hmatch
      · rw [localStart_of_ne (by simp) hls] at hx
        rw [hx'.unique hx] at hl
        have := hrej2 (by rw [hsk]; simp)
        have : r = c := hm.unique hl
        omega
      · rcases hend with ⟨-, hno, -⟩ | ⟨hle', -⟩
        · rw [hsk] at hno
          cases hno
        · omega
    · have htr := hls.le_moved hm hsk hsx
      by_cases hsk' : t.skip = .skip
      · rcases hend with ⟨-, hno, -⟩ | ⟨-, hno⟩
        · rw [hsk'] at hno
          cases hno
        · exact hno ⟨hsk', (hrej1 hsk').resolve_left (by omega), by omega⟩
      · have := hrej2 hsk'
        omega
  | @rescan r ns' next f hlook hr hrej1 hrej2 _ hlt hnext hrest =>
    obtain ⟨s, b, x, hls, hb, hx, hm, hns, -, hrc⟩ := hvisit _ _ hlook hr
    have hsx : s ≤ x := hx.1.2
    rw [repeatFinds_iff hd hb]
    by_cases hbefore : t.skip = .before
    · have hrt := hrej2 (by rw [hbefore]; simp)
      rw [hbefore] at hls hm ⊢
      rw [localStart_of_ne (by simp) hls] at hx
      have hnext' : next = d + 1 := by
        rcases hnext with rfl | ⟨hsk, -⟩
        · exact hns
        · rw [hbefore] at hsk
          cases hsk
      subst hnext'
      rw [searchLoop_before hd hb hrep htodo htz hbefore h0 hcand htoday hrest herr]
      constructor
      · rintro ⟨hu, x', hx', hl⟩
        exact ⟨x', hl, Or.inr ⟨by omega, hu, hx'⟩⟩
      · rintro ⟨x', hl, hx' | ⟨-, hu, hx'⟩⟩
        · rw [hx'.unique hx] at hl
          have : r = c := hm.unique hl
          omega
        · exact ⟨hu, x', hx', hl⟩
    have htr := hls.le_moved hm hbefore hsx
    by_cases hskip : t.skip = .skip
    · have hom : e.om t r = true := Env.om_of_ok ((hrej1 hskip).resolve_left (by omega))
      have hne : c ≠ r := by
        rintro rfl
        rw [hcand.2.1 hskip] at hom
        cases hom
      rw [hskip] at hls hm ⊢
      rw [localStart_of_ne (by simp) hls, ← (show r = x from hm)] at hx
      have hnd : d + 1 ≤ next := by rcases hnext with rfl | ⟨-, h1, h2, rfl⟩ <;> omega
      have hrest' := searchLoop_skip hd hb hrep htodo htz hskip h0 hnd (by omega) hrest herr
      -- past the next start the least candidate is found
      have hfound : next ≤ c → f.result = c := by
        intro hle
        have hleast : IsLeast {n | n ∈ {r | Candidate (e.om t) t r} ∧ next ≤ n} c :=
          ⟨⟨hcand, hle⟩, fun a ha => hc.2 ⟨ha.1, by have : next ≤ a := ha.2; show today ≤ a; omega⟩⟩
        rcases hrest' with hn | ⟨-, hn⟩
        · exact hn.unique hleast
        · have := hn c hcand
          omega
      by_cases hdc : d < c
      · refine ⟨fun _ => Or.inl hdc, fun _ => hfound ?_⟩
        rcases hnext with rfl | ⟨-, -, -, rfl⟩ <;> omega
      · have hnext' : next = d + 1 := by
          rcases hnext with rfl | ⟨-, h1, -, rfl⟩
          · exact hns
          · omega
        constructor
        · intro hres
          rcases hrest' with hn | ⟨hneg, -⟩
          · have : next ≤ f.result := hn.1.2
            omega
          · omega
        · rintro (hlt' | hfirst)
          · exact (hdc hlt').elim
          · exact (hne (hfirst.unique hx)).elim
    · have := hrej2 hskip
      omega

/-- The date that a search finds is a candidate. -/
theorem searchLoop_candidate {n : ℕ} {ns sns : ℤ} (ht : t.Parsed) (htz : t.tz = none)
    (h0 : 0 ≤ today) (h : searchLoop e tim today 0 n t today ns sns = f) (herr : f.err = none) :
    f.result = -1 ∧ f.trig.expired = true ∨
      f.result ≠ -1 ∧ Candidate (e.om t) t f.result ∧ today ≤ f.result := by
  rcases searchLoop_found htz h0 h herr with hneg | ⟨start, ns', hs, hlook, htoday, hom⟩
  · exact Or.inl ⟨hneg, searchLoop_expired htz h0 h herr hneg⟩
  · obtain ⟨hmoved, hu, -⟩ := hlook.isMoved hs ht (by omega)
    refine Or.inr ⟨by omega, ⟨hmoved, fun hsk => Env.om_of_ok (hom hsk), ?_⟩, by omega⟩
    rcases hun : t.untilDate with _ | u
    · rfl
    · have := hu u hun
      simp only [pastUntil, decide_eq_false_iff_not]
      omega

theorem searchLoop_least {ns sns : ℤ} (ht : t.Parsed) (htodo : t.isTodo = false)
    (htz : t.tz = none) (h0 : 0 ≤ today)
    (hspec : t.rep ≠ 0 → t.d ≠ none ∧ t.m ≠ none ∧ t.y ≠ none)
    (h : searchLoop e tim today 0 trigAttempts t today ns sns = f) (herr : f.err = none) :
    (NextIn {r | Candidate (e.om t) t r} today f.result ↔
        ∀ c, IsLeast {r | Candidate (e.om t) t r ∧ today ≤ r} c →
          SearchFinds (e.om t) t today c) ∧
      (f.result = -1 → f.trig.expired = true) := by
  have hfinds : ∀ c, IsLeast {r | Candidate (e.om t) t r ∧ today ≤ r} c →
      (f.result = c ↔ SearchFinds (e.om t) t today c) := by
    intro c hc
    unfold SearchFinds
    by_cases hrep : t.rep = 0
    · rw [if_pos hrep]
      exact searchLoop_scanFinds ht htodo htz hrep h0 hc h herr
    · rw [if_neg hrep]
      obtain ⟨hd, hm, hy⟩ := hspec hrep
      obtain ⟨b, hb, -⟩ := hc.1.1.1
      obtain ⟨d, hd0, hdates, hnext⟩ :=
        nextSimpleTrig_date ht.toInRange (fun hbad => simpleDates_badDay hbad hb) hd hm hy
      have := ht.rep
      exact searchLoop_repeatFinds ⟨hd0, hdates, hnext⟩ (by omega) htodo htz h0 hc h herr
  refine ⟨⟨fun hn c hc => (hfinds c hc).mp ?_, fun hall => ?_⟩, fun hneg => ?_⟩
  · rcases hn with hn | ⟨-, hn⟩
    · exact hn.unique hc
    · have := hn c hc.1.1
      have : today ≤ c := hc.1.2
      omega
  · by_cases hex : ∃ c, Candidate (e.om t) t c ∧ today ≤ c
    · obtain ⟨c, hc, hleast⟩ := Int.exists_least_of_bdd
        (P := fun c => Candidate (e.om t) t c ∧ today ≤ c) ⟨today, fun z hz => hz.2⟩ hex
      have hl : IsLeast {r | Candidate (e.om t) t r ∧ today ≤ r} c := ⟨hc, fun a ha => hleast a ha⟩
      rw [(hfinds c hl).mpr (hall c hl)]
      exact Or.inl hl
    · rcases searchLoop_candidate ht htz h0 h herr with ⟨hneg, -⟩ | ⟨-, hcand⟩
      · refine Or.inr ⟨hneg, fun c hc => ?_⟩
        by_contra hlt
        exact hex ⟨c, hc, by omega⟩
      · exact (hex ⟨_, hcand⟩).elim
  · rcases searchLoop_candidate ht htz h0 h herr with ⟨-, hexp⟩ | ⟨hne, -⟩
    · exact hexp
    · exact (hne hneg).elim

end Least

/-- `REM 2024-01-01 *7 BEFORE OMIT Mon` -/
def everyMonday : Trigger :=
  { d := some 1, m := some 0, y := some 2024, rep := 7, skip := .before, localomit := 0x01 }

theorem everyMonday_parsed : everyMonday.Parsed where
  day := by rintro d ⟨⟩; decide
  mon := by rintro m ⟨⟩; decide
  yr := by rintro y ⟨⟩; decide
  rep := by decide

/-- No other days are omitted. -/
def mondayEnv : Env Id := contextEnv {} (fun _ => none) 10 false

def mondaySearch (today : ℤ) : Found :=
  computeTriggerNoAdjustDuration mondayEnv everyMonday today {} 0

end Remind
