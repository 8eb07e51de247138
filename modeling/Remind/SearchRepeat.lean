import Remind.SearchScan
import Mathlib.Tactic.Linarith

/-!
# SearchRepeat — the search with a repeat

A trigger with a repeat names one date.  BACK moves it once, and every look then finds the first
repeat from its start on.  Under SKIP and BEFORE a second look begins on the day after the date
named, so it may pass over repeats, and under BEFORE there is no third one.
-/

namespace Remind

/-- `x` is the first of the dates `b`, `b + rep`, `b + 2 * rep`, ... from `s` on. -/
def FirstRepeat (rep b s x : ℤ) : Prop := IsLeast {n | (∃ k : ℕ, n = b + k * rep) ∧ s ≤ n} x

/-- With a repeat, `c` is found at the first repeat from today on, or from the day after the date
named on; under SKIP everything after the date named is found. -/
def RepeatFinds (om : ℤ → Bool) (t : Trigger) (today c : ℤ) : Prop :=
  ∃ d ∈ simpleDates t, ∃ b, Backed om t.back d b ∧
    match t.skip with
    | .noSkip => True
    | .after => True
    | .skip => d < c ∨ FirstRepeat t.rep b today c
    | .before => ∃ x, Lib.LastFree om x c ∧
        (FirstRepeat t.rep b today x ∨
          today ≤ d ∧ pastUntil t.untilDate (d + 1) = false ∧ FirstRepeat t.rep b (d + 1) x)

theorem FirstRepeat.unique {rep b s x x' : ℤ} (h : FirstRepeat rep b s x)
    (h' : FirstRepeat rep b s x') : x = x' :=
  IsLeast.unique h h'

theorem Backed.unique {om : ℤ → Bool} {back b x x' : ℤ} (h : Backed om back b x)
    (h' : Backed om back b x') : x = x' :=
  le_antisymm (h.mono h' le_rfl) (h'.mono h le_rfl)

theorem Moved.unique {om : ℤ → Bool} {rule : SkipRule} {x r r' : ℤ} (h : Moved om rule x r)
    (h' : Moved om rule x r') : r = r' :=
  le_antisymm (h.mono h' le_rfl) (h'.mono h le_rfl)

section Repeat

variable {e : Env Id} {t : Trigger} {today d b : ℤ}

theorem applyRep_first (hrep : 0 < t.rep) (s b : ℤ) :
    FirstRepeat t.rep b s (applyRep t s b) := by
  unfold applyRep
  by_cases hlt : b < s
  · rw [if_pos ⟨by omega, hlt⟩]
    have hnn : 0 ≤ s - b := by omega
    have hdiv : (s - b).tdiv t.rep = (s - b) / t.rep := Int.tdiv_eq_ediv_of_nonneg hnn
    obtain ⟨q, hq⟩ := Int.eq_ofNat_of_zero_le (Int.ediv_nonneg hnn (by omega) : 0 ≤ (s - b) / t.rep)
    have hlo : (q : ℤ) * t.rep ≤ s - b := by
      rw [← hq]
      exact Int.ediv_mul_le _ (by omega)
    have hhi : s - b < (q : ℤ) * t.rep + t.rep := by
      rw [← hq]
      have := Int.lt_ediv_add_one_mul_self (s - b) hrep
      linarith
    simp only [hdiv, hq]
    -- below the date found is a repeat before `s`
    split_ifs with hs
    · refine ⟨⟨⟨q + 1, by push_cast; ring⟩, show s ≤ _ by linarith⟩, ?_⟩
      rintro n ⟨⟨k, rfl⟩, hk⟩
      have hqk : q + 1 ≤ k := by
        by_contra hkq
        have : (k : ℤ) * t.rep ≤ q * t.rep := by
          exact Int.mul_le_mul_of_nonneg_right (by omega) (by omega)
        have hk' : s ≤ b + k * t.rep := hk
        linarith
      have : ((q : ℤ) + 1) * t.rep ≤ k * t.rep :=
        Int.mul_le_mul_of_nonneg_right (by omega) (by omega)
      linarith
    · refine ⟨⟨⟨q, rfl⟩, show s ≤ _ by linarith⟩, ?_⟩
      rintro n ⟨⟨k, rfl⟩, hk⟩
      have hqk : q ≤ k := by
        by_contra hkq
        have : ((k : ℤ) + 1) * t.rep ≤ q * t.rep :=
          Int.mul_le_mul_of_nonneg_right (by omega) (by omega)
        have hk' : s ≤ b + k * t.rep := hk
        linarith
      have : (q : ℤ) * t.rep ≤ k * t.rep :=
        Int.mul_le_mul_of_nonneg_right (by omega) (by omega)
      linarith
  · rw [if_neg (fun h => hlt h.2)]
    refine ⟨⟨⟨0, by simp⟩, show s ≤ b by omega⟩, ?_⟩
    rintro n ⟨⟨k, rfl⟩, -⟩
    have : (0 : ℤ) ≤ k * t.rep := Int.mul_nonneg (by omega) (by omega)
    linarith

/-- The trigger names the date `d`, which every look finds. -/
structure Names (t : Trigger) (d : ℤ) : Prop where
  nonneg : 0 ≤ d
  dates : simpleDates t = {d}
  next : ∀ start, nextSimpleTrig start t = some (.ok d)

/-- A candidate is where some repeat is moved. -/
theorem Candidate.repeated {om : ℤ → Bool} {c : ℤ} (h : Candidate om t c) (hd : Names t d)
    (hb : Backed om t.back d b) : ∃ k : ℕ, Moved om t.skip (b + k * t.rep) c := by
  obtain ⟨⟨b', hb', x, hx, k, -, hm⟩, -⟩ := h
  rw [hd.dates] at hb'
  rw [show b' = d from hb'] at hx
  rw [hx.unique hb] at hm
  exact ⟨k, hm⟩

theorem Candidate.of_repeat {om : ℤ → Bool} {x s r : ℤ} (hd : Names t d)
    (hb : Backed om t.back d b) (hrep : t.rep ≠ 0) (hx : FirstRepeat t.rep b s x)
    (hm : Moved om t.skip x r) (hfree : t.skip = .skip → om r = false)
    (hu : pastUntil t.untilDate r = false) : Candidate om t r := by
  obtain ⟨k, rfl⟩ := hx.1.1
  exact ⟨⟨d, by rw [hd.dates]; rfl, b, hb, k, fun h => (hrep h).elim, hm⟩, hfree, hu⟩

/-- A look that finds a date: the first repeat from its start on, moved by the skip rule. -/
theorem Look.repeated {start r ns : ℤ} (hd : Names t d) (hrep : 0 < t.rep)
    (h : Look e t start (r, ns)) (hr : r ≠ -1) :
    ∃ s b x, (t.isTodo = false → pastUntil t.untilDate start = false) ∧
      LocalStart (e.om t) t.skip start s ∧ Backed (e.om t) t.back d b ∧
      FirstRepeat t.rep b s x ∧ Moved (e.om t) t.skip x r ∧ ns = d + 1 ∧
      pastUntil t.untilDate r = false := by
  obtain ⟨s, j, b, hpast, hls, hj, -, hns, hb, hx, -, hu⟩ := h.found hr
  rw [hd.next] at hj
  cases hj
  exact ⟨s, b, _, hpast, hls, hb, applyRep_first hrep s b, hx, hns, hu⟩

/-- A look that finds no date: UNTIL has passed before it or before the first repeat. -/
theorem Look.repeated_gone {start ns : ℤ} (hd : Names t d) (hrep : 0 < t.rep)
    (htodo : t.isTodo = false) (h0 : 0 ≤ start) (h : Look e t start (-1, ns)) :
    pastUntil t.untilDate start = true ∨
      ∃ s b x r, LocalStart (e.om t) t.skip start s ∧ Backed (e.om t) t.back d b ∧
        FirstRepeat t.rep b s x ∧ Moved (e.om t) t.skip x r ∧ pastUntil t.untilDate r = true := by
  generalize hp : ((-1 : ℤ), ns) = p at h
  cases h with
  | untilPassed _ hu => exact Or.inl hu
  | complete hc =>
    rw [htodo] at hc
    cases hc
  | noDate _ hj =>
    rw [hd.next] at hj
    have := hd.nonneg
    cases hj
    omega
  | @date s j b x _ hls hj _ hb hx _ hpos =>
    rw [hd.next] at hj
    cases hj
    have hfirst := applyRep_first hrep s b
    refine Or.inr ⟨s, b, _, x, hls, hb, hfirst, hx, ?_⟩
    obtain ⟨hr, -⟩ := Prod.mk.inj hp
    have hs := hls.nonneg h0
    have hle : s ≤ applyRep t s b := hfirst.1.2
    have := hpos (by omega)
    by_contra hu
    rw [if_neg hu] at hr
    omega

/-- The first repeat from the start of a search on is moved no further than any candidate. -/
theorem FirstRepeat.le_candidate {om : ℤ → Bool} {s x r c : ℤ} (hd : Names t d)
    (hb : Backed om t.back d b) (hs : LocalStart om t.skip today s)
    (hx : FirstRepeat t.rep b s x) (hm : Moved om t.skip x r) (hc : Candidate om t c)
    (htoday : today ≤ c) : r ≤ c := by
  obtain ⟨k, hk⟩ := hc.repeated hd hb
  have hle : s ≤ b + k * t.rep := by
    by_contra hlt
    have := hs.moved_lt hk (by omega)
    omega
  exact hm.mono hk (hx.2 ⟨⟨k, rfl⟩, hle⟩)

theorem localStart_of_ne {rule : SkipRule} {om : ℤ → Bool} {start s : ℤ} (h : rule ≠ .after)
    (hs : LocalStart om rule start s) : s = start := by
  unfold LocalStart at hs
  rw [if_neg h] at hs
  exact hs

theorem pastUntil_of_candidate {om : ℤ → Bool} {c a : ℤ} (hc : Candidate om t c) (hac : a ≤ c)
    (hu : pastUntil t.untilDate a = true) : False := by
  have := pastUntil_mono hu hac
  rw [hc.2.2] at this
  cases this

/-- After the date named, SKIP overlooks nothing. -/
theorem searchLoop_skip {tim : TimeTrig} {start ns sns : ℤ} {n : ℕ} {f : Found}
    (hd : Names t d) (hb : Backed (e.om t) t.back d b) (hrep : 0 < t.rep)
    (htodo : t.isTodo = false) (htz : t.tz = none) (hskip : t.skip = .skip) (h0 : 0 ≤ today)
    (hstart : d + 1 ≤ start) (htoday : today ≤ start)
    (h : searchLoop e tim today 0 n t start ns sns = f) (herr : f.err = none) :
    NextIn {r | Candidate (e.om t) t r} start f.result := by
  have hafter : t.skip ≠ .after := by rw [hskip]; simp
  -- every candidate is a repeat
  have hcand : ∀ c s x, Candidate (e.om t) t c → FirstRepeat t.rep b s x → s ≤ c → x ≤ c := by
    intro c s x hc hx hsc
    obtain ⟨k, hk⟩ := hc.repeated hd hb
    rw [hskip] at hk
    have hk' : c = b + k * t.rep := hk
    exact hx.2 ⟨⟨k, hk'⟩, hsc⟩
  induction n generalizing start ns with
  | zero =>
    subst h
    cases herr
  | succ n ih =>
    have hvisit : ∀ r ns', Look e t start (r, ns') → r ≠ -1 →
        FirstRepeat t.rep b start r ∧ ns' = d + 1 ∧ pastUntil t.untilDate r = false := by
      intro r ns' hlook hr
      obtain ⟨s, b', x, -, hls, hb', hx, hm, hns, hu⟩ := hlook.repeated hd hrep hr
      rw [hb'.unique hb, localStart_of_ne hafter hls] at hx
      rw [hskip] at hm
      have hrx : r = x := hm
      rw [hrx]
      exact ⟨hx, hns, hrx ▸ hu⟩
    cases searchLoop_round htz (by omega) h herr with
    | gone hlook =>
      refine Or.inr ⟨rfl, fun c hc => ?_⟩
      by_contra hlt
      rcases hlook.repeated_gone hd hrep htodo (by omega) with hu | ⟨s, b', x, r, hls, hb', hx, hm, hu⟩
      · exact pastUntil_of_candidate hc (by omega) hu
      · rw [hb'.unique hb, localStart_of_ne hafter hls] at hx
        rw [hskip] at hm
        have hrx : r = x := hm
        exact pastUntil_of_candidate hc (hrx.le.trans (hcand c start x hc hx (by omega))) hu
    | @accepted r ns' hlook hr htoday' hom =>
      obtain ⟨hx, -, hu⟩ := hvisit _ _ hlook hr
      refine Or.inl ⟨⟨?_, hx.1.2⟩, fun c hc => hcand c start _ hc.1 hx hc.2⟩
      exact Candidate.of_repeat hd hb (by omega) hx (by rw [hskip]; rfl)
        (fun hsk => Env.om_of_ok (hom hsk)) hu
    | @stopped r ns' hlook hr hrej1 _ hend =>
      obtain ⟨hx, -, -⟩ := hvisit _ _ hlook hr
      have hle : start ≤ r := hx.1.2
      rcases hend with ⟨-, hno, -⟩ | ⟨-, hno⟩
      · rw [hskip] at hno
        cases hno
      · refine (hno ⟨hskip, ?_, hle⟩).elim
        exact (hrej1 hskip).resolve_left (by omega)
    | @rescan r ns' next f hlook hr hrej1 _ _ hlt hnext hrest =>
      obtain ⟨hx, hns, -⟩ := hvisit _ _ hlook hr
      have hle : start ≤ r := hx.1.2
      have hom : e.om t r = true := Env.om_of_ok ((hrej1 hskip).resolve_left (by omega))
      rcases hnext with rfl | ⟨-, -, -, rfl⟩
      · omega
      · have hgap : ∀ c, Candidate (e.om t) t c → start ≤ c → r + 1 ≤ c := by
          intro c hc hsc
          have h1 := hcand c start r hc hx hsc
          have h2 : c ≠ r := by
            rintro rfl
            rw [hc.2.1 hskip] at hom
            cases hom
          omega
        rcases ih (by omega) (by omega) hrest with hn | ⟨hneg, hn⟩
        · have hrn : r + 1 ≤ f.result := hn.1.2
          exact Or.inl ⟨⟨hn.1.1, show start ≤ f.result by omega⟩,
            fun c hc => hn.2 ⟨hc.1, hgap c hc.1 hc.2⟩⟩
        · refine Or.inr ⟨hneg, fun c hc => ?_⟩
          have h1 := hn c hc
          by_contra hsc
          have := hgap c hc (by omega)
          omega

/-- Under BEFORE the look on the day after the date named is the last one. -/
theorem searchLoop_before {tim : TimeTrig} {ns sns c : ℤ} {n : ℕ} {f : Found}
    (hd : Names t d) (hb : Backed (e.om t) t.back d b) (hrep : 0 < t.rep)
    (htodo : t.isTodo = false) (htz : t.tz = none) (hskip : t.skip = .before)
    (h0 : 0 ≤ today) (hc : Candidate (e.om t) t c) (htoday : today ≤ c)
    (h : searchLoop e tim today 0 n t (d + 1) ns sns = f) (herr : f.err = none) :
    f.result = c ↔ pastUntil t.untilDate (d + 1) = false ∧
      ∃ x, FirstRepeat t.rep b (d + 1) x ∧ Lib.LastFree (e.om t) x c := by
  have hd0 := hd.nonneg
  have hafter : t.skip ≠ .after := by rw [hskip]; simp
  have hvisit : ∀ r ns', Look e t (d + 1) (r, ns') → r ≠ -1 →
      pastUntil t.untilDate (d + 1) = false ∧ ns' = d + 1 ∧
        ∃ x, FirstRepeat t.rep b (d + 1) x ∧ Lib.LastFree (e.om t) x r := by
    intro r ns' hlook hr
    obtain ⟨s, b', x, hpast, hls, hb', hx, hm, hns, -⟩ := hlook.repeated hd hrep hr
    rw [hb'.unique hb, localStart_of_ne hafter hls] at hx
    rw [hskip] at hm
    exact ⟨hpast htodo, hns, x, hx, hm⟩
  have huniq : ∀ r x x', FirstRepeat t.rep b (d + 1) x → Lib.LastFree (e.om t) x r →
      FirstRepeat t.rep b (d + 1) x' → Lib.LastFree (e.om t) x' c → r = c := by
    intro r x x' hx hr hx' hc'
    rw [hx'.unique hx] at hc'
    exact hr.unique hc'
  cases n with
  | zero =>
    subst h
    cases herr
  | succ n =>
    cases searchLoop_round htz (by omega) h herr with
    | gone hlook =>
      constructor
      · intro hneg
        have : (-1 : ℤ) = c := hneg
        omega
      · rintro ⟨hpast, x', hx', hc'⟩
        exfalso
        rcases hlook.repeated_gone hd hrep htodo (by omega) with hu | ⟨s, b', x, r, hls, hb', hx, hm, hu⟩
        · rw [hpast] at hu
          cases hu
        · rw [hb'.unique hb, localStart_of_ne hafter hls] at hx
          rw [hskip] at hm
          rw [huniq r x x' hx hm hx' hc', hc.2.2] at hu
          cases hu
    | @accepted r ns' hlook hr htoday' hom =>
      obtain ⟨hpast, -, x, hx, hm⟩ := hvisit _ _ hlook hr
      constructor
      · rintro rfl
        exact ⟨hpast, x, hx, hm⟩
      · rintro ⟨-, x', hx', hc'⟩
        exact huniq r x x' hx hm hx' hc'
    | @stopped r ns' hlook hr _ hrej2 _ =>
      obtain ⟨-, -, x, hx, hm⟩ := hvisit _ _ hlook hr
      constructor
      · intro hneg
        have : (-1 : ℤ) = c := hneg
        omega
      · rintro ⟨-, x', hx', hc'⟩
        have := huniq r x x' hx hm hx' hc'
        have := hrej2 (by rw [hskip]; simp)
        omega
    | rescan hlook hr _ _ _ hlt hnext _ =>
      obtain ⟨-, hns, -⟩ := hvisit _ _ hlook hr
      rcases hnext with rfl | ⟨hsk, -⟩
      · omega
      · rw [hskip] at hsk
        cases hsk

end Repeat

end Remind
