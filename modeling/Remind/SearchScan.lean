import Remind.SearchSound
import Mathlib.Data.Int.LeastGreatest

/-!
# SearchScan — the search over simple dates, without a repeat

BACK and the skip rule keep the order of dates, so the least candidate from today on is where some
simple date is moved.  The search meets the simple dates in their order, except those that
`NextSimpleTrig` overlooks, and gives up at the dates that `Stops` describes.
-/

namespace Remind

/-- The dates a trigger may issue on: a base date moved by BACK, repeats and the skip rule, free
under SKIP, and not after UNTIL. -/
def Candidate (om : ℤ → Bool) (t : Trigger) (r : ℤ) : Prop :=
  IsMoved om t r ∧ (t.skip = .skip → om r = false) ∧ pastUntil t.untilDate r = false

/-- BACK and the skip rule move `b` to `r`. -/
def MovedTo (om : ℤ → Bool) (t : Trigger) (b r : ℤ) : Prop :=
  ∃ x, Backed om t.back b x ∧ Moved om t.skip x r

/-- The points at which a search that begins at `σ` looks for the next simple date. -/
def LookPoint (t : Trigger) (σ s : ℤ) : Prop := s = σ ∨ ∃ a ∈ simpleDates t, σ ≤ a ∧ s = a + 1

/-- `b` is the simple date that `NextSimpleTrig` finds from some point of the search. -/
def Seen (t : Trigger) (σ b : ℤ) : Prop :=
  ∃ s, LookPoint t σ s ∧ IsLeast {n | n ∈ simpleDates t ∧ s ≤ n} b ∧ AnchoredOk s t

/-- The search goes no further than the simple date `b`: UNTIL has passed on the day after it, it is
moved to the date that means failure, or AFTER leads back to it. -/
def Stops (om : ℤ → Bool) (t : Trigger) (b : ℤ) : Prop :=
  pastUntil t.untilDate (b + 1) = true ∨ MovedTo om t b (-1) ∨ t.skip = .after ∧ om b = true

/-- Without a repeat, `c` is found when a simple date that leads to it is seen and the search does
not stop before it. -/
def ScanFinds (om : ℤ → Bool) (t : Trigger) (today c : ℤ) : Prop :=
  ∃ σ, LocalStart om t.skip today σ ∧
    ∃ b, Seen t σ b ∧ MovedTo om t b c ∧ ∀ a, Seen t σ a → a < b → ¬ Stops om t a

section Order

variable {om : ℤ → Bool} {t : Trigger}

theorem Backed.mono {back b b' x x' : ℤ} (h : Backed om back b x) (h' : Backed om back b' x')
    (hb : b ≤ b') : x ≤ x' := by
  unfold Backed at h h'
  split_ifs at h h'
  · omega
  · exact h.mono h' hb

theorem Backed.le {back b x : ℤ} (h : Backed om back b x) : x ≤ b := by
  unfold Backed at h
  split_ifs at h
  · omega
  · exact le_of_lt h.1

theorem Moved.mono {rule : SkipRule} {x x' r r' : ℤ} (h : Moved om rule x r)
    (h' : Moved om rule x' r') (hx : x ≤ x') : r ≤ r' := by
  cases rule with
  | noSkip => exact (h.trans_le hx).trans_eq h'.symm
  | skip => exact (h.trans_le hx).trans_eq h'.symm
  | before => exact Lib.LastFree.mono h h' hx
  | after => exact Lib.FirstFree.mono h h' hx

theorem MovedTo.mono {b b' r r' : ℤ} (h : MovedTo om t b r) (h' : MovedTo om t b' r')
    (hb : b ≤ b') : r ≤ r' := by
  obtain ⟨x, hx, hr⟩ := h
  obtain ⟨x', hx', hr'⟩ := h'
  exact hr.mono hr' (hx.mono hx' hb)

theorem MovedTo.unique {b r r' : ℤ} (h : MovedTo om t b r) (h' : MovedTo om t b r') : r = r' :=
  le_antisymm (h.mono h' le_rfl) (h'.mono h le_rfl)

/-- Nothing before the first day of a search is moved to today or later. -/
theorem LocalStart.moved_lt {today σ x r : ℤ} (hσ : LocalStart om t.skip today σ)
    (hr : Moved om t.skip x r) (hx : x < σ) : r < today := by
  unfold LocalStart at hσ
  rcases hsk : t.skip with _ | _ | _ | _ <;> rw [hsk] at hr hσ
  · have h1 : r = x := hr
    have h2 : σ = today := hσ
    omega
  · have h1 : r = x := hr
    have h2 : σ = today := hσ
    omega
  · have h1 : r ≤ x := hr.1.1
    have h2 : σ = today := hσ
    omega
  · obtain ⟨-, hle, hfree, -⟩ : 0 ≤ σ ∧ σ ≤ today ∧ om (σ - 1) = false ∧ _ := hσ
    have : r ≤ σ - 1 := hr.2 ⟨by omega, hfree⟩
    omega

/-- From the first day of a search on, AFTER moves to today or later. -/
theorem LocalStart.le_moved {today σ x r : ℤ} (hσ : LocalStart om t.skip today σ)
    (hr : Moved om t.skip x r) (hsk : t.skip ≠ .before) (hx : σ ≤ x) : today ≤ r := by
  unfold LocalStart at hσ
  rcases hsk' : t.skip with _ | _ | _ | _ <;> rw [hsk'] at hr hσ
  · have h1 : r = x := hr
    have h2 : σ = today := hσ
    omega
  · have h1 : r = x := hr
    have h2 : σ = today := hσ
    omega
  · exact (hsk hsk').elim
  · obtain ⟨-, -, -, hblk⟩ : 0 ≤ σ ∧ σ ≤ today ∧ om (σ - 1) = false ∧ _ := hσ
    by_contra hlt
    have hxr : x ≤ r := hr.1.1
    have hom := hblk r (by omega) (by omega)
    rw [hr.1.2] at hom
    cases hom

theorem LocalStart.le {rule : SkipRule} {today σ : ℤ} (hσ : LocalStart om rule today σ) :
    σ ≤ today := by
  unfold LocalStart at hσ
  split_ifs at hσ
  · exact hσ.2.1
  · omega

theorem LocalStart.unique {rule : SkipRule} {today σ σ' : ℤ} (h : LocalStart om rule today σ)
    (h' : LocalStart om rule today σ') : σ = σ' := by
  have key : ∀ a b, LocalStart om rule today a → LocalStart om rule today b → ¬ a < b := by
    intro a b ha hb hlt
    unfold LocalStart at ha hb
    split_ifs at ha hb
    · have := ha.2.2.2 (b - 1) (by omega) (by omega)
      rw [hb.2.2.1] at this
      cases this
    · omega
  have h1 := key σ σ' h h'
  have h2 := key σ' σ h' h
  omega

/-- Without a repeat the candidates are where the simple dates are moved. -/
theorem isMoved_iff (hrep : t.rep = 0) {r : ℤ} :
    IsMoved om t r ↔ ∃ b ∈ simpleDates t, MovedTo om t b r := by
  constructor
  · rintro ⟨b, hb, x, hx, k, hk, hr⟩
    rw [hrep, mul_zero, add_zero] at hr
    exact ⟨b, hb, x, hx, hr⟩
  · rintro ⟨b, hb, x, hx, hr⟩
    exact ⟨b, hb, x, hx, 0, fun _ => rfl, by simpa using hr⟩

theorem Seen.mem {σ b : ℤ} (h : Seen t σ b) : b ∈ simpleDates t := by
  obtain ⟨s, -, hb, -⟩ := h
  exact hb.1.1

theorem LookPoint.ge {σ s : ℤ} (h : LookPoint t σ s) : σ ≤ s := by
  rcases h with rfl | ⟨a, -, h, rfl⟩ <;> omega

/-- There is one point from which a simple date is next. -/
theorem seen_from {σ s s' b : ℤ} (hs : LookPoint t σ s) (hs' : LookPoint t σ s')
    (hb : IsLeast {n | n ∈ simpleDates t ∧ s ≤ n} b)
    (hb' : IsLeast {n | n ∈ simpleDates t ∧ s' ≤ n} b) : s = s' := by
  have key : ∀ u v, IsLeast {n | n ∈ simpleDates t ∧ u ≤ n} b →
      IsLeast {n | n ∈ simpleDates t ∧ v ≤ n} b → σ ≤ u →
      LookPoint t σ v → ¬ u < v := by
    rintro u v hu hv hσ (rfl | ⟨a, ha, -, rfl⟩) hlt
    · omega
    · have h1 : b ≤ a := hu.2 ⟨ha, by omega⟩
      have h2 : a + 1 ≤ b := hv.1.2
      omega
  have h1 := key s s' hb hb' hs.ge hs'
  have h2 := key s' s hb' hb hs'.ge hs
  omega

end Order

section Scan

variable {e : Env Id} {t : Trigger} {σ today : ℤ}

/-- Every simple date from the first day on is next from some point. -/
theorem exists_lookPoint {j : ℤ} (hj : j ∈ simpleDates t) (hσ : σ ≤ j) :
    ∃ s, LookPoint t σ s ∧ IsLeast {n | n ∈ simpleDates t ∧ s ≤ n} j := by
  by_cases hex : ∃ a, a ∈ simpleDates t ∧ σ ≤ a ∧ a < j
  · obtain ⟨a, ⟨ha, hσa, haj⟩, hmax⟩ :=
      Int.exists_greatest_of_bdd (P := fun a => a ∈ simpleDates t ∧ σ ≤ a ∧ a < j)
        ⟨j, fun z hz => by omega⟩ hex
    refine ⟨a + 1, Or.inr ⟨a, ha, hσa, rfl⟩, ⟨hj, show a + 1 ≤ j by omega⟩, ?_⟩
    rintro n ⟨hn, han⟩
    by_contra hlt
    have := hmax n ⟨hn, by omega, by omega⟩
    omega
  · refine ⟨σ, Or.inl rfl, ⟨hj, hσ⟩, ?_⟩
    rintro n ⟨hn, hσn⟩
    by_contra hlt
    exact hex ⟨n, hn, hσn, by omega⟩

/-- A look from `s` finds the next date that is seen, or all simple dates have gone by. -/
theorem NextAnswer.visit {s j : ℤ} (h : NextAnswer t s j) (hs : LookPoint t σ s) (h0 : 0 ≤ σ)
    (hj : j ≠ -1) :
    (Seen t σ j ∧ s ≤ j ∧ ∀ b, Seen t σ b → s ≤ b → j ≤ b) ∨
      (j < s ∧ (∀ n ∈ simpleDates t, n < s) ∧ (σ ≤ j → Seen t σ j)) := by
  cases h with
  | next hn hok =>
    obtain hl | ⟨h1, -⟩ := hn
    · exact Or.inl ⟨⟨s, hs, hl, hok⟩, hl.1.2, fun b hb hsb => hl.2 ⟨hb.mem, hsb⟩⟩
    · exact (hj h1).elim
  | past hm hlt hall hok =>
    refine Or.inr ⟨hlt, hall, fun hσ => ?_⟩
    obtain ⟨u, hu, hl⟩ := exists_lookPoint hm hσ
    have := hu.ge
    exact ⟨u, hu, hl, hok u (by omega) hl⟩
  | @overlooked b _ hno hb hn hok =>
    obtain ⟨⟨⟨hjS, hne⟩, hsj⟩, hleast⟩ := hn.resolve_right fun h => hj h.1
    have hσ := hs.ge
    have hsb : s ≤ b := hb.1.2
    have hbj : b ≤ j := hb.2 ⟨hjS, hsj⟩
    refine Or.inl ⟨⟨b + 1, Or.inr ⟨b, hb.1.1, by omega, rfl⟩, ⟨⟨hjS, ?_⟩, ?_⟩, hok hj⟩, hsj, ?_⟩
    · exact lt_of_le_of_ne hbj (Ne.symm hne)
    · rintro n ⟨hn, hbn⟩
      have hbn' : b + 1 ≤ n := hbn
      exact hleast ⟨⟨hn, by omega⟩, by omega⟩
    · intro b' hb' hsb'
      refine hleast ⟨⟨hb'.mem, ?_⟩, hsb'⟩
      rintro rfl
      obtain ⟨u, hu, hl, hok'⟩ := hb'
      rw [seen_from hs hu hb hl] at hno
      exact hno hok'

/-- No date is seen from `s` on when `NextSimpleTrig` finds none. -/
theorem NextAnswer.visit_none {s : ℤ} (h : NextAnswer t s (-1)) (hs : LookPoint t σ s) {b : ℤ}
    (hb : Seen t σ b) : b < s := by
  by_contra hlt
  generalize hj : (-1 : ℤ) = j at h
  cases h with
  | next hn _ =>
    obtain hl | ⟨-, hn⟩ := hn
    · have := simpleDates_nonneg hl.1.1
      omega
    · exact hlt (hn b hb.mem)
  | past hm _ _ _ =>
    have := simpleDates_nonneg hm
    omega
  | @overlooked a _ hno ha hn _ =>
    obtain hl | ⟨-, hn⟩ := hn
    · have := simpleDates_nonneg hl.1.1.1
      omega
    · by_cases hba : b = a
      · subst hba
        obtain ⟨u, hu, hl, hok⟩ := hb
        rw [seen_from hs hu ha hl] at hno
        exact hno hok
      · exact hlt (hn b ⟨hb.mem, hba⟩)

/-- The search issues `r` when it meets the simple date `b`. -/
structure Accepted (om : ℤ → Bool) (t : Trigger) (today b r : ℤ) : Prop where
  moved : MovedTo om t b r
  today_le : today ≤ r
  free : t.skip = .skip → om r = false
  inUntil : pastUntil t.untilDate r = false

/-- The ways a search without a repeat ends: at the first date seen that is accepted, or without a
date, since it stops before any other one that could be accepted. -/
inductive ScanEnd (om : ℤ → Bool) (t : Trigger) (today σ : ℤ) : ℤ → Prop
  | found {b r : ℤ} : Seen t σ b → Accepted om t today b r →
      (∀ a, Seen t σ a → a < b → (∀ r, ¬ Accepted om t today a r) ∧ ¬ Stops om t a) →
      ScanEnd om t today σ r
  | missed : (∀ b r, Seen t σ b → Accepted om t today b r →
      ∃ a, Seen t σ a ∧ a < b ∧ Stops om t a) → ScanEnd om t today σ (-1)

theorem applyRep_zero (hrep : t.rep = 0) (start x : ℤ) : applyRep t start x = x := by
  unfold applyRep
  rw [if_neg (by simp [hrep])]

theorem Accepted.unique {om : ℤ → Bool} {b r r' : ℤ} (h : Accepted om t today b r)
    (h' : MovedTo om t b r') : r = r' :=
  h.moved.unique h'

/-- From the day after a date at which AFTER leads back, no look finds another date. -/
theorem after_leads_back {om : ℤ → Bool} {s start l j j' : ℤ} (ht : t.InRange) (h0 : 0 ≤ s)
    (hσ : LocalStart om t.skip start s) (hj : NextAnswer t s j) (hsj : s ≤ j)
    (hafter : t.skip = .after) (hom : om j = true) (hl : LocalStart om t.skip (j + 1) l)
    (hj' : NextAnswer t l j') : j' ≤ j := by
  unfold LocalStart at hσ hl
  rw [if_pos hafter] at hσ hl
  obtain ⟨hl0, hlj, hlfree, hlblk⟩ := hl
  have hle : l ≤ j := by
    by_contra hlt
    rw [show l - 1 = j by omega, hom] at hlfree
    cases hlfree
  have hmem : j ∈ simpleDates t := hj.mem (by omega)
  cases hj' with
  | next hn _ =>
    rcases hn with hn | ⟨rfl, -⟩
    · exact hn.2 ⟨hmem, hle⟩
    · omega
  | past _ hlt hall _ => exact le_of_lt (lt_of_lt_of_le hlt hle)
  | @overlooked b _ hno hb hn _ =>
    by_cases hbj : b = j
    · -- `j` would have been overlooked from `s` too
      subst hbj
      exfalso
      cases hj with
      | next hn' hok =>
        have hleast := hn'.resolve_right fun h => by omega
        refine hno (hok.up h0 ht hleast ?_ hle)
        by_contra hlt
        have := hlblk (s - 1) (by omega) (by omega)
        rw [hσ.2.2.1] at this
        cases this
      | past _ hlt _ _ => omega
      | @overlooked a _ _ ha hna hok =>
        have hleast := hna.resolve_right fun h => by omega
        have hab : a ≤ b := ha.2 ⟨hmem, hsj⟩
        have hne : b ≠ a := hleast.1.1.2
        have hsa : s ≤ a := ha.1.2
        refine hno ((hok (by omega)).up (by omega) ht (b := b) ⟨⟨hmem, ?_⟩, ?_⟩ ?_ hle)
        · exact lt_of_le_of_ne hab (Ne.symm hne)
        · rintro n ⟨hn1, hn2⟩
          have hn3 : a + 1 ≤ n := hn2
          exact hleast.2 ⟨⟨hn1, by omega⟩, by omega⟩
        · by_contra hlt
          have := hb.2 ⟨ha.1.1, show l ≤ a by omega⟩
          omega
    · rcases hn with hn | ⟨rfl, -⟩
      · exact hn.2 ⟨⟨hmem, Ne.symm hbj⟩, hle⟩
      · omega

/-- The date that a look finds, without a repeat. -/
theorem Look.movedTo {start r ns : ℤ} (hrep : t.rep = 0) (h : Look e t start (r, ns))
    (hr : r ≠ -1) :
    ∃ s j, (t.isTodo = false → pastUntil t.untilDate start = false) ∧
      LocalStart (e.om t) t.skip start s ∧ nextSimpleTrig s t = some (.ok j) ∧ j ≠ -1 ∧
      ns = j + 1 ∧ MovedTo (e.om t) t j r ∧ pastUntil t.untilDate r = false := by
  obtain ⟨s, j, b, hpast, hls, hj, hneg, hns, hb, hx, -, hu⟩ := h.found hr
  rw [applyRep_zero hrep] at hx
  exact ⟨s, j, hpast, hls, hj, hneg, hns, ⟨b, hb, hx⟩, hu⟩

/-- The search goes no further than a date that stops it. -/
theorem searchLoop_stopped {tim : TimeTrig} {j r ns sns : ℤ} {n : ℕ} {f : Found}
    (htodo : t.isTodo = false) (htz : t.tz = none) (hrep : t.rep = 0) (h0 : 0 ≤ j)
    (hmoved : MovedTo (e.om t) t j r)
    (hstop : pastUntil t.untilDate (j + 1) = true ∨ t.skip = .after ∧ r < today ∧
      ∀ l j', LocalStart (e.om t) t.skip (j + 1) l → nextSimpleTrig l t = some (.ok j') → j' ≤ j)
    (h : searchLoop e tim today 0 n t (j + 1) ns sns = f) (herr : f.err = none) :
    f.result = -1 := by
  have key : ∀ x ns', Look e t (j + 1) (x, ns') → x ≠ -1 →
      t.skip = .after ∧ x < today ∧ ns' ≤ j + 1 := by
    intro x ns' hlook hx
    obtain ⟨l, j', hpast, hl, hj', -, hns, hm, -⟩ := hlook.movedTo hrep hx
    rcases hstop with hstop | ⟨hafter, hlt, hback⟩
    · rw [hpast htodo] at hstop
      cases hstop
    · have hle := hback l j' hl hj'
      have := hm.mono hmoved hle
      exact ⟨hafter, by omega, by omega⟩
  cases n with
  | zero =>
    subst h
    cases herr
  | succ n =>
    cases searchLoop_round htz (by omega) h herr with
    | gone _ => rfl
    | stopped _ _ _ _ _ => rfl
    | accepted hlook hne htoday _ =>
      obtain ⟨-, hlt, -⟩ := key _ _ hlook hne
      omega
    | rescan hlook hne _ _ _ hlt hnext _ =>
      obtain ⟨hafter, -, hle⟩ := key _ _ hlook hne
      rcases hnext with rfl | ⟨hskip, -⟩
      · omega
      · rw [hafter] at hskip
        cases hskip

theorem pastUntil_mono {u : Option ℤ} {a b : ℤ} (h : pastUntil u a = true) (hab : a ≤ b) :
    pastUntil u b = true := by
  cases u with
  | none => cases h
  | some u =>
    simp only [pastUntil, decide_eq_true_eq] at h ⊢
    omega

theorem MovedTo.le {om : ℤ → Bool} {b r : ℤ} (h : MovedTo om t b r) (hsk : t.skip ≠ .after) :
    r ≤ b := by
  obtain ⟨x, hx, hr⟩ := h
  have := hx.le
  rcases hsk' : t.skip with _ | _ | _ | _ <;> rw [hsk'] at hr
  · have : r = x := hr
    omega
  · have : r = x := hr
    omega
  · have : r ≤ x := hr.1.1
    omega
  · exact (hsk hsk').elim

theorem moved_self {om : ℤ → Bool} {b r : ℤ} (hback : t.back = 0) (hskip : t.skip = .noSkip)
    (h : MovedTo om t b r) : r = b := by
  obtain ⟨x, hx, hr⟩ := h
  unfold Backed at hx
  rw [if_pos (by omega), hback] at hx
  rw [hskip] at hr
  have : r = x := hr
  omega

/-- A date that a round turns down is not accepted. -/
theorem not_accepted {j r r' : ℤ} (hm : MovedTo (e.om t) t j r)
    (hrej1 : t.skip = .skip → r + 0 < today ∨ e.omitted t r = .ok true)
    (hrej2 : t.skip ≠ .skip → r + 0 < today) : ¬ Accepted (e.om t) t today j r' := by
  intro hacc
  have hr := hacc.unique hm
  subst hr
  have htoday := hacc.today_le
  by_cases hsk : t.skip = .skip
  · rcases hrej1 hsk with hlt | hom
    · omega
    · have := hacc.free hsk
      rw [Env.om_of_ok hom] at this
      cases this
  · have := hrej2 hsk
    omega

/-- How a search without a repeat ends, by induction on the rounds: what is seen before the point
`s` of a round was not accepted and did not stop the search. -/
theorem searchLoop_scan {tim : TimeTrig} {s start ns sns : ℤ} {n : ℕ} {f : Found}
    (ht : t.Parsed) (htodo : t.isTodo = false) (htz : t.tz = none) (hrep : t.rep = 0)
    (h0 : 0 ≤ σ) (hσ : LocalStart (e.om t) t.skip today σ)
    (hls : LocalStart (e.om t) t.skip start s)
    (hpt : start = today ∧ s = σ ∨ start = s ∧ ∃ a, Seen t σ a ∧ σ ≤ a ∧ s = a + 1)
    (hbefore : ∀ b, Seen t σ b → b < s →
      (∀ r, ¬ Accepted (e.om t) t today b r) ∧ ¬ Stops (e.om t) t b)
    (h : searchLoop e tim today 0 n t start ns sns = f) (herr : f.err = none) :
    ScanEnd (e.om t) t today σ f.result := by
  induction n generalizing s start ns with
  | zero =>
    subst h
    cases herr
  | succ n ih =>
    have hlp : LookPoint t σ s := by
      rcases hpt with ⟨-, hs⟩ | ⟨-, a, ha, hσa, hs⟩
      · exact Or.inl hs
      · exact Or.inr ⟨a, ha.mem, hσa, hs⟩
    have hσs := hlp.ge
    have hσt := hσ.le
    have hgone : (∀ b ∈ simpleDates t, b < s) → ScanEnd (e.om t) t today σ (-1) := fun hall =>
      .missed fun b r hb hacc => ((hbefore b hb (hall b hb.mem)).1 r hacc).elim
    have hstart : 0 ≤ start := by
      have := hls.le
      omega
    cases searchLoop_round htz hstart h herr with
    | gone hlook =>
      generalize hp : ((-1 : ℤ), _) = p at hlook
      cases hlook with
      | untilPassed _ hu =>
        refine .missed fun b r hb hacc => ?_
        rcases hpt with ⟨rfl, -⟩ | ⟨rfl, a, ha, -, rfl⟩
        · have := pastUntil_mono hu hacc.today_le
          rw [hacc.inUntil] at this
          cases this
        · exact ((hbefore a ha (by omega)).2 (Or.inl hu)).elim
      | complete hc =>
        rw [htodo] at hc
        cases hc
      | noDate hl hj =>
        rw [hl.unique hls] at hj
        have hans := nextSimpleTrig_nextAnswer (by omega) ht.toInRange hj
        exact .missed fun b r hb hacc =>
          ((hbefore b hb (hans.visit_none hlp hb)).1 r hacc).elim
      | @date s' j b x _ hl hj hneg hb hx _ _ =>
        obtain ⟨hr, -⟩ := Prod.mk.inj hp
        rw [hl.unique hls] at hj
        rw [applyRep_zero hrep] at hx
        have hm : MovedTo (e.om t) t j x := ⟨b, hb, hx⟩
        have hans := nextSimpleTrig_nextAnswer (by omega) ht.toInRange hj
        rcases hans.visit hlp h0 hneg with ⟨hseen, hsj, hfirst⟩ | ⟨-, hall, -⟩
        · refine .missed fun b r hb hacc => ?_
          have hjb : j ≤ b := hfirst b hb (by
            by_contra hlt
            exact (hbefore b hb (by omega)).1 r hacc)
          have hxr := hm.mono hacc.moved hjb
          by_cases hu : pastUntil t.untilDate x = true
          · have := pastUntil_mono hu hxr
            rw [hacc.inUntil] at this
            cases this
          · rw [if_neg hu] at hr
            subst hr
            refine ⟨j, hseen, lt_of_le_of_ne hjb ?_, Or.inr (Or.inl hm)⟩
            rintro rfl
            have := hacc.unique hm
            have := hacc.today_le
            omega
        · exact hgone hall
    | @accepted r ns' hlook hne htoday hom =>
      obtain ⟨s', j, -, hl, hj, hneg, -, hm, hu⟩ := hlook.movedTo hrep hne
      rw [hl.unique hls] at hj
      have hans := nextSimpleTrig_nextAnswer (by omega) ht.toInRange hj
      have hacc : Accepted (e.om t) t today j r :=
        ⟨hm, by omega, fun hsk => Env.om_of_ok (hom hsk), hu⟩
      rcases hans.visit hlp h0 hneg with ⟨hseen, hsj, hfirst⟩ | ⟨hlt, -, hseen⟩
      · refine .found hseen hacc fun a ha haj => hbefore a ha ?_
        by_contra hge
        have := hfirst a ha (by omega)
        omega
      · by_cases hσj : σ ≤ j
        · exact ((hbefore j (hseen hσj) hlt).1 r hacc).elim
        · obtain ⟨x, hx, hr⟩ := hm
          have := hx.le
          have := hσ.moved_lt hr (by omega)
          omega
    | @stopped r ns' hlook hne hrej1 hrej2 hend =>
      obtain ⟨s', j, -, hl, hj, hneg, hns, hm, -⟩ := hlook.movedTo hrep hne
      rw [hl.unique hls] at hj
      have hans := nextSimpleTrig_nextAnswer (by omega) ht.toInRange hj
      rcases hans.visit hlp h0 hneg with ⟨hseen, hsj, hfirst⟩ | ⟨-, hall, -⟩
      · refine .missed fun b r' hb hacc => ?_
        have hjb : j ≤ b := hfirst b hb (by
          by_contra hlt
          exact (hbefore b hb (by omega)).1 r' hacc)
        refine ⟨j, hseen, lt_of_le_of_ne hjb ?_, ?_⟩
        · rintro rfl
          exact not_accepted hm hrej1 hrej2 hacc
        · rcases hend with ⟨hback, hnoskip, -⟩ | ⟨hle, -⟩
          · -- a simple trigger is accepted at the first look
            have hr := moved_self hback hnoskip hm
            have hrej := hrej2 (by rw [hnoskip]; simp)
            unfold LocalStart at hσ
            rw [if_neg (by rw [hnoskip]; simp)] at hσ
            omega
          · rcases hpt with ⟨rfl, rfl⟩ | ⟨rfl, -⟩
            · unfold LocalStart at hσ
              split_ifs at hσ with hafter
              · exact Or.inr (Or.inr ⟨hafter, hσ.2.2.2 j hsj (by omega)⟩)
              · omega
            · omega
      · exact hgone hall
    | @rescan r ns' next f hlook hne hrej1 hrej2 hsimple hlt hnext hrest =>
      obtain ⟨s', j, -, hl, hj, hneg, hns, hm, -⟩ := hlook.movedTo hrep hne
      rw [hl.unique hls] at hj
      have hans := nextSimpleTrig_nextAnswer (by omega) ht.toInRange hj
      have hss := hls.le
      have hnext' : next = j + 1 := by
        rcases hnext with rfl | ⟨hskip, hle, hsr, -⟩
        · exact hns
        · have := hm.le (by rw [hskip]; simp)
          omega
      subst hnext'
      rcases hans.visit hlp h0 hneg with ⟨hseen, hsj, hfirst⟩ | ⟨hjs, -⟩
      · have hnacc : ∀ r', ¬ Accepted (e.om t) t today j r' := fun r' =>
          not_accepted hm hrej1 hrej2
        by_cases hst : Stops (e.om t) t j
        · have hstop : pastUntil t.untilDate (j + 1) = true ∨ t.skip = .after ∧ r < today ∧
              ∀ l j', LocalStart (e.om t) t.skip (j + 1) l →
                nextSimpleTrig l t = some (.ok j') → j' ≤ j := by
            rcases hst with hu | hneg1 | ⟨hafter, hom⟩
            · exact Or.inl hu
            · exact (hne (hm.unique hneg1)).elim
            · have hrt := hrej2 (by rw [hafter]; simp)
              refine Or.inr ⟨hafter, by omega, fun l j' hl' hj' => ?_⟩
              have hans' := nextSimpleTrig_nextAnswer (hl'.nonneg (by omega)) ht.toInRange hj'
              exact after_leads_back ht.toInRange (by omega) hls hans hsj hafter hom hl' hans'
          rw [searchLoop_stopped htodo htz hrep (by omega) hm hstop hrest herr]
          refine .missed fun b r' hb hacc => ⟨j, hseen, ?_, hst⟩
          have hjb : j ≤ b := hfirst b hb (by
            by_contra hlt
            exact (hbefore b hb (by omega)).1 r' hacc)
          refine lt_of_le_of_ne hjb ?_
          rintro rfl
          exact hnacc r' hacc
        · refine ih (s := j + 1) ?_ (Or.inr ⟨rfl, j, hseen, by omega, rfl⟩) ?_ hrest
          · unfold LocalStart
            split_ifs with hafter
            · refine ⟨by omega, le_rfl, ?_, fun n h1 h2 => by omega⟩
              rw [show j + 1 - 1 = j by omega]
              by_contra hom
              exact hst (Or.inr (Or.inr ⟨hafter, by simpa using hom⟩))
            · rfl
          · intro b hb hbj
            by_cases hbs : b < s
            · exact hbefore b hb hbs
            · have := hfirst b hb (by omega)
              obtain rfl : b = j := by omega
              exact ⟨hnacc, hst⟩
      · omega

end Scan

end Remind
