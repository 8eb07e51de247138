import Remind.Lib.Scan
import Remind.NextDate
import Remind.Search

/-!
# SearchSpec — what one look for a date finds (`GetNextTriggerDate`)

A search whose surroundings do not change asks a fixed predicate whether a date is omitted.  Each
scan that ends without an error has found what `Lib.Scan` says: BACK the `n`-th free day before,
BEFORE the last free day up to a date, AFTER the first free day from it on.
-/

namespace Remind

/-- The dates that `IsOmitted` calls omitted. -/
def Env.om (e : Env Id) (t : Trigger) (n : ℤ) : Bool :=
  match e.omitted t n with
  | .ok b => b
  | .error _ => false

/-- BACK moves a simple date `b` to `x`. -/
def Backed (om : ℤ → Bool) (back b x : ℤ) : Prop :=
  if back ≤ 0 then x = b + back else Lib.NthBefore om back.toNat b x

/-- The skip rule moves `x` to `r`; SKIP drops dates and moves none. -/
def Moved (om : ℤ → Bool) (skip : SkipRule) (x r : ℤ) : Prop :=
  match skip with
  | .noSkip => r = x
  | .skip => r = x
  | .before => Lib.LastFree om x r
  | .after => Lib.FirstFree om x r

section Scans

variable {e : Env Id} {t : Trigger}

theorem Env.om_of_ok {n : ℤ} {b : Bool} (h : e.omitted t n = .ok b) : e.om t n = b := by
  unfold Env.om
  rw [h]

/-- The first AFTER loop stops at the start of the omitted block. -/
theorem backUpStart_ok {k : ℕ} {start s : ℤ} (h : backUpStart e t k start = .ok s)
    (hs : 0 ≤ start) :
    0 ≤ s ∧ s ≤ start ∧ e.om t (s - 1) = false ∧ ∀ n, s ≤ n → n < start → e.om t n = true := by
  induction k generalizing start with
  | zero => cases h
  | succ k ih =>
    rcases ho : e.omitted t (start - 1) with r | b
    · simp [backUpStart, ho, bind, pure] at h
    · cases b
      · simp only [backUpStart, ho, bind, pure, Bool.not_false, if_true] at h
        split_ifs at h
        cases h
        exact ⟨hs, le_rfl, Env.om_of_ok ho, fun n h1 h2 => by omega⟩
      · simp only [backUpStart, ho, bind, pure, Bool.not_true, Bool.false_eq_true, if_false] at h
        split_ifs at h with hneg
        obtain ⟨h0, hle, hfree, hblk⟩ := ih h (by omega)
        refine ⟨h0, by omega, hfree, fun n h1 h2 => ?_⟩
        by_cases hn : n = start - 1
        · rw [hn, Env.om_of_ok ho]
        · exact hblk n h1 (by omega)

theorem backLoop_ok {k : ℕ} {mod s x : ℤ} (h : backLoop e t k mod s = .ok x) (hmod : 0 < mod) :
    Lib.NthBefore (e.om t) mod.toNat s x := by
  induction k generalizing mod s with
  | zero => cases h
  | succ k ih =>
    unfold backLoop at h
    rw [if_neg (by omega)] at h
    rcases ho : e.omitted t (s - 1) with r | b
    · simp [ho, bind, pure] at h
    · have hom := Env.om_of_ok ho
      cases b
      · simp only [ho, bind, Bool.false_eq_true, if_false] at h
        by_cases h1 : mod = 1
        · subst h1
          -- the last day is found; the loop test ends the loop
          cases k with
          | zero => cases h
          | succ k =>
            unfold backLoop at h
            rw [if_pos (by omega)] at h
            split_ifs at h
            cases h
            exact Lib.nthBefore_one hom
        · have := ih h (by omega)
          rw [show mod.toNat = (mod - 1).toNat + 1 by omega]
          exact this.step_free hom
      · simp only [ho, bind, if_true] at h
        exact (ih h hmod).step_blocked hom

theorem applyBack_ok {s x : ℤ} (h : applyBack e t s = .ok x) : Backed (e.om t) t.back s x := by
  unfold applyBack at h
  unfold Backed
  split_ifs at h with h1 h2
  · cases h
    rw [if_pos (by omega)]
  · cases h
    rw [if_pos (by omega)]
    omega
  · rw [if_neg (by omega)]
    exact backLoop_ok h (by omega)

theorem beforeLoop_ok {k : ℕ} {s x : ℤ} (h : beforeLoop e t k s = .ok x) :
    Lib.LastFree (e.om t) s x ∧ e.omitted t x = .ok false ∧ (0 ≤ s → 0 ≤ x) := by
  induction k generalizing s with
  | zero => cases h
  | succ k ih =>
    rcases ho : e.omitted t s with r | b
    · simp [beforeLoop, ho, bind, pure] at h
    · cases b
      · simp only [beforeLoop, ho, bind, pure, Bool.not_false, if_true] at h
        split_ifs at h
        cases h
        exact ⟨Lib.lastFree_self (Env.om_of_ok ho), ho, id⟩
      · simp only [beforeLoop, ho, bind, pure, Bool.not_true, Bool.false_eq_true, if_false] at h
        split_ifs at h with hneg
        obtain ⟨h1, h2, h3⟩ := ih h
        exact ⟨h1.step (Env.om_of_ok ho), h2, fun _ => h3 (by omega)⟩

theorem afterLoop_ok {k : ℕ} {s x : ℤ} (h : afterLoop e t k s = .ok x) :
    Lib.FirstFree (e.om t) s x ∧ e.omitted t x = .ok false := by
  induction k generalizing s with
  | zero => cases h
  | succ k ih =>
    rcases ho : e.omitted t s with r | b
    · simp [afterLoop, ho, bind, pure] at h
    · cases b
      · simp only [afterLoop, ho, bind, pure, Bool.not_false, if_true] at h
        split_ifs at h
        cases h
        exact ⟨Lib.firstFree_self (Env.om_of_ok ho), ho⟩
      · simp only [afterLoop, ho, bind, pure, Bool.not_true, Bool.false_eq_true, if_false] at h
        obtain ⟨h1, h2⟩ := ih h
        exact ⟨h1.step (Env.om_of_ok ho), h2⟩

theorem applySkip_ok {s x : ℤ} (h : applySkip e t s = .ok x) :
    Moved (e.om t) t.skip s x ∧
      (t.skip = .before ∨ t.skip = .after → e.omitted t x = .ok false) ∧ (0 ≤ s → 0 ≤ x) := by
  unfold applySkip at h
  unfold Moved
  rcases hsk : t.skip with _ | _ | _ | _ <;> simp only [hsk] at h ⊢
  · cases h
    exact ⟨rfl, by simp, id⟩
  · cases h
    exact ⟨rfl, by simp, id⟩
  · obtain ⟨h1, h2, h3⟩ := beforeLoop_ok h
    exact ⟨h1, fun _ => h2, h3⟩
  · obtain ⟨h1, h2⟩ := afterLoop_ok h
    have := h1.1.1
    exact ⟨h1, fun _ => h2, by omega⟩

/-- What `GetNextTriggerDate` makes of a simple date. -/
theorem moveDate_ok {start s x : ℤ} (h : moveDate e t start s = .ok x) :
    ∃ b, Backed (e.om t) t.back s b ∧ Moved (e.om t) t.skip (applyRep t start b) x ∧
      (t.skip = .before ∨ t.skip = .after → e.omitted t x = .ok false) ∧
      (0 ≤ applyRep t start b → 0 ≤ x) := by
  unfold moveDate at h
  rcases hb : applyBack e t s with r | b
  · simp [hb, bind, pure] at h
  · simp only [hb, bind] at h
    exact ⟨b, applyBack_ok hb, applySkip_ok h⟩

/-- Where the search for a simple date begins: with AFTER at the start of the omitted block. -/
def LocalStart (om : ℤ → Bool) (skip : SkipRule) (start s : ℤ) : Prop :=
  if skip = .after then
    0 ≤ s ∧ s ≤ start ∧ om (s - 1) = false ∧ ∀ n, s ≤ n → n < start → om n = true
  else s = start

/-- The ways in which one look for a date ends without an error: the trigger has expired, there is
no simple date, or a simple date `j` is moved to `x`. -/
inductive Look (e : Env Id) (t : Trigger) (start : ℤ) : ℤ × ℤ → Prop
  | untilPassed {ns : ℤ} : t.isTodo = false → pastUntil t.untilDate start = true →
      Look e t start (-1, ns)
  | complete {ns : ℤ} : t.isTodo = true → Look e t start (-1, ns)
  | noDate {ns s : ℤ} : LocalStart (e.om t) t.skip start s →
      nextSimpleTrig s t = some (.ok (-1)) → Look e t start (-1, ns)
  | date {s j b x : ℤ} : (t.isTodo = false → pastUntil t.untilDate start = false) →
      LocalStart (e.om t) t.skip start s → nextSimpleTrig s t = some (.ok j) → j ≠ -1 →
      Backed (e.om t) t.back j b → Moved (e.om t) t.skip (applyRep t s b) x →
      (t.skip = .before ∨ t.skip = .after → e.omitted t x = .ok false) →
      (0 ≤ applyRep t s b → 0 ≤ x) →
      Look e t start (if pastUntil t.untilDate x then -1 else x, j + 1)

theorem lookFrom_ok {start ns s : ℤ} {r : ℤ × ℤ}
    (hpast : t.isTodo = false → pastUntil t.untilDate start = false)
    (hls : LocalStart (e.om t) t.skip start s) (h : lookFrom e t ns s = .ok r) :
    Look e t start r := by
  unfold lookFrom at h
  rcases hj : nextSimpleTrig s t with _ | r' | j <;> simp only [hj] at h
  · cases h
  · cases h
  · split_ifs at h with hneg
    · cases h
      exact .noDate hls (by rw [hj, hneg])
    · rcases hm : moveDate e t s j with r' | x
      · simp [hm, bind, pure] at h
      · simp only [hm, bind] at h
        cases h
        obtain ⟨b, h1, h2, h3, h4⟩ := moveDate_ok hm
        exact .date hpast hls hj hneg h1 h2 h3 h4

theorem getNextTriggerDate_ok {start ns : ℤ} {r : ℤ × ℤ} (hs : 0 ≤ start)
    (h : getNextTriggerDate e t start ns = .ok r) : Look e t start r := by
  unfold getNextTriggerDate at h
  split_ifs at h with hu hc hafter
  · cases h
    simp only [Bool.and_eq_true, Bool.not_eq_true'] at hu
    exact .untilPassed hu.1 hu.2
  · cases h
    simp only [Bool.and_eq_true] at hc
    exact .complete hc.1.2
  all_goals
    have hpast : t.isTodo = false → pastUntil t.untilDate start = false := fun htodo => by
      simpa [htodo] using hu
  · rcases hb : backUpStart e t (e.maxSatIter + 1) start with r' | s
    · simp [hb, bind, pure] at h
    · simp only [hb, bind] at h
      refine lookFrom_ok hpast ?_ h
      unfold LocalStart
      rw [if_pos hafter]
      exact backUpStart_ok hb hs
  · refine lookFrom_ok hpast ?_ h
    unfold LocalStart
    rw [if_neg hafter]

/-- Where a look finds a date. -/
theorem Look.found {start r ns : ℤ} (h : Look e t start (r, ns)) (hr : r ≠ -1) :
    ∃ s j b, (t.isTodo = false → pastUntil t.untilDate start = false) ∧
      LocalStart (e.om t) t.skip start s ∧ nextSimpleTrig s t = some (.ok j) ∧ j ≠ -1 ∧
      ns = j + 1 ∧ Backed (e.om t) t.back j b ∧ Moved (e.om t) t.skip (applyRep t s b) r ∧
      (t.skip = .before ∨ t.skip = .after → e.omitted t r = .ok false) ∧
      pastUntil t.untilDate r = false := by
  generalize hp : (r, ns) = p at h
  cases h with
  | untilPassed _ _ => cases hp; exact (hr rfl).elim
  | complete _ => cases hp; exact (hr rfl).elim
  | noDate _ _ => cases hp; exact (hr rfl).elim
  | @date s j b x hpast hls hj hneg hb hx hom _ =>
    obtain ⟨hr', hns⟩ := Prod.mk.inj hp
    have hu : pastUntil t.untilDate x = false := by
      by_contra hu
      rw [if_pos (by simpa using hu)] at hr'
      exact hr hr'
    rw [if_neg (by simp [hu])] at hr'
    subst hr'
    exact ⟨s, j, b, hpast, hls, hj, hneg, hns, hb, hx, hom, hu⟩

/-- One round of the search loop without a time zone, when it raises no error: the date found is
accepted, the search ends without one, or it scans on. -/
inductive Round (e : Env Id) (t : Trigger) (tim : TimeTrig) (today dur : ℤ) (n : ℕ)
    (start sns : ℤ) : Found → Prop
  | gone {ns : ℤ} : Look e t start (-1, ns) →
      Round e t tim today dur n start sns (.expire t none)
  | accepted {r ns : ℤ} : Look e t start (r, ns) → r ≠ -1 → today ≤ r + dur →
      (t.skip = .skip → e.omitted t r = .ok false) →
      Round e t tim today dur n start sns { result := r, trig := t, last := some r }
  | stopped {r ns : ℤ} : Look e t start (r, ns) → r ≠ -1 →
      (t.skip = .skip → r + dur < today ∨ e.omitted t r = .ok true) →
      (t.skip ≠ .skip → r + dur < today) →
      (t.back = 0 ∧ t.skip = .noSkip ∧ t.rep = 0 ∨
        ns ≤ start ∧ ¬ (t.skip = .skip ∧ e.omitted t r = .ok true ∧ start ≤ r)) →
      Round e t tim today dur n start sns (.expire t (some r))
  | rescan {r ns next : ℤ} {f : Found} : Look e t start (r, ns) → r ≠ -1 →
      (t.skip = .skip → r + dur < today ∨ e.omitted t r = .ok true) →
      (t.skip ≠ .skip → r + dur < today) →
      ¬ (t.back = 0 ∧ t.skip = .noSkip ∧ t.rep = 0) → start < next →
      (next = ns ∨ t.skip = .skip ∧ ns ≤ start ∧ start ≤ r ∧ next = r + 1) →
      searchLoop e tim today dur n t next next sns = f →
      Round e t tim today dur n start sns f

theorem searchLoop_round {tim : TimeTrig} {today dur start ns sns : ℤ} {n : ℕ} {f : Found}
    (htz : t.tz = none) (hs : 0 ≤ start)
    (h : searchLoop e tim today dur (n + 1) t start ns sns = f) (herr : f.err = none) :
    Round e t tim today dur n start sns f := by
  unfold searchLoop at h
  rcases hg : getNextTriggerDate e t start ns with r' | ⟨r, ns'⟩
  · simp only [hg, bind, pure] at h
    subst h
    cases herr
  have hlook := getNextTriggerDate_ok hs hg
  simp only [hg, bind, pure] at h
  by_cases hneg : r = -1
  · rw [if_pos hneg] at h
    subst h hneg
    exact .gone hlook
  rw [if_neg hneg] at h
  have key : ∀ o : Bool, (t.skip = .skip → e.omitted t r = .ok o) →
      (t.skip ≠ .skip → o = false) →
      acceptOrRescan t today dur start ns' r o
        (fun start nextstart => searchLoop e tim today dur n t start nextstart sns) = f →
      Round e t tim today dur n start sns f := by
    intro o ho hno hacc
    unfold acceptOrRescan at hacc
    by_cases hok : r + dur ≥ today ∧ (t.skip ≠ .skip ∨ o = false)
    · rw [if_pos hok] at hacc
      subst hacc
      refine .accepted hlook hneg hok.1 fun hsk => ?_
      rw [ho hsk, hok.2.resolve_left (fun hn => hn hsk)]
    rw [if_neg hok] at hacc
    have hrej1 : t.skip = .skip → r + dur < today ∨ e.omitted t r = .ok true := by
      intro hsk
      rw [ho hsk]
      cases o
      · exact Or.inl (by by_contra hge; exact hok ⟨by omega, Or.inr rfl⟩)
      · exact Or.inr rfl
    have hrej2 : t.skip ≠ .skip → r + dur < today := fun hsk => by
      by_contra hge
      exact hok ⟨by omega, Or.inl hsk⟩
    by_cases hsimple : t.back = 0 ∧ t.skip = .noSkip ∧ t.rep = 0
    · rw [if_pos hsimple] at hacc
      subst hacc
      exact .stopped hlook hneg hrej1 hrej2 (Or.inl hsimple)
    rw [if_neg hsimple] at hacc
    by_cases hadj : t.skip = .skip ∧ o = true ∧ ns' ≤ start ∧ r ≥ start
    · have hval : rescanStart t start ns' r o = r + 1 := if_pos hadj
      obtain ⟨hsk, hot, hns, hrs⟩ := hadj
      rw [hval, if_neg (by omega)] at hacc
      exact .rescan hlook hneg hrej1 hrej2 hsimple (by omega) (Or.inr ⟨hsk, hns, hrs, rfl⟩) hacc
    · have hval : rescanStart t start ns' r o = ns' := if_neg hadj
      rw [hval] at hacc
      by_cases hns : ns' ≤ start
      · rw [if_pos hns] at hacc
        subst hacc
        refine .stopped hlook hneg hrej1 hrej2 (Or.inr ⟨hns, ?_⟩)
        rintro ⟨hsk, hot, hrs⟩
        rw [ho hsk] at hot
        cases hot
        exact hadj ⟨hsk, rfl, hns, hrs⟩
      · rw [if_neg hns] at hacc
        exact .rescan hlook hneg hrej1 hrej2 hsimple (by omega) (Or.inl rfl) hacc
  by_cases hsk : t.skip = .skip
  · rcases ho : e.omitted t r with r' | o
    · simp only [skipOmitted, if_pos hsk, ho] at h
      subst h
      cases herr
    · simp only [skipOmitted, if_pos hsk, ho, tryDate, if_pos htz] at h
      exact key o (fun _ => ho) (fun hn => (hn hsk).elim) h
  · simp only [skipOmitted, if_neg hsk, pure, tryDate, if_pos htz] at h
    exact key false (fun h => (hsk h).elim) (fun _ => rfl) h

/-- A search without an error has passed the checks for "obvious problems". -/
theorem computeTriggerNoAdjustDuration_ok {today dur : ℤ} {tim : TimeTrig} {f : Found}
    (h : computeTriggerNoAdjustDuration e t today tim dur = f) (herr : f.err = none) :
    0 ≤ today - dur ∧ (t.rep ≠ 0 → t.d ≠ none ∧ t.m ≠ none ∧ t.y ≠ none) ∧
      searchLoop e tim today dur trigAttempts t.unexpired (today - dur) 0 0 = f := by
  unfold computeTriggerNoAdjustDuration at h
  split_ifs at h with hwd hover hdur hrep
  · subst h
    cases herr
  · subst h
    cases herr
  · subst h
    cases herr
  · subst h
    cases herr
  · refine ⟨by omega, fun hr => ?_, h⟩
    by_contra hno
    exact hrep ⟨hr, by tauto⟩

end Scans

end Remind
