import Remind.NoDate

/-!
# SameZone — a TZ clause that names the local zone

With a time zone that converts nothing, the search of a line and the search of the line less its TZ
clause take the same rounds until one finds a date before today: there the time zone asks for
another attempt from the next day on, whatever the line without it would do.
-/

namespace Remind

/-- A trigger without what `ComputeTrigger` writes into it and without its time zone. -/
def Trigger.core (t : Trigger) : Trigger := { t.clauses with tz := none }

/-- A date `r`, omitted or not under SKIP, that the search from `start` accepts. -/
def Accepts (t : Trigger) (start dur r : ℤ) (o : Bool) : Prop :=
  r + dur ≥ start ∧ (t.skip ≠ .skip ∨ o = false)

/-- The looks of a search without a time zone: with `n` attempts left it looks from `s`, with the
`nextstart` `ns`. -/
inductive LooksFrom (e : Env Id) (t : Trigger) (start dur : ℤ) : ℕ → ℤ → ℤ → Prop
  | first : LooksFrom e t start dur trigAttempts (start - dur) 0
  | again {n : ℕ} {s ns r ns' : ℤ} {o : Bool} : LooksFrom e t start dur (n + 1) s ns →
      getNextTriggerDate e t s ns = .ok (r, ns') → r ≠ -1 → skipOmitted e t r = .ok o →
      ¬ Accepts t start dur r o → ¬ (t.back = 0 ∧ t.skip = .noSkip ∧ t.rep = 0) →
      s < rescanStart t s ns' r o →
      LooksFrom e t start dur n (rescanStart t s ns' r o) (rescanStart t s ns' r o)

/-- The look from `s` finds the date `r`. -/
def LooksAt (e : Env Id) (t : Trigger) (start dur s r ns' : ℤ) (o : Bool) : Prop :=
  ∃ n ns, LooksFrom e t start dur (n + 1) s ns ∧ getNextTriggerDate e t s ns = .ok (r, ns') ∧
    r ≠ -1 ∧ skipOmitted e t r = .ok o

/-- The search finds the date `r`. -/
def Finds (e : Env Id) (t : Trigger) (start dur r : ℤ) : Prop :=
  ∃ s ns' o, LooksAt e t start dur s r ns' o ∧ Accepts t start dur r o

/-- The time zone does not ask for another attempt, or it asks for the one that the search makes
anyway. -/
def ZonePasses (t : Trigger) (today start dur s r ns' : ℤ) (o : Bool) : Prop :=
  t.scanfrom ≠ none ∨ today ≤ r ∨
    (¬ Accepts t start dur r o ∧ ¬ (t.back = 0 ∧ t.skip = .noSkip ∧ t.rep = 0) ∧ ns' = s + 1)

/-- The trigger names one date, which has gone by, and does not repeat it. -/
def NamedGone (t : Trigger) (s : ℤ) : Prop :=
  t.rep = 0 ∧ t.skip ≠ .after ∧ t.d ≠ none ∧ t.m ≠ none ∧ t.y ≠ none ∧ ∀ n ∈ simpleDates t, n < s

/-- A time zone that converts nothing makes no difference to the search. -/
def ZoneBlind (e : Env Id) (t : Trigger) (today start dur : ℤ) : Prop :=
  NamedGone t (start - dur) ∨
    ∀ s r ns' o, LooksAt e t start dur s r ns' o → ZonePasses t today start dur s r ns' o

section Core

variable {e : Env Id}

theorem backUpStart_core (t : Trigger) (k : ℕ) (s : ℤ) :
    backUpStart e t.core k s = backUpStart e t k s := by
  induction k generalizing s with
  | zero => rfl
  | succ k ih =>
    unfold backUpStart
    simp only [ih]
    rfl

theorem backLoop_core (t : Trigger) (k : ℕ) (mod s : ℤ) :
    backLoop e t.core k mod s = backLoop e t k mod s := by
  induction k generalizing mod s with
  | zero => rfl
  | succ k ih =>
    unfold backLoop
    simp only [ih]
    rfl

theorem beforeLoop_core (t : Trigger) (k : ℕ) (s : ℤ) :
    beforeLoop e t.core k s = beforeLoop e t k s := by
  induction k generalizing s with
  | zero => rfl
  | succ k ih =>
    unfold beforeLoop
    simp only [ih]
    rfl

theorem afterLoop_core (t : Trigger) (k : ℕ) (s : ℤ) :
    afterLoop e t.core k s = afterLoop e t k s := by
  induction k generalizing s with
  | zero => rfl
  | succ k ih =>
    unfold afterLoop
    simp only [ih]
    rfl

theorem moveDate_core (t : Trigger) (start s : ℤ) :
    moveDate e t.core start s = moveDate e t start s := by
  unfold moveDate applyBack applySkip
  simp only [backLoop_core, beforeLoop_core, afterLoop_core]
  rfl

/-- A look depends on neither the time zone nor what the search writes into the trigger. -/
theorem getNextTriggerDate_core (t : Trigger) (s ns : ℤ) :
    getNextTriggerDate e t.core s ns = getNextTriggerDate e t s ns := by
  unfold getNextTriggerDate lookFrom
  simp only [backUpStart_core, moveDate_core]
  rfl

theorem getNextTriggerDate_congr {t t' : Trigger} (h : t.core = t'.core) (s ns : ℤ) :
    getNextTriggerDate e t s ns = getNextTriggerDate e t' s ns := by
  rw [← getNextTriggerDate_core t, ← getNextTriggerDate_core t', h]

theorem skipOmitted_congr {t t' : Trigger} (h : t.core = t'.core) (r : ℤ) :
    skipOmitted e t r = skipOmitted e t' r :=
  show skipOmitted e t.core r = skipOmitted e t'.core r by rw [h]

theorem rescanStart_congr {t t' : Trigger} (h : t.core = t'.core) (s ns r : ℤ) (o : Bool) :
    rescanStart t s ns r o = rescanStart t' s ns r o :=
  show rescanStart t.core s ns r o = rescanStart t'.core s ns r o by rw [h]

theorem accepts_congr {t t' : Trigger} (h : t.core = t'.core) (start dur r : ℤ) (o : Bool) :
    Accepts t start dur r o ↔ Accepts t' start dur r o :=
  show Accepts t.core start dur r o ↔ Accepts t'.core start dur r o by rw [h]

theorem stops_congr {t t' : Trigger} (h : t.core = t'.core) :
    (t.back = 0 ∧ t.skip = .noSkip ∧ t.rep = 0) ↔
      (t'.back = 0 ∧ t'.skip = .noSkip ∧ t'.rep = 0) :=
  show (t.core.back = 0 ∧ t.core.skip = .noSkip ∧ t.core.rep = 0) ↔
    (t'.core.back = 0 ∧ t'.core.skip = .noSkip ∧ t'.core.rep = 0) by rw [h]

theorem durationDays_congr {t t' : Trigger} (h : t.core = t'.core) :
    t.durationDays = t'.durationDays :=
  show t.core.durationDays = t'.core.durationDays by rw [h]

theorem LooksFrom.congr {t t' : Trigger} {start dur s ns : ℤ} {n : ℕ} (h : t.core = t'.core)
    (hl : LooksFrom e t start dur n s ns) : LooksFrom e t' start dur n s ns := by
  induction hl with
  | first => exact .first
  | again _ hg hr ho hna hns hlt ih =>
    rw [getNextTriggerDate_congr h] at hg
    rw [skipOmitted_congr h] at ho
    rw [accepts_congr h] at hna
    rw [stops_congr h] at hns
    rw [rescanStart_congr h] at hlt ⊢
    exact ih.again hg hr ho hna hns hlt

theorem looksAt_congr {t t' : Trigger} {start dur s r ns' : ℤ} {o : Bool} (h : t.core = t'.core) :
    LooksAt e t start dur s r ns' o ↔ LooksAt e t' start dur s r ns' o := by
  unfold LooksAt
  simp only [getNextTriggerDate_congr h, skipOmitted_congr h]
  exact ⟨fun ⟨n, ns, hl, hx⟩ => ⟨n, ns, hl.congr h, hx⟩,
    fun ⟨n, ns, hl, hx⟩ => ⟨n, ns, hl.congr h.symm, hx⟩⟩

theorem finds_congr {t t' : Trigger} {start dur r : ℤ} (h : t.core = t'.core) :
    Finds e t start dur r ↔ Finds e t' start dur r := by
  unfold Finds
  simp only [looksAt_congr h, accepts_congr h]

theorem zoneBlind_congr {t t' : Trigger} {today start dur : ℤ} (h : t.core = t'.core) :
    ZoneBlind e t today start dur ↔ ZoneBlind e t' today start dur := by
  have hpass : ∀ s r ns' o, ZonePasses t today start dur s r ns' o ↔
      ZonePasses t' today start dur s r ns' o := fun s r ns' o =>
    show ZonePasses t.core today start dur s r ns' o ↔ ZonePasses t'.core today start dur s r ns' o
      by rw [h]
  have hgone : NamedGone t (start - dur) ↔ NamedGone t' (start - dur) :=
    show NamedGone t.core (start - dur) ↔ NamedGone t'.core (start - dur) by rw [h]
  unfold ZoneBlind
  simp only [hgone, looksAt_congr h, hpass]

end Core

section Plain

variable {e : Env Id} {t : Trigger} {tim : TimeTrig} {start dur s ns ns' sns r : ℤ} {n : ℕ}
  {o : Bool}

/-- A round of the search that finds a date. -/
theorem searchLoop_date (hg : getNextTriggerDate e t s ns = .ok (r, ns')) (hr : r ≠ -1)
    (ho : skipOmitted e t r = .ok o) :
    searchLoop e tim start dur (n + 1) t s ns sns =
      tryDate e tim t start dur s ns' sns r o (searchLoop e tim start dur n) := by
  rw [searchLoop]
  simp only [hg, bind, if_neg hr, ho]

theorem searchLoop_plain (htz : t.tz = none) (hg : getNextTriggerDate e t s ns = .ok (r, ns'))
    (hr : r ≠ -1) (ho : skipOmitted e t r = .ok o) :
    searchLoop e tim start dur (n + 1) t s ns sns =
      acceptOrRescan t start dur s ns' r o fun s ns => searchLoop e tim start dur n t s ns sns := by
  rw [searchLoop_date hg hr ho, tryDate, if_pos htz]

/-- A search without a time zone comes to its looks. -/
theorem LooksFrom.reached (htz : t.tz = none) (h : LooksFrom e t start dur n s ns) :
    searchLoop e tim start dur trigAttempts t (start - dur) 0 sns =
      searchLoop e tim start dur n t s ns sns := by
  induction h with
  | first => rfl
  | again _ hg hr ho hna hns hlt ih =>
    unfold Accepts at hna
    rw [ih, searchLoop_plain htz hg hr ho, acceptOrRescan, if_neg hna, if_neg hns,
      if_neg (by omega)]

/-- What the search finds, it returns. -/
theorem Finds.result (htz : t.tz = none) (h : Finds e t start dur r) :
    searchLoop e tim start dur trigAttempts t (start - dur) 0 sns =
      { result := r, trig := t, last := some r } := by
  obtain ⟨s, ns', o, ⟨n, ns, hl, hg, hr, ho⟩, hacc⟩ := h
  unfold Accepts at hacc
  rw [hl.reached htz, searchLoop_plain htz hg hr ho, acceptOrRescan, if_pos hacc]
  rfl

/-- What the search returns, it finds. -/
theorem LooksFrom.finds (htz : t.tz = none) (h : LooksFrom e t start dur n s ns)
    (herr : (searchLoop e tim start dur n t s ns sns).err = none)
    (hres : (searchLoop e tim start dur n t s ns sns).result ≠ -1) :
    Finds e t start dur (searchLoop e tim start dur n t s ns sns).result := by
  induction n generalizing s ns with
  | zero => cases herr
  | succ n ih =>
    rcases hg : getNextTriggerDate e t s ns with r' | ⟨r, ns'⟩
    · rw [searchLoop] at herr
      simp only [hg, bind] at herr
      cases herr
    by_cases hr : r = -1
    · rw [searchLoop] at hres
      simp only [hg, bind, if_pos hr] at hres
      exact (hres rfl).elim
    rcases ho : skipOmitted e t r with r' | o
    · rw [searchLoop] at herr
      simp only [hg, bind, if_neg hr, ho] at herr
      cases herr
    rw [searchLoop_plain htz hg hr ho, acceptOrRescan] at herr hres ⊢
    by_cases hacc : r + dur ≥ start ∧ (t.skip ≠ .skip ∨ o = false)
    · rw [if_pos hacc]
      exact ⟨s, ns', o, ⟨n, ns, h, hg, hr, ho⟩, hacc⟩
    rw [if_neg hacc] at herr hres ⊢
    by_cases hsimple : t.back = 0 ∧ t.skip = .noSkip ∧ t.rep = 0
    · rw [if_pos hsimple] at hres
      exact (hres rfl).elim
    rw [if_neg hsimple] at herr hres ⊢
    by_cases hle : rescanStart t s ns' r o ≤ s
    · rw [if_pos hle] at hres
      exact (hres rfl).elim
    rw [if_neg hle] at herr hres ⊢
    exact ih (h.again hg hr ho hacc hsimple (by omega)) herr hres

end Plain

section Gone

variable {e : Env Id} {t : Trigger}

theorem moveDate_le {start s x : ℤ} (hrep : t.rep = 0) (hskip : t.skip ≠ .after)
    (h : moveDate e t start s = .ok x) : x ≤ s := by
  obtain ⟨b, hback, hmoved, -, -⟩ := moveDate_ok h
  have hb : b ≤ s := by
    unfold Backed at hback
    split_ifs at hback
    · omega
    · exact hback.1.le
  rw [applyRep, if_neg (by omega)] at hmoved
  unfold Moved at hmoved
  rcases hsk : t.skip with _ | _ | _ | _ <;> simp only [hsk] at hmoved
  · omega
  · omega
  · exact hmoved.1.1.trans hb
  · exact (hskip hsk).elim

theorem moveDate_norep {s : ℤ} (hrep : t.rep = 0) (a b : ℤ) :
    moveDate e t a s = moveDate e t b s := by
  unfold moveDate applyRep
  simp only [hrep, ne_eq, not_true_eq_false, false_and, if_false]

/-- All looks for a date that has gone by have one answer, up to those that UNTIL and
COMPLETE-THROUGH end. -/
theorem NamedGone.look {s : ℤ} (hgone : NamedGone t s) (hin : t.InRange) :
    ∃ res : Except ErrCode (ℤ × ℤ),
      (∀ r ns', res = .ok (r, ns') → r ≠ -1 → r < s ∧ 0 < ns' ∧ ns' ≤ s) ∧
      ∀ a ns, (∃ ns', getNextTriggerDate e t a ns = .ok (-1, ns')) ∨
        getNextTriggerDate e t a ns = res := by
  obtain ⟨hrep, hskip, hd, hm, hy, hlt⟩ := hgone
  have hlook : ∃ res : Except ErrCode (ℤ × ℤ),
      (∀ r ns', res = .ok (r, ns') → r ≠ -1 → r < s ∧ 0 < ns' ∧ ns' ≤ s) ∧
      ∀ a ns, lookFrom e t ns a = res := by
    by_cases hbad : t.BadDay
    · refine ⟨.error .badDate, (fun r ns' h => by cases h), fun a ns => ?_⟩
      unfold lookFrom
      rw [nextSimpleTrig_badDay hbad]
      rfl
    obtain ⟨n, hn, hset, hnext⟩ := nextSimpleTrig_date hin hbad hd hm hy
    have hns : n < s := hlt n (by rw [hset]; rfl)
    have heq : ∀ a ns, lookFrom e t ns a = match moveDate e t 0 n with
        | .error r => .error r
        | .ok moved => .ok (if pastUntil t.untilDate moved then -1 else moved, n + 1) := by
      intro a ns
      unfold lookFrom
      rw [hnext a]
      simp only
      rw [if_neg (by omega), moveDate_norep hrep a 0]
      rfl
    refine ⟨_, ?_, heq⟩
    intro r ns' hres hr
    rcases hmv : moveDate e t 0 n with r' | x
    · rw [hmv] at hres
      cases hres
    · rw [hmv] at hres
      obtain ⟨hx, rfl⟩ := Prod.mk.inj (Except.ok.inj hres)
      have hle := moveDate_le hrep hskip hmv
      by_cases hu : pastUntil t.untilDate x = true
      · rw [if_pos hu] at hx
        exact (hr hx.symm).elim
      · rw [if_neg hu] at hx
        exact ⟨by omega, by omega, by omega⟩
  obtain ⟨res, hres, heq⟩ := hlook
  refine ⟨res, hres, fun a ns => ?_⟩
  unfold getNextTriggerDate
  simp only [if_neg hskip, heq]
  split_ifs
  · exact Or.inl ⟨ns, rfl⟩
  · exact Or.inl ⟨ns, rfl⟩
  · exact Or.inr rfl

end Gone

/-- The zone `z` is the local one: entering and leaving it and converting from it change nothing. -/
structure LocalZone (e : RemEnv Id) (z : String) (today : ℤ) : Prop where
  enter : ∀ tz, tz = none ∨ tz = some z → e.enterTimezone tz = today
  exit : ∀ tz, tz = none ∨ tz = some z → e.exitTimezone tz = today
  convert : ∀ ymd hour minute, e.tzConvert ymd hour minute z = some (ymd, hour, minute)

section Zone

variable {e : RemEnv Id} {z : String} {today : ℤ} {t t' : Trigger} {tim : TimeTrig}

theorem dse_fromDSE {n : ℤ} (hn : 0 ≤ n) : dse (fromDSE n).y (fromDSE n).m (fromDSE n).d = n :=
  (fromDSE_spec hn).2

/-- Converting a date from the local zone gives the date. -/
theorem adjustTriggerForTimeZone_local (hz : LocalZone e z today) (htz : t.tz = some z) (n : ℤ) :
    (adjustTriggerForTimeZone e t tim n).2.2 = n := by
  unfold adjustTriggerForTimeZone
  rw [htz]
  simp only
  split_ifs with hn
  · rfl
  · rw [hz.convert]
    exact dse_fromDSE (by omega)

theorem viewLocally_local (hz : LocalZone e z today) (htz : t.tz = some z) (n : ℤ) :
    (e.env.viewLocally t tim n).newResult = n ∧ (e.env.viewLocally t tim n).dseToday = today ∧
      (e.env.viewLocally t tim n).trig.searched = t.searched :=
  ⟨adjustTriggerForTimeZone_local hz htz n, hz.exit _ (Or.inr htz), viewLocally_searched n⟩

theorem core_of_searched (h : t.searched = t'.searched) : t.core = t'.core := by
  unfold Trigger.core Trigger.clauses
  rw [h]

/-- A date that the search finds, in a zone that converts nothing: the zone asks for another attempt
when the date is over. -/
theorem tryDate_local {start dur s ns sns r : ℤ} {o : Bool} {again : Trigger → ℤ → ℤ → ℤ → Id Found}
    (hz : LocalZone e z today) (htz : t.tz = some z) :
    ∃ v : Trigger, v.searched = t.searched ∧
      tryDate e.env tim t start dur s ns sns r o again =
        if t.scanfrom = none ∧ r < today then
          if ns ≤ sns then .expire v none else again v (s + 1) (s + 1) ns
        else acceptOrRescan (m := Id) v start dur s ns r o fun s ns => again v s ns sns := by
  obtain ⟨hnew, htoday, hsearched⟩ := @viewLocally_local e z today t tim hz htz r
  unfold tryDate
  rw [if_neg (by rw [htz]; simp)]
  simp only [bind]
  generalize e.env.viewLocally t tim r = v at *
  refine ⟨v.trig, hsearched, ?_⟩
  have hiff : ((t.scanfrom = none ∧ v.newResult < v.dseToday) ∨
      (r + dur ≥ start ∧ v.newResult + dur < start)) ↔ t.scanfrom = none ∧ r < today := by
    rw [hnew, htoday]
    exact ⟨fun h => h.resolve_right (by omega), Or.inl⟩
  simp only [hiff]
  rfl

/-- Two searches end with the same error and the same date. -/
def SameDate (f f' : Found) : Prop := f.err = f'.err ∧ f.result = f'.result

/-- The two searches go on in the same way from a date to which the zone does not object. -/
theorem acceptOrRescan_same {v : Trigger} {start dur s ns r : ℤ} {o : Bool}
    {again again' : ℤ → ℤ → Id Found} (hcore : v.core = t'.core)
    (hagain : ¬ Accepts t' start dur r o → ¬ (t'.back = 0 ∧ t'.skip = .noSkip ∧ t'.rep = 0) →
      s < rescanStart t' s ns r o →
      SameDate (again (rescanStart t' s ns r o) (rescanStart t' s ns r o))
        (again' (rescanStart t' s ns r o) (rescanStart t' s ns r o))) :
    SameDate (acceptOrRescan (m := Id) v start dur s ns r o again)
      (acceptOrRescan (m := Id) t' start dur s ns r o again') := by
  have hacc : (r + dur ≥ start ∧ (v.skip ≠ .skip ∨ o = false)) ↔
      (r + dur ≥ start ∧ (t'.skip ≠ .skip ∨ o = false)) := accepts_congr hcore start dur r o
  unfold acceptOrRescan
  simp only [hacc, stops_congr hcore, rescanStart_congr hcore]
  split_ifs with h1 h2 h3
  · exact ⟨rfl, rfl⟩
  · exact ⟨rfl, rfl⟩
  · exact ⟨rfl, rfl⟩
  · exact hagain h1 h2 (by omega)

/-- **Lockstep**: where the zone never asks for another attempt of its own, the searches with and
without it take the same rounds. -/
theorem searchLoop_local {start dur s ns sns sns' : ℤ} {n : ℕ} (hz : LocalZone e z today)
    (htz : t.tz = some z) (htz' : t'.tz = none) (hcore : t.core = t'.core) (hsns : sns ≤ s)
    (hl : LooksFrom e.env t' start dur n s ns)
    (hpass : ∀ s r ns' o, LooksAt e.env t' start dur s r ns' o →
      ZonePasses t' today start dur s r ns' o) :
    SameDate (searchLoop e.env tim start dur n t s ns sns)
      (searchLoop e.env tim start dur n t' s ns sns') := by
  induction n generalizing t s ns sns with
  | zero => exact ⟨rfl, rfl⟩
  | succ n ih =>
    rcases hg : getNextTriggerDate e.env t' s ns with r' | ⟨r, ns'⟩
    · have hg' := (getNextTriggerDate_congr hcore s ns).trans hg
      rw [searchLoop, searchLoop]
      simp only [hg, hg', bind]
      exact ⟨rfl, rfl⟩
    have hg' := (getNextTriggerDate_congr hcore s ns).trans hg
    by_cases hr : r = -1
    · rw [searchLoop, searchLoop]
      simp only [hg, hg', bind, if_pos hr]
      exact ⟨rfl, rfl⟩
    rcases ho : skipOmitted e.env t' r with r' | o
    · have ho' := (skipOmitted_congr hcore r).trans ho
      rw [searchLoop, searchLoop]
      simp only [hg, hg', bind, if_neg hr, ho, ho']
      exact ⟨rfl, rfl⟩
    have ho' := (skipOmitted_congr hcore r).trans ho
    rw [searchLoop_date hg' hr ho', searchLoop_plain htz' hg hr ho]
    obtain ⟨v, hv, heq⟩ := @tryDate_local e z today t tim start dur s ns' sns r o
      (searchLoop e.env tim start dur n) hz htz
    rw [heq]
    have hvcore : v.core = t'.core := (core_of_searched hv).trans hcore
    have hvz : v.tz = some z := (show v.searched.tz = t.searched.tz by rw [hv]).trans htz
    have hscan : t.scanfrom = t'.scanfrom := show t.core.scanfrom = t'.core.scanfrom by rw [hcore]
    by_cases hobj : t.scanfrom = none ∧ r < today
    · -- the zone asks for the attempt that the other search makes too
      rw [if_pos hobj]
      rcases hpass s r ns' o ⟨n, ns, hl, hg, hr, ho⟩ with hp | hp | ⟨hacc, hsimple, hns⟩
      · exact (hp (hscan ▸ hobj.1)).elim
      · omega
      subst hns
      have hres : rescanStart t' s (s + 1) r o = s + 1 := if_neg fun h => by omega
      have hnext := hl.again hg hr ho hacc hsimple (by omega)
      rw [hres] at hnext
      unfold Accepts at hacc
      rw [if_neg (by omega), acceptOrRescan, if_neg hacc, if_neg hsimple, hres,
        if_neg (by omega)]
      exact ih hvz hvcore le_rfl hnext
    · rw [if_neg hobj]
      exact acceptOrRescan_same hvcore fun hacc hsimple hlt =>
        ih hvz hvcore (by omega) (hl.again hg hr ho hacc hsimple hlt)

theorem acceptOrRescan_gone {start dur s ns r : ℤ} {o : Bool} {again : ℤ → ℤ → Id Found}
    (hlt : r + dur < start) (hs : r < s) (hns : ns ≤ s) :
    (acceptOrRescan (m := Id) t start dur s ns r o again).err = none ∧
      (acceptOrRescan (m := Id) t start dur s ns r o again).result = -1 := by
  have hres : rescanStart t s ns r o = ns := if_neg fun h => by omega
  unfold acceptOrRescan
  rw [if_neg (by omega), hres, if_pos hns, ite_self]
  exact ⟨rfl, rfl⟩

/-- A date that has gone by: the other attempt that the zone asks for finds it again. -/
theorem searchLoop_gone {start dur : ℤ} {n : ℕ} (hz : LocalZone e z today)
    (htz : t.tz = some z) (htz' : t'.tz = none) (hcore : t.core = t'.core) (hin : t'.InRange)
    (hgone : NamedGone t' (start - dur)) :
    SameDate (searchLoop e.env tim start dur (n + 2) t (start - dur) 0 0)
      (searchLoop e.env tim start dur (n + 2) t' (start - dur) 0 0) := by
  obtain ⟨res, hres, hlook⟩ := hgone.look (e := e.env) hin
  rcases hg : getNextTriggerDate e.env t' (start - dur) 0 with r' | ⟨r, ns'⟩
  · have hg' := (getNextTriggerDate_congr hcore _ _).trans hg
    rw [searchLoop, searchLoop]
    simp only [hg, hg', bind]
    exact ⟨rfl, rfl⟩
  have hg' := (getNextTriggerDate_congr hcore _ _).trans hg
  by_cases hr : r = -1
  · rw [searchLoop, searchLoop]
    simp only [hg, hg', bind, if_pos hr]
    exact ⟨rfl, rfl⟩
  obtain ⟨hlt, hpos, hle⟩ : r < start - dur ∧ 0 < ns' ∧ ns' ≤ start - dur := by
    rcases hlook (start - dur) 0 with ⟨x, h⟩ | h
    · rw [hg] at h
      exact (hr (Prod.mk.inj (Except.ok.inj h)).1).elim
    · exact hres r ns' (h.symm.trans hg) hr
  rcases ho : skipOmitted e.env t' r with r' | o
  · have ho' := (skipOmitted_congr hcore r).trans ho
    rw [searchLoop, searchLoop]
    simp only [hg, hg', bind, if_neg hr, ho, ho']
    exact ⟨rfl, rfl⟩
  have ho' := (skipOmitted_congr hcore r).trans ho
  rw [searchLoop_date hg' hr ho', searchLoop_plain htz' hg hr ho]
  obtain ⟨herr, hneg⟩ := @acceptOrRescan_gone t' start dur (start - dur) ns' r o
    (fun s ns => searchLoop e.env tim start dur (n + 1) t' s ns 0) (by omega) hlt hle
  have h : ∀ f f' : Found, f.err = none → f.result = -1 → f'.err = none → f'.result = -1 →
      SameDate f f' := fun f f' h1 h2 h3 h4 => ⟨h1.trans h3.symm, h2.trans h4.symm⟩
  obtain ⟨v, hv, heq⟩ := @tryDate_local e z today t tim start dur (start - dur) ns' 0 r o
    (searchLoop e.env tim start dur (n + 1)) hz htz
  rw [heq]
  have hvcore : v.core = t'.core := (core_of_searched hv).trans hcore
  have hvz : v.tz = some z := (show v.searched.tz = t.searched.tz by rw [hv]).trans htz
  have hscan : v.scanfrom = t.scanfrom :=
    show v.searched.scanfrom = t.searched.scanfrom by rw [hv]
  by_cases hobj : t.scanfrom = none ∧ r < today
  · rw [if_pos hobj, if_neg (by omega)]
    have hg2 := getNextTriggerDate_congr hvcore (e := e.env) (start - dur + 1) (start - dur + 1)
    rcases hlook (start - dur + 1) (start - dur + 1) with ⟨x, h2⟩ | h2
    · rw [searchLoop]
      simp only [hg2, h2, bind, if_true]
      exact h _ _ rfl rfl herr hneg
    · have hsame : res = .ok (r, ns') := by
        rcases hlook (start - dur) 0 with ⟨x, h⟩ | h
        · rw [hg] at h
          exact (hr (Prod.mk.inj (Except.ok.inj h)).1).elim
        · exact h.symm.trans hg
      rw [searchLoop_date (hg2.trans (h2.trans hsame)) hr ((skipOmitted_congr hvcore r).trans ho)]
      obtain ⟨w, -, hw⟩ := @tryDate_local e z today v tim start dur (start - dur + 1) ns' ns' r o
        (searchLoop e.env tim start dur n) hz hvz
      rw [hw, hscan, if_pos hobj, if_pos le_rfl]
      exact h _ _ rfl rfl herr hneg
  · rw [if_neg hobj]
    obtain ⟨h1, h2⟩ := @acceptOrRescan_gone v start dur (start - dur) ns' r o
      (fun s ns => searchLoop e.env tim start dur (n + 1) v s ns 0) (by omega) hlt hle
    exact h _ _ h1 h2 herr hneg

theorem computeTriggerNoAdjustDuration_local {start dur : ℤ} (hz : LocalZone e z today)
    (htz : t.tz = some z) (htz' : t'.tz = none) (hcore : t.core = t'.core) (hin : t'.InRange)
    (hblind : ZoneBlind e.env t' today start dur) :
    SameDate (computeTriggerNoAdjustDuration e.env t start tim dur)
      (computeTriggerNoAdjustDuration e.env t' start tim dur) := by
  have hlocal : t.localomit = t'.localomit :=
    show t.core.localomit = t'.core.localomit by rw [hcore]
  have hrep : (t.rep ≠ 0 ∧ (t.d = none ∨ t.m = none ∨ t.y = none)) ↔
      (t'.rep ≠ 0 ∧ (t'.d = none ∨ t'.m = none ∨ t'.y = none)) :=
    show (t.core.rep ≠ 0 ∧ (t.core.d = none ∨ t.core.m = none ∨ t.core.y = none)) ↔
      (t'.core.rep ≠ 0 ∧ (t'.core.d = none ∨ t'.core.m = none ∨ t'.core.y = none)) by rw [hcore]
  unfold computeTriggerNoAdjustDuration
  simp only [hlocal, hrep]
  split_ifs with h1 h2 h3 h4
  · exact ⟨rfl, rfl⟩
  · exact ⟨rfl, rfl⟩
  · exact ⟨rfl, rfl⟩
  · exact ⟨rfl, rfl⟩
  · have hcore' : t.unexpired.core = t'.unexpired.core := hcore
    rw [zoneBlind_congr (show t'.core = t'.unexpired.core from rfl)] at hblind
    rcases hblind with hgone | hpass
    · exact searchLoop_gone hz htz htz' hcore' ⟨hin.day, hin.mon, hin.yr⟩ hgone
    · exact searchLoop_local hz htz htz' hcore' (by omega) .first hpass

/-- The line without its time zone, searched from `start`, makes no difference between a zone that
converts nothing and none: neither search asks for another attempt, and the event is not under way
on `start`, unless `start` itself is its date. -/
structure SameInZone (e : Env Id) (t : Trigger) (today start : ℤ) : Prop where
  first : ZoneBlind e t today start 0
  event : t.durationDays = 0 ∨ Finds e t start 0 start ∨
    ZoneBlind e t today start t.durationDays ∧
      ∀ r, Finds e t start t.durationDays r → start ≤ r

/-- The trigger date of a search without a time zone. -/
theorem computeTriggerNoAdjustDuration_finds {start dur : ℤ} (htz : t.tz = none)
    (herr : (computeTriggerNoAdjustDuration e.env t start tim dur).err = none)
    (hres : (computeTriggerNoAdjustDuration e.env t start tim dur).result ≠ -1) :
    Finds e.env t start dur (computeTriggerNoAdjustDuration e.env t start tim dur).result := by
  obtain ⟨-, -, hloop⟩ := computeTriggerNoAdjustDuration_ok rfl herr
  rw [← hloop] at herr hres ⊢
  exact (finds_congr (show t.unexpired.core = t.core from rfl)).mp
    (LooksFrom.finds htz .first herr hres)

/-- Two outcomes of `ComputeTrigger` agree: the same error, or the same date, time, clauses and
event data. -/
structure SameComputed (c c' : Computed) : Prop where
  err : c.err = c'.err
  clauses : c.trig.core = c'.trig.core
  date : c.err = none → c.result = c'.result ∧ c.tim = c'.tim ∧
    c.trig.eventstart = c'.trig.eventstart ∧ c.trig.eventduration = c'.trig.eventduration

section Rest

variable {f g : Found} {start : ℤ}

theorem computeTriggerRest_error (herr : f.err ≠ none) :
    (computeTriggerRest e start tim f).err = f.err := by
  unfold computeTriggerRest
  rw [if_pos herr]
  rfl

theorem computeTriggerRest_today (herr : f.err = none) (hr : f.result = start) :
    computeTriggerRest e start tim f = ⟨none, f.result, setEvent f.trig tim f.result, tim⟩ := by
  unfold computeTriggerRest
  rw [if_neg (not_not.mpr herr), if_pos hr]
  rfl

/-- The search whose date `ComputeTrigger` returns when the first one does not find its start. -/
def lastSearch (e : RemEnv Id) (start : ℤ) (tim : TimeTrig) (f : Found) : Found :=
  if f.trig.durationDays ≠ 0 then
    computeTriggerNoAdjustDuration e.env f.trig start tim f.trig.durationDays
  else f

theorem computeTriggerRest_lastError (herr : f.err = none) (hr : f.result ≠ start)
    (hg : lastSearch e start tim f = g) (hgerr : g.err ≠ none) :
    (computeTriggerRest e start tim f).err = g.err := by
  unfold lastSearch at hg
  unfold computeTriggerRest
  rw [if_neg (not_not.mpr herr), if_neg hr]
  simp only [bind, pure]
  by_cases hdd : f.trig.durationDays ≠ 0
  · rw [if_pos hdd] at hg ⊢
    rw [hg, if_pos hgerr]
  · rw [if_neg hdd] at hg ⊢
    rw [hg, if_pos hgerr]

/-- An event that is not under way is left on its date. -/
theorem computeTriggerRest_still (herr : f.err = none) (hr : f.result ≠ start)
    (hg : lastSearch e start tim f = g) (hgerr : g.err = none)
    (hstill : ¬ (g.result < start ∧ g.result + g.trig.durationDays ≥ start)) :
    computeTriggerRest e start tim f = ⟨none, g.result, setEvent g.trig tim g.result, tim⟩ := by
  unfold lastSearch at hg
  unfold computeTriggerRest
  rw [if_neg (not_not.mpr herr), if_neg hr]
  simp only [bind, pure]
  by_cases hdd : f.trig.durationDays ≠ 0
  · rw [if_pos hdd] at hg ⊢
    rw [hg, if_neg (not_not.mpr hgerr), adjustTriggerForDuration, if_neg hstill]
  · rw [if_neg hdd] at hg ⊢
    rw [hg, if_neg (not_not.mpr hgerr), adjustTriggerForDuration, if_neg hstill]

end Rest

/-- The search leaves the clauses and the duration of the event alone. -/
theorem search_keeps {start dur : ℤ} (u : Trigger) :
    (computeTriggerNoAdjustDuration e.env u start tim dur).trig.core = u.core ∧
      (computeTriggerNoAdjustDuration e.env u start tim dur).trig.tz = u.tz ∧
      (computeTriggerNoAdjustDuration e.env u start tim dur).trig.eventduration =
        u.eventduration := by
  have h := @computeTriggerNoAdjustDuration_searched e u tim start dur
  exact ⟨core_of_searched h, (show _ = u.searched.tz by rw [← h]; rfl),
    (show _ = u.searched.eventduration by rw [← h]; rfl)⟩

theorem inRange_congr (h : t.core = t'.core) (hin : t'.InRange) : t.InRange where
  day := show ∀ d, t.core.d = some d → 1 ≤ d ∧ d ≤ 31 by rw [h]; exact hin.day
  mon := show ∀ m, t.core.m = some m → 0 ≤ m ∧ m ≤ 11 by rw [h]; exact hin.mon
  yr := show ∀ y, t.core.y = some y → baseYr ≤ y by rw [h]; exact hin.yr

theorem lastSearch_keeps {start : ℤ} (f : Found) :
    (lastSearch e start tim f).trig.core = f.trig.core ∧
      (lastSearch e start tim f).trig.eventduration = f.trig.eventduration := by
  unfold lastSearch
  split_ifs
  · exact ⟨(search_keeps _).1, (search_keeps _).2.2⟩
  · exact ⟨rfl, rfl⟩

/-- The last searches of the two lines end alike, and the event found is not under way. -/
theorem lastSearch_same {start : ℤ} {f f' : Found} (hz : LocalZone e z today)
    (htz : f.trig.tz = some z) (htz' : f'.trig.tz = none) (hcore : f.trig.core = f'.trig.core)
    (hdate : SameDate f f') (hin : f'.trig.InRange)
    (hevent : f'.trig.durationDays = 0 ∨ ZoneBlind e.env f'.trig today start f'.trig.durationDays ∧
      ∀ r, Finds e.env f'.trig start f'.trig.durationDays r → start ≤ r) :
    SameDate (lastSearch e start tim f) (lastSearch e start tim f') ∧
      ((lastSearch e start tim f').err = none →
        ¬ ((lastSearch e start tim f').result < start ∧
          (lastSearch e start tim f').result + f'.trig.durationDays ≥ start)) := by
  have hdays := durationDays_congr hcore
  unfold lastSearch
  by_cases h0 : f'.trig.durationDays = 0
  · rw [if_neg (by omega), if_neg (by omega)]
    exact ⟨hdate, fun _ => by omega⟩
  obtain ⟨hblind, hahead⟩ := hevent.resolve_left h0
  rw [if_pos (by omega), if_pos h0, hdays]
  refine ⟨computeTriggerNoAdjustDuration_local hz htz htz' hcore hin hblind, fun herr => ?_⟩
  obtain ⟨hpos, -, -⟩ := computeTriggerNoAdjustDuration_ok rfl herr
  rintro ⟨hlt, hge⟩
  by_cases hr : (computeTriggerNoAdjustDuration e.env f'.trig start tim
      f'.trig.durationDays).result = -1
  · omega
  · have := hahead _ (computeTriggerNoAdjustDuration_finds htz' herr hr)
    omega

/-- With and without the zone, `ComputeTrigger` leaves the event on the same date. -/
theorem computeTrigger_still {start : ℤ} (hz : LocalZone e z today) (htz : t.tz = some z)
    (htz' : t'.tz = none) (hcore : t.core = t'.core) (hdur : t.eventduration = t'.eventduration)
    (hin : t'.InRange) (hsame : SameInZone e.env t' today start) :
    (computeTrigger e start t tim).err = (computeTrigger e start t' tim).err ∧
      ((computeTrigger e start t tim).err = none → ∃ r u u',
        computeTrigger e start t tim = ⟨none, r, setEvent u tim r, tim⟩ ∧
        computeTrigger e start t' tim = ⟨none, r, setEvent u' tim r, tim⟩ ∧
        u.eventduration = u'.eventduration) := by
  have hdate := @computeTriggerNoAdjustDuration_local e z today t t' tim start 0 hz htz htz' hcore hin
    hsame.first
  obtain ⟨hfcore, hftz, hfdur⟩ := @search_keeps e tim start 0 t
  obtain ⟨hfcore', hftz', hfdur'⟩ := @search_keeps e tim start 0 t'
  have hfinds : Finds e.env t' start 0 start →
      (computeTriggerNoAdjustDuration e.env t' start tim 0).err = none →
      (computeTriggerNoAdjustDuration e.env t' start tim 0).result = start := by
    intro h herr
    obtain ⟨-, -, hloop⟩ := computeTriggerNoAdjustDuration_ok rfl herr
    rw [← hloop, Finds.result (t := t'.unexpired) htz'
      ((finds_congr (show t'.core = t'.unexpired.core from rfl)).mp h)]
  unfold computeTrigger
  simp only [bind]
  generalize computeTriggerNoAdjustDuration e.env t start tim 0 = f at *
  generalize computeTriggerNoAdjustDuration e.env t' start tim 0 = f' at *
  obtain ⟨herr, hres⟩ := hdate
  by_cases h1 : f.err = none
  swap
  · rw [computeTriggerRest_error h1, computeTriggerRest_error (herr ▸ h1)]
    exact ⟨herr, fun h => (h1 h).elim⟩
  have h1' : f'.err = none := herr.symm.trans h1
  by_cases h2 : f.result = start
  · rw [computeTriggerRest_today h1 h2, computeTriggerRest_today h1' (hres ▸ h2), ← hres]
    exact ⟨rfl, fun _ => ⟨f.result, f.trig, f'.trig, rfl, rfl, by rw [hfdur, hfdur', hdur]⟩⟩
  have h2' : f'.result ≠ start := hres ▸ h2
  have hdays := durationDays_congr hfcore'
  have hevent : f'.trig.durationDays = 0 ∨
      ZoneBlind e.env f'.trig today start f'.trig.durationDays ∧
        ∀ r, Finds e.env f'.trig start f'.trig.durationDays r → start ≤ r := by
    rw [zoneBlind_congr hfcore', hdays]
    simp only [finds_congr hfcore']
    rcases hsame.event with h | h | h
    · exact Or.inl h
    · exact (h2' (hfinds h h1')).elim
    · exact Or.inr h
  obtain ⟨⟨hgerr, hgres⟩, hstill⟩ := @lastSearch_same e z today tim start f f' hz (hftz.trans htz)
    (hftz'.trans htz') (hfcore.trans (hcore.trans hfcore'.symm)) ⟨herr, hres⟩
    (inRange_congr hfcore' hin) hevent
  obtain ⟨hgcore, hgdur⟩ := @lastSearch_keeps e tim start f
  obtain ⟨hgcore', hgdur'⟩ := @lastSearch_keeps e tim start f'
  have hgdays := durationDays_congr (hgcore.trans (hfcore.trans (hcore.trans hfcore'.symm)))
  have hgdays' := durationDays_congr hgcore'
  by_cases h3 : (lastSearch e start tim f).err = none
  swap
  · rw [computeTriggerRest_lastError h1 h2 rfl h3,
      computeTriggerRest_lastError h1' h2' rfl (hgerr ▸ h3)]
    exact ⟨hgerr, fun h => (h3 h).elim⟩
  have h3' : (lastSearch e start tim f').err = none := hgerr.symm.trans h3
  have hno := hstill h3'
  rw [computeTriggerRest_still h1 h2 rfl h3 (by rw [hgdays, hgres]; exact hno),
    computeTriggerRest_still h1' h2' rfl h3' (by rw [hgdays']; exact hno), ← hgres]
  exact ⟨rfl, fun _ => ⟨_, _, _, rfl, rfl, by rw [hgdur, hgdur', hfdur, hfdur', hdur]⟩⟩

theorem SameInZone.congr {e : Env Id} {start : ℤ} (h : t.core = t'.core)
    (hsame : SameInZone e t today start) : SameInZone e t' today start where
  first := (zoneBlind_congr h).mp hsame.first
  event := by
    have hevent := hsame.event
    simp only [zoneBlind_congr h, finds_congr h, durationDays_congr h] at hevent
    exact hevent

theorem computeTrigger_local {start ttime : ℤ} (hz : LocalZone e z today)
    (htz : t.tz = some z) (htz' : t'.tz = none) (hcore : t.core = t'.core)
    (hdur : t.eventduration = t'.eventduration) (hin : t'.InRange)
    (hat : tim.ttime = some ttime) (hsame : SameInZone e.env t' today start) :
    SameComputed (computeTrigger e start t tim) (computeTrigger e start t' tim) ∧
      ((computeTrigger e start t tim).err = none →
        (computeTrigger e start t tim).tim = tim ∧
        (computeTrigger e start t tim).trig.eventstart =
          some (minutesPerDay * (computeTrigger e start t tim).result + ttime)) := by
  have hclauses : (computeTrigger e start t tim).trig.core =
      (computeTrigger e start t' tim).trig.core :=
    show { (computeTrigger e start t tim).trig.clauses with tz := none } =
      { (computeTrigger e start t' tim).trig.clauses with tz := none } by
    rw [computeTrigger_clauses, computeTrigger_clauses]
    exact hcore
  obtain ⟨herr, hlast⟩ := @computeTrigger_still e z today t t' tim start hz htz htz' hcore hdur hin
    hsame
  refine ⟨⟨herr, hclauses, fun hok => ?_⟩, fun hok => ?_⟩
  · obtain ⟨r, u, u', h1, h2, h3⟩ := hlast hok
    rw [h1, h2]
    refine ⟨rfl, rfl, ?_, ?_⟩ <;> simp only [setEvent, hat]
    rw [h3]
  · obtain ⟨r, u, u', h1, h2, h3⟩ := hlast hok
    rw [h1]
    exact ⟨rfl, by simp only [setEvent, hat]⟩

end Zone

section Decide

variable {e : RemEnv Id} {t t' : Trigger} {tim : TimeTrig} {today n : ℤ}

theorem warnBack_core (k : ℕ) (v j : ℤ) : warnBack e t.core k v j = warnBack e t k v j := by
  induction k generalizing v j with
  | zero => rfl
  | succ k ih =>
    unfold warnBack
    simp only [ih]
    rfl

theorem warnTry_core (v : ℤ) : warnTry e t.core today n v = warnTry e t today n v := by
  unfold warnTry
  simp only [warnBack_core]

theorem warnLoop_core (i last : ℕ) :
    warnLoop e t.core today n i last = warnLoop e t today n i last := by
  induction last using Nat.strong_induction_on generalizing i with
  | _ last ih =>
    rw [warnLoop, warnLoop]
    simp only [warnTry_core, bind, pure, show t.core.warn = t.warn from rfl]
    rcases e.evalUser t.warn i with r | v
    · rfl
    cases v with
    | int v =>
      simp only
      split_ifs with hlt
      · rw [ih _ hlt]
      · rfl
    | _ => rfl

theorem deltaBack_core (k : ℕ) (r j : ℤ) :
    deltaBack e t.core today k r j = deltaBack e t today k r j := by
  induction k generalizing r j with
  | zero => rfl
  | succ k ih =>
    unfold deltaBack
    simp only [ih]
    rfl

/-- The decision to issue depends on neither the time zone nor the event data. -/
theorem shouldTriggerReminder_core :
    shouldTriggerReminder e t.core tim today n = shouldTriggerReminder e t tim today n := by
  unfold shouldTriggerReminder triggerAhead shouldTriggerBasedOnWarn
  simp only [deltaBack_core, warnLoop_core, warnTry_core]
  rfl

theorem shouldQueueReminder_core :
    shouldQueueReminder e t.core tim today n = shouldQueueReminder e t tim today n := rfl

end Decide

/-- Two firings on the same date, with the same time, clauses and event data. -/
structure SameFiring (f f' : Firing) : Prop where
  clauses : f.trig.core = f'.trig.core
  tim : f.tim = f'.tim
  dse : f.dse = f'.dse
  eventstart : f.trig.eventstart = f'.trig.eventstart
  eventduration : f.trig.eventduration = f'.trig.eventduration

/-- Two lines reach the same decision, with the same trigger date, time and event. -/
structure SameDecision (o o' : RemOutcome) : Prop where
  issued : o.issued = o'.issued
  queued : o.queued = o'.queued
  omits : o.omits = o'.omits
  firing : Option.Rel SameFiring o.firing o'.firing

section Line

variable {e : IssueEnv Id} {c : OmitContext} {t t' : Trigger} {tim : TimeTrig} {z : String}
  {today : ℤ} {f f' : Firing}

theorem SameFiring.refl (f : Firing) : SameFiring f f := ⟨rfl, rfl, rfl, rfl, rfl⟩

theorem SameDecision.refl (o : RemOutcome) : SameDecision o o where
  issued := rfl
  queued := rfl
  omits := rfl
  firing := by
    cases o.firing
    · exact .none
    · exact .some (.refl _)

theorem issueRem_same {queued : Bool} (h : SameFiring f f') :
    SameDecision (issueRem e c today f queued) (issueRem e c today f' queued) := by
  have htrig : shouldTriggerReminder e.toRemEnv f.trig f.tim today f.dse =
      shouldTriggerReminder e.toRemEnv f'.trig f'.tim today f'.dse := by
    rw [← shouldTriggerReminder_core (t := f.trig), h.clauses, shouldTriggerReminder_core, h.tim,
      h.dse]
  have hfilt : todoFiltered e.toRemEnv f.trig = todoFiltered e.toRemEnv f'.trig :=
    show todoFiltered e.toRemEnv f.trig.core = todoFiltered e.toRemEnv f'.trig.core by rw [h.clauses]
  unfold issueRem
  simp only [htrig, hfilt, bind, pure]
  split_ifs
  · exact ⟨rfl, rfl, rfl, .some h⟩
  · exact ⟨rfl, rfl, rfl, .some h⟩
  · exact ⟨rfl, rfl, rfl, .some h⟩
  · exact ⟨rfl, rfl, rfl, .some h⟩

theorem decideLocal_same (h : SameFiring f f') :
    SameDecision (decideLocal e c today f) (decideLocal e c today f') := by
  have hadd : addOmit c f.trig f.dse = addOmit c f'.trig f'.dse :=
    show addOmit c f.trig.core f.dse = addOmit c f'.trig.core f'.dse by rw [h.clauses, h.dse]
  have hqueue : shouldQueueReminder e.toRemEnv f.trig f.tim today f.dse =
      shouldQueueReminder e.toRemEnv f'.trig f'.tim today f'.dse := by
    rw [← shouldQueueReminder_core (t := f.trig), h.clauses, shouldQueueReminder_core, h.tim, h.dse]
  unfold decideLocal
  rw [hadd]
  rcases addOmit c f'.trig f'.dse with ⟨c', _ | r⟩
  · simp only [hqueue, bind, pure]
    split_ifs
    · exact ⟨rfl, rfl, rfl, .some h⟩
    · exact ⟨rfl, rfl, rfl, .some h⟩
    · exact issueRem_same h
  · exact ⟨rfl, rfl, rfl, .none⟩

/-- Converting a date and time from the local zone changes nothing. -/
theorem localFiring_local {ttime n : ℤ} (hz : LocalZone e.toRemEnv z today) (htz : t.tz = some z)
    (hat : tim.ttime = some ttime) (horig : tim.ttimeOrig = some ttime)
    (hev : t.eventstart = some (minutesPerDay * n + ttime)) :
    localFiring e t tim n = ⟨t, tim, n⟩ := by
  have hget : tim.ttimeOrig.getD 0 = ttime := by rw [horig]; rfl
  unfold localFiring adjustTriggerForTimeZone
  simp only [htz]
  split_ifs with hn
  · rfl
  · rw [hget, hz.convert]
    simp only
    rw [dse_fromDSE (by omega), show ttime / 60 * 60 + ttime % 60 = ttime by omega,
      show n * minutesPerDay + ttime = minutesPerDay * n + ttime by rw [mul_comm], ← hev, ← hat,
      ← htz]

theorem localFiring_none {n : ℤ} (htz : t.tz = none) : localFiring e t tim n = ⟨t, tim, n⟩ := by
  unfold localFiring adjustTriggerForTimeZone
  rw [htz]

/-- The line less its TZ clause. -/
def RemLine.withoutTz (l : RemLine) : RemLine := { l with trig := { l.trig with tz := none } }

theorem computeInTimezone_local (hz : LocalZone e.toRemEnv z today)
    (htz : t.tz = none ∨ t.tz = some z) :
    computeInTimezone e.toRemEnv t tim =
      (computeTrigger e.toRemEnv (getScanfrom e.modes.calmode today t) t tim, today) := by
  unfold computeInTimezone
  simp only [bind, pure]
  rw [hz.enter _ htz, hz.exit _ htz]

end Line

/-- `REM 2024-01-01 AT 10:00 DURATION 48:00 TZ Local MSG x` -/
def longEvent : RemLine where
  trig := { d := some 1, m := some 0, y := some 2024, typ := .msg, durationDays := 2,
            eventduration := some 2880, tz := some "Local" }
  tim := { ttime := some 600, ttimeOrig := some 600, duration := some 2880 }

theorem plainEnv_localZone (modes : Modes) (today : ℤ) (z : String) :
    LocalZone (plainEnv modes today).toRemEnv z today where
  enter _ _ := rfl
  exit _ _ := rfl
  convert _ _ _ := rfl

/-- `REM 2024-01-01 +2 AT 10:00 TZ Local MSG x` -/
def aheadEvent : RemLine where
  trig := { d := some 1, m := some 0, y := some 2024, delta := 2, typ := .msg, tz := some "Local" }
  tim := { ttime := some 600, ttimeOrig := some 600 }

end Remind
