import Mathlib.Tactic.IntervalCases
import Remind.DoSubst
import Remind.Lib.Wp

/-!
# ClockText — the times that `%2`, `%@` and `%#` say

A text of a 12-hour clock is read as the hour, the minutes and the half of the day it has.
-/

namespace Remind

variable {σ : Type}

/-- The word for a half of the day. -/
def SubstEnv.half (w : SubstEnv σ) (pm : Bool) : String := if pm then w.tr "pm" else w.tr "am"

/-- A text of a 12-hour clock. -/
def SubstEnv.twelveHour (w : SubstEnv σ) (hour min : ℤ) (pm : Bool) : String :=
  toString hour ++ w.text.timeSep.toString ++ padInt 2 min ++ w.half pm

/-- `text` says the time `t` (minutes from midnight) on a 12-hour clock. -/
def SaysTwelveHour (w : SubstEnv σ) (text : String) (t : ℤ) : Prop :=
  ∃ (hour min : ℤ) (pm : Bool), 1 ≤ hour ∧ hour ≤ 12 ∧ 0 ≤ min ∧ min ≤ 59 ∧
    text = w.twelveHour hour min pm ∧ t = (hour % 12 + if pm then 12 else 0) * 60 + min

/-- `text` says the time `t` on a 24-hour clock. -/
def SaysTime (sep : Char) (text : String) (t : ℤ) : Prop :=
  ∃ hour min : ℤ, 0 ≤ hour ∧ hour ≤ 23 ∧ 0 ≤ min ∧ min ≤ 59 ∧
    text = padInt 2 hour ++ sep.toString ++ padInt 2 min ∧ t = hour * 60 + min

/-- The sequence of `c` puts `text` into the buffer, whatever the buffer and the parser. -/
def Produces (w : SubstEnv σ) (a : SubstArgs) (v : SubstVars) (altmode : Bool) (c : Char)
    (text : String) : Prop :=
  ∀ b s, ∃ b', substSequence w a v altmode c b s = .ok b' s ∧ b'.dbuf = b.dbuf ++ text.toList

/-- The time of the reminder, or else the current time. -/
def trigMinutes (w : SubstEnv σ) (a : SubstArgs) : ℤ :=
  (a.tt.bind TimeTrig.ttime).getD w.minutesPastMidnight

/-- No user function has a say in the clock sequences; their words fit into the buffer, and those
for the halves of the day can be told apart at the end of a text. -/
structure SubstEnv.PlainClock (w : SubstEnv σ) : Prop where
  ampm : w.findUserFunc "subst_ampm" ≠ some 1
  two : w.findUserFunc "subst_2" ≠ some 3
  twoX : w.findUserFunc "subst_2x" ≠ some 3
  now : w.findUserFunc "subst_at" ≠ some 3
  nowX : w.findUserFunc "subst_atx" ≠ some 3
  hash : w.findUserFunc "subst_hash" ≠ some 3
  hashX : w.findUserFunc "subst_hashx" ≠ some 3
  fits : ∀ pm, (w.tr "at").toList.length + (w.half pm).toList.length + 6 ≤ 255
  apart : ∀ pm pm', (w.half pm).toList <:+ (w.half pm').toList → pm = pm'

/-- The law: `%2` and `%*2` say the time of the reminder, `%@` and `%#` the current time. -/
structure ClockTexts (w : SubstEnv σ) (a : SubstArgs) (v : SubstVars) : Prop where
  two : ∃ text, SaysTwelveHour w text (trigMinutes w a) ∧
    Produces w a v true '2' text ∧ Produces w a v false '2' (w.tr "at" ++ " " ++ text)
  now : ∀ altmode, ∃ text, SaysTwelveHour w text w.minutesPastMidnight ∧
    Produces w a v altmode '@' text
  hash : ∀ altmode, ∃ text, SaysTime w.text.timeSep text w.minutesPastMidnight ∧
    Produces w a v altmode '#' text

section Texts

variable {w : SubstEnv σ} {a : SubstArgs} {v : SubstVars} {s s' : PtrState σ}

theorem askOverride_unused {name : Option String} (b : SubstBuf)
    (h : ∀ n, name = some n → w.findUserFunc n ≠ some 3) (altmode : Bool) :
    askOverride w v altmode name b = pure (false, b) := by
  unfold askOverride
  cases name with
  | none => rfl
  | some n => exact if_neg (h n rfl)

/-- A sequence that no user function and no near day replaces. -/
theorem produces_of_text {altmode : Bool} {c : Char} {text : String}
    (h0 : ∀ name, getFunctionOverride c false = some name → w.findUserFunc name ≠ some 3)
    (h1 : ∀ name, getFunctionOverride c true = some name → w.findUserFunc name ≠ some 3)
    (hnear : saysNearDay c = false) (hup : c.isUpper = false)
    (ho : sequenceOutput w a v altmode c = .text text) (hlen : text.toList.length ≤ 255) :
    Produces w a v altmode c text := by
  intro b s
  have hseq : substSequence w a v altmode c b = pure (b.ship text) := by
    unfold substSequence
    simp only [askOverride_unused b h0, askOverride_unused b h1, pure_bind, Bool.false_eq_true,
      if_false, hnear, and_false]
    unfold putSequence SubstBuf.capitalize
    rw [ho]
    simp only [hup, Bool.false_eq_true, false_and, if_false]
  refine ⟨b.ship text, by rw [hseq]; rfl, ?_⟩
  · rw [SubstBuf.ship, snprintf, String.toList_ofList, List.take_of_length_le hlen]

/-- What is known of the texts when no user function makes them. -/
theorem substVars_plain (hplain : w.PlainClock) (ht : 0 ≤ trigMinutes w a)
    (hv : substVars w a s = .ok v s') :
    v.h = (trigMinutes w a).tdiv 60 ∧ v.min = (trigMinutes w a).tmod 60 ∧
      v.hh = (if v.h = 12 ∨ v.h = 0 then 12 else v.h.tmod 12) ∧
      v.pm = w.half (decide (720 ≤ trigMinutes w a)) ∧
      v.ch = w.minutesPastMidnight.tdiv 60 ∧ v.cmin = w.minutesPastMidnight.tmod 60 ∧
      v.chh = (if v.ch = 0 ∨ v.ch = 12 then 12 else v.ch.tmod 12) ∧
      -- here too the half of the day is that of the reminder
      v.cpm = w.half (decide (720 ≤ trigMinutes w a)) := by
  unfold substVars at hv
  have hask : ∀ arg, askFunction w "subst_ampm" arg false = pure (false, none) := fun arg =>
    if_neg hplain.ampm
  simp only [hask, pure_bind] at hv
  obtain ⟨ordinal, t, -, hv⟩ := Lib.bind_eq_ok hv
  have hhalf : (if (trigMinutes w a).tdiv 60 < 12 then w.tr "am" else w.tr "pm") =
      w.half (decide (720 ≤ trigMinutes w a)) := by
    rw [SubstEnv.half, Int.tdiv_eq_ediv_of_nonneg ht]
    by_cases h720 : 720 ≤ trigMinutes w a
    · rw [if_neg (by omega), if_pos (by simpa using h720)]
    · rw [if_pos (by omega), if_neg (by simpa using h720)]
  cases hv
  exact ⟨rfl, rfl, rfl, hhalf, rfl, rfl, rfl, hhalf⟩

/-- The word at the end of a text tells the half of the day. -/
theorem saysTwelveHour_iff (hplain : w.PlainClock) {hour min t : ℤ} (pm : Bool) (h1 : 1 ≤ hour)
    (h12 : hour ≤ 12) (hm0 : 0 ≤ min) (hm : min ≤ 59)
    (ht : t.tdiv 60 % 12 = hour % 12 ∧ t.tmod 60 = min) (ht0 : 0 ≤ t) (htd : t < 1440) :
    SaysTwelveHour w (w.twelveHour hour min pm) t ↔ (pm = true ↔ 720 ≤ t) := by
  rw [Int.tdiv_eq_ediv_of_nonneg ht0, Int.tmod_eq_emod_of_nonneg ht0] at ht
  constructor
  · rintro ⟨hour', min', pm', h1', h12', hm0', hm', htext, ht'⟩
    have hends : ∀ {h m p}, (w.half p).toList <:+ (w.twelveHour h m p).toList := by
      intro h m p
      rw [SubstEnv.twelveHour, String.toList_append]
      exact List.suffix_append _ _
    have hpm : pm = pm' := by
      rcases List.suffix_or_suffix_of_suffix (hends (h := hour) (m := min) (p := pm))
        (htext ▸ hends (h := hour') (m := min') (p := pm')) with h | h
      · exact hplain.apart _ _ h
      · exact (hplain.apart _ _ h).symm
    subst hpm
    cases pm <;> simp at ht' ⊢ <;> omega
  · intro hpm
    refine ⟨hour, min, pm, h1, h12, hm0, hm, rfl, ?_⟩
    cases pm <;> simp at hpm ⊢ <;> omega

theorem produces_unique {altmode : Bool} {c : Char} {x y : String} (s : PtrState σ)
    (hx : Produces w a v altmode c x) (hy : Produces w a v altmode c y) : x = y := by
  obtain ⟨b, hb, hxb⟩ := hx ⟨[], "", false⟩ s
  obtain ⟨b', hb', hyb⟩ := hy ⟨[], "", false⟩ s
  cases hb.symm.trans hb'
  exact String.toList_injective (hxb.symm.trans hyb)

theorem padInt_length {n : ℤ} (h0 : 0 ≤ n) (h59 : n ≤ 59) : (padInt 2 n).toList.length ≤ 2 := by
  have hall : ∀ i : Fin 60, (padInt 2 (i : ℕ)).toList.length ≤ 2 := by decide
  have hn := hall ⟨n.toNat, by omega⟩
  rwa [show ((⟨n.toNat, by omega⟩ : Fin 60) : ℕ) = n.toNat from rfl, Int.toNat_of_nonneg h0] at hn

theorem hour_length {n : ℤ} (h1 : 1 ≤ n) (h12 : n ≤ 12) : (toString n).toList.length ≤ 2 := by
  interval_cases n <;> decide

/-- The hour of a 12-hour clock. -/
theorem twelveHour_spec {t : ℤ} (h0 : 0 ≤ t) (h : t < 1440) :
    1 ≤ (if t.tdiv 60 = 12 ∨ t.tdiv 60 = 0 then 12 else (t.tdiv 60).tmod 12) ∧
      (if t.tdiv 60 = 12 ∨ t.tdiv 60 = 0 then 12 else (t.tdiv 60).tmod 12) ≤ 12 ∧
      t.tdiv 60 % 12 =
        (if t.tdiv 60 = 12 ∨ t.tdiv 60 = 0 then 12 else (t.tdiv 60).tmod 12) % 12 := by
  rw [Int.tdiv_eq_ediv_of_nonneg h0, Int.tmod_eq_emod_of_nonneg (by omega)]
  split_ifs <;> omega

/-- The text fits into the buffer. -/
theorem twelveHour_length (hplain : w.PlainClock) {hour min : ℤ} (pm : Bool) (h1 : 1 ≤ hour)
    (h12 : hour ≤ 12) (hm0 : 0 ≤ min) (hm : min ≤ 59) :
    (w.twelveHour hour min pm).toList.length + ((w.tr "at").toList.length + 1) ≤ 255 := by
  have hhour := hour_length h1 h12
  have hmin := padInt_length hm0 hm
  have hfits := hplain.fits pm
  simp only [SubstEnv.twelveHour, String.toList_append, List.length_append, Char.toString,
    String.toList_singleton, List.length_singleton]
  omega

/-- `%2` and `%*2`. -/
theorem produces_two (hplain : w.PlainClock) {hour min : ℤ} {pm : Bool} (h1 : 1 ≤ hour)
    (h12 : hour ≤ 12) (hm0 : 0 ≤ min) (hm : min ≤ 59) (hhh : v.hh = hour) (hmin : v.min = min)
    (hpm : v.pm = w.half pm) :
    Produces w a v true '2' (w.twelveHour hour min pm) ∧
      Produces w a v false '2' (w.tr "at" ++ " " ++ w.twelveHour hour min pm) := by
  have hlen := twelveHour_length hplain pm h1 h12 hm0 hm
  have h0 : ∀ name, getFunctionOverride '2' false = some name → w.findUserFunc name ≠ some 3 := by
    rintro name ⟨⟩
    exact hplain.two
  have hx : ∀ name, getFunctionOverride '2' true = some name → w.findUserFunc name ≠ some 3 := by
    rintro name ⟨⟩
    exact hplain.twoX
  subst hhh hmin
  constructor
  · refine produces_of_text h0 hx rfl rfl ?_ (by omega)
    rw [SubstEnv.twelveHour, ← hpm]
    rfl
  · refine produces_of_text h0 hx rfl rfl ?_ ?_
    · rw [SubstEnv.twelveHour, ← hpm]
      rfl
    · simp only [String.toList_append, List.length_append]
      have hblank : (" " : String).toList.length = 1 := rfl
      omega

/-- `%@` -/
theorem produces_now (hplain : w.PlainClock) {hour min : ℤ} {pm : Bool} (h1 : 1 ≤ hour)
    (h12 : hour ≤ 12) (hm0 : 0 ≤ min) (hm : min ≤ 59) (hhh : v.chh = hour) (hmin : v.cmin = min)
    (hpm : v.cpm = w.half pm) (altmode : Bool) :
    Produces w a v altmode '@' (w.twelveHour hour min pm) := by
  have hlen := twelveHour_length hplain pm h1 h12 hm0 hm
  subst hhh hmin
  refine produces_of_text ?_ ?_ rfl rfl ?_ (by omega)
  · rintro name ⟨⟩
    exact hplain.now
  · rintro name ⟨⟩
    exact hplain.nowX
  · rw [SubstEnv.twelveHour, ← hpm]
    rfl

/-- `%#` -/
theorem produces_hash (hplain : w.PlainClock) {hour min : ℤ} (h0 : 0 ≤ hour) (h23 : hour ≤ 23)
    (hm0 : 0 ≤ min) (hm : min ≤ 59) (hch : v.ch = hour) (hmin : v.cmin = min) (altmode : Bool) :
    Produces w a v altmode '#' (padInt 2 hour ++ w.text.timeSep.toString ++ padInt 2 min) := by
  subst hch hmin
  refine produces_of_text ?_ ?_ rfl rfl rfl ?_
  · rintro name ⟨⟩
    exact hplain.hash
  · rintro name ⟨⟩
    exact hplain.hashX
  · have hhour := padInt_length h0 (by omega)
    have hmin := padInt_length hm0 hm
    simp only [String.toList_append, List.length_append, Char.toString, String.toList_singleton,
      List.length_singleton]
    omega

/-- **Twelve-hour clocks.**  With no user function in their place `%2` always says the time of the
reminder; `%@` says the current time, which is what `%#` says, if and only if the two times are in
one half of the day. -/
theorem clockTexts_iff (hplain : w.PlainClock)
    (hnow : 0 ≤ w.minutesPastMidnight ∧ w.minutesPastMidnight < 1440)
    (htime : 0 ≤ trigMinutes w a ∧ trigMinutes w a < 1440) (hv : substVars w a s = .ok v s') :
    ClockTexts w a v ↔ (trigMinutes w a < 720 ↔ w.minutesPastMidnight < 720) := by
  obtain ⟨hn0, hn⟩ := hnow
  obtain ⟨ht0, ht⟩ := htime
  obtain ⟨hh, hmin, hhh, hpm, hch, hcmin, hchh, hcpm⟩ := substVars_plain hplain ht0 hv
  have htmin : 0 ≤ (trigMinutes w a).tmod 60 ∧ (trigMinutes w a).tmod 60 ≤ 59 := by
    rw [Int.tmod_eq_emod_of_nonneg ht0]
    omega
  have hnmin : 0 ≤ w.minutesPastMidnight.tmod 60 ∧ w.minutesPastMidnight.tmod 60 ≤ 59 := by
    rw [Int.tmod_eq_emod_of_nonneg hn0]
    omega
  have hnhour : 0 ≤ w.minutesPastMidnight.tdiv 60 ∧ w.minutesPastMidnight.tdiv 60 ≤ 23 := by
    rw [Int.tdiv_eq_ediv_of_nonneg hn0]
    omega
  obtain ⟨hh1, hh12, hhmod⟩ := twelveHour_spec ht0 ht
  obtain ⟨hc1, hc12, hcmod⟩ := twelveHour_spec hn0 hn
  rw [hh] at hhh
  rw [hch] at hchh
  simp only [or_comm (a := w.minutesPastMidnight.tdiv 60 = 0)] at hchh
  have hnowText := fun altmode =>
    produces_now (a := a) hplain hc1 hc12 hnmin.1 hnmin.2 hchh hcmin hcpm altmode
  have hsaysNow := saysTwelveHour_iff hplain (decide (720 ≤ trigMinutes w a)) hc1 hc12
    hnmin.1 hnmin.2 ⟨hcmod, rfl⟩ hn0 hn
  rw [decide_eq_true_eq] at hsaysNow
  constructor
  · intro h
    obtain ⟨text, hsays, hprod⟩ := h.now true
    rw [produces_unique s hprod (hnowText true), hsaysNow] at hsays
    omega
  · intro hiff
    refine ⟨⟨_, ?_, produces_two hplain hh1 hh12 htmin.1 htmin.2 hhh hmin hpm⟩,
      fun altmode => ⟨_, hsaysNow.2 (by omega), hnowText altmode⟩,
      fun altmode => ⟨_, ?_, produces_hash hplain hnhour.1 hnhour.2 hnmin.1 hnmin.2 hch hcmin
        altmode⟩⟩
    · rw [saysTwelveHour_iff hplain _ hh1 hh12 htmin.1 htmin.2 ⟨hhmod, rfl⟩ ht0 ht,
        decide_eq_true_eq]
    · refine ⟨_, _, hnhour.1, hnhour.2, hnmin.1, hnmin.2, rfl, ?_⟩
      rw [Int.tdiv_eq_ediv_of_nonneg hn0, Int.tmod_eq_emod_of_nonneg hn0]
      omega

end Texts

/-! ### One o'clock in the afternoon -/

/-- No user functions, no translations; the current time is `now`. -/
def plainSubst (now : ℤ) : SubstEnv Unit where
  evalExpr s world := ((.error .parseErr, s), world)
  text := {}
  evalRunDisabled _ world := (.error .parseErr, world)
  findUserFunc _ := none
  tr s := s
  translated _ := none
  dayName _ := "Monday"
  monthName _ := "January"
  dseToday := 0
  realToday := 0
  minutesPastMidnight := now
  dynamicMplu := "s"
  dynamicHplu := "s"
  addBlankLines := false
  dontSuppressQuoteMarkers := false
  msgCommand := false
  calendarLines := false
  stack := ""

/-- A reminder of the first day at `time`. -/
def remAt (time : ℤ) : SubstArgs where
  trig := {}
  tt := some { ttime := some time }
  dse := 0
  mode := .normal

theorem plainSubst_plainClock (now : ℤ) : (plainSubst now).PlainClock where
  ampm := nofun
  two := nofun
  twoX := nofun
  now := nofun
  nowX := nofun
  hash := nofun
  hashX := nofun
  fits := by
    change ∀ pm : Bool, "at".toList.length + (if pm then "pm" else "am").toList.length + 6 ≤ 255
    decide
  apart := by
    change ∀ pm pm' : Bool,
      (if pm then "pm" else "am").toList <:+ (if pm' then "pm" else "am").toList → pm = pm'
    decide

/-- The law at two o'clock, when both times are in the afternoon. -/
theorem clockTexts_iff_afternoon :
    ∃ v s', substVars (plainSubst 840) (remAt 780) ⟨createParser [], ()⟩ = .ok v s' ∧
      ClockTexts (plainSubst 840) (remAt 780) v := by
  refine ⟨_, _, rfl, (clockTexts_iff (s := ⟨createParser [], ()⟩) (plainSubst_plainClock 840) ?_ ?_
    rfl).2 ?_⟩ <;> decide

/-- At nine in the morning `%@` says nine in the evening. -/
theorem doSubst_now_morning :
    (∃ s', doSubst (plainSubst 540) 3 (remAt 780) [] ⟨createParser "%@".toList, ()⟩ =
      .ok "9:00pm".toList s') ∧ ¬ SaysTwelveHour (plainSubst 540) "9:00pm" 540 := by
  constructor
  · refine ⟨⟨{ createParser "%@".toList with pos := [] }, ()⟩, ?_⟩
    rfl
  · rw [show "9:00pm" = (plainSubst 540).twelveHour 9 0 true by decide,
      saysTwelveHour_iff (plainSubst_plainClock 540) true (by decide) (by decide) (by decide)
        (by decide) (by decide) (by decide) (by decide)]
    decide

end Remind
