import Remind.ComputeTrigger

/-!
# Duration — events of several days (dorem.c: `ComputeTrigDuration`; trigger.c:
# `AdjustTriggerForDuration`)

The number of days that an event reaches into is rounded down from its minutes, and it is what
decides whether an event that began before today is still on.
-/

namespace Remind

/-- `ComputeTrigDuration` -/
def computeTrigDuration (tim : TimeTrig) : ℤ :=
  match tim.ttime, tim.duration with
  | some ttime, some duration => (ttime + duration - 1).tdiv minutesPerDay
  | _, _ => 0

section Adjust

variable {today r ttime duration : ℤ} {t : Trigger} {tim : TimeTrig}

/-- The minutes of an event that began on `r` reach into `today`. -/
def ReachesInto (today r ttime duration : ℤ) : Prop :=
  r * minutesPerDay + ttime + duration > today * minutesPerDay

/-- The days of the event are as many as its minutes need. -/
theorem computeTrigDuration_reaches (htime : tim.ttime = some ttime)
    (hdur : tim.duration = some duration) (h0 : 0 ≤ ttime) (h1 : 1 ≤ duration) :
    r + computeTrigDuration tim ≥ today ↔ ReachesInto today r ttime duration := by
  unfold computeTrigDuration ReachesInto minutesPerDay
  rw [htime, hdur]
  dsimp only
  rw [Int.tdiv_eq_ediv_of_nonneg (by omega)]
  omega

/-- What `AdjustTriggerForDuration` makes of an event that begins on `r`. -/
structure Adjusted (today r ttime duration : ℤ) (adj : Trigger × TimeTrig × ℤ) : Prop where
  times : ∃ ttime' duration', adj.2.1.ttime = some ttime' ∧ adj.2.1.duration = some duration' ∧
    adj.2.2 * minutesPerDay + ttime' + duration' = r * minutesPerDay + ttime + duration ∧
    1 ≤ duration' ∧ 0 ≤ ttime' ∧ ttime' < minutesPerDay
  isToday : adj.2.2 = today ↔ r = today ∨ ReachesInto today r ttime duration
  eventstart : adj.1.eventstart = some (r * minutesPerDay + ttime)
  eventduration : adj.1.eventduration = some duration

end Adjust

end Remind
