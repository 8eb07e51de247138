import Remind.BoxLines
import Remind.Calendar
import Remind.SortBuf

/-!
# CalendarRows — the calendar month by month and week by week (calendar.c: `ProduceCalendar`, `DoCalendarOneWeek`, `DoCalendarOneMonth`, `WriteCalendarRow`)

What the calendar does is a list of events: a run of `GenerateCalEntries` with the entries that it
put into a column, an item printed, a line of `WriteSimpleEntries`.  The files and all that a run
over them reads and writes are a parameter, `CalWorld`; a run keeps the days and the columns that it
was not asked for.  The settings do not change.
-/

namespace Remind

open Lib

/-- What `GenerateCalEntries` runs over: `generate` is a run for a day and a column, `clear` is
`InitMoonsAndShades`; `moons`, `weeks` and `bgcolor` are what the runs have left in the arrays. -/
structure CalWorld (σ : Type) where
  generate : σ → ℤ → ℤ → Option (Fin 7) → σ × List CalEntry
  clear : σ → σ
  moons : σ → ℤ → List Char
  weeks : σ → ℤ → List Char
  bgcolor : σ → BgColors

/-- The settings of the calendar, its names, and its world. -/
structure CalSetup (σ : Type) extends CalConfig, CalWorld σ where
  calWidth : ℤ
  calLines : ℤ
  calPad : ℤ
  mondayFirst : Bool
  doSimpleCalendar : Bool
  realToday : ℤ
  dayName : ℤ → List Char
  monthName : ℤ → List Char
  monthAbbrev : ℤ → List Char
  sort : SortFlags

/-- What the calendar does. -/
inductive CalEvent where
  | generate (dseToday localDseToday : ℤ) (col : Option (Fin 7)) (entries : List CalEntry)
  | print (i : CalItem)
  | entry (date : Ymd) (e : CalEntry)

/-- `DSEToday`, `LocalDSEToday`, `ColToDay[]`, `CalColumn[]`, and the state of the world. -/
structure CalState (σ : Type) where
  dseToday : ℤ
  localDseToday : ℤ
  colToDay : Fin 7 → ℤ
  columns : Columns
  world : σ

/-- `CompareRems` as `SortCol` calls it. -/
def CalEntry.before (f : SortFlags) (a b : CalEntry) : Prop :=
  0 < compareRems 0 a.time a.priority 0 b.time b.priority
    f.sortByDate f.sortByTime f.sortByPrio f.untimedBeforeTimed

instance (f : SortFlags) : DecidableRel (CalEntry.before f) := fun _ _ =>
  inferInstanceAs (Decidable (_ < _))

variable {σ : Type} (k : CalSetup σ)

/-! ### The days -/

/-- `DayOf` -/
def dayOf (dse : ℤ) : ℤ := (fromDSE dse).d

/-- The entries of a run in their column; `SortCol` puts each where `List.orderedInsert` does
(`addToColumn_spec`). -/
def CalSetup.collect (column entries : List CalEntry) : List CalEntry :=
  entries.foldl (fun column e => column.orderedInsert (CalEntry.before k.sort) e) column

/-- `GenerateCalEntries` -/
def CalSetup.generateCalEntries (col : Option (Fin 7)) (s : CalState σ) :
    CalEvent × CalState σ :=
  let (world, entries) := k.generate s.world s.dseToday s.localDseToday col
  (.generate s.dseToday s.localDseToday col entries,
    match col with
    | none => { s with world := world }
    | some i =>
      { s with world := world
               columns := Function.update s.columns i (k.collect (s.columns i) entries) })

/-- "Fill in the column entries": the columns `is`, as long as `shown`. -/
def CalSetup.fillColumns (shown : Fin 7 → Bool) :
    List (Fin 7) → CalState σ → List CalEvent × CalState σ
  | [], s => ([], s)
  | i :: is, s =>
    if !shown i then ([], s)
    else
      let (call, t) := k.generateCalEntries (some i) s
      let (calls, t) := fillColumns shown is
        { t with colToDay := Function.update t.colToDay i (dayOf s.dseToday)
                 dseToday := t.dseToday + 1
                 localDseToday := t.localDseToday + 1 }
      (call :: calls, t)

/-! ### Lines -/

local instance borderLineDays : NeZero 7 := ⟨by decide⟩

/-- A line of line drawing: `WriteBottomCalLine`, `WritePostHeaderLine`, `WriteWeekHeaderLine`,
`WriteIntermediateCalLine`. -/
def CalConfig.borderLine (k : CalConfig) (first between last : LinePart) : List CalItem :=
  [CalItem.control .graphicsOn, .draw first] ++ (List.finRange 7).flatMap (fun i =>
    k.printCentered [] k.colSpaces (.draw .lr) ++ [CalItem.draw (if i ≠ 6 then between else last)]) ++
    [CalItem.control .graphicsOff, .newline]

/-- `WriteBottomCalLine` -/
def CalConfig.writeBottomCalLine (k : CalConfig) : List CalItem := k.borderLine .tr .tlr .tl

/-- `WritePostHeaderLine` -/
def CalConfig.writePostHeaderLine (k : CalConfig) : List CalItem := k.borderLine .tbr .blr .tbl

/-- `WriteWeekHeaderLine` -/
def CalConfig.writeWeekHeaderLine (k : CalConfig) : List CalItem := k.borderLine .br .blr .bl

/-- `WriteIntermediateCalLine` -/
def CalConfig.writeIntermediateCalLine (k : CalConfig) : List CalItem :=
  k.borderLine .tbr .tblr .tbl

/-- `WriteTopCalLine` -/
def CalSetup.writeTopCalLine : List CalItem :=
  [CalItem.control .graphicsOn, .draw .br] ++ k.printCentered [] (k.calWidth - 2) (.draw .lr) ++
    [CalItem.draw .bl, .control .graphicsOff, .newline]

/-- `WriteCalDays` -/
def CalSetup.writeCalDays : List CalItem :=
  drawBar ++ (List.finRange 7).flatMap (fun i : Fin 7 =>
    k.printCentered (k.dayName (if !k.mondayFirst then ((i : ℤ) + 6) % 7 else (i : ℤ) % 7))
      k.colSpaces (.byte ' ') ++ drawBar) ++ [CalItem.newline]

/-- `%d` -/
def decimal (n : ℤ) : List Char := (toString n).toList

/-- `WriteCalHeader` -/
def CalSetup.writeCalHeader (dseToday : ℤ) : List CalItem :=
  let ⟨y, m, _⟩ := fromDSE dseToday
  k.writeTopCalLine ++
    (drawBar ++ k.printCentered (k.monthName m ++ ' ' :: decimal y) (k.calWidth - 2) (.byte ' ') ++
      drawBar ++ [CalItem.newline]) ++
    k.writePostHeaderLine ++ k.writeCalDays ++ k.writeIntermediateCalLine

/-- The blank line of `CalPad` and `CalLines`. -/
def CalSetup.blankLine (s : CalState σ) : List CalItem :=
  drawBar ++ (List.finRange 7).flatMap (fun i =>
    k.backgroundize (k.bgcolor s.world) (s.colToDay i) ++ k.printLeft [] k.colSpaces ' ' ++
      k.unBackgroundize (k.bgcolor s.world) (s.colToDay i) ++ drawBar) ++ [CalItem.newline]

/-- The text behind a day number: the week and the moon of the day, as far as there are such. -/
def CalSetup.dayMarks (world : σ) (d : ℤ) : List Char :=
  if k.moons world d ≠ [] then
    if k.weeks world d ≠ [] then k.weeks world d ++ ' ' :: (k.moons world d ++ [' '])
    else k.moons world d ++ [' ']
  else if k.weeks world d ≠ [] then k.weeks world d ++ [' ']
  else []

/-- The label of a day in the calendar of a month. -/
def CalSetup.monthLabel (world : σ) (y m d : ℤ) : List CalItem :=
  let bg := k.bgcolor world
  let buf := decimal d ++ ' ' :: k.dayMarks world d
  if dse y m d = k.realToday then
    (if k.useVTColors then [.control .bold] else []) ++ k.backgroundize bg d ++
      k.printLeft buf (k.colSpaces - 1) '*' ++ [CalItem.byte ' '] ++
      (if k.useVTColors then [.control .normal] else []) ++ k.unBackgroundize bg d
  else k.backgroundize bg d ++ k.printLeft buf k.colSpaces ' ' ++ k.unBackgroundize bg d

/-- The label of a day in the calendar of a week. -/
def CalSetup.weekLabel (world : σ) (n : ℤ) : List CalItem :=
  let bg := k.bgcolor world
  let ⟨_, m, d⟩ := fromDSE n
  let buf := decimal d ++ ' ' :: (k.monthAbbrev m ++ ' ' :: k.dayMarks world d)
  if n = k.realToday then
    (if k.useVTColors then [.control .bold] else []) ++ k.backgroundize bg d ++
      k.printLeft buf (k.colSpaces - 1) '*' ++ [CalItem.byte ' '] ++ k.unBackgroundize bg d ++
      (if k.useVTColors then [.control .normal] else [])
  else k.backgroundize bg d ++ k.printLeft buf k.colSpaces ' ' ++ k.unBackgroundize bg d

/-- The first line of a row, with the seven labels. -/
def labelLine (labels : Fin 7 → List CalItem) : List CalItem :=
  drawBar ++ (List.finRange 7).flatMap (fun i => labels i ++ drawBar) ++ [CalItem.newline]

/-- The lines of a row behind its labels: the padding, the entries, the blank lines required, and
the line below. -/
def CalSetup.rowBody (more : Bool) (s : CalState σ) : Option (List CalItem × CalState σ) :=
  (k.writeCalLines (k.bgcolor s.world) s.colToDay
    ((List.finRange 7).map fun i => columnLeft (s.columns i) + 1).sum s.columns).map
    fun (lines, columns) =>
      ((List.replicate k.calPad.toNat (k.blankLine s)).flatten ++ lines.flatten ++
        (List.replicate (k.calLines - lines.length).toNat (k.blankLine s)).flatten ++
        (if more then k.writeIntermediateCalLine else k.writeBottomCalLine),
        { s with columns := columns })

/-! ### Rows, months, weeks -/

/-- `WriteSimpleEntries`: the lines under the date of `dse`. -/
def writeSimpleEntries (i : Fin 7) (dse : ℤ) (s : CalState σ) :
    List CalEvent × CalState σ :=
  ((s.columns i).map (.entry (fromDSE dse)), { s with columns := Function.update s.columns i [] })

/-- The loop over `WriteSimpleEntries`: the columns `is` as long as `shown`, column `i` under the
date of `day i`. -/
def writeSimpleRow (shown : Fin 7 → Bool) (day : Fin 7 → ℤ) :
    List (Fin 7) → CalState σ → List CalEvent × CalState σ
  | [], s => ([], s)
  | i :: is, s =>
    if !shown i then ([], s)
    else
      let (lines, s) := writeSimpleEntries i (day i) s
      let (more, s) := writeSimpleRow shown day is s
      (lines ++ more, s)

/-- The number of the column that `dse` is in. -/
def CalSetup.weekday (dse : ℤ) : ℤ := if !k.mondayFirst then (dse + 1).tmod 7 else dse.tmod 7

/-- `WriteCalendarRow`; the number is 0 when the month is finished. -/
def CalSetup.writeCalendarRow (s : CalState σ) : Option (List CalEvent × Bool × CalState σ) :=
  let origDse := s.dseToday
  let ⟨y, m, d⟩ := fromDSE s.dseToday
  let wd := k.weekday s.dseToday
  let shown (i : Fin 7) : Bool := d + i - wd ≤ daysInMonth m y
  let columns := (List.finRange 7).drop wd.toNat
  let (calls, s) := k.fillColumns shown columns { s with colToDay := fun _ => 0 }
  let more : Bool := d + 7 - wd ≤ daysInMonth m y
  if k.doSimpleCalendar then
    let (lines, s) := writeSimpleRow shown (fun i => origDse + i - wd) columns s
    some (calls ++ lines, more, s)
  else
    let labels := labelLine fun i =>
      if (i : ℤ) < wd || !shown i then k.printLeft [] k.colSpaces ' '
      else k.monthLabel s.world y m (d + i - wd)
    (k.rowBody more s).map fun (body, s) => (calls ++ (labels ++ body).map .print, more, s)

/-- `while (WriteCalendarRow())`, which has at most six rounds. -/
def CalSetup.writeRows : ℕ → CalState σ → Option (List CalEvent × CalState σ)
  | 0, _ => none
  | fuel + 1, s =>
    (k.writeCalendarRow s).bind fun (row, more, s) =>
      if more then (writeRows fuel s).map fun (rows, s) => (row ++ rows, s)
      else some (row, s)

/-- `DoCalendarOneMonth`, `DoSimpleCalendarOneMonth` -/
def CalSetup.doCalendarOneMonth (s : CalState σ) : Option (List CalEvent × CalState σ) :=
  let s := { s with world := k.clear s.world }
  if k.doSimpleCalendar then k.writeRows 7 s
  else
    (k.writeRows 7 s).map fun (rows, t) =>
      ((k.writeCalHeader s.dseToday).map .print ++ rows ++ [CalEvent.print .formFeed], t)

/-- `DoCalendarOneWeek`, with `nleft` weeks to come. -/
def CalSetup.doCalendarOneWeek (nleft : ℕ) (s : CalState σ) :
    Option (List CalEvent × CalState σ) :=
  let origDse := s.localDseToday
  let (calls, s) := k.fillColumns (fun _ => true) (List.finRange 7)
    { s with world := k.clear s.world }
  let wd := k.weekday s.dseToday
  if k.doSimpleCalendar then
    let (lines, s) := writeSimpleRow (fun _ => true) (fun i => origDse + i - wd)
      (List.finRange 7) s
    some (calls ++ lines, s)
  else
    let labels := labelLine fun i => k.weekLabel s.world (origDse + i)
    (k.rowBody (nleft ≠ 0) s).map fun (body, s) => (calls ++ (labels ++ body).map .print, s)

/-- `while (CalMonths--)` -/
def CalSetup.doMonths : ℕ → CalState σ → Option (List CalEvent × CalState σ)
  | 0, s => some ([], s)
  | n + 1, s =>
    (k.doCalendarOneMonth s).bind fun (month, s) =>
      (doMonths n s).map fun (months, s) => (month ++ months, s)

/-- `while (CalWeeks--)` -/
def CalSetup.doWeeks : ℕ → CalState σ → Option (List CalEvent × CalState σ)
  | 0, s => some ([], s)
  | n + 1, s =>
    (k.doCalendarOneWeek n s).bind fun (week, s) =>
      (doWeeks n s).map fun (weeks, s) => (week ++ weeks, s)

/-- The boxes of `ProduceCalendar`, from the width of the calendar. -/
def CalSetup.measure : CalSetup σ :=
  let colSpaces := (k.calWidth - 9).tdiv 7
  { k with colSpaces := colSpaces, calWidth := 7 * colSpaces + 8 }

/-- `ProduceCalendar`, with `CalMonths` and `CalWeeks`. -/
def CalSetup.produceCalendar (calMonths calWeeks : ℕ) (s : CalState σ) :
    Option (List CalEvent × CalState σ) :=
  let k := k.measure
  if calMonths ≠ 0 then
    let ⟨y, m, _⟩ := fromDSE s.dseToday
    let (first, s) := k.generateCalEntries none
      { s with dseToday := dse y m 1, localDseToday := dse y m 1 }
    (k.doMonths calMonths s).map fun (months, s) => (first :: months, s)
  else
    let (first, s) := k.generateCalEntries none
      { s with dseToday := s.dseToday - k.weekday s.dseToday
               localDseToday := s.localDseToday - k.weekday s.localDseToday }
    let head := if k.doSimpleCalendar then []
      else k.writeWeekHeaderLine ++ k.writeCalDays ++ k.writeIntermediateCalLine
    (k.doWeeks calWeeks s).map fun (weeks, s) => (first :: (head.map .print ++ weeks), s)

end Remind
