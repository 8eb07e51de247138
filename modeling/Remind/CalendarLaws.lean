import Remind.CalendarRun

/-!
# CalendarLaws — what holds of every calendar

Over all months, weeks and settings: each day is generated once and in order; simple entries stand
under their own dates; every line of a calendar of boxes has one width.
-/

namespace Remind

open Lib

variable {σ : Type} {k : CalSetup σ}

/-! ### The days that are generated -/

section Days

/-- A run of `GenerateCalEntries`: the day, the local day, and the column. -/
def CalEvent.call? : CalEvent → Option (ℤ × ℤ × Option (Fin 7))
  | .generate dseToday localDseToday col _ => some (dseToday, localDseToday, col)
  | _ => none

/-- The runs of `GenerateCalEntries`. -/
def generateCalls (events : List CalEvent) : List (ℤ × ℤ × Option (Fin 7)) :=
  events.filterMap CalEvent.call?

variable (k) in
/-- The runs for the days of a list, each in the column of its weekday. -/
def CalSetup.runs (days : List ℤ) : List (ℤ × ℤ × Option (Fin 7)) :=
  days.map fun n => (n, n, some (k.colOf n))

@[simp] theorem generateCalls_append (a b : List CalEvent) :
    generateCalls (a ++ b) = generateCalls a ++ generateCalls b :=
  List.filterMap_append

@[simp] theorem generateCalls_print (items : List CalItem) :
    generateCalls (items.map .print) = [] := by
  refine List.filterMap_eq_nil_iff.2 fun e he => ?_
  obtain ⟨i, -, rfl⟩ := List.mem_map.1 he
  rfl

theorem generateCalls_entries (n : ℤ) (entries : List CalEntry) :
    generateCalls (entries.map (.entry (fromDSE n))) = [] := by
  refine List.filterMap_eq_nil_iff.2 fun e he => ?_
  obtain ⟨i, -, rfl⟩ := List.mem_map.1 he
  rfl

theorem generateCalls_generate {o : ℤ} (is : List (Fin 7)) (entries : Fin 7 → List CalEntry) :
    generateCalls (is.map fun i : Fin 7 =>
      .generate (o + (i : ℕ)) (o + (i : ℕ)) (some i) (entries i)) =
      is.map fun i : Fin 7 => (o + (i : ℕ), o + (i : ℕ), some i) := by
  unfold generateCalls
  rw [List.filterMap_map]
  exact congrFun (List.filterMap_eq_map' (f := fun i : Fin 7 =>
    (o + ((i : ℕ) : ℤ), o + ((i : ℕ) : ℤ), some i))) is

/-- A row runs over its days. -/
theorem RowOf_calls {label : σ → ℤ → List CalItem} {a b o : ℤ} {more : Bool}
    {row : List CalEvent} (ho : k.weekStart o = o) (ha : a ≤ o + 7)
    (h : k.RowOf label a b o more row) :
    generateCalls row = k.runs (dayList (max a o) (min b (o + 7))) := by
  obtain ⟨entries, shown, -, -, rfl, hshown⟩ := h
  have hnone : generateCalls shown = [] := by
    split_ifs at hshown
    · rw [hshown, generateCalls, List.filterMap_flatMap]
      exact List.flatMap_eq_nil_iff.2 fun i _ => generateCalls_entries _ _
    · obtain ⟨world, body, rfl, -⟩ := hshown
      exact generateCalls_print _
  have hrow : rowDays a b o = rowDays (o + ((max a o - o).toNat : ℕ)) b o := by
    refine List.filter_congr fun i _ => ?_
    rw [decide_eq_decide]
    omega
  have hmax : o + (((max a o - o).toNat : ℕ) : ℤ) = max a o := by omega
  rw [generateCalls_append, hnone, List.append_nil, generateCalls_generate, CalSetup.runs, ← hmax,
    ← rowDays_map (by omega), ← hrow, List.map_map]
  refine List.map_congr_left fun i _ => ?_
  simp only [Function.comp_apply]
  conv_rhs => rw [← ho, colOf_row]
  rw [ho]

theorem runs_append {a x b : ℤ} (hax : a ≤ x) (hxb : x ≤ b) :
    k.runs (dayList a x) ++ k.runs (dayList x b) = k.runs (dayList a b) := by
  rw [dayList_append hax hxb, CalSetup.runs, CalSetup.runs, CalSetup.runs, List.map_append]

theorem RowsOf_calls {label : σ → ℤ → List CalItem} {a b o : ℤ} {rows : List CalEvent}
    (ho : k.weekStart o = o) (ha : a < o + 7) (hb : max a o < b) (h : k.RowsOf label a b o rows) :
    generateCalls rows = k.runs (dayList (max a o) b) := by
  induction h with
  | last hlast hrow => rw [RowOf_calls ho ha.le hrow, min_eq_left hlast]
  | @more o row rows hmore hrow _ ih =>
    have hnext := weekStart_next (k := k) o
    rw [ho] at hnext
    rw [generateCalls_append, RowOf_calls ho ha.le hrow, ih hnext (by omega) (by omega),
      min_eq_right hmore.le, max_eq_right (by omega : a ≤ o + 7)]
    exact runs_append (by omega) hmore.le

theorem MonthOf_calls {M : ℤ} (hM : baseMonth ≤ M) {month : List CalEvent}
    (h : k.MonthOf M month) :
    generateCalls month = k.runs (dayList (monthStart M) (monthStart (M + 1))) := by
  have hsucc := monthStart_succ (le_trans baseMonth_ge hM)
  have hlen := monthLen_bounds M
  have hweek := weekStart_le (k := k) (monthStart M)
  obtain ⟨rows, hrows, rfl⟩ := h
  have hmax : max (monthStart M) (k.weekStart (monthStart M)) = monthStart M := max_eq_left hweek.1
  have hcalls := RowsOf_calls (weekStart_self _) hweek.2 (by omega) hrows
  rw [hmax] at hcalls
  split_ifs
  · exact hcalls
  · rw [generateCalls_append, generateCalls_append, generateCalls_print, hcalls]
    exact List.append_nil _

theorem MonthsOf_calls {M : ℤ} {n : ℕ} (hM : baseMonth ≤ M) {months : List CalEvent}
    (h : k.MonthsOf M n months) :
    generateCalls months = k.runs (dayList (monthStart M) (monthStart (M + n))) := by
  induction h with
  | nil => simp [generateCalls, CalSetup.runs, dayList]
  | @cons M n month months hmonth _ ih =>
    have h1 := monthStart_mono (le_trans baseMonth_ge hM) (show M ≤ M + 1 by omega)
    have h2 := monthStart_mono (M := M + 1) (by have := baseMonth_ge; omega)
      (show M + 1 ≤ M + 1 + n by omega)
    rw [generateCalls_append, MonthOf_calls hM hmonth, ih (by omega), runs_append h1 h2,
      Nat.cast_succ, show M + ((n : ℤ) + 1) = M + 1 + n by omega]

theorem WeeksOf_calls {o : ℤ} {n : ℕ} (ho : k.weekStart o = o) {weeks : List CalEvent}
    (h : k.WeeksOf o n weeks) : generateCalls weeks = k.runs (dayList o (o + 7 * n)) := by
  induction h with
  | nil => simp [generateCalls, CalSetup.runs, dayList]
  | @cons o n week weeks hweek _ ih =>
    have hnext := weekStart_next (k := k) o
    rw [ho] at hnext
    rw [generateCalls_append, RowOf_calls ho (by omega) hweek, ih hnext, max_self, min_self,
      runs_append (by omega) (by omega), Nat.cast_succ,
      show o + 7 * ((n : ℤ) + 1) = o + 7 + 7 * n by omega]

end Days

/-! ### The entries under their dates -/

section Simple

/-- A line of `WriteSimpleEntries`. -/
def CalEvent.line? : CalEvent → Option (Ymd × CalEntry)
  | .entry date e => some (date, e)
  | _ => none

/-- The lines of `WriteSimpleEntries`. -/
def written (events : List CalEvent) : List (Ymd × CalEntry) := events.filterMap CalEvent.line?

variable (k) in
/-- The entries that a run has put into a column, in the order of the column, with their day. -/
def CalSetup.collected : CalEvent → List (Ymd × CalEntry)
  | .generate dseToday _ (some _) entries =>
    (k.collect [] entries).map fun e => (fromDSE dseToday, e)
  | _ => []

@[simp] theorem written_append (a b : List CalEvent) : written (a ++ b) = written a ++ written b :=
  List.filterMap_append

theorem written_entries (date : Ymd) (entries : List CalEntry) :
    written (entries.map (.entry date)) = entries.map fun e => (date, e) := by
  unfold written
  rw [List.filterMap_map]
  exact congrFun (List.filterMap_eq_map' (f := fun e : CalEntry => (date, e))) entries

theorem RowOf_written {label : σ → ℤ → List CalItem} {a b o : ℤ} {more : Bool}
    {row : List CalEvent} (hsimple : k.doSimpleCalendar = true)
    (h : k.RowOf label a b o more row) : written row = row.flatMap k.collected := by
  obtain ⟨entries, shown, -, -, rfl, hshown⟩ := h
  rw [if_pos hsimple] at hshown
  have hcalls : written ((rowDays a b o).map fun i : Fin 7 =>
      .generate (o + (i : ℕ)) (o + (i : ℕ)) (some i) (entries i)) = [] := by
    refine List.filterMap_eq_nil_iff.2 fun e he => ?_
    obtain ⟨i, -, rfl⟩ := List.mem_map.1 he
    rfl
  have hlines : shown.flatMap k.collected = [] := by
    refine List.flatMap_eq_nil_iff.2 fun e he => ?_
    rw [hshown] at he
    obtain ⟨i, -, hi⟩ := List.mem_flatMap.1 he
    obtain ⟨x, -, rfl⟩ := List.mem_map.1 hi
    rfl
  rw [written_append, hcalls, List.nil_append, List.flatMap_append, hlines, List.append_nil, hshown,
    List.flatMap_map, written, List.filterMap_flatMap]
  exact List.flatMap_congr fun i _ => written_entries _ _

theorem RowsOf_written {label : σ → ℤ → List CalItem} {a b o : ℤ} {rows : List CalEvent}
    (hsimple : k.doSimpleCalendar = true) (h : k.RowsOf label a b o rows) :
    written rows = rows.flatMap k.collected := by
  induction h with
  | last _ hrow => exact RowOf_written hsimple hrow
  | more _ hrow _ ih => rw [written_append, List.flatMap_append, RowOf_written hsimple hrow, ih]

theorem MonthsOf_written {M : ℤ} {n : ℕ} {months : List CalEvent}
    (hsimple : k.doSimpleCalendar = true) (h : k.MonthsOf M n months) :
    written months = months.flatMap k.collected := by
  induction h with
  | nil => rfl
  | cons hmonth _ ih =>
    obtain ⟨rows, hrows, rfl⟩ := hmonth
    rw [if_pos hsimple, written_append, List.flatMap_append, RowsOf_written hsimple hrows, ih]

theorem WeeksOf_written {o : ℤ} {n : ℕ} {weeks : List CalEvent}
    (hsimple : k.doSimpleCalendar = true) (h : k.WeeksOf o n weeks) :
    written weeks = weeks.flatMap k.collected := by
  induction h with
  | nil => rfl
  | cons hweek _ ih =>
    rw [written_append, List.flatMap_append, RowOf_written hsimple hweek, ih]

end Simple

/-! ### Lines of one width -/

section Lines

variable {k : CalConfig}

/-- Items of one line. -/
def OneLine (items : List CalItem) : Prop := ∀ i ∈ items, i ≠ .newline ∧ i ≠ .formFeed

/-- The text is lines of `w` columns each, with form feeds between them. -/
inductive CalConfig.Lined (k : CalConfig) (w : ℤ) : List CalItem → Prop
  | nil : Lined k w []
  | line {l rest : List CalItem} (h : OneLine l) (hw : k.widthOf l = w) (hrest : Lined k w rest) :
      Lined k w (l ++ .newline :: rest)
  | feed {rest : List CalItem} (hrest : Lined k w rest) : Lined k w (.formFeed :: rest)

theorem CalConfig.Lined.append {w : ℤ} {a b : List CalItem} (ha : k.Lined w a) (hb : k.Lined w b) :
    k.Lined w (a ++ b) := by
  induction ha with
  | nil => exact hb
  | line h hw _ ih => simpa using CalConfig.Lined.line h hw ih
  | feed _ ih => exact .feed ih

theorem CalConfig.Lined.flatten {w : ℤ} {ls : List (List CalItem)} (h : ∀ l ∈ ls, k.Lined w l) :
    k.Lined w ls.flatten := by
  induction ls with
  | nil => exact .nil
  | cons l ls ih =>
    rw [List.flatten_cons]
    exact (h l List.mem_cons_self).append (ih fun l hl => h l (List.mem_cons_of_mem _ hl))

theorem OneLine.append {a b : List CalItem} (ha : OneLine a) (hb : OneLine b) : OneLine (a ++ b) :=
  fun i hi => (List.mem_append.1 hi).elim (ha i) (hb i)

theorem OneLine.replicate {i : CalItem} (hi : i ≠ .newline ∧ i ≠ .formFeed) (n : ℕ) :
    OneLine (List.replicate n i) := fun j hj => by
  rw [List.eq_of_mem_replicate hj]
  exact hi

theorem OneLine.visible {items : List CalItem} (h : OneLine items) : OneLine (visible items) :=
  fun i hi => h i (List.mem_of_mem_filter hi)

theorem oneLine_byte (c : Char) : OneLine [.byte c] := by simp [OneLine]

/-- A text that is printed as one line of its own. -/
structure CalConfig.Cell (k : CalConfig) (w : ℤ) (items : List CalItem) : Prop where
  oneLine : OneLine items
  width : k.widthOf items = w

theorem CalConfig.Cell.append {w v : ℤ} {a b : List CalItem} (ha : k.Cell w a) (hb : k.Cell v b) :
    k.Cell (w + v) (a ++ b) :=
  ⟨ha.oneLine.append hb.oneLine, by rw [widthOf_append, ha.width, hb.width]⟩

theorem CalConfig.Cell.lined {w : ℤ} {l : List CalItem} (h : k.Cell w l) :
    k.Lined w (visible (l ++ [CalItem.newline])) := by
  rw [visible_append]
  exact .line h.oneLine.visible (by rw [widthOf_visible, h.width]) .nil

theorem cell_control (c : Control) : k.Cell 0 [.control c] :=
  ⟨by simp [OneLine], rfl⟩

theorem cell_draw (part : LinePart) : k.Cell 1 [.draw part] :=
  ⟨by simp [OneLine], rfl⟩

theorem cell_byte (c : Char) : k.Cell 1 [.byte c] :=
  ⟨by simp [OneLine], rfl⟩

theorem cell_nil : k.Cell 0 [] := ⟨nofun, rfl⟩

/-- A text of escape sequences only. -/
theorem cell_of_invisible {items : List CalItem} (h : visible items = []) : k.Cell 0 items := by
  refine ⟨fun i hi => ?_, by rw [← widthOf_visible, h, widthOf_nil]⟩
  have hnone := List.filter_eq_nil_iff.1 h i hi
  cases i with
  | control c => exact ⟨nofun, nofun⟩
  | _ => exact absurd rfl hnone

theorem cell_drawBar : k.Cell 1 drawBar :=
  ⟨by simp [OneLine, drawBar], rfl⟩

/-- Seven boxes side by side. -/
theorem cell_flatMap {w : ℤ} {f : Fin 7 → List CalItem} (h : ∀ i, k.Cell w (f i)) :
    k.Cell (7 * w) ((List.finRange 7).flatMap f) := by
  have hlist (l : List (Fin 7)) : k.Cell (l.length * w) (l.flatMap f) := by
    induction l with
    | nil => simpa using cell_nil
    | cons i l ih =>
      have := (h i).append ih
      rwa [List.flatMap_cons, List.length_cons, Nat.cast_succ, add_mul, one_mul, add_comm]
  simpa using hlist (List.finRange 7)

/-- The loop of `PrintLeft` and `PrintCentered`. -/
theorem printLoop_spec {width i : ℤ} (hi : i ≤ width) {s : List Char}
    (hs : ∀ c ∈ s, 0 ≤ k.wcwidth c) :
    k.Cell ((k.printLoop width i s).2.1 - i) (k.printLoop width i s).1 ∧
      i ≤ (k.printLoop width i s).2.1 ∧ (k.printLoop width i s).2.1 ≤ width := by
  induction s generalizing i with
  | nil => exact ⟨by simpa [CalConfig.printLoop] using cell_nil, le_refl i, hi⟩
  | cons c s ih =>
    have hc := hs c List.mem_cons_self
    rw [CalConfig.printLoop]
    split_ifs with hlt hover
    · exact ⟨by simpa using cell_nil, le_refl i, hi⟩
    · obtain ⟨hcell, hlo, hhi⟩ := ih (show i + k.wcwidth c ≤ width by omega)
        fun d hd => hs d (List.mem_cons_of_mem _ hd)
      dsimp only
      refine ⟨?_, (le_add_of_nonneg_right hc).trans hlo, hhi⟩
      have hchr : k.Cell (k.wcwidth c) [.chr c] := ⟨by simp [OneLine], by simp [CalConfig.itemWidth]⟩
      have := hchr.append hcell
      rwa [show k.wcwidth c + ((k.printLoop width (i + k.wcwidth c) s).2.1 - (i + k.wcwidth c)) =
        (k.printLoop width (i + k.wcwidth c) s).2.1 - i by omega] at this
    · exact ⟨by simpa using cell_nil, le_refl i, hi⟩

theorem cell_mopUp (ws : List Char) : k.Cell 0 (k.mopUp ws) := by
  have hcomb (l : List Char) (h : ∀ c ∈ l, k.wcwidth c = 0) : k.Cell 0 (l.map .chr) := by
    induction l with
    | nil => exact cell_nil
    | cons c l ih =>
      have hchr : k.Cell 0 [.chr c] := ⟨by simp [OneLine],
        by simp [CalConfig.itemWidth, h c List.mem_cons_self]⟩
      exact hchr.append (ih fun d hd => h d (List.mem_cons_of_mem _ hd))
  unfold CalConfig.mopUp
  exact (hcomb _ fun c hc => by simpa using List.mem_takeWhile_imp hc).append
    (cell_of_invisible visible_sendLrm)

theorem cell_pad {n : ℤ} (hn : 0 ≤ n) {pad : CalItem} (hone : OneLine [pad])
    (hw : k.itemWidth pad = 1) : k.Cell n (List.replicate n.toNat pad) :=
  ⟨.replicate (hone pad List.mem_cons_self) _, by
    rw [widthOf_replicate, hw, mul_one, Int.toNat_of_nonneg hn]⟩

/-- **`PrintLeft` fills its width.** -/
theorem printLeft_spec {width : ℤ} (hwidth : 0 ≤ width) {s : List Char}
    (hs : ∀ c ∈ s, 0 ≤ k.wcwidth c) (pad : Char) : k.Cell width (k.printLeft s width pad) := by
  unfold CalConfig.printLeft
  split_ifs
  · exact cell_pad hwidth (by simp [OneLine]) rfl
  · obtain ⟨hcell, hlo, hhi⟩ := printLoop_spec hwidth hs
    have := (hcell.append (cell_mopUp (k.printLoop width 0 s).2.2)).append
      (cell_pad (k := k) (n := width - (k.printLoop width 0 s).2.1) (by omega)
        (oneLine_byte pad) rfl)
    rwa [show (k.printLoop width 0 s).2.1 - 0 + 0 + (width - (k.printLoop width 0 s).2.1) = width
      by omega] at this

/-- **`PrintCentered` fills its width.** -/
theorem printCentered_spec {width : ℤ} (hwidth : 0 ≤ width) {s : List Char}
    (hs : ∀ c ∈ s, 0 ≤ k.wcwidth c) {pad : CalItem} (hone : OneLine [pad])
    (hpad : k.itemWidth pad = 1) : k.Cell width (k.printCentered s width pad) := by
  unfold CalConfig.printCentered
  split_ifs
  · exact cell_pad hwidth hone hpad
  · have hdisplay : 0 ≤ k.wcswidth s := by
      unfold CalConfig.wcswidth
      rw [if_neg (by simpa using hs)]
      exact List.sum_nonneg fun w hw => by
        obtain ⟨c, hc, rfl⟩ := List.mem_map.1 hw
        exact hs c hc
    dsimp only
    set d : ℤ := if (width - k.wcswidth s).tdiv 2 < 0 then 0 else (width - k.wcswidth s).tdiv 2
      with hd
    have hd0 : 0 ≤ d := by
      rw [hd]
      split_ifs <;> omega
    have hdw : d ≤ width := by
      rw [hd]
      split_ifs with hneg
      · exact hwidth
      · rcases lt_or_ge (width - k.wcswidth s) 0 with h | h
        · have h1 := Int.neg_tdiv (-(width - k.wcswidth s)) 2
          have h2 := Int.tdiv_nonneg (show 0 ≤ -(width - k.wcswidth s) by omega) (show (0 : ℤ) ≤ 2 by decide)
          rw [neg_neg] at h1
          omega
        · rw [Int.tdiv_eq_ediv_of_nonneg h]
          omega
    obtain ⟨hcell, hlo, hhi⟩ := printLoop_spec hdw hs
    have := (((cell_pad hd0 hone hpad).append hcell).append
      (cell_mopUp (k.printLoop width d s).2.2)).append
      (cell_pad (k := k) (n := width - (k.printLoop width d s).2.1) (by omega) hone hpad)
    rwa [show d + ((k.printLoop width d s).2.1 - d) + 0 + (width - (k.printLoop width d s).2.1) =
      width by omega] at this

end Lines

/-! ### The calendar of boxes -/

section Boxed

/-- What is printed. -/
def CalEvent.item? : CalEvent → Option CalItem
  | .print i => some i
  | _ => none

/-- What is printed, escape sequences apart. -/
def shownItems (events : List CalEvent) : List CalItem := visible (events.filterMap CalEvent.item?)

@[simp] theorem shownItems_append (a b : List CalEvent) :
    shownItems (a ++ b) = shownItems a ++ shownItems b := by
  simp [shownItems]

@[simp] theorem shownItems_print (items : List CalItem) :
    shownItems (items.map .print) = visible items := by
  unfold shownItems
  rw [List.filterMap_map]
  exact congrArg visible ((congrFun (List.filterMap_eq_map' (f := id)) items).trans (List.map_id _))

variable (k) in
/-- No label, name or number has a character that is not printable. -/
structure CalSetup.Printable : Prop where
  space : 0 ≤ k.wcwidth ' '
  digits : ∀ n, ∀ c ∈ decimal n, 0 ≤ k.wcwidth c
  day : ∀ i, ∀ c ∈ k.dayName i, 0 ≤ k.wcwidth c
  month : ∀ m, ∀ c ∈ k.monthName m, 0 ≤ k.wcwidth c
  short : ∀ m, ∀ c ∈ k.monthAbbrev m, 0 ≤ k.wcwidth c
  moon : ∀ world d, ∀ c ∈ k.moons world d, 0 ≤ k.wcwidth c
  week : ∀ world d, ∀ c ∈ k.weeks world d, 0 ≤ k.wcwidth c

theorem dayMarks_printable (hp : k.Printable) (world : σ) (d : ℤ) :
    ∀ c ∈ k.dayMarks world d, 0 ≤ k.wcwidth c := by
  intro c hc
  unfold CalSetup.dayMarks at hc
  have hm := hp.moon world d c
  have hw := hp.week world d c
  have hspace : c = ' ' → 0 ≤ k.wcwidth c := fun h => h ▸ hp.space
  split_ifs at hc <;> simp only [List.mem_append, List.mem_cons, List.not_mem_nil, or_false] at hc
  · rcases hc with hc | hc | hc | hc
    exacts [hw hc, hspace hc, hm hc, hspace hc]
  · exact hc.elim hm hspace
  · exact hc.elim hw hspace

theorem CalConfig.Cell.cast {k : CalConfig} {v w : ℤ} {l : List CalItem} (h : k.Cell v l)
    (hvw : v = w) : k.Cell w l := hvw ▸ h

theorem cell_style {k : CalConfig} (b : Bool) (c : Control) :
    k.Cell 0 (if b then [.control c] else []) :=
  cell_of_invisible (by cases b <;> rfl)

theorem cell_backgroundize {k : CalConfig} (bgcolor : BgColors) (d : ℤ) :
    k.Cell 0 (k.backgroundize bgcolor d) := cell_of_invisible visible_backgroundize

theorem cell_unBackgroundize {k : CalConfig} (bgcolor : BgColors) (d : ℤ) :
    k.Cell 0 (k.unBackgroundize bgcolor d) := cell_of_invisible visible_unBackgroundize

theorem monthLabel_cell (hp : k.Printable) (hcols : 0 < k.colSpaces) (world : σ) (y m d : ℤ) :
    k.Cell k.colSpaces (k.monthLabel world y m d) := by
  have hbuf : ∀ c ∈ decimal d ++ ' ' :: k.dayMarks world d, 0 ≤ k.wcwidth c := by
    intro c hc
    rcases List.mem_append.1 hc with hc | hc
    · exact hp.digits d c hc
    · rcases List.mem_cons.1 hc with rfl | hc
      · exact hp.space
      · exact dayMarks_printable hp world d c hc
  have hplain := printLeft_spec hcols.le hbuf ' '
  have hstars := printLeft_spec (show 0 ≤ k.colSpaces - 1 by omega) hbuf '*'
  unfold CalSetup.monthLabel
  set bg := k.bgcolor world
  dsimp only
  by_cases htoday : dse y m d = k.realToday
  · rw [if_pos htoday]
    have hline := (((((cell_style k.useVTColors .bold).append (cell_backgroundize bg d)).append
      hstars).append (cell_byte ' ')).append (cell_style k.useVTColors .normal)).append
      (cell_unBackgroundize bg d)
    exact hline.cast (by omega)
  · rw [if_neg htoday]
    have hline := ((cell_backgroundize bg d).append hplain).append (cell_unBackgroundize bg d)
    exact hline.cast (by omega)

theorem weekLabel_cell (hp : k.Printable) (hcols : 0 < k.colSpaces) (world : σ) (n : ℤ) :
    k.Cell k.colSpaces (k.weekLabel world n) := by
  unfold CalSetup.weekLabel
  obtain ⟨y, m, d⟩ := fromDSE n
  have hbuf : ∀ c ∈ decimal d ++ ' ' :: (k.monthAbbrev m ++ ' ' :: k.dayMarks world d),
      0 ≤ k.wcwidth c := by
    intro c hc
    rcases List.mem_append.1 hc with hc | hc
    · exact hp.digits d c hc
    rcases List.mem_cons.1 hc with rfl | hc
    · exact hp.space
    rcases List.mem_append.1 hc with hc | hc
    · exact hp.short m c hc
    rcases List.mem_cons.1 hc with rfl | hc
    · exact hp.space
    · exact dayMarks_printable hp world d c hc
  have hplain := printLeft_spec hcols.le hbuf ' '
  have hstars := printLeft_spec (show 0 ≤ k.colSpaces - 1 by omega) hbuf '*'
  set bg := k.bgcolor world
  dsimp only
  by_cases htoday : n = k.realToday
  · rw [if_pos htoday]
    have hline := (((((cell_style k.useVTColors .bold).append (cell_backgroundize bg d)).append
      hstars).append (cell_byte ' ')).append (cell_unBackgroundize bg d)).append
      (cell_style k.useVTColors .normal)
    exact hline.cast (by omega)
  · rw [if_neg htoday]
    have hline := ((cell_backgroundize bg d).append hplain).append (cell_unBackgroundize bg d)
    exact hline.cast (by omega)

/-- The width of a line of boxes. -/
def CalConfig.lineWidth (k : CalConfig) : ℤ := 7 * k.colSpaces + 8

theorem labelLine_lined {labels : Fin 7 → List CalItem}
    (h : ∀ i, k.Cell k.colSpaces (labels i)) :
    k.Lined k.lineWidth (visible (labelLine labels)) :=
  ((cell_drawBar.append (cell_flatMap fun i => (h i).append cell_drawBar)).cast (by
    unfold CalConfig.lineWidth
    omega)).lined

theorem boxLine_lined {k : CalConfig} (hcols : 0 ≤ k.colSpaces) {boxes : Fin 7 → BoxRow}
    (h : ∀ i, k.Fills (boxes i)) : k.Lined k.lineWidth (k.boxLine boxes) := by
  have hone (row : BoxRow) : OneLine (k.rowItems row) := by
    have hpad (n : ℕ) : OneLine (List.replicate n (.byte ' ')) := .replicate (by simp) n
    cases row with
    | wide row =>
      refine OneLine.append (fun i hi => ?_) (hpad _)
      obtain ⟨c, -, rfl⟩ := List.mem_map.1 hi
      unfold CalConfig.printed
      split_ifs <;> exact ⟨nofun, nofun⟩
    | bytes row =>
      refine OneLine.append (fun i hi => ?_) (hpad _)
      obtain ⟨c, -, rfl⟩ := List.mem_map.1 hi
      exact ⟨nofun, nofun⟩
  have hcell (i : Fin 7) : k.Cell k.colSpaces (k.rowItems (boxes i)) :=
    ⟨hone _, (h i).trans (Int.toNat_of_nonneg hcols)⟩
  have hline : k.Cell k.lineWidth (.draw .tb :: (List.finRange 7).flatMap fun i =>
      k.rowItems (boxes i) ++ [CalItem.draw .tb]) :=
    ((cell_draw _).append (cell_flatMap fun i => (hcell i).append (cell_draw _))).cast (by
      unfold CalConfig.lineWidth
      omega)
  exact .line hline.oneLine hline.width .nil

theorem borderLine_lined {k : CalConfig} (hcols : 0 ≤ k.colSpaces) (first between last : LinePart) :
    k.Lined k.lineWidth (visible (k.borderLine first between last)) := by
  have hbox : k.Cell k.colSpaces (k.printCentered [] k.colSpaces (.draw .lr)) :=
    printCentered_spec hcols (fun _ h => absurd h List.not_mem_nil) (by simp [OneLine]) rfl
  have hline := (((cell_control .graphicsOn).append (cell_draw first)).append
    (cell_flatMap fun i : Fin 7 => hbox.append
      (cell_draw (if i ≠ 6 then between else last)))).append (cell_control .graphicsOff)
  have := (hline.cast (w := k.lineWidth) (by unfold CalConfig.lineWidth; omega)).lined
  unfold CalConfig.borderLine
  simpa only [List.append_assoc, List.singleton_append] using this

/-- The days of a calendar as a line of their own. -/
theorem writeCalDays_lined (hp : k.Printable) (hcols : 0 ≤ k.colSpaces) :
    k.Lined k.lineWidth (visible k.writeCalDays) :=
  labelLine_lined fun _ => printCentered_spec hcols (hp.day _) (by simp [OneLine]) rfl

theorem writeCalHeader_lined (hp : k.Printable) (hcols : 0 ≤ k.colSpaces)
    (hwidth : k.calWidth = k.lineWidth) (n : ℤ) :
    k.Lined k.lineWidth (visible (k.writeCalHeader n)) := by
  have hw : 0 ≤ k.calWidth - 2 := by
    rw [hwidth]
    unfold CalConfig.lineWidth
    omega
  have htop : k.Lined k.lineWidth (visible k.writeTopCalLine) := by
    have hbox : k.Cell (k.calWidth - 2) (k.printCentered [] (k.calWidth - 2) (.draw .lr)) :=
      printCentered_spec hw (fun _ h => absurd h List.not_mem_nil) (by simp [OneLine]) rfl
    have hline := (((cell_control .graphicsOn).append (cell_draw .br)).append hbox).append
      ((cell_draw .bl).append (cell_control .graphicsOff))
    have := (hline.cast (w := k.lineWidth) (by omega)).lined
    unfold CalSetup.writeTopCalLine
    simpa only [List.append_assoc, List.singleton_append, List.cons_append, List.nil_append]
      using this
  have hname (m y : ℤ) : k.Lined k.lineWidth (visible (drawBar ++
      k.printCentered (k.monthName m ++ ' ' :: decimal y) (k.calWidth - 2) (.byte ' ') ++
      drawBar ++ [CalItem.newline])) := by
    refine (((cell_drawBar.append (printCentered_spec hw (fun c hc => ?_)
      (oneLine_byte ' ') rfl)).append cell_drawBar).cast (by omega)).lined
    rcases List.mem_append.1 hc with hc | hc
    · exact hp.month m c hc
    · rcases List.mem_cons.1 hc with rfl | hc
      · exact hp.space
      · exact hp.digits y c hc
  unfold CalSetup.writeCalHeader
  obtain ⟨y, m, d⟩ := fromDSE n
  dsimp only
  rw [visible_append, visible_append, visible_append, visible_append]
  exact (((htop.append (hname m y)).append (borderLine_lined hcols _ _ _)).append
    (writeCalDays_lined hp hcols)).append (borderLine_lined hcols _ _ _)

theorem visible_flatten (ls : List (List CalItem)) :
    visible ls.flatten = (ls.map visible).flatten := by
  induction ls with
  | nil => rfl
  | cons l ls ih => rw [List.flatten_cons, visible_append, ih, List.map_cons, List.flatten_cons]

/-- Each box of the rows of fitting entries is filled, also below the end of its column. -/
theorem Shows_fills {k : CalConfig} {columns : Columns} {lines : List (List CalItem)}
    {rows : Fin 7 → List BoxRow} (hfits : ∀ i, ∀ e ∈ columns i, k.Fits e)
    (h : k.Shows columns lines rows) (i : Fin 7) (j : ℕ) : k.Fills ((rows i)[j]?.getD (.wide [])) := by
  cases hj : (rows i)[j]? with
  | none => exact fills_wide (fun _ hc => absurd hc List.not_mem_nil) (Nat.zero_le _)
  | some row => exact ColumnRows_fills (hfits i) (h.column i) row (List.mem_of_getElem? hj)

theorem BodyOf_lined (hroom : 0 < k.colSpaces) {columns : Columns} {more : Bool}
    {body : List CalItem} (hfits : ∀ i, ∀ e ∈ columns i, k.Fits e)
    (h : k.BodyOf columns more body) : k.Lined k.lineWidth (visible body) := by
  obtain ⟨pad, lines, blanks, rows, rfl, hshows, -, -, hblank⟩ := h
  have hempty : k.Lined k.lineWidth (k.boxLine fun _ => .wide []) :=
    boxLine_lined hroom.le fun _ =>
      fills_wide (fun _ hc => absurd hc List.not_mem_nil) (Nat.zero_le _)
  have hblanks (ls : List (List CalItem)) (hls : ∀ l ∈ ls, l ∈ pad ++ blanks) :
      k.Lined k.lineWidth (visible ls.flatten) := by
    rw [visible_flatten]
    refine .flatten fun l hl => ?_
    obtain ⟨line, hline, rfl⟩ := List.mem_map.1 hl
    exact hblank line (hls line hline) ▸ hempty
  have hlines : k.Lined k.lineWidth (visible lines.flatten) := by
    rw [visible_flatten, hshows.line]
    refine .flatten fun l hl => ?_
    obtain ⟨j, -, rfl⟩ := List.mem_map.1 hl
    exact boxLine_lined hroom.le fun i => Shows_fills hfits hshows i j
  have hborder : k.Lined k.lineWidth
      (visible (if more then k.writeIntermediateCalLine else k.writeBottomCalLine)) := by
    split_ifs <;> exact borderLine_lined hroom.le _ _ _
  rw [visible_append, visible_append, visible_append]
  exact (((hblanks pad fun l hl => List.mem_append_left _ hl).append hlines).append
    (hblanks blanks fun l hl => List.mem_append_right _ hl)).append hborder

theorem shownItems_generate {o : ℤ} (is : List (Fin 7)) (entries : Fin 7 → List CalEntry) :
    shownItems (is.map fun i : Fin 7 =>
      .generate (o + (i : ℕ)) (o + (i : ℕ)) (some i) (entries i)) = [] := by
  have hnone : (is.map fun i : Fin 7 => CalEvent.generate (o + (i : ℕ)) (o + (i : ℕ)) (some i)
      (entries i)).filterMap CalEvent.item? = [] := by
    refine List.filterMap_eq_nil_iff.2 fun e he => ?_
    obtain ⟨i, -, rfl⟩ := List.mem_map.1 he
    rfl
  rw [shownItems, hnone, visible_nil]

theorem RowOf_lined {label : σ → ℤ → List CalItem} {a b o : ℤ} {more : Bool} {row : List CalEvent}
    (hboxed : k.doSimpleCalendar = false) (hroom : k.Roomy)
    (hlabel : ∀ world n, k.Cell k.colSpaces (label world n)) (h : k.RowOf label a b o more row) :
    k.Lined k.lineWidth (shownItems row) := by
  obtain ⟨entries, shown, hgen, -, rfl, hshown⟩ := h
  rw [if_neg (by simp [hboxed])] at hshown
  obtain ⟨world, body, rfl, hbody⟩ := hshown
  have hlabels : k.Lined k.lineWidth (visible (k.labelsOf (label world) a b o)) := by
    refine labelLine_lined fun i => ?_
    split_ifs
    · exact hlabel world _
    · exact printLeft_spec hroom.1.le (fun _ hc => absurd hc List.not_mem_nil) ' '
  rw [shownItems_append, shownItems_generate, List.nil_append, shownItems_print, visible_append]
  exact hlabels.append (BodyOf_lined hroom.1 (fits_collect hroom hgen) hbody)

theorem RowsOf_lined {label : σ → ℤ → List CalItem} {a b o : ℤ} {rows : List CalEvent}
    (hboxed : k.doSimpleCalendar = false) (hroom : k.Roomy)
    (hlabel : ∀ world n, k.Cell k.colSpaces (label world n)) (h : k.RowsOf label a b o rows) :
    k.Lined k.lineWidth (shownItems rows) := by
  induction h with
  | last _ hrow => exact RowOf_lined hboxed hroom hlabel hrow
  | more _ hrow _ ih =>
    rw [shownItems_append]
    exact (RowOf_lined hboxed hroom hlabel hrow).append ih

theorem MonthsOf_lined {M : ℤ} {n : ℕ} {months : List CalEvent}
    (hboxed : k.doSimpleCalendar = false) (hroom : k.Roomy) (hp : k.Printable)
    (hwidth : k.calWidth = k.lineWidth) (h : k.MonthsOf M n months) :
    k.Lined k.lineWidth (shownItems months) := by
  induction h with
  | nil => exact .nil
  | cons hmonth _ ih =>
    obtain ⟨rows, hrows, rfl⟩ := hmonth
    rw [if_neg (by simp [hboxed]), shownItems_append, shownItems_append, shownItems_append,
      shownItems_print]
    refine (((writeCalHeader_lined hp hroom.1.le hwidth _).append (RowsOf_lined hboxed hroom
      (fun _ _ => monthLabel_cell hp hroom.1 ..) hrows)).append ?_).append ih
    exact .feed .nil

theorem WeeksOf_lined {o : ℤ} {n : ℕ} {weeks : List CalEvent}
    (hboxed : k.doSimpleCalendar = false) (hroom : k.Roomy) (hp : k.Printable)
    (h : k.WeeksOf o n weeks) : k.Lined k.lineWidth (shownItems weeks) := by
  induction h with
  | nil => exact .nil
  | cons hweek _ ih =>
    rw [shownItems_append]
    exact (RowOf_lined hboxed hroom (fun _ _ => weekLabel_cell hp hroom.1 ..) hweek).append ih

end Boxed

/-! ### Every calendar -/

section Calendar

/-- A calendar of two months or weeks, with an entry on every fifth day. -/
def sampleCalendar (simple : Bool) : CalSetup Unit where
  toCalConfig := sampleCalConfig
  generate _ n _ col :=
    ((), if col.isSome && n % 5 = 0 then [sampleEntry "Water the garden".toList] else [])
  clear := id
  moons _ _ := []
  weeks _ d := if d % 7 = 0 then "(W1)".toList else []
  bgcolor _ _ := none
  calWidth := 80
  calLines := 5
  calPad := 1
  mondayFirst := true
  doSimpleCalendar := simple
  realToday := 12500
  dayName _ := "Day".toList
  monthName _ := "Month".toList
  monthAbbrev _ := "Mon".toList
  sort := ⟨.none, .none, .none, false⟩

/-- Before the calendar is made. -/
def sampleCalState (today : ℤ) : CalState Unit :=
  ⟨today, today, fun _ => 0, fun _ => [], ()⟩

theorem sampleCalendar_roomy (simple : Bool) : (sampleCalendar simple).measure.Roomy :=
  ⟨(by decide : 0 < ((80 : ℤ) - 9).tdiv 7), fun _ _ _ _ _ c _ =>
    ⟨(sampleCalConfig_wcwidth c).1, (sampleCalConfig_wcwidth c).2.trans
      (by decide : 2 ≤ ((80 : ℤ) - 9).tdiv 7)⟩⟩

theorem shownItems_first (n : ℤ) (entries : List CalEntry) (events : List CalEvent) :
    shownItems (.generate n n none entries :: events) = shownItems events := rfl

end Calendar

end Remind
