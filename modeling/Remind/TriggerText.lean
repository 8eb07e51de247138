import Mathlib
import Remind.ComputeTrigger
import Remind.NextDate
import Remind.ParseRem
import Remind.Coerce
import Remind.ReadSteps

/-!
# TriggerText — a date as the text of a trigger (funcs.c: `FTrigger`)

The text is read back word by word: a day, the name of a month, a year, and `AT` with a time.
-/

namespace Remind

open Lib (intMax)

/-! ### The function -/

/-- `MonthName` -/
def monthNames : List String :=
  ["January", "February", "March", "April", "May", "June", "July", "August", "September",
    "October", "November", "December"]

def monthName (m : ℤ) : String := monthNames.getD m.toNat ""

/-- The text that `FTrigger` prints; `none` is `NO_TIME`. -/
def printTrigger (date : ℤ) (tim : Option ℤ) : String :=
  let x := fromDSE date
  let day := toString x.d ++ " " ++ monthName x.m ++ " " ++ toString x.y
  match tim with
  | some tim => day ++ " AT " ++ padInt 2 (tim.tdiv 60) ++ ":" ++ padInt 2 (tim.tmod 60)
  | none => day

/-- A date and a time as they are, or from UTC. -/
def fromUTC (utcToLocal : ℤ → ℤ → ℤ × ℤ) (utc date tim : ℤ) : ℤ × ℤ :=
  if utc ≠ 0 then
    let (date, tim) := utcToLocal date tim
    if date < 0 then (0, 0) else (date, tim)
  else (date, tim)

/-- `FTrigger` -/
def fTrigger (utcToLocal : ℤ → ℤ → ℤ × ℤ) (args : List Value) : Except ErrCode Value :=
  match args with
  | [.date date] => .ok (.str (printTrigger date none))
  | [.date date, .time tim] => .ok (.str (printTrigger date (some tim)))
  | [.date date, .time tim, .int utc] =>
    let (date, tim) := fromUTC utcToLocal utc date tim
    .ok (.str (printTrigger date (some tim)))
  | [.datetime v] =>
    .ok (.str (printTrigger (v.tdiv minutesPerDay) (some (v.tmod minutesPerDay))))
  | [.datetime v, .int utc] =>
    let (date, tim) := fromUTC utcToLocal utc (v.tdiv minutesPerDay) (v.tmod minutesPerDay)
    .ok (.str (printTrigger date (some tim)))
  | [.datetime _, _, _] => .error .tooManyArgs
  | _ => .error .badType

/-! ### Words of a text -/

section Words

variable {σ : Type} {w : PasteEnv σ} {s : PtrState σ} {word rest buf : List Char} {n : ℕ}

theorem parseChar_end (h : s.Literal) (hpos : s.ptr.pos = []) (peek : Bool) :
    parseChar w peek s = .ok none s := by
  obtain ⟨⟨pos, nested, allow, pushed, happened, nonconst⟩, world⟩ := s
  obtain ⟨h1, h2, -⟩ := h
  simp only at h1 h2 hpos
  subst h1 h2 hpos
  rfl

/-- A word ends at a space, or with the text. -/
def EndsWord (rest : List Char) : Prop := rest = [] ∨ ∃ rest', rest = ' ' :: rest'

theorem tokenLoop_word (h : s.Literal) (hpos : s.ptr.pos = word ++ rest)
    (hword : ∀ c ∈ word, isEmptyChar c = false) (hrest : EndsWord rest) (hn : word.length < n) :
    (parseChar w false >>= fun c => tokenLoop w n c buf) s =
      .ok (buf ++ word) (s.moveTo rest.tail) := by
  obtain ⟨n, rfl⟩ := Nat.exists_eq_succ_of_ne_zero (by omega : n ≠ 0)
  induction word generalizing s buf n with
  | nil =>
    rcases hrest with rfl | ⟨rest, rfl⟩
    · have hsame : s.moveTo [] = s := by
        rw [List.nil_append] at hpos
        rw [← hpos]
        rfl
      rw [Lib.bind_ok (parseChar_end h hpos false), List.append_nil, List.tail_nil, hsame]
      rfl
    · rw [Lib.bind_ok (parseChar_literal h hpos false), List.append_nil]
      rfl
  | cons c word ih =>
    rw [List.forall_mem_cons] at hword
    rw [List.length_cons] at hn
    obtain ⟨n, rfl⟩ := Nat.exists_eq_succ_of_ne_zero (by omega : n ≠ 0)
    have hnext : (s.moveTo (word ++ rest)).Literal := h.moveTo (by
      rw [hpos]
      exact List.subset_cons_self _ _)
    have hstep : tokenLoop w (n + 1 + 1) (some c) buf =
        parseChar w false >>= fun c' => tokenLoop w (n + 1) c' (buf ++ [c]) := by
      rw [tokenLoop]
      simp only [hword.1]
      rfl
    rw [Lib.bind_ok (parseChar_literal h hpos false)]
    simp only [hstep, Bool.false_eq_true, if_false]
    have hrest' := @ih _ (buf ++ [c]) hnext rfl hword.2 n (by omega)
    rw [List.append_assoc] at hrest'
    exact hrest'

/-- `ParseToken` reads a word, and the space behind it. -/
theorem parseToken_word (h : s.Literal) (hpos : s.ptr.pos = word ++ rest) (hne : word ≠ [])
    (hword : ∀ c ∈ word, isEmptyChar c = false) (hrest : EndsWord rest) (hn : word.length < n) :
    parseToken w n s = .ok word (s.moveTo rest.tail) := by
  obtain ⟨c, word, rfl⟩ := List.exists_cons_of_ne_nil hne
  obtain ⟨n, rfl⟩ := Nat.exists_eq_succ_of_ne_zero (by omega : n ≠ 0)
  rw [List.forall_mem_cons] at hword
  rw [List.length_cons] at hn
  have hskip : skipBlank w (n + 1) s = .ok (some c) (s.moveTo (word ++ rest)) := by
    rw [skipBlank, Lib.bind_ok (parseChar_literal h hpos false), skipLoop]
    simp only [isEmptyAt, Option.map_some, Option.getD_some, hword.1]
    rfl
  have hstep : tokenLoop w (n + 1) (some c) [] =
      parseChar w false >>= fun c' => tokenLoop w n c' [c] := by
    rw [tokenLoop]
    simp only [hword.1]
    rfl
  have hnext : (s.moveTo (word ++ rest)).Literal := h.moveTo (by
    rw [hpos]
    exact List.subset_cons_self _ _)
  rw [parseToken_eq, Lib.bind_ok hskip, hstep, tokenLoop_word hnext rfl hword.2 hrest (by omega)]
  rfl

theorem parseToken_end (h : s.Literal) (hpos : s.ptr.pos = []) : parseToken w (n + 1) s = .ok [] s := by
  have hskip : skipBlank w (n + 1) s = .ok none s := by
    rw [skipBlank, Lib.bind_ok (parseChar_end h hpos false)]
    rfl
  rw [parseToken_eq, Lib.bind_ok hskip]
  rfl

end Words

/-! ### The words of the function -/

section Tokens

variable (c : LiteralSeps)

theorem toList_toString {n : ℤ} (h : 0 ≤ n) : (toString n).toList = Nat.toDigits 10 n.toNat := by
  rw [Int.toString_eq_repr, Int.repr_eq_if, if_pos h, Nat.toList_repr]

theorem isAlpha_digit {ch : Char} (h : ch.isDigit = true) : ch.isAlpha = false := by
  simp only [Char.isAlpha, Char.isUpper, Char.isLower, Char.isDigit] at *
  grind

/-- A number is a year, a day or another number. -/
theorem findToken_number {n : ℤ} (h0 : 0 ≤ n) (h : n ≤ intMax) :
    findToken c (toString n).toList = .num (classifyNumber n) := by
  have hdigits : ∀ ch ∈ Nat.toDigits 10 n.toNat, ch.isDigit = true := fun ch hch =>
    Nat.isDigit_of_mem_toDigits (by omega) (by omega) hch
  obtain ⟨d, ds, hds⟩ := List.exists_cons_of_ne_nil (Nat.toDigits_ne_nil (b := 10) (n := n.toNat))
  have hread := readDigits_zero hdigits
  rw [decimalValue_toDigits, Int.toNat_of_nonneg h0, Lib.wrap_of_inInt (by
    rw [Lib.inInt_iff]
    unfold intMax at h
    omega)] at hread
  rw [hds] at hdigits hread
  have hd : d.isDigit = true := hdigits d List.mem_cons_self
  have hfirst : ¬(d = '#' ∨ d = ';') := by
    rintro (rfl | rfl) <;> exact absurd hd (by decide)
  rw [toList_toString h0, hds, findToken, if_neg hfirst, isAlpha_digit hd, findNumericToken,
    if_pos hd, digitToken, hread]
  rfl

theorem findToken_day {d : ℤ} (h1 : 1 ≤ d) (h31 : d ≤ 31) :
    findToken c (toString d).toList = .num (.day d) := by
  have hyear : ¬(d ≥ baseYr ∧ d ≤ baseYr + yrRange) := by
    unfold baseYr
    omega
  rw [findToken_number c (by omega) (by unfold intMax; omega), classifyNumber, if_neg hyear,
    if_pos ⟨h1, h31⟩]

theorem findToken_year {y : ℤ} (h1 : baseYr ≤ y) (h2 : y ≤ baseYr + yrRange) :
    findToken c (toString y).toList = .num (.year y) := by
  have hlow : (1990 : ℤ) ≤ y := h1
  have hhigh : y ≤ (1990 : ℤ) + 4000 := h2
  rw [findToken_number c (by omega) (by unfold intMax; omega), classifyNumber, if_pos ⟨h1, h2⟩]

/-- The names of the months are found in the table, and are words. -/
theorem findToken_month {m : ℤ} (h0 : 0 ≤ m) (h11 : m ≤ 11) :
    findToken c (monthName m).toList = .month m ∧ monthName m ≠ "" ∧
      ∀ ch ∈ (monthName m).toList, isIdentNext ch = true := by
  obtain ⟨m, rfl⟩ := Int.eq_ofNat_of_zero_le h0
  have hall : ∀ m : ℕ, m < 12 → findToken {} (monthName m).toList = .month m ∧ monthName m ≠ "" ∧
      (monthName m).toList.all isIdentNext = true := by
    decide +kernel
  have hm := hall m (by omega)
  refine ⟨?_, hm.2.1, List.all_eq_true.1 hm.2.2⟩
  -- a word with letters is the same whatever the separators
  rw [← hm.1]
  have hword : ∀ m : ℕ, m < 12 →
      ∃ ch rest, (monthName m).toList = ch :: rest ∧ ch.isAlpha = true := by
    intro m hm
    interval_cases m <;> exact ⟨_, _, rfl, rfl⟩
  obtain ⟨ch, rest, htext, halpha⟩ := hword m (by omega)
  simp only [htext, findToken, halpha]
  rfl

theorem findToken_at : findToken c ['A', 'T'] = .at := by
  have htable : findToken {} ['A', 'T'] = .at := by decide +kernel
  rw [← htable]
  rfl

/-- An hour and a minute are a time of the day. -/
theorem findToken_clock {h m : ℤ} (h0 : 0 ≤ h) (h23 : h ≤ 23) (m0 : 0 ≤ m) (m59 : m ≤ 59) :
    findToken c (clockText ':' h m) = .num (.time (h * 60 + m)) := by
  have hread : readDigits 0 (clockText ':' h m) = (h, ':' :: (padInt 2 m).toList) :=
    readDigits_padInt h0 (by unfold intMax; omega) rfl
  have hmin : readDigits 0 (padInt 2 m).toList = (m, []) := by
    have := @readDigits_padInt [] _ 2 m0 (by unfold intMax; omega) rfl
    rwa [List.append_nil] at this
  have hminDigit : digitNext (padInt 2 m).toList = true := by
    have := @digitNext_padInt [] _ 2 m0
    rwa [List.append_nil] at this
  obtain ⟨d, ds, hds⟩ : ∃ d ds, clockText ':' h m = d :: ds := by
    rw [clockText, padInt_of_nonneg h0]
    exact List.exists_cons_of_ne_nil (List.append_ne_nil_of_left_ne_nil (zeroPad_ne_nil _ _) _)
  have hd : d.isDigit = true := by
    have := @digitNext_padInt (':' :: (padInt 2 m).toList) _ 2 h0
    rw [← clockText, hds] at this
    exact this
  have hfirst : ¬(d = '#' ∨ d = ';') := by
    rintro (rfl | rfl) <;> exact absurd hd (by decide)
  have hclock : digitToken c (clockText ':' h m) = .time (h * 60 + m) := by
    have hsep : timeSepNext c.timeSep (':' :: (padInt 2 m).toList) = some (padInt 2 m).toList := by
      simp [timeSepNext]
    have hhour : Lib.wrap (h * 60) = h * 60 := Lib.wrap_of_inInt (by rw [Lib.inInt_iff]; omega)
    have hwrap : Lib.wrap (Lib.wrap (h * 60) + m) = h * 60 + m := by
      rw [hhour, Lib.wrap_of_inInt (by rw [Lib.inInt_iff]; omega)]
    have hle : ¬m > 59 := by omega
    rw [digitToken, hread]
    simp [hsep, timeToken, hminDigit, hmin, hle, readAmPm, amPmHour, hwrap, h23]
  rw [hds] at hclock
  rw [hds, findToken, if_neg hfirst, isAlpha_digit hd, findNumericToken, if_pos hd, hclock]
  rfl

end Tokens

/-! ### The text, word by word -/

section Texts

variable {date : ℤ} {tim : Option ℤ}

/-- What stands behind the year. -/
def timeWords : Option ℤ → List Char
  | none => []
  | some tim => ' ' :: (['A', 'T'] ++ ' ' :: clockText ':' (tim.tdiv 60) (tim.tmod 60))

theorem printTrigger_toList (date : ℤ) (tim : Option ℤ) :
    (printTrigger date tim).toList = (toString (fromDSE date).d).toList ++
      ' ' :: ((monthName (fromDSE date).m).toList ++
        ' ' :: ((toString (fromDSE date).y).toList ++ timeWords tim)) := by
  have hspace : " ".toList = [' '] := rfl
  have hcolon : ":".toList = [':'] := rfl
  have hat : " AT ".toList = [' ', 'A', 'T', ' '] := rfl
  cases tim <;>
    simp [printTrigger, timeWords, clockText, String.toList_append, hspace, hcolon, hat]

/-- Digits and letters are no white space, and no bracket. -/
theorem identNext_word {word : List Char} (h : ∀ ch ∈ word, isIdentNext ch = true) :
    (∀ ch ∈ word, isEmptyChar ch = false) ∧ '[' ∉ word := by
  constructor
  · intro ch hch
    refine Bool.eq_false_iff.2 fun hempty => ?_
    have hident := h ch hch
    rw [isIdentNext_blank hempty] at hident
    cases hident
  · exact fun hch => absurd (h _ hch) (by decide)

theorem isIdentNext_digit {ch : Char} (h : ch.isDigit = true) : isIdentNext ch = true := by
  simp [isIdentNext, Char.isAlphanum, h]

theorem number_word {n : ℤ} (h : 0 ≤ n) : ∀ ch ∈ (toString n).toList, isIdentNext ch = true := by
  rw [toList_toString h]
  exact fun ch hch => isIdentNext_digit (Nat.isDigit_of_mem_toDigits (by omega) (by omega) hch)

theorem number_ne_nil {n : ℤ} (h : 0 ≤ n) : (toString n).toList ≠ [] := by
  rw [toList_toString h]
  exact Nat.toDigits_ne_nil

theorem clock_word {h m : ℤ} (h0 : 0 ≤ h) (m0 : 0 ≤ m) :
    (∀ ch ∈ clockText ':' h m, isEmptyChar ch = false) ∧ '[' ∉ clockText ':' h m ∧
      clockText ':' h m ≠ [] := by
  have hdigits : ∀ n : ℤ, 0 ≤ n → (∀ ch ∈ (padInt 2 n).toList, isEmptyChar ch = false) ∧
      '[' ∉ (padInt 2 n).toList := by
    intro n hn
    rw [padInt_of_nonneg hn]
    exact identNext_word fun ch hch => isIdentNext_digit (zeroPad_digits _ _ ch hch)
  refine ⟨?_, ?_, ?_⟩
  · intro ch hch
    rcases List.mem_append.1 hch with hch | hch
    · exact (hdigits h h0).1 ch hch
    · rcases List.mem_cons.1 hch with rfl | hch
      · rfl
      · exact (hdigits m m0).1 ch hch
  · rw [clockText, List.mem_append, List.mem_cons, not_or, not_or]
    exact ⟨(hdigits h h0).2, by decide, (hdigits m m0).2⟩
  · exact List.append_ne_nil_of_right_ne_nil _ (List.cons_ne_nil _ _)

end Texts

/-! ### ParseRem -/

section Parse

variable {σ : Type} {w : RemConfig σ} {s s' : PtrState σ} {word rest buf : List Char} {n k : ℕ}
  {p p' : ParsedRem} {tok : RemToken}

theorem nextToken_word (h : s.Literal) (hpos : s.ptr.pos = word ++ rest) (hne : word ≠ [])
    (hword : ∀ c ∈ word, isEmptyChar c = false) (hrest : EndsWord rest) (hn : word.length < n) :
    nextToken w n s = .ok (findToken w.seps word, word) (s.moveTo rest.tail) :=
  Lib.bind_ok (parseToken_word h hpos hne hword hrest hn)

theorem remLoop_next {s'' : PtrState σ} (h : nextToken w n s = .ok (tok, buf) s')
    (hclause : remClause w n tok buf p s' = .ok (.parsing p') s'') :
    remLoop w n (k + 1) p s = remLoop w n k p' s'' := by
  rw [remLoop, Lib.bind_ok h]
  exact Lib.bind_ok hclause

theorem remLoop_end (h : nextToken w n s = .ok (.empty, buf) s')
    (hfinish : finishRem s'.ptr p = .ok p') : remLoop w n (k + 1) p s = .ok p' s' := by
  rw [remLoop, Lib.bind_ok h]
  dsimp only
  have hget : (get : PtrM σ (PtrState σ)) s' = .ok s' s' := rfl
  rw [remClause, pure_bind]
  dsimp only
  rw [Lib.bind_ok hget, hfinish]
  rfl

/-- The trigger of a date, and of a time where there is one. -/
def remAtDate (w : RemConfig σ) (date : ℤ) (tim : Option ℤ) : ParsedRem :=
  { initRem w with
    trig := (initRem w).trig.setDate date
    tim := { (initRem w).tim with ttime := tim, ttimeOrig := tim } }

/-- The end of the line, with a token of nothing pushed back in front of it. -/
theorem nextToken_end (h : s.Literal) (hpos : s.ptr.pos = []) :
    nextToken w (n + 1) s = .ok (.empty, []) s ∧
      nextToken w (n + 2) { s with ptr := pushToken [] s.ptr } = .ok (.empty, []) s := by
  constructor
  · exact Lib.bind_ok (parseToken_end h hpos)
  · obtain ⟨⟨pos, nested, allow, pushed, happened, nonconst⟩, world⟩ := s
    obtain ⟨h1, h2, -⟩ := h
    simp only at h1 h2 hpos
    subst h1 h2 hpos
    rfl

/-- The end of `ParseRem` where nothing but a date and a time has been read. -/
theorem finishRem_date {ptr : ParserPtr} {date : ℤ} {tim : Option ℤ}
    (h1 : ptr.nonconstExpr = false) (h2 : ptr.exprHappened = false) :
    finishRem ptr (remAtDate w date tim) = .ok (remAtDate w date tim) := by
  rw [finishRem, if_neg (fun h => Bool.false_ne_true h.1), ParsedRem.addFlags, h1, h2]
  rfl

/-- The time behind `AT`. -/
theorem parseTimeTrig_clock {tim : TimeTrig} {t : ℤ} (h : s.Literal)
    (hpos : s.ptr.pos = clockText ':' (t.tdiv 60) (t.tmod 60)) (htim : tim.ttime = none)
    (h0 : 0 ≤ t) (ht : t < minutesPerDay)
    (hn : (clockText ':' (t.tdiv 60) (t.tmod 60)).length + 2 ≤ n) :
    parseTimeTrig w n tim s = .ok { tim with ttime := some t, ttimeOrig := some t }
      { s.moveTo [] with ptr := pushToken [] (s.moveTo []).ptr } := by
  have hday : t < 1440 := ht
  have hhour : t.tdiv 60 = t / 60 := Int.tdiv_eq_ediv_of_nonneg h0
  have hmin : t.tmod 60 = t % 60 := Int.tmod_eq_emod_of_nonneg h0
  rw [hhour, hmin] at hpos hn
  obtain ⟨hword, -, hne⟩ := clock_word (h := t / 60) (m := t % 60) (by omega) (by omega)
  have htok := findToken_clock w.seps (h := t / 60) (m := t % 60) (by omega) (by omega) (by omega)
    (by omega)
  have hvalue : t / 60 * 60 + t % 60 = t := Int.ediv_mul_add_emod t 60
  have hfirst : nextToken w n s = .ok (.num (.time t), clockText ':' (t / 60) (t % 60))
      (s.moveTo []) := by
    rw [← List.append_nil (clockText ':' (t / 60) (t % 60))] at hpos
    rw [nextToken_word h hpos hne hword (.inl rfl) (by omega), htok, hvalue]
    rfl
  have hend : (s.moveTo []).Literal := h.moveTo (List.nil_subset _)
  obtain ⟨n, rfl⟩ : ∃ k, n = k + 2 := ⟨n - 2, by omega⟩
  have hlast := (nextToken_end (w := w) (n := n + 1) hend rfl).1
  have hstored : storedTime t = some t := if_neg (by omega)
  rw [parseTimeTrig, timeTrigLoop, Lib.bind_ok hfirst]
  dsimp only
  rw [if_neg (fun hne => hne htim), hstored, timeTrigLoop, Lib.bind_ok hlast]
  dsimp only
  rw [if_neg (Option.some_ne_none t)]
  rfl

/-- `ParseRem` reads the text as the date and the time, and sets nothing else. -/
theorem parseRem_printTrigger {date : ℤ} {tim : Option ℤ} (hd : 0 ≤ date)
    (hy : (fromDSE date).y ≤ baseYr + yrRange)
    (htim : ∀ t ∈ tim, 0 ≤ t ∧ t < minutesPerDay) (world : σ)
    (hn : (printTrigger date tim).toList.length + 6 ≤ n) :
    ∃ s', parseRem w n ⟨createParser (printTrigger date tim).toList, world⟩ =
      .ok (remAtDate w date tim) s' := by
  obtain ⟨hv, -⟩ := fromDSE_spec hd
  have hday := hv.dayLo
  have hmonth := hv.monthLo
  have hyear : (1990 : ℤ) ≤ (fromDSE date).y := hv.year
  have hday31 : (fromDSE date).d ≤ 31 := hv.dayHi.trans (daysInMonth_bounds hmonth hv.monthHi _).2
  obtain ⟨htokM, hneM, hwordM⟩ := findToken_month w.seps hmonth hv.monthHi
  have hneM : (monthName (fromDSE date).m).toList ≠ [] := fun h =>
    hneM (String.toList_eq_nil_iff.1 h)
  obtain ⟨hblankD, hbracketD⟩ := identNext_word (number_word (n := (fromDSE date).d) (by omega))
  obtain ⟨hblankY, hbracketY⟩ := identNext_word (number_word (n := (fromDSE date).y) (by omega))
  obtain ⟨hblankM, hbracketM⟩ := identNext_word hwordM
  have htext := printTrigger_toList date tim
  rw [htext] at hn ⊢
  have hbracketT : '[' ∉ timeWords tim := by
    cases tim with
    | none => exact List.not_mem_nil
    | some t =>
      obtain ⟨h0, -⟩ := htim t rfl
      have hclock := (clock_word (h := t.tdiv 60) (m := t.tmod 60)
        (Int.tdiv_nonneg h0 (by decide)) (Int.tmod_nonneg 60 h0)).2.1
      simpa [timeWords] using hclock
  generalize hD : (toString (fromDSE date).d).toList = day at *
  generalize hM : (monthName (fromDSE date).m).toList = month at *
  generalize hY : (toString (fromDSE date).y).toList = year at *
  have hneD : day ≠ [] := hD ▸ number_ne_nil (by omega)
  have hneY : year ≠ [] := hY ▸ number_ne_nil (by omega)
  have htokD : findToken w.seps day = .num (.day (fromDSE date).d) :=
    hD ▸ findToken_day w.seps hday hday31
  have htokY : findToken w.seps year = .num (.year (fromDSE date).y) :=
    hY ▸ findToken_year w.seps hv.year hy
  simp only [List.length_append, List.length_cons] at hn
  obtain ⟨k, rfl⟩ : ∃ k, n = k + 6 := ⟨n - 6, by omega⟩
  -- the parser at a place of the text
  have hplain : ∀ pos, '[' ∉ pos → (⟨createParser pos, world⟩ : PtrState σ).Literal :=
    fun pos hpos => ⟨rfl, rfl, .inr hpos⟩
  have hbracket3 : '[' ∉ year ++ timeWords tim := by simp [hbracketY, hbracketT]
  have hbracket2 : '[' ∉ month ++ ' ' :: (year ++ timeWords tim) := by
    simp [hbracketM, hbracketY, hbracketT]
  have hbracket1 : '[' ∉ day ++ ' ' :: (month ++ ' ' :: (year ++ timeWords tim)) := by
    simp [hbracketD, hbracketM, hbracketY, hbracketT]
  have hread1 := nextToken_word (w := w) (n := k + 6) (hplain _ hbracket1) rfl hneD hblankD
    (.inr ⟨_, rfl⟩) (by omega)
  have hread2 := nextToken_word (w := w) (n := k + 6) (hplain _ hbracket2) rfl hneM hblankM
    (.inr ⟨_, rfl⟩) (by omega)
  have hend3 : EndsWord (timeWords tim) := by
    cases tim with
    | none => exact .inl rfl
    | some t => exact .inr ⟨_, rfl⟩
  have hread3 := nextToken_word (w := w) (n := k + 6) (hplain _ hbracket3) rfl hneY hblankY hend3
    (by omega)
  rw [htokD] at hread1
  rw [htokM] at hread2
  rw [htokY] at hread3
  have hwords : remLoop w (k + 6) (k + 6) (initRem w)
      ⟨createParser (day ++ ' ' :: (month ++ ' ' :: (year ++ timeWords tim))), world⟩ =
      remLoop w (k + 6) (k + 3) (remAtDate w date none)
        ⟨createParser (timeWords tim).tail, world⟩ := by
    refine (remLoop_next (k := k + 5) hread1 rfl).trans ?_
    refine (remLoop_next (k := k + 4) hread2 rfl).trans ?_
    exact remLoop_next (k := k + 3) hread3 rfl
  rw [parseRem, hwords]
  cases tim with
  | none =>
    have hlast := (nextToken_end (w := w) (n := k + 5) (hplain [] List.not_mem_nil) rfl).1
    exact ⟨_, remLoop_end hlast (finishRem_date rfl rfl)⟩
  | some t =>
    obtain ⟨h0, ht⟩ := htim t rfl
    have hbracketA : '[' ∉ (timeWords (some t)).tail := fun h =>
      hbracketT (List.mem_of_mem_tail h)
    have hbracketC : '[' ∉ clockText ':' (t.tdiv 60) (t.tmod 60) := fun h =>
      hbracketA (List.mem_append_right _ (List.mem_cons_of_mem _ h))
    have hreadA := @nextToken_word _ w _ ['A', 'T'] _ (k + 6)
      (hplain _ hbracketA) rfl (List.cons_ne_nil _ _) (by simp [isEmptyChar, isSpace]) (.inr ⟨_, rfl⟩)
      (by simp only [List.length_cons, List.length_nil]; omega)
    rw [findToken_at] at hreadA
    have htime := @parseTimeTrig_clock _ w _ (k + 6) (initRem w).tim t
      (hplain _ hbracketC) rfl rfl h0 ht (by
        simp only [timeWords, List.length_append, List.length_cons] at hn
        omega)
    have hlast := (nextToken_end (w := w) (n := k + 4) (hplain [] List.not_mem_nil) rfl).2
    have hat : remLoop w (k + 6) (k + 3) (remAtDate w date none)
        ⟨createParser (timeWords (some t)).tail, world⟩ =
        remLoop w (k + 6) (k + 2) (remAtDate w date (some t))
          ⟨pushToken [] (createParser []), world⟩ :=
      remLoop_next (k := k + 2) hreadA (Lib.bind_ok htime)
    rw [hat]
    exact ⟨_, remLoop_end hlast (finishRem_date rfl rfl)⟩

end Parse

/-! ### The search -/

section Search

variable {σ : Type} {m : Type → Type} [Monad m] [LawfulMonad m] {w : RemConfig σ} {date start : ℤ}
  {tim : Option ℤ}

theorem nextSimpleTrig_remAtDate (hd : 0 ≤ date) (start : ℤ) :
    nextSimpleTrig start (remAtDate w date tim).trig.unexpired = some (.ok date) := by
  obtain ⟨hv, hdse⟩ := fromDSE_spec hd
  have hlen := hv.dayHi
  have hdate : nextSimpleTrig start (remAtDate w date tim).trig.unexpired =
      if (fromDSE date).d > daysInMonth (fromDSE date).m (fromDSE date).y then
        some (.error .badDate)
      else some (.ok (dse (fromDSE date).y (fromDSE date).m (fromDSE date).d)) := rfl
  rw [hdate, if_neg (by omega), hdse]

theorem lookFrom_remAtDate (e : Env m) (hd : 0 ≤ date) (start nextstart : ℤ) :
    lookFrom e (remAtDate w date tim).trig.unexpired nextstart start =
      pure (.ok (date, date + 1)) := by
  have hmove : moveDate e (remAtDate w date tim).trig.unexpired start date = pure (.ok date) := by
    have hback : applyBack e (remAtDate w date tim).trig.unexpired date = pure (.ok date) := rfl
    rw [moveDate, hback, pure_bind]
    rfl
  rw [lookFrom, nextSimpleTrig_remAtDate hd]
  dsimp only
  rw [if_neg (by omega), hmove, pure_bind]
  rfl

theorem getNextTriggerDate_remAtDate (e : Env m) (hd : 0 ≤ date) (start nextstart : ℤ) :
    getNextTriggerDate e (remAtDate w date tim).trig.unexpired start nextstart =
      pure (.ok (date, date + 1)) := by
  rw [getNextTriggerDate]
  cases e.calmode <;> exact lookFrom_remAtDate e hd start nextstart

/-- The search for the trigger of a date finds this date at once. -/
theorem searchLoop_remAtDate (e : Env m) (hd : 0 ≤ date) (hle : start ≤ date) (n : ℕ) :
    searchLoop e (remAtDate w date tim).tim start 0 (n + 1) (remAtDate w date tim).trig.unexpired
        start 0 0 =
      pure { result := date, trig := (remAtDate w date tim).trig.unexpired, last := some date } := by
  have hskip : skipOmitted e (remAtDate w date tim).trig.unexpired date = pure (.ok false) := rfl
  have haccept : date + 0 ≥ start ∧
      ((remAtDate w date tim).trig.unexpired.skip ≠ .skip ∨ false = false) :=
    ⟨by omega, .inr rfl⟩
  rw [searchLoop, getNextTriggerDate_remAtDate e hd, pure_bind]
  dsimp only
  rw [if_neg (by omega), hskip, pure_bind]
  dsimp only
  have htz : (remAtDate w date tim).trig.unexpired.tz = none := rfl
  rw [tryDate, if_pos htz, acceptOrRescan, if_pos haccept]

/-- `ComputeTrigger` gives the date, from every start that is not after it, where no weekday is
omitted. -/
theorem computeTrigger_remAtDate (e : RemEnv m) (homit : e.weekdayOmits = 0) (h0 : 0 ≤ start)
    (hle : start ≤ date) :
    ∃ t tim', computeTrigger e start (remAtDate w date tim).trig (remAtDate w date tim).tim =
      pure ⟨none, date, t, tim'⟩ := by
  have hfound : computeTriggerNoAdjustDuration e.env (remAtDate w date tim).trig start
      (remAtDate w date tim).tim 0 =
      pure { result := date, trig := (remAtDate w date tim).trig.unexpired, last := some date } := by
    have hwd : ¬e.env.weekdayOmits ||| (remAtDate w date tim).trig.localomit = 0x7F := by
      show ¬e.weekdayOmits ||| 0 = 0x7F
      rw [homit]
      decide
    rw [computeTriggerNoAdjustDuration, if_neg hwd, if_neg (by omega), if_neg (fun h => h.1 rfl),
      if_neg (fun h => h.1 rfl), Int.sub_zero]
    exact searchLoop_remAtDate e.env (h0.trans hle) hle 499
  rw [computeTrigger, hfound, pure_bind, computeTriggerRest, if_neg (fun h => h rfl)]
  by_cases htoday : date = start
  · rw [if_pos htoday]
    exact ⟨_, _, rfl⟩
  · have hadj : adjustTriggerForDuration start date (remAtDate w date tim).trig.unexpired
        (remAtDate w date tim).tim =
        (setEvent (remAtDate w date tim).trig.unexpired (remAtDate w date tim).tim date,
          (remAtDate w date tim).tim, date) := by
      rw [adjustTriggerForDuration, if_neg (by omega)]
    rw [if_neg htoday, if_neg (fun h => h rfl), pure_bind]
    dsimp only
    rw [if_neg (fun h => h rfl), hadj]
    exact ⟨_, _, rfl⟩

end Search

/-! ### There and back -/

/-- The arguments of `trigger()` for a date and a time, without a UTC flag or with a zero for it. -/
inductive TriggerArgs : List Value → ℤ → Option ℤ → Prop
  | date {d : ℤ} (hd : 0 ≤ d) : TriggerArgs [.date d] d none
  | dateTime {d t : ℤ} (hd : 0 ≤ d) (h0 : 0 ≤ t) (ht : t < minutesPerDay) :
      TriggerArgs [.date d, .time t] d (some t)
  | dateTimeFlag {d t : ℤ} (hd : 0 ≤ d) (h0 : 0 ≤ t) (ht : t < minutesPerDay) :
      TriggerArgs [.date d, .time t, .int 0] d (some t)
  | datetime {v : ℤ} (hv : 0 ≤ v) :
      TriggerArgs [.datetime v] (v / minutesPerDay) (some (v % minutesPerDay))
  | datetimeFlag {v : ℤ} (hv : 0 ≤ v) :
      TriggerArgs [.datetime v, .int 0] (v / minutesPerDay) (some (v % minutesPerDay))

theorem fTrigger_text (utcToLocal : ℤ → ℤ → ℤ × ℤ) {args : List Value} {date : ℤ} {tim : Option ℤ}
    (h : TriggerArgs args date tim) :
    fTrigger utcToLocal args = .ok (.str (printTrigger date tim)) ∧ 0 ≤ date ∧
      ∀ t ∈ tim, 0 ≤ t ∧ t < minutesPerDay := by
  have hday : (0 : ℤ) < minutesPerDay := by decide
  have hparts : ∀ v : ℤ, 0 ≤ v → v.tdiv minutesPerDay = v / minutesPerDay ∧
      v.tmod minutesPerDay = v % minutesPerDay := fun v hv =>
    ⟨Int.tdiv_eq_ediv_of_nonneg hv, Int.tmod_eq_emod_of_nonneg hv⟩
  cases h with
  | date hd => exact ⟨rfl, hd, nofun⟩
  | dateTime hd h0 ht =>
    refine ⟨rfl, hd, ?_⟩
    rintro t ⟨⟩
    exact ⟨h0, ht⟩
  | dateTimeFlag hd h0 ht =>
    refine ⟨rfl, hd, ?_⟩
    rintro t ⟨⟩
    exact ⟨h0, ht⟩
  | @datetime v hv =>
    refine ⟨?_, Int.ediv_nonneg hv hday.le, ?_⟩
    · rw [fTrigger, (hparts v hv).1, (hparts v hv).2]
    · rintro t ⟨⟩
      exact ⟨Int.emod_nonneg v hday.ne', Int.emod_lt_of_pos v hday⟩
  | @datetimeFlag v hv =>
    refine ⟨?_, Int.ediv_nonneg hv hday.le, ?_⟩
    · rw [fTrigger, (hparts v hv).1, (hparts v hv).2]
      rfl
    · rintro t ⟨⟩
      exact ⟨Int.emod_nonneg v hday.ne', Int.emod_lt_of_pos v hday⟩

/-- `ParseRem` takes the text for a trigger with this day, month, year and time and nothing else, and
`ComputeTrigger` gives its date. -/
def ParsesBack (text : String) (date : ℤ) (tim : Option ℤ) : Prop :=
  ∀ (σ : Type) (w : RemConfig σ) (world : σ) (n : ℕ), text.toList.length + 6 ≤ n →
    ∃ p s', parseRem w n ⟨createParser text.toList, world⟩ = .ok p s' ∧
      p = { initRem w with
        trig := { (initRem w).trig with
          d := some (fromDSE date).d, m := some (fromDSE date).m, y := some (fromDSE date).y }
        tim := { (initRem w).tim with ttime := tim, ttimeOrig := tim } } ∧
      ∀ (m : Type → Type) [Monad m] [LawfulMonad m] (e : RemEnv m) (start : ℤ),
        e.weekdayOmits = 0 → 0 ≤ start → start ≤ date →
        ∃ t tim', computeTrigger e start p.trig p.tim = pure ⟨none, date, t, tim'⟩

end Remind
