import Remind.ArithExact
import Remind.LiteralExact

/-!
# Coerce — values as text and back (expr.c: `DoCoerce`; var.c: `time_sep_func`, `date_sep_func`,
# `datetime_sep_func`)

`DoCoerce` prints a value with the separators in force and reads text with `ParseLiteralTime` and
`ParseLiteralDateOrTime`.  The readers admit the dates from 1990 to 5990 that `DateOK` admits; the
printer prints every `int`.
-/

namespace Remind

open Lib (Traced intMax intMin InInt wrap)
open Lib.Traced (cint)

/-- The types of values. -/
inductive ValueType where
  | int
  | time
  | date
  | datetime
  | str
  deriving DecidableEq, Repr

/-- `v->type` -/
def Value.type : Value → ValueType
  | .int _ => .int
  | .time _ => .time
  | .date _ => .date
  | .datetime _ => .datetime
  | .str _ => .str

/-! ### The separators -/

/-- The system variables that hold a separator. -/
inductive SepVar where
  | timeSep
  | dateSep
  | dateTimeSep

/-- The texts that `time_sep_func`, `date_sep_func` and `datetime_sep_func` accept. -/
def SepVar.texts : SepVar → List Char
  | .timeSep => [':', '.']
  | .dateSep => ['/', '-']
  | .dateTimeSep => ['T', '@']

/-- The assignment at the end of the three functions. -/
def TextConfig.withSep (c : TextConfig) (ch : Char) : SepVar → TextConfig
  | .timeSep => { c with timeSep := ch }
  | .dateSep => { c with dateSep := ch }
  | .dateTimeSep => { c with dateTimeSep := ch }

/-- `time_sep_func`, `date_sep_func` and `datetime_sep_func` with `do_set`; an error leaves the
separators as they are. -/
def setSep (c : TextConfig) (x : SepVar) (val : Value) : TextConfig :=
  match val with
  | .str s =>
    match s.toList with
    | [ch] => if ch ∈ x.texts then c.withSep ch x else c
    | _ => c
  | _ => c

/-- The separators after any assignments. -/
inductive SepsInForce : TextConfig → Prop
  | start (maxStringLen : ℤ) : SepsInForce { maxStringLen }
  | set {c : TextConfig} (x : SepVar) (val : Value) : SepsInForce c → SepsInForce (setSep c x val)

/-- `TimeSep` and `DateSep`, which the readers use. -/
def TextConfig.literalSeps (c : TextConfig) : LiteralSeps := ⟨c.timeSep, c.dateSep⟩

/-! ### DoCoerce -/

/-- `DoCoerce(INT_TYPE, v)` -/
def coerceToInt : Value → Except ErrCode Value
  | .str s => (coerceStringToInt s.toList).map .int
  | .int n | .time n | .date n | .datetime n => .ok (.int n)

/-- `DoCoerce(TIME_TYPE, v)` -/
def coerceToTime (c : TextConfig) : Value → Traced (Except ErrCode Value)
  | .time n => pure (.ok (.time n))
  | .int n | .datetime n => timeModDay n
  | .str s =>
    match parseLiteralTime c.timeSep s.toList with
    | .ok (i, []) => pure (.ok (.time i))
    | _ => pure (.error .cantCoerce)
  | .date _ => pure (.error .cantCoerce)

/-- `DoCoerce(DATE_TYPE, v)` -/
def coerceToDate (c : TextConfig) : Value → Traced (Except ErrCode Value)
  | .date n => pure (.ok (.date n))
  | .int n => pure (if n ≥ 0 then .ok (.date n) else .error .tooLow)
  | .str s =>
    match parseLiteralDateOrTime c.literalSeps s.toList with
    | .ok (some i, _, []) => pure (.ok (.date i))
    | _ => pure (.error .cantCoerce)
  | .datetime n => do
    let i ← cint (n.tdiv minutesPerDay)
    pure (.ok (.date i))
  | .time _ => pure (.error .cantCoerce)

/-- `DoCoerce(DATETIME_TYPE, v)` -/
def coerceToDatetime (c : TextConfig) : Value → Traced (Except ErrCode Value)
  | .datetime n => pure (.ok (.datetime n))
  | .int n => pure (.ok (.datetime n))
  | .date n => dateToDatetime n
  | .str s =>
    match parseLiteralDateOrTime c.literalSeps s.toList with
    | .ok (some i, m, []) => do
      let k ← cint (i * minutesPerDay)
      let k ← cint (k + m.getD 0)
      pure (.ok (.datetime k))
    | _ => pure (.error .cantCoerce)
  | .time _ => pure (.error .cantCoerce)

/-- `DoCoerce` -/
def doCoerce (c : TextConfig) (type : ValueType) (v : Value) : Traced (Except ErrCode Value) :=
  match type with
  | .int => pure (coerceToInt v)
  | .time => coerceToTime c v
  | .date => coerceToDate c v
  | .datetime => coerceToDatetime c v
  | .str => do
    let s ← coerceString c v
    pure (.ok (.str s))

/-! ### What the printer writes, the loop over digits reads -/

section Digits

variable {ds rest : List Char} {v n : ℤ} {w : ℕ}

theorem readDigits_append (hds : ∀ c ∈ ds, c.isDigit = true) (hrest : digitNext rest = false) :
    readDigits v (ds ++ rest) = ((readDigits v ds).1, rest) := by
  induction ds generalizing v with
  | nil =>
    cases rest with
    | nil => rfl
    | cons c rest =>
      have hc : ¬ c.isDigit = true := by rw [show c.isDigit = false from hrest]; simp
      simp only [List.nil_append, readDigits, if_neg hc]
  | cons c ds ih =>
    have hc : c.isDigit = true := hds c (by simp)
    rw [List.cons_append, readDigits, if_pos hc, ih fun x hx => hds x (by simp [hx]), readDigits,
      if_pos hc]

theorem digitVal_digitChar : ∀ d : ℕ, d < 10 → digitVal (Nat.digitChar d) = d := by decide

theorem digitsFrom_append (b : ℤ) (val : Char → ℤ) (ds es : List Char) :
    digitsFrom b val v (ds ++ es) = digitsFrom b val (digitsFrom b val v ds) es := by
  simp only [digitsFrom, List.foldl_append]

theorem decimalValue_toDigits (n : ℕ) : decimalValue (Nat.toDigits 10 n) = n := by
  induction n using Nat.strongRecOn with
  | _ n ih =>
    by_cases hn : n < 10
    · rw [Nat.toDigits_of_lt_base hn, decimalValue, digitsFrom_cons, digitVal_digitChar n hn]
      simp [digitsFrom]
    · rw [Nat.toDigits_of_base_le (by omega) (by omega), decimalValue, digitsFrom_append]
      have hq : digitsFrom 10 digitVal 0 (Nat.toDigits 10 (n / 10)) = (n / 10 : ℕ) :=
        ih (n / 10) (by omega)
      rw [hq, digitsFrom_cons, digitVal_digitChar _ (Nat.mod_lt n (by omega))]
      simp only [digitsFrom, List.foldl_nil]
      omega

theorem decimalValue_zeros (k : ℕ) : decimalValue (List.replicate k '0' ++ ds) = decimalValue ds := by
  induction k with
  | zero => rfl
  | succ k ih => rw [List.replicate_succ, List.cons_append, decimalValue, digitsFrom_cons]; exact ih

theorem zeroPad_digits (w n : ℕ) : ∀ c ∈ (zeroPad w n).toList, c.isDigit = true := by
  intro c hc
  rw [zeroPad, String.toList_ofList, List.mem_append] at hc
  rcases hc with hc | hc
  · rw [List.eq_of_mem_replicate hc]
    rfl
  · exact Nat.isDigit_of_mem_toDigits (by omega) (by omega) hc

theorem zeroPad_ne_nil (w n : ℕ) : (zeroPad w n).toList ≠ [] := by
  rw [zeroPad, String.toList_ofList]
  exact List.append_ne_nil_of_right_ne_nil _ Nat.toDigits_ne_nil

theorem padInt_of_nonneg (h : 0 ≤ n) : padInt w n = zeroPad w n.natAbs := by
  rw [padInt, if_neg (by omega)]

/-- A printed number is read at its value. -/
theorem readDigits_padInt (h0 : 0 ≤ n) (h1 : n ≤ intMax) (hrest : digitNext rest = false) :
    readDigits 0 ((padInt w n).toList ++ rest) = (n, rest) := by
  rw [padInt_of_nonneg h0, readDigits_append (zeroPad_digits w _) hrest,
    readDigits_zero (zeroPad_digits w _), zeroPad, String.toList_ofList, decimalValue_zeros,
    decimalValue_toDigits, Int.natAbs_of_nonneg h0, (wrap_eq_iff h0).mpr h1]

theorem digitNext_padInt (h : 0 ≤ n) : digitNext ((padInt w n).toList ++ rest) = true := by
  rw [padInt_of_nonneg h]
  obtain ⟨c, ds, he⟩ := List.exists_cons_of_ne_nil (zeroPad_ne_nil w n.natAbs)
  rw [he]
  exact zeroPad_digits w n.natAbs c (by rw [he]; simp)

/-- A minus sign is no digit. -/
theorem digitNext_padInt_neg (h : n < 0) : digitNext ((padInt w n).toList ++ rest) = false := by
  rw [padInt, if_pos h, String.toList_append]
  rfl

end Digits

/-! ### Times -/

section Times

variable {c : TextConfig} {rest : List Char} {sep : Char} {h m n : ℤ}

/-- The separators that can be in force. -/
theorem SepsInForce.mem (hc : SepsInForce c) :
    c.timeSep ∈ SepVar.timeSep.texts ∧ c.dateSep ∈ SepVar.dateSep.texts ∧
      c.dateTimeSep ∈ SepVar.dateTimeSep.texts := by
  induction hc with
  | start n =>
    exact ⟨List.mem_cons_self, List.mem_cons_of_mem _ List.mem_cons_self,
      List.mem_cons_of_mem _ List.mem_cons_self⟩
  | set x val _ ih =>
    unfold setSep
    split
    · split
      · split_ifs with hch
        · cases x with
          | timeSep => exact ⟨hch, ih.2⟩
          | dateSep => exact ⟨ih.1, hch, ih.2.2⟩
          | dateTimeSep => exact ⟨ih.1, ih.2.1, hch⟩
        · exact ih
      · exact ih
    · exact ih

/-- `%02d%c%02d` of an hour and a minute. -/
def clockText (sep : Char) (h m : ℤ) : List Char :=
  (padInt 2 h).toList ++ sep :: (padInt 2 m).toList

theorem digitNext_sep (x : SepVar) (hsep : sep ∈ x.texts) : digitNext (sep :: rest) = false := by
  have hall : ∀ x : SepVar, ∀ ch ∈ x.texts, ch.isDigit = false := by
    rintro (_ | _ | _) <;> simp [SepVar.texts]
  exact hall x sep hsep

/-- An hour and a minute are read where they are a time of the day. -/
theorem parseLiteralTime_clockText (hsep : sep ∈ SepVar.timeSep.texts) (hh : h ≤ intMax)
    (hm : m ≤ 59) :
    parseLiteralTime sep (clockText sep h m) =
      if 0 ≤ h ∧ h ≤ 23 ∧ 0 ≤ m then .ok (h * 60 + m, []) else .error .badTime := by
  by_cases h0 : 0 ≤ h
  swap
  · rw [if_neg fun hx => h0 hx.1, parseLiteralTime, clockText, digitNext_padInt_neg (by omega)]
    rfl
  have hsepNext : timeSepNext sep (sep :: (padInt 2 m).toList) = some (padInt 2 m).toList := by
    simp [timeSepNext]
  by_cases m0 : 0 ≤ m
  swap
  · have hminus : digitNext (padInt 2 m).toList = false := by
      rw [← List.append_nil (padInt 2 m).toList]
      exact digitNext_padInt_neg (by omega)
    rw [if_neg fun hx => m0 hx.2.2, parseLiteralTime, clockText, digitNext_padInt h0,
      readDigits_padInt h0 hh (digitNext_sep .timeSep hsep)]
    simp only [hsepNext, hminus]
    rfl
  have hdigit : digitNext (padInt 2 m).toList = true := by
    rw [← List.append_nil (padInt 2 m).toList]
    exact digitNext_padInt m0
  have hmin : readDigits 0 (padInt 2 m).toList = (m, []) := by
    rw [← List.append_nil (padInt 2 m).toList]
    exact readDigits_padInt m0 (by unfold intMax; omega) rfl
  rw [parseLiteralTime, clockText, digitNext_padInt h0,
    readDigits_padInt h0 hh (digitNext_sep .timeSep hsep)]
  simp only [hsepNext, hdigit, hmin, readAmPm, amPmHour, Bool.not_true, Bool.false_eq_true,
    if_false]
  by_cases h23 : h ≤ 23
  · have hin : InInt (h * 60) ∧ InInt (h * 60 + m) := by
      simp only [Lib.inInt_iff]
      omega
    rw [if_neg (by omega), if_pos ⟨h0, h23, m0⟩, Lib.wrap_of_inInt hin.1, Lib.wrap_of_inInt hin.2]
  · rw [if_pos (by omega), if_neg fun hx => h23 hx.2.1]

end Times

/-! ### Dates -/

section Dates

variable {c : TextConfig} {rest : List Char} {x : Ymd} {n : ℤ}

theorem dateOK_iff {y m d : ℤ} : dateOK y m d = true ↔ Valid y m d ∧ y ≤ baseYr + yrRange := by
  simp only [dateOK, Bool.not_eq_true', Bool.or_eq_false_iff, decide_eq_false_iff_not]
  constructor
  · rintro ⟨⟨⟨⟨⟨h1, h2⟩, h3⟩, h4⟩, h5⟩, h6⟩
    exact ⟨⟨by omega, by omega, by omega, by omega, by omega⟩, by omega⟩
  · rintro ⟨⟨h1, h2, h3, h4, h5⟩, h6⟩
    exact ⟨⟨⟨⟨⟨by omega, by omega⟩, by omega⟩, by omega⟩, by omega⟩, by omega⟩

theorem timeSepNext_dateSep (hc : SepsInForce c) : timeSepNext c.timeSep (c.dateSep :: rest) = none := by
  obtain ⟨ht, hd, -⟩ := hc.mem
  have hall : ∀ t ∈ SepVar.timeSep.texts, ∀ d ∈ SepVar.dateSep.texts, ¬ (d = ':' ∨ d = '.' ∨ d = t) := by
    simp [SepVar.texts]
  rw [timeSepNext, if_neg (hall _ ht _ hd)]

theorem dateSepNext_sep (h : digitNext rest = true) :
    dateSepNext c.dateSep (c.dateSep :: rest) = some rest := by
  rw [dateSepNext, if_pos ⟨Or.inr (Or.inr rfl), h⟩]

/-- A year outside the range of `DateOK` is never read as a date, whatever follows. -/
theorem parseLiteralDateOrTime_badYear (hc : SepsInForce c) (hy : n ≤ intMax)
    (hbad : n < baseYr ∨ baseYr + yrRange < n) :
    parseLiteralDateOrTime c.literalSeps ((padInt 4 n).toList ++ c.dateSep :: rest) =
      .error .badDate := by
  have hsep : digitNext (c.dateSep :: rest) = false := digitNext_sep .dateSep hc.mem.2.1
  have hnot : ∀ m d, dateOK n m d = false := by
    intro m d
    rw [← Bool.not_eq_true, dateOK_iff]
    rintro ⟨hv, hy⟩
    have := hv.year
    omega
  by_cases h0 : 0 ≤ n
  · simp only [parseLiteralDateOrTime, digitNext_padInt h0, readDigits_padInt h0 hy hsep,
      TextConfig.literalSeps, timeSepNext_dateSep hc, hnot, Bool.not_true, Bool.false_eq_true,
      Option.isSome_none, if_false]
    cases dateSepNext c.dateSep (c.dateSep :: rest) with
    | none => rfl
    | some s =>
      simp only
      cases dateSepNext c.dateSep (readDigits 0 s).2 <;> rfl
  · rw [parseLiteralDateOrTime, digitNext_padInt_neg (by omega)]
    rfl

/-- The date of a text is read where `DateOK` admits it; what follows is the time. -/
theorem parseLiteralDateOrTime_dateText (hc : SepsInForce c) (hx : dateOK x.y x.m x.d = true)
    (hrest : digitNext rest = false) :
    parseLiteralDateOrTime c.literalSeps ((dateText c x).toList ++ rest) =
      match literalTimePart c.timeSep rest with
      | .error r => .error r
      | .ok (tim, s) => .ok (some (dse x.y x.m x.d), tim, s) := by
  obtain ⟨⟨hy0, hm0, hm11, hd0, hd1⟩, hy1⟩ := dateOK_iff.mp hx
  have hlen := (daysInMonth_bounds hm0 hm11 x.y).2
  have hmax : (5990 : ℤ) ≤ intMax := by decide
  rw [show baseYr = 1990 from rfl] at hy0 hy1
  rw [show yrRange = 4000 from rfl] at hy1
  have hsep : ∀ s, digitNext (c.dateSep :: s) = false :=
    fun s => digitNext_sep .dateSep hc.mem.2.1
  have hmonth : wrap (x.m + 1 - 1) = x.m := by
    rw [Int.add_sub_cancel, Lib.wrap_of_inInt (by rw [Lib.inInt_iff]; omega)]
  have htext : (dateText c x).toList ++ rest = (padInt 4 x.y).toList ++ c.dateSep ::
      ((padInt 2 (x.m + 1)).toList ++ c.dateSep :: ((padInt 2 x.d).toList ++ rest)) := by
    simp [dateText]
  have hy : readDigits 0 ((padInt 4 x.y).toList ++ c.dateSep ::
      ((padInt 2 (x.m + 1)).toList ++ c.dateSep :: ((padInt 2 x.d).toList ++ rest))) = (x.y, _) :=
    readDigits_padInt (by omega) (by omega) (hsep _)
  have hm : readDigits 0 ((padInt 2 (x.m + 1)).toList ++ c.dateSep ::
      ((padInt 2 x.d).toList ++ rest)) = (x.m + 1, _) :=
    readDigits_padInt (by omega) (by omega) (hsep _)
  have hd : readDigits 0 ((padInt 2 x.d).toList ++ rest) = (x.d, rest) :=
    readDigits_padInt (by omega) (by omega) hrest
  rw [htext, parseLiteralDateOrTime, digitNext_padInt (by omega), hy]
  cases ht : literalTimePart c.timeSep rest <;> simp only [TextConfig.literalSeps,
    timeSepNext_dateSep hc, hm, hd, hmonth, hx,
    dateSepNext_sep (digitNext_padInt (show 0 ≤ x.m + 1 by omega)),
    dateSepNext_sep (digitNext_padInt (show 0 ≤ x.d by omega)), Bool.not_true, Bool.false_eq_true,
    Option.isSome_none, if_false, if_true, ht]

/-- The loop over years ends before the year of a start that lies after the day. -/
theorem yearLoop_year (n y t : ℤ) :
    (yearLoop n y t).1 ≤ y ∧ (n < t → (yearLoop n y t).1 ≤ y - 1) := by
  have hstep : ∀ s : ℤ × ℤ, (s = (y, t) ∨ s.1 ≤ y - 1) → decide (s.2 > n) = true →
      ((s.1 - 1, s.2 - daysInYear (s.1 - 1)) = (y, t) ∨ s.1 - 1 ≤ y - 1) ∧
        (s.2 - daysInYear (s.1 - 1) - n).toNat < (s.2 - n).toNat := by
    intro s hI hc
    obtain ⟨hlo, hhi⟩ := daysInYear_bounds (s.1 - 1)
    simp only [gt_iff_lt, decide_eq_true_eq] at hc
    refine ⟨Or.inr ?_, by omega⟩
    rcases hI with rfl | hI
    · exact le_rfl
    · omega
  obtain ⟨r, hr, hI, hc⟩ := Lib.whileFuel_total (c := fun s : ℤ × ℤ => decide (s.2 > n))
    (f := fun s => (s.1 - 1, s.2 - daysInYear (s.1 - 1))) (fun s => s = (y, t) ∨ s.1 ≤ y - 1)
    (fun s => (s.2 - n).toNat) hstep (n := (t - n).toNat + 1) (s := (y, t)) (Or.inl rfl) (by simp)
  unfold yearLoop
  rw [hr]
  simp only [gt_iff_lt, decide_eq_false_iff_not, not_lt] at hc
  rcases hI with rfl | hI
  · exact ⟨le_rfl, fun h => absurd hc (not_le.mpr h)⟩
  · exact ⟨by simp only [Option.getD_some]; omega, fun _ => hI⟩

/-- A day before 1990 has a year before 1990. -/
theorem fromDSE_year_neg (hn : n < 0) : (fromDSE n).y < baseYr := by
  obtain ⟨hle, hlt⟩ := yearLoop_year n (n.tdiv 365 + baseYr) (yearStart (n.tdiv 365 + baseYr))
  obtain ⟨h1, h2, -, h4⟩ := tdiv_bounds n (show (0 : ℤ) < 365 by decide)
  have he : (fromDSE n).y =
      (yearLoop n (n.tdiv 365 + baseYr) (yearStart (n.tdiv 365 + baseYr))).1 := rfl
  rw [he]
  by_cases h0 : n.tdiv 365 = 0
  · rw [h0] at hlt ⊢
    have := hlt (by rw [show yearStart (0 + baseYr) = 0 from rfl]; exact hn)
    omega
  · omega

/-- The last day of the last year that `DateOK` admits. -/
def lastDate : ℤ := dse 5990 11 31

theorem fromDSE_year_le (hn : 0 ≤ n) : (fromDSE n).y ≤ baseYr + yrRange ↔ n ≤ lastDate := by
  obtain ⟨hv, hd⟩ := fromDSE_spec hn
  have hlast : Valid 5990 11 31 := by constructor <;> decide
  have hlen := (daysInMonth_bounds hv.monthLo hv.monthHi (fromDSE n).y).2
  have hm := hv.monthHi
  have hday := hv.dayHi
  rw [show baseYr + yrRange = 5990 from rfl]
  constructor
  · intro hy
    by_cases hb : (fromDSE n).Before ⟨5990, 11, 31⟩
    · have hlt := dse_lt hv hlast hb
      rw [hd] at hlt
      exact le_of_lt hlt
    · -- in 5990 only 31 December is not before 31 December
      unfold Ymd.Before at hb
      simp only at hb
      have he : (fromDSE n).y = 5990 ∧ (fromDSE n).m = 11 ∧ (fromDSE n).d = 31 := by omega
      rw [he.1, he.2.1, he.2.2] at hd
      exact le_of_eq hd.symm
  · intro hle
    by_contra hgt
    have hlt := dse_lt (a := ⟨5990, 11, 31⟩) hlast hv (Or.inl (not_le.mp hgt))
    rw [hd] at hlt
    exact absurd hle (not_le.mpr hlt)

theorem fromDSE_year_inInt (hn : InInt n) : (fromDSE n).y ≤ intMax := by
  obtain ⟨hle, -⟩ := yearLoop_year n (n.tdiv 365 + baseYr) (yearStart (n.tdiv 365 + baseYr))
  obtain ⟨-, h2, h3, h4⟩ := tdiv_bounds n (show (0 : ℤ) < 365 by decide)
  have he : (fromDSE n).y =
      (yearLoop n (n.tdiv 365 + baseYr) (yearStart (n.tdiv 365 + baseYr))).1 := rfl
  rw [Lib.inInt_iff] at hn
  rw [he]
  simp only [show baseYr = 1990 from rfl, show intMax = 2147483647 from rfl] at *
  omega

end Dates

/-! ### Values as text and back -/

/-- The value coerced to STRING and back to its type is the same value. -/
def ReadsBack (c : TextConfig) (v : Value) : Prop :=
  ∃ w, (doCoerce c .str v).val = .ok w ∧ (doCoerce c v.type w).val = .ok v

/-- The number in a value is an `int`. -/
def Value.InRange : Value → Prop
  | .int n | .time n | .date n | .datetime n => InInt n
  | .str _ => True

/-- The values whose texts the readers admit. -/
def Value.Readable : Value → Prop
  | .time n => 0 ≤ n ∧ n < minutesPerDay
  | .date n => 0 ≤ n ∧ n ≤ lastDate
  | .datetime n => 0 ≤ n ∧ n < (lastDate + 1) * minutesPerDay
  | .int _ => True
  | .str _ => True

section ReadsBack

variable {c : TextConfig} {n : ℤ}

theorem readsBack_iff {v : Value} :
    ReadsBack c v ↔ (doCoerce c v.type (.str (coerceString c v).val)).val = .ok v := by
  unfold ReadsBack
  constructor
  · rintro ⟨w, hw, h⟩
    rw [← Except.ok.inj hw] at h
    exact h
  · exact fun h => ⟨_, rfl, h⟩

theorem readsBack_int (hn : InInt n) : ReadsBack c (.int n) := by
  rw [readsBack_iff]
  rw [Lib.inInt_iff] at hn
  show (coerceStringToInt (toString n).toList).map Value.int = .ok (.int n)
  have hdigits : ∀ k : ℕ, ∀ ch ∈ Nat.toDigits 10 k, ch.isDigit = true :=
    fun k ch hch => Nat.isDigit_of_mem_toDigits (by omega) (by omega) hch
  rw [Int.toString_eq_repr, Int.repr_eq_if]
  by_cases h0 : 0 ≤ n
  · rw [if_pos h0, Nat.toList_repr, coerceStringToInt_digits (hdigits _), decimalValue_toDigits,
      Int.toNat_of_nonneg h0, Lib.wrap_of_inInt (by rw [Lib.inInt_iff]; omega)]
    rfl
  · have hmax : -n ≤ intMax + 1 := by unfold intMax; omega
    rw [if_neg h0, String.toList_append, Nat.toList_repr]
    show (coerceStringToInt ('-' :: Nat.toDigits 10 (-n).toNat)).map Value.int = .ok (.int n)
    rw [coerceStringToInt_minus (hdigits _), decimalValue_toDigits,
      Int.toNat_of_nonneg (by omega), (wrap_neg_iff (by omega)).mpr hmax, Int.neg_neg]
    rfl

theorem readsBack_time_iff (hc : SepsInForce c) (hn : InInt n) :
    ReadsBack c (.time n) ↔ 0 ≤ n ∧ n < minutesPerDay := by
  obtain ⟨-, -, hdiv, hmod⟩ := timeParts_inInt hn
  obtain ⟨-, hm, h0⟩ := tmod_bounds n (show (0 : ℤ) < 60 by decide)
  have htext : (coerceString c (.time n)).val.toList =
      clockText c.timeSep (n.tdiv 60) (n.tmod 60) := by
    simp [coerceString, clockText, Lib.wrap_of_inInt hdiv, Lib.wrap_of_inInt hmod]
  have hsum : n.tdiv 60 * 60 + n.tmod 60 = n := Int.tdiv_mul_add_tmod n 60
  have hiff : (0 ≤ n.tdiv 60 ∧ n.tdiv 60 ≤ 23 ∧ 0 ≤ n.tmod 60) ↔ 0 ≤ n ∧ n < minutesPerDay := by
    unfold minutesPerDay
    omega
  rw [Lib.inInt_iff] at hdiv
  rw [readsBack_iff, ← hiff]
  simp only [doCoerce, Value.type, coerceToTime, htext,
    parseLiteralTime_clockText hc.mem.1 (show n.tdiv 60 ≤ intMax by unfold intMax; omega)
      (show n.tmod 60 ≤ 59 by omega), hsum]
  by_cases h : 0 ≤ n.tdiv 60 ∧ n.tdiv 60 ≤ 23 ∧ 0 ≤ n.tmod 60
  · simp only [if_pos h]
    exact ⟨fun _ => h, fun _ => rfl⟩
  · simp only [if_neg h]
    exact ⟨fun hx => (by cases hx), fun hx => absurd hx h⟩

/-- The text of a day that `DateOK` does not admit is not read, whatever follows the year. -/
theorem parseLiteralDateOrTime_badDay {rest : List Char} (hc : SepsInForce c) (hn : InInt n)
    (hbad : ¬ (0 ≤ n ∧ n ≤ lastDate)) :
    parseLiteralDateOrTime c.literalSeps ((dateText c (fromDSE n)).toList ++ rest) =
      .error .badDate := by
  have hyear : (fromDSE n).y < baseYr ∨ baseYr + yrRange < (fromDSE n).y := by
    by_cases h0 : 0 ≤ n
    · exact Or.inr (not_le.mp fun hy => hbad ⟨h0, (fromDSE_year_le h0).mp hy⟩)
    · exact Or.inl (fromDSE_year_neg (not_le.mp h0))
  have htext : (dateText c (fromDSE n)).toList ++ rest =
      (padInt 4 (fromDSE n).y).toList ++ c.dateSep :: ((padInt 2 ((fromDSE n).m + 1)).toList ++
        c.dateSep :: ((padInt 2 (fromDSE n).d).toList ++ rest)) := by
    simp [dateText]
  rw [htext]
  exact parseLiteralDateOrTime_badYear hc (fromDSE_year_inInt hn) hyear

theorem dateOK_fromDSE (h0 : 0 ≤ n) (h1 : n ≤ lastDate) :
    dateOK (fromDSE n).y (fromDSE n).m (fromDSE n).d = true :=
  dateOK_iff.mpr ⟨(fromDSE_spec h0).1, (fromDSE_year_le h0).mpr h1⟩

theorem readsBack_date_iff (hc : SepsInForce c) (hn : InInt n) :
    ReadsBack c (.date n) ↔ 0 ≤ n ∧ n ≤ lastDate := by
  have htext : (coerceString c (.date n)).val.toList =
      (dateText c (fromDSE n)).toList ++ [] := (List.append_nil _).symm
  rw [readsBack_iff]
  simp only [doCoerce, Value.type, coerceToDate, htext]
  by_cases h : 0 ≤ n ∧ n ≤ lastDate
  · rw [parseLiteralDateOrTime_dateText hc (dateOK_fromDSE h.1 h.2) rfl]
    simp only [literalTimePart, (fromDSE_spec h.1).2]
    exact ⟨fun _ => h, fun _ => rfl⟩
  · rw [parseLiteralDateOrTime_badDay hc hn h]
    exact ⟨nofun, fun hx => absurd hx h⟩

theorem literalTimePart_sep {sep ch : Char} {s : List Char} (h : ch ∈ SepVar.dateTimeSep.texts) :
    literalTimePart sep (ch :: s) =
      match parseLiteralTime sep s with
      | .error r => .error r
      | .ok (tim, s) => .ok (some tim, s) := by
  have hall : ∀ ch ∈ SepVar.dateTimeSep.texts, ch = ' ' ∨ ch = '@' ∨ ch = 'T' ∨ ch = 't' := by
    simp [SepVar.texts]
  unfold literalTimePart
  exact if_pos (hall ch h)

theorem readsBack_datetime_iff (hc : SepsInForce c) (hn : InInt n) :
    ReadsBack c (.datetime n) ↔ 0 ≤ n ∧ n < (lastDate + 1) * minutesPerDay := by
  obtain ⟨hday, hrest, -, -⟩ := timeParts_inInt hn
  obtain ⟨-, -, hdiv, hmod⟩ := timeParts_inInt hrest
  have htext : (coerceString c (.datetime n)).val.toList =
      (dateText c (fromDSE (n.tdiv minutesPerDay))).toList ++ c.dateTimeSep ::
        clockText c.timeSep ((n.tmod minutesPerDay).tdiv 60) ((n.tmod minutesPerDay).tmod 60) := by
    simp only [coerceString, Lib.Traced.val_bind, Lib.Traced.val_cint, Lib.Traced.val_pure,
      Lib.wrap_of_inInt hday, Lib.wrap_of_inInt hrest, Lib.wrap_of_inInt hdiv,
      Lib.wrap_of_inInt hmod]
    simp [clockText, fromDSETraced]
  obtain ⟨-, hk, hk0⟩ := tmod_bounds n (show (0 : ℤ) < minutesPerDay by decide)
  obtain ⟨-, hm, hm0⟩ := tmod_bounds (n.tmod minutesPerDay) (show (0 : ℤ) < 60 by decide)
  have hsum : n.tdiv minutesPerDay * minutesPerDay + n.tmod minutesPerDay = n :=
    Int.tdiv_mul_add_tmod n minutesPerDay
  have hclock : (n.tmod minutesPerDay).tdiv 60 * 60 + (n.tmod minutesPerDay).tmod 60 =
      n.tmod minutesPerDay := Int.tdiv_mul_add_tmod _ 60
  generalize hi : n.tdiv minutesPerDay = i at *
  generalize hk' : n.tmod minutesPerDay = k at *
  rw [show minutesPerDay = 1440 from rfl] at *
  rw [readsBack_iff]
  simp only [doCoerce, Value.type, coerceToDatetime, htext]
  by_cases h : 0 ≤ i ∧ i ≤ lastDate
  · rw [parseLiteralDateOrTime_dateText hc (dateOK_fromDSE h.1 h.2)
      (digitNext_sep .dateTimeSep hc.mem.2.2)]
    simp only [literalTimePart_sep hc.mem.2.2, (fromDSE_spec h.1).2,
      parseLiteralTime_clockText hc.mem.1 (show k.tdiv 60 ≤ intMax by
        rw [Lib.inInt_iff] at hdiv; unfold intMax; omega) (show k.tmod 60 ≤ 59 by omega), hclock]
    by_cases hkn : 0 ≤ k.tdiv 60 ∧ k.tdiv 60 ≤ 23 ∧ 0 ≤ k.tmod 60
    · have hin : InInt (i * 1440) := by rw [Lib.inInt_iff] at hn ⊢; omega
      simp only [if_pos hkn, show minutesPerDay = 1440 from rfl, Lib.Traced.val_bind,
        Lib.Traced.val_cint, Lib.Traced.val_pure, Option.getD_some, Lib.wrap_of_inInt hin, hsum,
        Lib.wrap_of_inInt hn, true_iff]
      omega
    · simp only [if_neg hkn]
      refine ⟨fun hx => (by cases hx), fun hx => absurd ?_ hkn⟩
      have := hk0 hx.1
      have := hm0 this
      omega
  · rw [parseLiteralDateOrTime_badDay hc hday h]
    refine ⟨fun hx => (by cases hx), fun hx => absurd ?_ h⟩
    have := hk0 hx.1
    omega

/-- **Value to text and back**: with any separators that can be in force, a value is the same after
it was coerced to STRING and back if and only if it is an INT, a TIME of a day, or a DATE or DATETIME
from 1990 to 5990. -/
theorem coerce_readsBack_iff {v : Value} (hc : SepsInForce c) (hv : v.InRange) :
    ReadsBack c v ↔ v.Readable := by
  cases v with
  | int n => exact iff_of_true (readsBack_int hv) trivial
  | time n => exact readsBack_time_iff hc hv
  | date n => exact readsBack_date_iff hc hv
  | datetime n => exact readsBack_datetime_iff hc hv
  | str s => exact iff_of_true ⟨.str s, rfl, rfl⟩ trivial

theorem coerce_readsBack_noon :
    ReadsBack (setSep (setSep {} .timeSep (.str ".")) .dateTimeSep (.str "T")) (.datetime 720) ↔
      (Value.datetime 720).Readable :=
  coerce_readsBack_iff (.set _ _ (.set _ _ (.start 65535)))
    (show InInt 720 by rw [Lib.inInt_iff]; omega)

/-- `coerce("DATE", coerce("STRING", '5990-12-31' + 1))`: the sum is a DATE, and its text is not. -/
theorem dayAfterLastDate_notRead :
    setConstantValue {} "'5990-12-31'".toList = .ok (.date lastDate) ∧
      (addValues {} (.date lastDate) (.int 1)).val = .ok (.date (lastDate + 1)) ∧
      (doCoerce {} .str (.date (lastDate + 1))).val = .ok (.str "5991-01-01") ∧
      (doCoerce {} .date (.str "5991-01-01")).val = .error .cantCoerce ∧
      ¬ ReadsBack {} (.date (lastDate + 1)) := by
  have hprint : (doCoerce {} .str (.date (lastDate + 1))).val = .ok (.str "5991-01-01") := by
    decide +kernel
  have hread : (doCoerce {} .date (.str "5991-01-01")).val = .error .cantCoerce := by
    decide +kernel
  refine ⟨by decide +kernel, by decide +kernel, hprint, hread, ?_⟩
  rintro ⟨w, hw, h⟩
  rw [hprint] at hw
  rw [← Except.ok.inj hw] at h
  exact nomatch hread.symm.trans h

end ReadsBack

end Remind
