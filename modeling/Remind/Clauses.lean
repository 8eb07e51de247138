import Remind.Lib.Wp
import Remind.ParseRem

/-!
# Clauses — what a reminder line consists of

A line is a list of clauses and the word that begins its body.  Where one clause ends and the next
begins does not depend on what the clauses before have stored: `ParseRem` fills in the trigger
clause by clause.
-/

namespace Remind

/-- A word of an AT clause. -/
inductive TimeItem where
  | time (v : ℤ)
  | delta (v : ℤ)
  | rep (v : ℤ)
  deriving DecidableEq

/-- A clause with all that its words say.  `timeTrig` begins with a time or with AT. -/
inductive Clause where
  | todo
  | «in»
  | ordinal (v : ℤ)
  | date (v : ℤ)
  | dateTime (v : ℤ)
  | wkDay (v : Fin 7)
  | month (v : ℤ)
  | maybeUncomputable
  | skip (v : SkipRule)
  | maxOverdue (v : ℤ)
  | priority (v : ℤ)
  | timeTrig (start : Option ℤ) (items : List TimeItem)
  | scanfrom (type : ScanType) (d : ScanDate)
  | through (dse : ℤ)
  | completeThrough (dse : ℤ)
  | «until» (dse : ℤ)
  | year (v : ℤ)
  | day (v : ℤ)
  | rep (v : ℤ)
  | delta (v : ℤ)
  | back (v : ℤ)
  | backAdj (v : ℤ)
  | once
  | addOmit
  | noQueue
  | omit (wds : List (Fin 7))
  | omitFunc (name : String)
  | warn (name : String)
  | tz (name : String)
  | info (s : List Char)
  | tag (s : List Char)
  | duration (v : ℤ)
  | sched (name : String)
  deriving DecidableEq

/-- How the clauses end: with a type (and the word behind SPECIAL), at the end of the line, at a word
that is no clause, or at the word behind MAX-OVERDUE that is no token. -/
inductive BodyStart where
  | remType (v : RemType) (passthru : List Char)
  | empty
  | implicit
  | stopped
  deriving DecidableEq

inductive LineItem where
  | clause (c : Clause)
  | body (b : BodyStart)
  deriving DecidableEq

/-! ### What the words say -/

section Read

variable {σ : Type} (w : RemConfig σ) (n : ℕ)

/-- The words of an AT clause. -/
def readTimeItems : ℕ → PtrM σ (List TimeItem)
  | 0 => throw .diverges
  | k + 1 => do
    let (tok, buf) ← nextToken w n
    match tok with
    | .num (.time v) => return .time v :: (← readTimeItems k)
    | .num (.delta v) => return .delta v :: (← readTimeItems k)
    | .num (.rep v) => return .rep v :: (← readTimeItems k)
    | .num (.illegal (some r)) => throw r
    | _ =>
      pushBack buf
      return []

/-- The words of an OMIT clause. -/
def readLocalOmit : ℕ → PtrM σ (List (Fin 7))
  | 0 => throw .diverges
  | k + 1 => do
    let (tok, buf) ← nextToken w n
    match tok with
    | .wkDay v => return v :: (← readLocalOmit k)
    | _ =>
      pushBack buf
      return []

/-- A FROM or SCANFROM clause. -/
def readScanFrom (type : ScanType) : PtrM σ Clause := do
  match ← scanFromLoop w n type n {} with
  | .date dse => return .scanfrom type (.date dse)
  | .back v =>
    markNonconst
    return .scanfrom type (.back v)

/-- The clause that a token begins, and the other words of it. -/
def readItem (tok : RemToken) (buf : List Char) : PtrM σ LineItem := do
  match tok with
  | .todo => return .clause .todo
  | .in => return .clause .in
  | .ordinal v => return .clause (.ordinal v)
  | .num (.date v) => return .clause (.date v)
  | .num (.dateTime v) => return .clause (.dateTime v)
  | .wkDay v => return .clause (.wkDay v)
  | .month v => return .clause (.month v)
  | .maybeUncomputable => return .clause .maybeUncomputable
  | .skip v => return .clause (.skip v)
  | .maxOverdue =>
    match (← nextToken w n).1 with
    | .num (.illegal (some r)) => throw r
    | .num (.illegal none) => return .body .stopped
    | .num (.day v) => return .clause (.maxOverdue v)
    | .num (.year v) => return .clause (.maxOverdue v)
    | .num (.number v) => return .clause (.maxOverdue v)
    | _ => throw .expectingNumber
  | .priority =>
    return .clause (.priority (← fromExcept (parsePriority (← parseToken w.toPasteEnv n))))
  | .num (.time v) => return .clause (.timeTrig (some v) (← readTimeItems w n n))
  | .«at» => return .clause (.timeTrig none (← readTimeItems w n n))
  | .scanfrom type => return .clause (← readScanFrom w n type)
  | .remType v =>
    if (← get).ptr.nested.isSome then throw .cantNestRtype
    else if v = .passthru then return .body (.remType v (← parseToken w.toPasteEnv n))
    else return .body (.remType v [])
  | .through => return .clause (.through (← getFullDate w n))
  | .completeThrough => return .clause (.completeThrough (← getFullDate w n))
  | .until => return .clause (.until (← getFullDate w n))
  | .num (.number _) => throw .parseErr
  | .num (.year v) => return .clause (.year v)
  | .num (.day v) => return .clause (.day v)
  | .num (.rep v) => return .clause (.rep v)
  | .num (.delta v) => return .clause (.delta v)
  | .num (.back v) => return .clause (.back v)
  | .num (.backAdj v) => return .clause (.backAdj v)
  | .once => return .clause .once
  | .addOmit => return .clause .addOmit
  | .noQueue => return .clause .noQueue
  | .omit => return .clause (.omit (← readLocalOmit w n n))
  | .empty => return .body .empty
  | .omitFunc =>
    let buf ← parseToken w.toPasteEnv n
    markNonconst
    return .clause (.omitFunc (funcName buf))
  | .warn => return .clause (.warn (funcName (← parseToken w.toPasteEnv n)))
  | .tz => return .clause (.tz (String.ofList (← parseTokenOrQuotedString w n)))
  | .info => return .clause (.info (← parseQuotedString w.toPasteEnv n))
  | .tag => return .clause (.tag (← parseToken w.toPasteEnv n))
  | .duration =>
    match durationVal (← nextToken w n).1 with
    | some v => return .clause (.duration v)
    | none => throw .badTime
  | .sched => return .clause (.sched (funcName (← parseToken w.toPasteEnv n)))
  | .num (.longTime _) => throw .badTime
  | .num (.illegal (some r)) => throw r
  | _ =>
    pushBack buf
    if (← get).ptr.nested.isSome then throw .cantNestRtype
    else return .body .implicit

/-- The clauses of a line, up to the body. -/
def readLine : ℕ → PtrM σ (List Clause × BodyStart)
  | 0 => throw .diverges
  | k + 1 => do
    let (tok, buf) ← nextToken w n
    match ← readItem w n tok buf with
    | .clause c =>
      let (cs, b) ← readLine k
      return (c :: cs, b)
    | .body b => return ([], b)

end Read

/-! ### What a clause stores -/

/-- The words of an AT clause, one after the other; there has to be a time in the end. -/
def applyTimeItems : List TimeItem → Bool → TimeTrig → Except ErrCode TimeTrig
  | [], _, tim => if tim.ttime = none then .error .expectTime else .ok tim
  | .time v :: items, seenDelta, tim =>
    if tim.ttime ≠ none then .error .timeTwice
    else applyTimeItems items seenDelta
      { tim with ttime := storedTime v, ttimeOrig := storedTime v }
  | .delta v :: items, seenDelta, tim =>
    if seenDelta then .error .deltaTwice
    else applyTimeItems items true { tim with delta := if v ≥ 0 then v else Lib.wrap (-v) }
  | .rep v :: items, seenDelta, tim =>
    if tim.rep ≠ 0 then .error .repTwice else applyTimeItems items seenDelta { tim with rep := v }

/-- The weekdays of an OMIT clause; there has to be one in the end. -/
def applyLocalOmit : List (Fin 7) → WdSet → Except ErrCode WdSet
  | [], localomit => if localomit = 0 then .error .expectingWeekday else .ok localomit
  | v :: wds, localomit => applyLocalOmit wds (localomit ||| BitVec.twoPow 7 v)

/-- What `ParseRem` does with a clause. -/
def Clause.apply (p : ParsedRem) : Clause → Except ErrCode ParsedRem
  | .todo => if p.trig.isTodo then .error .todoTwice else .ok { p with trig.isTodo := true }
  | .in => .ok p
  | .ordinal v =>
    if p.trig.d ≠ none then .error .dayTwice
    else if v < 0 then
      if p.trig.back ≠ 0 then .error .backTwice
      else .ok { p with
        trig.back := -7, trig.d := some 1, adjForLast := true, needWkday := true }
    else .ok { p with trig.d := some (1 + 7 * v), needWkday := true }
  | .date v =>
    match dateTwice p.trig with
    | some r => .error r
    | none => .ok { p with trig := p.trig.setDate v }
  | .dateTime v =>
    match dateTwice p.trig with
    | some r => .error r
    | none => .ok { p with
        trig := p.trig.setDate (v.tdiv minutesPerDay)
        tim.ttime := some (v.tmod minutesPerDay)
        tim.ttimeOrig := some (v.tmod minutesPerDay) }
  | .wkDay v =>
    if p.trig.wd.getLsbD v then .error .wdTwice
    else .ok { p with trig.wd := p.trig.wd ||| BitVec.twoPow 7 v }
  | .month v => if p.trig.m ≠ none then .error .monTwice else .ok { p with trig.m := some v }
  | .maybeUncomputable => .ok { p with trig.maybeUncomputable := true }
  | .skip v => if p.trig.skip ≠ .noSkip then .error .skipErr else .ok { p with trig.skip := v }
  | .maxOverdue v =>
    if p.trig.maxOverdue ≠ none then .error .maxOverdueTwice
    else if v < 0 then .error .tooLow
    else .ok { p with trig.maxOverdue := some v }
  | .priority v => .ok { p with priority := v }
  | .timeTrig (some v) items =>
    if p.tim.ttime ≠ none then .error .timeTwice
    else
      match applyTimeItems items false
        { p.tim with ttime := storedTime v, ttimeOrig := storedTime v } with
      | .error r => .error r
      | .ok tim => .ok (ParsedRem.setDurationDays { p with tim := tim })
  | .timeTrig none items =>
    match applyTimeItems items false p.tim with
    | .error r => .error r
    | .ok tim => .ok (ParsedRem.setDurationDays { p with tim := tim })
  | .scanfrom type d =>
    if p.trig.scanfrom ≠ none ∨ p.trig.fromDate ≠ none then .error .scanTwice
    else
      match d with
      | .date dse =>
        if type = .from then .ok { p with trig.fromDate := some dse }
        else .ok { p with trig.scanfrom := some dse }
      | .back v => .ok { p with trig.scanfrom := some v, nonconstExpr := true }
  | .through dse =>
    if p.trig.rep ≠ 0 then .error .repTwice
    else if p.trig.untilDate ≠ none then .error .untilTwice
    else .ok { p with trig.rep := 1, trig.untilDate := some dse }
  | .completeThrough dse =>
    if p.trig.completeThrough ≠ none then .error .completeThroughTwice
    else .ok { p with trig.completeThrough := some dse }
  | .until dse =>
    if p.trig.untilDate ≠ none then .error .untilTwice
    else .ok { p with trig.untilDate := some dse }
  | .year v => if p.trig.y ≠ none then .error .yrTwice else .ok { p with trig.y := some v }
  | .day v => if p.trig.d ≠ none then .error .dayTwice else .ok { p with trig.d := some v }
  | .rep v => if p.trig.rep ≠ 0 then .error .repTwice else .ok { p with trig.rep := v }
  | .delta v =>
    if p.seenDelta then .error .deltaTwice
    else .ok { p with trig.delta := v, seenDelta := true }
  | .back v => if p.trig.back ≠ 0 then .error .backTwice else .ok { p with trig.back := v }
  | .backAdj v =>
    if p.trig.back ≠ 0 then .error .backTwice
    else if p.trig.d ≠ none then .error .dayTwice
    else .ok { p with trig.back := v, trig.d := some 1, adjForLast := true }
  | .once => if p.trig.once then .error .onceTwice else .ok { p with trig.once := true }
  | .addOmit => .ok { p with trig.addomit := true }
  | .noQueue => .ok { p with trig.noqueue := true }
  | .omit wds =>
    match applyLocalOmit wds p.trig.localomit with
    | .error r => .error r
    | .ok localomit => .ok { p with trig.localomit := localomit }
  | .omitFunc name => .ok { p with trig.omitfunc := name, nonconstExpr := true }
  | .warn name => .ok { p with trig.warn := name }
  | .tz name =>
    if p.trig.tz ≠ none then .error .tzSpecifiedTwice else .ok { p with trig.tz := some name }
  | .info s =>
    match appendTrigInfo p.infos s with
    | .error r => .error r
    | .ok infos => .ok { p with infos := infos }
  | .tag s => if ',' ∈ s then .error .parseErr else .ok { p with tags := appendTag p.tags s }
  | .duration v => .ok (ParsedRem.setDurationDays { p with tim.duration := storedDuration v })
  | .sched name => .ok { p with trig.sched := name }

/-- What `ParseRem` does where the clauses end. -/
def BodyStart.apply (p : ParsedRem) : BodyStart → Except ErrCode RemNext
  | .remType v buf =>
    if v = .passthru then
      if buf = [] then .error .eoln
      else
        let t := { p.trig with typ := v, passthru := String.ofList (strnCpy buf passthruLen) }
        .ok (.parsed { p with trig := fixSpecialType t })
    else
      let t := { p.trig with typ := v }
      .ok (.parsed { p with trig := fixSpecialType t })
  | .empty => .ok (.parsed p)
  | .implicit => .ok (.parsed { p with trig.typ := .msg })
  | .stopped =>
    if p.trig.maxOverdue ≠ none then .error .maxOverdueTwice else .ok (.returned p)

def LineItem.apply (p : ParsedRem) : LineItem → Except ErrCode RemNext
  | .clause c => (c.apply p).map .parsing
  | .body b => b.apply p

section Steps

open Lib (OkEq okEq_throw okEq_throw_bind)

variable {σ : Type} {w : RemConfig σ} {n : ℕ}

theorem timeTrigLoop_okEq (k : ℕ) (seenDelta : Bool) (tim : TimeTrig) :
    OkEq (timeTrigLoop w n k seenDelta tim)
      (readTimeItems w n k >>= fun items => fromExcept (applyTimeItems items seenDelta tim)) := by
  induction k generalizing seenDelta tim with
  | zero =>
    unfold timeTrigLoop readTimeItems
    exact okEq_throw_bind _ _ _
  | succ k ih =>
    unfold timeTrigLoop readTimeItems
    rw [bind_assoc]
    refine .bind (.refl _) fun ⟨tok, buf⟩ => ?_
    have hend : OkEq (if tim.ttime = none then throw .expectTime else do pushBack buf; return tim)
        ((do pushBack buf; return []) >>= fun items =>
          (fromExcept (applyTimeItems items seenDelta tim) : PtrM σ _)) := by
      rw [bind_assoc]
      simp only [pure_bind, applyTimeItems]
      by_cases htime : tim.ttime = none
      · rw [if_pos htime, if_pos htime]
        exact okEq_throw _ _ _
      · rw [if_neg htime, if_neg htime]
        exact .refl _
    cases tok with
    | num t =>
      cases t with
      | time v =>
        dsimp only
        rw [bind_assoc]
        simp only [pure_bind, applyTimeItems]
        split_ifs
        · exact okEq_throw _ _ _
        · exact ih _ _
      | delta v =>
        dsimp only
        rw [bind_assoc]
        simp only [pure_bind, applyTimeItems]
        split_ifs
        all_goals first | exact okEq_throw _ _ _ | exact ih _ _
      | rep v =>
        dsimp only
        rw [bind_assoc]
        simp only [pure_bind, applyTimeItems]
        split_ifs
        · exact okEq_throw _ _ _
        · exact ih _ _
      | illegal r =>
        cases r with
        | none => exact hend
        | some r => exact okEq_throw_bind _ _ _
      | _ => exact hend
    | _ => exact hend

theorem localOmitLoop_okEq (k : ℕ) (localomit : WdSet) :
    OkEq (localOmitLoop w n k localomit)
      (readLocalOmit w n k >>= fun wds => fromExcept (applyLocalOmit wds localomit)) := by
  induction k generalizing localomit with
  | zero =>
    unfold localOmitLoop readLocalOmit
    exact okEq_throw_bind _ _ _
  | succ k ih =>
    unfold localOmitLoop readLocalOmit
    rw [bind_assoc]
    refine .bind (.refl _) fun ⟨tok, buf⟩ => ?_
    have hend : OkEq (if localomit = 0 then throw .expectingWeekday
          else do pushBack buf; return localomit)
        ((do pushBack buf; return []) >>= fun wds =>
          (fromExcept (applyLocalOmit wds localomit) : PtrM σ _)) := by
      rw [bind_assoc]
      simp only [pure_bind, applyLocalOmit]
      by_cases hnone : localomit = 0
      · rw [if_pos hnone, if_pos hnone]
        exact okEq_throw _ _ _
      · rw [if_neg hnone, if_neg hnone]
        exact .refl _
    cases tok with
    | wkDay v =>
      dsimp only
      rw [bind_assoc]
      simp only [pure_bind, applyLocalOmit]
      exact ih _
    | _ => exact hend

/-- A clause of one word. -/
theorem okEq_word {x : PtrM σ RemNext} {it : LineItem} {p : ParsedRem}
    (hx : x = fromExcept (it.apply p)) :
    OkEq x (pure it >>= fun it => fromExcept (it.apply p)) := by
  rw [pure_bind, hx]
  exact .refl _

/-- A clause that may be refused before its words are read. -/
theorem okEq_check {α β : Type} {c : Prop} [Decidable c] {x : PtrM σ β} {y : PtrM σ α}
    {f : α → Except ErrCode β} {r : ErrCode} (hrefused : c → ∀ a, f a = .error r)
    (hx : ¬ c → OkEq x (y >>= fun a => fromExcept (f a))) :
    OkEq (if c then throw r else x) (y >>= fun a => fromExcept (f a)) := by
  by_cases hc : c
  · rw [if_pos hc]
    simp only [hrefused hc]
    exact okEq_throw _ _ _
  · rw [if_neg hc]
    exact hx hc

/-- A clause that is stored once its words are read. -/
theorem okEq_read {α : Type} {x : PtrM σ RemNext} {read : PtrM σ α} {f : α → LineItem}
    {p : ParsedRem} (hx : OkEq x (read >>= fun a => fromExcept ((f a).apply p))) :
    OkEq x ((read >>= fun a => pure (f a)) >>= fun it => fromExcept (it.apply p)) := by
  rw [bind_assoc]
  simp only [pure_bind]
  exact hx

/-- A computation whose value is used in the end. -/
theorem okEq_map {α β γ : Type} {x : PtrM σ β} {y : PtrM σ α} {f : α → Except ErrCode β}
    (g : β → γ) (h : OkEq x (y >>= fun a => fromExcept (f a))) :
    OkEq (x >>= fun b => pure (g b)) (y >>= fun a => fromExcept ((f a).map g)) := by
  have hmap : (fun a => fromExcept ((f a).map g)) = fun a =>
      ((fromExcept (f a) : PtrM σ _) >>= fun b => pure (g b)) := by
    funext a
    cases f a <;> rfl
  rw [hmap, ← bind_assoc]
  exact h.bind fun _ => .refl _

theorem parseUntil_okEq (p : ParsedRem) :
    OkEq (parseUntil w n p)
      (getFullDate w n >>= fun dse => fromExcept ((Clause.until dse).apply p)) := by
  refine okEq_check (fun htwice dse => if_pos htwice) fun htwice => ?_
  simp only [Clause.apply, if_neg htwice]
  exact .refl _

theorem parseScanFrom_okEq (type : ScanType) (p : ParsedRem) :
    OkEq (parseScanFrom w n type p)
      (readScanFrom w n type >>= fun c => fromExcept (c.apply p)) := by
  have hbad : (p.trig.scanfrom ≠ none ∨ p.trig.fromDate ≠ none) → ∀ d,
      (Clause.scanfrom type d).apply p = .error .scanTwice := fun htwice d => if_pos htwice
  unfold parseScanFrom readScanFrom
  rw [bind_assoc]
  by_cases htwice : p.trig.scanfrom ≠ none ∨ p.trig.fromDate ≠ none
  · rw [if_pos htwice]
    intro s a s'
    refine ⟨nofun, fun h => ?_⟩
    obtain ⟨d, t, -, h⟩ := Lib.bind_eq_ok h
    cases d with
    | date dse =>
      rw [pure_bind, hbad htwice] at h
      cases h
    | back v =>
      rw [bind_assoc] at h
      obtain ⟨_, t', -, h⟩ := Lib.bind_eq_ok h
      rw [pure_bind, hbad htwice] at h
      cases h
  · rw [if_neg htwice]
    refine .bind (.refl _) fun d => ?_
    cases d with
    | date dse =>
      rw [pure_bind]
      simp only [Clause.apply, if_neg htwice]
      by_cases htype : type = .from
      · simp only [if_pos htype]
        exact .refl _
      · simp only [if_neg htype]
        exact .refl _
    | back v =>
      rw [bind_assoc]
      refine .bind (.refl _) fun _ => ?_
      rw [pure_bind]
      simp only [Clause.apply, if_neg htwice]
      exact .refl _

theorem maxOverdue_okEq (buf : List Char) (p : ParsedRem) :
    OkEq (remClause w n .maxOverdue buf p)
      (readItem w n .maxOverdue buf >>= fun it => fromExcept (it.apply p)) := by
  unfold remClause readItem
  dsimp only
  rw [bind_assoc]
  by_cases htwice : p.trig.maxOverdue ≠ none
  · rw [if_pos htwice]
    have hbad : ∀ v, LineItem.apply p (.clause (.maxOverdue v)) = .error .maxOverdueTwice := by
      intro v
      simp only [LineItem.apply, Clause.apply, if_pos htwice]
      rfl
    have hstop : LineItem.apply p (.body .stopped) = .error .maxOverdueTwice := if_pos htwice
    intro s a s'
    refine ⟨nofun, fun h => ?_⟩
    obtain ⟨⟨tok, _⟩, t, -, h⟩ := Lib.bind_eq_ok h
    cases tok with
    | num t =>
      cases t with
      | illegal r =>
        cases r with
        | none =>
          dsimp only at h
          rw [pure_bind, hstop] at h
          cases h
        | some r => cases h
      | day v =>
        dsimp only at h
        rw [pure_bind, hbad v] at h
        cases h
      | year v =>
        dsimp only at h
        rw [pure_bind, hbad v] at h
        cases h
      | number v =>
        dsimp only at h
        rw [pure_bind, hbad v] at h
        cases h
      | _ => cases h
    | _ => cases h
  · rw [if_neg htwice]
    have hval : ∀ v, OkEq (remClause.maxOverdueVal p v)
        (pure (.clause (.maxOverdue v)) >>= fun it =>
          (fromExcept (LineItem.apply p it) : PtrM σ _)) := by
      intro v
      refine okEq_word ?_
      simp only [LineItem.apply, Clause.apply, if_neg htwice]
      unfold remClause.maxOverdueVal
      split_ifs <;> rfl
    have hstop : OkEq (pure (.returned p) : PtrM σ _)
        (pure (.body .stopped) >>= fun it => (fromExcept (LineItem.apply p it) : PtrM σ _)) := by
      refine okEq_word ?_
      simp only [LineItem.apply, BodyStart.apply, if_neg htwice]
      rfl
    refine .bind (.refl _) fun ⟨tok, _⟩ => ?_
    cases tok with
    | num t =>
      cases t with
      | illegal r =>
        cases r with
        | none => exact hstop
        | some r => exact okEq_throw_bind _ _ _
      | day v => exact hval v
      | year v => exact hval v
      | number v => exact hval v
      | _ => exact okEq_throw_bind _ _ _
    | _ => exact okEq_throw_bind _ _ _

/-- `ParseRem` reads a clause and stores what it says. -/
theorem remClause_okEq (tok : RemToken) (buf : List Char) (p : ParsedRem) :
    OkEq (remClause w n tok buf p)
      (readItem w n tok buf >>= fun it => fromExcept (it.apply p)) := by
  have hend : OkEq (do
        pushBack buf
        if (← get).ptr.nested.isSome then throw .cantNestRtype
        else return RemNext.parsed { p with trig.typ := .msg })
      ((do
        pushBack buf
        if (← get).ptr.nested.isSome then throw .cantNestRtype
        else return .body .implicit) >>= fun it =>
          (fromExcept (LineItem.apply p it) : PtrM σ _)) := by
    rw [bind_assoc]
    refine .bind (.refl _) fun _ => ?_
    rw [bind_assoc]
    refine .bind (.refl _) fun s => ?_
    split_ifs
    · exact okEq_throw_bind _ _ _
    · exact .refl _
  cases tok with
  | maxOverdue => exact maxOverdue_okEq buf p
  | priority =>
    unfold remClause readItem
    simp only [bind_assoc, pure_bind]
    exact .refl _
  | «at» =>
    refine okEq_read (f := fun items => .clause (.timeTrig none items)) ?_
    have happly : ∀ items, LineItem.apply p (.clause (.timeTrig none items)) =
        (applyTimeItems items false p.tim).map fun tim =>
          .parsing (ParsedRem.setDurationDays { p with tim := tim }) := by
      intro items
      dsimp only [LineItem.apply, Clause.apply]
      cases applyTimeItems items false p.tim <;> rfl
    simp only [happly]
    exact okEq_map _ (timeTrigLoop_okEq n false p.tim)
  | scanfrom type => exact okEq_read (okEq_map _ (parseScanFrom_okEq type p))
  | remType v =>
    unfold remClause readItem
    rw [bind_assoc]
    refine .bind (.refl _) fun s => ?_
    split_ifs
    · exact okEq_throw_bind _ _ _
    · refine okEq_read (f := fun buf => .body (.remType v buf)) (.bind (.refl _) fun buf => ?_)
      simp only [LineItem.apply, BodyStart.apply, if_pos ‹v = .passthru›]
      split_ifs <;> exact .refl _
    · refine okEq_word ?_
      simp only [LineItem.apply, BodyStart.apply, if_neg ‹v ≠ .passthru›]
      rfl
  | through =>
    refine okEq_read (f := fun dse => .clause (.through dse)) ?_
    refine okEq_check (fun htwice dse => ?_) fun htwice => ?_
    · simp only [LineItem.apply, Clause.apply, if_pos htwice]
      rfl
    · simp only [LineItem.apply, Clause.apply, if_neg htwice]
      exact okEq_map _ (parseUntil_okEq _)
  | completeThrough =>
    refine okEq_read (f := fun dse => .clause (.completeThrough dse)) ?_
    refine okEq_check (fun htwice dse => ?_) fun htwice => ?_
    · simp only [LineItem.apply, Clause.apply, if_pos htwice]
      rfl
    · simp only [LineItem.apply, Clause.apply, if_neg htwice]
      exact .refl _
  | «until» => exact okEq_read (okEq_map _ (parseUntil_okEq p))
  | «omit» =>
    refine okEq_read (f := fun wds => .clause (.omit wds)) ?_
    have happly : ∀ wds, LineItem.apply p (.clause (.omit wds)) =
        (applyLocalOmit wds p.trig.localomit).map fun localomit =>
          .parsing { p with trig.localomit := localomit } := by
      intro wds
      dsimp only [LineItem.apply, Clause.apply]
      cases applyLocalOmit wds p.trig.localomit <;> rfl
    simp only [happly]
    exact okEq_map _ (localOmitLoop_okEq n p.trig.localomit)
  | omitFunc =>
    unfold remClause readItem
    simp only [bind_assoc, pure_bind]
    exact .refl _
  | warn => exact okEq_read (.refl _)
  | tz =>
    refine okEq_read (f := fun buf => .clause (.tz (String.ofList buf))) ?_
    refine okEq_check (fun htwice buf => ?_) fun htwice => ?_
    · simp only [LineItem.apply, Clause.apply, if_pos htwice]
      rfl
    · simp only [LineItem.apply, Clause.apply, if_neg htwice]
      exact .refl _
  | info =>
    refine okEq_read (f := fun buf => .clause (.info buf)) (.bind (.refl _) fun buf => ?_)
    dsimp only [LineItem.apply, Clause.apply]
    cases appendTrigInfo p.infos buf with
    | error r => exact .refl _
    | ok infos => exact .refl _
  | tag =>
    refine okEq_read (f := fun buf => .clause (.tag buf)) (.bind (.refl _) fun buf => ?_)
    dsimp only [LineItem.apply, Clause.apply]
    split_ifs <;> exact .refl _
  | duration =>
    unfold remClause readItem
    rw [bind_assoc]
    refine .bind (.refl _) fun ⟨tok, _⟩ => ?_
    dsimp only
    cases durationVal tok with
    | none => exact okEq_throw_bind _ _ _
    | some v => exact .refl _
  | sched => exact okEq_read (.refl _)
  | num t =>
    cases t with
    | illegal r =>
      cases r with
      | none => exact hend
      | some r => exact okEq_throw_bind _ _ _
    | number v => exact okEq_throw_bind _ _ _
    | longTime v => exact okEq_throw_bind _ _ _
    | time v =>
      refine okEq_read (f := fun items => .clause (.timeTrig (some v) items)) ?_
      refine okEq_check (fun htwice items => ?_) fun htwice => ?_
      · simp only [LineItem.apply, Clause.apply, if_pos htwice]
        rfl
      · have happly : ∀ items, LineItem.apply p (.clause (.timeTrig (some v) items)) =
            (applyTimeItems items false
                { p.tim with ttime := storedTime v, ttimeOrig := storedTime v }).map fun tim =>
              .parsing (ParsedRem.setDurationDays { p with tim := tim }) := by
          intro items
          simp only [LineItem.apply, Clause.apply, if_neg htwice]
          cases applyTimeItems items false
            { p.tim with ttime := storedTime v, ttimeOrig := storedTime v } <;> rfl
        simp only [happly]
        exact okEq_map _ (timeTrigLoop_okEq n false _)
    | date v =>
      refine okEq_word ?_
      unfold remClause
      dsimp only [LineItem.apply, Clause.apply]
      cases dateTwice p.trig <;> rfl
    | dateTime v =>
      refine okEq_word ?_
      unfold remClause
      dsimp only [LineItem.apply, Clause.apply]
      cases dateTwice p.trig <;> rfl
    | _ =>
      refine okEq_word ?_
      unfold remClause
      dsimp only [LineItem.apply, Clause.apply]
      split_ifs <;> rfl
  | empty => exact okEq_word rfl
  | «in» => exact okEq_word rfl
  | addOmit => exact okEq_word rfl
  | noQueue => exact okEq_word rfl
  | maybeUncomputable => exact okEq_word rfl
  | _ =>
    first
    | exact hend
    | refine okEq_word ?_
      unfold remClause
      dsimp only [LineItem.apply, Clause.apply]
      split_ifs <;> rfl

/-! ### The clauses of a line -/

/-- What is done where the loop ends. -/
def RemNext.finish (ptr : ParserPtr) : RemNext → Except ErrCode ParsedRem
  | .parsing p => .ok p
  | .parsed p => finishRem ptr p
  | .returned p => .ok p

/-- The trigger that the clauses and the beginning of the body make. -/
def fillRem (cs : List Clause) (b : BodyStart) (ptr : ParserPtr) (p : ParsedRem) :
    Except ErrCode ParsedRem := do
  let p ← cs.foldlM Clause.apply p
  (← b.apply p).finish ptr

theorem fromExcept_eq_ok {α : Type} {x : Except ErrCode α} {a : α} {s s' : PtrState σ} :
    (fromExcept x : PtrM σ α) s = .ok a s' ↔ x = .ok a ∧ s' = s := by
  cases x with
  | error r => exact ⟨nofun, nofun⟩
  | ok b =>
    constructor
    · rintro ⟨⟩
      exact ⟨rfl, rfl⟩
    · rintro ⟨⟨⟩, rfl⟩
      rfl

theorem BodyStart.apply_ne_parsing {b : BodyStart} {p p' : ParsedRem} :
    b.apply p ≠ .ok (.parsing p') := by
  intro h
  cases b with
  | remType v buf =>
    dsimp only [BodyStart.apply] at h
    split_ifs at h
    all_goals cases h
  | empty => cases h
  | implicit => cases h
  | stopped =>
    dsimp only [BodyStart.apply] at h
    split_ifs at h
    cases h

theorem fillRem_cons {c : Clause} {cs : List Clause} {b : BodyStart} {ptr : ParserPtr}
    {p p' : ParsedRem} (h : c.apply p = .ok p') :
    fillRem (c :: cs) b ptr p = fillRem cs b ptr p' := by
  unfold fillRem
  rw [List.foldlM_cons, h]
  rfl

theorem fillRem_refused {c : Clause} {cs : List Clause} {b : BodyStart} {ptr : ParserPtr}
    {p : ParsedRem} {r : ErrCode} (h : c.apply p = .error r) :
    fillRem (c :: cs) b ptr p = .error r := by
  unfold fillRem
  rw [List.foldlM_cons, h]
  rfl

/-- The trigger that a line makes. -/
def fillFrom (p : ParsedRem) (line : List Clause × BodyStart) : PtrM σ ParsedRem := do
  fromExcept (fillRem line.1 line.2 (← get).ptr p)

/-- The loop of `ParseRem` reads the line clause by clause. -/
theorem remLoop_okEq (k : ℕ) (p : ParsedRem) :
    OkEq (remLoop w n k p) (readLine w n k >>= fillFrom p) := by
  induction k generalizing p with
  | zero =>
    unfold remLoop readLine
    exact okEq_throw_bind _ _ _
  | succ k ih =>
    unfold remLoop readLine
    rw [bind_assoc]
    refine .bind (.refl _) fun ⟨tok, buf⟩ => ?_
    dsimp only
    refine ((remClause_okEq tok buf p).bind fun _ => .refl _).trans ?_
    rw [bind_assoc, bind_assoc]
    refine .bind (.refl _) fun it => ?_
    cases it with
    | clause c =>
      dsimp only [LineItem.apply]
      rw [bind_assoc]
      simp only [pure_bind]
      cases hc : c.apply p with
      | error r =>
        have hfill : ∀ line : List Clause × BodyStart,
            fillFrom (σ := σ) p (c :: line.1, line.2) = (get >>= fun _ => throw r) := by
          intro line
          unfold fillFrom
          simp only [fillRem_refused hc]
          rfl
        simp only [hfill]
        rw [← bind_assoc]
        exact okEq_throw r r _
      | ok p' =>
        have hfill : ∀ line : List Clause × BodyStart,
            fillFrom (σ := σ) p (c :: line.1, line.2) = fillFrom p' line := by
          intro line
          unfold fillFrom
          simp only [fillRem_cons hc]
        simp only [hfill]
        exact ih p'
    | body b =>
      rw [pure_bind]
      unfold fillFrom fillRem
      dsimp only [LineItem.apply, List.foldlM_nil]
      simp only [pure_bind]
      cases hb : b.apply p with
      | error r => exact okEq_throw r r get
      | ok nx =>
        cases nx with
        | parsing p' => exact (BodyStart.apply_ne_parsing hb).elim
        | parsed p' => exact .refl _
        | returned p' => exact fun s a s' => Iff.rfl

/-- **What `ParseRem` accepts**: a line of clauses that can all be stored. -/
theorem parseRem_eq_ok {r : ParsedRem} {s s' : PtrState σ} :
    parseRem w n s = .ok r s' ↔ ∃ cs b, readLine w n n s = .ok (cs, b) s' ∧
      fillRem cs b s'.ptr (initRem w) = .ok r := by
  unfold parseRem
  rw [remLoop_okEq n (initRem w) s r s', Lib.bind_eq_ok_iff]
  constructor
  · rintro ⟨⟨cs, b⟩, t, hread, hfill⟩
    obtain ⟨u, t', hget, hfill⟩ := Lib.bind_eq_ok hfill
    cases hget
    obtain ⟨hfill, rfl⟩ := fromExcept_eq_ok.mp hfill
    exact ⟨cs, b, hread, hfill⟩
  · rintro ⟨cs, b, hread, hfill⟩
    exact ⟨(cs, b), s', hread, fromExcept_eq_ok.mpr ⟨hfill, rfl⟩⟩

end Steps

end Remind
