import Remind.ClockText
import Remind.SubstPieces

/-!
# SubstOverrides — what a change of `subst_ampm` or `subst_ordinal` changes

Two runs of `DoSubst` with tables of functions that differ in one of the two overrides.  Their
worlds may differ in what nothing else looks at (`low`), and the expressions pasted into the body
are `clean`: they do not use the override.
-/

namespace Remind

open Lib

variable {σ : Type}

/-- The overrides that `DoSubst` asks before its loop. -/
inductive EarlyOverride where
  | ampm
  | ordinal

def EarlyOverride.name : EarlyOverride → String
  | .ampm => "subst_ampm"
  | .ordinal => "subst_ordinal"

/-- The sequences whose texts an override makes. -/
def EarlyOverride.sequences : EarlyOverride → List Char
  | .ampm => ['2', '@']
  | .ordinal => ['S', 'J', 'K', 'U', 'V']

/-- The call of a user function of one argument. -/
def askCall (name : String) (arg : ℤ) : String :=
  snprintf 256 (name ++ "(" ++ toString arg ++ ")")

/-- What a function of one argument says, if there is one; and the world behind it. -/
def SubstEnv.answer (w : SubstEnv σ) (name : String) (arg : ℤ) (world : σ) : Option String × σ :=
  if w.findUserFunc name = some 1 then
    match w.evalRunDisabled (askCall name arg) world with
    | (.ok val, world) => (some (snprintf 64 (coercedText w val)), world)
    | (.error _, world) => (none, world)
  else (none, world)

/-- What `subst_ampm` says of the time of the reminder, and of the current time. -/
def SubstEnv.ampm (w : SubstEnv σ) (a : SubstArgs) (world : σ) : Option String × σ :=
  w.answer "subst_ampm" ((trigMinutes w a).tdiv 60) world

def SubstEnv.campm (w : SubstEnv σ) (a : SubstArgs) (world : σ) : Option String × σ :=
  w.answer "subst_ampm" (w.minutesPastMidnight.tdiv 60) (w.ampm a world).2

/-- What `subst_ordinal` says of the day. -/
def SubstEnv.ordinal (w : SubstEnv σ) (a : SubstArgs) (world : σ) : Option String × σ :=
  w.answer "subst_ordinal" (fromDSE a.dse).d (w.campm a world).2

/-- The suffix of the day is what `subst_ordinal` says, or else the English one. -/
def OrdinalSuffix (w : SubstEnv σ) (a : SubstArgs) (s : PtrState σ) : Prop :=
  ∃ v s', substVars w a s = .ok v s' ∧
    v.plu = (w.ordinal a s.world).1.getD (ordinalSuffix v.d)

/-- Two pieces that are one but for the texts of the override. -/
def SamePiece (f : EarlyOverride) (p p' : SubstPiece) : Prop :=
  p.sequence = p'.sequence ∧ (p = p' ∨ ∃ c, p.sequence = some c ∧ upperChar c ∈ f.sequences)

/-- The law: both tables give the right suffix, and the texts differ in the sequences of the
override only. -/
structure IndependentOverride (f : EarlyOverride) (w w' : SubstEnv σ) (n : ℕ) (a : SubstArgs)
    (s : PtrState σ) : Prop where
  suffix : OrdinalSuffix w a s ∧ OrdinalSuffix w' a s
  pieces : AlikeOutcomes (fun _ _ => True) (List.Forall₂ (SamePiece f))
    (doSubstPieces w n a s) (doSubstPieces w' n a s)

/-- The last block leaves `plu` set: it asks `subst_ordinal`, or the block before it has failed. -/
def SubstEnv.SetsSuffix (w : SubstEnv σ) (a : SubstArgs) (world : σ) : Prop :=
  w.findUserFunc "subst_ordinal" = some 1 ∨ (w.campm a world).1 = none

/-- An expression that calls a user function of `DoSubst`. -/
def CallOf (name expr : String) : Prop :=
  (∃ arg, expr = askCall name arg) ∨ ∃ v altmode, expr = overrideCall v altmode name

/-- Tables that differ in an override, which nothing else uses. -/
structure DifferIn (f : EarlyOverride) (low : σ → σ → Prop) (clean : List Char → Prop)
    (w w' : SubstEnv σ) : Prop where
  rest : w' = { w with
    evalExpr := w'.evalExpr, evalRunDisabled := w'.evalRunDisabled,
    findUserFunc := w'.findUserFunc, stack := w'.stack }
  table : ∀ name, name ≠ f.name → w'.findUserFunc name = w.findUserFunc name
  /-- A function of three arguments would be one for `%{...}`. -/
  notNamed : w.findUserFunc f.name ≠ some 3 ∧ w'.findUserFunc f.name ≠ some 3
  own : ∀ arg x x', low x x' → low (w.evalRunDisabled (askCall f.name arg) x).2 x' ∧
    low x (w'.evalRunDisabled (askCall f.name arg) x').2
  calls : ∀ name expr x x', name ≠ f.name → CallOf name expr → low x x' →
    (w.evalRunDisabled expr x).1 = (w'.evalRunDisabled expr x').1 ∧
      low (w.evalRunDisabled expr x).2 (w'.evalRunDisabled expr x').2
  tail : ∀ c t, clean (c :: t) → clean t
  paste : ∀ t x x', clean t → low x x' →
    (w.evalExpr t x).1 = (w'.evalExpr t x').1 ∧ clean (w.evalExpr t x).1.2 ∧
      low (w.evalExpr t x).2 (w'.evalExpr t x').2

/-- Two states that the runs may be in. -/
structure AlikeStates (low : σ → σ → Prop) (clean : List Char → Prop) (s s' : PtrState σ) :
    Prop where
  ptr : s.ptr = s'.ptr
  world : low s.world s'.world
  body : clean s.ptr.pos

section Reading

variable {f : EarlyOverride} {low : σ → σ → Prop} {clean : List Char → Prop} {w w' : SubstEnv σ}

theorem DifferIn.dropWhile (h : DifferIn f low clean w w') (q : Char → Bool) {t : List Char}
    (ht : clean t) : clean (t.dropWhile q) := by
  induction t with
  | nil => exact ht
  | cons c t ih =>
    rw [List.dropWhile_cons]
    split
    · exact ih (h.tail _ _ ht)
    · exact ht

theorem DifferIn.text (h : DifferIn f low clean w w') : w'.text = w.text := by rw [h.rest]

theorem pasteExpr_lockstep (h : DifferIn f low clean w w') {pos : List Char} (hpos : clean pos) :
    Lockstep (AlikeStates low clean) Eq (pasteExpr w.toPasteEnv pos)
      (pasteExpr w'.toPasteEnv pos) := by
  rintro ⟨p, x⟩ ⟨_, x'⟩ ⟨hp, hlow, -⟩
  obtain rfl : p = _ := hp
  obtain ⟨hval, hclean, hlow'⟩ := h.paste pos x x' hpos hlow
  unfold pasteExpr
  rcases hrun : w.evalExpr pos x with ⟨⟨r, rest⟩, y⟩
  rcases hrun' : w'.evalExpr pos x' with ⟨outcome, y'⟩
  rw [hrun, hrun'] at hlow' hval
  rw [hrun] at hclean
  obtain rfl : (r, rest) = outcome := hval
  simp only [h.text]
  cases r with
  | error e => exact .error
  | ok val =>
    obtain ⟨val, nonconst⟩ := val
    have hrest := h.dropWhile isEmptyChar hclean
    dsimp only
    cases hdrop : rest.dropWhile isEmptyChar with
    | nil => exact .error
    | cons c t =>
      rw [hdrop] at hrest
      dsimp only
      split_ifs
      · exact .ok rfl ⟨rfl, hlow', h.tail _ _ hrest⟩
      · exact .error

theorem take_alike {s s' : PtrState σ} (hs : AlikeStates low clean s s') (peek : Bool) (c : Char)
    {p : ParserPtr} (hp : clean p.pos) :
    AlikeOutcomes (AlikeStates low clean) Eq (s.take peek c p) (s'.take peek c p) := by
  unfold PtrState.take
  refine .ok rfl ?_
  cases peek
  · exact ⟨rfl, hs.world, hp⟩
  · exact hs

theorem parseCharLoop_lockstep (h : DifferIn f low clean w w') (peek : Bool) (n : ℕ) :
    Lockstep (AlikeStates low clean) Eq (parseCharLoop w.toPasteEnv peek n)
      (parseCharLoop w'.toPasteEnv peek n) := by
  induction n with
  | zero => exact .of_throw _
  | succ n ih =>
    rintro ⟨p, x⟩ ⟨_, x'⟩ ⟨hp, hlow, hclean⟩
    obtain rfl : p = _ := hp
    rw [parseCharLoop, parseCharLoop]
    dsimp only at hclean ⊢
    split
    · have hs : AlikeStates low clean ⟨p, x⟩ ⟨p, x'⟩ := ⟨rfl, hlow, hclean⟩
      exact take_alike hs _ _ hclean
    · have hs : AlikeStates low clean ⟨{ p with nested := none }, x⟩
        ⟨{ p with nested := none }, x'⟩ := ⟨rfl, hlow, hclean⟩
      cases hpos : p.pos with
      | nil => exact .ok rfl (hpos ▸ hs)
      | cons c t =>
        have ht : clean t := h.tail c t (hpos ▸ hclean)
        dsimp only
        split_ifs
        · exact take_alike (hpos ▸ hs) _ _ ht
        · split
          · exact take_alike (hpos ▸ hs) _ _ (h.tail _ _ ht)
          · exact Lockstep.bind (pasteExpr_lockstep h ht) (fun _ _ _ => ih) _ _ (hpos ▸ hs)

theorem parseChar_lockstep (h : DifferIn f low clean w w') (peek : Bool) :
    Lockstep (AlikeStates low clean) Eq (parseChar w.toPasteEnv peek)
      (parseChar w'.toPasteEnv peek) := by
  intro s s' hs
  unfold parseChar
  rw [← hs.ptr]
  split
  · exact take_alike hs _ _ hs.body
  · exact parseCharLoop_lockstep h peek _ s s' hs

theorem readTo_lockstep (h : DifferIn f low clean w w') (close : Char) (n : ℕ) :
    Lockstep (AlikeStates low clean) Eq (readTo w close n) (readTo w' close n) := by
  induction n with
  | zero => exact .of_throw _
  | succ n ih =>
    rw [readTo, readTo]
    refine .bind (parseChar_lockstep h false) ?_
    rintro c _ rfl
    split
    · exact .of_pure rfl
    · refine .ite Iff.rfl (fun _ => .of_pure rfl) fun _ => .bind ih ?_
      rintro cs _ rfl
      exact .of_pure rfl

end Reading

/-! ### The user functions -/

section Asking

variable {f : EarlyOverride} {low : σ → σ → Prop} {clean : List Char → Prop} {w w' : SubstEnv σ}
  {a : SubstArgs}

theorem coercedText_same (h : DifferIn f low clean w w') : coercedText w' = coercedText w := by
  funext val
  rw [coercedText, coercedText, h.text]

theorem evalSubst_lockstep (h : DifferIn f low clean w w') {name expr : String}
    (hname : name ≠ f.name) (hcall : CallOf name expr) :
    Lockstep (AlikeStates low clean) Eq (evalSubst w expr) (evalSubst w' expr) := by
  rintro ⟨p, x⟩ ⟨_, x'⟩ ⟨hp, hlow, hclean⟩
  obtain rfl : p = _ := hp
  obtain ⟨hval, hlow'⟩ := h.calls name expr x x' hname hcall hlow
  exact .ok hval ⟨rfl, hlow', hclean⟩

theorem answer_same (h : DifferIn f low clean w w') {name : String} (hname : name ≠ f.name)
    (arg : ℤ) {x x' : σ} (hlow : low x x') :
    (w.answer name arg x).1 = (w'.answer name arg x').1 ∧
      low (w.answer name arg x).2 (w'.answer name arg x').2 := by
  obtain ⟨hval, hlow'⟩ := h.calls name _ x x' hname (.inl ⟨arg, rfl⟩) hlow
  unfold SubstEnv.answer
  rw [h.table name hname]
  by_cases hfunc : w.findUserFunc name = some 1
  · rw [if_pos hfunc, if_pos hfunc]
    rcases hrun : w.evalRunDisabled (askCall name arg) x with ⟨r, y⟩
    rcases hrun' : w'.evalRunDisabled (askCall name arg) x' with ⟨r', y'⟩
    rw [hrun, hrun'] at hval hlow'
    obtain rfl : r = r' := hval
    cases r with
    | ok val => exact ⟨by rw [coercedText_same h], hlow'⟩
    | error e => exact ⟨rfl, hlow'⟩
  · rw [if_neg hfunc, if_neg hfunc]
    exact ⟨rfl, hlow⟩

theorem answer_world (name : String) (arg : ℤ) (x : σ) :
    (w.answer name arg x).2 = if w.findUserFunc name = some 1 then
      (w.evalRunDisabled (askCall name arg) x).2 else x := by
  unfold SubstEnv.answer
  split_ifs
  · rcases w.evalRunDisabled (askCall name arg) x with ⟨r, y⟩
    cases r <;> rfl
  · rfl

/-- The override itself leaves the worlds alike. -/
theorem answer_own (h : DifferIn f low clean w w') (arg : ℤ) {x x' : σ} (hlow : low x x') :
    low (w.answer f.name arg x).2 (w'.answer f.name arg x').2 := by
  have hleft : low (w.answer f.name arg x).2 x' := by
    rw [answer_world]
    split_ifs
    · exact (h.own arg x x' hlow).1
    · exact hlow
  rw [answer_world (w := w')]
  split_ifs
  · exact (h.own arg _ x' hleft).2
  · exact hleft

theorem answer_low (h : DifferIn f low clean w w') (name : String) (arg : ℤ) {x x' : σ}
    (hlow : low x x') : low (w.answer name arg x).2 (w'.answer name arg x').2 := by
  by_cases hname : name = f.name
  · subst hname
    exact answer_own h arg hlow
  · exact (answer_same h hname arg hlow).2

/-- What `DoSubst` works out, but for the texts that the overrides make. -/
def SubstEnv.vars (w : SubstEnv σ) (a : SubstArgs) (pm cpm plu : String) : SubstVars where
  diff := a.dse - w.dseToday
  rdiff := a.dse - w.realToday
  curtime := w.minutesPastMidnight
  d := (fromDSE a.dse).d
  m := (fromDSE a.dse).m
  y := (fromDSE a.dse).y
  tim := trigMinutes w a
  h := (trigMinutes w a).tdiv 60
  min := (trigMinutes w a).tmod 60
  hh := if (trigMinutes w a).tdiv 60 = 12 ∨ (trigMinutes w a).tdiv 60 = 0 then 12
    else ((trigMinutes w a).tdiv 60).tmod 12
  pm
  ch := w.minutesPastMidnight.tdiv 60
  cmin := w.minutesPastMidnight.tmod 60
  chh := if w.minutesPastMidnight.tdiv 60 = 0 ∨ w.minutesPastMidnight.tdiv 60 = 12 then 12
    else (w.minutesPastMidnight.tdiv 60).tmod 12
  cpm
  plu
  dtDiff := (a.dse * minutesPerDay + trigMinutes w a) -
    (w.dseToday * minutesPerDay + w.minutesPastMidnight)

theorem DifferIn.vars (h : DifferIn f low clean w w') (pm cpm plu : String) :
    w'.vars a pm cpm plu = w.vars a pm cpm plu := by rw [h.rest]; rfl

/-- The half of the day where `subst_ampm` says nothing. -/
def SubstEnv.defaultHalf (w : SubstEnv σ) (a : SubstArgs) : String :=
  if (trigMinutes w a).tdiv 60 < 12 then w.tr "am" else w.tr "pm"

/-- What `plu` is behind its block. -/
def SubstEnv.suffix (w : SubstEnv σ) (a : SubstArgs) (world : σ) : String :=
  if w.findUserFunc "subst_ordinal" ≠ some 1 ∧ (w.campm a world).1.isSome then w.stack
  else (w.ordinal a world).1.getD (ordinalSuffix (fromDSE a.dse).d)

theorem askFunction_run (name : String) (arg : ℤ) (r : Bool) (s : PtrState σ) :
    askFunction w name arg r s = .ok
      (if w.findUserFunc name = some 1 then
        ((w.answer name arg s.world).1.isSome, (w.answer name arg s.world).1) else (r, none))
      { s with world := (w.answer name arg s.world).2 } := by
  unfold askFunction SubstEnv.answer
  split_ifs
  · show EStateM.bind (evalSubst w (askCall name arg)) _ s = _
    unfold EStateM.bind evalSubst
    rcases w.evalRunDisabled (askCall name arg) s.world with ⟨r, y⟩
    cases r <;> rfl
  · rfl

/-- A pointer behind its block; `r` is OK where the block before has left it so. -/
theorem blockText_ask (name : String) (arg : ℤ) (r : Bool) (x : σ) (default : String) :
    blockText w (if w.findUserFunc name = some 1 then
        ((w.answer name arg x).1.isSome, (w.answer name arg x).1) else (r, none)) default =
      if w.findUserFunc name ≠ some 1 ∧ r = true then w.stack
      else (w.answer name arg x).1.getD default := by
  by_cases hfunc : w.findUserFunc name = some 1
  · rw [if_pos hfunc, if_neg fun h => h.1 hfunc, blockText]
    cases (w.answer name arg x).1 <;> rfl
  · have hnone : (w.answer name arg x).1 = none := by rw [SubstEnv.answer, if_neg hfunc]
    rw [if_neg hfunc, hnone]
    cases r with
    | false =>
      rw [if_neg (c := _ ∧ _) fun h => Bool.false_ne_true h.2]
      rfl
    | true =>
      rw [if_pos (c := _ ∧ _) ⟨hfunc, rfl⟩]
      rfl

/-- `DoSubst` up to its loop. -/
theorem substVars_run (s : PtrState σ) :
    substVars w a s = .ok (w.vars a ((w.ampm a s.world).1.getD (w.defaultHalf a))
      ((w.campm a s.world).1.getD (w.defaultHalf a)) (w.suffix a s.world))
      { s with world := (w.ordinal a s.world).2 } := by
  refine (bind_ok (askFunction_run _ _ _ _)).trans ((bind_ok (askFunction_run _ _ _ _)).trans
    ((bind_ok (askFunction_run _ _ _ _)).trans ?_))
  refine congrArg (EStateM.Result.ok · _) ?_
  have hsome : ∀ (name : String) (arg : ℤ) (x : σ), (if w.findUserFunc name = some 1 then
      ((w.answer name arg x).1.isSome, (w.answer name arg x).1) else (false, none)).1 =
        (w.answer name arg x).1.isSome := by
    intro name arg x
    unfold SubstEnv.answer
    split_ifs <;> rfl
  simp only [blockText_ask, hsome, Bool.false_eq_true, and_false, if_false]
  rfl

theorem ordinalSuffix_iff (s : PtrState σ) :
    OrdinalSuffix w a s ↔
      w.suffix a s.world = (w.ordinal a s.world).1.getD (ordinalSuffix (fromDSE a.dse).d) := by
  constructor
  · rintro ⟨v, s', hv, hplu⟩
    cases (substVars_run s).symm.trans hv
    exact hplu
  · exact fun h => ⟨_, _, substVars_run s, h⟩

theorem suffix_of_setsSuffix {x : σ} (h : w.SetsSuffix a x) :
    w.suffix a x = (w.ordinal a x).1.getD (ordinalSuffix (fromDSE a.dse).d) := by
  rw [SubstEnv.suffix, if_neg]
  rintro ⟨hfunc, hsome⟩
  rcases h with h | h
  · exact hfunc h
  · rw [h] at hsome
    cases hsome

/-- Where `plu` is not set, some memory holds another suffix. -/
theorem setsSuffix_of_stacks {s : PtrState σ}
    (h : ∀ stack, OrdinalSuffix { w with stack } a s) : w.SetsSuffix a s.world := by
  by_contra hnot
  obtain ⟨hfunc, hsome⟩ := not_or.1 hnot
  have hstack : ∀ stack, stack = ordinalSuffix (fromDSE a.dse).d := by
    intro stack
    have hsuffix := (ordinalSuffix_iff s).1 (h stack)
    have hnone : (w.ordinal a s.world).1 = none := by
      rw [SubstEnv.ordinal, SubstEnv.answer, if_neg hfunc]
    have hleft : SubstEnv.suffix { w with stack } a s.world = stack :=
      if_pos ⟨hfunc, Option.isSome_iff_ne_none.2 hsome⟩
    rw [hleft] at hsuffix
    exact hsuffix.trans (congrArg (Option.getD · _) hnone)
  exact absurd ((hstack "").trans (hstack "st").symm) (by decide)

end Asking

/-! ### The rounds -/

section Rounds

variable {f : EarlyOverride} {low : σ → σ → Prop} {clean : List Char → Prop} {w w' : SubstEnv σ}
  {a : SubstArgs} {v v' : SubstVars} {b : SubstBuf}

/-- The variables that the runs work out. -/
def EarlyOverride.Apart (f : EarlyOverride) (v v' : SubstVars) : Prop :=
  match f with
  | .ampm => v' = { v with pm := v'.pm, cpm := v'.cpm }
  | .ordinal => v' = { v with plu := v'.plu }

theorem sequenceOutput_same (h : DifferIn f low clean w w') (hv : f.Apart v v') (altmode : Bool)
    {c : Char} (hc : upperChar c ∉ f.sequences) :
    sequenceOutput w' a v' altmode c = sequenceOutput w a v altmode c := by
  rw [h.rest]
  unfold sequenceOutput
  generalize upperChar c = u at hc
  cases f with
  | ampm =>
    obtain ⟨pm, cpm, rfl⟩ : ∃ pm cpm, v' = { v with pm, cpm } := ⟨_, _, hv⟩
    dsimp only
    split <;> first | rfl | exact absurd (by decide) hc
  | ordinal =>
    obtain ⟨plu, rfl⟩ : ∃ plu, v' = { v with plu } := ⟨_, hv⟩
    dsimp only
    split <;> first | rfl | exact absurd (by decide) hc

theorem overrideCall_same (hv : f.Apart v v') (altmode : Bool) (name : String) :
    overrideCall v' altmode name = overrideCall v altmode name := by
  cases f with
  | ampm =>
    obtain ⟨pm, cpm, rfl⟩ : ∃ pm cpm, v' = { v with pm, cpm } := ⟨_, _, hv⟩
    rfl
  | ordinal =>
    obtain ⟨plu, rfl⟩ : ∃ plu, v' = { v with plu } := ⟨_, hv⟩
    rfl

theorem diff_same (hv : f.Apart v v') : v'.diff = v.diff := by
  cases f with
  | ampm =>
    obtain ⟨pm, cpm, rfl⟩ : ∃ pm cpm, v' = { v with pm, cpm } := ⟨_, _, hv⟩
    rfl
  | ordinal =>
    obtain ⟨plu, rfl⟩ : ∃ plu, v' = { v with plu } := ⟨_, hv⟩
    rfl

/-- The function in place of a sequence is another. -/
theorem getFunctionOverride_ne {c : Char} {addx : Bool} {name : String}
    (h : getFunctionOverride c addx = some name) : name ≠ f.name := by
  have hlong : 10 ≤ f.name.length := by cases f <;> decide
  unfold getFunctionOverride at h
  dsimp only at h
  split at h
  · cases h
    intro heq
    rw [← heq] at hlong
    have hhead : "subst_".length = 6 := rfl
    have htail : (if addx = true then "x" else "").length ≤ 1 := by cases addx <;> decide
    simp only [String.length_append, Char.toString, String.length_singleton] at hlong
    omega
  · split at h <;> cases h
    all_goals cases addx <;> cases f <;> decide

theorem askOverride_lockstep (h : DifferIn f low clean w w') (hv : f.Apart v v') (altmode : Bool)
    {name : Option String} (hname : ∀ n, name = some n → n ≠ f.name) :
    Lockstep (AlikeStates low clean) Eq (askOverride w v altmode name b)
      (askOverride w' v' altmode name b) := by
  unfold askOverride
  cases name with
  | none => exact .of_pure rfl
  | some name =>
    have hne := hname name rfl
    dsimp only
    rw [overrideCall_same hv, h.table name hne, coercedText_same h]
    refine .ite Iff.rfl (fun _ => ?_) fun _ => .of_pure rfl
    refine .bind (evalSubst_lockstep h hne (.inr ⟨v, altmode, rfl⟩)) ?_
    rintro r _ rfl
    split <;> exact .of_pure rfl

theorem namedFunction_lockstep (h : DifferIn f low clean w w') (hv : f.Apart v v') (n : ℕ)
    (altmode : Bool) :
    Lockstep (AlikeStates low clean) Eq (namedFunction w n v altmode b)
      (namedFunction w' n v' altmode b) := by
  unfold namedFunction
  refine .bind (readTo_lockstep h '}' n) ?_
  rintro chars _ rfl
  generalize "subst_" ++ String.ofList ((chars.take 64).map Char.toLower) = name
  dsimp only
  by_cases hne : name = f.name
  · subst hne
    rw [if_neg h.notNamed.1, if_neg h.notNamed.2]
    exact .of_pure rfl
  · rw [overrideCall_same hv, h.table name hne, coercedText_same h]
    refine .ite Iff.rfl (fun _ => ?_) fun _ => .of_pure rfl
    refine .bind (evalSubst_lockstep h hne (.inr ⟨v, altmode, rfl⟩)) ?_
    rintro r _ rfl
    split <;> exact .of_pure rfl

/-- The texts of a sequence differ only where the override makes them. -/
theorem substSequence_lockstep (h : DifferIn f low clean w w') (hv : f.Apart v v') (altmode : Bool)
    (c : Char) :
    Lockstep (AlikeStates low clean) (fun x y => upperChar c ∈ f.sequences ∨ x = y)
      (substSequence w a v altmode c b) (substSequence w' a v' altmode c b) := by
  unfold substSequence
  refine .bind (askOverride_lockstep h hv altmode fun n => getFunctionOverride_ne) ?_
  rintro ⟨replaced, x⟩ _ rfl
  dsimp only
  have hnear : nearDay w' v'.diff = nearDay w v.diff := by
    rw [diff_same hv, h.rest]
    rfl
  rw [diff_same hv] at hnear ⊢
  rw [hnear]
  refine .ite Iff.rfl (fun _ => .of_pure (.inr rfl)) fun _ =>
    .ite Iff.rfl (fun _ => .of_pure (.inr rfl)) fun _ => ?_
  refine .bind (askOverride_lockstep h hv altmode fun n => getFunctionOverride_ne) ?_
  rintro ⟨replaced', y⟩ _ rfl
  refine .ite Iff.rfl (fun _ => .of_pure (.inr rfl)) fun _ => .of_pure ?_
  by_cases hc : upperChar c ∈ f.sequences
  · exact .inl hc
  · have hmarks : w'.dontSuppressQuoteMarkers = w.dontSuppressQuoteMarkers := by rw [h.rest]
    rw [putSequence, putSequence, sequenceOutput_same h hv altmode hc, hmarks]
    exact .inr rfl

/-- Two steps that are one, but for the buffer of a sequence of the override. -/
inductive AlikeSteps (f : EarlyOverride) (sequence : Option Char) : SubstStep → SubstStep → Prop
  | go {x y : SubstBuf} : ((∃ c, sequence = some c ∧ upperChar c ∈ f.sequences) ∨ x = y) →
      AlikeSteps f sequence (.go x) (.go y)
  | done {x : SubstBuf} : AlikeSteps f sequence (.done x) (.done x)

theorem peeked_sequenceAfter {c : Option Char} {s t : PtrState σ}
    (hc : parseChar w.toPasteEnv false s = .ok c t) :
    peeked (sequenceAfter w) s = peeked (match c with
      | some '*' => parseChar w.toPasteEnv false
      | c => pure c) t := peeked_bind hc

theorem peeked_sequenceRead {c : Option Char} {s t : PtrState σ}
    (hc : parseChar w.toPasteEnv false s = .ok c t) :
    peeked (sequenceRead w) s = peeked (match c with
      | some '%' => sequenceAfter w
      | _ => pure none) t := peeked_bind hc

theorem percentSequence_lockstep (h : DifferIn f low clean w w') (hv : f.Apart v v') (n : ℕ)
    {s s' : PtrState σ} (hs : AlikeStates low clean s s') :
    AlikeOutcomes (AlikeStates low clean) (AlikeSteps f (peeked (sequenceAfter w) s))
      (percentSequence w n a v b s) (percentSequence w' n a v' b s') := by
  have hnamed : ∀ altmode sequence, Lockstep (AlikeStates low clean) (AlikeSteps f sequence)
      (do return .go (← namedFunction w n v altmode b))
      (do return .go (← namedFunction w' n v' altmode b)) := by
    refine fun altmode sequence => .bind (namedFunction_lockstep h hv n altmode) ?_
    rintro x _ rfl
    exact .of_pure (.go (.inr rfl))
  have hseq : ∀ altmode c, Lockstep (AlikeStates low clean) (AlikeSteps f (some c))
      (do return .go (← substSequence w a v altmode c b))
      (do return .go (← substSequence w' a v' altmode c b)) := by
    refine fun altmode c => .bind (substSequence_lockstep h hv altmode c) fun x y hxy =>
      .of_pure (.go ?_)
    exact hxy.imp_left fun hc => ⟨c, rfl, hc⟩
  unfold percentSequence
  refine (parseChar_lockstep h false s s' hs).bind ?_
  rintro c _ t t' hc rfl ht
  have hpeek := peeked_sequenceAfter hc
  generalize peeked (sequenceAfter w) s = sequence at hpeek ⊢
  split
  · exact .ok AlikeSteps.done ht
  · refine Lockstep.bind (readTo_lockstep h '>' n) ?_ t t' ht
    rintro header _ rfl
    exact .of_pure (.go (.inr rfl))
  · have htr : w'.translated = w.translated := by rw [h.rest]
    rw [htr]
    refine Lockstep.bind (readTo_lockstep h ')' n) ?_ t t' ht
    rintro orig _ rfl
    exact .of_pure (.go (.inr rfl))
  · refine (parseChar_lockstep h false t t' ht).bind ?_
    rintro d _ u u' hd rfl hu
    have hstar : peeked (parseChar w.toPasteEnv false) t = d := by rw [peeked, hd]
    obtain rfl : sequence = d := hpeek.trans hstar
    split
    · exact .ok AlikeSteps.done hu
    · exact hnamed true _ u u' hu
    · exact hseq true _ u u' hu
  · exact hnamed false _ t t' ht
  · rename_i c _ _ hstar _
    have hchar : sequence = some c := by
      rw [hpeek]
      split
      · exact absurd (Option.some.inj ‹_›) hstar
      · rfl
    rw [hchar]
    exact hseq false c t t' ht

theorem substRound_lockstep (h : DifferIn f low clean w w') (hv : f.Apart v v') (n : ℕ)
    {s s' : PtrState σ} (hs : AlikeStates low clean s s') :
    AlikeOutcomes (AlikeStates low clean) (AlikeSteps f (peeked (sequenceRead w) s))
      (substRound w n a v b s) (substRound w' n a v' b s') := by
  unfold substRound
  refine (parseChar_lockstep h false s s' hs).bind ?_
  rintro c _ t t' hc rfl ht
  have hpeek := peeked_sequenceRead hc
  generalize peeked (sequenceRead w) s = sequence at hpeek ⊢
  split
  · have hblank : w'.addBlankLines = w.addBlankLines := by rw [h.rest]
    have hmsg : w'.msgCommand = w.msgCommand := by rw [h.rest]
    rw [hblank, hmsg]
    exact Lockstep.ite Iff.rfl (fun _ => .of_pure AlikeSteps.done)
      (fun _ => .of_pure AlikeSteps.done) t t' ht
  · exact .ok (.go (.inr rfl)) ht
  · rw [hpeek]
    exact percentSequence_lockstep h hv n ht
  · exact .ok (.go (.inr rfl)) ht

theorem sequenceRead_lockstep (h : DifferIn f low clean w w') :
    Lockstep (AlikeStates low clean) Eq (sequenceRead w) (sequenceRead w') := by
  unfold sequenceRead sequenceAfter
  refine .bind (parseChar_lockstep h false) ?_
  rintro c _ rfl
  split
  · refine .bind (parseChar_lockstep h false) ?_
    rintro d _ rfl
    split
    · exact parseChar_lockstep h false
    · exact .of_pure rfl
  · exact .of_pure rfl

theorem peeked_same {R : PtrState σ → PtrState σ → Prop} {x y : PtrM σ (Option Char)}
    (h : Lockstep R Eq x y) {s t : PtrState σ} (hst : R s t) : peeked x s = peeked y t := by
  have halike := h s t hst
  unfold peeked
  generalize x s = outcome at halike
  generalize y t = outcome' at halike
  cases halike with
  | ok hval => exact hval
  | error => rfl

theorem substPieces_lockstep (h : DifferIn f low clean w w') (hv : f.Apart v v') (n k : ℕ) :
    Lockstep (AlikeStates low clean) (List.Forall₂ (SamePiece f)) (substPieces w n a v k)
      (substPieces w' n a v' k) := by
  induction k with
  | zero => exact .of_throw _
  | succ k ih =>
    intro s s' hs
    have hpeek := peeked_same (sequenceRead_lockstep h) hs
    show AlikeOutcomes _ _ ((substRound w n a v ⟨[], "", false⟩ >>= _) s)
      ((substRound w' n a v' ⟨[], "", false⟩ >>= _) s')
    refine (substRound_lockstep h hv n hs).bind ?_
    rintro x y t t' - hxy ht
    cases hxy with
    | go hxy =>
      refine Lockstep.bind ih (fun ps ps' hps => .of_pure (.cons ⟨hpeek, ?_⟩ hps)) t t' ht
      rcases hxy with hown | rfl
      · exact .inr hown
      · rw [hpeek]
        exact .inl rfl
    | done =>
      refine .ok (.cons ⟨hpeek, ?_⟩ .nil) ht
      rw [hpeek]
      exact .inl rfl

theorem DifferIn.trigMinutes (h : DifferIn f low clean w w') :
    trigMinutes w' a = trigMinutes w a := by rw [h.rest]; rfl

theorem DifferIn.minutesPastMidnight (h : DifferIn f low clean w w') :
    w'.minutesPastMidnight = w.minutesPastMidnight := by rw [h.rest]

/-- The runs differ in the texts of the sequences of the override only. -/
theorem doSubstPieces_alike (h : DifferIn f low clean w w') (n : ℕ) {s : PtrState σ}
    (hlow : low s.world s.world) (hclean : clean s.ptr.pos) (hset : w.SetsSuffix a s.world)
    (hset' : w'.SetsSuffix a s.world) :
    AlikeOutcomes (fun _ _ => True) (List.Forall₂ (SamePiece f))
      (doSubstPieces w n a s) (doSubstPieces w' n a s) := by
  have hampm : low (w.ampm a s.world).2 (w'.ampm a s.world).2 := by
    rw [SubstEnv.ampm, SubstEnv.ampm, h.trigMinutes]
    exact answer_low h _ _ hlow
  have hcampm : low (w.campm a s.world).2 (w'.campm a s.world).2 := by
    rw [SubstEnv.campm, SubstEnv.campm, h.minutesPastMidnight]
    exact answer_low h _ _ hampm
  have hordinal : low (w.ordinal a s.world).2 (w'.ordinal a s.world).2 := answer_low h _ _ hcampm
  have hdefault : w'.defaultHalf a = w.defaultHalf a := by rw [h.rest]; rfl
  rw [doSubstPieces, doSubstPieces, bind_ok (substVars_run s), bind_ok (substVars_run s), h.vars,
    suffix_of_setsSuffix hset, suffix_of_setsSuffix hset', hdefault]
  have hs : AlikeStates low clean { s with world := (w.ordinal a s.world).2 }
    { s with world := (w'.ordinal a s.world).2 } := ⟨rfl, hordinal, hclean⟩
  refine (substPieces_lockstep h ?_ n n _ _ hs).mono (fun _ _ _ => trivial) fun _ _ => id
  cases f with
  | ampm =>
    have hne : "subst_ordinal" ≠ EarlyOverride.ampm.name := by decide
    have hsame := answer_same h hne (fromDSE a.dse).d hcampm
    rw [SubstEnv.ordinal, SubstEnv.ordinal, hsame.1]
    rfl
  | ordinal =>
    have hne : "subst_ampm" ≠ EarlyOverride.ordinal.name := by decide
    have hpm := answer_same h hne ((trigMinutes w a).tdiv 60) hlow
    have hcpm := answer_same h hne (w.minutesPastMidnight.tdiv 60) hampm
    rw [SubstEnv.ampm, SubstEnv.ampm, h.trigMinutes, hpm.1]
    rw [SubstEnv.campm, SubstEnv.campm, h.minutesPastMidnight, hcpm.1]
    rfl

end Rounds

/-- **Overrides.**  Between tables that differ in `subst_ampm` or `subst_ordinal` only, the output
of `DoSubst` differs in the sequences of that function only, and the suffix of the day is what
`subst_ordinal` says or the English one, if and only if with both tables there is a
`subst_ordinal` of one argument, or no `subst_ampm` that answers for the current hour. -/
theorem overrides_independent_iff {f : EarlyOverride} {low : σ → σ → Prop}
    {clean : List Char → Prop} {w w' : SubstEnv σ} {a : SubstArgs} {s : PtrState σ} (n : ℕ)
    (h : DifferIn f low clean w w') (hlow : low s.world s.world) (hclean : clean s.ptr.pos) :
    (∀ stack stack',
        IndependentOverride f { w with stack } { w' with stack := stack' } n a s) ↔
      w.SetsSuffix a s.world ∧ w'.SetsSuffix a s.world := by
  constructor
  · intro hall
    exact ⟨setsSuffix_of_stacks fun stack => (hall stack stack).suffix.1,
      setsSuffix_of_stacks fun stack => (hall stack stack).suffix.2⟩
  · rintro ⟨hset, hset'⟩ stack stack'
    have hstack : DifferIn f low clean { w with stack } { w' with stack := stack' } :=
      { h with rest := by rw [h.rest] }
    exact ⟨⟨(ordinalSuffix_iff s).2 (suffix_of_setsSuffix hset),
      (ordinalSuffix_iff s).2 (suffix_of_setsSuffix hset')⟩,
      doSubstPieces_alike hstack n hlow hclean hset hset'⟩

/-! ### Functions that answer "x" -/

/-- The functions of `names` have one argument and answer "x". -/
def answering (names : List String) : SubstEnv Unit :=
  { plainSubst 540 with
    evalRunDisabled := fun _ world => (.ok (.str "x"), world)
    findUserFunc := fun name => if name ∈ names then some 1 else none
    stack := "junk" }

theorem answering_differIn : DifferIn .ampm (· = ·) (fun _ => True)
    (answering ["subst_ampm", "subst_ordinal"]) (answering ["subst_ordinal"]) where
  rest := rfl
  table := by
    intro name hname
    have hmem : name ∈ ["subst_ampm", "subst_ordinal"] ↔ name ∈ ["subst_ordinal"] :=
      List.mem_cons.trans (or_iff_right hname)
    simp only [answering, hmem]
  notNamed := by decide
  own _ _ _ h := ⟨h, h⟩
  calls _ _ _ _ _ _ h := ⟨rfl, h⟩
  tail _ _ _ := trivial
  paste _ _ _ _ h := ⟨rfl, trivial, h⟩

/-- The law for a `subst_ampm` that comes to a `subst_ordinal`. -/
theorem overrides_independent_iff_both : IndependentOverride .ampm
    { answering ["subst_ampm", "subst_ordinal"] with stack := "left" }
    { answering ["subst_ordinal"] with stack := "over" } 3 (remAt 780)
    ⟨createParser "%S %2".toList, ()⟩ :=
  (overrides_independent_iff 3 answering_differIn rfl trivial).2 ⟨.inl rfl, .inl rfl⟩ "left" "over"

/-- The text of a body on the first day. -/
def substText (w : SubstEnv Unit) (body : String) : Option (List Char) :=
  match doSubst w 3 (remAt 780) [] ⟨createParser body.toList, ()⟩ with
  | .ok out _ => some out
  | .error _ _ => none

/-- On the first of the month a `subst_ampm` alone makes `%s` a text that nothing has stored. -/
theorem doSubst_suffix_unset :
    substText (answering ["subst_ampm"]) "%s" = some "junk".toList ∧
      substText (answering []) "%s" = some "st".toList ∧
      ¬ OrdinalSuffix (answering ["subst_ampm"]) (remAt 780) ⟨createParser "%s".toList, ()⟩ := by
  refine ⟨by decide +kernel, by decide +kernel, ?_⟩
  rw [ordinalSuffix_iff]
  decide +kernel

end Remind
