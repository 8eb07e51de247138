import Mathlib.Data.Prod.Lex
import Remind.Lib.Chained
import Remind.Lib.StableInsert
import Remind.Trigger

/-!
# SortBuf — sorting reminders (sort.c; `SortCol` of calendar.c)

`InsertIntoSortBuffer` looks for the place of a reminder from the front of the queue; `SortCol`
moves the entry that was put at the head of a column behind the entries that go first.  Both follow
links in memory, with fuel.  Memory for the entries is there: `p` is the pointer that `malloc` gave.
-/

namespace Remind

open Lib

/-- `SORT_NONE`, `SORT_ASCEND`, `SORT_DESCEND` -/
inductive SortDir where
  | none | ascend | descend
deriving DecidableEq, Repr

/-- `SortByDate`, `SortByTime`, `SortByPrio`, `UntimedBeforeTimed` -/
structure SortFlags where
  sortByDate : SortDir
  sortByTime : SortDir
  sortByPrio : SortDir
  untimedBeforeTimed : Bool

/-- `CompareRems`; a time is `none` for `NO_TIME`. -/
def compareRems (dat1 : ℤ) (tim1 : Option ℤ) (prio1 : ℤ) (dat2 : ℤ) (tim2 : Option ℤ) (prio2 : ℤ)
    (bydate bytime byprio : SortDir) (untimedFirst : Bool) : ℤ :=
  let dafter : ℤ := if bydate ≠ .descend then 1 else -1
  let tafter : ℤ := if bytime ≠ .descend then 1 else -1
  let pafter : ℤ := if byprio ≠ .descend then 1 else -1
  let uafter : ℤ := if untimedFirst then -1 else 1
  let byPriority : ℤ := if prio1 < prio2 then pafter else if prio1 > prio2 then -pafter else 0
  if dat1 < dat2 then dafter
  else if dat1 > dat2 then -dafter
  else match tim1, tim2 with
    | none, some _ => -uafter
    | some _, none => uafter
    | some t1, some t2 => if t1 < t2 then tafter else if t1 > t2 then -tafter else byPriority
    | none, none => byPriority

/-- A `Sortrem`, its link apart. -/
structure SortRem where
  text : String
  url : Option String
  trigdate : ℤ
  trigtime : Option ℤ
  typ : RemType
  priority : ℤ

/-- A `CalEntry` as `SortCol` sees it, with its text. -/
structure ColEntry where
  text : String
  time : Option ℤ
  priority : ℤ

/-- `CompareRems` as `InsertIntoSortBuffer` calls it. -/
def SortRem.compare (f : SortFlags) (a b : SortRem) : ℤ :=
  compareRems a.trigdate a.trigtime a.priority b.trigdate b.trigtime b.priority
    f.sortByDate f.sortByTime f.sortByPrio f.untimedBeforeTimed

/-- `CompareRems` as `SortCol` calls it. -/
def ColEntry.compare (f : SortFlags) (a b : ColEntry) : ℤ :=
  compareRems 0 a.time a.priority 0 b.time b.priority
    f.sortByDate f.sortByTime f.sortByPrio f.untimedBeforeTimed

/-- A list in memory: `head` is `SortedQueue`, or `*col`. -/
structure Linked (ι α : Type) where
  head : Option ι
  next : ι → Option ι
  data : ι → α

section Code

variable {ι : Type} [DecidableEq ι] (f : SortFlags)

/-- `while (cur)` in `InsertIntoSortBuffer`, and the writes behind it.  It is `none` where a null
pointer is written through, and when the fuel is out. -/
def insertLoop (srem : ι) : ℕ → Linked ι SortRem → Option ι → Option ι → Option (Linked ι SortRem)
  | 0, _, _, _ => none
  | _ + 1, q, prev, none =>
    prev.map fun prev =>
      let next := Function.update q.next prev (some srem)
      { q with next := Function.update next srem none }
  | fuel + 1, q, prev, some cur =>
    let shouldGoAfter := (q.data srem).compare f (q.data cur)
    if shouldGoAfter ≤ 0 then insertLoop srem fuel q (some cur) (q.next cur)
    else
      match prev with
      | some prev =>
        let next := Function.update q.next prev (some srem)
        some { q with next := Function.update next srem (some cur) }
      | none => some { q with head := some srem, next := Function.update q.next srem (some cur) }

/-- `MakeSortRem` -/
def makeSortRem (q : Linked ι SortRem) (p : ι) (r : SortRem) : Linked ι SortRem :=
  { q with next := Function.update q.next p none, data := Function.update q.data p r }

/-- `InsertIntoSortBuffer` -/
def insertIntoSortBuffer (fuel : ℕ) (q : Linked ι SortRem) (call : ι × SortRem) :
    Option (Linked ι SortRem) :=
  let q := makeSortRem q call.1 call.2
  if q.head = none then some { q with head := some call.1 }
  else insertLoop f call.1 fuel q none q.head

/-- The swap of `cur` and `next` in `SortCol`. -/
def swapCells (c : Linked ι ColEntry) (prev : Option ι) (cur next : ι) : Linked ι ColEntry :=
  let c1 := match prev with
    | none => { c with head := some next }
    | some prev => { c with next := Function.update c.next prev (some next) }
  let c2 := { c1 with next := Function.update c1.next cur (c1.next next) }
  { c2 with next := Function.update c2.next next (some cur) }

/-- `while (cur->next && ...)` in `SortCol` -/
def sortColLoop (cur : ι) : ℕ → Linked ι ColEntry → Option ι → Option (Linked ι ColEntry)
  | 0, _, _ => none
  | fuel + 1, c, prev =>
    match c.next cur with
    | none => some c
    | some next =>
      if (c.data cur).compare f (c.data next) ≤ 0 then
        sortColLoop cur fuel (swapCells c prev cur next) (some next)
      else some c

/-- `SortCol`; `*col` is not null. -/
def sortCol (fuel : ℕ) (c : Linked ι ColEntry) : Option (Linked ι ColEntry) :=
  c.head.bind fun cur => sortColLoop f cur fuel c none

/-- The end of `DoCalRem`: the entry goes to the head of its column, which is then sorted. -/
def addToColumn (fuel : ℕ) (c : Linked ι ColEntry) (call : ι × ColEntry) :
    Option (Linked ι ColEntry) :=
  sortCol f fuel
    { head := some call.1
      next := Function.update c.next call.1 c.head
      data := Function.update c.data call.1 call.2 }

end Code

section Compare

variable (f : SortFlags)

/-- `b` may come behind `a`. -/
def SortRem.le (a b : SortRem) : Prop := 0 ≤ a.compare f b

/-- `a` has to come before `b`. -/
def SortRem.before (a b : SortRem) : Prop := 0 < a.compare f b

/-- `a` has to come before `b`. -/
def ColEntry.before (a b : ColEntry) : Prop := 0 < a.compare f b

instance : DecidableRel (SortRem.before f) := fun _ _ => inferInstanceAs (Decidable (_ < _))

instance : DecidableRel (ColEntry.before f) := fun _ _ => inferInstanceAs (Decidable (_ < _))

/-- What a flag makes of the number that it sorts by. -/
def SortDir.rank (dir : SortDir) (n : ℤ) : ℤ := if dir ≠ .descend then n else -n

/-- Where a reminder stands for being timed or not. -/
def SortFlags.timedRank (tim : Option ℤ) : ℤ :=
  match tim with
  | none => if f.untimedBeforeTimed then -1 else 1
  | some _ => 0

/-- The order of `CompareRems` is that of these numbers, by the first that differ. -/
def SortRem.rank (a : SortRem) : ℤ ×ₗ ℤ ×ₗ ℤ ×ₗ ℤ :=
  toLex (f.sortByDate.rank a.trigdate, toLex (f.timedRank a.trigtime,
    toLex (f.sortByTime.rank (a.trigtime.getD 0), f.sortByPrio.rank a.priority)))

/-- One number compared, and what follows where it is the same. -/
theorem pos_iff_lex {α : Type*} [LT α] (dir : SortDir) (m n : ℤ) {rest : ℤ} {x y : α}
    (hrest : 0 < rest ↔ x < y) :
    0 < (if m < n then (if dir ≠ .descend then 1 else -1 : ℤ)
        else if m > n then -(if dir ≠ .descend then 1 else -1) else rest) ↔
      toLex (dir.rank m, x) < toLex (dir.rank n, y) := by
  rw [Prod.Lex.toLex_lt_toLex, ← hrest]
  unfold SortDir.rank
  dsimp only
  split_ifs <;> omega

theorem SortRem.before_iff (a b : SortRem) : a.before f b ↔ a.rank f < b.rank f := by
  have hprio : 0 < (if a.priority < b.priority then
        (if f.sortByPrio ≠ .descend then 1 else -1 : ℤ)
      else if a.priority > b.priority then -(if f.sortByPrio ≠ .descend then 1 else -1) else 0) ↔
      f.sortByPrio.rank a.priority < f.sortByPrio.rank b.priority := by
    unfold SortDir.rank
    split_ifs <;> omega
  refine pos_iff_lex f.sortByDate a.trigdate b.trigdate ?_
  rw [Prod.Lex.toLex_lt_toLex]
  cases a.trigtime with
  | none =>
    cases b.trigtime with
    | none => simpa [SortFlags.timedRank, Prod.Lex.toLex_lt_toLex] using hprio
    | some t' =>
      simp only [SortFlags.timedRank]
      split_ifs <;> simp
  | some t =>
    cases b.trigtime with
    | none =>
      simp only [SortFlags.timedRank]
      split_ifs <;> simp
    | some t' =>
      simp only [SortFlags.timedRank, lt_irrefl, true_and, false_or]
      exact pos_iff_lex f.sortByTime t t' hprio

theorem compareRems_swap (dat1 : ℤ) (tim1 : Option ℤ) (prio1 : ℤ) (dat2 : ℤ) (tim2 : Option ℤ)
    (prio2 : ℤ) (bydate bytime byprio : SortDir) (untimedFirst : Bool) :
    compareRems dat2 tim2 prio2 dat1 tim1 prio1 bydate bytime byprio untimedFirst =
      -compareRems dat1 tim1 prio1 dat2 tim2 prio2 bydate bytime byprio untimedFirst := by
  unfold compareRems
  dsimp only
  generalize (if bydate ≠ .descend then (1 : ℤ) else -1) = dafter
  generalize (if bytime ≠ .descend then (1 : ℤ) else -1) = tafter
  generalize (if byprio ≠ .descend then (1 : ℤ) else -1) = pafter
  generalize (if untimedFirst = true then (-1 : ℤ) else 1) = uafter
  have hprio : (if prio2 < prio1 then pafter else if prio2 > prio1 then -pafter else 0) =
      -(if prio1 < prio2 then pafter else if prio1 > prio2 then -pafter else 0) := by
    split_ifs <;> omega
  rw [hprio]
  cases tim1 <;> cases tim2 <;> dsimp only <;> split_ifs <;> omega

theorem SortRem.before_iff_not_le (a b : SortRem) : a.before f b ↔ ¬ b.le f a := by
  unfold before le compare
  rw [compareRems_swap a.trigdate]
  omega

theorem SortRem.le_iff (a b : SortRem) : a.le f b ↔ a.rank f ≤ b.rank f := by
  rw [← not_lt, ← before_iff, before_iff_not_le, not_not]

instance : Std.Total (SortRem.le f) :=
  ⟨fun a b => by rw [SortRem.le_iff, SortRem.le_iff]; exact le_total _ _⟩

instance : IsTrans SortRem (SortRem.le f) :=
  ⟨fun a b c => by rw [SortRem.le_iff, SortRem.le_iff, SortRem.le_iff]; exact le_trans⟩

end Compare

section Memory

variable {ι α : Type} [DecidableEq ι] (f : SortFlags) {fuel : ℕ} {l : List ι}

/-- The links of the list lead through the cells `l`. -/
structure Linked.Holds (q : Linked ι α) (l : List ι) : Prop where
  chained : Chained q.next q.head l
  nodup : l.Nodup

/-- The cells of a list with their contents. -/
def Linked.contents (q : Linked ι α) (l : List ι) : List (ι × α) := l.map fun p => (p, q.data p)

/-- `SortRem.before` for reminders in memory. -/
def remBefore (a b : ι × SortRem) : Prop := a.2.before f b.2

/-- `ColEntry.before` for entries in memory. -/
def entryBefore (a b : ι × ColEntry) : Prop := a.2.before f b.2

instance : DecidableRel (remBefore (ι := ι) f) := fun _ _ => inferInstanceAs (Decidable (_ < _))

instance : DecidableRel (entryBefore (ι := ι) f) := fun _ _ => inferInstanceAs (Decidable (_ < _))

theorem insertLoop_null (q : Linked ι SortRem) (srem prev : ι) :
    insertLoop f srem (fuel + 1) q (some prev) none =
      some { q with
        next := Function.update (Function.update q.next prev (some srem)) srem none } := rfl

/-- The loop of the insertion, with the cells `a` behind it and the cells `b` ahead. -/
theorem insertLoop_spec {q : Linked ι SortRem} {srem : ι} {a b : List ι}
    (hq : q.Holds (a ++ b)) (hne : a ++ b ≠ []) (hsrem : srem ∉ a ++ b) (hfuel : b.length < fuel) :
    ∃ q' : Linked ι SortRem, insertLoop f srem fuel q a.getLast? b.head? = some q' ∧
      q'.data = q.data ∧ q'.Holds (a ++ b.orderedInsert
        (fun x y => (q.data x).before f (q.data y)) srem) := by
  induction b generalizing a fuel with
  | nil =>
    obtain ⟨fuel, rfl⟩ : ∃ k, fuel = k + 1 := ⟨fuel - 1, by omega⟩
    rw [List.append_nil] at hq hne hsrem
    obtain ⟨a, prev, rfl⟩ := (List.eq_nil_or_concat' a).resolve_left hne
    have hlink := hq.chained.link hq.nodup hsrem
    rw [List.getLast?_concat, List.head?_nil, insertLoop_null]
    refine ⟨_, rfl, rfl, by simpa using hlink, ?_⟩
    exact (List.perm_append_singleton ..).nodup_iff.mpr (List.nodup_cons.mpr ⟨hsrem, hq.nodup⟩)
  | cons cur b ih =>
    obtain ⟨fuel, rfl⟩ : ∃ k, fuel = k + 1 := ⟨fuel - 1, by omega⟩
    have hnext : q.next cur = b.head? := hq.chained.next_eq.head_eq
    have hnodup : (a ++ srem :: cur :: b).Nodup :=
      List.perm_middle.nodup_iff.mpr (List.nodup_cons.mpr ⟨hsrem, hq.nodup⟩)
    rw [List.head?_cons, List.orderedInsert_cons]
    unfold insertLoop
    dsimp only
    by_cases hcmp : (q.data srem).compare f (q.data cur) ≤ 0
    · have hassoc : a ++ cur :: b = (a ++ [cur]) ++ b := List.append_cons a cur b
      rw [hassoc] at hq hne hsrem
      obtain ⟨q', hq', hdata, hholds⟩ := ih (a := a ++ [cur]) hq hne hsrem (by simpa using hfuel)
      refine ⟨q', ?_, hdata, ?_⟩
      · rw [if_pos hcmp, hnext]
        rw [List.getLast?_concat] at hq'
        exact hq'
      · rw [if_neg (show ¬ SortRem.before f _ _ from not_lt.mpr hcmp), List.append_cons]
        exact hholds
    · rw [if_neg hcmp, if_pos (show SortRem.before f _ _ from not_le.mp hcmp)]
      rcases List.eq_nil_or_concat' a with rfl | ⟨a, prev, rfl⟩
      · refine ⟨_, rfl, rfl, ⟨rfl, ?_⟩, hnodup⟩
        have hchain := hq.chained.update hsrem (some cur)
        rw [hq.chained.head_eq] at hchain
        simpa using hchain
      · have hlink := Chained.link (a := a) (b := cur :: b) (by simpa using hq.chained)
          (by simpa using hq.nodup) (by simpa using hsrem)
        rw [List.getLast?_concat]
        exact ⟨_, rfl, rfl, by simpa using hlink, hnodup⟩

/-- `InsertIntoSortBuffer` puts the reminder where `List.orderedInsert` does. -/
theorem insertIntoSortBuffer_spec {q : Linked ι SortRem} {p : ι} (r : SortRem) (hq : q.Holds l)
    (hp : p ∉ l) (hfuel : l.length < fuel) :
    ∃ (q' : Linked ι SortRem) (l' : List ι), insertIntoSortBuffer f fuel q (p, r) = some q' ∧
      q'.Holds l' ∧ q'.contents l' = (q.contents l).orderedInsert (remBefore f) (p, r) ∧
      l'.Perm (p :: l) := by
  -- the new cell is in no list yet
  let q₁ : Linked ι SortRem := makeSortRem q p r
  have hq₁ : q₁.Holds l := ⟨hq.chained.update hp _, hq.nodup⟩
  have hcontents : q₁.contents l = q.contents l := List.map_congr_left fun x hx =>
    congrArg (x, ·) (Function.update_of_ne (ne_of_mem_of_not_mem hx hp) _ _)
  have hput : ∀ l, q₁.contents (l.orderedInsert
      (fun x y => (q₁.data x).before f (q₁.data y)) p) =
      (q₁.contents l).orderedInsert (remBefore f) (p, r) := by
    intro l
    have hpr : (p, r) = (p, q₁.data p) := by rw [show q₁.data p = r from Function.update_self ..]
    rw [hpr]
    exact List.map_orderedInsert _ _ _ _ _ (fun _ _ => Iff.rfl) fun _ _ => Iff.rfl
  have hperm : ∀ l : List ι, (l.orderedInsert
      (fun x y => (q₁.data x).before f (q₁.data y)) p).Perm (p :: l) :=
    List.perm_orderedInsert _ p
  rw [← hcontents, ← hput]
  unfold insertIntoSortBuffer
  cases l with
  | nil =>
    have hnull : q₁.head = none := hq₁.chained
    refine ⟨_, [p], if_pos hnull, ⟨⟨rfl, Function.update_self ..⟩, List.nodup_singleton p⟩, rfl,
      .refl _⟩
  | cons x l =>
    have hhead : q₁.head = some x := hq₁.chained.head_eq
    obtain ⟨q', hq', hdata, hholds⟩ := insertLoop_spec f (a := []) hq₁ (List.cons_ne_nil x l) hp
      hfuel
    refine ⟨q', _, ?_, hholds, ?_, hperm _⟩
    · rw [if_neg (by rw [hhead]; exact Option.some_ne_none x), hhead]
      exact hq'
    · rw [Linked.contents, hdata]
      rfl

theorem swapCells_spec {c : Linked ι ColEntry} {cur nx : ι} {a b : List ι}
    (hc : c.Holds (a ++ cur :: nx :: b)) :
    (swapCells c a.getLast? cur nx).Holds (a ++ nx :: cur :: b) := by
  refine ⟨?_, ((List.Perm.swap cur nx b).append_left a).nodup_iff.mpr hc.nodup⟩
  obtain ⟨-, htail, hdisj⟩ := List.nodup_append.mp hc.nodup
  rcases List.eq_nil_or_concat' a with rfl | ⟨a, prev, rfl⟩
  · exact Chained.swap hc.chained htail
  · have hprev : prev ∉ cur :: nx :: b := fun hmem => hdisj prev (by simp) prev hmem rfl
    have hchain : Chained c.next c.head (a ++ prev :: cur :: nx :: b) := by
      simpa using hc.chained
    have hswap := (hchain.next_eq.update hprev (some nx)).swap htail
    rw [List.mem_cons, List.mem_cons, not_or, not_or] at hprev
    rw [List.getLast?_concat, List.append_assoc, List.singleton_append]
    unfold swapCells
    refine hchain.splice (fun z hz => ?_) ?_
    · have hzp : z ≠ prev := by
        rintro rfl
        exact (List.nodup_append.mp (List.nodup_append.mp hc.nodup).1).2.2 z hz z (by simp) rfl
      have hzc : z ≠ cur := hdisj z (by simp [hz]) cur (by simp)
      have hzn : z ≠ nx := hdisj z (by simp [hz]) nx (by simp)
      dsimp only
      rw [Function.update_of_ne hzn, Function.update_of_ne hzc, Function.update_of_ne hzp]
    · dsimp only
      rw [Function.update_of_ne hprev.2.1, Function.update_of_ne hprev.1, Function.update_self]
      exact hswap

/-- The loop of the column, with the cells `a` before the new one and the cells `b` behind it. -/
theorem sortColLoop_spec {c : Linked ι ColEntry} {cur : ι} {a b : List ι}
    (hc : c.Holds (a ++ cur :: b)) (hfuel : b.length < fuel) :
    ∃ c' : Linked ι ColEntry, sortColLoop f cur fuel c a.getLast? = some c' ∧ c'.data = c.data ∧
      c'.Holds (a ++ b.orderedInsert (fun x y => (c.data x).before f (c.data y)) cur) := by
  induction b generalizing c a fuel with
  | nil =>
    obtain ⟨fuel, rfl⟩ : ∃ k, fuel = k + 1 := ⟨fuel - 1, by omega⟩
    have hnext : c.next cur = none := hc.chained.next_eq
    exact ⟨c, by rw [sortColLoop, hnext], rfl, hc⟩
  | cons nx b ih =>
    obtain ⟨fuel, rfl⟩ : ∃ k, fuel = k + 1 := ⟨fuel - 1, by omega⟩
    have hnext : c.next cur = some nx := hc.chained.next_eq.head_eq
    rw [sortColLoop, hnext, List.orderedInsert_cons]
    dsimp only
    by_cases hcmp : (c.data cur).compare f (c.data nx) ≤ 0
    · rw [if_pos hcmp, if_neg (show ¬ ColEntry.before f _ _ from not_lt.mpr hcmp), List.append_cons]
      have hswap := swapCells_spec hc
      rw [List.append_cons] at hswap
      obtain ⟨c', hc', hdata, hholds⟩ := ih hswap (by simpa using hfuel)
      rw [List.getLast?_concat] at hc'
      have hsame : (swapCells c a.getLast? cur nx).data = c.data := by
        unfold swapCells
        cases a.getLast? <;> rfl
      rw [hsame] at hdata hholds
      exact ⟨c', hc', hdata, hholds⟩
    · rw [if_neg hcmp, if_pos (show ColEntry.before f _ _ from not_le.mp hcmp)]
      exact ⟨c, rfl, rfl, hc⟩

/-- An entry put at the head of its column goes where `List.orderedInsert` puts it. -/
theorem addToColumn_spec {c : Linked ι ColEntry} {p : ι} (e : ColEntry) (hc : c.Holds l)
    (hp : p ∉ l) (hfuel : l.length < fuel) :
    ∃ (c' : Linked ι ColEntry) (l' : List ι), addToColumn f fuel c (p, e) = some c' ∧
      c'.Holds l' ∧ c'.contents l' = (c.contents l).orderedInsert (entryBefore f) (p, e) ∧
      l'.Perm (p :: l) := by
  let c₁ : Linked ι ColEntry :=
    ⟨some p, Function.update c.next p c.head, Function.update c.data p e⟩
  have hc₁ : c₁.Holds ([] ++ p :: l) := by
    refine ⟨⟨rfl, ?_⟩, List.nodup_cons.mpr ⟨hp, hc.nodup⟩⟩
    rw [show c₁.next p = c.head from Function.update_self ..]
    exact hc.chained.update hp _
  have hcontents : c₁.contents l = c.contents l := List.map_congr_left fun x hx =>
    congrArg (x, ·) (Function.update_of_ne (ne_of_mem_of_not_mem hx hp) _ _)
  obtain ⟨c', hc', hdata, hholds⟩ := sortColLoop_spec f hc₁ hfuel
  refine ⟨c', _, hc', hholds, ?_, List.perm_orderedInsert _ p l⟩
  have hpe : (p, e) = (p, c₁.data p) := by rw [show c₁.data p = e from Function.update_self ..]
  rw [← hcontents, hpe, Linked.contents, hdata]
  exact List.map_orderedInsert _ _ _ _ _ (fun _ _ => Iff.rfl) fun _ _ => Iff.rfl

omit [DecidableEq ι] in
/-- A run of insertions, each of which is `List.orderedInsert`, with cells that `malloc` gives. -/
theorem foldlM_insert (fuel : ℕ) {s : ι × α → ι × α → Prop} [DecidableRel s]
    {insert : Linked ι α → ι × α → Option (Linked ι α)}
    (hinsert : ∀ {q : Linked ι α} {l : List ι} {p : ι} (x : α), q.Holds l → p ∉ l →
      l.length < fuel → ∃ (q' : Linked ι α) (l' : List ι), insert q (p, x) = some q' ∧ q'.Holds l' ∧
        q'.contents l' = (q.contents l).orderedInsert s (p, x) ∧ l'.Perm (p :: l))
    {q : Linked ι α} (hq : q.Holds l) (calls : List (ι × α))
    (hfresh : (calls.map Prod.fst ++ l).Nodup) (hfuel : calls.length + l.length ≤ fuel) :
    ∃ (q' : Linked ι α) (l' : List ι), calls.foldlM insert q = some q' ∧ q'.Holds l' ∧
      q'.contents l' = calls.foldl (fun l x => l.orderedInsert s x) (q.contents l) := by
  induction calls generalizing q l with
  | nil => exact ⟨q, l, rfl, hq, rfl⟩
  | cons call calls ih =>
    obtain ⟨p, x⟩ := call
    rw [List.map_cons, List.cons_append, List.nodup_cons, List.mem_append, not_or] at hfresh
    rw [List.length_cons] at hfuel
    obtain ⟨q₁, l₁, hq₁, hholds, hcontents, hperm⟩ := hinsert x hq hfresh.1.2 (by omega)
    have hfresh₁ : (calls.map Prod.fst ++ l₁).Nodup :=
      ((hperm.append_left _).trans List.perm_middle).nodup_iff.mpr
        (List.nodup_cons.mpr ⟨by rw [List.mem_append, not_or]; exact hfresh.1, hfresh.2⟩)
    obtain ⟨q', l', hq', hholds', hcontents'⟩ := ih hholds hfresh₁
      (by rw [hperm.length_eq, List.length_cons]; omega)
    refine ⟨q', l', ?_, hholds', ?_⟩
    · rw [List.foldlM_cons, hq₁]
      exact hq'
    · rw [hcontents', hcontents]
      rfl

end Memory

section Order

variable {ι : Type} (f : SortFlags)

/-- `SortRem.le` for reminders in memory. -/
def remLe (a b : ι × SortRem) : Prop := a.2.le f b.2

instance : Std.Total (remLe (ι := ι) f) := ⟨fun a b => Std.Total.total a.2 b.2⟩

instance : IsTrans (ι × SortRem) (remLe f) := ⟨fun a b c => IsTrans.trans a.2 b.2 c.2⟩

/-- Reminders that compare equal to one reminder are of one rank. -/
theorem SortRem.le_of_compare_eq {r a b : SortRem} (ha : r.compare f a = 0)
    (hb : r.compare f b = 0) : a.le f b := by
  have har : a.le f r := by
    unfold SortRem.le SortRem.compare
    rw [compareRems_swap r.trigdate]
    unfold SortRem.compare at ha
    omega
  exact IsTrans.trans a r b har hb.ge

end Order

/-- An entry of a column and a reminder in the sort buffer with the same time and priority. -/
def SameEntry {ι : Type} (d : ℤ) (e : ι × ColEntry) (r : ι × SortRem) : Prop :=
  e.1 = r.1 ∧ e.2.time = r.2.trigtime ∧ e.2.priority = r.2.priority ∧ r.2.trigdate = d

/-- Such lists are in the same cells. -/
theorem SameEntry.map_fst {ι : Type} {d : ℤ} {es : List (ι × ColEntry)} {rs : List (ι × SortRem)}
    (h : List.Forall₂ (SameEntry d) es rs) : es.map Prod.fst = rs.map Prod.fst := by
  rw [← List.forall₂_eq_eq_eq, List.forall₂_map_left_iff, List.forall₂_map_right_iff]
  exact h.imp fun _ _ hsame => hsame.1

/-- Among reminders of one date the column and the sort buffer compare alike. -/
theorem SameEntry.before_iff {ι : Type} (f : SortFlags) {d : ℤ} {e e' : ι × ColEntry}
    {r r' : ι × SortRem} (h : SameEntry d e r) (h' : SameEntry d e' r') :
    entryBefore f e e' ↔ remBefore f r r' := by
  obtain ⟨-, htime, hprio, hdate⟩ := h
  obtain ⟨-, htime', hprio', hdate'⟩ := h'
  unfold entryBefore remBefore ColEntry.before SortRem.before ColEntry.compare SortRem.compare
  rw [htime, htime', hprio, hprio', hdate, hdate']
  unfold compareRems
  simp only [lt_irrefl, if_false, gt_iff_lt]

/-- **Sorted reminders.**  For all flags `CompareRems` is a total preorder.  After every sequence of
insertions the sort buffer has each of the reminders once, in that order, and the reminders that
compare equal in the order of the insertions.  A column to which the entries were added one after
the other is the list that the sort buffer is after the insertions of the same entries with one
date. -/
theorem sortBuffer_stable {ι : Type} [DecidableEq ι] (f : SortFlags) :
    (∀ a b : SortRem, b.compare f a = -a.compare f b) ∧
    (∀ a b : SortRem, a.le f b ∨ b.le f a) ∧
    (∀ a b c : SortRem, a.le f b → b.le f c → a.le f c) ∧
    ∀ (q₀ : Linked ι SortRem) (calls : List (ι × SortRem)) (fuel : ℕ), q₀.head = none →
      (calls.map Prod.fst).Nodup → calls.length ≤ fuel →
      ∃ (q : Linked ι SortRem) (l : List ι),
        calls.foldlM (insertIntoSortBuffer f fuel) q₀ = some q ∧ Chained q.next q.head l ∧
        (q.contents l).Pairwise (fun a b => a.2.le f b.2) ∧ (q.contents l).Perm calls ∧
        (∀ r : SortRem, (q.contents l).filter (fun a => r.compare f a.2 = 0) =
          calls.filter fun a => r.compare f a.2 = 0) ∧
        ∀ (d : ℤ) (entries : List (ι × ColEntry)) (c₀ : Linked ι ColEntry), c₀.head = none →
          List.Forall₂ (SameEntry d) entries calls →
          ∃ c : Linked ι ColEntry, entries.foldlM (addToColumn f fuel) c₀ = some c ∧
            Chained c.next c.head l ∧ List.Forall₂ (SameEntry d) (c.contents l) (q.contents l) := by
  have hswap : ∀ a b : SortRem, b.compare f a = -a.compare f b := fun a b => compareRems_swap ..
  refine ⟨hswap, Std.Total.total, fun a b c => IsTrans.trans a b c,
    fun q₀ calls fuel hnull hnodup hfuel => ?_⟩
  have hholds : ∀ {α : Type} {q : Linked ι α}, q.head = none → q.Holds [] :=
    fun h => ⟨h, List.nodup_nil⟩
  have hcells : ∀ {α : Type} (q : Linked ι α) l, (q.contents l).map Prod.fst = l := fun q l => by
    rw [Linked.contents, List.map_map]
    exact List.map_id l
  obtain ⟨q, l, hq, hl, hcontents⟩ := foldlM_insert fuel
    (fun r hq hp hfuel => insertIntoSortBuffer_spec f r hq hp hfuel) (hholds hnull) calls
    (by simpa using hnodup) hfuel
  have hsort : StableSort (remLe f) calls (q.contents l) := by
    rw [hcontents]
    have hstrict : ∀ a b : ι × SortRem, remBefore f a b ↔ ¬ remLe f b a := fun a b =>
      SortRem.before_iff_not_le f a.2 b.2
    exact stableSort_nil.foldl hstrict calls
  refine ⟨q, l, hq, hl.chained, hsort.sorted, hsort.perm, fun r => ?_,
    fun d entries c₀ hnull' hsame => ?_⟩
  · refine hsort.stable _ fun a b ha hb => ?_
    exact SortRem.le_of_compare_eq f (of_decide_eq_true ha) (of_decide_eq_true hb)
  · obtain ⟨c, m, hc, hm, hcontents'⟩ := foldlM_insert fuel
      (fun e hc hp hfuel => addToColumn_spec f e hc hp hfuel) (hholds hnull') entries
      (by rw [SameEntry.map_fst hsame]; simpa using hnodup)
      (by rw [hsame.length_eq]; exact hfuel)
    have hboth : List.Forall₂ (SameEntry d) (c.contents m) (q.contents l) := by
      rw [hcontents, hcontents']
      exact forall₂_foldl_orderedInsert (fun _ _ _ _ h h' => SameEntry.before_iff f h h') .nil hsame
    have hml : m = l := by rw [← hcells c m, SameEntry.map_fst hboth, hcells]
    subst hml
    exact ⟨c, hc, hm.chained, hboth⟩

/-- Two reminders at one time behind an untimed one. -/
theorem sortBuffer_stable_three :
    ∃ (q : Linked ℕ SortRem) (l : List ℕ),
      [(0, ⟨"a", none, 5, some 600, .msg, 5000⟩), (1, ⟨"b", none, 5, some 600, .msg, 5000⟩),
        (2, ⟨"c", none, 5, none, .msg, 5000⟩)].foldlM
        (insertIntoSortBuffer ⟨.ascend, .ascend, .none, true⟩ 3)
        ⟨none, fun _ => none, fun _ => ⟨"", none, 0, none, .msg, 0⟩⟩ = some q ∧
      Chained q.next q.head l ∧ l.Perm [0, 1, 2] := by
  obtain ⟨q, l, hq, hl, -, hperm, -⟩ :=
    (sortBuffer_stable (ι := ℕ) ⟨.ascend, .ascend, .none, true⟩).2.2.2
      ⟨none, fun _ => none, fun _ => ⟨"", none, 0, none, .msg, 0⟩⟩
      [(0, ⟨"a", none, 5, some 600, .msg, 5000⟩), (1, ⟨"b", none, 5, some 600, .msg, 5000⟩),
        (2, ⟨"c", none, 5, none, .msg, 5000⟩)] 3 rfl (by decide) le_rfl
  refine ⟨q, l, hq, hl, ?_⟩
  have hcells := hperm.map Prod.fst
  rw [Linked.contents, List.map_map] at hcells
  exact (List.map_id l).symm ▸ hcells

end Remind
