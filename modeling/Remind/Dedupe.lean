import Mathlib.Algebra.Order.BigOperators.Group.List
import Mathlib.Data.Multiset.OrderedMonoid
import Remind.LinkedTable
import Remind.UserFns

/-!
# Dedupe — suppressing duplicate reminders (dedupe.c)

The entries are the items of a hash table in memory.  `candidate` is the address of the local
variable that `FindDedupeEntry` fills; `malloc live` is the cell that `malloc` gives while the cells
`live` are in use.
-/

namespace Remind

open LinkedTable

/-- `DedupeEntry`, its link apart; `NO_TIME` is `INT_MAX`. -/
structure DedupeEntry where
  triggerDate : ℤ
  triggerTime : ℤ
  body : List Char
deriving DecidableEq, Repr

/-- `DedupeHashFunc` -/
def dedupeHashFunc (e : DedupeEntry) : ℕ :=
  let hashval := (e.triggerDate % 4294967296).toNat
  let hashval := if e.triggerTime ≠ 2147483647 then
    (hashval + (e.triggerTime % 4294967296).toNat) % 4294967296 else hashval
  (hashval + hashValPreservecase e.body) % 4294967296

/-- `CompareDedupes`: its result being 0. -/
def compareDedupes (a b : DedupeEntry) : Bool :=
  if a.triggerDate ≠ b.triggerDate then a.triggerDate - b.triggerDate = 0
  else if a.triggerTime ≠ b.triggerTime then a.triggerTime - b.triggerTime = 0
  else a.body == b.body

/-- `DedupeTable`, the entries in memory, and the cells that `malloc` gave and are not freed. -/
structure DedupeTable (ι : Type) where
  table : LinkedTable ι
  entry : ι → DedupeEntry
  live : List ι

/-- The calls. -/
inductive DedupeOp where
  | shouldDedupe (triggerDate triggerTime : ℤ) (body : List Char) (memory : Bool)
  | clearDedupeTable

namespace DedupeTable

section Code

variable {ι : Type} [DecidableEq ι] (candidate : ι) (malloc : List ι → ι) (fuel : ℕ)

/-- `InitDedupeTable` -/
def init (link : ι → HashLink ι) (entry : ι → DedupeEntry) : DedupeTable ι :=
  ⟨LinkedTable.init link, entry, []⟩

/-- `FindDedupeEntry`: what it finds, and the memory with the candidate. -/
def findDedupeEntry (t : DedupeTable ι) (x : DedupeEntry) :
    Option (Option ι × DedupeTable ι) :=
  let t := { t with entry := Function.update t.entry candidate x }
  (t.table.find (fun p => dedupeHashFunc (t.entry p))
    (fun p q => compareDedupes (t.entry p) (t.entry q)) fuel (some candidate)).map fun e => (e, t)

/-- `InsertDedupeEntry`; `memory` is for the buckets of a larger table. -/
def insertDedupeEntry (memory : Bool) (t : DedupeTable ι) (x : DedupeEntry) :
    Option (DedupeTable ι) :=
  let e := malloc t.live
  let t := { t with entry := Function.update t.entry e x, live := e :: t.live }
  (t.table.insert (fun p => dedupeHashFunc (t.entry p)) memory fuel (some e)).map fun r =>
    { t with table := r.2 }

/-- `ShouldDedupe` -/
def shouldDedupe (memory : Bool) (t : DedupeTable ι) (x : DedupeEntry) :
    Option (ℤ × DedupeTable ι) :=
  (findDedupeEntry candidate fuel t x).bind fun
    | (some _, t) => some (1, t)
    | (none, t) => (insertDedupeEntry malloc fuel memory t x).map fun t => (0, t)

/-- `ClearDedupeTable` -/
def clearDedupeTable (t : DedupeTable ι) : Option (DedupeTable ι) :=
  (t.table.visit (fun _ => true) fuel fuel (t.table.hashTableNext none)).map fun r =>
    { t with table := LinkedTable.init r.2.link, live := t.live.diff r.1 }

/-- The answers of a run of calls, and the table at its end. -/
def run : DedupeTable ι → List DedupeOp → Option (List ℤ × DedupeTable ι)
  | t, [] => some ([], t)
  | t, .shouldDedupe triggerDate triggerTime body memory :: ops =>
    (shouldDedupe candidate malloc fuel memory t ⟨triggerDate, triggerTime, body⟩).bind fun r =>
      (run r.2 ops).map fun s => (r.1 :: s.1, s.2)
  | t, .clearDedupeTable :: ops => (clearDedupeTable fuel t).bind fun t => run t ops

end Code

/-- What the calls have to answer, `seen` being what was passed since the last clear. -/
def answers : List DedupeEntry → List DedupeOp → List ℤ
  | _, [] => []
  | seen, .shouldDedupe triggerDate triggerTime body _ :: ops =>
    (if ⟨triggerDate, triggerTime, body⟩ ∈ seen then 1 else 0) ::
      answers (⟨triggerDate, triggerTime, body⟩ :: seen) ops
  | _, .clearDedupeTable :: ops => answers [] ops

theorem compareDedupes_iff (a b : DedupeEntry) : compareDedupes a b = true ↔ a = b := by
  cases a
  cases b
  unfold compareDedupes
  split_ifs with hd ht
  · simp only [DedupeEntry.mk.injEq, decide_eq_true_eq] at hd ⊢
    omega
  · simp only [DedupeEntry.mk.injEq, decide_eq_true_eq] at ht ⊢
    omega
  · simp_all

section Run

variable {ι : Type} [DecidableEq ι] {candidate : ι} {malloc : List ι → ι} {fuel : ℕ}
  {t : DedupeTable ι} {seen : List DedupeEntry}

/-- The table has the live cells for items, and in them what has been seen. -/
structure Remembers (candidate : ι) (t : DedupeTable ι) (seen : List DedupeEntry) : Prop where
  holds : HoldsItems (fun p => dedupeHashFunc (t.entry p)) t.table t.live
  stack : candidate ∉ t.live
  mem_seen : ∀ x, x ∈ seen ↔ ∃ p ∈ t.live, t.entry p = x

theorem remembers_init (link : ι → HashLink ι) (entry : ι → DedupeEntry) :
    Remembers candidate (init link entry) [] where
  holds := ⟨_, holds_init link, by simp [init], by simp⟩
  stack := List.not_mem_nil
  mem_seen := by simp [init]

/-- A cell that is not live may be written. -/
theorem Remembers.write (h : Remembers candidate t seen) {p : ι} (hp : p ∉ t.live)
    (x : DedupeEntry) :
    Remembers candidate { t with entry := Function.update t.entry p x } seen := by
  have hframe : ∀ q ∈ t.live, Function.update t.entry p x q = t.entry q := fun q hq =>
    Function.update_of_ne (ne_of_mem_of_not_mem hq hp) _ _
  refine ⟨h.holds.congr fun q hq => ?_, h.stack, fun y => ?_⟩
  · exact congrArg dedupeHashFunc (hframe q (by simpa using hq)).symm
  · rw [h.mem_seen]
    exact exists_congr fun q => and_congr_right fun hq => by rw [← hframe q hq]

/-- `FindDedupeEntry` finds what has been seen. -/
theorem Remembers.findDedupeEntry (h : Remembers candidate t seen) (hfuel : t.live.length < fuel)
    (x : DedupeEntry) : ∃ (e : Option ι) (t' : DedupeTable ι),
      t.findDedupeEntry candidate fuel x = some (e, t') ∧ Remembers candidate t' seen ∧
      t'.live = t.live ∧ (e.isSome = true ↔ x ∈ seen) := by
  have h₁ := h.write h.stack x
  have hself : Function.update t.entry candidate x candidate = x := Function.update_self ..
  obtain ⟨e, hfind, hsound, hcomplete⟩ := h₁.holds.find
    (fun p q => compareDedupes (Function.update t.entry candidate x p)
      (Function.update t.entry candidate x q)) candidate (by simpa using hfuel)
  simp only [compareDedupes_iff, hself] at hsound hcomplete
  refine ⟨e, _, ?_, h₁, rfl, ?_⟩
  · rw [DedupeTable.findDedupeEntry]
    simp only [hfind, Option.map_some]
  rw [h₁.mem_seen]
  constructor
  · intro he
    obtain ⟨p, rfl⟩ := Option.isSome_iff_exists.mp he
    obtain ⟨hp, heq⟩ := hsound p rfl
    exact ⟨p, by simpa using hp, heq.symm⟩
  · rintro ⟨p, hp, heq⟩
    refine hcomplete (fun q hq => ?_) ⟨p, by simpa using hp, heq.symm⟩
    exact congrArg dedupeHashFunc hq.symm

/-- `InsertDedupeEntry` remembers the entry. -/
theorem Remembers.insertDedupeEntry (h : Remembers candidate t seen)
    (hmalloc : ∀ live, malloc live ∉ candidate :: live) (hfuel : t.live.length + 1 < fuel)
    (memory : Bool) (x : DedupeEntry) :
    ∃ t' : DedupeTable ι, t.insertDedupeEntry malloc fuel memory x = some t' ∧
      Remembers candidate t' (x :: seen) ∧ t'.live.length = t.live.length + 1 := by
  have hfresh := hmalloc t.live
  rw [List.mem_cons, not_or] at hfresh
  obtain ⟨hstack, hlive⟩ := hfresh
  have h₁ := h.write hlive x
  have hself : Function.update t.entry (malloc t.live) x (malloc t.live) = x :=
    Function.update_self ..
  obtain ⟨table, hinsert, hholds⟩ := h₁.holds.insert memory (by simpa using hlive)
    (by simpa using hfuel)
  refine ⟨⟨table, Function.update t.entry (malloc t.live) x, malloc t.live :: t.live⟩, ?_,
    ⟨hholds, ?_, fun y => ?_⟩, rfl⟩
  · unfold DedupeTable.insertDedupeEntry
    dsimp only at hinsert ⊢
    rw [hinsert]
    rfl
  · rw [List.mem_cons, not_or]
    exact ⟨fun heq => hstack heq.symm, h.stack⟩
  · rw [List.mem_cons, h₁.mem_seen, List.exists_mem_cons_iff]
    simp only [hself, eq_comm]

/-- A call answers whether the entry has been seen. -/
theorem Remembers.shouldDedupe (h : Remembers candidate t seen)
    (hmalloc : ∀ live, malloc live ∉ candidate :: live) (hfuel : t.live.length + 1 < fuel)
    (memory : Bool) (x : DedupeEntry) :
    ∃ t' : DedupeTable ι,
      t.shouldDedupe candidate malloc fuel memory x = some (if x ∈ seen then 1 else 0, t') ∧
      Remembers candidate t' (x :: seen) ∧ t'.live.length ≤ t.live.length + 1 := by
  obtain ⟨e, t₁, hfind, h₁, hlive, he⟩ := h.findDedupeEntry (by omega : t.live.length < fuel) x
  rw [DedupeTable.shouldDedupe, hfind, Option.bind_some]
  cases e with
  | some p =>
    have hx : x ∈ seen := he.mp rfl
    refine ⟨t₁, by rw [if_pos hx], ⟨h₁.holds, h₁.stack, fun y => ?_⟩, by rw [hlive]; omega⟩
    rw [← h₁.mem_seen, List.mem_cons, or_iff_right_of_imp]
    rintro rfl
    exact hx
  | none =>
    have hx : x ∉ seen := fun hx => Bool.false_ne_true (he.mpr hx)
    obtain ⟨t', hinsert, h', hlen⟩ := h₁.insertDedupeEntry hmalloc (by rw [hlive]; exact hfuel)
      memory x
    exact ⟨t', by rw [if_neg hx]; simp only [hinsert, Option.map_some], h', by rw [hlen, hlive]⟩

/-- After a clear nothing has been seen. -/
theorem Remembers.clearDedupeTable (h : Remembers candidate t seen)
    (hfuel : t.live.length < fuel) :
    ∃ t' : DedupeTable ι, t.clearDedupeTable fuel = some t' ∧ Remembers candidate t' [] ∧
      t'.live = [] := by
  obtain ⟨visited, table, hvisit, hvisited, -⟩ := h.holds.visit (fun _ => true)
    (by simpa using hfuel)
  have hempty : t.live.diff visited = [] := by
    rw [← Multiset.coe_eq_zero, ← Multiset.coe_sub, hvisited, tsub_self]
  refine ⟨_, by rw [DedupeTable.clearDedupeTable, hvisit, Option.map_some], ?_, hempty⟩
  rw [hempty]
  exact remembers_init table.link t.entry

/-- A run answers as it has to, whatever has been seen before. -/
theorem Remembers.run (h : Remembers candidate t seen)
    (hmalloc : ∀ live, malloc live ∉ candidate :: live) (ops : List DedupeOp)
    (hfuel : t.live.length + ops.length < fuel) :
    ∃ t' : DedupeTable ι, t.run candidate malloc fuel ops = some (answers seen ops, t') := by
  induction ops generalizing t seen with
  | nil => exact ⟨t, rfl⟩
  | cons op ops ih =>
    rw [List.length_cons] at hfuel
    cases op with
    | shouldDedupe triggerDate triggerTime body memory =>
      obtain ⟨t₁, hcall, h₁, hlen⟩ := h.shouldDedupe hmalloc
        (by omega : t.live.length + 1 < fuel) memory ⟨triggerDate, triggerTime, body⟩
      obtain ⟨t', ht'⟩ := ih h₁ (by omega)
      refine ⟨t', ?_⟩
      rw [DedupeTable.run, hcall, Option.bind_some, ht']
      rfl
    | clearDedupeTable =>
      obtain ⟨t₁, hclear, h₁, hlive⟩ := h.clearDedupeTable (by omega : t.live.length < fuel)
      obtain ⟨t', ht'⟩ := ih h₁ (by rw [hlive, List.length_nil]; omega)
      refine ⟨t', ?_⟩
      rw [DedupeTable.run, hclear, Option.bind_some, ht']
      rfl

end Run

end DedupeTable

/-- **Duplicate suppression.**  In every run of calls from `InitDedupeTable` on, `ShouldDedupe`
answers 1 for a date, time and body that were passed to it before and after the last clear, and 0
for any other.  Of `malloc` it takes that the cell it gives is not in use; it may fail for the
buckets of a larger table. -/
theorem shouldDedupe_exact {ι : Type} [DecidableEq ι] (candidate : ι) (malloc : List ι → ι)
    (hmalloc : ∀ live, malloc live ∉ candidate :: live) (link : ι → HashLink ι)
    (entry : ι → DedupeEntry) (ops : List DedupeOp) {fuel : ℕ} (hfuel : ops.length < fuel) :
    ∃ t', (DedupeTable.init link entry).run candidate malloc fuel ops =
      some (DedupeTable.answers [] ops, t') :=
  (DedupeTable.remembers_init link entry).run hmalloc ops (by simpa [DedupeTable.init] using hfuel)

/-- The second of two equal reminders, and once more after a clear. -/
theorem shouldDedupe_exact_clear : ∃ t',
    (DedupeTable.init (fun _ : ℕ => ⟨none, 0⟩) fun _ => ⟨0, 0, []⟩).run 0
      (fun live => live.sum + 1) 5
      [.shouldDedupe 7 600 ['a'] true, .shouldDedupe 7 600 ['a'] true, .clearDedupeTable,
        .shouldDedupe 7 600 ['a'] true] = some ([0, 1, 0], t') := by
  refine shouldDedupe_exact 0 (fun live => live.sum + 1) (fun live hmem => ?_) _ _ _ (by decide)
  rcases List.mem_cons.mp hmem with h0 | hlive
  · exact Nat.succ_ne_zero _ h0
  · exact Nat.not_succ_le_self _ (List.le_sum_of_mem hlive)

end Remind
