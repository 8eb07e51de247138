import Mathlib.Data.List.Forall2
import Mathlib.Data.List.Nodup
import Mathlib.Logic.Function.Basic
import Mathlib.Tactic.Common
import Remind.Lib.Buckets

/-!
# Lib.Chained — singly linked chains in memory

`next x` is the pointer kept in `x`; `none` is the null pointer.  `Chained next p xs`: from `p` on
the pointers lead through `xs` and end in null.  A write to a cell outside `xs` leaves the chain as
it is.  `Heads next ps bs`: the pointers `ps` are the heads of the chains `bs`.
-/

namespace Remind.Lib

variable {ι : Type*}

/-- From `p` the pointers lead through `xs` to null. -/
def Chained (next : ι → Option ι) : Option ι → List ι → Prop
  | p, [] => p = none
  | p, x :: xs => p = some x ∧ Chained next (next x) xs

variable {next next' : ι → Option ι} {p : Option ι} {x y : ι} {xs ys : List ι}

@[simp] theorem chained_nil : Chained next p [] ↔ p = none := Iff.rfl

@[simp] theorem chained_cons : Chained next p (x :: xs) ↔ p = some x ∧ Chained next (next x) xs :=
  Iff.rfl

theorem Chained.head_eq (h : Chained next p xs) : p = xs.head? := by
  cases xs with
  | nil => exact h
  | cons x xs => exact h.1

/-- A chain sees only the cells in it. -/
theorem Chained.congr (h : Chained next p xs) (heq : ∀ z ∈ xs, next' z = next z) :
    Chained next' p xs := by
  induction xs generalizing p with
  | nil => exact h
  | cons x xs ih =>
    refine ⟨h.1, ?_⟩
    rw [heq x List.mem_cons_self]
    exact ih h.2 fun z hz => heq z (List.mem_cons_of_mem _ hz)

/-- The frame rule: a write outside the chain. -/
theorem Chained.update [DecidableEq ι] (h : Chained next p xs) (hx : x ∉ xs) (q : Option ι) :
    Chained (Function.update next x q) p xs :=
  h.congr fun _ hz => Function.update_of_ne (ne_of_mem_of_not_mem hz hx) _ _

/-- The pointer after `x` is the rest of the chain. -/
theorem Chained.next_eq {a b : List ι} (h : Chained next p (a ++ x :: b)) :
    Chained next (next x) b := by
  induction a generalizing p with
  | nil => exact h.2
  | cons z a ih => exact ih h.2

/-- Another chain behind `x`. -/
theorem Chained.splice {a b c : List ι} (h : Chained next p (a ++ x :: b))
    (heq : ∀ z ∈ a, next' z = next z) (hc : Chained next' (next' x) c) :
    Chained next' p (a ++ x :: c) := by
  induction a generalizing p with
  | nil => exact ⟨h.1, hc⟩
  | cons z a ih =>
    refine ⟨h.1, ?_⟩
    rw [heq z List.mem_cons_self]
    exact ih h.2 fun w hw => heq w (List.mem_cons_of_mem _ hw)

/-- Linking `y` in behind `x`. -/
theorem Chained.link [DecidableEq ι] {a b : List ι} (h : Chained next p (a ++ x :: b))
    (hnodup : (a ++ x :: b).Nodup) (hy : y ∉ a ++ x :: b) :
    Chained (Function.update (Function.update next x (some y)) y b.head?) p (a ++ x :: y :: b) := by
  obtain ⟨-, hxb, ha⟩ := List.nodup_append.mp hnodup
  rw [List.mem_append, List.mem_cons, not_or, not_or] at hy
  obtain ⟨hya, hyx, hyb⟩ := hy
  refine h.splice (fun z hz => ?_) ⟨?_, ?_⟩
  · rw [Function.update_of_ne (ne_of_mem_of_not_mem hz hya),
      Function.update_of_ne (ha z hz x List.mem_cons_self)]
  · rw [Function.update_of_ne (Ne.symm hyx), Function.update_self]
  · rw [Function.update_self, ← h.next_eq.head_eq]
    exact (h.next_eq.update (List.nodup_cons.mp hxb).1 _).update hyb _

/-- The first two cells exchanged. -/
theorem Chained.swap [DecidableEq ι] (h : Chained next p (x :: y :: xs))
    (hnodup : (x :: y :: xs).Nodup) :
    Chained (Function.update (Function.update next x (next y)) y (some x)) (some y)
      (y :: x :: xs) := by
  obtain ⟨hx, hy⟩ := List.nodup_cons.mp hnodup
  rw [List.mem_cons, not_or] at hx
  refine ⟨rfl, Function.update_self .., ?_⟩
  rw [Function.update_of_ne hx.1, Function.update_self]
  exact (h.2.2.update hx.2 _).update (List.nodup_cons.mp hy).1 _

/-- Unlinking `y` from behind `x`. -/
theorem Chained.unlink [DecidableEq ι] {a b : List ι} (h : Chained next p (a ++ x :: y :: b))
    (hnodup : (a ++ x :: y :: b).Nodup) :
    Chained (Function.update next x (next y)) p (a ++ x :: b) := by
  obtain ⟨-, hxb, ha⟩ := List.nodup_append.mp hnodup
  refine h.splice (fun z hz => Function.update_of_ne (ha z hz x List.mem_cons_self) _ _) ?_
  rw [Function.update_self]
  refine Chained.update h.next_eq.2 (fun hx => ?_) _
  exact (List.nodup_cons.mp hxb).1 (List.mem_cons_of_mem _ hx)

/-- `ps` are the heads of the chains `bs`. -/
def Heads (next : ι → Option ι) (ps : List (Option ι)) (bs : List (List ι)) : Prop :=
  List.Forall₂ (Chained next) ps bs

variable {ps : List (Option ι)} {bs : List (List ι)}

theorem Heads.congr (h : Heads next ps bs) (heq : ∀ z ∈ bs.flatten, next' z = next z) :
    Heads next' ps bs := by
  induction h with
  | nil => exact .nil
  | cons hc _ ih =>
    rw [List.flatten_cons] at heq
    exact .cons (hc.congr fun z hz => heq z (List.mem_append_left _ hz))
      (ih fun z hz => heq z (List.mem_append_right _ hz))

theorem heads_replicate (n : ℕ) : Heads next (List.replicate n none) (List.replicate n []) := by
  induction n with
  | zero => exact .nil
  | succ n ih => exact .cons rfl ih

theorem Heads.chain (h : Heads next ps bs) (i : ℕ) :
    Chained next (ps.getD i none) (Lib.chain bs i) := by
  unfold Lib.chain
  induction h generalizing i with
  | nil => simp
  | cons hc _ ih =>
    cases i with
    | zero => simpa using hc
    | succ i => simpa using ih i

/-- The first head that is not null is the first cell of all. -/
theorem Heads.findSome?_eq (h : Heads next ps bs) : ps.findSome? id = bs.flatten.head? := by
  induction h with
  | nil => rfl
  | @cons p c ps bs hc _ ih =>
    rw [hc.head_eq]
    cases c with
    | nil => simpa using ih
    | cons x c => simp

/-- A new head for chain `i`. -/
theorem Heads.set (h : Heads next ps bs) {i : ℕ} {f : List ι → List ι}
    (hc : Chained next p (f (Lib.chain bs i))) : Heads next (ps.set i p) (bs.modify i f) := by
  unfold Lib.chain at hc
  induction h generalizing i with
  | nil =>
    rw [List.set_nil, List.modify_nil]
    exact .nil
  | cons hd hrest ih =>
    cases i with
    | zero => exact .cons (by simpa using hc) hrest
    | succ i => exact .cons hd (ih (by simpa using hc))

/-- A write to a cell of chain `i`, which is then another chain. -/
theorem Heads.write (h : Heads next ps bs) (hnodup : bs.flatten.Nodup) {i : ℕ}
    {f : List ι → List ι} (hx : x ∈ Lib.chain bs i) (hframe : ∀ z ≠ x, next' z = next z)
    (hc : Chained next' (ps.getD i none) (f (Lib.chain bs i))) :
    Heads next' ps (bs.modify i f) := by
  unfold Lib.chain at hc hx
  induction h generalizing i with
  | nil => simp at hx
  | @cons p c ps bs hd hrest ih =>
    rw [List.flatten_cons] at hnodup
    have hdisj := List.disjoint_of_nodup_append hnodup
    cases i with
    | zero =>
      have hxc : x ∈ c := by simpa using hx
      refine .cons (by simpa using hc) (Heads.congr hrest fun z hz => hframe z ?_)
      rintro rfl
      exact hdisj hxc hz
    | succ i =>
      have hxc : x ∉ c := fun hxc =>
        hdisj hxc (mem_flatten_iff_chain.mpr ⟨i, by simpa [Lib.chain] using hx⟩)
      refine .cons (hd.congr fun z hz => hframe z ?_)
        (ih (List.nodup_append.mp hnodup).2.1 (by simpa using hx) (by simpa using hc))
      rintro rfl
      exact hxc hz

/-- A new head for a chain that gets `x` in front, `x` being in no chain. -/
theorem Heads.push [DecidableEq ι] (h : Heads next ps bs) (hx : x ∉ bs.flatten) (i : ℕ) :
    Heads (Function.update next x (ps.getD i none)) (ps.set i (some x)) (bs.modify i (x :: ·)) := by
  have hframe : ∀ z ∈ bs.flatten, Function.update next x (ps.getD i none) z = next z :=
    fun _ hz => Function.update_of_ne (ne_of_mem_of_not_mem hz hx) _ _
  refine (h.congr hframe).set ⟨rfl, ?_⟩
  rw [Function.update_self]
  refine (h.chain i).congr fun z hz => hframe z ?_
  exact mem_flatten_iff_chain.mpr ⟨i, hz⟩

end Remind.Lib
