import Mathlib.Order.MinMax
import Mathlib.Data.Nat.Basic

/-!
# DepthGuard — recursion with a high-water mark

A recursive computation calls `checkDepth` with its level.  `checkDepth` keeps the greatest level it
has seen and fails on a new greatest level over the limit; `none` is no limit.  `Follows m x x'`
says how the computation `x` with the limit `m` comes out in terms of `x'`, the same computation
without a limit, run from the mark 0.
-/

namespace Remind.Lib

/-- A state with the greatest level seen. -/
structure Marked (σ : Type) where
  rest : σ
  highWater : ℕ

abbrev DepthM (ε σ : Type) := EStateM ε (Marked σ)

variable {ε σ α β : Type} {tooDeep : ε} {m : ℕ}

/-- The check of a level against the mark and, for a new greatest level, against the limit. -/
def checkDepth (tooDeep : ε) (max : Option ℕ) (level : ℕ) : DepthM ε σ Unit := fun s =>
  if level > s.highWater then
    match max with
    | some m =>
      if level > m then .error tooDeep { s with highWater := level }
      else .ok () { s with highWater := level }
    | none => .ok () { s with highWater := level }
  else .ok () s

/-- A computation that has nothing to do with levels. -/
def unmarked (x : EStateM ε σ α) : DepthM ε σ α := fun s =>
  match x s.rest with
  | .ok a r => .ok a { s with rest := r }
  | .error e r => .error e { s with rest := r }

/-- The outcome with a greater mark. -/
def raise (h : ℕ) : EStateM.Result ε (Marked σ) α → EStateM.Result ε (Marked σ) α
  | .ok a s => .ok a { s with highWater := max h s.highWater }
  | .error e s => .error e { s with highWater := max h s.highWater }

/-- The mark after a computation. -/
def mark : EStateM.Result ε (Marked σ) α → ℕ
  | .ok _ s => s.highWater
  | .error _ s => s.highWater

/-- The depth that `x` reaches: its mark when it starts with the mark 0. -/
def depth (x : DepthM ε σ α) (r : σ) : ℕ := mark (x ⟨r, 0⟩)

/-- `x` is `x'` with the limit `m`: from a mark `h` it does what `x'` does where the depth of `x'` is
at most `max h m`; otherwise it fails with `tooDeep`, and its mark is then greater than that. -/
def Follows (tooDeep : ε) (m : ℕ) (x x' : DepthM ε σ α) : Prop :=
  ∀ r h, x' ⟨r, h⟩ = raise h (x' ⟨r, 0⟩) ∧
    (depth x' r ≤ max h m → x ⟨r, h⟩ = x' ⟨r, h⟩) ∧
    (max h m < depth x' r → ∃ s, x ⟨r, h⟩ = .error tooDeep s ∧ max h m < s.highWater)

theorem raise_raise (h k : ℕ) (u : EStateM.Result ε (Marked σ) α) :
    raise h (raise k u) = raise (max h k) u := by
  cases u <;> simp [raise, max_assoc]

theorem mark_raise (h : ℕ) (u : EStateM.Result ε (Marked σ) α) :
    mark (raise h u) = max h (mark u) := by
  cases u <;> rfl

theorem follows_unmarked (x : EStateM ε σ α) : Follows tooDeep m (unmarked x) (unmarked x) := by
  intro r h
  have hdepth : depth (unmarked x) r = 0 := by
    unfold depth unmarked
    cases hx : x r <;> rfl
  refine ⟨?_, fun _ => rfl, fun hlt => by omega⟩
  unfold unmarked
  cases hx : x r <;> simp [raise]

theorem follows_pure (a : α) : Follows tooDeep m (pure a : DepthM ε σ α) (pure a) :=
  follows_unmarked (pure a)

theorem follows_throw (e : ε) : Follows tooDeep m (throw e : DepthM ε σ α) (throw e) :=
  follows_unmarked (EStateM.throw e)

theorem follows_ite {p : Prop} [Decidable p] {x x' y y' : DepthM ε σ α}
    (hx : Follows tooDeep m x x') (hy : Follows tooDeep m y y') :
    Follows tooDeep m (if p then x else y) (if p then x' else y') := by
  by_cases hp : p
  · rw [if_pos hp, if_pos hp]
    exact hx
  · rw [if_neg hp, if_neg hp]
    exact hy

theorem checkDepth_none (level h : ℕ) (r : σ) :
    checkDepth tooDeep none level (⟨r, h⟩ : Marked σ) = .ok () ⟨r, max h level⟩ := by
  unfold checkDepth
  by_cases hk : level > h
  · rw [if_pos hk, max_eq_right (le_of_lt hk)]
  · rw [if_neg hk, max_eq_left (not_lt.mp hk)]

theorem follows_check (level : ℕ) :
    Follows tooDeep m (checkDepth tooDeep (some m) level : DepthM ε σ Unit) (checkDepth tooDeep none level) := by
  intro r h
  have hdepth : depth (checkDepth tooDeep none level : DepthM ε σ Unit) r = level := by
    unfold depth
    rw [checkDepth_none]
    exact max_eq_right (Nat.zero_le level)
  refine ⟨?_, fun hle => ?_, fun hlt => ?_⟩
  · rw [checkDepth_none, checkDepth_none]
    simp [raise]
  · rw [checkDepth_none]
    unfold checkDepth
    by_cases hk : level > h
    · simp only [if_pos hk, if_neg (show ¬ level > m by omega), max_eq_right (le_of_lt hk)]
    · simp only [if_neg hk, max_eq_left (not_lt.mp hk)]
  · rw [hdepth] at hlt
    refine ⟨⟨r, level⟩, ?_, hlt⟩
    unfold checkDepth
    simp only [if_pos (show level > h by omega), if_pos (show level > m by omega)]

theorem follows_bind {x x' : DepthM ε σ α} {f f' : α → DepthM ε σ β} (hx : Follows tooDeep m x x')
    (hf : ∀ a, Follows tooDeep m (f a) (f' a)) : Follows tooDeep m (x >>= f) (x' >>= f') := by
  intro r h
  obtain ⟨hx1, hx2, hx3⟩ := hx r h
  cases hu : x' ⟨r, 0⟩ with
  | error e s =>
    have hrun : ∀ k, (x' >>= f') ⟨r, k⟩ = raise k (.error e s) := by
      intro k
      show EStateM.bind x' f' ⟨r, k⟩ = _
      rw [EStateM.bind, (hx r k).1, hu]
      rfl
    have hmark : depth (x' >>= f') r = depth x' r := by
      unfold depth
      rw [hrun, hu]
      simp [raise, mark]
    refine ⟨?_, fun hle => ?_, fun hlt => ?_⟩
    · rw [hrun, hrun, raise_raise, max_eq_left (Nat.zero_le h)]
    · rw [hmark] at hle
      show EStateM.bind x f ⟨r, h⟩ = EStateM.bind x' f' ⟨r, h⟩
      rw [EStateM.bind, EStateM.bind, hx2 hle, hx1, hu]
      rfl
    · rw [hmark] at hlt
      obtain ⟨t, ht, hgt⟩ := hx3 hlt
      refine ⟨t, ?_, hgt⟩
      show EStateM.bind x f ⟨r, h⟩ = _
      rw [EStateM.bind, ht]
  | ok a s =>
    obtain ⟨r1, k1⟩ := s
    have hk1 : depth x' r = k1 := by
      unfold depth
      rw [hu]
      rfl
    have hrun : ∀ k, (x' >>= f') ⟨r, k⟩ = raise (max k k1) (f' a ⟨r1, 0⟩) := by
      intro k
      show EStateM.bind x' f' ⟨r, k⟩ = _
      rw [EStateM.bind, (hx r k).1, hu]
      exact (hf a r1 (max k k1)).1
    have hmark : depth (x' >>= f') r = max k1 (depth (f' a) r1) := by
      unfold depth
      rw [hrun, mark_raise, max_eq_right (Nat.zero_le k1)]
    -- where `x` does not fail, the marks up to here make no difference to the limit
    have hB : k1 ≤ max h m → max (max h k1) m = max h m := by
      intro hle
      rw [max_right_comm, max_eq_left hle]
    obtain ⟨-, hf2, hf3⟩ := hf a r1 (max h k1)
    refine ⟨?_, fun hle => ?_, fun hlt => ?_⟩
    · rw [hrun, hrun, raise_raise, max_eq_right (Nat.zero_le k1)]
    · rw [hmark, max_le_iff] at hle
      show EStateM.bind x f ⟨r, h⟩ = EStateM.bind x' f' ⟨r, h⟩
      rw [EStateM.bind, EStateM.bind, hx2 (hk1 ▸ hle.1), hx1, hu]
      exact hf2 (by rw [hB hle.1]; exact hle.2)
    · rw [hmark, lt_max_iff] at hlt
      by_cases hle : k1 ≤ max h m
      · rw [hB hle] at hf3
        obtain ⟨t, ht, hgt⟩ := hf3 (hlt.resolve_left (not_lt.mpr hle))
        refine ⟨t, ?_, hgt⟩
        show EStateM.bind x f ⟨r, h⟩ = _
        rw [EStateM.bind, hx2 (hk1 ▸ hle), hx1, hu]
        exact ht
      · obtain ⟨t, ht, hgt⟩ := hx3 (hk1 ▸ not_le.mp hle)
        refine ⟨t, ?_, hgt⟩
        show EStateM.bind x f ⟨r, h⟩ = _
        rw [EStateM.bind, ht]

end Remind.Lib
