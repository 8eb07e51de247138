import Mathlib
import Remind.DoSubst
import Remind.Lib.Lockstep

/-!
# SubstPieces — what each round of `DoSubst` puts into the buffer

A round only appends, so the text of a reminder is made of pieces, one for each round, and a piece
belongs to the sequence that its round reads.
-/

namespace Remind

open Lib

variable {σ : Type} (w : SubstEnv σ)

/-- What a round appends, with the character of its sequence. -/
structure SubstPiece where
  sequence : Option Char
  text : List Char
  quote : Bool

/-- The character of the sequence behind a %. -/
def sequenceAfter : PtrM σ (Option Char) := do
  match ← parseChar w.toPasteEnv false with
  | some '*' => parseChar w.toPasteEnv false
  | c => return c

/-- The character of the sequence that a round reads. -/
def sequenceRead : PtrM σ (Option Char) := do
  match ← parseChar w.toPasteEnv false with
  | some '%' => sequenceAfter w
  | _ => return none

/-- What would be read from `s`. -/
def peeked (x : PtrM σ (Option Char)) (s : PtrState σ) : Option Char :=
  match x s with
  | .ok c _ => c
  | .error _ _ => none

def peekSequence : PtrM σ (Option Char) := fun s => .ok (peeked (sequenceRead w) s) s

/-- The loop of `DoSubst`, with an empty buffer for each round. -/
def substPieces (n : ℕ) (a : SubstArgs) (v : SubstVars) : ℕ → PtrM σ (List SubstPiece)
  | 0 => throw .diverges
  | k + 1 => do
    let c ← peekSequence w
    match ← substRound w n a v ⟨[], "", false⟩ with
    | .go b => return ⟨c, b.dbuf, b.hasQuote⟩ :: (← substPieces n a v k)
    | .done b => return [⟨c, b.dbuf, b.hasQuote⟩]

/-- The pieces of a reminder. -/
def doSubstPieces (n : ℕ) (a : SubstArgs) : PtrM σ (List SubstPiece) := do
  let v ← substVars w a
  substPieces w n a v n

/-- A buffer that starts with the text of `b`. -/
def SubstBuf.onto (b y : SubstBuf) : SubstBuf :=
  ⟨b.dbuf ++ y.dbuf, y.s, b.hasQuote || y.hasQuote⟩

/-- A step that ends with what `b` and the other step hold. -/
inductive Appended (b : SubstBuf) : SubstStep → SubstStep → Prop
  | go {x y : SubstBuf} : x.dbuf = b.dbuf ++ y.dbuf → x.hasQuote = (b.hasQuote || y.hasQuote) →
      Appended b (.go x) (.go y)
  | done {x y : SubstBuf} : x.dbuf = b.dbuf ++ y.dbuf →
      x.hasQuote = (b.hasQuote || y.hasQuote) → Appended b (.done x) (.done y)

theorem peeked_bind {α : Type} {x : PtrM σ α} {f : α → PtrM σ (Option Char)} {s t : PtrState σ}
    {r : α} (h : x s = .ok r t) : peeked (x >>= f) s = peeked (f r) t := by
  have hbind : (x >>= f) s = f r t := by
    show EStateM.bind x f s = _
    rw [EStateM.bind, h]
  rw [peeked, hbind, peeked]

section Onto

variable {w} {a : SubstArgs} {v : SubstVars} {b y : SubstBuf}

theorem SubstBuf.puts_onto (t : List Char) : (b.onto y).puts t = b.onto (y.puts t) := by
  simp only [puts, onto, List.append_assoc]

theorem SubstBuf.ship_onto (t : String) : (b.onto y).ship t = b.onto (y.ship t) := by
  simp only [ship, onto, List.append_assoc]

theorem modify_append_length {α : Type} (f : α → α) (l r : List α) (k : ℕ) :
    (l ++ r).modify (l.length + k) f = l ++ r.modify k f := by
  induction l with
  | nil => rw [List.nil_append, List.length_nil, Nat.zero_add, List.nil_append]
  | cons x l ih =>
    rw [List.cons_append, List.length_cons, Nat.add_right_comm, List.modify_succ_cons, ih,
      List.cons_append]

/-- The capital stands in the text of the sequence. -/
theorem SubstBuf.capitalize_onto {c : Char} (h : y.s.length ≤ y.dbuf.length) :
    (b.onto y).capitalize c = b.onto (y.capitalize c) := by
  unfold capitalize
  by_cases hc : c.isUpper = true
  · have hle : (b.onto y).s.length ≤ (b.onto y).dbuf.length := by
      simp only [onto, List.length_append]
      omega
    rw [if_pos ⟨hc, hle⟩, if_pos ⟨hc, h⟩]
    simp only [onto, List.length_append, Nat.add_sub_assoc h, modify_append_length]
  · rw [if_neg fun h => hc h.1, if_neg fun h => hc h.1]

theorem SubstBuf.length_s_ship (t : String) : (y.ship t).s.length ≤ (y.ship t).dbuf.length := by
  simp only [ship, List.length_append, String.length_toList]
  omega

/-- The sequences of capitals all make a text. -/
theorem sequenceOutput_isUpper (altmode : Bool) {c : Char} (hc : c.isUpper = true) :
    ∃ t, sequenceOutput w a v altmode c = .text t := by
  have hrange : 65 ≤ c.toNat ∧ c.toNat ≤ 90 := by
    simpa [Char.isUpper, UInt32.le_iff_toNat_le, ← Char.toNat_val] using hc
  obtain ⟨i, hi⟩ : ∃ i, c.toNat = i := ⟨_, rfl⟩
  obtain rfl : c = Char.ofNat i := by rw [← hi, Char.ofNat_toNat]
  rw [hi] at hrange
  obtain ⟨h65, h90⟩ := hrange
  clear hi hc
  interval_cases i <;> exact ⟨_, rfl⟩

theorem putSequence_onto (altmode : Bool) (c : Char) :
    (putSequence w a v altmode c (b.onto y)).capitalize c =
      b.onto ((putSequence w a v altmode c y).capitalize c) := by
  by_cases hc : c.isUpper = true
  · obtain ⟨t, ht⟩ := sequenceOutput_isUpper (w := w) (a := a) (v := v) altmode hc
    simp only [putSequence, ht]
    rw [SubstBuf.ship_onto, SubstBuf.capitalize_onto (SubstBuf.length_s_ship t)]
  · have hid : ∀ x : SubstBuf, x.capitalize c = x := fun x => if_neg fun h => hc h.1
    rw [hid, hid]
    unfold putSequence
    cases sequenceOutput w a v altmode c with
    | text t => exact SubstBuf.ship_onto t
    | putc d => exact SubstBuf.puts_onto [d]
    | nothing => rfl
    | quote =>
      dsimp only
      split_ifs
      · exact SubstBuf.puts_onto _
      · simp only [SubstBuf.puts, SubstBuf.onto, List.append_assoc, Bool.or_true]

/-- The same computation on a fresh buffer. -/
abbrev Appends (b : SubstBuf) (x y : PtrM σ SubstBuf) : Prop :=
  Lockstep Eq (fun r r' => r = b.onto r') x y

theorem askOverride_onto (altmode : Bool) (name : Option String) :
    Lockstep Eq (fun r r' => r.1 = r'.1 ∧ r.2 = b.onto r'.2)
      (askOverride w v altmode name (b.onto y)) (askOverride w v altmode name y) := by
  unfold askOverride
  cases name with
  | none => exact .of_pure ⟨rfl, rfl⟩
  | some name =>
    refine .ite Iff.rfl (fun _ => ?_) fun _ => .of_pure ⟨rfl, rfl⟩
    generalize overrideCall v altmode name = call
    refine .bind (.refl _) ?_
    rintro r _ rfl
    split
    · exact .of_pure ⟨rfl, rfl⟩
    · exact .of_pure ⟨rfl, rfl⟩
    · exact .of_pure ⟨rfl, SubstBuf.puts_onto (y := { y with s := call }) _⟩

theorem namedFunction_onto (n : ℕ) (altmode : Bool) :
    Appends b (namedFunction w n v altmode (b.onto y)) (namedFunction w n v altmode y) := by
  unfold namedFunction
  refine .bind (.refl _) ?_
  rintro chars _ rfl
  generalize "subst_" ++ String.ofList ((chars.take 64).map Char.toLower) = name
  refine .ite Iff.rfl (fun _ => ?_) fun _ => .of_pure rfl
  generalize overrideCall v altmode name = call
  refine .bind (.refl _) ?_
  rintro r _ rfl
  split
  · exact .of_pure (SubstBuf.puts_onto (y := { y with s := call }) _)
  · exact .of_pure rfl

theorem substSequence_onto (altmode : Bool) (c : Char) :
    Appends b (substSequence w a v altmode c (b.onto y)) (substSequence w a v altmode c y) := by
  unfold substSequence
  refine .bind (askOverride_onto altmode _) ?_
  rintro ⟨replaced, _⟩ ⟨_, y'⟩ ⟨h, hx⟩
  obtain rfl : replaced = _ := h
  obtain rfl := hx
  refine .ite Iff.rfl (fun _ => .of_pure rfl) fun _ =>
    .ite Iff.rfl (fun _ => .of_pure ?_) fun _ => ?_
  · rw [SubstBuf.ship_onto, SubstBuf.capitalize_onto (SubstBuf.length_s_ship _)]
  refine .bind (askOverride_onto altmode _) ?_
  rintro ⟨replaced', _⟩ ⟨_, y''⟩ ⟨h, hx⟩
  obtain rfl : replaced' = _ := h
  obtain rfl := hx
  exact .ite Iff.rfl (fun _ => .of_pure rfl) fun _ => .of_pure (putSequence_onto altmode c)

theorem percentSequence_onto (n : ℕ) :
    Lockstep Eq (Appended b) (percentSequence w n a v (b.onto y)) (percentSequence w n a v y) := by
  have hgo : ∀ x y : SubstBuf, x = b.onto y → Appended b (.go x) (.go y) := by
    rintro _ y rfl
    exact .go rfl rfl
  have hnamed : ∀ altmode, Lockstep Eq (Appended b)
      (do return .go (← namedFunction w n v altmode (b.onto y)))
      (do return .go (← namedFunction w n v altmode y)) := fun altmode =>
    .bind (namedFunction_onto n altmode) fun x y h => .of_pure (hgo x y h)
  have hseq : ∀ altmode c, Lockstep Eq (Appended b)
      (do return .go (← substSequence w a v altmode c (b.onto y)))
      (do return .go (← substSequence w a v altmode c y)) := fun altmode c =>
    .bind (substSequence_onto altmode c) fun x y h => .of_pure (hgo x y h)
  unfold percentSequence
  refine .bind (.refl _) ?_
  rintro c _ rfl
  split
  · exact .of_pure (.done rfl rfl)
  · refine .bind (.refl _) ?_
    rintro header _ rfl
    exact .of_pure (hgo _ _ (SubstBuf.puts_onto _))
  · refine .bind (.refl _) ?_
    rintro orig _ rfl
    exact .of_pure (hgo _ _ (SubstBuf.puts_onto _))
  · refine .bind (.refl _) ?_
    rintro d _ rfl
    split
    · exact .of_pure (.done rfl rfl)
    · exact hnamed true
    · exact hseq true _
  · exact hnamed false
  · exact hseq false _

/-- A round only appends, and what it appends does not depend on the buffer. -/
theorem substRound_appended (n : ℕ) :
    Lockstep Eq (Appended b) (substRound w n a v b) (substRound w n a v ⟨[], "", false⟩) := by
  have hid : b.hasQuote = (b.hasQuote || false) := (Bool.or_false _).symm
  unfold substRound
  refine .bind (.refl _) ?_
  rintro c _ rfl
  split
  · refine .ite Iff.rfl (fun _ => .of_pure (.done rfl hid)) fun _ => .of_pure (.done ?_ hid)
    rw [List.append_nil]
  · exact .of_pure (.go (List.append_nil _).symm hid)
  · have hstart : { b with s := "" } = b.onto ⟨[], "", false⟩ := by
      simp only [SubstBuf.onto, List.append_nil, Bool.or_false]
    rw [hstart]
    exact percentSequence_onto n
  · exact .of_pure (.go rfl hid)

/-- The loop of `DoSubst` fills the buffer with the pieces. -/
theorem substLoop_pieces (n k : ℕ) :
    Lockstep Eq (fun x ps => x.dbuf = b.dbuf ++ ps.flatMap SubstPiece.text ∧
        x.hasQuote = (b.hasQuote || ps.any SubstPiece.quote))
      (substLoop w n a v k b) (substPieces w n a v k) := by
  induction k generalizing b with
  | zero => exact .of_throw _
  | succ k ih =>
    rw [substLoop, substPieces]
    refine .of_look (fun t => ⟨_, rfl⟩) fun c => .bind (substRound_appended n) ?_
    intro x y hxy
    cases hxy with
    | @go x y hbuf hquote =>
      show Lockstep Eq _ (substLoop w n a v k x) _
      rw [← bind_pure (substLoop w n a v k x)]
      refine .bind ih fun x' ps h => .of_pure ?_
      rw [h.1, h.2, hbuf, hquote, List.flatMap_cons, List.any_cons, List.append_assoc,
        Bool.or_assoc]
      exact ⟨rfl, rfl⟩
    | done hbuf hquote =>
      refine .of_pure ?_
      rw [hbuf, hquote, List.flatMap_cons, List.any_cons, List.flatMap_nil, List.any_nil,
        List.append_nil, Bool.or_false]
      exact ⟨rfl, rfl⟩

/-- `DoSubst` makes its text from the pieces. -/
theorem doSubst_pieces (n : ℕ) (dbuf : List Char) :
    Lockstep Eq (fun out ps => out = finishSubst a dbuf.length
        ⟨dbuf ++ ps.flatMap SubstPiece.text, "", ps.any SubstPiece.quote⟩)
      (doSubst w n a dbuf) (doSubstPieces w n a) := by
  unfold doSubst doSubstPieces
  refine .bind (.refl _) ?_
  rintro v _ rfl
  rw [← bind_pure (substPieces w n a v n)]
  refine .bind (substLoop_pieces n n) fun x ps h => .of_pure ?_
  unfold finishSubst
  rw [h.1, h.2, Bool.false_or]

end Onto

end Remind
