import Mathlib.Data.Prod.Lex
import Mathlib.Order.WellFounded
import Remind.Lib.Wp
import Remind.LocalVars

/-!
# ReadSteps — the readers of a line come to an end

`ParseChar` gives the end of the line, an error or a character.  With each character and each error
the parser has less before it, as long as `EvalExpr` moves forward in the text.
-/

namespace Remind

variable {σ : Type} {w : PasteEnv σ} {s s' : PtrState σ} {c : Char} {n : ℕ}

/-- `EvalExpr` comes to an end, and leaves the pointer at the text or behind it. -/
structure PasteEnv.Forward (w : PasteEnv σ) : Prop where
  ends : ∀ pos world, (w.evalExpr pos world).1.1 ≠ .error .diverges
  forward : ∀ pos world, (w.evalExpr pos world).1.2 <:+ pos

/-- What the parser has before it: the text counts more than the value pasted into it. -/
def PtrState.size (s : PtrState σ) : ℕ ×ₗ ℕ :=
  toLex (s.ptr.pos.length, s.ptr.pushed.length + (s.ptr.nested.map List.length).getD 0)

theorem size_lt_of_pos (h : s'.ptr.pos.length < s.ptr.pos.length) : s'.size < s.size :=
  Prod.Lex.toLex_lt_toLex.2 (.inl h)

/-- There is nothing left, whatever the expressions would give. -/
def AtEnd (s : PtrState σ) : Prop := ∀ (w : PasteEnv σ) (peek : Bool), parseChar w peek s = .ok none s

/-- The next character is there already, whatever the expressions would give. -/
def Ready (s : PtrState σ) (c : Char) (s' : PtrState σ) : Prop :=
  ∀ w : PasteEnv σ, parseChar w true s = .ok (some c) s ∧ parseChar w false s = .ok (some c) s'

/-- What a reading function comes to, for a peek and for the real reading. -/
inductive CharStep (s : PtrState σ) (read : Bool → EStateM.Result ErrCode (PtrState σ) (Option Char)) :
    Prop
  | ended (s' : PtrState σ) (hend : AtEnd s') (hread : ∀ peek, read peek = .ok none s')
      (hsize : s'.size ≤ s.size)
  | failed (r : ErrCode) (s' : PtrState σ) (hr : r ≠ .diverges) (hread : ∀ peek, read peek = .error r s')
      (hsize : s'.size < s.size)
  | char (c : Char) (s₁ s₂ : PtrState σ) (hpeek : read true = .ok (some c) s₁)
      (hread : read false = .ok (some c) s₂) (hready : Ready s₁ c s₂) (hsize₁ : s₁.size ≤ s.size)
      (hsize₂ : s₂.size < s.size)

/-- An expression in brackets: an error, or a value that is pasted in. -/
theorem pasteExpr_cases (hw : w.Forward) (pos : List Char) (s : PtrState σ) :
    (∃ r s', pasteExpr w pos s = .error r s' ∧ r ≠ .diverges ∧ s'.ptr.pos.length ≤ pos.length) ∨
      ∃ s', pasteExpr w pos s = .ok () s' ∧ s'.ptr.pos.length ≤ pos.length ∧
        s'.ptr.pushed = s.ptr.pushed := by
  have hends := hw.ends pos s.world
  have hforward := (hw.forward pos s.world).length_le
  unfold pasteExpr
  generalize w.evalExpr pos s.world = outcome at hends hforward
  obtain ⟨⟨r, rest⟩, world⟩ := outcome
  dsimp only at hends hforward ⊢
  cases r with
  | error r => exact .inl ⟨r, _, rfl, fun h => hends (by rw [h]), hforward⟩
  | ok val =>
    have hskip := (List.dropWhile_suffix isEmptyChar (l := rest)).length_le
    dsimp only
    split
    · exact .inl ⟨_, _, rfl, nofun, Nat.zero_le _⟩
    · next c pos' hpos =>
      rw [hpos, List.length_cons] at hskip
      split_ifs
      · exact .inr ⟨_, rfl, by dsimp only; omega, rfl⟩
      · refine .inl ⟨_, _, rfl, nofun, ?_⟩
        show (c :: pos').length ≤ pos.length
        rw [List.length_cons]
        omega

/-- One more character of the text that is not pasted. -/
theorem charStep_take {p : ParserPtr} (hp : p.pos.length < s.ptr.pos.length)
    {t : PtrState σ} (hsize : t.size ≤ s.size)
    (hready : ∀ (w : PasteEnv σ) (peek : Bool), parseChar w peek t = t.take peek c p) :
    CharStep s fun peek => t.take peek c p :=
  .char c t { t with ptr := p } rfl rfl (fun w => ⟨hready w true, hready w false⟩) hsize
    (size_lt_of_pos hp)

theorem parseChar_of_pushed (hp : s.ptr.pushed = []) (w : PasteEnv σ) (peek : Bool) :
    parseChar w peek s = parseCharLoop w peek (s.ptr.pos.length + 1) s := by
  rw [parseChar, hp]

theorem parseCharLoop_step (hw : w.Forward) (n : ℕ) (s : PtrState σ) (hp : s.ptr.pushed = [])
    (hn : s.ptr.pos.length < n) : CharStep s fun peek => parseCharLoop w peek n s := by
  induction n generalizing s with
  | zero => omega
  | succ n ih =>
    obtain ⟨⟨pos, nested, allow, pushed, happened, nonconst⟩, world⟩ := s
    obtain rfl : pushed = [] := hp
    by_cases hnested : ∃ d epos, nested = some (d :: epos)
    · obtain ⟨d, epos, rfl⟩ := hnested
      refine .char d _ ⟨⟨pos, some epos, allow, [], happened, nonconst⟩, world⟩ rfl rfl
        (fun w => ⟨rfl, rfl⟩) le_rfl ?_
      refine Prod.Lex.toLex_lt_toLex.2 (.inr ⟨rfl, ?_⟩)
      simp
    · -- a pasted value has been read to its end
      have hplain : ∀ (w : PasteEnv σ) (peek : Bool) (n : ℕ),
          parseCharLoop w peek (n + 1) ⟨⟨pos, nested, allow, [], happened, nonconst⟩, world⟩ =
            parseCharLoop w peek (n + 1) ⟨⟨pos, none, allow, [], happened, nonconst⟩, world⟩ := by
        intro w peek n
        rcases nested with _ | _ | ⟨d, epos⟩
        · rfl
        · rfl
        · exact absurd ⟨d, epos, rfl⟩ hnested
      have hle : (⟨⟨pos, none, allow, [], happened, nonconst⟩, world⟩ : PtrState σ).size ≤
          (⟨⟨pos, nested, allow, [], happened, nonconst⟩, world⟩ : PtrState σ).size :=
        Prod.Lex.toLex_le_toLex.2 (.inr ⟨rfl, by simp⟩)
      simp only [hplain]
      rcases pos with _ | ⟨d, pos⟩
      · exact .ended _ (fun w peek => rfl) (fun peek => rfl) hle
      by_cases hd : d ≠ '[' ∨ allow = false
      · have hloop : ∀ (w : PasteEnv σ) (peek : Bool) (n : ℕ),
            parseCharLoop w peek (n + 1) ⟨⟨d :: pos, none, allow, [], happened, nonconst⟩, world⟩ =
              PtrState.take ⟨⟨d :: pos, none, allow, [], happened, nonconst⟩, world⟩ peek d
                ⟨pos, none, allow, [], happened, nonconst⟩ := by
          intro w peek n
          rw [parseCharLoop]
          simp only [hd, if_true]
        simp only [hloop]
        exact charStep_take (Nat.lt_succ_self _) hle fun w peek => hloop w peek _
      by_cases he : ∃ pos', pos = '[' :: pos'
      · obtain ⟨pos', rfl⟩ := he
        have hloop : ∀ (w : PasteEnv σ) (peek : Bool) (n : ℕ),
            parseCharLoop w peek (n + 1)
                ⟨⟨d :: '[' :: pos', none, allow, [], happened, nonconst⟩, world⟩ =
              PtrState.take ⟨⟨d :: '[' :: pos', none, allow, [], happened, nonconst⟩, world⟩ peek
                '[' ⟨pos', none, allow, [], happened, nonconst⟩ := by
          intro w peek n
          rw [parseCharLoop]
          simp only [hd, if_false]
        simp only [hloop]
        have hpos : pos'.length < (d :: '[' :: pos').length := by
          simp only [List.length_cons]
          omega
        exact charStep_take hpos hle fun w peek => hloop w peek (d :: '[' :: pos').length
      have hpaste : ∀ peek, parseCharLoop w peek (n + 1)
          ⟨⟨d :: pos, none, allow, [], happened, nonconst⟩, world⟩ =
          (pasteExpr w pos >>= fun _ => parseCharLoop w peek n)
            ⟨⟨d :: pos, none, allow, [], happened, nonconst⟩, world⟩ := by
        intro peek
        rw [parseCharLoop]
        simp only [hd, if_false]
        split
        · exact absurd ⟨_, rfl⟩ he
        · rfl
      simp only [hpaste]
      rcases pasteExpr_cases hw pos ⟨⟨d :: pos, none, allow, [], happened, nonconst⟩, world⟩ with
        ⟨r, s', hrun, hr, hpos⟩ | ⟨s', hrun, hpos, hpushed⟩
      · exact .failed r s' hr (fun peek => Lib.bind_error hrun)
          (size_lt_of_pos (List.length_cons (a := d) ▸ Nat.lt_succ_of_le hpos))
      · have hsmaller : s'.size <
            (⟨⟨d :: pos, nested, allow, [], happened, nonconst⟩, world⟩ : PtrState σ).size :=
          size_lt_of_pos (List.length_cons (a := d) ▸ Nat.lt_succ_of_le hpos)
        have hnext := ih s' hpushed (by simp only [List.length_cons] at hn; omega)
        have hbind : ∀ peek, (pasteExpr w pos >>= fun _ => parseCharLoop w peek n)
            ⟨⟨d :: pos, none, allow, [], happened, nonconst⟩, world⟩ = parseCharLoop w peek n s' :=
          fun peek => Lib.bind_ok hrun
        simp only [hbind]
        cases hnext with
        | ended s₁ hend hread hsize => exact .ended s₁ hend hread (hsize.trans hsmaller.le)
        | failed r s₁ hr hread hsize => exact .failed r s₁ hr hread (hsize.trans hsmaller)
        | char c s₁ s₂ hpeek hread hready hsize₁ hsize₂ =>
          exact .char c s₁ s₂ hpeek hread hready (hsize₁.trans hsmaller.le) (hsize₂.trans hsmaller)

/-- `ParseChar` gives the end, an error or a character, the same for a peek. -/
theorem parseChar_step (hw : w.Forward) (s : PtrState σ) :
    CharStep s fun peek => parseChar w peek s := by
  cases hp : s.ptr.pushed with
  | nil =>
    simp only [parseChar_of_pushed hp]
    exact parseCharLoop_step hw _ s hp (Nat.lt_succ_self _)
  | cons d pushed =>
    have hchar : ∀ (w : PasteEnv σ) (peek : Bool),
        parseChar w peek s = s.take peek d { s.ptr with pushed } := by
      intro w peek
      rw [parseChar, hp]
    simp only [hchar]
    refine .char d s { s with ptr := { s.ptr with pushed } } rfl rfl
      (fun w => ⟨hchar w true, hchar w false⟩) le_rfl ?_
    refine Prod.Lex.toLex_lt_toLex.2 (.inr ⟨rfl, ?_⟩)
    simp only [hp, List.length_cons]
    omega

/-! ### Identifiers -/

/-- The white space in front of a word, and the character behind it. -/
def skipBlank (w : PasteEnv σ) (n : ℕ) : PtrM σ (Option Char) := do
  skipLoop w n (← parseChar w false)

theorem parseIdentifier_eq (w : PasteEnv σ) (n : ℕ) :
    parseIdentifier w n = skipBlank w n >>= fun c =>
      match c with
      | none => throw .eoln
      | some c => if c ≠ '$' && c ≠ '_' && !c.isAlpha then throw .badId else identLoop w n [c] := by
  rw [parseIdentifier, skipBlank, bind_assoc] <;> rfl

theorem parseToken_eq (w : PasteEnv σ) (n : ℕ) :
    parseToken w n = skipBlank w n >>= fun c => tokenLoop w n c [] := by
  rw [parseToken, skipBlank, bind_assoc]

/-- What a function with a bound comes to from some bound on. -/
def Settles {α : Type} (f : ℕ → α) (a : α) : Prop := ∃ N, ∀ n, N ≤ n → f n = a

theorem settles_of_succ {α : Type} {f : ℕ → α} {a : α} (h : Settles (fun n => f (n + 1)) a) :
    Settles f a := by
  obtain ⟨N, hN⟩ := h
  refine ⟨N + 1, fun n hn => ?_⟩
  obtain ⟨k, rfl⟩ := Nat.exists_eq_add_of_le hn
  exact hN (N + k) (Nat.le_add_right N k) ▸ congrArg f (by omega)

theorem settles_const {α : Type} (a : α) : Settles (fun _ => a) a := ⟨0, fun _ _ => rfl⟩

theorem settles_from_one {α : Type} {f : ℕ → α} {a : α} (h : ∀ n, f (n + 1) = a) : Settles f a :=
  settles_of_succ ⟨0, fun n _ => h n⟩

theorem Settles.unique {α : Type} {f : ℕ → α} {a b : α} (ha : Settles f a) (hb : Settles f b) :
    a = b := by
  obtain ⟨N, hN⟩ := ha
  obtain ⟨M, hM⟩ := hb
  exact (hN _ (Nat.le_max_left N M)).symm.trans (hM _ (Nat.le_max_right N M))

section Bind

variable {α β : Type} {f : ℕ → PtrM σ α} {g : ℕ → α → PtrM σ β} {a : α}
  {res : EStateM.Result ErrCode (PtrState σ) β} {r : ErrCode}

theorem Settles.bind (hf : Settles (fun n => f n s) (.ok a s')) (hg : Settles (fun n => g n a s') res) :
    Settles (fun n => (f n >>= g n) s) res := by
  obtain ⟨N, hN⟩ := hf
  obtain ⟨M, hM⟩ := hg
  refine ⟨max N M, fun n hn => ?_⟩
  rw [← hM n ((Nat.le_max_right N M).trans hn)]
  exact Lib.bind_ok (hN n ((Nat.le_max_left N M).trans hn))

theorem Settles.bind_error (hf : Settles (fun n => f n s) (.error r s')) :
    Settles (fun n => (f n >>= g n) s) (.error r s') := by
  obtain ⟨N, hN⟩ := hf
  exact ⟨N, fun n hn => Lib.bind_error (hN n hn)⟩

end Bind

/-- White space is skipped up to the end, an error or another character. -/
inductive SkipEnd (s : PtrState σ) : EStateM.Result ErrCode (PtrState σ) (Option Char) → Prop
  | ended {s' : PtrState σ} (hend : AtEnd s') : SkipEnd s (.ok none s')
  | char {c : Char} {s' : PtrState σ} (hc : isEmptyChar c = false) (hsize : s'.size < s.size) :
      SkipEnd s (.ok (some c) s')
  | failed {r : ErrCode} {s' : PtrState σ} (hr : r ≠ .diverges) (hsize : s'.size < s.size) :
      SkipEnd s (.error r s')

theorem SkipEnd.trans {res : EStateM.Result ErrCode (PtrState σ) (Option Char)}
    (h : SkipEnd s' res) (hsize : s'.size < s.size) : SkipEnd s res := by
  cases h with
  | ended hend => exact .ended hend
  | char hc hlt => exact .char hc (hlt.trans hsize)
  | failed hr hlt => exact .failed hr (hlt.trans hsize)

theorem skipBlank_settles (hw : w.Forward) (s : PtrState σ) :
    ∃ res, Settles (fun n => skipBlank w n s) res ∧ SkipEnd s res := by
  induction hs : s.size using WellFoundedLT.induction generalizing s with
  | ind z ih =>
    subst hs
    cases parseChar_step hw s with
    | ended s' hend hread _ =>
      exact ⟨_, settles_from_one fun n => Lib.bind_ok (hread false), .ended hend⟩
    | failed r s' hr hread hsize =>
      exact ⟨_, ⟨0, fun n _ => Lib.bind_error (hread false)⟩, .failed hr hsize⟩
    | char c s₁ s₂ _ hread _ _ hsize =>
      have hskip : ∀ n, skipBlank w (n + 1) s = skipLoop w (n + 1) (some c) s₂ := fun n =>
        Lib.bind_ok hread
      by_cases hc : isEmptyChar c = true
      · obtain ⟨res, hres, hend⟩ := ih _ hsize s₂ rfl
        refine ⟨res, settles_of_succ ?_, hend.trans hsize⟩
        simp only [hskip, skipLoop, isEmptyAt, Option.map_some, Option.getD_some, hc, if_true]
        exact hres
      · have hstop : ∀ n, skipBlank w (n + 1) s = .ok (some c) s₂ := by
          intro n
          rw [hskip, skipLoop]
          simp only [isEmptyAt, Option.map_some, Option.getD_some, hc]
          rfl
        exact ⟨_, settles_from_one hstop, .char (Bool.eq_false_iff.2 hc) hsize⟩

/-- The rest of an identifier ends in front of another character, or with an error. -/
inductive IdentEnd (s : PtrState σ) : EStateM.Result ErrCode (PtrState σ) (List Char) → Prop
  | name {buf : List Char} {s' : PtrState σ} (hsize : s'.size ≤ s.size) : IdentEnd s (.ok buf s')
  | failed {r : ErrCode} {s' : PtrState σ} (hr : r ≠ .diverges) (hsize : s'.size < s.size) :
      IdentEnd s (.error r s')

/-- `c` goes on an identifier. -/
def isIdentNext (c : Char) : Bool := c = '_' || c.isAlphanum

theorem isIdentNext_blank (hc : isEmptyChar c = true) : isIdentNext c = false := by
  rw [isEmptyChar, Bool.or_eq_true, decide_eq_true_eq] at hc
  rcases hc with hspace | rfl
  · have hall : " \t\n\x0b\x0c\x0d".toList.all (fun c => !isIdentNext c) = true := by decide
    simpa using List.all_eq_true.1 hall c (List.contains_iff_mem.1 hspace)
  · rfl

theorem identLoop_succ (w : PasteEnv σ) (n : ℕ) (buf : List Char) :
    identLoop w (n + 1) buf = parseChar w true >>= fun c =>
      match c with
      | none => pure buf
      | some c =>
        if isIdentNext c then parseChar w false >>= fun _ => identLoop w n (buf ++ [c])
        else pure buf := by
  rw [identLoop]
  congr 1
  funext c
  cases c with
  | none => rfl
  | some c =>
    by_cases hc : isIdentNext c = true
    · have hc' : ¬(decide (c ≠ '_') && !c.isAlphanum) = true := by
        simp only [isIdentNext, Bool.or_eq_true, decide_eq_true_eq] at hc
        simp only [Bool.and_eq_true, decide_eq_true_eq, Bool.not_eq_true', not_and, ne_eq]
        intro hne
        simpa using hc.resolve_left hne
      simp only [hc, hc', if_true]
      rfl
    · have hc' : (decide (c ≠ '_') && !c.isAlphanum) = true := by
        simpa [isIdentNext] using hc
      simp only [hc, hc', if_true]
      rfl

theorem identLoop_settles (hw : w.Forward) (s : PtrState σ) (buf : List Char) :
    ∃ res, Settles (fun n => identLoop w n buf s) res ∧ IdentEnd s res := by
  induction hs : s.size using WellFoundedLT.induction generalizing s buf with
  | ind z ih =>
    subst hs
    cases parseChar_step hw s with
    | ended s' _ hread hsize =>
      have hstop : ∀ n, identLoop w (n + 1) buf s = .ok buf s' := by
        intro n
        rw [identLoop_succ]
        exact Lib.bind_ok (hread true)
      exact ⟨_, settles_from_one hstop, .name hsize⟩
    | failed r s' hr hread hsize =>
      have hstop : ∀ n, identLoop w (n + 1) buf s = .error r s' := by
        intro n
        rw [identLoop_succ]
        exact Lib.bind_error (hread true)
      exact ⟨_, settles_from_one hstop, .failed hr hsize⟩
    | char c s₁ s₂ hpeek _ hready hsize₁ hsize₂ =>
      have hident : ∀ n, identLoop w (n + 1) buf s = (if isIdentNext c then
          parseChar w false >>= fun _ => identLoop w n (buf ++ [c]) else pure buf) s₁ := by
        intro n
        rw [identLoop_succ]
        exact Lib.bind_ok hpeek
      by_cases hc : isIdentNext c = true
      · obtain ⟨res, hres, hend⟩ := ih _ hsize₂ s₂ (buf ++ [c]) rfl
        refine ⟨res, settles_of_succ ?_, ?_⟩
        · simp only [hident, hc, if_true]
          exact (show Settles (fun _ => parseChar w false s₁) _ from
            ⟨0, fun _ _ => (hready w).2⟩).bind hres
        · cases hend with
          | name hle => exact .name (hle.trans hsize₂.le)
          | failed hr hlt => exact .failed hr (hlt.trans hsize₂)
      · have hstop : ∀ n, identLoop w (n + 1) buf s = .ok buf s₁ := by
          intro n
          simp only [hident, hc]
          rfl
        exact ⟨_, settles_from_one hstop, .name hsize₁⟩

/-- An identifier, an error, or nothing but the end of the line. -/
inductive NameEnd (s : PtrState σ) : EStateM.Result ErrCode (PtrState σ) (List Char) → Prop
  | ended {s' : PtrState σ} : NameEnd s (.error .eoln s')
  | name {buf : List Char} {s' : PtrState σ} (hsize : s'.size < s.size) : NameEnd s (.ok buf s')
  | failed {r : ErrCode} {s' : PtrState σ} (hr : r ≠ .diverges) (hsize : s'.size < s.size) :
      NameEnd s (.error r s')

theorem parseIdentifier_settles (hw : w.Forward) (s : PtrState σ) :
    ∃ res, Settles (fun n => parseIdentifier w n s) res ∧ NameEnd s res := by
  obtain ⟨res, hres, hend⟩ := skipBlank_settles hw s
  simp only [parseIdentifier_eq]
  cases hend with
  | ended _ => exact ⟨_, hres.bind (settles_const _), .ended⟩
  | failed hr hsize => exact ⟨_, hres.bind_error, .failed hr hsize⟩
  | @char c s' _ hsize =>
    by_cases hc : (decide (c ≠ '$') && decide (c ≠ '_') && !c.isAlpha) = true
    · refine ⟨.error .badId s', hres.bind ?_, .failed nofun hsize⟩
      simp only [hc, if_true]
      exact settles_const _
    · obtain ⟨res, hident, hend⟩ := identLoop_settles hw s' [c]
      refine ⟨res, hres.bind ?_, ?_⟩
      · simp only [hc]
        exact hident
      · cases hend with
        | name hle => exact .name (lt_of_le_of_lt hle hsize)
        | failed hr hlt => exact .failed hr (hlt.trans hsize)

end Remind
