import Remind.ReadSteps

/-!
# DoFunset — FUNSET on its line (userfns.c)

The loop takes every result of `ParseIdentifier` but the end of the line for a name: a character
that begins no identifier is stepped over, and so is an expression that fails.
-/

namespace Remind

variable {σ : Type} {w : PasteEnv σ} {s s' s₁ s₂ : PtrState σ} {c : Char} {buf name : List Char}

/-- `EvalExpr` with the functions that there are; FUNSET takes them away one after the other. -/
structure FunsetEnv (σ : Type) where
  paste : FuncTable → PasteEnv σ
  forward : ∀ t, (paste t).Forward

namespace FunsetEnv

/-- The loop of `DoFunset`, for at most `k` rounds. -/
def loop (e : FunsetEnv σ) (n : ℕ) :
    ℕ → Bool → FuncTable → PtrState σ → Option (Option ErrCode × FuncTable)
  | 0, _, _, _ => none
  | k + 1, seenOne, t, s =>
    match parseIdentifier (e.paste t) n s with
    | .error .eoln _ => some (if seenOne then none else some .parseErr, t)
    | .error .diverges _ => none
    -- `ParseIdentifier` has freed the buffer
    | .error _ s => loop e n k true (t.fUnset []) s
    | .ok buf s => loop e n k true (t.fUnset (buf.map Char.toLower)) s

/-- `DoFunset` -/
def doFunset (e : FunsetEnv σ) (n : ℕ) (t : FuncTable) (s : PtrState σ) :
    Option (Option ErrCode × FuncTable) := e.loop n n false t s

end FunsetEnv

/-! ### What the command is for -/

/-- A word is an identifier. -/
def isIdentifier : List Char → Bool
  | [] => false
  | c :: rest => (c = '$' || c = '_' || c.isAlpha) && rest.all isIdentNext

/-- The name in the table of a function that FUNSET names so. -/
def funsetName (name : List Char) : List Char := strnCpy (name.map Char.toLower) varNameLen

namespace FunsetEnv

/-- The words of the line are these identifiers, and no expression fails.  An expression is
evaluated without the functions that are named in front of it. -/
inductive Names (e : FunsetEnv σ) : FuncTable → PtrState σ → List (List Char) → Prop
  | nil {t : FuncTable} {s s' : PtrState σ}
      (hread : Settles (fun n => parseToken (e.paste t) n s) (.ok [] s')) : Names e t s []
  | cons {t : FuncTable} {s s' : PtrState σ} {name : List Char} {names : List (List Char)}
      (hread : Settles (fun n => parseToken (e.paste t) n s) (.ok name s'))
      (hname : isIdentifier name = true) (hnames : Names e (t.fUnset (name.map Char.toLower)) s' names) :
      Names e t s (name :: names)

/-- The line ends before there is a word in it, or has an expression there that fails with the error
for the end of a line. -/
def Blank (e : FunsetEnv σ) (t : FuncTable) (s : PtrState σ) : Prop :=
  ∃ s', Settles (fun n => parseIdentifier (e.paste t) n s) (.error .eoln s')

end FunsetEnv

/-- FUNSET does what it is for: it is successful only with a line of identifiers, and takes away the
functions of these names and no others; any other line is an error. -/
structure FunsetExact (e : FunsetEnv σ) (t : FuncTable) (s : PtrState σ) (r : Option ErrCode)
    (t' : FuncTable) : Prop where
  removes : r = none → ∃ names, names ≠ [] ∧ e.Names t s names ∧
    ∀ l, l ∈ t'.tbl.links ↔ l ∈ t.tbl.links ∧ l.item.name ∉ names.map funsetName
  reports : (¬∃ names, e.Names t s names) → r ≠ none

/-! ### The table -/

theorem FuncTable.mem_fUnset_iff {t : FuncTable} {l : Link UserFunc} :
    l ∈ (t.fUnset name).tbl.links ↔ l ∈ t.tbl.links ∧ l.item.name ≠ strnCpy name varNameLen := by
  unfold FuncTable.fUnset
  split
  · next hnone =>
    refine ⟨fun hl => ⟨hl, fun hkey => ?_⟩, And.left⟩
    rw [FuncTable.findLink_iff.2 ⟨hl, hkey⟩] at hnone
    cases hnone
  · next m hm =>
    obtain ⟨hmem, hkey⟩ := FuncTable.findLink_iff.1 hm
    have hperm := (t.wf.delete hmem).2
    have hkeys := (hperm.map fun l => funcHashing.key l.item).nodup_iff.1 t.wf.keys
    rw [List.map_cons, List.nodup_cons] at hkeys
    rw [FuncTable.delete, dif_pos hmem, hperm.mem_iff, List.mem_cons]
    constructor
    · intro hl
      refine ⟨.inr hl, fun hsame => hkeys.1 ?_⟩
      exact List.mem_map.2 ⟨l, hl, hsame.trans hkey.symm⟩
    · rintro ⟨rfl | hl, hne⟩
      · exact absurd hkey hne
      · exact hl

theorem mem_funsets_iff {t : FuncTable} {l : Link UserFunc} (names : List (List Char)) :
    l ∈ (names.foldl (fun t name => t.fUnset (name.map Char.toLower)) t).tbl.links ↔
      l ∈ t.tbl.links ∧ l.item.name ∉ names.map funsetName := by
  induction names generalizing t with
  | nil => simp
  | cons name names ih =>
    rw [List.foldl_cons, ih, FuncTable.mem_fUnset_iff, List.map_cons, List.mem_cons, not_or,
      and_assoc]
    rfl

/-! ### Words and identifiers -/

/-- `s` is where `s'` is, or in front of the white space there. -/
def Behind (s s' : PtrState σ) : Prop := s = s' ∨ ∃ c, isEmptyChar c = true ∧ Ready s c s'

theorem skipBlank_char (hread : parseChar w false s = .ok (some c) s') (hc : isEmptyChar c = true)
    (n : ℕ) : skipBlank w (n + 1) s = skipBlank w n s' := by
  rw [skipBlank, Lib.bind_ok hread, skipLoop]
  simp only [isEmptyAt, Option.map_some, Option.getD_some, hc, if_true]
  rfl

theorem tokenLoop_char (hc : isEmptyChar c = false) (n : ℕ) (buf : List Char) :
    tokenLoop w (n + 1) (some c) buf =
      parseChar w false >>= fun c' => tokenLoop w n c' (buf ++ [c]) := by
  rw [tokenLoop]
  simp only [hc]
  rfl

/-- What `ParseToken` does, in its two loops. -/
theorem parseToken_ok (hw : w.Forward) (h : Settles (fun n => parseToken w n s) (.ok name s')) :
    ∃ c s₁, Settles (fun n => skipBlank w n s) (.ok c s₁) ∧
      Settles (fun n => tokenLoop w n c [] s₁) (.ok name s') := by
  obtain ⟨res, hskip, -⟩ := skipBlank_settles hw s
  simp only [parseToken_eq] at h
  cases res with
  | error r s₁ => cases h.unique hskip.bind_error
  | ok c s₁ =>
    refine ⟨c, s₁, hskip, ?_⟩
    obtain ⟨N, hN⟩ := hskip
    obtain ⟨M, hM⟩ := h
    refine ⟨max N M, fun n hn => ?_⟩
    have hrun := hM n ((Nat.le_max_right N M).trans hn)
    have hstep := Lib.bind_ok (f := fun c => tokenLoop w n c [])
      (hN n ((Nat.le_max_left N M).trans hn))
    exact hstep.symm.trans hrun

/-- White space in front of a word makes no difference. -/
theorem parseToken_behind (hw : w.Forward) (hb : Behind s s')
    (h : Settles (fun n => parseToken w n s') (.ok name s₁)) :
    Settles (fun n => parseToken w n s) (.ok name s₁) := by
  rcases hb with rfl | ⟨c, hc, hready⟩
  · exact h
  · obtain ⟨d, s₂, hskip, htoken⟩ := parseToken_ok hw h
    have hskip' : Settles (fun n => skipBlank w n s) (.ok d s₂) := by
      refine settles_of_succ ?_
      simp only [skipBlank_char (hready w).2 hc]
      exact hskip
    simp only [parseToken_eq]
    exact hskip'.bind htoken

/-- The rest of a word that is the rest of an identifier. -/
theorem identLoop_token (hw : w.Forward) (s : PtrState σ) (buf : List Char)
    (h : Settles (fun n => (parseChar w false >>= fun c => tokenLoop w n c buf) s) (.ok name s')) :
    ∃ more, name = buf ++ more ∧ (more.all isIdentNext = true →
      ∃ s₁, Behind s₁ s' ∧ Settles (fun n => identLoop w n buf s) (.ok name s₁)) := by
  induction hs : s.size using WellFoundedLT.induction generalizing s buf with
  | ind z ih =>
    subst hs
    cases parseChar_step hw s with
    | ended s₁ _ hread _ =>
      have htoken : ∀ n, (parseChar w false >>= fun c => tokenLoop w (n + 1) c buf) s = .ok buf s₁ :=
        fun n => Lib.bind_ok (hread false)
      have hident : ∀ n, identLoop w (n + 1) buf s = .ok buf s₁ := by
        intro n
        rw [identLoop_succ]
        exact Lib.bind_ok (hread true)
      cases h.unique (settles_from_one htoken)
      exact ⟨[], (List.append_nil _).symm, fun _ => ⟨_, .inl rfl, settles_from_one hident⟩⟩
    | failed r s₁ _ hread _ =>
      cases h.unique ⟨0, fun n _ => Lib.bind_error (hread false)⟩
    | char c s₁ s₂ hpeek hread hready _ hsize =>
      by_cases hc : isEmptyChar c = true
      · -- the word ends here
        have htoken : ∀ n, (parseChar w false >>= fun c => tokenLoop w (n + 1) c buf) s =
            .ok buf s₂ := by
          intro n
          rw [Lib.bind_ok hread, tokenLoop]
          simp only [hc, if_true]
          rfl
        have hident : ∀ n, identLoop w (n + 1) buf s = .ok buf s₁ := by
          intro n
          rw [identLoop_succ, Lib.bind_ok hpeek]
          simp only [isIdentNext_blank hc]
          rfl
        cases h.unique (settles_from_one htoken)
        exact ⟨[], (List.append_nil _).symm, fun _ =>
          ⟨s₁, .inr ⟨c, hc, hready⟩, settles_from_one hident⟩⟩
      · have hc := Bool.eq_false_iff.2 hc
        have hnext : Settles (fun n => (parseChar w false >>= fun d =>
            tokenLoop w n d (buf ++ [c])) s₂) (.ok name s') := by
          obtain ⟨N, hN⟩ := h
          refine ⟨N, fun n hn => ?_⟩
          have hrun := hN (n + 1) (hn.trans (Nat.le_succ n))
          dsimp only at hrun
          rwa [Lib.bind_ok hread, tokenLoop_char hc] at hrun
        obtain ⟨more, hmore, hmatch⟩ := ih _ hsize s₂ (buf ++ [c]) hnext rfl
        rw [List.append_assoc] at hmore
        refine ⟨c :: more, hmore, fun hall => ?_⟩
        rw [List.all_cons, Bool.and_eq_true] at hall
        obtain ⟨s₃, hb, hident⟩ := hmatch hall.2
        refine ⟨s₃, hb, settles_of_succ ?_⟩
        have hstep : ∀ n, identLoop w (n + 1) buf s = identLoop w n (buf ++ [c]) s₂ := by
          intro n
          rw [identLoop_succ, Lib.bind_ok hpeek]
          simp only [hall.1, if_true]
          exact Lib.bind_ok (hready w).2
        simp only [hstep]
        exact hident

theorem isIdentifier_cons {rest : List Char} (h : isIdentifier (c :: rest) = true) :
    (decide (c ≠ '$') && decide (c ≠ '_') && !c.isAlpha) = false ∧ rest.all isIdentNext = true := by
  rw [isIdentifier, Bool.and_eq_true] at h
  refine ⟨?_, h.2⟩
  have hfirst := h.1
  simp only [Bool.or_eq_true, decide_eq_true_eq] at hfirst
  rcases hfirst with (rfl | rfl) | ha
  · rfl
  · rfl
  · simp [ha]

/-- A word that is an identifier is read as one. -/
theorem parseIdentifier_word (hw : w.Forward)
    (h : Settles (fun n => parseToken w n s) (.ok name s')) (hname : isIdentifier name = true) :
    ∃ s₁, Behind s₁ s' ∧ Settles (fun n => parseIdentifier w n s) (.ok name s₁) := by
  obtain ⟨d, s₂, hskip, htoken⟩ := parseToken_ok hw h
  obtain ⟨res, hres, hend⟩ := skipBlank_settles hw s
  cases hskip.unique hres
  cases hend with
  | ended _ =>
    cases htoken.unique (settles_from_one fun n => rfl)
    cases hname
  | @char c _ hc _ =>
    have hnext : Settles (fun n => (parseChar w false >>= fun d => tokenLoop w n d [c]) s₂)
        (.ok name s') := by
      obtain ⟨N, hN⟩ := htoken
      refine ⟨N, fun n hn => ?_⟩
      have hrun := hN (n + 1) (hn.trans (Nat.le_succ n))
      dsimp only at hrun
      rwa [tokenLoop_char hc] at hrun
    obtain ⟨more, rfl, hmatch⟩ := identLoop_token hw s₂ [c] hnext
    obtain ⟨hfirst, hall⟩ := isIdentifier_cons hname
    obtain ⟨s₃, hb, hident⟩ := hmatch hall
    refine ⟨s₃, hb, ?_⟩
    simp only [parseIdentifier_eq]
    refine hskip.bind ?_
    simp only [hfirst]
    exact hident

/-- The end of a line is the end of its identifiers. -/
theorem parseIdentifier_end (hw : w.Forward)
    (h : Settles (fun n => parseToken w n s) (.ok [] s')) :
    ∃ s₁, Settles (fun n => parseIdentifier w n s) (.error .eoln s₁) := by
  obtain ⟨d, s₂, hskip, htoken⟩ := parseToken_ok hw h
  obtain ⟨res, hres, hend⟩ := skipBlank_settles hw s
  cases hskip.unique hres
  cases hend with
  | ended _ =>
    refine ⟨s₂, ?_⟩
    simp only [parseIdentifier_eq]
    exact hskip.bind (settles_const _)
  | @char c _ hc _ =>
    have hnext : Settles (fun n => (parseChar w false >>= fun d => tokenLoop w n d [c]) s₂)
        (.ok [] s') := by
      obtain ⟨N, hN⟩ := htoken
      refine ⟨N, fun n hn => ?_⟩
      have hrun := hN (n + 1) (hn.trans (Nat.le_succ n))
      dsimp only at hrun
      rwa [tokenLoop_char hc] at hrun
    obtain ⟨more, hmore, -⟩ := identLoop_token hw s₂ [c] hnext
    cases hmore

/-! ### The loop -/

namespace FunsetEnv

variable {e : FunsetEnv σ} {t : FuncTable} {n k : ℕ} {seen : Bool} {r : ErrCode}

theorem loop_stop (h : parseIdentifier (e.paste t) n s = .error .eoln s') :
    e.loop n (k + 1) seen t s = some (if seen then none else some .parseErr, t) := by
  rw [loop, h]

theorem loop_name (h : parseIdentifier (e.paste t) n s = .ok name s') :
    e.loop n (k + 1) seen t s = e.loop n k true (t.fUnset (name.map Char.toLower)) s' := by
  rw [loop, h]

theorem loop_failed (h : parseIdentifier (e.paste t) n s = .error r s') (hr : r ≠ .eoln)
    (hr' : r ≠ .diverges) : e.loop n (k + 1) seen t s = e.loop n k true (t.fUnset []) s' := by
  rw [loop, h]
  cases r <;> first | rfl | exact absurd rfl hr | exact absurd rfl hr'

/-- Once there has been a name, or an error, the command is successful. -/
theorem loop_seen {res : Option ErrCode × FuncTable} (h : e.loop n k true t s = some res) :
    res.1 = none := by
  induction k generalizing t s with
  | zero => cases h
  | succ k ih =>
    rw [loop] at h
    split at h
    · cases h
      rfl
    · cases h
    · exact ih h
    · exact ih h

/-- The loop ends: with each round there is less of the line. -/
theorem loop_settles (e : FunsetEnv σ) (seen : Bool) (t : FuncTable) (s : PtrState σ) :
    ∃ N res, ∀ n k, N ≤ n → N ≤ k → e.loop n k seen t s = some res := by
  induction hs : s.size using WellFoundedLT.induction generalizing s t seen with
  | ind z ih =>
    subst hs
    obtain ⟨res, ⟨N, hN⟩, hend⟩ := parseIdentifier_settles (e.forward t) s
    -- the first `E_EOLN` is the last round
    have hstop : ∀ s', res = .error .eoln s' →
        ∃ N res, ∀ n k, N ≤ n → N ≤ k → e.loop n k seen t s = some res := by
      rintro s' rfl
      refine ⟨N + 1, (if seen then none else some .parseErr, t), fun n k hn hk => ?_⟩
      obtain ⟨k, rfl⟩ := Nat.exists_eq_succ_of_ne_zero (by omega : k ≠ 0)
      exact loop_stop (hN n (by omega))
    cases hend with
    | ended => exact hstop _ rfl
    | @name name s' hsize =>
      obtain ⟨M, out, hM⟩ := ih _ hsize true (t.fUnset (name.map Char.toLower)) s' rfl
      refine ⟨max N M + 1, out, fun n k hn hk => ?_⟩
      obtain ⟨k, rfl⟩ := Nat.exists_eq_succ_of_ne_zero (by omega : k ≠ 0)
      rw [loop_name (hN n (by omega)), hM n k (by omega) (by omega)]
    | @failed r s' hr hsize =>
      by_cases heoln : r = .eoln
      · exact hstop s' (by rw [heoln])
      · obtain ⟨M, out, hM⟩ := ih _ hsize true (t.fUnset []) s' rfl
        refine ⟨max N M + 1, out, fun n k hn hk => ?_⟩
        obtain ⟨k, rfl⟩ := Nat.exists_eq_succ_of_ne_zero (by omega : k ≠ 0)
        rw [loop_failed (hN n (by omega)) heoln hr, hM n k (by omega) (by omega)]

theorem Names.behind {names : List (List Char)} (h : e.Names t s' names) (hb : Behind s s') :
    e.Names t s names := by
  cases h with
  | nil hread => exact .nil (parseToken_behind (e.forward t) hb hread)
  | cons hread hname hnames => exact .cons (parseToken_behind (e.forward t) hb hread) hname hnames

/-- On a line of identifiers the functions of these names are taken away. -/
theorem loop_names {names : List (List Char)} (h : e.Names t s names) (seen : Bool) :
    ∃ N, ∀ n k, N ≤ n → N ≤ k → e.loop n k seen t s =
      some (if seen = true ∨ names ≠ [] then none else some .parseErr,
        names.foldl (fun t name => t.fUnset (name.map Char.toLower)) t) := by
  induction names generalizing t s seen with
  | nil =>
    cases h with
    | nil hread =>
      obtain ⟨s', N, hN⟩ := parseIdentifier_end (e.forward t) hread
      refine ⟨N + 1, fun n k hn hk => ?_⟩
      obtain ⟨k, rfl⟩ := Nat.exists_eq_succ_of_ne_zero (by omega : k ≠ 0)
      rw [loop_stop (hN n (by omega))]
      simp
  | cons name names ih =>
    cases h with
    | cons hread hname hnames =>
      obtain ⟨s₁, hb, N, hN⟩ := parseIdentifier_word (e.forward t) hread hname
      obtain ⟨M, hM⟩ := ih (hnames.behind hb) true
      refine ⟨max N M + 1, fun n k hn hk => ?_⟩
      obtain ⟨k, rfl⟩ := Nat.exists_eq_succ_of_ne_zero (by omega : k ≠ 0)
      rw [loop_name (hN n (by omega)), hM n k (by omega) (by omega)]
      simp

end FunsetEnv

/-- FUNSET always ends.  It does what it is for if there is nothing in the line, or nothing but
identifiers; on any other line it is successful all the same. -/
theorem doFunset_exact_iff (e : FunsetEnv σ) (t : FuncTable) (s : PtrState σ) :
    ∃ r t', Settles (fun n => e.doFunset n t s) (some (r, t')) ∧
      (FunsetExact e t s r t' ↔ e.Blank t s ∨ ∃ names, e.Names t s names) := by
  obtain ⟨N, ⟨r, t'⟩, hN⟩ := e.loop_settles false t s
  refine ⟨r, t', ⟨N, fun n hn => hN n n hn hn⟩, ⟨fun h => ?_, ?_⟩⟩
  · by_cases hr : r = none
    · obtain ⟨names, -, hnames, -⟩ := h.removes hr
      exact .inr ⟨names, hnames⟩
    · -- an error means that the first round was the last
      left
      obtain ⟨res, ⟨M, hM⟩, hend⟩ := parseIdentifier_settles (e.forward t) s
      have hrun := hN (max N M) (max N M + 1) (Nat.le_max_left N M) (by omega)
      have hid := hM (max N M) (Nat.le_max_right N M)
      cases hend with
      | ended => exact ⟨_, M, hM⟩
      | name _ =>
        rw [FunsetEnv.loop_name hid] at hrun
        exact absurd (FunsetEnv.loop_seen hrun) hr
      | @failed r' s' hr' _ =>
        by_cases heoln : r' = .eoln
        · exact ⟨s', M, fun n hn => by rw [hM n hn, heoln]⟩
        · rw [FunsetEnv.loop_failed hid heoln hr'] at hrun
          exact absurd (FunsetEnv.loop_seen hrun) hr
  · rintro (⟨s', M, hM⟩ | ⟨names, hnames⟩)
    · have hrun := hN (max N M) (max N M + 1) (Nat.le_max_left N M) (by omega)
      rw [FunsetEnv.loop_stop (hM (max N M) (Nat.le_max_right N M))] at hrun
      cases hrun
      exact ⟨nofun, fun _ => nofun⟩
    · obtain ⟨M, hM⟩ := FunsetEnv.loop_names hnames false
      have hrun := hN (max N M) (max N M) (Nat.le_max_left N M) (Nat.le_max_left N M)
      rw [hM _ _ (Nat.le_max_right N M) (Nat.le_max_right N M)] at hrun
      refine ⟨fun hr => ⟨names, ?_, hnames, fun l => ?_⟩, fun hno => absurd ⟨names, hnames⟩ hno⟩
      · rintro rfl
        cases hrun
        cases hr
      · cases hrun
        exact mem_funsets_iff names

/-- No expression has a value. -/
def failingEnv : FunsetEnv Unit where
  paste _ := ⟨fun pos world => ((.error .divZero, pos), world), {}⟩
  forward _ := ⟨fun _ _ => nofun, fun _ _ => List.suffix_rfl⟩

/-- `FUNSET 1` is successful. -/
theorem funset_one :
    Settles (fun n => (failingEnv.doFunset n FuncTable.init ⟨createParser ['1'], ()⟩).map Prod.fst)
        (some none) ∧
      ¬∃ names, failingEnv.Names FuncTable.init ⟨createParser ['1'], ()⟩ names := by
  constructor
  · refine ⟨3, fun n hn => ?_⟩
    obtain ⟨k, rfl⟩ := Nat.exists_eq_add_of_le' hn
    rfl
  · have hword : Settles (fun n => parseToken (failingEnv.paste FuncTable.init) n
        ⟨createParser ['1'], ()⟩) (.ok ['1'] ⟨createParser [], ()⟩) := by
      refine ⟨3, fun n hn => ?_⟩
      obtain ⟨k, rfl⟩ := Nat.exists_eq_add_of_le' hn
      rfl
    rintro ⟨names, hnames⟩
    cases hnames with
    | nil hread => cases hread.unique hword
    | cons hread hname _ =>
      cases hread.unique hword
      cases hname

end Remind
