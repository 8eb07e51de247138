import Remind.Escape
import Remind.FileLines
import Remind.FindToken
import Remind.Translate

/-!
# DoTranslate — the TRANSLATE command and TRANSLATE DUMP (trans.c: `DoTranslate`,
# `DumpTranslationTable`)

The commands work on the table and print lines.  What TRANSLATE DUMP prints is a file of TRANSLATE
commands; run on a table as it is at the start, they make the table that was printed.
-/

namespace Remind

open HashTable
open scoped List

/-- The table, and the lines on the standard output. -/
structure XlateWorld where
  table : XlateTable
  out : List (List Char)

namespace XlateTable

/-- `GetTranslatedString` -/
def getTranslatedString (t : XlateTable) (orig : List Char) : Option (List Char) :=
  (t.findTranslation orig).map (·.item.translated)

/-- The items in the order of `hash_table_next`, chain by chain. -/
def items (t : XlateTable) : List XlateItem := t.tbl.links.map Link.item

/-- A line of `DumpTranslationTable`; the strings are printed by `print_escaped_string`. -/
def dumpLine (orig translated : List Char) : List Char :=
  "TRANSLATE ".toList ++ fEscape orig true ++ ' ' :: fEscape translated true

/-- `DumpTranslationTable(stdout, 0)` -/
def dump (t : XlateTable) : List (List Char) :=
  "# Translation table".toList :: ((t.getTranslatedString langId).map (dumpLine langId)).toList ++
    (t.items.filter (·.orig ≠ langId)).map fun i => dumpLine i.orig i.translated

/-- TRANSLATE with one string. -/
def forget (t : XlateTable) (orig : List Char) : XlateTable :=
  let t := match t.findTranslation orig with
    | some l => t.removeTranslation l
    | none => t
  if orig = langId then (t.insertTranslation langId ['e', 'n']).1 else t

end XlateTable

section Command

variable (env : PasteEnv XlateWorld) (template : List (List Char)) (n : ℕ)

/-- The result of a reader as an error code. -/
def readerResult {α : Type} (x : PtrM XlateWorld α) : PtrM XlateWorld (Option ErrCode) := fun s =>
  match x s with
  | .ok _ s => .ok none s
  | .error r s => .ok (some r) s

/-- A reader that may come to the end of the line. -/
def unlessEoln {α : Type} (x : PtrM XlateWorld α) : PtrM XlateWorld (Option α) := fun s =>
  match x s with
  | .ok a s => .ok (some a) s
  | .error .eoln s => .ok none s
  | .error r s => .error r s

/-- The rest of the program is changed, the parser is not. -/
def modifyWorld (f : XlateWorld → XlateWorld) : PtrM XlateWorld Unit :=
  modify fun s => { s with world := f s.world }

/-- TRANSLATE with a word; `template` is what `GenerateTranslationTemplate` prints. -/
def translateWord : PtrM XlateWorld Unit := do
  let word := (← parseToken env n).map Char.toLower
  let r ← readerResult (verifyEnd env n)
  if word = "dump".toList ∨ word = "clear".toList ∨ word = "generate".toList then
    if let some r := r then throw r
    modifyWorld fun w =>
      if word = "dump".toList then { w with out := w.out ++ w.table.dump }
      else if word = "clear".toList then { w with table := .init }
      else { w with out := w.out ++ template }
  else throw .parseErr

/-- `InsertTranslation` and its result. -/
def insertString (orig translated : List Char) : PtrM XlateWorld Unit := fun s =>
  let (table, r) := s.world.table.insertTranslation orig translated
  let s := { s with world := { s.world with table } }
  match r with
  | none => .ok () s
  | some r => .error r s

/-- `DoTranslate` -/
def doTranslate : PtrM XlateWorld Unit := do
  match ← parseNonSpaceChar env n true with
  | none => throw .eoln
  | some c =>
    if c ≠ '"' then translateWord env template n
    else
      let orig ← parseQuotedString env n
      match ← unlessEoln (parseQuotedString env n) with
      | none => modifyWorld fun w => { w with table := w.table.forget orig }
      | some translated =>
        verifyEnd env n
        insertString orig translated

/-- `FindInitialToken`: the word, and the text after it. -/
def findInitialToken (c : LiteralSeps) (s : List Char) : RemToken × List Char :=
  let s := s.dropWhile isEmptyChar
  (findToken c (s.takeWhile fun ch => !isEmptyChar ch), s.dropWhile fun ch => !isEmptyChar ch)

/-- A TRANSLATE line in `DoReminders`: the world after it, and the error that is printed.  Nothing is
said of other lines. -/
def translateLine (c : LiteralSeps) (line : List Char) (w : XlateWorld) :
    XlateWorld × Option ErrCode :=
  match findInitialToken c line with
  | (.translate, s) =>
    match doTranslate env template n ⟨createParser s, w⟩ with
    | .ok _ s => (s.world, none)
    | .error r s => (s.world, some r)
  | _ => (w, none)

/-- The lines of a file, one after the other: the world, and the errors. -/
def translateLines (c : LiteralSeps) (lines : List (List Char)) (w : XlateWorld) :
    XlateWorld × List ErrCode :=
  lines.foldl (fun (w, rs) line =>
    let (w, r) := translateLine env template n c line w
    (w, rs ++ r.toList)) (w, [])

end Command

/-! ### The table as a map -/

namespace XlateTable

variable {t : XlateTable} {orig translated key : List Char}

theorem findTranslation_iff {l : Link XlateItem} :
    t.findTranslation key = some l ↔ l ∈ t.tbl.links ∧ l.item.orig = key :=
  t.wf.find_iff

theorem getTranslatedString_iff :
    t.getTranslatedString key = some translated ↔ ⟨key, translated⟩ ∈ t.items := by
  unfold getTranslatedString items
  rw [Option.map_eq_some_iff, List.mem_map]
  constructor
  · rintro ⟨l, hl, rfl⟩
    obtain ⟨hmem, rfl⟩ := findTranslation_iff.1 hl
    exact ⟨l, hmem, rfl⟩
  · rintro ⟨l, hmem, hl⟩
    exact ⟨l, findTranslation_iff.2 ⟨hmem, by rw [hl]⟩, by rw [hl]⟩

theorem items_orig_nodup (t : XlateTable) : (t.items.map XlateItem.orig).Nodup := by
  have hkeys := t.wf.keys
  unfold items
  rw [List.map_map]
  exact hkeys

theorem getTranslatedString_remove {l : Link XlateItem} (hl : t.findTranslation orig = some l) :
    (t.removeTranslation l).getTranslatedString key =
      if orig = key then none else t.getTranslatedString key := by
  obtain ⟨hmem, rfl⟩ := findTranslation_iff.1 hl
  unfold removeTranslation
  rw [dif_pos hmem]
  have hfind : (t.tbl.delete l).find xlateHashing ⟨key, []⟩ =
      if l.item.orig = key then none else t.tbl.find xlateHashing ⟨key, []⟩ :=
    t.wf.find_delete hmem ⟨key, []⟩
  unfold getTranslatedString findTranslation
  dsimp only
  rw [hfind]
  split_ifs <;> rfl

theorem getTranslatedString_add (hnone : t.getTranslatedString orig = none) :
    (t.add ⟨orig, translated⟩).getTranslatedString key =
      if orig = key then some translated else t.getTranslatedString key := by
  have hfree : t.tbl.find xlateHashing ⟨orig, translated⟩ = none := by
    have hfind : t.tbl.find xlateHashing ⟨orig, []⟩ = none := Option.map_eq_none_iff.1 hnone
    exact t.wf.find_none_iff.2 fun l hl => t.wf.find_none_iff.1 hfind l hl
  unfold add
  rw [dif_pos hfree]
  have hfind : (t.tbl.insert xlateHashing ⟨orig, translated⟩).find xlateHashing ⟨key, []⟩ =
      if orig = key then some ⟨xlateHashing.hashfunc ⟨orig, translated⟩, ⟨orig, translated⟩⟩
      else t.tbl.find xlateHashing ⟨key, []⟩ :=
    t.wf.find_insert hfree ⟨key, []⟩
  unfold getTranslatedString findTranslation
  dsimp only
  rw [hfind]
  split_ifs <;> rfl

/-- A translation that is accepted: it has the formats of the original, and it differs from it
unless it names the language. -/
structure Accepted (orig translated : List Char) : Prop where
  safe : printfFormattersAreSafe orig translated = true
  differs : orig = langId ∨ orig ≠ translated

theorem getTranslatedString_none (h : t.findTranslation orig = none) :
    t.getTranslatedString orig = none := by
  rw [getTranslatedString, h]
  rfl

/-- An accepted translation is found; the others are as before. -/
theorem insertTranslation_accepted (h : Accepted orig translated) :
    (t.insertTranslation orig translated).2 = none ∧
      ∀ key, (t.insertTranslation orig translated).1.getTranslatedString key =
        if orig = key then some translated else t.getTranslatedString key := by
  have hdiffers : ¬ (orig ≠ langId ∧ orig = translated) := fun hn => h.differs.elim hn.1 (absurd hn.2)
  unfold insertTranslation
  rw [if_neg (by simp [h.safe])]
  cases hf : t.findTranslation orig with
  | none =>
    dsimp only
    rw [if_neg hdiffers]
    exact ⟨rfl, fun key => getTranslatedString_add (getTranslatedString_none hf)⟩
  | some l =>
    dsimp only
    split_ifs with hsame
    · refine ⟨rfl, fun key => ?_⟩
      split_ifs with hkey
      · rw [← hkey, getTranslatedString, hf, Option.map_some, hsame]
      · rfl
    · have hgone : (t.removeTranslation l).getTranslatedString orig = none := by
        rw [getTranslatedString_remove hf, if_pos rfl]
      refine ⟨rfl, fun key => ?_⟩
      rw [getTranslatedString_add hgone, getTranslatedString_remove hf]
      split_ifs <;> rfl

/-- A translation that is refused, or that says what is said without it, is not found. -/
theorem insertTranslation_refused (h : ¬ Accepted orig translated) :
    (t.insertTranslation orig translated).1 = t ∨
      ∃ l, t.findTranslation orig = some l ∧ orig ≠ langId ∧
        (t.insertTranslation orig translated).1 = t.removeTranslation l := by
  by_cases hsafe : printfFormattersAreSafe orig translated = true
  · have hdiffers : orig ≠ langId ∧ orig = translated := by
      by_contra hno
      refine h ⟨hsafe, ?_⟩
      by_contra hor
      rw [not_or, not_not] at hor
      exact hno hor
    unfold insertTranslation
    rw [if_neg (by simp [hsafe])]
    cases hf : t.findTranslation orig with
    | none =>
      dsimp only
      rw [if_pos hdiffers]
      exact .inl rfl
    | some l =>
      dsimp only
      rw [if_pos hdiffers]
      split_ifs
      · exact .inl rfl
      · exact .inr ⟨l, rfl, hdiffers.1, rfl⟩
  · unfold insertTranslation
    rw [if_pos (by simpa using hsafe)]
    exact .inl rfl

theorem getTranslatedString_empty (key : List Char) : empty.getTranslatedString key = none :=
  getTranslatedString_none (wf_init.find_none_iff.2 (by simp [links, HashTable.init]))

theorem accepted_langId {s : List Char} (hs : printfFormattersAreSafe langId s = true) :
    Accepted langId s := ⟨hs, .inl rfl⟩

theorem getTranslatedString_init (key : List Char) :
    init.getTranslatedString key = if langId = key then some ['e', 'n'] else none := by
  unfold init
  rw [(insertTranslation_accepted (accepted_langId (by decide +kernel))).2,
    getTranslatedString_empty]

/-! ### The tables that TRANSLATE commands make -/

/-- The tables that are reached with TRANSLATE commands, on strings without zeros. -/
inductive Reachable : XlateTable → Prop
  | init : Reachable .init
  | insert {t : XlateTable} {orig translated : List Char} (h : Reachable t) (ho : '\x00' ∉ orig)
      (ht : '\x00' ∉ translated) : Reachable (t.insertTranslation orig translated).1
  | forget {t : XlateTable} {orig : List Char} (h : Reachable t) : Reachable (t.forget orig)

/-- What is so of a table at all times: every translation in it is an accepted one, and the language
has a name. -/
structure Kept (t : XlateTable) : Prop where
  accepted : ∀ key s, t.getTranslatedString key = some s →
    Accepted key s ∧ '\x00' ∉ key ∧ '\x00' ∉ s
  language : ∃ s, t.getTranslatedString langId = some s

theorem Kept.insert (h : Kept t) (ho : '\x00' ∉ orig) (ht : '\x00' ∉ translated) :
    Kept (t.insertTranslation orig translated).1 := by
  obtain ⟨lang, hlang⟩ := h.language
  by_cases hacc : Accepted orig translated
  · obtain ⟨-, hget⟩ := @insertTranslation_accepted t _ _ hacc
    refine ⟨fun key s hs => ?_, ?_⟩
    · rw [hget] at hs
      split_ifs at hs with hkey
      · subst hkey
        obtain rfl := Option.some.inj hs
        exact ⟨hacc, ho, ht⟩
      · exact h.accepted key s hs
    · rw [hget]
      split_ifs
      · exact ⟨_, rfl⟩
      · exact ⟨lang, hlang⟩
  · rcases insertTranslation_refused (t := t) hacc with heq | ⟨l, hl, hne, heq⟩
    · rwa [heq]
    · rw [heq]
      refine ⟨fun key s hs => ?_, lang, ?_⟩
      · rw [getTranslatedString_remove hl] at hs
        split_ifs at hs
        exact h.accepted key s hs
      · rw [getTranslatedString_remove hl, if_neg hne, hlang]

theorem kept_init : Kept init where
  accepted key s hs := by
    rw [getTranslatedString_init] at hs
    split_ifs at hs with hkey
    subst hkey
    obtain rfl := Option.some.inj hs
    exact ⟨accepted_langId (by decide +kernel), by decide, by decide⟩
  language := ⟨_, by rw [getTranslatedString_init, if_pos rfl]⟩

theorem getTranslatedString_forget (orig key : List Char) :
    (t.forget orig).getTranslatedString key =
      if orig = key then if orig = langId then some ['e', 'n'] else none
      else t.getTranslatedString key := by
  have hgone : ∀ t' : XlateTable, t' = (match t.findTranslation orig with
      | some l => t.removeTranslation l
      | none => t) →
      t'.getTranslatedString key = if orig = key then none else t.getTranslatedString key := by
    rintro _ rfl
    cases hf : t.findTranslation orig with
    | none =>
      split_ifs with hkey
      · exact hkey ▸ getTranslatedString_none hf
      · rfl
    | some l => exact getTranslatedString_remove hf
  unfold XlateTable.forget
  dsimp only
  by_cases hlang : orig = langId
  · rw [if_pos hlang, (insertTranslation_accepted (accepted_langId (by decide +kernel))).2,
      hgone _ rfl, if_pos hlang, hlang]
    split_ifs <;> rfl
  · rw [if_neg hlang, hgone _ rfl, if_neg hlang]

theorem Kept.forget (h : Kept t) (orig : List Char) : Kept (t.forget orig) := by
  obtain ⟨lang, hlang⟩ := h.language
  refine ⟨fun key s hs => ?_, ?_⟩
  · rw [getTranslatedString_forget] at hs
    split_ifs at hs with hkey hname
    · subst hkey hname
      obtain rfl := Option.some.inj hs
      exact ⟨accepted_langId (by decide +kernel), by decide, by decide⟩
    · exact h.accepted key s hs
  · rw [getTranslatedString_forget]
    split_ifs with hkey
    · exact ⟨_, rfl⟩
    · exact ⟨lang, hlang⟩

theorem Reachable.kept (h : Reachable t) : Kept t := by
  induction h with
  | init => exact kept_init
  | insert _ ho ht ih => exact ih.insert ho ht
  | forget _ ih => exact ih.forget _

/-! ### Inserting all of a table -/

/-- The translations of a list, one after the other. -/
def insertAll (t : XlateTable) (is : List XlateItem) : XlateTable :=
  is.foldl (fun t i => (t.insertTranslation i.orig i.translated).1) t

theorem getTranslatedString_insertAll {is : List XlateItem}
    (hacc : ∀ i ∈ is, Accepted i.orig i.translated) (hnodup : (is.map XlateItem.orig).Nodup)
    (t : XlateTable) (key : List Char) : (t.insertAll is).getTranslatedString key =
      ((is.find? fun i => i.orig = key).map XlateItem.translated).or (t.getTranslatedString key) := by
  induction is generalizing t with
  | nil => rfl
  | cons i is ih =>
    rw [List.map_cons, List.nodup_cons] at hnodup
    have hi := hacc i List.mem_cons_self
    unfold insertAll at ih ⊢
    rw [List.foldl_cons, ih (fun j hj => hacc j (List.mem_cons_of_mem _ hj)) hnodup.2,
      (insertTranslation_accepted hi).2, List.find?_cons]
    by_cases hkey : i.orig = key
    · have hnone : is.find? (fun j => j.orig = key) = none :=
        List.find?_eq_none.2 fun j hj hjk => hnodup.1 (by
          rw [hkey, ← of_decide_eq_true hjk]
          exact List.mem_map_of_mem hj)
      simp [hkey, hnone]
    · simp [hkey]

end XlateTable

/-! ### A line of the dump is read back -/

section Line

variable {env : PasteEnv XlateWorld} {template : List (List Char)} {n : ℕ} {orig translated : List Char}
  {s : PtrState XlateWorld} {w : XlateWorld}

theorem escapedChar_bracket {c : Char} (h : '[' ∈ escapedChar c) : c = '[' := by
  unfold escapedChar at h
  cases hl : namedEscapes.lookup c with
  | some l =>
    rw [hl] at h
    obtain ⟨l₁, l₂, hsplit, -⟩ := List.lookup_eq_some_iff.1 hl
    have hmem : (c, l) ∈ namedEscapes := by simp [hsplit]
    have hno : ∀ p ∈ namedEscapes, p.2 ≠ '[' := by decide
    rcases List.mem_cons.1 h with h | h
    · cases h
    · exact absurd (List.mem_singleton.1 h).symm (hno _ hmem)
  | none =>
    rw [hl] at h
    dsimp only at h
    split_ifs at h with hctl
    · have hlow : c.toNat < 128 := by
        simp only [isControl, Bool.or_eq_true, Bool.and_eq_true, decide_eq_true_eq] at hctl
        omega
      obtain ⟨h1, h2, -⟩ := hexChar_spec _ hlow
      simp only [List.mem_cons, List.not_mem_nil, or_false] at h
      rcases h with h | h | h | h
      · cases h
      · cases h
      · rw [← h] at h1
        cases h1
      · rw [← h] at h2
        cases h2
    · exact (List.mem_singleton.1 h).symm

theorem fEscape_bracket {s : List Char} (hs : '[' ∉ s) : '[' ∉ fEscape s true := by
  intro h
  simp only [fEscape, if_true, List.cons_append, List.mem_cons, List.mem_append,
    List.not_mem_nil, or_false, List.mem_flatMap] at h
  rcases h with h | ⟨c, hc, h⟩ | h
  · cases h
  · exact hs (escapedChar_bracket h ▸ hc)
  · cases h

/-- Nothing is left of the line. -/
theorem verifyEnd_end (h : s.Literal) (hpos : s.ptr.pos = []) (hn : 0 < n) :
    verifyEnd env n s = .ok () s := by
  obtain ⟨⟨p, nested, allow, pushed, happened, nonconst⟩, world⟩ := s
  obtain ⟨h1, h2, -⟩ := h
  simp only at h1 h2 hpos
  subst h1 h2 hpos
  obtain ⟨n, rfl⟩ := Nat.exists_eq_succ_of_ne_zero (show n ≠ 0 by omega)
  rfl

theorem length_escape (s : List Char) : s.length < (fEscape s true).length := by
  have hone (c : Char) : 1 ≤ (escapedChar c).length := by
    unfold escapedChar
    split
    · simp
    · split_ifs <;> simp
  have hbody : s.length ≤ (s.flatMap escapedChar).length := by
    induction s with
    | nil => exact Nat.le_refl _
    | cons c s ih =>
      rw [List.flatMap_cons, List.length_append, List.length_cons]
      have := hone c
      omega
  simp only [fEscape, if_true, List.length_append, List.length_cons, List.length_nil]
  omega

/-- **A line of the dump inserts its translation.** -/
theorem translateLine_dumpLine {c : LiteralSeps} (ho : '\x00' ∉ orig ∧ '[' ∉ orig)
    (ht : '\x00' ∉ translated ∧ '[' ∉ translated)
    (hn : (XlateTable.dumpLine orig translated).length < n) :
    translateLine env template n c (XlateTable.dumpLine orig translated) w =
      ({ w with table := (w.table.insertTranslation orig translated).1 },
        (w.table.insertTranslation orig translated).2) := by
  have ho' : ∀ c ∈ orig, c ≠ '\x00' := fun c hc h => ho.1 (h ▸ hc)
  have ht' : ∀ c ∈ translated, c ≠ '\x00' := fun c hc h => ht.1 (h ▸ hc)
  set second := ' ' :: fEscape translated true with hsecond
  set text := ' ' :: (fEscape orig true ++ second) with htext
  have hline : XlateTable.dumpLine orig translated = "TRANSLATE".toList ++ text := rfl
  have hword : findInitialToken c (XlateTable.dumpLine orig translated) = (.translate, text) := by
    have hletters : ∀ ch ∈ "TRANSLATE".toList, (!isEmptyChar ch) = true :=
      List.all_eq_true.1 (by decide)
    have htake : (XlateTable.dumpLine orig translated).takeWhile (fun ch => !isEmptyChar ch) =
        "TRANSLATE".toList := by
      rw [hline, List.takeWhile_append_of_pos hletters, htext,
        List.takeWhile_cons_of_neg (by decide), List.append_nil]
    have hdrop : (XlateTable.dumpLine orig translated).dropWhile (fun ch => !isEmptyChar ch) =
        text := by
      rw [hline, List.dropWhile_append_of_pos hletters, htext,
        List.dropWhile_cons_of_neg (by decide)]
    have hfind : findToken c "TRANSLATE".toList = .translate := by
      rw [show "TRANSLATE".toList = ['T', 'R', 'A', 'N', 'S', 'L', 'A', 'T', 'E'] by decide]
      unfold findToken
      dsimp only
      rw [if_neg (by decide), if_neg (by decide)]
      decide +kernel
    have hskip : (XlateTable.dumpLine orig translated).dropWhile isEmptyChar =
        XlateTable.dumpLine orig translated := by
      rw [hline]
      exact List.dropWhile_cons_of_neg (by decide)
    unfold findInitialToken
    dsimp only
    rw [hskip, htake, hdrop, hfind]
  have hlen : (fEscape orig true).length < n ∧ (fEscape translated true).length < n ∧ 1 < n := by
    rw [hline, htext, hsecond] at hn
    simp only [List.length_append, List.length_cons] at hn
    omega
  have hlo := length_escape orig
  have hlt := length_escape translated
  have hbracket : '[' ∉ text := by
    simp [htext, hsecond, fEscape_bracket ho.2, fEscape_bracket ht.2]
  have hlit : (⟨createParser text, w⟩ : PtrState XlateWorld).Literal := ⟨rfl, rfl, .inr hbracket⟩
  have hblank : ∀ b ∈ [' '], isEmptyChar b = true := List.forall_mem_singleton.2 rfl
  have hpeek := @parseNonSpaceChar_literal _ env ⟨createParser text, w⟩ '"'
    (orig.flatMap escapedChar ++ '"' :: second) n [' '] hlit (by simp [createParser, htext, fEscape])
    hblank (by decide) (by simpa using hlen.2.2) true
  have hfirst : '"' :: (orig.flatMap escapedChar ++ '"' :: second) = fEscape orig true ++ second := by
    simp [fEscape]
  rw [if_pos rfl, hfirst] at hpeek
  have hlit₁ := @PtrState.Literal.moveTo _ _ (fEscape orig true ++ second) hlit
    (List.subset_cons_self _ _)
  have hread := @parseQuotedString_escaped _ env _ orig second n [] ho' hlit₁ rfl
    (fun b hb => absurd hb List.not_mem_nil)
    ⟨Nat.zero_lt_of_lt hlen.2.2, by omega⟩
  have hlit₂ := @PtrState.Literal.moveTo _ _ second hlit₁ (List.subset_append_right _ _)
  have hread' := @parseQuotedString_escaped _ env _ translated [] n [' '] ht' hlit₂
    (by simp [hsecond]) hblank ⟨by simpa using hlen.2.2, by omega⟩
  have hlit₃ := @PtrState.Literal.moveTo _ _ [] hlit₂ (List.nil_subset _)
  have hrun : doTranslate env template n ⟨createParser text, w⟩ =
      insertString orig translated ((⟨createParser text, w⟩ : PtrState XlateWorld).moveTo []) := by
    unfold doTranslate
    rw [Lib.bind_ok hpeek]
    dsimp only
    rw [if_neg (not_not.2 rfl), Lib.bind_ok hread]
    have hsome : unlessEoln (parseQuotedString env n)
        (((⟨createParser text, w⟩ : PtrState XlateWorld).moveTo (fEscape orig true ++ second)).moveTo
          second) = .ok (some translated) ((⟨createParser text, w⟩ : PtrState XlateWorld).moveTo []) := by
      unfold unlessEoln
      rw [hread']
      rfl
    rw [Lib.bind_ok hsome]
    dsimp only
    have hend : verifyEnd env n ((⟨createParser text, w⟩ : PtrState XlateWorld).moveTo []) =
        .ok () ((⟨createParser text, w⟩ : PtrState XlateWorld).moveTo []) :=
      verifyEnd_end hlit₃ rfl (Nat.zero_lt_of_lt hlen.2.2)
    rw [Lib.bind_ok hend]
  unfold translateLine
  rw [hword]
  dsimp only
  rw [hrun]
  unfold insertString
  dsimp only [PtrState.moveTo]
  cases hr : (w.table.insertTranslation orig translated).2 <;> rfl

end Line

/-! ### The dump is read back -/

section Dump

variable {env : PasteEnv XlateWorld} {template : List (List Char)} {n : ℕ} {c : LiteralSeps}
  {w : XlateWorld} {t : XlateTable}

/-- The dump as a file. -/
def XlateTable.dumpText (t : XlateTable) : List Char := t.dump.flatMap (· ++ ['\n'])

/-- The translations of the dump, in its order. -/
def XlateTable.dumped (t : XlateTable) : List XlateItem :=
  ((t.getTranslatedString XlateTable.langId).map (⟨XlateTable.langId, ·⟩)).toList ++
    t.items.filter (·.orig ≠ XlateTable.langId)

theorem dump_eq (t : XlateTable) : t.dump = "# Translation table".toList ::
    t.dumped.map fun i => XlateTable.dumpLine i.orig i.translated := by
  unfold XlateTable.dump XlateTable.dumped
  cases t.getTranslatedString XlateTable.langId <;> simp

theorem mem_dumped (i : XlateItem) : i ∈ t.dumped ↔ i ∈ t.items := by
  unfold XlateTable.dumped
  rw [List.mem_append, Option.mem_toList, Option.map_eq_some_iff, List.mem_filter]
  constructor
  · rintro (⟨s, hs, rfl⟩ | ⟨h, -⟩)
    · exact XlateTable.getTranslatedString_iff.1 hs
    · exact h
  · intro h
    by_cases hlang : i.orig = XlateTable.langId
    · exact .inl ⟨i.translated, XlateTable.getTranslatedString_iff.2 (hlang ▸ h), by rw [← hlang]⟩
    · exact .inr ⟨h, by simpa using hlang⟩

theorem dumped_nodup (t : XlateTable) : (t.dumped.map XlateItem.orig).Nodup := by
  unfold XlateTable.dumped
  have hrest : ((t.items.filter (·.orig ≠ XlateTable.langId)).map XlateItem.orig).Nodup :=
    t.items_orig_nodup.sublist (List.filter_sublist.map _)
  cases t.getTranslatedString XlateTable.langId with
  | none => exact hrest
  | some s =>
    refine List.nodup_cons.2 ⟨fun hmem => ?_, hrest⟩
    obtain ⟨i, hi, horig⟩ := List.mem_map.1 hmem
    exact absurd horig (by simpa using (List.mem_filter.1 hi).2)

theorem translateLines_dumped {is : List XlateItem}
    (hacc : ∀ i ∈ is, XlateTable.Accepted i.orig i.translated)
    (hplain : ∀ i ∈ is, ('\x00' ∉ i.orig ∧ '[' ∉ i.orig) ∧ '\x00' ∉ i.translated ∧ '[' ∉ i.translated)
    (hn : ∀ i ∈ is, (XlateTable.dumpLine i.orig i.translated).length < n) :
    translateLines env template n c (is.map fun i => XlateTable.dumpLine i.orig i.translated) w =
      ({ w with table := w.table.insertAll is }, []) := by
  induction is generalizing w with
  | nil => rfl
  | cons i is ih =>
    rw [List.forall_mem_cons] at hacc hplain hn
    have hline := @translateLine_dumpLine env template n _ _ w c hplain.1.1 hplain.1.2 hn.1
    rw [(XlateTable.insertTranslation_accepted hacc.1).1] at hline
    have hrest := ih hacc.2 hplain.2 hn.2
      (w := { w with table := (w.table.insertTranslation i.orig i.translated).1 })
    unfold translateLines at hrest ⊢
    rw [List.map_cons, List.foldl_cons]
    dsimp only
    rw [hline]
    exact hrest

/-- A line of a file as a command: without its leading white space, unless it is blank or a
comment. -/
def commandOf (line : List Char) : Option (List Char) :=
  let text := line.dropWhile isEmptyChar
  if LineReader.isIgnored text then none else some text

/-- The logical lines of a text that is made of plain lines. -/
theorem sigLines_plain {lines : List (List Char)} (h : ∀ line ∈ lines, '\n' ∉ line ∧
    line.getLast? ≠ some '\\' ∧ line ≠ LineReader.eofMark) (no : ℕ) :
    (LineReader.sigLines (LineReader.rawLines no (lines.flatMap (· ++ ['\n'])))).map (·.text) =
      lines.filterMap commandOf := by
  induction lines generalizing no with
  | nil => rfl
  | cons line lines ih =>
    rw [List.forall_mem_cons] at h
    obtain ⟨⟨hnl, hlast, heof⟩, h⟩ := h
    have hsplit : ((line :: lines).flatMap (· ++ ['\n'])).splitOn '\n' =
        line :: (lines.flatMap (· ++ ['\n'])).splitOn '\n' := by
      rw [List.flatMap_cons, List.append_assoc, List.singleton_append]
      exact List.splitOn_append_cons_self_of_not_mem hnl _
    have hraw : LineReader.rawLines no ((line :: lines).flatMap (· ++ ['\n'])) =
        ⟨line, no + 1, no + 1⟩ :: LineReader.rawLines (no + 1) (lines.flatMap (· ++ ['\n'])) := by
      unfold LineReader.rawLines
      rw [hsplit, LineReader.joinLines, if_neg hlast]
      rfl
    rw [hraw, LineReader.sigLines_cons heof, List.map_append, ih h, List.filterMap_cons]
    unfold LineReader.significant commandOf
    dsimp only
    split_ifs <;> rfl

theorem fEscape_newline {s : List Char} (hs : '\x00' ∉ s) : '\n' ∉ fEscape s true := by
  intro h
  simp only [fEscape, if_true, List.cons_append, List.mem_cons, List.mem_append, List.not_mem_nil,
    or_false, List.mem_flatMap] at h
  rcases h with h | ⟨c, hc, h⟩ | h
  · cases h
  · have hw := escapedChar_written fun h0 : c = '\x00' => hs (h0 ▸ hc)
    exact absurd (hw.no_control h) (by decide)
  · cases h

theorem dumpLine_plain {orig translated : List Char} (ho : '\x00' ∉ orig) (ht : '\x00' ∉ translated) :
    '\n' ∉ XlateTable.dumpLine orig translated ∧
      (XlateTable.dumpLine orig translated).getLast? ≠ some '\\' ∧
      XlateTable.dumpLine orig translated ≠ LineReader.eofMark ∧
      commandOf (XlateTable.dumpLine orig translated) =
        some (XlateTable.dumpLine orig translated) := by
  have hline : XlateTable.dumpLine orig translated =
      'T' :: ("RANSLATE ".toList ++ fEscape orig true ++ ' ' :: fEscape translated true) := rfl
  refine ⟨?_, ?_, ?_, ?_⟩
  · unfold XlateTable.dumpLine
    simp [fEscape_newline ho, fEscape_newline ht]
  · have hlast : XlateTable.dumpLine orig translated =
        ("TRANSLATE ".toList ++ fEscape orig true ++
          (' ' :: '"' :: translated.flatMap escapedChar)) ++ ['"'] := by
      unfold XlateTable.dumpLine
      simp [fEscape]
    rw [hlast, List.getLast?_concat]
    decide
  · rw [hline]
    exact fun h => absurd (List.cons.inj h).1 (by decide)
  · unfold commandOf
    rw [hline, List.dropWhile_cons_of_neg (by decide)]
    rfl

/-- **TRANSLATE DUMP is read back.**  Its output is a text whose commands, run on the table that
there is at the start, make a table with the same translations, and there is no error; for every
table that TRANSLATE commands make, of strings with no `[` in them. -/
theorem dump_readsBack (ht : t.Reachable) (hplain : ∀ i ∈ t.items, '[' ∉ i.orig ∧ '[' ∉ i.translated)
    (hn : ∀ line ∈ t.dump, line.length < n) (hw : w.table = .init) :
    ∃ w', translateLines env template n c
        ((LineReader.sigLines (LineReader.rawLines 0 t.dumpText)).map (·.text)) w = (w', []) ∧
      w'.out = w.out ∧
      ∀ key, w'.table.getTranslatedString key = t.getTranslatedString key := by
  have hkept := ht.kept
  have hitem {i : XlateItem} (hi : i ∈ t.dumped) :
      (XlateTable.Accepted i.orig i.translated ∧ '\x00' ∉ i.orig ∧ '\x00' ∉ i.translated) ∧
        '[' ∉ i.orig ∧ '[' ∉ i.translated := by
    rw [mem_dumped] at hi
    exact ⟨hkept.accepted _ _ (XlateTable.getTranslatedString_iff.2 hi), hplain i hi⟩
  have hlines : (LineReader.sigLines (LineReader.rawLines 0 t.dumpText)).map (·.text) =
      t.dumped.map fun i => XlateTable.dumpLine i.orig i.translated := by
    have hall : ∀ line ∈ t.dump, '\n' ∉ line ∧ line.getLast? ≠ some '\\' ∧
        line ≠ LineReader.eofMark := by
      rw [dump_eq]
      refine List.forall_mem_cons.2 ⟨by decide, fun line hline => ?_⟩
      obtain ⟨i, hi, rfl⟩ := List.mem_map.1 hline
      obtain ⟨h1, h2, h3, -⟩ := dumpLine_plain (hitem hi).1.2.1 (hitem hi).1.2.2
      exact ⟨h1, h2, h3⟩
    rw [XlateTable.dumpText, sigLines_plain hall, dump_eq, List.filterMap_cons]
    show List.filterMap commandOf _ = _
    rw [List.filterMap_map]
    refine (List.filterMap_congr fun i hi => ?_).trans (congrFun List.filterMap_eq_map' _)
    exact (dumpLine_plain (hitem hi).1.2.1 (hitem hi).1.2.2).2.2.2
  rw [dump_eq] at hn
  have hrun := @translateLines_dumped env template n c w t.dumped (fun i hi => (hitem hi).1.1)
    (fun i hi => ⟨⟨(hitem hi).1.2.1, (hitem hi).2.1⟩, (hitem hi).1.2.2, (hitem hi).2.2⟩)
    fun i hi => hn _ (List.mem_cons_of_mem _ (List.mem_map_of_mem hi))
  refine ⟨{ w with table := w.table.insertAll t.dumped }, by rw [hlines, hrun], rfl, fun key => ?_⟩
  rw [hw, XlateTable.getTranslatedString_insertAll (fun i hi => (hitem hi).1.1) (dumped_nodup t)]
  cases hfind : t.dumped.find? fun i => i.orig = key with
  | some i =>
    have hi := List.mem_of_find?_eq_some hfind
    have hkey : i.orig = key := by simpa using List.find?_some hfind
    rw [← hkey, XlateTable.getTranslatedString_iff.2 ((mem_dumped i).1 hi)]
    rfl
  | none =>
    have hnone : t.getTranslatedString key = none := by
      refine Option.eq_none_iff_forall_ne_some.2 fun s hs => ?_
      have hmem := (mem_dumped _).2 (XlateTable.getTranslatedString_iff.1 hs)
      simpa using List.find?_eq_none.1 hfind _ hmem
    have hlang : XlateTable.langId ≠ key := by
      rintro rfl
      obtain ⟨s, hs⟩ := hkept.language
      rw [hnone] at hs
      cases hs
    rw [hnone, XlateTable.getTranslatedString_init, if_neg hlang]
    rfl

/-- A table with one translation, dumped and read. -/
theorem dump_readsBack_rain :
    ∃ w', translateLines (⟨fun _ w => ((.error .parseErr, []), w), {}⟩ : PasteEnv XlateWorld) [] 99 {}
        ((LineReader.sigLines (LineReader.rawLines 0 (XlateTable.dumpText
          (XlateTable.init.insertTranslation "rain\n".toList "\"pluie\"".toList).1))).map (·.text))
        ⟨.init, []⟩ = (w', []) ∧
      w'.out = [] ∧
      ∀ key, w'.table.getTranslatedString key =
        (XlateTable.init.insertTranslation "rain\n".toList "\"pluie\"".toList).1.getTranslatedString
          key :=
  dump_readsBack (.insert .init (by decide) (by decide)) (by decide +kernel) (by decide +kernel) rfl

end Dump

end Remind
