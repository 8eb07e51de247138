import Mathlib.Data.List.TakeWhile
import Remind.Trigger
import Remind.UserFns

/-!
# Translate — the translation table (trans.c) and its check of printf formats

A translation is used as a format with the arguments of the original.  `getPrintfEscapes` is what
`InsertTranslation` compares; `conversions` are the conversions that printf makes.  The scanner does
not know `*`: it stops there, and what follows up to the conversion letter is not compared.
-/

namespace Remind

open HashTable
open scoped List

/-! ### The table -/

/-- `XlateItem` -/
structure XlateItem where
  orig : List Char
  translated : List Char
  deriving DecidableEq

/-- `HashXlateItem`, `CompareXlateItems` -/
def xlateHashing : Hashing XlateItem (List Char) where
  hashfunc i := hashValPreservecase i.orig
  compare i j := i.orig == j.orig
  key i := i.orig
  compare_iff i j := by simp
  hash_congr i j h := by rw [h]

/-- `TranslationTable` -/
structure XlateTable where
  tbl : HashTable XlateItem
  wf : tbl.Wf xlateHashing

/-- The flags, digits and length modifiers in `get_printf_escapes`. -/
def printfChars : List Char :=
  ['#', '0', '-', ' ', '+', '\'', 'I', '%', '1', '2', '3', '4', '5', '6', '7', '8', '9', '.', 'h',
    'l', 'q', 'L', 'j', 'z', 'Z', 't']

/-- The inner loop of `get_printf_escapes`, at `c` with `rest` behind it: what it puts out, and what
is left after the last of it. -/
def printfEscape (c : Char) : List Char → List Char × List Char
  | [] => ([], [])
  | d :: rest =>
    if c ∈ printfChars then (d :: (printfEscape d rest).1, (printfEscape d rest).2)
    else ([], d :: rest)

theorem printfEscape_length (c : Char) (rest : List Char) :
    (printfEscape c rest).2.length ≤ rest.length := by
  induction rest generalizing c with
  | nil => simp [printfEscape]
  | cons d rest ih =>
    unfold printfEscape
    split_ifs
    · exact (ih d).trans (Nat.le_succ _)
    · exact le_refl _

/-- `get_printf_escapes` -/
def getPrintfEscapes : List Char → List Char
  | [] => []
  | c :: rest =>
    if c = '%' then
      match rest with
      | [] => []
      | d :: rest =>
        -- %% is safe
        if d = '%' then getPrintfEscapes rest
        else
          have := printfEscape_length d rest
          d :: (printfEscape d rest).1 ++ getPrintfEscapes (printfEscape d rest).2
    else getPrintfEscapes rest
termination_by s => s.length

/-- `printf_formatters_are_safe` -/
def printfFormattersAreSafe (orig translated : List Char) : Bool :=
  getPrintfEscapes orig == getPrintfEscapes translated

namespace XlateTable

/-- The entry that `FindTranslation` finds. -/
def findTranslation (t : XlateTable) (orig : List Char) : Option (Link XlateItem) :=
  t.tbl.find xlateHashing ⟨orig, []⟩

/-- `RemoveTranslation` -/
def removeTranslation (t : XlateTable) (l : Link XlateItem) : XlateTable :=
  if h : l ∈ t.tbl.links then ⟨t.tbl.delete l, (t.wf.delete h).1⟩ else t

/-- `hash_table_insert(&TranslationTable, item)`; `InsertTranslation` has removed the old item. -/
def add (t : XlateTable) (i : XlateItem) : XlateTable :=
  if h : t.tbl.find xlateHashing i = none then
    ⟨t.tbl.insert xlateHashing i, (t.wf.insert h).1⟩
  else t

/-- `"LANGID"` -/
def langId : List Char := ['L', 'A', 'N', 'G', 'I', 'D']

/-- `InsertTranslation` -/
def insertTranslation (t : XlateTable) (orig translated : List Char) :
    XlateTable × Option ErrCode :=
  if !printfFormattersAreSafe orig translated then (t, some .parseErr)
  else
    match t.findTranslation orig with
    | some l =>
      if l.item.translated = translated then (t, none)
      else if orig ≠ langId ∧ orig = translated then (t.removeTranslation l, none)
      else ((t.removeTranslation l).add ⟨orig, translated⟩, none)
    | none =>
      if orig ≠ langId ∧ orig = translated then (t, none)
      else (t.add ⟨orig, translated⟩, none)

/-- The table before `InitTranslationTable` puts the language in. -/
def empty : XlateTable := ⟨HashTable.init, wf_init⟩

/-- `InitTranslationTable` -/
def init : XlateTable := (empty.insertTranslation langId ['e', 'n']).1

end XlateTable

/-! ### Conversions -/

/-- The flags of a conversion. -/
def isFlag (c : Char) : Bool := c ∈ ['#', '0', '-', ' ', '+', '\'', 'I']

/-- Digits and points: a width and a precision that are no argument. -/
def isWidth (c : Char) : Bool :=
  c ∈ ['0', '1', '2', '3', '4', '5', '6', '7', '8', '9', '.']

/-- The stars of a conversion, `prev` being the character before: whether each is a precision. -/
def starsFrom : Char → List Char → List Bool
  | _, [] => []
  | prev, c :: s => if c = '*' then (prev == '.') :: starsFrom c s else starsFrom c s

/-- A conversion: its flags, its arguments for width and precision, its length modifier and its
letter, if it has one. -/
structure Conversion where
  flags : List Char
  stars : List Bool
  modifier : List Char
  letter : Option Char
  deriving DecidableEq

/-- The conversion with the text `spec` between the percent sign and the letter. -/
def conversion (spec : List Char) (letter : Option Char) : Conversion where
  flags := spec.takeWhile isFlag
  stars := starsFrom ' ' spec
  modifier := (spec.dropWhile isFlag).filter fun c => !isWidth c && c != '*'
  letter := letter

/-- What may stand between a percent sign and the letter. -/
def inSpec (c : Char) : Bool := c ∈ printfChars || c == '*'

theorem specTail_length (p : Char → Bool) (s : List Char) :
    (s.dropWhile p).tail.length ≤ s.length := by
  have h := (List.dropWhile_sublist p (l := s)).length_le
  rw [List.length_tail]
  omega

/-- The text of each conversion of a format, of characters that `p` allows, and the letter behind
it. -/
def specsBy (p : Char → Bool) : List Char → List (List Char × Option Char)
  | [] => []
  | c :: rest =>
    if c = '%' then
      match rest with
      | [] => []
      | d :: rest =>
        if d = '%' then specsBy p rest
        else
          have := specTail_length p (d :: rest)
          ((d :: rest).takeWhile p, ((d :: rest).dropWhile p).head?) ::
            specsBy p ((d :: rest).dropWhile p).tail
    else specsBy p rest
termination_by s => s.length
decreasing_by all_goals simp only [List.length_cons] at *; omega

/-- The conversions of a format, as they are written. -/
def specs (s : List Char) : List (List Char × Option Char) := specsBy inSpec s

/-- The conversions of a format. -/
def conversions (s : List Char) : List Conversion := (specs s).map fun p => conversion p.1 p.2

/-- What of a conversion stands behind its first star: further stars, the length modifier and the
letter. -/
def afterStar (spec : List Char) (letter : Option Char) : Option Conversion :=
  match spec.dropWhile (· != '*') with
  | [] => none
  | _ :: post =>
    some ⟨[], starsFrom '*' post, post.filter fun c => !isWidth c && c != '*', letter⟩

/-- For each conversion with a star, what stands behind it. -/
def afterStars (s : List Char) : List Conversion := (specs s).filterMap fun p => afterStar p.1 p.2

/-! ### What the scanner compares -/

section Scanner

variable {p : Char → Bool}

/-- What follows the first percent sign that begins a conversion. -/
def nextSpec : List Char → Option (List Char)
  | [] => none
  | c :: rest =>
    if c = '%' then
      match rest with
      | [] => none
      | d :: rest => if d = '%' then nextSpec rest else some (d :: rest)
    else nextSpec rest

theorem specsBy_other {c : Char} (hc : c ≠ '%') (rest : List Char) :
    specsBy p (c :: rest) = specsBy p rest := by
  rw [specsBy.eq_def]
  simp only [if_neg hc]

theorem nextSpec_other {c : Char} (hc : c ≠ '%') (rest : List Char) :
    nextSpec (c :: rest) = nextSpec rest := by
  rw [nextSpec.eq_def]
  simp only [if_neg hc]

theorem specsBy_eq (s : List Char) : specsBy p s =
    match nextSpec s with
    | none => []
    | some s' => (s'.takeWhile p, (s'.dropWhile p).head?) :: specsBy p (s'.dropWhile p).tail := by
  fun_induction nextSpec s with
  | case1 => rw [specsBy]
  | case2 =>
    rw [specsBy.eq_def]
    simp only [if_true]
  | case3 rest ih =>
    rw [← ih, specsBy.eq_def]
    simp only [if_true]
  | case4 d rest hd =>
    rw [specsBy.eq_def]
    simp only [if_true, if_neg hd]
  | case5 c rest hc ih => rw [specsBy_other hc, ih]

theorem nextSpec_spec {s s' : List Char} (h : nextSpec s = some s') :
    s' ≠ [] ∧ s'.length < s.length := by
  fun_induction nextSpec s with
  | case1 => cases h
  | case2 => cases h
  | case3 rest ih =>
    obtain ⟨hne, hlen⟩ := ih h
    exact ⟨hne, by simp only [List.length_cons]; omega⟩
  | case4 d rest hd =>
    cases h
    exact ⟨by simp, by simp⟩
  | case5 c rest hc ih =>
    obtain ⟨hne, hlen⟩ := ih h
    exact ⟨hne, by simp only [List.length_cons]; omega⟩

theorem nextSpec_append {a : List Char} (ha : '%' ∉ a) (s : List Char) :
    nextSpec (a ++ s) = nextSpec s := by
  induction a with
  | nil => rfl
  | cons c a ih =>
    rw [List.mem_cons, not_or] at ha
    rw [List.cons_append, nextSpec_other (Ne.symm ha.1), ih ha.2]

/-- The characters that `get_printf_escapes` goes on after. -/
def inEscape (c : Char) : Bool := c ∈ printfChars

theorem printfEscape_eq (c : Char) (rest : List Char) :
    c :: (printfEscape c rest).1 =
      (c :: rest).takeWhile inEscape ++ ((c :: rest).dropWhile inEscape).head?.toList ∧
    (printfEscape c rest).2 = ((c :: rest).dropWhile inEscape).tail := by
  induction rest generalizing c with
  | nil => by_cases hc : c ∈ printfChars <;> simp [printfEscape, inEscape, hc]
  | cons d rest ih =>
    by_cases hc : c ∈ printfChars
    · have hc' : inEscape c = true := by simpa [inEscape] using hc
      obtain ⟨h1, h2⟩ := ih d
      rw [printfEscape, if_pos hc, List.takeWhile_cons_of_pos hc', List.dropWhile_cons_of_pos hc',
        List.cons_append, ← h1]
      exact ⟨rfl, h2⟩
    · have hc' : ¬ inEscape c = true := by simpa [inEscape] using hc
      rw [printfEscape, if_neg hc, List.takeWhile_cons_of_neg hc', List.dropWhile_cons_of_neg hc']
      exact ⟨rfl, rfl⟩

/-- The text that a list of conversions is put out as. -/
def escapeText (l : List (List Char × Option Char)) : List Char :=
  (l.map fun q => q.1 ++ q.2.toList).flatten

theorem getPrintfEscapes_eq (s : List Char) :
    getPrintfEscapes s = escapeText (specsBy inEscape s) := by
  fun_induction getPrintfEscapes s with
  | case1 => rw [specsBy_eq]; rfl
  | case2 => rw [specsBy_eq]; rfl
  | case3 rest ih =>
    rw [ih, specsBy_eq rest, specsBy_eq ('%' :: '%' :: rest)]
    rfl
  | case4 d rest hd hlen ih =>
    obtain ⟨h1, h2⟩ := printfEscape_eq d rest
    have hnext : nextSpec ('%' :: d :: rest) = some (d :: rest) := by
      rw [nextSpec.eq_def]
      simp only [if_true, if_neg hd]
    rw [ih, h1, h2, specsBy_eq ('%' :: d :: rest), hnext]
    rfl
  | case5 c rest hc ih => rw [ih, specsBy_other hc]

/-- The conversions can be told apart in the text: each but the last has a letter, which ends it. -/
inductive Coded (p : Char → Bool) : List (List Char × Option Char) → Prop where
  | nil : Coded p []
  | last {a} (ha : ∀ c ∈ a, p c = true) (hne : a ≠ []) : Coded p [(a, none)]
  | cons {a c l} (ha : ∀ d ∈ a, p d = true) (hc : p c = false) (hl : Coded p l) :
      Coded p ((a, some c) :: l)

theorem specsBy_coded (s : List Char) : Coded p (specsBy p s) := by
  induction hn : s.length using Nat.strong_induction_on generalizing s with
  | _ n ih =>
    rw [specsBy_eq]
    cases hs : nextSpec s with
    | none => exact .nil
    | some s' =>
      obtain ⟨hne, hlen⟩ := nextSpec_spec hs
      have ha : ∀ c ∈ s'.takeWhile p, p c = true := fun c hc => List.mem_takeWhile_imp hc
      have happ := List.takeWhile_append_dropWhile (p := p) (l := s')
      simp only
      cases hd : s'.dropWhile p with
      | nil =>
        rw [hd, List.append_nil] at happ
        simp only [List.head?_nil, List.tail_nil, specsBy]
        exact .last ha (by rw [happ]; exact hne)
      | cons c rest =>
        have hc : p c = false := by
          have := List.head?_dropWhile_not p s'
          rw [hd] at this
          simpa using this
        have hrest : rest.length < n := by
          have := congrArg List.length happ
          rw [hd, List.length_append, List.length_cons] at this
          omega
        exact .cons ha hc (ih rest.length hrest rest rfl)

theorem takeWhile_append_stop {a s : List Char} {c : Char} (ha : ∀ d ∈ a, p d = true)
    (hc : p c = false) :
    (a ++ c :: s).takeWhile p = a ∧ (a ++ c :: s).dropWhile p = c :: s := by
  rw [List.takeWhile_append_of_pos ha, List.dropWhile_append_of_pos ha]
  simp [hc]

theorem escapeText_cons (q : List Char × Option Char) (l : List (List Char × Option Char)) :
    escapeText (q :: l) = q.1 ++ q.2.toList ++ escapeText l := by simp [escapeText]

theorem Coded.text_injective {l l' : List (List Char × Option Char)} (h : Coded p l)
    (h' : Coded p l') (heq : escapeText l = escapeText l') : l = l' := by
  induction h generalizing l' with
  | nil =>
    cases h' with
    | nil => rfl
    | last ha hne => simp [escapeText, hne] at heq
    | cons ha hc hl => simp [escapeText] at heq
  | last ha hne =>
    cases h' with
    | nil => simp [escapeText, hne] at heq
    | last ha' hne' =>
      simp only [escapeText, List.map_cons, List.map_nil, Option.toList_none, List.append_nil,
        List.flatten_cons, List.flatten_nil] at heq
      rw [heq]
    | @cons b c l' hb hc hl' =>
      have hmem : c ∈ escapeText ((b, some c) :: l') := by simp [escapeText_cons]
      rw [← heq] at hmem
      have hp := ha c (by simpa [escapeText] using hmem)
      rw [hc] at hp
      exact Bool.noConfusion hp
  | @cons a c l ha hc hl ih =>
    cases h' with
    | nil => simp [escapeText] at heq
    | @last b hb hne =>
      have hmem : c ∈ escapeText ((a, some c) :: l) := by simp [escapeText_cons]
      rw [heq] at hmem
      have hp := hb c (by simpa [escapeText] using hmem)
      rw [hc] at hp
      exact Bool.noConfusion hp
    | @cons b d l' hb hd hl' =>
      have heq : a ++ c :: escapeText l = b ++ d :: escapeText l' := by
        simpa [escapeText_cons] using heq
      obtain ⟨ht, hdr⟩ := takeWhile_append_stop (s := escapeText l) ha hc
      obtain ⟨ht', hdr'⟩ := takeWhile_append_stop (s := escapeText l') hb hd
      rw [heq] at ht hdr
      obtain rfl : b = a := ht'.symm.trans ht
      obtain ⟨rfl, htail⟩ := List.cons.inj (hdr'.symm.trans hdr)
      rw [ih hl' htail.symm]

theorem specsBy_append {a : List Char} (ha : '%' ∉ a) (s : List Char) :
    specsBy p (a ++ s) = specsBy p s := by
  rw [specsBy_eq, specsBy_eq s, nextSpec_append ha]

end Scanner

/-! ### What is compared of a conversion -/

section Conversions

theorem inSpec_of_inEscape {c : Char} (h : inEscape c = true) : inSpec c = true := by
  unfold inSpec inEscape at *
  simp only [h, Bool.true_or]

/-- A conversion without a star is read whole. -/
theorem takeWhile_plain {s : List Char} (h : '*' ∉ s.takeWhile inSpec) :
    s.takeWhile inEscape = s.takeWhile inSpec ∧ s.dropWhile inEscape = s.dropWhile inSpec := by
  induction s with
  | nil => exact ⟨rfl, rfl⟩
  | cons c s ih =>
    by_cases hc : inSpec c = true
    · rw [List.takeWhile_cons_of_pos hc, List.mem_cons, not_or] at h
      have hesc : inEscape c = true := by
        simpa [inSpec, inEscape, Ne.symm h.1] using hc
      obtain ⟨h1, h2⟩ := ih h.2
      rw [List.takeWhile_cons_of_pos hc, List.takeWhile_cons_of_pos hesc,
        List.dropWhile_cons_of_pos hc, List.dropWhile_cons_of_pos hesc, h1, h2]
      exact ⟨rfl, rfl⟩
    · have hesc : ¬ inEscape c = true := fun hesc => hc (inSpec_of_inEscape hesc)
      rw [List.takeWhile_cons_of_neg hc, List.takeWhile_cons_of_neg hesc,
        List.dropWhile_cons_of_neg hc, List.dropWhile_cons_of_neg hesc]
      exact ⟨rfl, rfl⟩

/-- Of one with a star the scanner reads the part up to it. -/
theorem takeWhile_star {s pre post : List Char} (hpre : '*' ∉ pre)
    (h : s.takeWhile inSpec = pre ++ '*' :: post) :
    s.takeWhile inEscape = pre ∧
      s.dropWhile inEscape = '*' :: (post ++ s.dropWhile inSpec) := by
  have hs : s = pre ++ '*' :: (post ++ s.dropWhile inSpec) := by
    conv_lhs => rw [← List.takeWhile_append_dropWhile (p := inSpec) (l := s), h]
    simp
  have hin : ∀ c ∈ pre, inEscape c = true := by
    intro c hc
    have hspec : inSpec c = true := by
      apply List.mem_takeWhile_imp (l := s)
      rw [h]
      exact List.mem_append_left _ hc
    have hne : c ≠ '*' := ne_of_mem_of_not_mem hc hpre
    simpa [inSpec, inEscape, hne] using hspec
  generalize s.dropWhile inSpec = rest at hs ⊢
  rw [hs]
  exact takeWhile_append_stop hin (by decide)

theorem head?_dropWhile_ne {s : List Char} {c : Char} (hc : inSpec c = true) :
    (s.dropWhile inSpec).head? ≠ some c := by
  intro h
  have hnot := List.head?_dropWhile_not inSpec s
  rw [h] at hnot
  simp [hc] at hnot

/-- The letter of a conversion is no percent sign. -/
theorem specsBy_dropWhile {p : Char → Bool} (s : List Char) :
    specsBy p (s.dropWhile inSpec) = specsBy p (s.dropWhile inSpec).tail := by
  have hne := @head?_dropWhile_ne s '%' (by decide)
  cases hd : s.dropWhile inSpec with
  | nil => rfl
  | cons c rest =>
    rw [hd] at hne
    exact specsBy_other (fun hc => hne (congrArg some hc)) rest

theorem starsFrom_append {pre : List Char} (hpre : '*' ∉ pre) (prev : Char) (post : List Char) :
    ∃ b, starsFrom prev (pre ++ '*' :: post) = b :: starsFrom '*' post ∧
      ∀ post', starsFrom prev (pre ++ '*' :: post') = b :: starsFrom '*' post' := by
  induction pre generalizing prev with
  | nil => exact ⟨prev == '.', rfl, fun _ => rfl⟩
  | cons c pre ih =>
    rw [List.mem_cons, not_or] at hpre
    obtain ⟨b, h, h'⟩ := ih hpre.2 c
    refine ⟨b, ?_, fun post' => ?_⟩
    · rw [List.cons_append, starsFrom, if_neg (Ne.symm hpre.1), h]
    · rw [List.cons_append, starsFrom, if_neg (Ne.symm hpre.1), h']

theorem afterStar_plain {spec : List Char} (h : '*' ∉ spec) (l : Option Char) :
    afterStar spec l = none := by
  have hd : spec.dropWhile (· != '*') = [] := by
    rw [List.dropWhile_eq_nil_iff]
    intro c hc
    simpa using ne_of_mem_of_not_mem hc h
  rw [afterStar, hd]

theorem dropWhile_star {pre : List Char} (hpre : '*' ∉ pre) (post : List Char) :
    (pre ++ '*' :: post).dropWhile (· != '*') = '*' :: post :=
  (takeWhile_append_stop (fun c hc => by simpa using ne_of_mem_of_not_mem hc hpre) (by simp)).2

theorem afterStar_star {pre : List Char} (hpre : '*' ∉ pre) (post : List Char)
    (l : Option Char) : afterStar (pre ++ '*' :: post) l =
      some ⟨[], starsFrom '*' post, post.filter fun c => !isWidth c && c != '*', l⟩ := by
  rw [afterStar, dropWhile_star hpre]

/-- Two conversions that agree up to the first star are the same if they agree behind it. -/
theorem conversion_star_iff {pre : List Char} (hpre : '*' ∉ pre) (post post' : List Char)
    (l l' : Option Char) :
    conversion (pre ++ '*' :: post) l = conversion (pre ++ '*' :: post') l' ↔
      afterStar (pre ++ '*' :: post) l = afterStar (pre ++ '*' :: post') l' := by
  have hflags : ∀ post, (pre ++ '*' :: post).takeWhile isFlag = pre.takeWhile isFlag ∧
      (pre ++ '*' :: post).dropWhile isFlag = pre.dropWhile isFlag ++ '*' :: post := by
    intro post
    clear hpre
    induction pre with
    | nil => exact ⟨rfl, rfl⟩
    | cons c pre ih =>
      by_cases hc : isFlag c = true
      · simp only [List.cons_append, List.takeWhile_cons_of_pos hc, List.dropWhile_cons_of_pos hc,
          ih, and_self]
      · simp only [List.cons_append, List.takeWhile_cons_of_neg hc, List.dropWhile_cons_of_neg hc,
          and_self]
  obtain ⟨b, -, hstars⟩ := starsFrom_append hpre ' ' []
  simp only [conversion, hflags, hstars, afterStar_star hpre, Conversion.mk.injEq,
    List.filter_append, Option.some.injEq, List.cons.injEq, true_and]
  simp

theorem conversions_iff {o t : List Char} (heq : specsBy inEscape o = specsBy inEscape t)
    (hok : ∀ q ∈ specs o, '%' ∉ q.1.dropWhile (· != '*')) :
    conversions o = conversions t ↔ afterStars o = afterStars t := by
  induction hn : o.length using Nat.strong_induction_on generalizing o t with
  | _ n ih =>
    have hspecs : ∀ s, specs s = specsBy inSpec s := fun _ => rfl
    rw [specsBy_eq o, specsBy_eq t] at heq
    rw [hspecs, specsBy_eq] at hok
    unfold conversions afterStars
    rw [hspecs, hspecs, specsBy_eq o, specsBy_eq t]
    cases ho : nextSpec o with
    | none =>
      cases ht : nextSpec t with
      | none => simp
      | some t' => simp [ho, ht] at heq
    | some o' =>
      cases ht : nextSpec t with
      | none => simp [ho, ht] at heq
      | some t' =>
        obtain ⟨-, hlen⟩ := nextSpec_spec ho
        have hlen' : (o'.dropWhile inSpec).tail.length < n := by
          have := specTail_length inSpec o'
          omega
        simp only [ho] at hok
        obtain ⟨hok1, hok2⟩ := List.forall_mem_cons.mp hok
        simp only [ho, ht, List.cons.injEq, Prod.mk.injEq] at heq
        obtain ⟨⟨hread, hletter⟩, hrest⟩ := heq
        have hrec : specsBy inEscape (o'.dropWhile inSpec).tail =
              specsBy inEscape (t'.dropWhile inSpec).tail →
            ((conversions (o'.dropWhile inSpec).tail = conversions (t'.dropWhile inSpec).tail) ↔
              afterStars (o'.dropWhile inSpec).tail = afterStars (t'.dropWhile inSpec).tail) :=
          fun h => ih _ hlen' h hok2 rfl
        unfold conversions afterStars at hrec
        simp only [List.map_cons, List.filterMap_cons]
        by_cases hstar : '*' ∈ o'.takeWhile inSpec
        · -- the scanner stops at the star, in both formats
          obtain ⟨pre, post, hpost, hpre⟩ := List.eq_append_cons_of_mem hstar
          obtain ⟨hesc, hdrop⟩ := takeWhile_star hpre hpost
          have hstar' : '*' ∈ t'.takeWhile inSpec := by
            by_contra hno
            rw [hdrop, (takeWhile_plain hno).2] at hletter
            exact head?_dropWhile_ne (by decide) hletter.symm
          obtain ⟨pre', post', hpost', hpre'⟩ := List.eq_append_cons_of_mem hstar'
          obtain ⟨hesc', hdrop'⟩ := takeWhile_star hpre' hpost'
          obtain rfl : pre = pre' := hesc.symm.trans (hread.trans hesc')
          rw [hdrop, hdrop', List.tail_cons, List.tail_cons] at hrest
          rw [hpost, dropWhile_star hpre, List.mem_cons, not_or] at hok1
          rw [hpost, hpost', afterStar_star hpre, afterStar_star hpre]
          have hfirst := conversion_star_iff hpre post post' (o'.dropWhile inSpec).head?
            (t'.dropWhile inSpec).head?
          rw [afterStar_star hpre, afterStar_star hpre, Option.some.injEq] at hfirst
          rw [List.cons.injEq, List.cons.injEq, hfirst]
          refine and_congr_right fun htail => hrec ?_
          have hmod := (Conversion.mk.inj htail).2.2.1
          have hpost2 : '%' ∉ post' := by
            intro hmem
            have hin : '%' ∈ post'.filter fun c => !isWidth c && c != '*' :=
              List.mem_filter.mpr ⟨hmem, by decide⟩
            rw [← hmod] at hin
            exact hok1.2 (List.mem_filter.mp hin).1
          rw [specsBy_append hok1.2, specsBy_append hpost2] at hrest
          rwa [specsBy_dropWhile, specsBy_dropWhile] at hrest
        · -- a conversion without a star is the same in both
          obtain ⟨hesc, hdrop⟩ := takeWhile_plain hstar
          have hstar' : '*' ∉ t'.takeWhile inSpec := by
            intro hmem
            obtain ⟨pre, post, hpost, hpre⟩ := List.eq_append_cons_of_mem hmem
            rw [hdrop, (takeWhile_star hpre hpost).2] at hletter
            exact head?_dropWhile_ne (by decide) hletter
          obtain ⟨hesc', hdrop'⟩ := takeWhile_plain hstar'
          rw [hdrop, hdrop'] at hrest
          rw [hesc, hesc'] at hread
          rw [hdrop, hdrop'] at hletter
          rw [afterStar_plain hstar, afterStar_plain hstar', hread, hletter, List.cons.injEq]
          simp only [true_and]
          exact hrec hrest

end Conversions

end Remind
