import Mathlib.Data.List.Find
import Mathlib.Data.List.TakeWhile
import Remind.DoSubst

/-!
# TrigInfo — the INFO strings of a trigger as a map (trigger.c)

`AppendTrigInfo` compares the headers of two strings up to their first colons, `FindTrigInfo` takes
a request for the header of a string that begins with it and goes on with a colon.
-/

namespace Remind

/-- The header of an INFO string: what stands before its first colon. -/
def infoHeader (info : List Char) : List Char := info.takeWhile (· ≠ ':')

/-- The value of an INFO string: what follows the first colon and the blanks behind it. -/
def infoValue (info : List Char) : List Char :=
  (info.drop ((infoHeader info).length + 1)).dropWhile isSpace

/-- INFO strings as a trigger may hold them. -/
structure TrigInfos where
  infos : List (List Char) := []
  valid : ∀ info ∈ infos, trigInfoIsValid info := by simp
  distinct : infos.Pairwise fun a b => ¬ strcasecmp (infoHeader a) (infoHeader b) := by simp

/-- What the header of a string is looked up by: the value of the stored string with that header. -/
def TrigInfos.lookup (t : TrigInfos) (h : List Char) : Option (List Char) :=
  (t.infos.find? fun info => strcasecmp (infoHeader info) h).map infoValue

/-- `info` begins with `h` and a colon, which is what `FindTrigInfo` looks for. -/
def beginsWithHeader (h info : List Char) : Bool :=
  strcasecmp (info.take h.length) h && info[h.length]? = some ':'

/-! ### Comparing headers -/

theorem strcasecmp_iff {a b : List Char} :
    strcasecmp a b ↔ a.map Char.toUpper = b.map Char.toUpper := by
  simp [strcasecmp]

theorem strcasecmp_comm (a b : List Char) : strcasecmp a b = strcasecmp b a := by
  rw [Bool.eq_iff_iff, strcasecmp_iff, strcasecmp_iff, eq_comm]

theorem strcasecmp_length {a b : List Char} (h : strcasecmp a b) : a.length = b.length := by
  simpa using congrArg List.length (strcasecmp_iff.1 h)

theorem toUpper_eq_colon {c : Char} : c.toUpper = ':' ↔ c = ':' := by
  constructor
  · intro h
    unfold Char.toUpper at h
    split at h
    · next hc =>
      have hv : (c.val + ('A'.val - 'a'.val)).toNat = 58 := by
        simpa using congrArg (fun c => c.val.toNat) h
      have hlo := UInt32.le_iff_toNat_le.1 hc.1
      have hhi := UInt32.le_iff_toNat_le.1 hc.2
      rw [UInt32.toNat_add] at hv
      have hshift : ('A'.val - 'a'.val).toNat = 4294967264 := by decide
      have ha : 'a'.val.toNat = 97 := rfl
      have hz : 'z'.val.toNat = 122 := rfl
      omega
    · exact h
  · rintro rfl
    rfl

theorem strcasecmp_colon {a b : List Char} (h : strcasecmp a b) : ':' ∈ a ↔ ':' ∈ b := by
  have hmem : ∀ l : List Char, ':' ∈ l.map Char.toUpper ↔ ':' ∈ l := fun l => by
    simp [List.mem_map, toUpper_eq_colon]
  rw [← hmem a, ← hmem b, strcasecmp_iff.1 h]

theorem colon_of_valid {info : List Char} (h : trigInfoIsValid info) : ':' ∈ info := by
  simp only [trigInfoIsValid, Bool.and_eq_true, decide_eq_true_eq] at h
  exact h.1.1

theorem infoHeader_ne_nil {info : List Char} (h : trigInfoIsValid info) : infoHeader info ≠ [] := by
  simp only [trigInfoIsValid, Bool.and_eq_true, decide_eq_true_eq] at h
  exact h.1.2

theorem colon_notMem_infoHeader (info : List Char) : ':' ∉ infoHeader info := by
  intro h
  simpa using List.mem_takeWhile_imp h

/-- A string with a colon is its header, the colon and the rest. -/
theorem infoHeader_append {info : List Char} (h : ':' ∈ info) :
    ∃ rest, info = infoHeader info ++ ':' :: rest := by
  induction info with
  | nil => simp at h
  | cons c info ih =>
    by_cases hc : c = ':'
    · exact ⟨info, by simp [infoHeader, hc]⟩
    · obtain ⟨rest, hrest⟩ := ih (by simpa [Ne.symm hc] using h)
      refine ⟨rest, ?_⟩
      rw [infoHeader, List.takeWhile_cons_of_pos (by simpa using hc), List.cons_append]
      exact congrArg (c :: ·) hrest

theorem headersAreTheSame_iff {a b : List Char} (ha : trigInfoIsValid a) (hb : trigInfoIsValid b) :
    trigInfoHeadersAreTheSame a b = strcasecmp (infoHeader a) (infoHeader b) := by
  unfold trigInfoHeadersAreTheSame
  rw [if_neg (by simp [colon_of_valid ha, colon_of_valid hb])]
  rfl

/-- The header of a string that begins with `h` and a colon is `h`, where `h` has no colon itself. -/
theorem beginsWithHeader_eq {h info : List Char} (hinfo : ':' ∈ info) (hh : ':' ∉ h) :
    beginsWithHeader h info = strcasecmp (infoHeader info) h := by
  obtain ⟨rest, hrest⟩ := infoHeader_append hinfo
  have hno := colon_notMem_infoHeader info
  rw [Bool.eq_iff_iff, beginsWithHeader, Bool.and_eq_true, decide_eq_true_eq]
  generalize infoHeader info = header at hrest hno ⊢
  subst hrest
  constructor
  · rintro ⟨hcmp, hcolon⟩
    have hle : h.length ≤ header.length := by
      by_contra hlt
      refine (strcasecmp_colon hcmp).not.2 hh (List.mem_iff_getElem?.2 ⟨header.length, ?_⟩)
      rw [List.getElem?_take_of_lt (by omega)]
      simp
    have hge : ¬ h.length < header.length := by
      intro hlt
      rw [List.getElem?_append_left hlt] at hcolon
      exact hno (List.mem_of_getElem? hcolon)
    have hlen : h.length = header.length := by omega
    rwa [hlen, List.take_left] at hcmp
  · intro hcmp
    have hlen := strcasecmp_length hcmp
    rw [← hlen]
    simp [hcmp]

/-! ### AppendTrigInfo -/

theorem appendTrigInfo_ok {infos infos' : List (List Char)} {info : List Char}
    (h : appendTrigInfo infos info = .ok infos') :
    trigInfoIsValid info ∧ (∀ i ∈ infos, ¬ trigInfoHeadersAreTheSame info i) ∧
      infos' = infos ++ [info] := by
  unfold appendTrigInfo at h
  split_ifs at h with hv hs
  cases h
  exact ⟨by simpa using hv, by simpa using hs, rfl⟩

/-- `AppendTrigInfo` on a trigger: a string that is refused leaves it as it is. -/
def TrigInfos.append (t : TrigInfos) (info : List Char) : TrigInfos :=
  match h : appendTrigInfo t.infos info with
  | .error _ => t
  | .ok infos' =>
    { infos := infos'
      valid := by
        obtain ⟨hv, -, rfl⟩ := appendTrigInfo_ok h
        simp only [List.mem_append, List.mem_singleton]
        rintro i (hi | rfl)
        · exact t.valid i hi
        · exact hv
      distinct := by
        obtain ⟨hv, hs, rfl⟩ := appendTrigInfo_ok h
        refine List.pairwise_append.2 ⟨t.distinct, List.pairwise_singleton _ _, ?_⟩
        intro i hi j hj
        rw [List.mem_singleton] at hj
        subst hj
        rw [strcasecmp_comm, ← headersAreTheSame_iff hv (t.valid i hi)]
        exact hs i hi }

/-- The trigger after a sequence of `AppendTrigInfo` calls. -/
def appendTrigInfos (calls : List (List Char)) : TrigInfos := calls.foldl TrigInfos.append {}

theorem TrigInfos.append_infos (t : TrigInfos) (info : List Char) :
    (t.append info).infos = match appendTrigInfo t.infos info with
      | .error _ => t.infos
      | .ok infos' => infos' := by
  unfold TrigInfos.append
  split
  · next h => simp only [h]
  · next h => simp only [h]

/-! ### FindTrigInfo -/

theorem findTrigInfo_eq (infos : List (List Char)) {h : List Char} (hh : h ≠ []) :
    findTrigInfo infos h = (infos.find? (beginsWithHeader h)).map
      fun info => (info.drop (h.length + 1)).dropWhile isSpace := by
  rw [findTrigInfo, if_neg hh]
  rfl

theorem TrigInfos.lookup_of_colon (t : TrigInfos) {h : List Char} (hh : ':' ∈ h) :
    t.lookup h = none := by
  rw [lookup, Option.map_eq_none_iff, List.find?_eq_none]
  intro info _ hcmp
  exact colon_notMem_infoHeader info ((strcasecmp_colon hcmp).2 hh)

theorem TrigInfos.lookup_nil (t : TrigInfos) : t.lookup [] = none := by
  rw [lookup, Option.map_eq_none_iff, List.find?_eq_none]
  intro info hinfo hcmp
  exact infoHeader_ne_nil (t.valid info hinfo) (List.length_eq_zero_iff.1 (strcasecmp_length hcmp))

/-- A request without a colon is answered by the header. -/
theorem TrigInfos.find_eq_lookup (t : TrigInfos) {h : List Char} (hh : ':' ∉ h) :
    findTrigInfo t.infos h = t.lookup h := by
  by_cases hnil : h = []
  · rw [hnil, t.lookup_nil]
    rfl
  have hfind : t.infos.find? (beginsWithHeader h) =
      t.infos.find? fun info => strcasecmp (infoHeader info) h :=
    List.find?_congr fun info hinfo => beginsWithHeader_eq (colon_of_valid (t.valid info hinfo)) hh
  rw [findTrigInfo_eq _ hnil, hfind, lookup]
  refine Option.map_congr fun info hinfo => ?_
  have hcmp : strcasecmp (infoHeader info) h := by simpa using List.find?_some hinfo
  rw [infoValue, strcasecmp_length hcmp]

/-- INFO headers are a map over every sequence of `AppendTrigInfo` calls: no two stored strings have
one header, and `FindTrigInfo` looks a request up by header unless the request has a colon and a
stored string begins with it. -/
theorem trigInfo_map_iff (calls : List (List Char)) :
    (appendTrigInfos calls).infos.Pairwise
        (fun a b => ¬ strcasecmp (infoHeader a) (infoHeader b)) ∧
      ∀ h, findTrigInfo (appendTrigInfos calls).infos h = (appendTrigInfos calls).lookup h ↔
        (':' ∈ h → ∀ info ∈ (appendTrigInfos calls).infos, ¬ beginsWithHeader h info) := by
  refine ⟨(appendTrigInfos calls).distinct, fun h => ?_⟩
  by_cases hh : ':' ∈ h
  · have hnil : h ≠ [] := List.ne_nil_of_mem hh
    rw [(appendTrigInfos calls).lookup_of_colon hh, findTrigInfo_eq _ hnil,
      Option.map_eq_none_iff, List.find?_eq_none]
    simp [hh]
  · exact iff_of_true ((appendTrigInfos calls).find_eq_lookup hh) fun h' => absurd h' hh

/-- `INFO "a: b:c"` answers `triginfo("a: b")`. -/
theorem findTrigInfo_colon :
    findTrigInfo (appendTrigInfos ["a: b:c".toList]).infos "a: b".toList = some "c".toList ∧
      (appendTrigInfos ["a: b:c".toList]).lookup "a: b".toList = none := by
  decide

end Remind
