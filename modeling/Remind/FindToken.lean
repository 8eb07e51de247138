import Remind.Literal
import Remind.Vars

/-!
# FindToken — the words of a reminder (token.c: `TokArray`, `FindToken`, `TokStrCmp`)

A word that begins with a letter is looked up in a sorted table by bisection; it may be shortened as
far as its entry allows, and ends before a trailing comma.
-/

namespace Remind

/-- `FROM_TYPE`, `SCANFROM_TYPE` -/
inductive ScanType where
  | «from»
  | scanfrom
  deriving DecidableEq, Repr

/-- A token with its value: the types `T_*` of `TokArray`, and in `num` those of
`FindNumericToken`, with `T_Illegal`. -/
inductive RemToken where
  | empty
  | comment
  | num (t : NumToken)
  | skip (v : SkipRule)
  | month (v : ℤ)
  | wkDay (v : Fin 7)
  | ordinal (v : ℤ)
  | remType (v : RemType)
  | scanfrom (v : ScanType)
  | addOmit
  | «at»
  | banner
  | clr
  | completeThrough
  | debug
  | dumpvars
  | duration
  | «else»
  | endIf
  | errMsg
  | exit
  | expr
  | flush
  | frename
  | fset
  | funset
  | «if»
  | ifTrig
  | «in»
  | «include»
  | includeCmd
  | includeR
  | includeSys
  | info
  | maxOverdue
  | maybeUncomputable
  | noQueue
  | omit
  | omitFunc
  | once
  | pop
  | popFuncs
  | popVars
  | preserve
  | priority
  | push
  | pushFuncs
  | pushVars
  | rem
  | «return»
  | sched
  | set
  | tag
  | through
  | todo
  | translate
  | tz
  | unSet
  | «until»
  | warn
  deriving DecidableEq, Repr

/-- `Token`, as an entry of the table. -/
structure TokEntry where
  name : String
  minLen : ℕ
  tok : RemToken

local instance tokArrayDays : NeZero 7 := ⟨by decide⟩

/-- `TokArray` -/
def tokArray : List TokEntry := [
  ⟨"addomit", 7, .addOmit⟩,
  ⟨"after", 5, .skip .after⟩,
  ⟨"april", 3, .month 3⟩,
  ⟨"at", 2, .at⟩,
  ⟨"august", 3, .month 7⟩,
  ⟨"banner", 3, .banner⟩,
  ⟨"before", 6, .skip .before⟩,
  ⟨"cal", 3, .remType .cal⟩,
  ⟨"clear-omit-context", 5, .clr⟩,
  ⟨"complete-through", 16, .completeThrough⟩,
  ⟨"completed-through", 17, .completeThrough⟩,
  ⟨"debug", 5, .debug⟩,
  ⟨"december", 3, .month 11⟩,
  ⟨"do", 2, .includeR⟩,
  ⟨"dumpvars", 4, .dumpvars⟩,
  ⟨"duration", 8, .duration⟩,
  ⟨"else", 4, .else⟩,
  ⟨"endif", 5, .endIf⟩,
  ⟨"errmsg", 6, .errMsg⟩,
  ⟨"exit", 4, .exit⟩,
  ⟨"expr", 4, .expr⟩,
  ⟨"february", 3, .month 1⟩,
  ⟨"first", 5, .ordinal 0⟩,
  ⟨"flush", 5, .flush⟩,
  ⟨"fourth", 6, .ordinal 3⟩,
  ⟨"frename", 7, .frename⟩,
  ⟨"friday", 3, .wkDay 4⟩,
  ⟨"from", 4, .scanfrom .from⟩,
  ⟨"fset", 4, .fset⟩,
  ⟨"funset", 6, .funset⟩,
  ⟨"if", 2, .if⟩,
  ⟨"iftrig", 6, .ifTrig⟩,
  ⟨"in", 2, .in⟩,
  ⟨"include", 3, .include⟩,
  ⟨"includecmd", 10, .includeCmd⟩,
  ⟨"info", 4, .info⟩,
  ⟨"january", 3, .month 0⟩,
  ⟨"july", 3, .month 6⟩,
  ⟨"june", 3, .month 5⟩,
  ⟨"last", 4, .ordinal (-1)⟩,
  ⟨"lastday", 7, .num (.backAdj (-1))⟩,
  ⟨"lastworkday", 11, .num (.backAdj 1)⟩,
  ⟨"march", 3, .month 2⟩,
  ⟨"max-overdue", 11, .maxOverdue⟩,
  ⟨"may", 3, .month 4⟩,
  ⟨"maybe-uncomputable", 5, .maybeUncomputable⟩,
  ⟨"monday", 3, .wkDay 0⟩,
  ⟨"msf", 3, .remType .msf⟩,
  ⟨"msg", 3, .remType .msg⟩,
  ⟨"noqueue", 7, .noQueue⟩,
  ⟨"november", 3, .month 10⟩,
  ⟨"october", 3, .month 9⟩,
  ⟨"omit", 4, .omit⟩,
  ⟨"omitfunc", 8, .omitFunc⟩,
  ⟨"once", 4, .once⟩,
  ⟨"pop-funcs", 9, .popFuncs⟩,
  ⟨"pop-omit-context", 3, .pop⟩,
  ⟨"pop-vars", 8, .popVars⟩,
  ⟨"preserve", 8, .preserve⟩,
  ⟨"priority", 8, .priority⟩,
  ⟨"ps", 2, .remType .ps⟩,
  ⟨"psfile", 6, .remType .psf⟩,
  ⟨"push-funcs", 10, .pushFuncs⟩,
  ⟨"push-omit-context", 4, .push⟩,
  ⟨"push-vars", 9, .pushVars⟩,
  ⟨"rem", 3, .rem⟩,
  ⟨"return", 6, .return⟩,
  ⟨"run", 3, .remType .run⟩,
  ⟨"satisfy", 7, .remType .sat⟩,
  ⟨"saturday", 3, .wkDay 5⟩,
  ⟨"scanfrom", 4, .scanfrom .scanfrom⟩,
  ⟨"sched", 5, .sched⟩,
  ⟨"second", 6, .ordinal 1⟩,
  ⟨"september", 3, .month 8⟩,
  ⟨"set", 3, .set⟩,
  ⟨"skip", 4, .skip .skip⟩,
  ⟨"special", 7, .remType .passthru⟩,
  ⟨"sunday", 3, .wkDay 6⟩,
  ⟨"sysinclude", 10, .includeSys⟩,
  ⟨"tag", 3, .tag⟩,
  ⟨"third", 5, .ordinal 2⟩,
  ⟨"through", 7, .through⟩,
  ⟨"thursday", 3, .wkDay 3⟩,
  ⟨"todo", 4, .todo⟩,
  ⟨"translate", 5, .translate⟩,
  ⟨"tuesday", 3, .wkDay 1⟩,
  ⟨"tz", 2, .tz⟩,
  ⟨"unset", 5, .unSet⟩,
  ⟨"until", 5, .until⟩,
  ⟨"warn", 4, .warn⟩,
  ⟨"wednesday", 3, .wkDay 2⟩]

/-- `TokStrCmp`, on the name of the entry and the word: 0 if the word begins the name.  No name has a
character that a signed `char` makes negative. -/
def tokStrCmp : List Char → List Char → ℤ
  | _, [] => 0
  | [], c :: s => if c = ',' ∧ s = [] then 0 else -(c.toLower.toNat : ℤ)
  | k :: tk, c :: s =>
    if c = ',' ∧ s = [] then 0
    else if (k.toNat : ℤ) - c.toLower.toNat ≠ 0 then k.toNat - c.toLower.toNat
    else tokStrCmp tk s

/-- The word begins the name of the entry at `mid`. -/
def entryMatches (s : List Char) (mid : ℕ) : Bool :=
  match tokArray[mid]? with
  | some e => tokStrCmp e.name.toList s = 0
  | none => false

/-- `while (mid && !TokStrCmp(&TokArray[mid-1],s)) mid--;` -/
def firstMatch (s : List Char) : ℕ → ℕ
  | 0 => 0
  | mid + 1 => if entryMatches s mid then firstMatch s mid else mid + 1

/-- The first entry that the word is long enough for, as long as it begins the names; `l` is the
length of the word. -/
def longEnough (s : List Char) (l : ℕ) : List TokEntry → RemToken
  | [] => .num (.illegal none)
  | e :: es =>
    if tokStrCmp e.name.toList s = 0 then
      if l < e.minLen then longEnough s l es else e.tok
    else .num (.illegal none)

/-- The loop of `FindToken`; the array is searched between `bot` and `top`. -/
def wordLoop (s : List Char) (l : ℕ) : ℕ → ℤ → ℤ → RemToken
  | 0, _, _ => .num (.illegal none)
  | n + 1, bot, top =>
    if top < bot then .num (.illegal none)
    else
      let mid := (top + bot) / 2
      match tokArray[mid.toNat]? with
      | none => .num (.illegal none)
      | some e =>
        let r := tokStrCmp e.name.toList s
        if r = 0 then
          if l ≥ e.minLen then e.tok
          else longEnough s l (tokArray.drop (firstMatch s mid.toNat))
        else if r > 0 then wordLoop s l n bot (mid - 1)
        else wordLoop s l n (mid + 1) top

/-- The length of a word, without a trailing comma. -/
def wordLen (s : List Char) : ℕ := if s.getLast? = some ',' then s.length - 1 else s.length

/-- `FindToken` -/
def findToken (c : LiteralSeps) (s : List Char) : RemToken :=
  match s with
  | [] => .empty
  | ch :: _ =>
    if ch = '#' ∨ ch = ';' then .comment
    else if !ch.isAlpha then .num (findNumericToken c s)
    else wordLoop s (wordLen s) tokArray.length 0 (tokArray.length - 1)

end Remind
