import Mathlib.Data.List.Basic
import Remind.ExprToken
import Remind.IfElse

/-!
# Files — reading lines and including files (files.c, dynbuf.c: `DBufGets`)

What is read is spread over a cached line with those behind it (`cLine`), a stream (`fp`) and the
stack of the files that include the current one.  The file system is read through the outcomes of the
system calls (`FileEnv`).  The file that purging writes, interactive input and running out of memory
are left out; `fclose(NULL)`, which `FCLOSE` does where the stream is closed already, is a crash.
-/

namespace Remind.LineReader

/-! ### Streams -/

/-- What a stream reads from: `stdin` or not, and whether reading beyond its text is an error. -/
structure Device where
  isStdin : Bool
  broken : Bool
  deriving DecidableEq

/-- A stream for reading: the text that is left, `ftell`, and whether the end has been met. -/
structure Stream where
  dev : Device
  rest : List Char
  offset : ℕ
  ended : Bool
  deriving DecidableEq

/-- `ferror` -/
def Stream.ferror (fp : Stream) : Bool := fp.ended && fp.dev.broken

/-- `feof` -/
def Stream.feof (fp : Stream) : Bool := fp.ended && !fp.dev.broken

/-- `fopen`, and `fseek` to `offset`. -/
def openAt (text : List Char) (broken : Bool) (offset : ℕ) : Stream :=
  ⟨⟨false, broken⟩, text.drop offset, offset, false⟩

/-- Up to `n` characters of a line. -/
def takeLine : ℕ → Stream → List Char × Stream
  | 0, fp => ([], fp)
  | n + 1, fp =>
    match fp.rest with
    | [] => ([], { fp with ended := true })
    | c :: rest =>
      let fp := { fp with rest, offset := fp.offset + 1 }
      if c = '\n' then ([c], fp) else (c :: (takeLine n fp).1, (takeLine n fp).2)

/-- `fgets` with room for `n` characters; nothing read stands for `NULL`. -/
def fgets (n : ℕ) (fp : Stream) : List Char × Stream :=
  let (tmp, fp) := takeLine n fp
  if fp.ferror then ([], fp) else (tmp, fp)

/-- A buffer as the C string it holds. -/
def cString (buf : List Char) : List Char := buf.takeWhile (· ≠ '\x00')

/-- `maxlen > 0 && len > maxlen` -/
def tooLong (maxlen : ℕ) (buf : List Char) : Bool := 0 < maxlen && maxlen < buf.length

/-- The loop of `DBufGets`. -/
def dBufGetsLoop (maxlen : ℕ) : ℕ → List Char → Stream → Except ErrCode (List Char) × Stream
  | 0, _, fp => (.error .diverges, fp)
  | n + 1, dbuf, fp =>
    let (tmp, fp) := fgets 255 fp
    let tmp := cString tmp
    if tmp = [] then (.ok dbuf, fp)
    else
      let busy := tmp.getLast? ≠ some '\n'
      let dbuf := dbuf ++ if busy then tmp else tmp.dropLast
      if tooLong maxlen dbuf then (.error .lineTooLong, fp)
      else if busy then dBufGetsLoop maxlen n dbuf fp
      else (.ok dbuf, fp)

/-- `DBufGets` -/
def dBufGets (maxlen : ℕ) (fp : Stream) : Except ErrCode (List Char) × Stream :=
  let (tmp, fp) := fgets 31 fp
  let dbuf := cString tmp
  if dbuf = [] then (.ok [], fp)
  else if dbuf.getLast? = some '\n' then
    if tooLong maxlen dbuf.dropLast then (.error .lineTooLong, fp) else (.ok dbuf.dropLast, fp)
  else dBufGetsLoop maxlen (fp.rest.length + 1) dbuf fp

/-! ### The state -/

/-- `st_mode` says that it is a regular file, a directory, or a device, FIFO or socket. -/
inductive FileKind where
  | reg
  | dir
  | other
  deriving DecidableEq

/-- What `stat` and `fstat` find out about a file. -/
structure FileStat where
  uid : ℕ
  kind : FileKind
  worldWritable : Bool
  deriving DecidableEq

/-- What lines come from; no branch of the code looks at it. -/
inductive Source where
  | nothing
  | stdin
  | file (st : FileStat)
  | command (bang : Bool)
  deriving DecidableEq

/-- `CachedLine` -/
structure CachedLine where
  text : List Char
  lineNo : ℕ
  lineNoStart : ℕ
  deriving DecidableEq

/-- `CachedFile` -/
structure CachedFile where
  filename : List Char
  cache : List CachedLine
  ownedByMe : Bool
  source : Source

/-- `IncludeStruct`: where the reading of a file goes on after what it includes. -/
structure IncludeStruct where
  filename : Option (List Char)
  chain : List (List Char)
  lineNo : ℕ
  lineNoStart : ℕ
  baseIfPointer : ℕ
  offset : Option ℕ
  cLine : List CachedLine
  ownedByMe : Bool
  source : Source

/-- The variables of files.c, `RunDisabled` and the pointers into the stack of IFs; `iStack` has the
innermost file first, and `stdin` is the standard input where `fp` is not it. -/
structure FileState where
  cachedFiles : List CachedFile
  cLine : List CachedLine
  cachedDirectoryChains : List (List Char × List (List Char))
  fileName : Option (List Char)
  fp : Option Stream
  stdin : Stream
  iStack : List IncludeStruct
  shouldCache : Bool
  curLine : List Char
  lineNo : ℕ
  lineNoStart : ℕ
  ifPointer : ℕ
  baseIfPointer : ℕ
  runDisabled : BitVec 32
  source : Source

/-- The state at the start of the program, which the options of the command line have their say in. -/
def FileState.init (shouldCache : Bool) (runDisabled : BitVec 32) (input : List Char) : FileState where
  cachedFiles := []
  cLine := []
  cachedDirectoryChains := []
  fileName := none
  fp := none
  stdin := ⟨⟨true, false⟩, input, 0, false⟩
  iStack := []
  shouldCache := shouldCache
  curLine := []
  lineNo := 0
  lineNoStart := 0
  ifPointer := 0
  baseIfPointer := 0
  runDisabled := runDisabled
  source := .nothing

/-- A file that `fopen` has opened: its text, whether reading it ends with an error, and what
`fstat` finds. -/
structure Opened where
  text : List Char
  broken : Bool
  stat : Option FileStat

/-- Where a file is opened: on its inclusion, once more as it could not be cached, or after what it
includes. -/
inductive Attempt where
  | first
  | again
  | resume
  deriving DecidableEq

/-- The outcomes of the system calls that one function makes, `PurgeMode`, and the limits
`$MaxLineLength`, `$MaxCachedLines` and `$MaxIncludeCmdLines`.  `glob` lists the names in a directory
that end in `.rem`, and `popen` has the output of a command and whether reading it ends with an
error. -/
structure FileEnv where
  fopen : Attempt → List Char → Option Opened
  stat : List Char → Option FileStat
  glob : List Char → Option (List (List Char))
  popen : List Char → Option (List Char × Bool)
  purgeMode : Bool
  maxLineLength : ℕ
  maxCachedLines : ℕ
  maxIncludeCmdLines : ℕ

/-- `geteuid()` and `TrustedUsers` -/
structure Users where
  euid : ℕ
  trustedUsers : List ℕ

/-- What a call comes to: a return code, `none` for `OK`, or a crash. -/
inductive Outcome where
  | ret (r : Option ErrCode) (s : FileState)
  | crash

/-- The stream `fp` is given up; only `stdin` is not closed. -/
def FileState.closed (s : FileState) (fp : Stream) : FileState :=
  { s with fp := none, stdin := if fp.dev.isStdin then fp else s.stdin }

/-- `FCLOSE(fp)` and `PCLOSE(fp)` -/
def FileState.fClose (s : FileState) (k : FileState → Outcome) : Outcome :=
  match s.fp with
  | none => .crash
  | some fp => k (s.closed fp)

/-! ### Who owns a file -/

/-- `RUN_NOTOWNER` -/
def runNotOwner : BitVec 32 := 0x04#32

/-- `RunDisabled` with `RUN_NOTOWNER` as it is for a file that is trusted or not. -/
def setOwned (ownedByMe : Bool) (runDisabled : BitVec 32) : BitVec 32 :=
  if ownedByMe then runDisabled &&& ~~~runNotOwner else runDisabled ||| runNotOwner

/-- `!(RunDisabled & RUN_NOTOWNER)` -/
def isOwned (runDisabled : BitVec 32) : Bool := runDisabled &&& runNotOwner = 0

/-- The user is oneself or a trusted one. -/
def Users.trusts (users : Users) (uid : ℕ) : Bool := uid = users.euid || uid ∈ users.trustedUsers

/-- `CheckSafetyAux`: whether the file may be read, and `RunDisabled` behind it. -/
def checkSafetyAux (users : Users) (st : FileStat) (runDisabled : BitVec 32) : Bool × BitVec 32 :=
  if users.euid = 0 ∧ st.uid ≠ 0 then (false, runDisabled)
  else if st.kind = .other then (true, runDisabled)
  else if st.worldWritable then (false, runDisabled)
  else (true, setOwned (users.trusts st.uid) runDisabled)

/-! ### Lines -/

section Files

variable (users : Users) (env : FileEnv) (usePclose : Bool)

/-- `"__EOF__"` -/
def eofMark : List Char := ['_', '_', 'E', 'O', 'F', '_', '_']

/-- `use_pclose && MaxIncludeCmdLines > 0 && LineNo-1 > MaxIncludeCmdLines` -/
def tooMuchOutput (s : FileState) : Bool :=
  usePclose && 0 < env.maxIncludeCmdLines && env.maxIncludeCmdLines < s.lineNo - 1

/-- The loop of `ReadLineFromFile`. -/
def readLineLoop : ℕ → List Char → FileState → Outcome
  | 0, _, s => .ret (some .diverges) s
  | n + 1, lineBuffer, s =>
    match s.fp with
    | none => .ret none { s with curLine := lineBuffer }
    | some fp =>
      match dBufGets env.maxLineLength fp with
      | (.error r, fp) => .ret (some r) { s with fp := some fp, lineNo := s.lineNo + 1 }
      | (.ok buf, fp) =>
        let s := { s with fp := some fp, lineNo := s.lineNo + 1 }
        if fp.ferror then .ret (some .ioErr) s
        else if tooMuchOutput env usePclose s then .ret (some .cmdTooMuchOutput) s
        else
          let s := if fp.feof then s.closed fp else s
          if buf.getLast? = some '\\' then
            let lineBuffer := lineBuffer ++ ((if env.purgeMode then buf else buf.dropLast) ++ ['\n'])
            if tooLong env.maxLineLength lineBuffer then .ret (some .lineTooLong) s
            else readLineLoop n lineBuffer s
          else
            let lineBuffer := lineBuffer ++ buf
            if tooLong env.maxLineLength lineBuffer then .ret (some .lineTooLong) s
            -- treat it as end-of-file
            else if lineBuffer = eofMark then s.fClose fun s => .ret none { s with curLine := [] }
            else .ret none { s with curLine := lineBuffer }

/-- `ReadLineFromFile` -/
def readLineFromFile (s : FileState) : Outcome :=
  match s.fp with
  | none => .ret (some .eof) { s with lineNoStart := s.lineNo + 1 }
  | some fp =>
    readLineLoop env usePclose (fp.rest.length + 2) [] { s with lineNoStart := s.lineNo + 1 }

/-- Nothing is left of a line without its leading white space, or it is a comment. -/
def isIgnored (text : List Char) : Bool :=
  match text with
  | [] => true
  | c :: _ => c = ';' || c = '#'

/-- The loop of `CacheFile`; `cf` is what has been cached of the file. -/
def cacheLoop : ℕ → CachedFile → FileState → Outcome
  | 0, _, s => .ret (some .diverges) s
  | n + 1, cf, s =>
    match s.fp with
    | none => .ret none { s with cachedFiles := cf :: s.cachedFiles }
    | some _ =>
      match readLineFromFile env usePclose s with
      | .crash => .crash
      | .ret (some r) s =>
        { s with shouldCache := false }.fClose fun s => .ret (some r) s
      | .ret none s =>
        let text := s.curLine.dropWhile isEmptyChar
        if isIgnored text then cacheLoop n cf s
        else if env.maxCachedLines < cf.cache.length + 1 then
          { s with shouldCache := false }.fClose fun s => .ret (some .tooManyCachedLines) s
        else
          cacheLoop n { cf with cache := cf.cache ++ [⟨text, s.lineNo, s.lineNoStart⟩] } s

/-- `CacheFile` -/
def cacheFile (fname : List Char) (s : FileState) : Outcome :=
  cacheLoop env usePclose ((s.fp.map (·.rest.length)).getD 0 + 2)
    ⟨fname, [], isOwned s.runDisabled, s.source⟩ s

/-! ### Opening files -/

/-- `"-"` -/
def stdinName : List Char := ['-']

/-- `fopen` and `CheckSafety`, for `-` the standard input; whether the file is open. -/
def openOnDisk (attempt : Attempt) (fname : List Char) (offset : ℕ) (s : FileState) :
    Bool × FileState :=
  if fname = stdinName then (true, { s with fp := some s.stdin, source := .stdin })
  else
    match env.fopen attempt fname with
    | none => (false, { s with fp := none })
    | some o =>
      match o.stat with
      | none => (false, { s with fp := none })
      | some st =>
        if st.kind = .dir then (false, { s with fp := none })
        else
          match checkSafetyAux users st s.runDisabled with
          | (false, runDisabled) => (false, { s with fp := none, runDisabled })
          | (true, runDisabled) =>
            (true, { s with
              fp := some (openAt o.text o.broken offset), runDisabled, source := .file st })

/-- The end of `OpenFile`. -/
def FileState.opened (s : FileState) (fname : List Char) : FileState :=
  { s with fileName := some fname, lineNo := 0, lineNoStart := 0 }

/-- `h` is read from its start. -/
def FileState.fromCache (s : FileState) (h : CachedFile) : FileState :=
  { s with cLine := h.cache, runDisabled := setOwned h.ownedByMe s.runDisabled, source := h.source }

/-- `CLine = CachedFiles->cache` -/
def FileState.justCached (s : FileState) : FileState :=
  { s with fp := none, cLine := (s.cachedFiles.head?.map (·.cache)).getD [] }

/-- `OpenFile` -/
def openFile (fname : List Char) (s : FileState) : Outcome :=
  match s.cachedFiles.find? (·.filename = fname) with
  | some h => .ret none (({ s with fp := none }.fromCache h).opened fname)
  | none =>
    let s := if fname = stdinName then { s with runDisabled := setOwned true s.runDisabled } else s
    match openOnDisk users env .first fname 0 s with
    | (false, s) => .ret (some .cantOpen) s
    | (true, s) =>
      let s := { s with cLine := [] }
      if s.shouldCache then
        match cacheFile env false fname { s with lineNo := 0, lineNoStart := 0 } with
        | .crash => .crash
        | .ret none s => .ret none (s.justCached.opened fname)
        | .ret (some _) s =>
          match openOnDisk users env .again fname 0 s with
          | (false, s) => .ret (some .cantOpen) s
          | (true, s) => .ret none (s.opened fname)
      else .ret none (s.opened fname)

/-! ### The stack -/

/-- `i->chain = chain`, for the entry on top of the stack. -/
def FileState.setChain (s : FileState) (chain : List (List Char)) : FileState :=
  match s.iStack with
  | [] => s
  | i :: rest => { s with iStack := { i with chain } :: rest }

/-- `NextChainedFile` -/
def nextChainedFile : List (List Char) → FileState → Outcome
  | [], s => .ret (some .eof) s
  | cur :: chain, s =>
    match openFile users env cur (s.setChain chain) with
    | .crash => .crash
    | .ret none s => .ret none s
    | .ret (some _) s => nextChainedFile chain s

/-- The end of `PopFile`: the reading of the file below goes on. -/
def resumeFile (i : IncludeStruct) (rest : List IncludeStruct) (s : FileState) : Outcome :=
  match i.filename with
  | none => .crash
  | some fname =>
    let s := { s with
      iStack := rest, lineNo := i.lineNo, lineNoStart := i.lineNoStart,
      baseIfPointer := i.baseIfPointer, cLine := i.cLine, fileName := some fname,
      runDisabled := setOwned i.ownedByMe s.runDisabled, source := i.source }
    if i.cLine = [] ∧ (i.offset ≠ none ∨ fname = stdinName) then
      match openOnDisk users env .resume fname (i.offset.getD 0) s with
      | (false, s) => .ret (some .cantOpen) s
      | (true, s) => .ret none s
    else .ret none s

/-- `pop_excess_ifs` -/
def FileState.popExcessIfs (s : FileState) : FileState :=
  { s with ifPointer := min s.ifPointer s.baseIfPointer }

/-- `PopFile` -/
def popFile (s : FileState) : Outcome :=
  let s := { s.popExcessIfs with fp := none }
  match s.iStack with
  | [] => .ret (some .eof) s
  | i :: rest =>
    match nextChainedFile users env i.chain s with
    | .crash => .crash
    | .ret none s => .ret none s
    | .ret (some _) t =>
      let s := { t with runDisabled := s.runDisabled, fp := none }
      -- the file at the top level has none below it
      if rest = [] then .ret (some .eof) { s with iStack := [] }
      else resumeFile users env i rest s

/-- The loop of `ReadLine`; each call of `PopFile` makes system calls of its own. -/
def popLoop (envs : ℕ → FileEnv) : ℕ → FileState → Outcome
  | 0, s => .ret (some .diverges) s
  | n + 1, s =>
    if s.cLine = [] ∧ s.fp = none then
      match popFile users (envs n) s with
      | .ret none s => popLoop envs n s
      | o => o
    else .ret none s

/-- How many files the stack has still to go on with. -/
def FileState.pending (s : FileState) : ℕ := (s.iStack.map (·.chain.length + 1)).sum

/-- The line in `cLine` is read. -/
def FileState.readCached (s : FileState) (l : CachedLine) (cLine : List CachedLine) : FileState :=
  { s with curLine := l.text, lineNo := l.lineNo, lineNoStart := l.lineNoStart, cLine }

/-- `ReadLine` -/
def readLine (envs : ℕ → FileEnv) (s : FileState) : Outcome :=
  match popLoop users envs (s.pending + 1) s with
  | .crash => .crash
  | .ret (some r) s => .ret (some r) s
  | .ret none s =>
    match s.cLine with
    | l :: cLine => .ret none (s.readCached l cLine)
    | [] => readLineFromFile env false s

/-! ### Including -/

/-- The directory without the slashes at its end. -/
def stripSlashes (dirname : List Char) : List Char :=
  match (dirname.reverse.dropWhile (· = '/')).reverse with
  | [] => ['/']
  | dir => dir

/-- What `stat` says of a directory. -/
def FileStat.isDir (st : FileStat) : Bool := st.kind = .dir

/-- The files that `SetupGlobChain` puts in the chain: those found that are no directories. -/
def globChain (found : List (List Char)) : List (List Char) :=
  found.filter fun f => (env.stat f).any (!·.isDir)

/-- `SetupGlobChain`: the chain, or its error. -/
def setupGlobChain (dirname : List Char) (s : FileState) :
    Except ErrCode (List (List Char)) × FileState :=
  if dirname = [] then (.error .cantOpen, s)
  else
    let dir := stripSlashes dirname
    match s.cachedDirectoryChains.lookup dir with
    | some chain => (.ok chain, s)
    | none =>
      let cached (chain : List (List Char)) : FileState :=
        if s.shouldCache then
          { s with cachedDirectoryChains := (dir, chain) :: s.cachedDirectoryChains }
        else s
      match env.glob dir with
      | none => (.error .cantOpen, cached [])
      | some found => (.ok (globChain env found), cached (globChain env found))

/-- `PopFile()` and a return with `r`. -/
def popAndFail (r : ErrCode) (s : FileState) : Outcome :=
  match popFile users env s with
  | .crash => .crash
  | .ret _ s => .ret (some r) s

/-- The loop of `IncludeFile` over the files of a directory. -/
def openFirst : List (List Char) → FileState → Outcome
  | [], s => .ret (some .eof) s
  | fc :: chain, s =>
    match openFile users env fc (s.setChain chain) with
    | .crash => .crash
    | .ret none s => .ret none s
    | .ret (some _) t => openFirst chain { t with runDisabled := s.runDisabled }

/-- The part of `IncludeFile` for directories. -/
def includeDirectory (fname : List Char) (st : FileStat) (s : FileState) : Outcome :=
  match checkSafetyAux users st s.runDisabled with
  | (false, runDisabled) => popAndFail users env .noMatchingRems { s with runDisabled }
  | (true, runDisabled) =>
    match setupGlobChain env fname { s with runDisabled } with
    | (.error _, s) => .ret (some .noMatchingRems) s
    | (.ok [], s) => popAndFail users env .noMatchingRems s
    | (.ok chain, s) =>
      match openFirst users env chain s with
      | .crash => .crash
      | .ret none s => .ret none s
      | .ret (some _) s => popFile users env s

/-- What is put on the stack for the current file. -/
def FileState.entry (s : FileState) (lineNoStart : ℕ) (ownedByMe : Bool) : IncludeStruct where
  filename := s.fileName
  chain := []
  lineNo := s.lineNo
  lineNoStart := lineNoStart
  baseIfPointer := s.baseIfPointer
  offset := s.fp.map (·.offset)
  cLine := s.cLine
  ownedByMe := ownedByMe
  source := s.source

/-- The current file is closed. -/
def FileState.leave (s : FileState) : FileState :=
  match s.fp with
  | some fp => s.closed fp
  | none => s

/-- The current file is put on the stack, and closed. -/
def FileState.push (s : FileState) (lineNoStart : ℕ) (ownedByMe : Bool) : FileState :=
  { s.leave with
    iStack := s.entry lineNoStart ownedByMe :: s.iStack, baseIfPointer := s.ifPointer }

/-- `IncludeFile` -/
def includeFile (fname : List Char) (s : FileState) : Outcome :=
  if includeNest ≤ s.iStack.length then .ret (some .nestedInclude) s
  else
    let s := s.push s.lineNoStart (isOwned s.runDisabled)
    match (env.stat fname).filter (·.isDir) with
    | some st => includeDirectory users env fname st s
    | none =>
      match openFile users env fname s with
      | .crash => .crash
      | .ret none s => .ret none s
      | .ret (some _) t => popAndFail users env .cantOpen { t with runDisabled := s.runDisabled }

/-- The command is run with RUN disabled. -/
def hasBang (cmd : List Char) : Bool := cmd.head? = some '!'

/-- `IncludeCmd` -/
def includeCmd (cmd : List Char) (s : FileState) : Outcome :=
  if includeNest ≤ s.iStack.length then .ret (some .nestedInclude) s
  else
    let fname := cmd ++ ['|']
    let s := s.push s.lineNo true
    match s.cachedFiles.find? (·.filename = fname) with
    | some h => .ret none ((s.fromCache h).opened fname)
    | none =>
      match env.popen (if hasBang cmd then cmd.tail else cmd) with
      | none => popAndFail users env .cantOpen s
      | some (output, broken) =>
        let s := { s with
          fp := some (openAt output broken 0), lineNo := 0, lineNoStart := 0,
          runDisabled := if hasBang cmd then setOwned false s.runDisabled else s.runDisabled,
          source := .command (hasBang cmd) }
        match cacheFile env true fname s with
        | .crash => .crash
        | .ret none s => .ret none (s.justCached.opened fname)
        | .ret (some r) s => popAndFail users env r s

/-- `DoIncludeCmd`, the command having been read. -/
def doIncludeCmd (cmd : List Char) (s : FileState) : Outcome :=
  if s.runDisabled ≠ 0 then .ret (some .runDisabled) s else includeCmd users env cmd s

end Files

end Remind.LineReader
