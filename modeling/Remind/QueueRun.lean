import Remind.ExprToken
import Remind.Lib.Emits
import Remind.Queue

/-!
# QueueRun — the AT queue and the loop that issues it (queue.c: `HandleQueuedReminders`)

The queue is the list behind `QueueHead`.  The loop is a machine whose steps are a search for the
next reminder, one round of waiting, and one round behind the wait; the clock, the signals, the
server's input and the issue of a reminder are operations on a world.  A pointer to a reminder is
its `qid`, so that one that is kept past `del_reminder` shows.
-/

namespace Remind

/-- A `QueuedRem` with what is issued beside its times. -/
structure QueuedEntry where
  qid : ℤ
  typ : RemType
  tags : String
  text : String
  rem : QueuedRem
  deriving DecidableEq

/-- `GetNextTime`; `NO_TIME` is `INT_MAX`. -/
def QueuedEntry.nextTime (q : QueuedEntry) : ℤ :=
  match q.rem.nextdtime with
  | none => 2147483647
  | some t => t.tmod minutesPerDay

/-- `GetNextDate`; `NO_DATE` is -1. -/
def QueuedEntry.nextDate (q : QueuedEntry) : ℤ :=
  match q.rem.nextdtime with
  | none => -1
  | some t => t.tdiv minutesPerDay

/-- `QueueHead` and `NumQueued`: new reminders come first and have greater numbers. -/
structure AtQueue where
  entries : List QueuedEntry := []
  numQueued : ℤ := 0
  sorted : entries.Pairwise fun p q => q.qid < p.qid := by exact .nil
  fresh : ∀ q ∈ entries, q.qid < numQueued := by exact fun _ h => absurd h List.not_mem_nil

/-- `QueueReminder` -/
def AtQueue.queueReminder (Q : AtQueue) (typ : RemType) (tags text : String) (rem : QueuedRem) :
    AtQueue where
  entries := ⟨Q.numQueued, typ, tags, text, { rem with ntrig := 0 }⟩ :: Q.entries
  numQueued := Q.numQueued + 1
  sorted := List.pairwise_cons.mpr ⟨Q.fresh, Q.sorted⟩
  fresh := List.forall_mem_cons.mpr
    ⟨Int.lt_succ _, fun q hq => Int.lt_trans (Q.fresh q hq) (Int.lt_succ _)⟩

/-- `del_reminder` -/
def AtQueue.delReminder (Q : AtQueue) (qid : ℤ) : AtQueue where
  entries := Q.entries.eraseP (·.qid == qid)
  numQueued := Q.numQueued
  sorted := Q.sorted.sublist List.eraseP_sublist
  fresh q hq := Q.fresh q (List.mem_of_mem_eraseP hq)

/-- `q->tt`, `q->ntrig` and `q->sched` are stored to. -/
def AtQueue.store (Q : AtQueue) (qid : ℤ) (rem : QueuedRem) : AtQueue where
  entries := Q.entries.map fun q => if q.qid = qid then { q with rem := rem } else q
  numQueued := Q.numQueued
  sorted := by
    refine List.pairwise_map.mpr (Q.sorted.imp fun h => ?_)
    split_ifs <;> exact h
  fresh := by
    refine List.forall_mem_map.mpr fun q hq => ?_
    split_ifs <;> exact Q.fresh q hq

/-- `q->` -/
def AtQueue.deref (Q : AtQueue) (qid : ℤ) : Option QueuedEntry := Q.entries.find? (·.qid == qid)

/-- The loop of `FindNextReminder`. -/
def findNextFrom : Option QueuedEntry → List QueuedEntry → Option QueuedEntry
  | ans, [] => ans
  | ans, q :: l =>
    match q.rem.nextdtime, ans with
    | none, _ => findNextFrom ans l
    | some _, none => findNextFrom (some q) l
    | some t, some a =>
      if t < a.rem.nextdtime.getD (-1) then findNextFrom (some q) l else findNextFrom ans l

/-- `FindNextReminder` -/
def AtQueue.findNextReminder (Q : AtQueue) : Option QueuedEntry := findNextFrom none Q.entries

/-- The number that `print_num_queued` prints. -/
def AtQueue.numToIssue (Q : AtQueue) : ℕ := Q.entries.countP (·.rem.nextdtime.isSome)

/-- What `select` wakes `ServerWait` for: a new date, `SIGHUP` or a change of the file (each starts
Remind anew), nothing to read, or input; the input ends behind `input`. -/
inductive Wakeup where
  | reread
  | nothing
  | input (input : List Char)

/-- The loop that reads into `cmdLine[256]`, from index `i` on; `none` at the end of the input. -/
def readCmdLine (i : ℕ) : List Char → Option (List Char)
  | [] => none
  | c :: s => if c = '\n' ∨ i ≥ 255 then some [c] else (readCmdLine (i + 1) s).map (c :: ·)

/-- The commands of a server. -/
inductive ServerCommand where
  | exit
  | status
  | queue
  | jsonQueue
  | translate (msg : List Char)
  | translateDump
  | reread
  | del (qid : Option ℤ)
  | unknown (cmdLine : List Char)
  deriving DecidableEq

/-- `sscanf(s, "%d", &n)` -/
def scanInt (s : List Char) : Option ℤ :=
  let s := s.dropWhile isSpace
  let (sign, s) := match s with
    | '-' :: s => ((-1 : ℤ), s)
    | '+' :: s => (1, s)
    | s => (1, s)
  match s.takeWhile Char.isDigit with
  | [] => none
  | ds => some (sign * ((ds.foldl (fun n d => 10 * n + (d.toNat - 48)) 0 : ℕ) : ℤ))

/-- The comparisons of `ServerWait` on the line that was read. -/
def serverCommand (daemonJSON : Bool) (cmdLine : List Char) : ServerCommand :=
  if cmdLine = "EXIT\n".toList then .exit
  else if cmdLine = "STATUS\n".toList then .status
  else if cmdLine = "QUEUE\n".toList then .queue
  else if cmdLine = "JSONQUEUE\n".toList then .jsonQueue
  else if daemonJSON ∧ "TRANSLATE ".toList <+: cmdLine then
    let cmdLine := if cmdLine.getLast? = some '\n' then cmdLine.dropLast else cmdLine
    .translate (cmdLine.drop 10)
  else if cmdLine = "TRANSLATE_DUMP\n".toList then .translateDump
  else if cmdLine = "REREAD\n".toList then .reread
  else if "DEL ".toList <+: cmdLine then .del (scanInt (cmdLine.drop 3))
  else .unknown cmdLine

/-- How a round leaves its reminder: in the queue, expired, or dropped because it is too late. -/
inductive RoundEnd where
  | queued
  | expired
  | tooLate
  deriving DecidableEq

/-- One round behind the wait, with the reminder as the round finds it. -/
structure QueueRound where
  q : QueuedEntry
  issued : Bool
  left : RoundEnd

/-- What the loop reads and writes: a command, the number of queued reminders, the listings of the
queue, the lines around a reminder, and a round. -/
inductive QueueEvent where
  | command (c : ServerCommand)
  | numQueued (n : ℕ)
  | listing (entries : List QueuedEntry)
  | noteReminder (ttime now : ℤ) (tags : String)
  | noteEndReminder
  | round (r : QueueRound)

/-- `Daemon`, `DaemonJSON`, `RealToday`, `DSEToday` and `MaxLateMinutes`. -/
structure LoopConfig where
  daemon : ℤ
  daemonJSON : Bool := false
  realToday : ℤ
  dseToday : ℤ
  maxLateMinutes : ℤ := 0

/-- `IsServerMode` -/
def LoopConfig.isServerMode (cfg : LoopConfig) : Bool := cfg.daemon < 0

/-- `SystemTime(1)` in seconds, `sleep`, `ServerWait` up to the line it reads, `GotSigInt`,
`got_sighup`, whether `CheckInitialFile` starts Remind anew, and `TriggerReminder`. -/
structure LoopEnv (σ : Type) extends QueueEnv σ where
  systemTime : σ → ℤ × σ
  sleep : ℤ → σ → σ
  serverWait : σ → Wakeup × σ
  gotSigInt : σ → Bool × σ
  gotSigHup : σ → Bool × σ
  checkInitialFile : σ → Bool × σ
  triggerReminder : QueuedEntry → σ → σ

/-- Where the loop is: before `FindNextReminder`, at the test of the loop that waits, gone, or past
a pointer that leads nowhere or the end of `cmdLine`. -/
inductive LoopPhase where
  | top
  | waiting (q : Option ℤ) (timeToSleep : ℤ)
  | ended
  | crashed
  deriving DecidableEq

structure LoopState (σ : Type) where
  queue : AtQueue
  world : σ
  phase : LoopPhase := .top

section Loop

variable {σ : Type} (env : LoopEnv σ) (cfg : LoopConfig)

/-- The body of the loop that initializes the queue. -/
def initEntry (Qw : AtQueue × σ) (q : QueuedEntry) : AtQueue × σ :=
  match calculateNextDtime env.toQueueEnv { q.rem with nextdtime := none } Qw.2 with
  | ((none, _), w) => (Qw.1.delReminder q.qid, w)
  | ((some t, rem), w) =>
    if cfg.daemon ≠ 0 ∧ t.tdiv minutesPerDay > cfg.dseToday then (Qw.1.delReminder q.qid, w)
    else (Qw.1.store q.qid { rem with nextdtime := some t }, w)

/-- The loop that initializes the queue. -/
def initQueue (Q : AtQueue) (w : σ) : AtQueue × σ := Q.entries.foldl (initEntry env cfg) (Q, w)

/-- `TimeToSleep`; `none` where the pointer to the reminder leads nowhere. -/
def timeToSleep (Q : AtQueue) (q : Option ℤ) (w : σ) : Option (ℤ × σ) :=
  match q with
  | none =>
    if cfg.daemon = 0 then none
    else if cfg.isServerMode then
      let (now, w) := env.systemTime w
      some (86400 - now, w)
    else some (60 * cfg.daemon, w)
  | some qid =>
    (Q.deref qid).map fun q =>
      let (now, w) := env.systemTime w
      if q.nextDate = cfg.realToday then (q.nextTime * 60 - now, w) else (86400 - now, w)

/-- The test before a reminder is issued. -/
def shouldIssue (q : QueuedEntry) (w : σ) : Bool × σ :=
  let (now, w) := env.systemTime w
  if now - q.nextTime * 60 ≤ 60 then (true, w)
  else if q.nextTime = q.rem.ttime ∧ q.nextDate = cfg.realToday then
    if cfg.maxLateMinutes = 0 then (true, w)
    else
      let (now, w) := env.systemTime w
      (decide (now - q.nextTime * 60 ≤ 60 * cfg.maxLateMinutes), w)
  else (false, w)

/-- The reminder is issued; a server puts lines around it. -/
def issue (q : QueuedEntry) (w : σ) : List QueueEvent × σ :=
  if cfg.isServerMode ∧ q.typ ≠ .run then
    let (now, w) := env.systemTime w
    let note := .noteReminder q.rem.ttime (now / 60) (if q.tags = "" then "*" else q.tags)
    let w := env.triggerReminder q w
    (note :: if cfg.daemonJSON then [] else [.noteEndReminder], w)
  else ([], env.triggerReminder q w)

/-- The next time of a reminder that was handled, and how it is left. -/
def reschedule (q : QueuedEntry) (w : σ) : RoundEnd × QueuedRem × σ :=
  match calculateNextDtime env.toQueueEnv q.rem w with
  | ((none, rem), w) => (.expired, { rem with nextdtime := none }, w)
  | ((some t, rem), w) =>
    let (now, w) := env.systemDateTime w
    if rem.dateTime < now - cfg.maxLateMinutes then
      let (now, w) := env.systemDateTime w
      if t < now - cfg.maxLateMinutes then (.tooLate, { rem with nextdtime := none }, w)
      else (.queued, { rem with nextdtime := some t }, w)
    else (.queued, { rem with nextdtime := some t }, w)

/-- What the loop does behind the wait. -/
def queueRound (Q : AtQueue) (q : QueuedEntry) (w : σ) : List QueueEvent × AtQueue × σ :=
  let (issued, w) := shouldIssue env cfg q w
  let (notes, w) := if issued then issue env cfg q w else ([], w)
  let (left, rem, w) := reschedule env cfg q w
  let events := notes ++ [QueueEvent.round ⟨q, issued, left⟩]
  if left = .queued then (events, Q.store q.qid rem, w)
  else
    let Q := Q.delReminder q.qid
    (events ++ if cfg.isServerMode then [.numQueued Q.numToIssue] else [], Q, w)

/-- What `ServerWait` does with a line. -/
def serve (c : ServerCommand) (Q : AtQueue) : List QueueEvent × Except LoopPhase AtQueue :=
  match c with
  | .exit | .reread => ([.command c], .error .ended)
  | .status => ([.command c, .numQueued Q.numToIssue], .ok Q)
  | .queue | .jsonQueue =>
    ([.command c, .listing (Q.entries.filter (·.rem.nextdtime.isSome))], .ok Q)
  | .del none => ([.command c, .numQueued Q.numToIssue], .ok Q)
  | .del (some qid) =>
    let Q := Q.delReminder qid
    ([.command c, .numQueued Q.numToIssue], .ok Q)
  | .translate _ | .translateDump | .unknown _ => ([.command c], .ok Q)

/-- `ServerWait`; the line and the NUL behind it have to fit into `cmdLine[256]`. -/
def serverWait (Q : AtQueue) (w : σ) : List QueueEvent × Except LoopPhase AtQueue × σ :=
  match env.serverWait w with
  | (.reread, w) => ([], .error .ended, w)
  | (.nothing, w) => ([], .ok Q, w)
  | (.input input, w) =>
    match readCmdLine 0 input with
    | none => ([], .error .ended, w)
    | some cmdLine =>
      if cmdLine.length < 256 then
        let cmdLine := cmdLine.takeWhile (· ≠ '\x00')
        let (events, Q) := serve (serverCommand cfg.daemonJSON cmdLine) Q
        (events, Q, w)
      else ([], .error .crashed, w)

/-- The loop waits for `q`, or follows a pointer that leads nowhere. -/
def waitFor (Q : AtQueue) (q : Option ℤ) (w : σ) : LoopState σ :=
  match timeToSleep env cfg Q q w with
  | none => ⟨Q, w, .crashed⟩
  | some (t, w) => ⟨Q, w, .waiting q t⟩

/-- What follows the sleep in a round of waiting: signals, the file, and how long to sleep next. -/
def afterSleep (Q : AtQueue) (q : Option ℤ) (w : σ) : List QueueEvent × LoopState σ :=
  let (sigInt, w) := env.gotSigInt w
  let events := if sigInt then [.listing (Q.entries.filter (·.rem.nextdtime.isSome))] else []
  let (sigHup, w) := env.gotSigHup w
  if sigHup then (events, ⟨Q, w, .ended⟩)
  else
    let (changed, w) := if cfg.daemon > 0 then env.checkInitialFile w else (false, w)
    (events, if changed then ⟨Q, w, .ended⟩ else waitFor env cfg Q q w)

/-- The body of the loop that waits. -/
def waitRound (Q : AtQueue) (q : Option ℤ) (t : ℤ) (w : σ) : List QueueEvent × LoopState σ :=
  if cfg.isServerMode then
    match serverWait env cfg Q w with
    | (events, .error phase, w) => (events, ⟨Q, w, phase⟩)
    | (events, .ok Q, w) =>
      let (events', s) := afterSleep env cfg Q (Q.findNextReminder.map QueuedEntry.qid) w
      (events ++ events', s)
  else
    let sleepTime := if cfg.daemon > 0 ∧ t > 60 * cfg.daemon then 60 * cfg.daemon else t
    afterSleep env cfg Q q (env.sleep sleepTime w)

/-- A step of `HandleQueuedReminders` behind the initialization. -/
def queueStep (s : LoopState σ) : List QueueEvent × LoopState σ :=
  match s.phase with
  | .top =>
    let q := s.queue.findNextReminder.map QueuedEntry.qid
    ([], if q = none ∧ cfg.daemon = 0 then { s with phase := .ended }
      else waitFor env cfg s.queue q s.world)
  | .waiting q t =>
    if t > 0 then waitRound env cfg s.queue q t s.world
    else
      match q.bind s.queue.deref with
      | none => ([], { s with phase := .crashed })
      | some q =>
        let (events, Q, w) := queueRound env cfg s.queue q s.world
        (events, ⟨Q, w, .top⟩)
  | .ended | .crashed => ([], s)

/-- `HandleQueuedReminders`, `n` steps of its loop. -/
def handleQueuedReminders (Q : AtQueue) (w : σ) (n : ℕ) : List QueueEvent × LoopState σ :=
  let (Q, w) := initQueue env cfg Q w
  Lib.runFor (queueStep env cfg) n ⟨Q, w, .top⟩

end Loop

/-! ### The queue -/

section Queue

variable {Q : AtQueue} {q e : QueuedEntry} {qid : ℤ} {rem : QueuedRem}

theorem AtQueue.nodup (Q : AtQueue) : (Q.entries.map QueuedEntry.qid).Nodup :=
  List.pairwise_map.mpr (Q.sorted.imp fun h => ne_of_gt h)

theorem AtQueue.qid_inj (hq : q ∈ Q.entries) (he : e ∈ Q.entries) (h : q.qid = e.qid) : q = e :=
  List.inj_on_of_nodup_map Q.nodup hq he h

theorem mem_eraseP_qid {l : List QueuedEntry} (h : (l.map QueuedEntry.qid).Nodup) :
    e ∈ l.eraseP (·.qid == qid) ↔ e ∈ l ∧ e.qid ≠ qid := by
  induction l with
  | nil => simp
  | cons q l ih =>
    obtain ⟨hq, hl⟩ := List.nodup_cons.mp h
    by_cases hqid : q.qid = qid
    · rw [List.eraseP_cons_of_pos (by simpa using hqid), List.mem_cons]
      constructor
      · intro he
        refine ⟨.inr he, fun heq => hq ?_⟩
        exact List.mem_map.mpr ⟨e, he, heq.trans hqid.symm⟩
      · rintro ⟨rfl | he, hne⟩
        · exact absurd hqid hne
        · exact he
    · rw [List.eraseP_cons_of_neg (by simpa using hqid), List.mem_cons, List.mem_cons, ih hl]
      constructor
      · rintro (rfl | ⟨he, hne⟩)
        · exact ⟨.inl rfl, hqid⟩
        · exact ⟨.inr he, hne⟩
      · rintro ⟨rfl | he, hne⟩
        · exact .inl rfl
        · exact .inr ⟨he, hne⟩

theorem AtQueue.mem_delReminder :
    e ∈ (Q.delReminder qid).entries ↔ e ∈ Q.entries ∧ e.qid ≠ qid := mem_eraseP_qid Q.nodup

theorem AtQueue.mem_store : e ∈ (Q.store qid rem).entries ↔
    e ∈ Q.entries ∧ e.qid ≠ qid ∨ ∃ q ∈ Q.entries, q.qid = qid ∧ e = { q with rem := rem } := by
  unfold AtQueue.store
  simp only [List.mem_map]
  constructor
  · rintro ⟨q, hq, rfl⟩
    by_cases hqid : q.qid = qid
    · rw [if_pos hqid]
      exact .inr ⟨q, hq, hqid, rfl⟩
    · rw [if_neg hqid]
      exact .inl ⟨hq, hqid⟩
  · rintro (⟨he, hne⟩ | ⟨q, hq, hqid, rfl⟩)
    · exact ⟨e, he, if_neg hne⟩
    · exact ⟨q, hq, if_pos hqid⟩

theorem AtQueue.deref_of_mem (hq : q ∈ Q.entries) : Q.deref q.qid = some q := by
  unfold AtQueue.deref
  cases hfind : Q.entries.find? (·.qid == q.qid) with
  | none =>
    have := List.find?_eq_none.mp hfind q hq
    simp at this
  | some e =>
    have hqid : e.qid = q.qid := by simpa using List.find?_some hfind
    rw [Q.qid_inj (List.mem_of_find?_eq_some hfind) hq hqid]

/-- `q` is to be issued at `t`, and nothing in the queue earlier. -/
structure AtQueue.Earliest (Q : AtQueue) (q : QueuedEntry) (t : ℤ) : Prop where
  mem : q ∈ Q.entries
  next : q.rem.nextdtime = some t
  least : ∀ e ∈ Q.entries, ∀ u, e.rem.nextdtime = some u → t ≤ u

theorem findNextFrom_some {l : List QueuedEntry} {ans : Option QueuedEntry}
    (hans : ∀ a ∈ ans, ∃ u, a.rem.nextdtime = some u) (h : findNextFrom ans l = some q) :
    (q ∈ ans ∨ q ∈ l) ∧ ∃ t, q.rem.nextdtime = some t ∧
      (∀ a ∈ ans, ∀ u, a.rem.nextdtime = some u → t ≤ u) ∧
      ∀ e ∈ l, ∀ u, e.rem.nextdtime = some u → t ≤ u := by
  induction l generalizing ans with
  | nil =>
    obtain ⟨t, ht⟩ := hans q h
    refine ⟨.inl h, t, ht, fun a ha u hu => ?_, fun e he => absurd he List.not_mem_nil⟩
    have hqa : q = a := Option.some.inj (h.symm.trans ha)
    rw [hqa, hu] at ht
    exact (Option.some.inj ht).ge
  | cons e l ih =>
    unfold findNextFrom at h
    cases he : e.rem.nextdtime with
    | none =>
      rw [he] at h
      obtain ⟨hmem, t, ht, hfirst, hrest⟩ := ih hans h
      refine ⟨hmem.imp_right (List.mem_cons_of_mem e), t, ht, hfirst, ?_⟩
      exact List.forall_mem_cons.mpr ⟨fun u hu => by simp [he] at hu, hrest⟩
    | some u =>
      -- the new candidate is not later than the old one and not later than `e`
      have hstep : ∃ a, (a = e ∨ a ∈ ans) ∧ findNextFrom (some a) l = some q ∧
          (∃ v, a.rem.nextdtime = some v) ∧ ∀ v, a.rem.nextdtime = some v → v ≤ u ∧
            ∀ b ∈ ans, ∀ x, b.rem.nextdtime = some x → v ≤ x := by
        cases ans with
        | none =>
          rw [he] at h
          refine ⟨e, .inl rfl, h, ⟨u, he⟩, fun v hv => ⟨?_, fun b hb => by cases hb⟩⟩
          rw [he] at hv
          exact (Option.some.inj hv).ge
        | some a =>
          obtain ⟨x, hx⟩ := hans a rfl
          rw [he] at h
          simp only [hx, Option.getD_some] at h
          split_ifs at h with hlt
          · refine ⟨e, .inl rfl, h, ⟨u, he⟩, fun v hv => ?_⟩
            cases he.symm.trans hv
            refine ⟨le_rfl, fun b hb y hy => ?_⟩
            cases hb
            cases hx.symm.trans hy
            exact hlt.le
          · refine ⟨a, .inr rfl, h, ⟨x, hx⟩, fun v hv => ?_⟩
            cases hx.symm.trans hv
            refine ⟨not_lt.mp hlt, fun b hb y hy => ?_⟩
            cases hb
            cases hx.symm.trans hy
            exact le_rfl
      obtain ⟨a, ha, hrun, ⟨v, hv⟩, hle⟩ := hstep
      obtain ⟨hmem, t, ht, hfirst, hrest⟩ := ih (fun b hb => by cases hb; exact ⟨v, hv⟩) hrun
      have htv := hfirst a rfl v hv
      refine ⟨?_, t, ht, fun b hb x hx => htv.trans ((hle v hv).2 b hb x hx), ?_⟩
      · rcases hmem with hqa | hq
        · cases hqa
          rcases ha with rfl | ha
          · exact .inr List.mem_cons_self
          · exact .inl ha
        · exact .inr (List.mem_cons_of_mem e hq)
      · refine List.forall_mem_cons.mpr ⟨fun x hx => ?_, hrest⟩
        cases he.symm.trans hx
        exact htv.trans (hle v hv).1

/-- **FindNextReminder** returns an earliest reminder of the queue. -/
theorem AtQueue.findNextReminder_some (h : Q.findNextReminder = some q) : ∃ t, Q.Earliest q t := by
  obtain ⟨hmem, t, ht, -, hleast⟩ := findNextFrom_some (fun a ha => by cases ha) h
  exact ⟨t, hmem.resolve_left (fun hq => by cases hq), ht, hleast⟩

end Queue

/-! ### The next time of a reminder that was handled -/

section Reschedule

variable {σ : Type} {env : LoopEnv σ} {cfg : LoopConfig} {q q' r : QueuedRem} {o : Option ℤ}
  {w w' : σ}

/-- `r` is `q` but for the next time, the number of calls and the SCHED function, which may be
dropped. -/
structure QueuedRem.Follows (r q : QueuedRem) : Prop where
  dse : r.dse = q.dse
  ttime : r.ttime = q.ttime
  delta : r.delta = q.delta
  rep : r.rep = q.rep
  sched : r.sched = q.sched ∨ r.sched = ""

theorem QueuedRem.Follows.refl (q : QueuedRem) : q.Follows q := ⟨rfl, rfl, rfl, rfl, .inl rfl⟩

theorem QueuedRem.Follows.trans (h : r.Follows q') (h' : q'.Follows q) : r.Follows q where
  dse := h.dse.trans h'.dse
  ttime := h.ttime.trans h'.ttime
  delta := h.delta.trans h'.delta
  rep := h.rep.trans h'.rep
  sched := by
    rcases h.sched with hs | hs
    · rw [hs]
      exact h'.sched
    · exact .inr hs

theorem QueuedRem.Follows.dateTime (h : r.Follows q) : r.dateTime = q.dateTime := by
  unfold QueuedRem.dateTime
  rw [h.dse, h.ttime]

theorem QueuedRem.Follows.plain (h : r.Follows q) (hq : q.sched = "") : r.sched = "" := by
  rcases h.sched with hs | hs
  · rw [hs, hq]
  · exact hs

theorem schedLoop_follows {env : QueueEnv σ} {last : ℤ}
    (h : schedLoop env q last w = ((o, q'), w')) : q'.Follows q := by
  fun_induction schedLoop env q last w with
  | case1 =>
    cases h
    exact ⟨rfl, rfl, rfl, rfl, .inr rfl⟩
  | case2 =>
    cases h
    exact ⟨rfl, rfl, rfl, rfl, .inr rfl⟩
  | case3 =>
    cases h
    exact .refl _
  | case4 =>
    cases h
    exact .refl _
  | case5 =>
    cases h
    exact ⟨rfl, rfl, rfl, rfl, .inr rfl⟩
  | case6 q last w v w₁ _ this _ hday w₂ _ hlast ih =>
    exact (ih h).trans ⟨rfl, rfl, rfl, rfl, .inl rfl⟩

theorem calculateNextDtimeUsingSched_spec {env : QueueEnv σ}
    (h : calculateNextDtimeUsingSched env q w = ((o, q'), w')) :
    q'.Follows q ∧ ∀ t, o = some t → q.nextdtime.getD (-1) < t := by
  unfold calculateNextDtimeUsingSched at h
  split_ifs at h
  · refine ⟨schedLoop_follows h, ?_⟩
    rintro t rfl
    exact (schedLoop_some h).1
  · cases h
    exact ⟨⟨rfl, rfl, rfl, rfl, .inr rfl⟩, nofun⟩

/-- `CalculateNextDtime` where the SCHED function has no say returns no time that has passed, and
none past the time of the reminder. -/
theorem nextByRep_bounds {c now t : ℤ} (h : q.nextByRep c now = some t) :
    c ≤ t ∧ t ≤ q.dateTime := by
  unfold QueuedRem.nextByRep at h
  by_cases hzero : q.delta = 0
  · rw [if_pos hzero] at h
    split_ifs at h with hlate
    cases h
    omega
  · rw [if_neg hzero] at h
    dsimp only at h
    generalize advanceTo _ now (advanceTo _ c _) = l at h
    split_ifs at h with hcap hlate hlate
    all_goals
      cases h
      omega

/-- **CalculateNextDtime** leaves a reminder what it is; its answer is behind the last one, and
there is none only when the time of the reminder itself has been handled. -/
theorem calculateNextDtime_spec {env : QueueEnv σ}
    (h : calculateNextDtime env q w = ((o, q'), w')) :
    q'.Follows q ∧ (∀ t p, o = some t → q.nextdtime = some p → p < t) ∧
      (0 ≤ q.delta → 0 ≤ q.rep → o = none → q.dateTime < q.curdtime) := by
  have hrep : ∀ r : QueuedRem, r.Follows q → ∀ now,
      (∀ t p, r.nextByRep q.curdtime now = some t → q.nextdtime = some p → p < t) ∧
      (0 ≤ q.delta → 0 ≤ q.rep → r.nextByRep q.curdtime now = none → q.dateTime < q.curdtime) := by
    intro r hr now
    refine ⟨fun t p ht hp => ?_, fun hd hrep hnone => ?_⟩
    · have hge := (nextByRep_bounds ht).1
      unfold QueuedRem.curdtime at hge
      rw [hp] at hge
      exact Int.lt_of_add_one_le hge
    · rw [← hr.dateTime]
      exact (nextByRep_spec (hr.delta ▸ hd) (hr.rep ▸ hrep) _ now).1.mp hnone
  unfold calculateNextDtime at h
  dsimp only at h
  have hfirst : QueuedRem.Follows { q with ntrig := q.ntrig + 1 } q :=
    ⟨rfl, rfl, rfl, rfl, .inl rfl⟩
  split_ifs at h with hsched
  · simp only [Prod.mk.injEq] at h
    obtain ⟨⟨rfl, rfl⟩, -⟩ := h
    exact ⟨hfirst, hrep _ hfirst _⟩
  · rcases hrun : calculateNextDtimeUsingSched env { q with ntrig := q.ntrig + 1 }
      (env.systemDateTime w).2 with ⟨⟨_ | t, r⟩, w₂⟩
    all_goals
      obtain ⟨hr, hlater⟩ := calculateNextDtimeUsingSched_spec hrun
      rw [hrun] at h
      simp only [Prod.mk.injEq] at h
      obtain ⟨⟨rfl, rfl⟩, -⟩ := h
    · exact ⟨hr.trans hfirst, hrep _ (hr.trans hfirst) _⟩
    · refine ⟨hr.trans hfirst, fun u p hu hp => ?_, nofun⟩
      cases hu
      have hlt := hlater t rfl
      dsimp only at hlt
      rw [hp] at hlt
      exact hlt

/-- Without a SCHED function the answer is not past the time of the reminder. -/
theorem calculateNextDtime_le {env : QueueEnv σ} {t : ℤ} (hsched : q.sched = "")
    (h : calculateNextDtime env q w = ((some t, q'), w')) : t ≤ q.dateTime := by
  rw [calculateNextDtime_plain hsched] at h
  simp only [Prod.mk.injEq] at h
  exact (nextByRep_bounds h.1.1).2

/-- The reading `now` of the clock. -/
def LoopEnv.Reads (env : LoopEnv σ) (now : ℤ) : Prop := ∃ w w', env.systemTime w = (now, w')

/-- The reading `now` of `SystemDateTime(1)`. -/
def LoopEnv.ReadsDateTime (env : LoopEnv σ) (now : ℤ) : Prop :=
  ∃ w w', env.systemDateTime w = (now, w')

/-- What a round makes of the reminder that it has handled. -/
structure Rescheduled (env : LoopEnv σ) (cfg : LoopConfig) (q : QueuedRem) (left : RoundEnd)
    (r : QueuedRem) : Prop where
  follows : r.Follows q
  queued : left = .queued → ∃ t, r.nextdtime = some t ∧ (∀ p, q.nextdtime = some p → p < t) ∧
    (q.sched = "" → t ≤ q.dateTime)
  expired : left = .expired → 0 ≤ q.delta → 0 ≤ q.rep → q.dateTime < q.curdtime
  tooLate : left = .tooLate → ∃ now, env.ReadsDateTime now ∧ q.dateTime < now - cfg.maxLateMinutes

theorem reschedule_spec {q : QueuedEntry} {left : RoundEnd}
    (h : reschedule env cfg q w = (left, r, w')) : Rescheduled env cfg q.rem left r := by
  unfold reschedule at h
  rcases hcalc : calculateNextDtime env.toQueueEnv q.rem w with ⟨⟨_ | t, rem⟩, w₁⟩
  all_goals
    obtain ⟨hsame, hlater, hnone⟩ := calculateNextDtime_spec hcalc
    have hfollows : ∀ o, QueuedRem.Follows { rem with nextdtime := o } q.rem := fun o =>
      ⟨hsame.dse, hsame.ttime, hsame.delta, hsame.rep, hsame.sched⟩
    rw [hcalc] at h
    dsimp only at h
  · simp only [Prod.mk.injEq] at h
    obtain ⟨rfl, rfl, -⟩ := h
    exact ⟨hfollows none, nofun, fun _ hd hr => hnone hd hr rfl, nofun⟩
  · have hqueued : Rescheduled env cfg q.rem .queued { rem with nextdtime := some t } :=
      ⟨hfollows _, fun _ => ⟨t, rfl, fun p hp => hlater t p rfl hp,
        fun hs => calculateNextDtime_le hs hcalc⟩, nofun, nofun⟩
    split_ifs at h with hlate hlate'
    all_goals
      simp only [Prod.mk.injEq] at h
      obtain ⟨rfl, rfl, -⟩ := h
    · rw [hsame.dateTime] at hlate
      exact ⟨hfollows _, nofun, nofun, fun _ => ⟨_, ⟨w₁, _, rfl⟩, hlate⟩⟩
    · exact hqueued
    · exact hqueued

end Reschedule

/-! ### One step -/

/-- The rounds among what was written. -/
def QueueEvent.round? : QueueEvent → Option QueueRound
  | .round r => some r
  | _ => none

def queueRounds (es : List QueueEvent) : List QueueRound := es.filterMap QueueEvent.round?

section Step

variable {σ : Type} {env : LoopEnv σ} {cfg : LoopConfig} {Q Q' : AtQueue} {q : QueuedEntry}
  {p : Option ℤ} {b : Bool} {es : List QueueEvent} {s : LoopState σ} {w w' : σ}

/-- By what readings of the clock a reminder is issued, or is not. -/
def IssueRule (env : LoopEnv σ) (cfg : LoopConfig) (q : QueuedEntry) : Bool → Prop
  | true => ∃ now, env.Reads now ∧ (now - q.nextTime * 60 ≤ 60 ∨
      (q.nextTime = q.rem.ttime ∧ q.nextDate = cfg.realToday) ∧
        (cfg.maxLateMinutes = 0 ∨ now - q.nextTime * 60 ≤ 60 * cfg.maxLateMinutes))
  | false => ∃ now, env.Reads now ∧ 60 < now - q.nextTime * 60 ∧
      (q.nextTime = q.rem.ttime → q.nextDate = cfg.realToday → cfg.maxLateMinutes ≠ 0 ∧
        ∃ now', env.Reads now' ∧ 60 * cfg.maxLateMinutes < now' - q.nextTime * 60)

theorem shouldIssue_rule (h : shouldIssue env cfg q w = (b, w')) :
    IssueRule env cfg q b := by
  have hreads : ∀ w, env.Reads (env.systemTime w).1 := fun w => ⟨w, _, rfl⟩
  unfold shouldIssue at h
  dsimp only at h
  split_ifs at h with hclose hown hlate
  · cases h
    exact ⟨_, hreads w, .inl hclose⟩
  · cases h
    exact ⟨_, hreads w, .inr ⟨hown, .inl hlate⟩⟩
  · simp only [Prod.mk.injEq] at h
    obtain ⟨hb, -⟩ := h
    cases b with
    | true => exact ⟨_, hreads _, .inr ⟨hown, .inr (of_decide_eq_true hb)⟩⟩
    | false =>
      exact ⟨_, hreads w, not_le.mp hclose, fun _ _ =>
        ⟨hlate, _, hreads _, not_le.mp (of_decide_eq_false hb)⟩⟩
  · cases h
    exact ⟨_, hreads w, not_le.mp hclose, fun h₁ h₂ => absurd ⟨h₁, h₂⟩ hown⟩

/-- `q` is a reminder of today, and the clock has shown its time. -/
def Due (env : LoopEnv σ) (cfg : LoopConfig) (q : QueuedEntry) : Prop :=
  q.nextDate = cfg.realToday ∧ ∃ now, env.Reads now ∧ q.nextTime * 60 ≤ now

/-- The clock stays within the day, and no client sends 256 characters without a newline. -/
structure LoopEnv.Sane (env : LoopEnv σ) : Prop where
  clock : ∀ now, env.Reads now → now < 86400
  lines : ∀ w input w', env.serverWait w = (.input input, w') →
    input.length < 256 ∨ '\n' ∈ input.take 255

/-- What a step does to the queue, and what it writes. -/
inductive QueueChange (env : LoopEnv σ) (cfg : LoopConfig) (Q : AtQueue) :
    List QueueEvent → AtQueue → Prop
  | same {es : List QueueEvent} (hes : queueRounds es = []) : QueueChange env cfg Q es Q
  | del {es : List QueueEvent} {qid : ℤ} (hes : queueRounds es = [])
      (hc : .command (.del (some qid)) ∈ es) : QueueChange env cfg Q es (Q.delReminder qid)
  | round {es : List QueueEvent} {r : QueueRound} {t : ℤ} {rem : QueuedRem}
      (hq : Q.Earliest r.q t) (hdue : env.Sane → Due env cfg r.q)
      (hrule : IssueRule env cfg r.q r.issued)
      (hrem : Rescheduled env cfg r.q.rem r.left rem) (hes : queueRounds es = [r]) :
      QueueChange env cfg Q es
        (if r.left = .queued then Q.store r.q.qid rem else Q.delReminder r.q.qid)

/-- The pointer of a loop that waits is null only in daemon mode, and else leads to an earliest
reminder. -/
def PtrOk (cfg : LoopConfig) (Q : AtQueue) : Option ℤ → Prop
  | none => cfg.daemon ≠ 0
  | some qid => ∃ q t, q.qid = qid ∧ Q.Earliest q t

/-- The loop waits as long as it has to. -/
def PhaseOk (env : LoopEnv σ) (cfg : LoopConfig) (Q : AtQueue) : LoopPhase → Prop
  | .top | .ended => True
  | .crashed => ¬ env.Sane
  | .waiting none t => cfg.daemon ≠ 0 ∧ (env.Sane → 0 < t)
  | .waiting (some qid) t =>
    ∃ q u, q.qid = qid ∧ Q.Earliest q u ∧ (t ≤ 0 → env.Sane → Due env cfg q)

theorem PhaseOk.ptr {t : ℤ} (h : PhaseOk env cfg Q (.waiting p t)) : PtrOk cfg Q p := by
  cases p with
  | none => exact h.1
  | some qid =>
    obtain ⟨q, u, hqid, hq, -⟩ := h
    exact ⟨q, u, hqid, hq⟩

theorem findNextReminder_ptr (h : Q.findNextReminder = none → cfg.daemon ≠ 0) :
    PtrOk cfg Q (Q.findNextReminder.map QueuedEntry.qid) := by
  cases hq : Q.findNextReminder with
  | none => exact h hq
  | some q =>
    obtain ⟨t, ht⟩ := AtQueue.findNextReminder_some hq
    exact ⟨q, t, rfl, ht⟩

theorem waitFor_ok (h : PtrOk cfg Q p) (w : σ) :
    (waitFor env cfg Q p w).queue = Q ∧ PhaseOk env cfg Q (waitFor env cfg Q p w).phase := by
  rcases hclock : env.systemTime w with ⟨now, w'⟩
  have hreads : env.Reads now := ⟨w, w', hclock⟩
  unfold waitFor timeToSleep
  cases p with
  | none =>
    have hd : cfg.daemon ≠ 0 := h
    rw [hclock]
    simp only [if_neg hd, LoopConfig.isServerMode, decide_eq_true_eq]
    by_cases hserver : cfg.daemon < 0
    · rw [if_pos hserver]
      refine ⟨rfl, hd, fun hsane => ?_⟩
      have := hsane.clock _ hreads
      omega
    · rw [if_neg hserver]
      exact ⟨rfl, hd, fun _ => by omega⟩
  | some qid =>
    obtain ⟨q, u, rfl, hq⟩ := h
    simp only [AtQueue.deref_of_mem hq.mem, Option.map_some, hclock]
    by_cases htoday : q.nextDate = cfg.realToday
    · rw [if_pos htoday]
      exact ⟨trivial, q, u, rfl, hq, fun ht _ => ⟨htoday, now, hreads, by omega⟩⟩
    · rw [if_neg htoday]
      refine ⟨trivial, q, u, rfl, hq, fun ht hsane => ?_⟩
      have := hsane.clock _ hreads
      omega

theorem queueRounds_append (es fs : List QueueEvent) :
    queueRounds (es ++ fs) = queueRounds es ++ queueRounds fs := List.filterMap_append

theorem afterSleep_ok (h : PtrOk cfg Q p) (w : σ) :
    queueRounds (afterSleep env cfg Q p w).1 = [] ∧ (afterSleep env cfg Q p w).2.queue = Q ∧
      PhaseOk env cfg Q (afterSleep env cfg Q p w).2.phase := by
  have hwait := @waitFor_ok σ env cfg Q p h
  unfold afterSleep
  dsimp only
  split_ifs
  all_goals
    first
    | exact ⟨rfl, rfl, trivial⟩
    | exact ⟨rfl, hwait _⟩

theorem issue_rounds (q : QueuedEntry) (w : σ) : queueRounds (issue env cfg q w).1 = [] := by
  unfold issue
  split_ifs <;> rfl

/-- What a round behind the wait does. -/
theorem queueRound_change {t : ℤ} (hq : Q.Earliest q t) (hdue : env.Sane → Due env cfg q) (w : σ) :
    QueueChange env cfg Q (queueRound env cfg Q q w).1 (queueRound env cfg Q q w).2.1 := by
  unfold queueRound
  rcases hissue : shouldIssue env cfg q w with ⟨issued, w₁⟩
  have hrule := shouldIssue_rule hissue
  dsimp only
  generalize hnotes : (if issued = true then issue env cfg q w₁ else ([], w₁)) = notes
  have hrounds : queueRounds notes.1 = [] := by
    rw [← hnotes]
    split_ifs
    · exact issue_rounds q w₁
    · rfl
  rcases hres : reschedule env cfg q notes.2 with ⟨left, rem, w₂⟩
  have hrem := reschedule_spec hres
  have hlast : queueRounds (notes.1 ++ [QueueEvent.round ⟨q, issued, left⟩]) = [⟨q, issued, left⟩] := by
    rw [queueRounds_append, hrounds]
    rfl
  have hchange := fun es hes => @QueueChange.round σ env cfg Q es ⟨q, issued, left⟩ t rem hq hdue
    hrule hrem hes
  by_cases hleft : left = .queued
  · simp only [if_pos hleft] at hchange ⊢
    exact hchange _ hlast
  · simp only [if_neg hleft] at hchange ⊢
    refine hchange _ ?_
    rw [queueRounds_append, hlast]
    split_ifs <;> rfl

/-- What a command does to the queue. -/
theorem serve_change (c : ServerCommand) (Q : AtQueue) :
    (∃ Q', (serve c Q).2 = .ok Q' ∧ QueueChange env cfg Q (serve c Q).1 Q') ∨
      (serve c Q).2 = .error .ended ∧ queueRounds (serve c Q).1 = [] := by
  cases c with
  | exit => exact .inr ⟨rfl, rfl⟩
  | reread => exact .inr ⟨rfl, rfl⟩
  | del qid =>
    cases qid with
    | none => exact .inl ⟨Q, rfl, .same rfl⟩
    | some qid => exact .inl ⟨Q.delReminder qid, rfl, .del rfl List.mem_cons_self⟩
  | _ => exact .inl ⟨Q, rfl, .same rfl⟩

/-- The reader stores past the end of `cmdLine` only where no newline is among the first 255
characters. -/
theorem readCmdLine_length {input l : List Char} {i : ℕ} (hi : i ≤ 255)
    (h : readCmdLine i input = some l) :
    i + l.length < 256 ↔ '\n' ∈ input.take (255 - i) := by
  induction input generalizing i l with
  | nil => cases h
  | cons c input ih =>
    unfold readCmdLine at h
    split_ifs at h with hstop
    · cases h
      rcases hstop with rfl | hfull
      · by_cases hlast : i = 255
        · subst hlast
          simp
        · rw [show 255 - i = (254 - i) + 1 by omega, List.take_succ_cons]
          exact iff_of_true (by simp; omega) List.mem_cons_self
      · rw [show i = 255 by omega]
        simp
    · push Not at hstop
      obtain ⟨hc, hroom⟩ := hstop
      obtain ⟨l', hl', rfl⟩ := Option.map_eq_some_iff.mp h
      have hrest := ih (by omega) hl'
      rw [show 255 - i = (255 - (i + 1)) + 1 by omega, List.take_succ_cons, List.mem_cons,
        or_iff_right hc.symm, ← hrest, List.length_cons]
      omega

theorem readCmdLine_none {input : List Char} {i : ℕ} (h : i + input.length < 256)
    (hl : '\n' ∉ input) : readCmdLine i input = none := by
  induction input generalizing i with
  | nil => rfl
  | cons c input ih =>
    rw [List.length_cons] at h
    rw [List.mem_cons, not_or] at hl
    unfold readCmdLine
    rw [if_neg (by push Not; exact ⟨fun hc => hl.1 hc.symm, by omega⟩), ih (by omega) hl.2]
    rfl

/-- A sane client's line fits. -/
theorem LoopEnv.Sane.fits {input l : List Char} (h : env.Sane)
    (hwait : env.serverWait w = (.input input, w')) (hread : readCmdLine 0 input = some l) :
    l.length < 256 := by
  have hlen := readCmdLine_length (Nat.zero_le 255) hread
  rw [Nat.zero_add, Nat.sub_zero] at hlen
  refine hlen.mpr ?_
  rcases h.lines w input w' hwait with hshort | hnewline
  · by_contra hno
    have hnone : '\n' ∉ input := by
      intro hmem
      rw [List.take_of_length_le (by omega)] at hno
      exact hno hmem
    rw [readCmdLine_none (by omega) hnone] at hread
    cases hread
  · exact hnewline

theorem serverWait_change (Q : AtQueue) (w : σ) :
    (∃ Q', (serverWait env cfg Q w).2.1 = .ok Q' ∧
      QueueChange env cfg Q (serverWait env cfg Q w).1 Q') ∨
    ∃ phase, (serverWait env cfg Q w).2.1 = .error phase ∧
      queueRounds (serverWait env cfg Q w).1 = [] ∧ PhaseOk env cfg Q phase := by
  unfold serverWait
  rcases hwait : env.serverWait w with ⟨_ | _ | input, w'⟩
  · exact .inr ⟨.ended, rfl, rfl, trivial⟩
  · exact .inl ⟨Q, rfl, .same rfl⟩
  · cases hread : readCmdLine 0 input with
    | none => exact .inr ⟨.ended, by simp only [hread], by simp only [hread]; rfl, trivial⟩
    | some l =>
      simp only [hread]
      split_ifs with hfits
      · rcases serve_change (serverCommand cfg.daemonJSON (l.takeWhile (· ≠ '\x00'))) Q with
          hok | ⟨herr, hrounds⟩
        · exact .inl hok
        · exact .inr ⟨.ended, herr, hrounds, trivial⟩
      · exact .inr ⟨.crashed, rfl, rfl, fun hsane => hfits (hsane.fits hwait hread)⟩

/-- A change behind which nothing more than waiting is written. -/
theorem QueueChange.append {fs : List QueueEvent} (h : QueueChange env cfg Q es Q')
    (hfs : queueRounds fs = []) : QueueChange env cfg Q (es ++ fs) Q' := by
  have happend : queueRounds (es ++ fs) = queueRounds es := by
    rw [queueRounds_append, hfs, List.append_nil]
  cases h with
  | same hes => exact .same (happend.trans hes)
  | del hes hc => exact .del (happend.trans hes) (List.mem_append_left _ hc)
  | round hq hdue hrule hrem hes => exact .round hq hdue hrule hrem (happend.trans hes)

theorem waitRound_ok (h : PtrOk cfg Q p) (t : ℤ) (w : σ) :
    QueueChange env cfg Q (waitRound env cfg Q p t w).1 (waitRound env cfg Q p t w).2.queue ∧
      PhaseOk env cfg (waitRound env cfg Q p t w).2.queue (waitRound env cfg Q p t w).2.phase := by
  unfold waitRound
  by_cases hserver : cfg.isServerMode
  · have hd : cfg.daemon ≠ 0 := by
      unfold LoopConfig.isServerMode at hserver
      have := of_decide_eq_true hserver
      omega
    rw [if_pos hserver]
    have hchange := @serverWait_change σ env cfg Q w
    rcases hwait : serverWait env cfg Q w with ⟨es, Q₁ | Q₁, w₁⟩
    all_goals
      rw [hwait] at hchange
      simp only [Except.ok.injEq, Except.error.injEq, reduceCtorEq, false_and, exists_false,
        false_or, or_false] at hchange
    · obtain ⟨_, rfl, hrounds, hphase⟩ := hchange
      exact ⟨.same hrounds, hphase⟩
    · obtain ⟨_, rfl, hQ⟩ := hchange
      -- `q` is searched again, for a command may have deleted it
      have hptr := @findNextReminder_ptr cfg Q₁ fun _ => hd
      obtain ⟨hrounds, hqueue, hphase⟩ := @afterSleep_ok σ env cfg Q₁ _ hptr w₁
      dsimp only
      rw [hqueue]
      exact ⟨hQ.append hrounds, hphase⟩
  · rw [if_neg hserver]
    dsimp only
    generalize (if cfg.daemon > 0 ∧ t > 60 * cfg.daemon then 60 * cfg.daemon else t) = time
    obtain ⟨hrounds, hqueue, hphase⟩ := @afterSleep_ok σ env cfg Q p h (env.sleep time w)
    rw [hqueue]
    exact ⟨.same hrounds, hphase⟩

/-- **One step**: what it does to the queue, and that the loop waits for what it has to. -/
theorem queueStep_ok (h : PhaseOk env cfg s.queue s.phase) :
    QueueChange env cfg s.queue (queueStep env cfg s).1 (queueStep env cfg s).2.queue ∧
      PhaseOk env cfg (queueStep env cfg s).2.queue (queueStep env cfg s).2.phase := by
  obtain ⟨Q, w, phase⟩ := s
  cases phase with
  | top =>
    unfold queueStep
    dsimp only
    by_cases hend : Q.findNextReminder.map QueuedEntry.qid = none ∧ cfg.daemon = 0
    · rw [if_pos hend]
      exact ⟨.same rfl, trivial⟩
    · rw [if_neg hend]
      have hptr : PtrOk cfg Q (Q.findNextReminder.map QueuedEntry.qid) := findNextReminder_ptr
        fun hnone hd => hend ⟨by rw [hnone]; rfl, hd⟩
      obtain ⟨hqueue, hphase⟩ := @waitFor_ok σ env cfg Q _ hptr w
      rw [hqueue]
      exact ⟨.same rfl, hphase⟩
  | waiting p t =>
    unfold queueStep
    dsimp only at h ⊢
    by_cases ht : t > 0
    · rw [if_pos ht]
      exact waitRound_ok h.ptr t w
    · rw [if_neg ht]
      cases p with
      | none => exact ⟨.same rfl, fun hsane => ht (h.2 hsane)⟩
      | some qid =>
        obtain ⟨q, u, rfl, hq, hdue⟩ := h
        simp only [Option.bind_some, AtQueue.deref_of_mem hq.mem]
        exact ⟨queueRound_change hq (hdue (not_lt.mp ht)) w, trivial⟩
  | ended => exact ⟨.same rfl, h⟩
  | crashed => exact ⟨.same rfl, h⟩

/-! ### Whole runs -/

/-- Every reminder in the queue is still to be issued, and the loop waits for what it has to. -/
structure LoopInv (env : LoopEnv σ) (cfg : LoopConfig) (s : LoopState σ) : Prop where
  queued : ∀ q ∈ s.queue.entries, ∃ t, q.rem.nextdtime = some t
  phase : PhaseOk env cfg s.queue s.phase

theorem QueueChange.queued (h : QueueChange env cfg Q es Q')
    (hQ : ∀ q ∈ Q.entries, ∃ t, q.rem.nextdtime = some t) :
    ∀ q ∈ Q'.entries, ∃ t, q.rem.nextdtime = some t := by
  cases h with
  | same => exact hQ
  | del => exact fun e he => hQ e (AtQueue.mem_delReminder.mp he).1
  | @round r t rem _ _ _ hrem =>
    split_ifs with hleft
    · intro e he
      rcases AtQueue.mem_store.mp he with ⟨he, -⟩ | ⟨q, -, -, rfl⟩
      · exact hQ e he
      · obtain ⟨u, hu, -⟩ := hrem.queued hleft
        exact ⟨u, hu⟩
    · exact fun e he => hQ e (AtQueue.mem_delReminder.mp he).1

theorem loopInv_step (s : LoopState σ) (h : LoopInv env cfg s) :
    LoopInv env cfg (queueStep env cfg s).2 := by
  obtain ⟨hchange, hphase⟩ := queueStep_ok h.phase
  exact ⟨hchange.queued h.queued, hphase⟩

/-- Behind the initialization of a part of the queue, what is not initialized yet is in the rest. -/
theorem foldl_initEntry_queued (l : List QueuedEntry) (Qw : AtQueue × σ)
    (hl : ∀ e ∈ Qw.1.entries, (∃ t, e.rem.nextdtime = some t) ∨ ∃ q ∈ l, e.qid = q.qid) :
    ∀ e ∈ (l.foldl (initEntry env cfg) Qw).1.entries, ∃ t, e.rem.nextdtime = some t := by
  induction l generalizing Qw with
  | nil =>
    intro e he
    rcases hl e he with ht | ⟨q, hq, -⟩
    · exact ht
    · exact absurd hq List.not_mem_nil
  | cons q l ih =>
    rw [List.foldl_cons]
    have hrest : ∀ e ∈ Qw.1.entries, e.qid ≠ q.qid →
        (∃ t, e.rem.nextdtime = some t) ∨ ∃ q ∈ l, e.qid = q.qid := by
      intro e he hne
      refine (hl e he).imp_right ?_
      rintro ⟨q', hq', hqid⟩
      rcases List.mem_cons.mp hq' with rfl | hq'
      · exact absurd hqid hne
      · exact ⟨q', hq', hqid⟩
    have hdel : ∀ e ∈ (Qw.1.delReminder q.qid).entries,
        (∃ t, e.rem.nextdtime = some t) ∨ ∃ q ∈ l, e.qid = q.qid := by
      intro e he
      obtain ⟨he, hne⟩ := AtQueue.mem_delReminder.mp he
      exact hrest e he hne
    refine ih _ ?_
    unfold initEntry
    split
    · exact hdel
    · split_ifs
      · exact hdel
      · intro e he
        rcases AtQueue.mem_store.mp he with ⟨he, hne⟩ | ⟨q', -, -, rfl⟩
        · exact hrest e he hne
        · exact .inl ⟨_, rfl⟩

theorem initQueue_inv (env : LoopEnv σ) (cfg : LoopConfig) (Q : AtQueue) (w : σ) :
    LoopInv env cfg ⟨(initQueue env cfg Q w).1, (initQueue env cfg Q w).2, .top⟩ :=
  ⟨foldl_initEntry_queued _ _ fun e he => .inr ⟨e, he, rfl⟩, trivial⟩

/-- The world is a clock in seconds; a daemon's client says nothing. -/
def quietLoop : LoopEnv ℕ where
  systemDateTime w := ((w / 60 : ℕ), w)
  userFuncExists _ := false
  evalSched _ _ _ w := (.error .swerr, w)
  systemTime w := ((w % 86400 : ℕ), w)
  sleep t w := w + t.toNat
  serverWait w := (.nothing, w + 60)
  gotSigInt w := (false, w)
  gotSigHup w := (false, w)
  checkInitialFile w := (false, w)
  triggerReminder _ w := w

/-- Not a daemon, on 1 January 1990. -/
def plainLoop : LoopConfig := { daemon := 0, realToday := 0, dseToday := 0 }

/-- AT 12:00 +60 *25, and AT 11:45. -/
def twoReminders : AtQueue :=
  ((({} : AtQueue).queueReminder .msg "" "Lunch" noonEvent).queueReminder .msg "" "Tea"
    { dse := 0, ttime := 705, delta := 0, rep := 0 })

theorem quietLoop_sane : quietLoop.Sane where
  clock := by
    rintro now ⟨w, w', h⟩
    cases h
    exact_mod_cast Nat.mod_lt w (by decide)
  lines w input w' h := by cases h

/-- **The loop never follows a stale pointer** and never stores past `cmdLine`, whatever the clock,
the signals, the commands and the SCHED functions do; and the number of queued reminders that it
prints is that of all reminders in the queue. -/
theorem queue_neverCrashes (env : LoopEnv σ) (cfg : LoopConfig) (Q : AtQueue) (w : σ) (n : ℕ)
    (hsane : env.Sane) :
    (handleQueuedReminders env cfg Q w n).2.phase ≠ .crashed ∧
      (handleQueuedReminders env cfg Q w n).2.queue.numToIssue =
        (handleQueuedReminders env cfg Q w n).2.queue.entries.length := by
  have hinv : LoopInv env cfg (handleQueuedReminders env cfg Q w n).2 :=
    Lib.runFor_inv loopInv_step n (initQueue_inv env cfg Q w)
  constructor
  · intro hcrash
    have hphase := hinv.phase
    rw [hcrash] at hphase
    exact hphase hsane
  · refine List.countP_eq_length.mpr fun q hq => ?_
    obtain ⟨t, ht⟩ := hinv.queued q hq
    rw [ht]
    rfl

theorem queue_neverCrashes_two : quietLoop.Sane ∧
    (handleQueuedReminders quietLoop plainLoop twoReminders 39600 40).2.phase ≠ .crashed ∧
      (handleQueuedReminders quietLoop plainLoop twoReminders 39600 40).2.queue.numToIssue =
        (handleQueuedReminders quietLoop plainLoop twoReminders 39600 40).2.queue.entries.length :=
  ⟨quietLoop_sane, queue_neverCrashes quietLoop plainLoop twoReminders 39600 40 quietLoop_sane⟩

/-- `nextdtime`; -1 is `NO_DATETIME`. -/
def QueuedEntry.time (q : QueuedEntry) : ℤ := q.rem.nextdtime.getD (-1)

/-- `nextdtime` as the round finds it. -/
def QueueRound.time (r : QueueRound) : ℤ := r.q.time

/-- The reminder of the round is in the queue, to be issued then or before. -/
def Comes (Q : AtQueue) (r : QueueRound) : Prop :=
  ∃ e ∈ Q.entries, e.qid = r.q.qid ∧ e.time ≤ r.time

/-- A round is followed by one that is not earlier, and later for the same reminder. -/
def QueueRound.Before (r r' : QueueRound) : Prop :=
  r.time ≤ r'.time ∧ (r.q.qid = r'.q.qid → r.time < r'.time)

/-- What is in the queue behind a change was in it before, to be issued then or earlier; what is in
it behind a round comes after that round. -/
theorem QueueChange.time (h : QueueChange env cfg Q es Q')
    (hQ : ∀ q ∈ Q.entries, ∃ t, q.rem.nextdtime = some t) :
    ∀ e ∈ Q'.entries, (∃ q ∈ Q.entries, q.qid = e.qid ∧ q.time ≤ e.time) ∧
      ∀ r ∈ queueRounds es, r.time ≤ e.time ∧ (r.q.qid = e.qid → r.time < e.time) := by
  intro e he
  cases h with
  | same hes =>
    rw [hes]
    exact ⟨⟨e, he, rfl, le_rfl⟩, fun r hr => absurd hr List.not_mem_nil⟩
  | del hes =>
    rw [hes]
    exact ⟨⟨e, (AtQueue.mem_delReminder.mp he).1, rfl, le_rfl⟩,
      fun r hr => absurd hr List.not_mem_nil⟩
  | @round r t rem hq _ _ hrem hes =>
    rw [hes]
    have htime : r.time = t := by
      unfold QueueRound.time QueuedEntry.time
      rw [hq.next]
      rfl
    have hother : e ∈ Q.entries → e.qid ≠ r.q.qid →
        (∃ q ∈ Q.entries, q.qid = e.qid ∧ q.time ≤ e.time) ∧
          ∀ r' ∈ [r], r'.time ≤ e.time ∧ (r'.q.qid = e.qid → r'.time < e.time) := by
      intro he hne
      obtain ⟨u, hu⟩ := hQ e he
      refine ⟨⟨e, he, rfl, le_rfl⟩, List.forall_mem_singleton.mpr ⟨?_, fun h => absurd h.symm hne⟩⟩
      unfold QueuedEntry.time
      rw [htime, hu]
      exact hq.least e he u hu
    split_ifs at he with hleft
    · rcases AtQueue.mem_store.mp he with ⟨he, hne⟩ | ⟨q, hq', hqid, rfl⟩
      · exact hother he hne
      · cases Q.qid_inj hq' hq.mem hqid
        obtain ⟨u, hu, hlater, -⟩ := hrem.queued hleft
        have hlt : r.time < ({ r.q with rem := rem } : QueuedEntry).time := by
          unfold QueuedEntry.time
          rw [htime, hu]
          exact hlater t hq.next
        exact ⟨⟨r.q, hq.mem, rfl, hlt.le⟩, List.forall_mem_singleton.mpr ⟨hlt.le, fun _ => hlt⟩⟩
    · obtain ⟨he, hne⟩ := AtQueue.mem_delReminder.mp he
      exact hother he hne

theorem QueueChange.rounds (h : QueueChange env cfg Q es Q') : ∀ r ∈ queueRounds es,
    queueRounds es = [r] ∧ r.q ∈ Q.entries ∧ (env.Sane → Due env cfg r.q) ∧
      IssueRule env cfg r.q r.issued := by
  intro r hr
  cases h with
  | same hes => simp [hes] at hr
  | del hes => simp [hes] at hr
  | round hq hdue hrule _ hes =>
    rw [hes, List.mem_singleton] at hr
    subst hr
    exact ⟨hes, hq.mem, hdue, hrule⟩

example : (queueRounds (handleQueuedReminders quietLoop plainLoop twoReminders 39600 40).1).map
    (fun r => (r.q.qid, r.time, r.issued)) =
      [(0, 660, true), (0, 685, true), (1, 705, true), (0, 710, true), (0, 720, true)] := by
  decide

/-! ### No reminder is lost -/

/-- What the parser of REM lets into the queue. -/
structure QueuedRem.WellFormed (q : QueuedRem) : Prop where
  dse : 0 ≤ q.dse
  ttime : 0 ≤ q.ttime ∧ q.ttime < minutesPerDay
  delta : 0 ≤ q.delta
  rep : 0 ≤ q.rep

/-- `e` is what has become of `q` in the queue. -/
structure QueuedEntry.Continues (e q : QueuedEntry) : Prop where
  qid : e.qid = q.qid
  follows : e.rem.Follows q.rem
  plain : q.rem.sched = "" → e.time ≤ q.rem.dateTime

/-- The round is the last one of `q`: its own time has been handled, or the computer was
suspended. -/
structure LastRound (env : LoopEnv σ) (cfg : LoopConfig) (q : QueuedEntry) (r : QueueRound) :
    Prop where
  qid : r.q.qid = q.qid
  left : r.left ≠ .queued
  expired : r.left = .expired → q.rem.dateTime ≤ r.time ∧ (q.rem.sched = "" →
    r.time = q.rem.dateTime ∧ (cfg.maxLateMinutes = 0 → r.issued = true))
  tooLate : r.left = .tooLate →
    ∃ now, env.ReadsDateTime now ∧ q.rem.dateTime < now - cfg.maxLateMinutes

/-- At its own time a reminder of today is issued however late it is, if no limit is set. -/
theorem IssueRule.own (h : IssueRule env cfg q b) (hdue : Due env cfg q) (hwf : q.rem.WellFormed)
    (htime : q.time = q.rem.dateTime) (hnext : ∃ t, q.rem.nextdtime = some t)
    (hmax : cfg.maxLateMinutes = 0) : b = true := by
  obtain ⟨t, ht⟩ := hnext
  have hown : q.nextTime = q.rem.ttime := by
    unfold QueuedEntry.time at htime
    rw [ht] at htime
    unfold QueuedEntry.nextTime
    rw [ht]
    obtain ⟨hlo, hhi⟩ := hwf.ttime
    have hdse := hwf.dse
    unfold QueuedRem.dateTime minutesPerDay at *
    simp only [Option.getD_some] at htime ⊢
    rw [htime, Int.tmod_eq_emod_of_nonneg (by omega)]
    omega
  cases b with
  | true => rfl
  | false =>
    obtain ⟨-, -, -, hlate⟩ := h
    exact absurd hmax (hlate hown hdue.1).1

theorem QueuedRem.WellFormed.follows {r q : QueuedRem} (h : q.WellFormed) (hr : r.Follows q) :
    r.WellFormed where
  dse := hr.dse ▸ h.dse
  ttime := hr.ttime ▸ h.ttime
  delta := hr.delta ▸ h.delta
  rep := hr.rep ▸ h.rep

/-- A reminder stays in the queue over a change, is deleted by a command, or has its last round. -/
theorem QueueChange.continues (h : QueueChange env cfg Q es Q') (hsane : env.Sane)
    {q e : QueuedEntry} (hwf : q.rem.WellFormed) (he : e ∈ Q.entries) (hcont : e.Continues q) :
    (∃ e ∈ Q'.entries, e.Continues q) ∨ .command (.del (some q.qid)) ∈ es ∨
      ∃ r ∈ queueRounds es, LastRound env cfg q r := by
  cases h with
  | same => exact .inl ⟨e, he, hcont⟩
  | @del qid _ hc =>
    by_cases hqid : e.qid = qid
    · rw [← hqid, hcont.qid] at hc
      exact .inr (.inl hc)
    · exact .inl ⟨e, AtQueue.mem_delReminder.mpr ⟨he, hqid⟩, hcont⟩
  | @round r t rem hq hdue hrule hrem hes =>
    by_cases hqid : e.qid = r.q.qid
    · cases Q.qid_inj he hq.mem hqid
      have hfollows := hrem.follows.trans hcont.follows
      have htime : r.time = t := by
        unfold QueueRound.time QueuedEntry.time
        rw [hq.next]
        rfl
      have hdate := hcont.follows.dateTime
      have hwf' := hwf.follows hcont.follows
      by_cases hleft : r.left = .queued
      · rw [if_pos hleft]
        obtain ⟨u, hu, -, hle⟩ := hrem.queued hleft
        refine .inl ⟨{ r.q with rem := rem }, AtQueue.mem_store.mpr (.inr ⟨r.q, he, rfl, rfl⟩),
          hcont.qid, hfollows, fun hplain => ?_⟩
        unfold QueuedEntry.time
        rw [hu, ← hdate]
        exact hle (hcont.follows.plain hplain)
      · have hr : r ∈ queueRounds es := by
          rw [hes]
          exact List.mem_singleton_self r
        refine .inr (.inr ⟨r, hr, hcont.qid, hleft, ?_, ?_⟩)
        · intro hexp
          have hlate := hrem.expired hexp hwf'.delta hwf'.rep
          have hge : q.rem.dateTime ≤ r.time := by
            unfold QueuedRem.curdtime at hlate
            rw [hq.next] at hlate
            rw [htime, ← hdate]
            exact Int.lt_add_one_iff.mp hlate
          refine ⟨hge, fun hplain => ?_⟩
          have heq : r.time = q.rem.dateTime := le_antisymm (hcont.plain hplain) hge
          refine ⟨heq, fun hmax => ?_⟩
          exact hrule.own (hdue hsane) hwf' (heq.trans hdate.symm) ⟨t, hq.next⟩ hmax
        · intro hlate
          obtain ⟨now, hnow, hlt⟩ := hrem.tooLate hlate
          exact ⟨now, hnow, hdate ▸ hlt⟩
    · refine .inl ⟨e, ?_, hcont⟩
      split_ifs
      · exact AtQueue.mem_store.mpr (.inl ⟨he, hqid⟩)
      · exact AtQueue.mem_delReminder.mpr ⟨he, hqid⟩

/-- The first time of `q` is past the day, and a daemon has its queue for that day. -/
def NotToday (env : LoopEnv σ) (cfg : LoopConfig) (q : QueuedEntry) : Prop :=
  cfg.daemon ≠ 0 ∧ ∃ w t rem w',
    calculateNextDtime env.toQueueEnv { q.rem with nextdtime := none } w = ((some t, rem), w') ∧
      t.tdiv minutesPerDay > cfg.dseToday

/-- The initialization of one entry leaves the others alone. -/
theorem mem_initEntry_of_ne {Qw : AtQueue × σ} {q e : QueuedEntry} (he : e ∈ Qw.1.entries)
    (hne : e.qid ≠ q.qid) : e ∈ (initEntry env cfg Qw q).1.entries := by
  unfold initEntry
  split
  · exact AtQueue.mem_delReminder.mpr ⟨he, hne⟩
  · split_ifs
    · exact AtQueue.mem_delReminder.mpr ⟨he, hne⟩
    · exact AtQueue.mem_store.mpr (.inl ⟨he, hne⟩)

theorem mem_foldl_initEntry {l : List QueuedEntry} {Qw : AtQueue × σ} {e : QueuedEntry}
    (he : e ∈ Qw.1.entries) (hl : ∀ q ∈ l, e.qid ≠ q.qid) :
    e ∈ (l.foldl (initEntry env cfg) Qw).1.entries := by
  induction l generalizing Qw with
  | nil => exact he
  | cons q l ih =>
    obtain ⟨hq, hl⟩ := List.forall_mem_cons.mp hl
    exact ih (mem_initEntry_of_ne he hq) hl

/-- The initialization of an entry keeps it, unless a daemon has no use for it today. -/
theorem initEntry_continues {Qw : AtQueue × σ} {q : QueuedEntry} (hq : q ∈ Qw.1.entries)
    (hwf : q.rem.WellFormed) :
    (∃ e ∈ (initEntry env cfg Qw q).1.entries, e.Continues q) ∨ NotToday env cfg q := by
  have hreset : QueuedRem.Follows { q.rem with nextdtime := none } q.rem :=
    ⟨rfl, rfl, rfl, rfl, .inl rfl⟩
  rcases hcalc : calculateNextDtime env.toQueueEnv { q.rem with nextdtime := none } Qw.2 with
    ⟨⟨_ | t, rem⟩, w'⟩
  all_goals
    obtain ⟨hfollows, -, hnone⟩ := calculateNextDtime_spec hcalc
  · have hlate := hnone hwf.delta hwf.rep rfl
    have hdelta := hwf.delta
    unfold QueuedRem.curdtime at hlate
    rw [hreset.dateTime] at hlate
    dsimp only at hlate
    omega
  · unfold initEntry
    rw [hcalc]
    dsimp only
    split_ifs with hday
    · exact .inr ⟨hday.1, _, t, rem, w', hcalc, hday.2⟩
    · refine .inl ⟨_, AtQueue.mem_store.mpr (.inr ⟨q, hq, rfl, rfl⟩), rfl, ?_, fun hplain => ?_⟩
      · have hall := hfollows.trans hreset
        exact ⟨hall.dse, hall.ttime, hall.delta, hall.rep, hall.sched⟩
      · have hplain' : ({ q.rem with nextdtime := none } : QueuedRem).sched = "" := hplain
        have hle := calculateNextDtime_le hplain' hcalc
        rw [hreset.dateTime] at hle
        exact hle

theorem initQueue_continues {q : QueuedEntry} (hq : q ∈ Q.entries) (hwf : q.rem.WellFormed)
    (w : σ) :
    (∃ e ∈ (initQueue env cfg Q w).1.entries, e.Continues q) ∨ NotToday env cfg q := by
  obtain ⟨before, after, hsplit⟩ := List.append_of_mem hq
  have hnodup := Q.sorted
  rw [hsplit, List.pairwise_append, List.pairwise_cons] at hnodup
  obtain ⟨-, ⟨hafter, -⟩, hbefore⟩ := hnodup
  unfold initQueue
  rw [hsplit, List.foldl_append, List.foldl_cons]
  have hmem : q ∈ (before.foldl (initEntry env cfg) (Q, w)).1.entries :=
    mem_foldl_initEntry hq fun p hp => ne_of_lt (hbefore p hp q List.mem_cons_self)
  generalize before.foldl (initEntry env cfg) (Q, w) = Qw at hmem ⊢
  rcases @initEntry_continues σ env cfg Qw q hmem hwf with ⟨e, he, hcont⟩ | hday
  · have hne : ∀ p ∈ after, e.qid ≠ p.qid := by
      intro p hp
      rw [hcont.qid]
      exact ne_of_gt (hafter p hp)
    exact .inl ⟨e, mem_foldl_initEntry he hne, hcont⟩
  · exact .inr hday

theorem twoReminders_wellFormed : ∀ q ∈ twoReminders.entries, q.rem.WellFormed :=
  List.forall_mem_cons.mpr ⟨⟨by decide, by decide, by decide, by decide⟩,
    List.forall_mem_singleton.mpr ⟨by decide, by decide, by decide, by decide⟩⟩

/-- The first of the two as it is queued. -/
def lunch : QueuedEntry := ⟨0, .msg, "", "Lunch", noonEvent⟩

end Step

end Remind
