import RedisLite.CrashRecovery
import RedisLite.ServerStartup

/-!
# The lives of the program

The program is started again and again with one file. A start is refused, or the server serves whatever
clients there are until something ends its loop or the process. What it has written never keeps it from
starting again, and it goes on with what the requests before have made.
-/

namespace RedisLite.Startup
open ByteStrings Keyspace AppendLog Commands Operations Replay Restart EventLoop MachineRuns

/-- A call of the program by a process that has no descriptors yet, what the system answers, and what
happens to the server if it enters its loop. -/
structure Invocation where
  boot : ℤ
  start : Instant boot
  args : List Bytes
  answers : Answers
  distinct : ∀ fd, answers.kqueue = some fd → answers.socket ≠ some fd
  run : List EventLoop.Input

def Invocation.launched (i : Invocation) (disk : Option Bytes) : Launched × Process :=
  main i.args (fun _ => i.start.readings) i.answers { disk := disk }

def Invocation.calls (i : Invocation) (listenFd : ℕ) (entered : Session) : List Call :=
  runCalls i.run (started listenFd entered)

/-- What is on the disk, and the session that the executed requests have made, after starts on one file
from the first on. Every life of the server has come to its end after some number of calls; nothing has
happened since some time. -/
inductive Service (path : Bytes) : Option Bytes → Session → ℤ → Prop
  | untouched (time : ℤ) : Service path none fresh time
  | refused {disk : Option Bytes} {session : Session} {time : ℤ} (h : Service path disk session time)
      (i : Invocation) {code : ℕ} (hexited : (i.launched disk).1 = .exited code) :
      Service path (i.launched disk).2.disk session time
  | served {disk : Option Bytes} {session : Session} {time : ℤ} (h : Service path disk session time)
      (i : Invocation) (hpath : logPathArgument i.args = path) (hreadable : i.answers.readable = true)
      {address : Address} {listenFd kq : ℕ} {entered : Session}
      (hserving : (i.launched disk).1 = .serving address listenFd kq entered)
      {instants : List (Instant i.boot)}
      (hreadings : (i.calls listenFd entered).map Call.now = instants.map Instant.readings)
      (hordered : (i.start :: instants).Pairwise fun j j' => j.time ≤ j'.time)
      (hlater : time ≤ i.start.time) (hclock : WithinClock (disk.getD []) i.start) (k : ℕ) {ended : ℤ}
      (hended : ∀ j ∈ i.start :: instants, j.time ≤ ended) :
      Service path (final Call.execute ((i.calls listenFd entered).take k) entered).log
        (final Call.execute ((i.calls listenFd entered).take k) entered) ended

section Service
variable {path : Bytes} {disk : Option Bytes} {session : Session} {time : ℤ}

theorem Invocation.fresh (i : Invocation) (disk : Option Bytes) : i.answers.Fresh { disk := disk } :=
  ⟨fun _ _ => rfl, fun fd hfd => ⟨rfl, i.distinct fd hfd⟩⟩

/-- A file that can be read, or none: the replay sees its bytes. -/
theorem replayLog_reads {a : Answers} (hreadable : a.readable = true) (hsizable : a.sizable = true)
    (path : Bytes) (clock : ℕ → Readings) (disk : Option Bytes) :
    replayLog path (a.reads disk) clock {} = replayLog path (.contents (disk.getD [])) clock {} := by
  cases disk with
  | none => exact (replayLog_empty path clock).symm
  | some bytes => simp only [Answers.reads, hreadable, hsizable, if_true, Option.getD_some]

theorem replayLog_unsizable {a : Answers} (hreadable : a.readable = true)
    (hsizable : a.sizable = false) {bytes : Bytes} (path : Bytes) (clock : ℕ → Readings) :
    (replayLog path (a.reads (some bytes)) clock {}).1 ≠ none := by
  simp [Answers.reads, hreadable, hsizable, replayLog]

theorem Launches.replay {a : Answers} {logPath : Bytes} {clock : ℕ → Readings} {port listenFd kq : ℕ}
    (h : Launches logPath clock a disk port listenFd kq) (hreadable : a.readable = true) :
    replayLog logPath (a.reads disk) clock {} =
      replayLog logPath (.contents (disk.getD [])) clock {} := by
  cases hsizable : a.sizable with
  | true => exact replayLog_reads hreadable hsizable logPath clock disk
  | false =>
    cases disk with
    | none => exact (replayLog_empty logPath clock).symm
    | some bytes => exact absurd h.replayed (replayLog_unsizable hreadable hsizable logPath clock)

/-- The server enters its loop as in a lifetime on the file. -/
theorem Invocation.entered_eq (i : Invocation) (hreadable : i.answers.readable = true)
    {address : Address} {listenFd kq : ℕ} {entered : Session}
    (hserving : (i.launched disk).1 = .serving address listenFd kq entered) :
    (⟨i.boot, i.start, listenFd, i.run⟩ : Lifetime).entered (logPathArgument i.args) (disk.getD []) =
      started listenFd entered := by
  have houtcome : MainOutcome i.args (fun _ => i.start.readings) i.answers { disk := disk }
      (i.launched disk) := main_outcome (i.fresh disk)
  generalize i.launched disk = outcome at hserving houtcome
  cases houtcome with
  | refused => cases hserving
  | @entered port listenFd kq session p' hstarts h =>
    cases hserving
    obtain ⟨store, log⟩ := entered
    obtain rfl : store = _ := h.store
    obtain rfl : log = _ := h.log.trans h.disk
    rw [Lifetime.entered, ← hstarts.toLaunches.replay hreadable]
    rfl

theorem Invocation.exited_disk (i : Invocation) {code : ℕ}
    (hexited : (i.launched disk).1 = .exited code) :
    (i.launched disk).2.disk.getD [] = disk.getD [] := by
  have houtcome : MainOutcome i.args (fun _ => i.start.readings) i.answers { disk := disk }
      (i.launched disk) := main_outcome (i.fresh disk)
  generalize i.launched disk = outcome at hexited houtcome
  cases houtcome with
  | refused _ h =>
    rcases h.disk with hsame | ⟨hnone, hempty⟩
    · rw [hsame]
    · obtain rfl : disk = none := hnone
      rw [hempty]
      rfl
  | entered => cases hexited

theorem Service.lifetimes (h : Service path disk session time) :
    Lifetimes path session time ∧ session.log = some (disk.getD []) := by
  induction h with
  | untouched time => exact ⟨.none time, rfl⟩
  | refused h i hexited ih => exact ⟨ih.1, by rw [i.exited_disk hexited]; exact ih.2⟩
  | @served disk session time h i hpath hreadable address listenFd kq entered hserving instants hreadings
      hordered hlater hclock k ended hended ih =>
    subst hpath
    have hentered := i.entered_eq hreadable hserving
    have hlived := ih.1.lived ih.2 ⟨i.boot, i.start, listenFd, i.run⟩
      ⟨by rw [Lifetime.calls, hentered]; exact hreadings, hordered⟩ hlater hclock k hended
    rw [Lifetime.calls, hentered] at hlived
    refine ⟨hlived, ?_⟩
    obtain ⟨file, hfile⟩ := hlived.log
    exact hfile.trans (congrArg some (congrArg (Option.getD · []) hfile).symm)

/-- What was written is read again. -/
theorem Service.accepted (h : Service path disk session time) (i : Instant boot) :
    (replayLog path (.contents (disk.getD [])) (fun _ => i.readings) {}).1 = none := by
  obtain ⟨hlifetimes, hlog⟩ := h.lifetimes
  obtain ⟨w, hw, rfl, -⟩ := lifetimes_history hlifetimes
  obtain ⟨records, hrestorable⟩ := history_restorable hw
  have hfile : w.file = disk.getD [] := by rw [World.file, hlog, Option.getD_some]
  rw [← hfile, hrestorable.written.replay path i]

end Service

/-- The port is one, and the system does what `run_server` asks of it before its loop. -/
structure Granted (i : Invocation) (port listenFd kq : ℕ) : Prop where
  readable : i.answers.readable = true
  sizable : i.answers.sizable = true
  appendable : i.answers.appendable = true
  socket : i.answers.socket = some listenFd
  reusable : i.answers.reusable = true
  nonBlocking : i.answers.flags.get = true ∧ i.answers.flags.set = true
  bound : i.answers.bound (loopback port) = true
  listening : i.answers.listening = true
  kqueue : i.answers.kqueue = some kq
  registered : i.answers.register = .registered
  port : PortGiven i.args port

theorem Granted.starts {i : Invocation} {port listenFd kq : ℕ} (h : Granted i port listenFd kq)
    {path : Bytes} {disk : Option Bytes} {session : Session} {time : ℤ}
    (hpath : logPathArgument i.args = path) (hservice : Service path disk session time) :
    Starts i.args (fun _ => i.start.readings) i.answers disk port listenFd kq where
  replayed := by
    rw [hpath, replayLog_reads h.readable h.sizable]
    exact hservice.accepted i.start
  appendable := h.appendable
  socket := h.socket
  reusable := h.reusable
  nonBlocking := h.nonBlocking
  bound := h.bound
  listening := h.listening
  kqueue := h.kqueue
  registered := h.registered
  port := h.port

/-- However often the program has been started, refused and ended before: where the system grants what
it asks for, a start with a port gets to the loop, with the file as it was left; and if none of the
deadlines in the file has been reached, with the values that the requests of all clients so far have
made and a deadline for each key that had one. -/
theorem service_continues {path : Bytes} {disk : Option Bytes} {session : Session} {time : ℤ}
    (h : Service path disk session time) (i : Invocation) (hpath : logPathArgument i.args = path)
    {port listenFd kq : ℕ} (hgranted : Granted i port listenFd kq) :
    ∃ entered, (i.launched disk).1 = .serving (loopback port) listenFd kq entered ∧
      (i.launched disk).2.disk = entered.log ∧ entered.log = session.log ∧
      (time ≤ i.start.time → Unreached (disk.getD []) i.start →
        entered.store.values = session.store.values ∧
        ∀ key, key ∈ entered.store.expirations ↔ key ∈ session.store.expirations) := by
  have houtcome : MainOutcome i.args (fun _ => i.start.readings) i.answers { disk := disk }
      (i.launched disk) := main_outcome (i.fresh disk)
  obtain ⟨hlifetimes, hlog⟩ := h.lifetimes
  generalize i.launched disk = outcome at houtcome
  cases houtcome with
  | refused hfails => exact absurd (hgranted.starts hpath h) (hfails port listenFd kq)
  | @entered port' listenFd' kq' entered p' hstarts hentered =>
    obtain rfl := hstarts.port.unique hgranted.port
    obtain rfl := Option.some.inj (hstarts.socket.symm.trans hgranted.socket)
    obtain rfl := Option.some.inj (hstarts.kqueue.symm.trans hgranted.kqueue)
    refine ⟨entered, rfl, hentered.log.symm, (hentered.log.trans hentered.disk).trans hlog.symm,
      fun hlater hunreached => ?_⟩
    have hrestores := hlifetimes.restores hlog hlater hunreached
    have hstore : entered.store =
        (replayLog path (.contents (disk.getD [])) (fun _ => i.start.readings) {}).2 := by
      rw [← hpath, hentered.store]
      exact congrArg Prod.snd (hstarts.toLaunches.replay hgranted.readable)
    rw [hstore]
    exact ⟨hrestores.values, hrestores.expirations⟩

theorem distinct_of_ne {a : Answers} {listenFd kq : ℕ} (hsocket : a.socket = some listenFd)
    (hkqueue : a.kqueue = some kq) (hne : listenFd ≠ kq) (fd : ℕ) (hfd : a.kqueue = some fd) :
    a.socket ≠ some fd := by
  rw [hsocket, ← hfd, hkqueue]
  exact fun h => hne (Option.some.inj h)

def takenPort (start : Instant 0) : Invocation where
  boot := 0
  start := start
  args := [text "redis.log"]
  answers := { socket := some 3, bound := fun _ => false, kqueue := some 4 }
  distinct := distinct_of_ne rfl rfl (Nat.succ_ne_self 3).symm
  run := []

/-- A start that the system grants, and clients that set a key and get it. -/
def setThenGetStart (start : Instant 0) : Invocation where
  boot := 0
  start := start
  args := [text "redis.log"]
  answers := { socket := some 3, kqueue := some 4 }
  distinct := distinct_of_ne rfl rfl (Nat.succ_ne_self 3).symm
  run := setThenGet

theorem service_setThenGet : Service (text "redis.log") (some setRecord.encode)
    (final Call.execute ((setThenGetStart (nanoseconds 0 (by decide))).calls 3 fresh) fresh) 7 := by
  have hrefused := @Service.refused (text "redis.log") none fresh 0 (.untouched 0)
    (takenPort (nanoseconds 0 (by decide))) 1 rfl
  exact @Service.served _ _ fresh 0 hrefused (setThenGetStart (nanoseconds 0 (by decide))) rfl rfl
    (loopback 6379) 3 4 fresh rfl [nanoseconds 0 (by decide), nanoseconds 7 (by decide)] rfl
    (by decide) le_rfl (unreached_of_not_inFile not_inFile_nil _).clock 2 7
    (by decide)

theorem setThenGet_continues :
    let calls := (setThenGetStart (nanoseconds 0 (by decide))).calls 3 fresh
    ∃ entered, ((setThenGetStart (nanoseconds 8 (by decide))).launched (some setRecord.encode)).1 =
        .serving (loopback 6379) 3 4 entered ∧ entered.log = some setRecord.encode ∧
      entered.store.values = (final Call.execute calls fresh).store.values := by
  have hgranted : Granted (setThenGetStart (nanoseconds 8 (by decide))) 6379 3 4 :=
    ⟨rfl, rfl, rfl, rfl, rfl, ⟨rfl, rfl⟩, rfl, rfl, rfl, rfl, rfl⟩
  obtain ⟨entered, hserving, -, hlog, hrestored⟩ :=
    service_continues service_setThenGet _ rfl hgranted
  exact ⟨entered, hserving, hlog,
    (hrestored (by decide) (unreached_of_not_inFile not_inFile_setRecord _)).1⟩

end RedisLite.Startup
