import Mathlib.Data.List.TakeWhile
import RedisLite.ConnectionBookkeeping
import RedisLite.Replay

/-!
# Starting the server

Before its loop `run_server` replays the log, opens it for appending and sets up the listening socket.
Any of these steps can fail, and then the process ends with the exit code 1. It has then closed the
descriptors that it had opened, and no byte of the log has changed, so that the next start finds what
this one has found.
-/

namespace RedisLite.Startup
open ByteStrings StreamExtraction Keyspace AppendLog Commands Replay EventLoop MachineRuns

/-- Something written to the standard error stream: a line of the program, or what `perror` writes
under a name. -/
inductive Diagnostic where
  | line (text : Bytes)
  | perror (name : String)
  deriving DecidableEq, Repr

/-- `disk` is the file at the path of the log, if there is one. -/
structure Process where
  disk : Option Bytes
  openFds : Descriptors := ∅
  out : List Bytes := []
  err : List Diagnostic := []

namespace Process

def say (line : Bytes) (p : Process) : Process := { p with out := p.out ++ [line] }

def complain (lines : List Diagnostic) (p : Process) : Process := { p with err := p.err ++ lines }

def opens (fd : ℕ) (p : Process) : Process := { p with openFds := p.openFds.insert fd }

def closes (fd : ℕ) (p : Process) : Process := { p with openFds := p.openFds.erase fd }

end Process

structure FlagAnswers where
  get : Bool := true
  set : Bool := true

inductive KeventAnswer where
  | registered | noSuchEntry | failed
  deriving DecidableEq, Repr

/-- An address of the internet family, in the byte order of the host. -/
structure Address where
  host : ℕ
  port : ℕ
  deriving DecidableEq, Repr

def loopback (port : ℕ) : Address := ⟨0x7f000001, port⟩

/-- What the system answers to the calls that `run_server` makes before its loop; a call that gives a
descriptor fails by giving none. -/
structure Answers where
  readable : Bool := true
  sizable : Bool := true
  appendable : Bool := true
  socket : Option ℕ
  reusable : Bool := true
  flags : FlagAnswers := {}
  bound : Address → Bool := fun _ => true
  listening : Bool := true
  kqueue : Option ℕ
  register : KeventAnswer := .registered

/-- What `replay_log` finds at the path of the log. -/
def Answers.reads (a : Answers) : Option Bytes → LogFile
  | none => .absent
  | some bytes =>
    if a.readable then
      if a.sizable then .contents bytes else .unsizable
    else .absent

def setNonBlocking (a : FlagAnswers) (p : Process) : Bool × Process :=
  if ¬ a.get then (false, p.complain [.perror "fcntl(F_GETFL)"])
  else if ¬ a.set then (false, p.complain [.perror "fcntl(F_SETFL)"])
  else (true, p)

/-- `delete` is the flag `EV_DELETE`: removing a filter that was never registered is harmless. -/
def updateEvent (delete : Bool) (a : KeventAnswer) (p : Process) : Bool × Process :=
  match a with
  | .registered => (true, p)
  | .noSuchEntry =>
    if delete then (true, p) else (false, p.complain [.perror "kevent(register)"])
  | .failed => (false, p.complain [.perror "kevent(register)"])

/-- The file is created if it is not there, and every write goes to its end. -/
def openLog (a : Answers) (p : Process) : Option (Log × Process) :=
  if a.appendable then
    let contents := p.disk.getD []
    some (some contents, { p with disk := some contents })
  else none

def loadedLine (logPath : Bytes) (store : Store) : Bytes :=
  text "loaded " ++ natDecimal store.values.size ++ text " key(s) from " ++ logPath

def listeningLine (port : ℕ) : Bytes :=
  text "Redis-Lite server listening on 127.0.0.1:" ++ natDecimal port ++ text " (kqueue event loop)"

/-- How far a start gets: the process exits, or it enters the loop with a socket at the address. -/
inductive Launched where
  | exited (code : ℕ)
  | serving (address : Address) (listenFd kq : ℕ) (session : Session)

/-- `run_server` up to its loop. -/
def launch (port : ℕ) (logPath : Bytes) (clock : ℕ → Readings) (a : Answers) (p : Process) :
    Launched × Process :=
  match replayLog logPath (a.reads p.disk) clock {} with
  | (some error, _) =>
    (.exited 1, p.complain [.line (text "cannot start: " ++ error),
      .line (text "fix or remove " ++ logPath ++ text " and try again")])
  | (none, store) =>
    let p := p.say (loadedLine logPath store)
    match openLog a p with
    | none =>
      (.exited 1, p.complain [.line (text "cannot open " ++ logPath ++ text " for appending")])
    | some (log, p) =>
      match a.socket with
      | none => (.exited 1, p.complain [.perror "socket"])
      | some listenFd =>
        let p := p.opens listenFd
        if ¬ a.reusable then
          (.exited 1, (p.complain [.perror "setsockopt"]).closes listenFd)
        else
          match setNonBlocking a.flags p with
          | (false, p) => (.exited 1, p.closes listenFd)
          | (true, p) =>
            let address := loopback port
            if ¬ a.bound address then (.exited 1, (p.complain [.perror "bind"]).closes listenFd)
            else if ¬ a.listening then
              (.exited 1, (p.complain [.perror "listen"]).closes listenFd)
            else
              match a.kqueue with
              | none => (.exited 1, (p.complain [.perror "kqueue"]).closes listenFd)
              | some kq =>
                match updateEvent false a.register (p.opens kq) with
                | (false, p) => (.exited 1, (p.closes kq).closes listenFd)
                | (true, p) =>
                  (.serving address listenFd kq ⟨store, log⟩, p.say (listeningLine port))

/-- `std::strtol` to the base ten: a number out of range becomes the nearest one in range. The second
part is what is left from `end` on, and all of the text if there is no number. -/
def strtol (s : Bytes) : ℤ × Bytes :=
  match readSigned true (skipSpace s) with
  | none => (0, s)
  | some (n, rest) => (max minInt64 (min maxInt64 n), rest)

/-- The port that an argument gives, if it passes the check. -/
def portArgument (argument : Bytes) : Option ℕ :=
  let (parsed, rest) := strtol argument
  if rest.length = argument.length ∨ rest ≠ [] ∨ parsed < 1 ∨ 65535 < parsed then none
  else some parsed.toNat

def usage : Bytes := text "usage: redis-lite-server [log-path] [port]"

def starting (p : Process) : Process := p.say (text "Redis-Lite server starting...")

def logPathArgument (args : List Bytes) : Bytes := args[0]?.getD (text "redis-lite.aof")

/-- The whole program up to the loop, with the arguments after its name. -/
def main (args : List Bytes) (clock : ℕ → Readings) (a : Answers) (p : Process) :
    Launched × Process :=
  let port :=
    match args[1]? with
    | none => some 6379
    | some argument => portArgument argument
  match port with
  | none => (.exited 1, p.complain [.line usage])
  | some port =>
    launch port (logPathArgument args) clock a (starting p)

/-- White space, at most a `+`, and digits that give a port. -/
def PortText (argument : Bytes) (port : ℕ) : Prop :=
  ∃ spaces digits : Bytes, (∀ b ∈ spaces, isSpace b = true) ∧ digits ≠ [] ∧
    (∀ d ∈ digits, isDigit d = true) ∧
    (argument = spaces ++ digits ∨ argument = spaces ++ byte '+' :: digits) ∧
    digitsValue digits = port ∧ 1 ≤ port ∧ port ≤ 65535

theorem skipSpace_append {spaces : Bytes} (h : ∀ b ∈ spaces, isSpace b = true) {b : UInt8}
    (hb : isSpace b = false) (rest : Bytes) : skipSpace (spaces ++ b :: rest) = b :: rest := by
  rw [skipSpace, List.dropWhile_append_of_pos h, List.dropWhile_cons_of_neg (by simp [hb])]

/-- Digits, after a `+` or not, are a number. -/
theorem readSigned_plus {digits : Bytes} (hne : digits ≠ [])
    (hd : ∀ d ∈ digits, isDigit d = true) :
    readSigned true digits = some ((digitsValue digits : ℤ), []) ∧
      readSigned true (byte '+' :: digits) = some ((digitsValue digits : ℤ), []) := by
  obtain ⟨htake, hdrop⟩ := @takeWhile_digits_append digits [] hd (by simp)
  rw [List.append_nil] at htake hdrop
  have hminus : byte '+' ≠ byte '-' := by decide
  constructor
  · cases digits with
    | nil => exact absurd rfl hne
    | cons b rest =>
      have hsign := @splitSign_digit true b rest (hd b List.mem_cons_self)
      simp only [readSigned, hsign, htake, hdrop, hne, if_false]
      rfl
  · simp [readSigned, splitSign, hminus, htake, hdrop, hne]

/-- A positive number that reaches to the end of a text has no other form. -/
theorem readSigned_positive {bs : Bytes} {n : ℤ} (h : readSigned true bs = some (n, []))
    (hn : 0 < n) : ∃ digits : Bytes, digits ≠ [] ∧ (∀ d ∈ digits, isDigit d = true) ∧
      (bs = digits ∨ bs = byte '+' :: digits) ∧ n = digitsValue digits := by
  simp only [readSigned] at h
  split at h
  · cases h
  rename_i hne
  obtain ⟨hvalue, hrest⟩ := Prod.mk.inj (Option.some.inj h)
  have hall := List.dropWhile_eq_nil_iff.mp hrest
  rw [List.takeWhile_eq_self_iff.mpr hall] at hne hvalue
  refine ⟨(splitSign true bs).2, hne, hall, ?_⟩
  cases bs with
  | nil => exact absurd rfl hne
  | cons b rest =>
    by_cases hminus : b = byte '-'
    · subst hminus
      have hsign : (splitSign true (byte '-' :: rest)).1 = true := rfl
      rw [hsign, if_pos rfl] at hvalue
      omega
    · by_cases hplus : b = byte '+'
      · subst hplus
        exact ⟨.inr rfl, hvalue.symm⟩
      · have hsign : splitSign true (b :: rest) = (false, b :: rest) := by
          simp [splitSign, hminus, hplus]
        rw [hsign] at hvalue ⊢
        exact ⟨.inl rfl, hvalue.symm⟩

/-- The check of the port: the argument is taken exactly if it is white space, at most a `+` and digits
up to its end, and their value is a port. -/
theorem portArgument_eq_some_iff {argument : Bytes} {port : ℕ} :
    portArgument argument = some port ↔ PortText argument port := by
  constructor
  · intro h
    unfold portArgument strtol at h
    cases hread : readSigned true (skipSpace argument) with
    | none => simp [hread] at h
    | some r =>
      obtain ⟨n, rest⟩ := r
      simp only [hread] at h
      split at h
      · cases h
      rename_i hpasses
      simp only [not_or, not_not, not_lt] at hpasses
      obtain ⟨-, rfl, hleast, hmost⟩ := hpasses
      have hclamped : max minInt64 (min maxInt64 n) = n := by
        unfold minInt64 maxInt64 at hleast hmost ⊢
        omega
      rw [hclamped] at h hleast hmost
      obtain ⟨digits, hne, hdigits, hform, hvalue⟩ := readSigned_positive hread (by omega)
      have hsplit : argument = argument.takeWhile isSpace ++ skipSpace argument :=
        List.takeWhile_append_dropWhile.symm
      have hport := Option.some.inj h
      refine ⟨argument.takeWhile isSpace, digits,
        fun b hb => List.all_eq_true.mp List.all_takeWhile b hb, hne, hdigits, ?_, by omega, by omega,
        by omega⟩
      rcases hform with hform | hform
      · rw [← hform]
        exact .inl hsplit
      · rw [← hform]
        exact .inr hsplit
  · rintro ⟨spaces, digits, hspaces, hne, hdigits, hform, rfl, hleast, hmost⟩
    have hread : readSigned true (skipSpace argument) = some ((digitsValue digits : ℤ), []) := by
      rcases hform with rfl | rfl
      · cases digits with
        | nil => exact absurd rfl hne
        | cons d rest =>
          rw [skipSpace_append hspaces (isSpace_of_isDigit (hdigits d List.mem_cons_self))]
          exact (readSigned_plus hne hdigits).1
      · rw [skipSpace_append hspaces (by decide)]
        exact (readSigned_plus hne hdigits).2
    have hclamped : max minInt64 (min maxInt64 (digitsValue digits : ℤ)) = digitsValue digits := by
      unfold minInt64 maxInt64
      omega
    have hpasses : ¬ (([] : Bytes).length = argument.length ∨ ([] : Bytes) ≠ [] ∨
        (digitsValue digits : ℤ) < 1 ∨ 65535 < (digitsValue digits : ℤ)) := by
      have hargument : argument.length ≠ 0 := by
        rcases hform with rfl | rfl
        · simp [hne]
        · simp
      simp only [List.length_nil, not_or, not_lt]
      exact ⟨hargument.symm, by simp, by omega, by omega⟩
    simp only [portArgument, strtol, hread, hclamped, hpasses, if_false, Int.toNat_natCast]

structure Answers.Fresh (a : Answers) (p : Process) : Prop where
  socket : ∀ fd, a.socket = some fd → p.openFds.contains fd = false
  kqueue : ∀ fd, a.kqueue = some fd → p.openFds.contains fd = false ∧ a.socket ≠ some fd

/-- Every step of `run_server` before its loop succeeds. -/
structure Launches (logPath : Bytes) (clock : ℕ → Readings) (a : Answers) (disk : Option Bytes)
    (port listenFd kq : ℕ) : Prop where
  replayed : (replayLog logPath (a.reads disk) clock {}).1 = none
  appendable : a.appendable = true
  socket : a.socket = some listenFd
  reusable : a.reusable = true
  nonBlocking : a.flags.get = true ∧ a.flags.set = true
  bound : a.bound (loopback port) = true
  listening : a.listening = true
  kqueue : a.kqueue = some kq
  registered : a.register = .registered

/-- The process that a refused start leaves behind: its descriptors are those it had before, it has
said why, and on the disk there is at most an empty file more. -/
structure Refuses (p p' : Process) : Prop where
  openFds : p'.openFds = p.openFds
  disk : p'.disk = p.disk ∨ p.disk = none ∧ p'.disk = some []
  told : ∃ line lines, p'.err = p.err ++ line :: lines

/-- The process that enters the loop: two descriptors are open that were not, the session is what the
replay has loaded, with the file that it was loaded from as its log. -/
structure Enters (logPath : Bytes) (clock : ℕ → Readings) (a : Answers) (port : ℕ) (p : Process)
    (listenFd kq : ℕ) (session : Session) (p' : Process) : Prop where
  openFds : p'.openFds = (p.openFds.insert listenFd).insert kq
  disk : p'.disk = some (p.disk.getD [])
  store : session.store = (replayLog logPath (a.reads p.disk) clock {}).2
  log : session.log = p'.disk
  told : p'.out = p.out ++ [loadedLine logPath session.store, listeningLine port]
  quiet : p'.err = p.err

inductive Launch (logPath : Bytes) (clock : ℕ → Readings) (a : Answers) (port : ℕ) (p : Process) :
    Launched × Process → Prop
  | refused {p' : Process} (hfails : ∀ listenFd kq, ¬ Launches logPath clock a p.disk port listenFd kq)
      (h : Refuses p p') : Launch logPath clock a port p (.exited 1, p')
  | entered {listenFd kq : ℕ} {session : Session} {p' : Process}
      (hall : Launches logPath clock a p.disk port listenFd kq)
      (h : Enters logPath clock a port p listenFd kq session p') :
      Launch logPath clock a port p (.serving (loopback port) listenFd kq session, p')

theorem erase_insert {fd : ℕ} {d : Descriptors} (h : d.contains fd = false) :
    (d.insert fd).erase fd = d := by
  apply Std.ExtTreeSet.ext_contains
  intro fd'
  rw [contains_erase, contains_insert]
  by_cases hfd : fd = fd'
  · subst hfd
    simp [h]
  · rw [bne_iff_ne.mpr hfd, beq_eq_false_iff_ne.mpr hfd, Bool.true_and, Bool.false_or]

section Launch
variable {logPath : Bytes} {clock : ℕ → Readings} {a : Answers} {p p' : Process} {port : ℕ}

theorem disk_opened (disk : Option Bytes) :
    some (disk.getD []) = disk ∨ disk = none ∧ some (disk.getD []) = some [] := by
  cases disk with
  | none => exact .inr ⟨rfl, rfl⟩
  | some contents => exact .inl rfl

/-- A failure after the socket has been opened: it is closed again. -/
theorem Refuses.closes {fd : ℕ} (hfresh : p.openFds.contains fd = false)
    (hopenFds : p'.openFds = p.openFds.insert fd) (hdisk : p'.disk = some (p.disk.getD []))
    (htold : ∃ line, p'.err = p.err ++ [line]) : Refuses p (p'.closes fd) where
  openFds := by rw [Process.closes, hopenFds, erase_insert hfresh]
  disk := by
    have hopened := disk_opened p.disk
    rwa [← hdisk] at hopened
  told := htold.imp fun line h => ⟨[], h⟩

theorem launch_outcome (hfresh : a.Fresh p) :
    Launch logPath clock a port p (launch port logPath clock a p) := by
  unfold launch
  rcases hreplay : replayLog logPath (a.reads p.disk) clock {} with ⟨_ | error, store⟩
  swap
  · refine .refused (fun _ _ h => ?_) ⟨rfl, .inl rfl, _, _, rfl⟩
    cases (congrArg Prod.fst hreplay).symm.trans h.replayed
  dsimp only [openLog]
  cases happendable : a.appendable with
  | false =>
    refine .refused (fun _ _ h => ?_) ⟨rfl, .inl rfl, _, _, rfl⟩
    cases happendable.symm.trans h.appendable
  | true =>
  cases hsocket : a.socket with
  | none =>
    refine .refused (fun _ _ h => ?_) ⟨rfl, disk_opened p.disk, _, _, rfl⟩
    cases hsocket.symm.trans h.socket
  | some listenFd =>
  have hclosed := hfresh.socket listenFd hsocket
  cases hreusable : a.reusable with
  | false =>
    refine .refused (fun _ _ h => ?_) (.closes hclosed rfl rfl ⟨_, rfl⟩)
    cases hreusable.symm.trans h.reusable
  | true =>
  dsimp only [setNonBlocking]
  cases hget : a.flags.get with
  | false =>
    refine .refused (fun _ _ h => ?_) (.closes hclosed rfl rfl ⟨_, rfl⟩)
    cases hget.symm.trans h.nonBlocking.1
  | true =>
  cases hset : a.flags.set with
  | false =>
    refine .refused (fun _ _ h => ?_) (.closes hclosed rfl rfl ⟨_, rfl⟩)
    cases hset.symm.trans h.nonBlocking.2
  | true =>
  cases hbound : a.bound (loopback port) with
  | false =>
    refine .refused (fun _ _ h => ?_) (.closes hclosed rfl rfl ⟨_, rfl⟩)
    cases hbound.symm.trans h.bound
  | true =>
  cases hlistening : a.listening with
  | false =>
    refine .refused (fun _ _ h => ?_) (.closes hclosed rfl rfl ⟨_, rfl⟩)
    cases hlistening.symm.trans h.listening
  | true =>
  cases hkqueue : a.kqueue with
  | none =>
    refine .refused (fun _ _ h => ?_) (.closes hclosed rfl rfl ⟨_, rfl⟩)
    cases hkqueue.symm.trans h.kqueue
  | some kq =>
  obtain ⟨hkqClosed, hother⟩ := hfresh.kqueue kq hkqueue
  have hkq : (p.openFds.insert listenFd).contains kq = false := by
    rw [contains_insert, hkqClosed, Bool.or_false]
    exact beq_eq_false_iff_ne.mpr fun heq => hother (heq ▸ hsocket)
  cases hregister : a.register with
  | registered =>
    refine .entered ⟨?_, happendable, hsocket, hreusable, ⟨hget, hset⟩, hbound, hlistening, hkqueue,
      hregister⟩ ⟨rfl, rfl, ?_, rfl, ?_, rfl⟩
    · rw [hreplay]
    · rw [hreplay]
    · simp only [Process.say, Process.opens, List.append_assoc]
      rfl
  | noSuchEntry =>
    refine .refused (fun _ _ h => ?_) (.closes hclosed (erase_insert hkq) rfl ⟨_, rfl⟩)
    cases hregister.symm.trans h.registered
  | failed =>
    refine .refused (fun _ _ h => ?_) (.closes hclosed (erase_insert hkq) rfl ⟨_, rfl⟩)
    cases hregister.symm.trans h.registered

end Launch

/-- The port that the program is to use. -/
def PortGiven (args : List Bytes) (port : ℕ) : Prop :=
  match args[1]? with
  | none => port = 6379
  | some argument => PortText argument port

theorem PortGiven.unique {args : List Bytes} {port port' : ℕ} (h : PortGiven args port)
    (h' : PortGiven args port') : port = port' := by
  unfold PortGiven at h h'
  cases hargument : args[1]? with
  | none =>
    rw [hargument] at h h'
    exact h.trans h'.symm
  | some argument =>
    rw [hargument] at h h'
    exact Option.some.inj ((portArgument_eq_some_iff.mpr h).symm.trans (portArgument_eq_some_iff.mpr h'))

/-- The arguments are in order and every step of the start succeeds. -/
structure Starts (args : List Bytes) (clock : ℕ → Readings) (a : Answers) (disk : Option Bytes)
    (port listenFd kq : ℕ) : Prop
    extends Launches (logPathArgument args) clock a disk port listenFd kq where
  port : PortGiven args port

section Main
variable {args : List Bytes} {clock : ℕ → Readings} {a : Answers} {p p' : Process}

/-- Either the port is not one, or `run_server` is called. -/
theorem main_cases (args : List Bytes) (clock : ℕ → Readings) (a : Answers) (p : Process) :
    ((∀ port, ¬ PortGiven args port) ∧
        main args clock a p = (.exited 1, p.complain [.line usage])) ∨
      ∃ port, PortGiven args port ∧
        main args clock a p = launch port (logPathArgument args) clock a (starting p) := by
  unfold main PortGiven
  cases args[1]? with
  | none => exact .inr ⟨6379, rfl, rfl⟩
  | some argument =>
    cases hport : portArgument argument with
    | none =>
      refine .inl ⟨fun port htext => ?_, by simp only [hport]⟩
      cases hport.symm.trans (portArgument_eq_some_iff.mpr htext)
    | some port => exact .inr ⟨port, portArgument_eq_some_iff.mp hport, by simp only [hport]⟩

inductive MainOutcome (args : List Bytes) (clock : ℕ → Readings) (a : Answers) (p : Process) :
    Launched × Process → Prop
  | refused {p' : Process}
      (hfails : ∀ port listenFd kq, ¬ Starts args clock a p.disk port listenFd kq)
      (h : Refuses p p') : MainOutcome args clock a p (.exited 1, p')
  | entered {port listenFd kq : ℕ} {session : Session} {p' : Process}
      (hstarts : Starts args clock a p.disk port listenFd kq)
      (h : Enters (logPathArgument args) clock a port (starting p) listenFd kq session p') :
      MainOutcome args clock a p (.serving (loopback port) listenFd kq session, p')

theorem main_outcome (hfresh : a.Fresh p) : MainOutcome args clock a p (main args clock a p) := by
  rcases main_cases args clock a p with ⟨hnone, hmain⟩ | ⟨port, hport, hmain⟩
  · rw [hmain]
    exact .refused (fun port _ _ hstarts => hnone port hstarts.port) ⟨rfl, .inl rfl, _, _, rfl⟩
  · have hlaunch : Launch (logPathArgument args) clock a port (starting p)
        (main args clock a p) := by
      rw [hmain]
      exact launch_outcome ⟨hfresh.socket, hfresh.kqueue⟩
    generalize main args clock a p = outcome at hlaunch
    cases hlaunch with
    | refused hfails h =>
      refine .refused (fun port' listenFd kq hstarts => ?_) ⟨h.openFds, h.disk, h.told⟩
      obtain rfl := hstarts.port.unique hport
      exact hfails listenFd kq hstarts.toLaunches
    | entered hall h => exact .entered ⟨hall, hport⟩ h

/-- Whatever the system answers, the program enters its loop exactly if the arguments are in order and
every step succeeds, on the port that it was given and with the store that the replay has loaded.
Otherwise it exits with the code 1; it has said why, it has closed what it had opened, and it has
written nothing into the log. -/
theorem main_serves_iff (hfresh : a.Fresh p) :
    ((∃ address listenFd kq session,
        (main args clock a p).1 = .serving address listenFd kq session) ↔
        ∃ port listenFd kq, Starts args clock a p.disk port listenFd kq) ∧
      (∀ code, (main args clock a p).1 = .exited code →
        code = 1 ∧ Refuses p (main args clock a p).2) ∧
      ∀ address listenFd kq session,
        (main args clock a p).1 = .serving address listenFd kq session →
          ∃ port, PortGiven args port ∧ address = loopback port ∧
            Enters (logPathArgument args) clock a port (starting p) listenFd kq session
              (main args clock a p).2 := by
  have houtcome : MainOutcome args clock a p (main args clock a p) := main_outcome hfresh
  generalize main args clock a p = outcome at houtcome
  cases houtcome with
  | refused hfails h =>
    refine ⟨⟨?_, ?_⟩, fun code hcode => ?_, ?_⟩
    · rintro ⟨address, listenFd, kq, session, hserving⟩
      cases hserving
    · rintro ⟨port, listenFd, kq, hstarts⟩
      exact absurd hstarts (hfails port listenFd kq)
    · cases hcode
      exact ⟨rfl, h⟩
    · intro address listenFd kq session hserving
      cases hserving
  | @entered port listenFd kq session p' hstarts h =>
    refine ⟨⟨fun _ => ⟨port, listenFd, kq, hstarts⟩, fun _ => ⟨_, listenFd, kq, session, rfl⟩⟩, ?_, ?_⟩
    · intro code hcode
      cases hcode
    · intro address listenFd' kq' session' hserving
      cases hserving
      exact ⟨port, hstarts.port, rfl, h⟩

end Main

def noKqueue : Answers := { socket := some 3, kqueue := none }

theorem kqueue_failure_refused : Refuses { disk := none }
    (main [text "redis.log", text " +6380"] (fun _ => .once 0 0) noKqueue { disk := none }).2 := by
  have hfresh : noKqueue.Fresh { disk := none } := ⟨fun _ _ => rfl, fun _ hfd => by cases hfd⟩
  obtain ⟨-, hexits, -⟩ := @main_serves_iff [text "redis.log", text " +6380"]
    (fun _ => .once 0 0) noKqueue { disk := none } hfresh
  exact (hexits 1 rfl).2

structure Attempt where
  args : List Bytes
  clock : ℕ → Readings
  answers : Answers

def Attempt.run (i : Attempt) (p : Process) : Launched × Process := main i.args i.clock i.answers p

/-- The descriptors that the system gives are not in use, and the program does not get to its loop. -/
def Attempt.Refused (i : Attempt) (p : Process) : Prop :=
  i.answers.Fresh p ∧ ∃ code, (i.run p).1 = .exited code

/-- The replay of an empty file loads what is loaded when there is none. -/
theorem replayLog_empty (path : Bytes) (clock : ℕ → Readings) :
    replayLog path (.contents []) clock {} = replayLog path .absent clock {} :=
  @replayLog_records path clock {} [] (by simp)

section Attempts
variable {p p' : Process}

structure Kept (p p' : Process) : Prop where
  openFds : p'.openFds = p.openFds
  disk : p'.disk = p.disk ∨ p.disk = none ∧ p'.disk = some []
  told : p.err <+: p'.err

theorem Kept.refuses {p'' : Process} (h : Kept p p') (hrefuses : Refuses p' p'') : Kept p p'' where
  openFds := hrefuses.openFds.trans h.openFds
  disk := by
    rcases h.disk with hsame | ⟨hnone, hempty⟩
    · rw [← hsame]
      exact hrefuses.disk
    · rcases hrefuses.disk with hsame | ⟨hnone', -⟩
      · exact .inr ⟨hnone, hsame.trans hempty⟩
      · cases hempty.symm.trans hnone'
  told := by
    obtain ⟨line, lines, herr⟩ := hrefuses.told
    rw [herr]
    exact h.told.trans (List.prefix_append _ _)

theorem Attempt.Refused.refuses {i : Attempt} (h : i.Refused p) : Refuses p (i.run p).2 := by
  obtain ⟨hfresh, code, hcode⟩ := h
  have houtcome : MainOutcome i.args i.clock i.answers p (i.run p) := main_outcome hfresh
  generalize i.run p = outcome at houtcome hcode
  cases houtcome with
  | refused _ hrefuses => exact hrefuses
  | entered => cases hcode

theorem kept_run {attempts : List Attempt} (h : Along Attempt.Refused Attempt.run attempts p) :
    Kept p (final Attempt.run attempts p) :=
  final_along (fun _ _ _ hrefused hkept => hkept.refuses hrefused.refuses)
    ⟨rfl, .inl rfl, List.prefix_rfl⟩ h

/-- The next start reads what it would have read. -/
theorem Kept.replay (h : Kept p p') {a : Answers} (hsizable : a.sizable = true) (path : Bytes)
    (clock : ℕ → Readings) :
    replayLog path (a.reads p'.disk) clock {} = replayLog path (a.reads p.disk) clock {} := by
  rcases h.disk with hsame | ⟨hnone, hempty⟩
  · rw [hsame]
  · rw [hnone, hempty]
    cases hreadable : a.readable with
    | false => simp [Answers.reads, hreadable]
    | true => simpa [Answers.reads, hreadable, hsizable] using replayLog_empty path clock

theorem Kept.contents (h : Kept p p') : p'.disk.getD [] = p.disk.getD [] := by
  rcases h.disk with hsame | ⟨hnone, hempty⟩
  · rw [hsame]
  · rw [hnone, hempty]
    rfl

theorem Kept.starts_iff (h : Kept p p') {i : Attempt} (hsizable : i.answers.sizable = true)
    {port listenFd kq : ℕ} : Starts i.args i.clock i.answers p'.disk port listenFd kq ↔
      Starts i.args i.clock i.answers p.disk port listenFd kq := by
  have hreplay := h.replay hsizable (logPathArgument i.args) i.clock
  constructor
  · exact fun hs => ⟨{ hs with replayed := hreplay ▸ hs.replayed }, hs.port⟩
  · exact fun hs => ⟨{ hs with replayed := hreplay.symm ▸ hs.replayed }, hs.port⟩

theorem Enters.session_eq {logPath : Bytes} {clock : ℕ → Readings} {a : Answers}
    {port port' listenFd listenFd' kq kq' : ℕ} {session session' : Session} {after after' : Process}
    (h : Enters logPath clock a port (starting p) listenFd kq session after)
    (h' : Enters logPath clock a port' (starting p') listenFd' kq' session' after')
    (hkept : Kept p p') (hsizable : a.sizable = true) : session' = session := by
  have hstore : session'.store = session.store := by
    rw [h'.store, h.store]
    exact congrArg Prod.snd (hkept.replay hsizable logPath clock)
  have hlog : session'.log = session.log := by
    rw [h'.log, h.log, h'.disk, h.disk]
    exact congrArg some hkept.contents
  cases session'
  cases session
  exact congrArg₂ Session.mk hstore hlog

/-- However often a start is refused, whatever the reasons, no descriptor stays open, the log has the
bytes that it had, and the next start ends as it would have ended at first. -/
theorem refused_starts_harmless {attempts : List Attempt}
    (h : Along Attempt.Refused Attempt.run attempts p) :
    let p' := final Attempt.run attempts p
    p'.openFds = p.openFds ∧ p'.disk.getD [] = p.disk.getD [] ∧ p.err <+: p'.err ∧
      ∀ i : Attempt, i.answers.Fresh p → i.answers.sizable = true → (i.run p').1 = (i.run p).1 := by
  intro p'
  have hkept : Kept p p' := kept_run h
  refine ⟨hkept.openFds, hkept.contents, hkept.told, fun i hfresh hsizable => ?_⟩
  have hfresh' : i.answers.Fresh p' :=
    ⟨fun fd hfd => hkept.openFds ▸ hfresh.socket fd hfd,
      fun fd hfd => hkept.openFds ▸ hfresh.kqueue fd hfd⟩
  have houtcome : MainOutcome i.args i.clock i.answers p (i.run p) := main_outcome hfresh
  have houtcome' : MainOutcome i.args i.clock i.answers p' (i.run p') := main_outcome hfresh'
  generalize i.run p = outcome at houtcome
  generalize i.run p' = outcome' at houtcome'
  cases houtcome with
  | refused hfails =>
    cases houtcome' with
    | refused => rfl
    | entered hstarts => exact absurd ((hkept.starts_iff hsizable).mp hstarts) (hfails _ _ _)
  | entered hstarts henters =>
    cases houtcome' with
    | refused hfails => exact absurd ((hkept.starts_iff hsizable).mpr hstarts) (hfails _ _ _)
    | entered hstarts' henters' =>
      obtain rfl := hstarts'.port.unique hstarts.port
      obtain rfl := Option.some.inj (hstarts'.socket.symm.trans hstarts.socket)
      obtain rfl := Option.some.inj (hstarts'.kqueue.symm.trans hstarts.kqueue)
      exact congrArg (Launched.serving _ _ _) (henters.session_eq henters' hkept hsizable)

end Attempts

def portTooLarge : Attempt where
  args := [text "redis.log", text "65536"]
  clock := fun _ => .once 0 0
  answers := { socket := some 3, kqueue := some 4 }

def portInUse : Attempt where
  args := [text "redis.log", text "6379"]
  clock := fun _ => .once 0 0
  answers := { socket := some 3, bound := fun _ => false, kqueue := some 4 }

theorem portInUse_harmless :
    let p' := final Attempt.run [portTooLarge, portInUse] { disk := none }
    p'.openFds = ∅ ∧ p'.disk.getD [] = [] := by
  intro p'
  have hsocket : ∀ fd, some 3 = some fd → (∅ : Descriptors).contains fd = false := fun _ _ => rfl
  have hrefused : Along Attempt.Refused Attempt.run [portTooLarge, portInUse] { disk := none } :=
    ⟨⟨⟨hsocket, fun fd hfd => ⟨rfl, by cases hfd; decide⟩⟩, 1, rfl⟩,
      ⟨⟨hsocket, fun fd hfd => ⟨rfl, by cases hfd; decide⟩⟩, 1, rfl⟩, trivial⟩
  obtain ⟨hopenFds, hdisk, -⟩ := refused_starts_harmless hrefused
  exact ⟨hopenFds, hdisk⟩

end RedisLite.Startup
