import RedisLite.OutputStreams
import RedisLite.RequestMemory
import RedisLite.RestartEquivalence

/-!
# Lifetimes of the server

In each of its lifetimes the server replays the file, enters its loop, serves whatever clients there
are, and comes to an end at some request of some client. What the clients have been told survives: the
next replay gives back the store that the requests of all lifetimes have made.
-/

namespace RedisLite.Restart
open ByteStrings Resp Keyspace AppendLog Commands Operations RecordFiles LogReader Replay
open EventLoop MachineRuns

variable {boot : ℤ}

structure Lifetime where
  boot : ℤ
  start : Instant boot
  listenFd : ℕ
  run : List EventLoop.Input

/-- The server as it enters its loop, with what it has replayed. -/
def Lifetime.entered (l : Lifetime) (path file : Bytes) : Server :=
  started l.listenFd
    ⟨(replayLog path (.contents file) (fun _ => l.start.readings) {}).2, some file⟩

def Lifetime.calls (l : Lifetime) (path file : Bytes) : List Call :=
  runCalls l.run (l.entered path file)

/-- The clocks show instants of the lifetime when the calls are executed, and no instant is before an
earlier one. -/
structure Lifetime.Timed (l : Lifetime) (path file : Bytes) (instants : List (Instant l.boot)) :
    Prop where
  readings : (l.calls path file).map Call.now = instants.map Instant.readings
  ordered : (l.start :: instants).Pairwise fun i j => i.time ≤ j.time

/-- The session that lifetimes on one file leave behind, from an empty file on. The last of them has
come to its end after `k` calls; nothing has happened on the file since some time. -/
inductive Lifetimes (path : Bytes) : Session → ℤ → Prop
  | none (time : ℤ) : Lifetimes path fresh time
  | lived {session : Session} {time : ℤ} (h : Lifetimes path session time) {file : Bytes}
      (hfile : session.log = some file) (l : Lifetime) {instants : List (Instant l.boot)}
      (htimed : l.Timed path file instants) (hlater : time ≤ l.start.time)
      (hclock : WithinClock file l.start) (k : ℕ) {ended : ℤ}
      (hended : ∀ i ∈ l.start :: instants, i.time ≤ ended) :
      Lifetimes path
        (final Call.execute ((l.calls path file).take k) (l.entered path file).session) ended

def Arrival.call (a : Arrival boot) : Call := ⟨a.instant.readings, a.request⟩

/-- The requests of a lifetime, one after the other, are a history. -/
theorem History.serveAll {path : Bytes} {w : World} (h : History path w) (hboot : w.boot = boot)
    {arrivals : List (Arrival boot)} (hordered : arrivals.Pairwise fun a b => a.time ≤ b.time)
    (hlater : ∀ a ∈ arrivals, w.time ≤ a.time) {ended : ℤ} (hstart : w.time ≤ ended)
    (hended : ∀ a ∈ arrivals, a.time ≤ ended) :
    ∃ w', History path w' ∧ w'.time ≤ ended ∧
      w'.session = final Call.execute (arrivals.map Arrival.call) w.session := by
  induction arrivals generalizing w with
  | nil => exact ⟨w, h, hstart, rfl⟩
  | cons a arrivals ih =>
    subst hboot
    obtain ⟨hfirst, hordered⟩ := List.pairwise_cons.mp hordered
    exact ih (h.request a (hlater a List.mem_cons_self)) rfl hordered hfirst
      (hended a List.mem_cons_self) fun b hb => hended b (List.mem_cons_of_mem a hb)

theorem fits_of_short {call : Call} (h : Short call) :
    ∀ e ∈ call.request.elements, FitsMemory e.string := by
  intro e he
  have hlength := h e he
  unfold kMaxRequestBytes at hlength
  unfold FitsMemory maxInt64
  omega

/-- Calls at instants are arrivals. -/
theorem exists_arrivals {calls : List Call} {instants : List (Instant boot)}
    (hreadings : calls.map Call.now = instants.map Instant.readings)
    (hshort : ∀ call ∈ calls, Short call) :
    ∃ arrivals : List (Arrival boot), arrivals.map Arrival.call = calls ∧
      arrivals.map Arrival.instant = instants := by
  induction calls generalizing instants with
  | nil =>
    obtain rfl : instants = [] := by simpa using hreadings.symm
    exact ⟨[], rfl, rfl⟩
  | cons call calls ih =>
    cases instants with
    | nil => cases hreadings
    | cons i instants =>
      obtain ⟨hnow, hreadings⟩ := List.cons.inj hreadings
      obtain ⟨arrivals, hcalls, hinstants⟩ :=
        ih hreadings fun call hcall => hshort call (List.mem_cons_of_mem _ hcall)
      refine ⟨⟨i, call.request, fits_of_short (hshort call List.mem_cons_self)⟩ :: arrivals, ?_, ?_⟩
      · rw [List.map_cons, hcalls, Arrival.call, ← hnow]
      · rw [List.map_cons, hinstants]

/-- What lifetimes leave behind is the session of a history. -/
theorem lifetimes_history {path : Bytes} {session : Session} {time : ℤ}
    (h : Lifetimes path session time) :
    ∃ w, History path w ∧ w.session = session ∧ w.time ≤ time := by
  induction h with
  | none time => exact ⟨_, .start 0 time, rfl, le_rfl⟩
  | @lived session time _ file hfile l instants htimed hlater hclock k ended hended ih =>
    obtain ⟨w, hw, rfl, htime⟩ := ih
    have hwfile : w.file = file := by rw [World.file, hfile, Option.getD_some]
    have hrestart : History path (w.restart path l.start) :=
      hw.restart l.start (htime.trans hlater) (by rwa [hwfile])
    have hentered : (w.restart path l.start).session = (l.entered path file).session := by
      rw [World.restart, hwfile, hfile]
      rfl
    obtain ⟨arrivals, hcalls, hinstants⟩ := exists_arrivals htimed.readings
      (runCalls_short l.run (bounded_started l.listenFd _))
    obtain ⟨hfirst, hordered⟩ := List.pairwise_cons.mp htimed.ordered
    rw [← hinstants, List.pairwise_map] at hordered
    have hinstant : ∀ a ∈ arrivals.take k, a.instant ∈ instants := by
      intro a ha
      rw [← hinstants]
      exact List.mem_map_of_mem (List.mem_of_mem_take ha)
    have hmap : (arrivals.take k).map Arrival.call = (l.calls path file).take k := by
      rw [List.map_take, hcalls]
    obtain ⟨w', hw', htime', hsession⟩ := hrestart.serveAll rfl
      (hordered.sublist (List.take_sublist k _))
      (fun a ha => hfirst a.instant (hinstant a ha)) (hended l.start List.mem_cons_self)
      (fun a ha => hended a.instant (List.mem_cons_of_mem _ (hinstant a ha)))
    rw [hentered] at hsession
    exact ⟨w', hw', hsession.trans (congrArg (final Call.execute · _) hmap), htime'⟩

theorem Lifetimes.log {path : Bytes} {session : Session} {time : ℤ} (h : Lifetimes path session time) :
    ∃ file, session.log = some file := by
  obtain ⟨w, hw, rfl, -⟩ := lifetimes_history h
  obtain ⟨records, hrestorable⟩ := history_restorable hw
  exact ⟨_, hrestorable.written.log⟩

/-- What a replay has restored. -/
structure Restores (path file : Bytes) (i : Instant boot) (store : Store) : Prop where
  accepted : (replayLog path (.contents file) (fun _ => i.readings) {}).1 = none
  values : (replayLog path (.contents file) (fun _ => i.readings) {}).2.values = store.values
  expirations : ∀ key, key ∈ (replayLog path (.contents file) (fun _ => i.readings) {}).2.expirations ↔
    key ∈ store.expirations

/-- No recorded deadline has been reached at the instant of a replay, and its clock can count up to
all of them. -/
structure Unreached (file : Bytes) (i : Instant boot) : Prop where
  ahead : ∀ key deadline, InFile file (.expire key deadline) → i.unix < deadline
  clock : WithinClock file i

theorem unreached_of_not_inFile {file : Bytes}
    (h : ∀ key deadline, ¬ InFile file (.expire key deadline)) (i : Instant boot) : Unreached file i :=
  ⟨fun key deadline hin => absurd hin (h key deadline),
    fun key deadline hin => absurd hin (h key deadline)⟩

theorem Lifetimes.restores {path : Bytes} {session : Session} {time : ℤ}
    (h : Lifetimes path session time) {file : Bytes} (hfile : session.log = some file)
    {i : Instant boot} (hlater : time ≤ i.time) (hunreached : Unreached file i) :
    Restores path file i session.store := by
  obtain ⟨w, hw, rfl, htime⟩ := lifetimes_history h
  obtain ⟨records, hrestorable⟩ := history_restorable hw
  have hwfile : w.file = file := by rw [World.file, hfile, Option.getD_some]
  have hwritten := hrestorable.written
  have hahead : Ahead records i := by
    intro key deadline hmem
    have hin : InFile file (.expire key deadline) := by
      rw [← hwfile, hwritten.file]
      exact (inFile_iff hwritten.wellFormed).mpr hmem
    exact ⟨hunreached.ahead key deadline hin, hunreached.clock key deadline hin⟩
  have hcell := hrestorable.follows i (htime.trans hlater) hahead
  have hnot := (hrestorable.timed i (htime.trans hlater) hahead).not_passed hahead
  have hreplay := hwritten.replay path i
  rw [hwfile] at hreplay
  refine ⟨by rw [hreplay], ?_, fun key => ?_⟩
  · rw [hreplay]
    exact Std.ExtTreeMap.ext_getElem? fun key =>
      (congrArg Cell.value (hcell key)).trans (mirror_value (hnot key))
  · have hdeadline := (congrArg Cell.deadline (hcell key)).trans (mirror_deadline (hnot key))
    change (loaded (fun _ => i.readings) records).expirations[key]? = _ at hdeadline
    rw [hreplay, Std.ExtTreeMap.mem_iff_isSome_getElem?, Std.ExtTreeMap.mem_iff_isSome_getElem?,
      hdeadline, Option.isSome_map]
    rfl

/-- Whatever the clients do and wherever each lifetime comes to its end, the next replay gives back the
store that the executed requests have made; and no client has been sent a byte that does not belong to
the replies to them, or to the error for which its connection is closed. -/
theorem acknowledged_survives {path : Bytes} {session : Session} {time : ℤ}
    (h : Lifetimes path session time) {file : Bytes} (hfile : session.log = some file) (l : Lifetime)
    {instants : List (Instant l.boot)} (htimed : l.Timed path file instants)
    (hlater : time ≤ l.start.time) (hclock : WithinClock file l.start) (i : Instant boot)
    (hend : ∀ j ∈ l.start :: instants, j.time ≤ i.time) :
    let s := final EventLoop.step l.run (l.entered path file)
    let executed := (executions s.trace).map Prod.snd
    executed = (trace Call.execute (l.calls path file) (l.entered path file).session).map exchange ∧
      (∀ fd, (ledger fd s.trace).executed <:+ ((executions s.trace).filter (·.1 = fd)).map Prod.snd ∧
        (ledger fd s.trace).sent <+: (ledger fd s.trace).owed) ∧
      ∀ later, s.session.log = some later → Unreached later i →
        Restores path later i s.session.store := by
  intro s executed
  obtain ⟨hexecuted, hsession⟩ := run_calls l.run (l.entered path file)
  refine ⟨hexecuted, fun fd => ⟨ledger_executions fd s.trace, ?_⟩, fun later hlog hunreached => ?_⟩
  · exact (sound_final l.run fd l.listenFd _).only
  · have hlived := h.lived hfile l htimed hlater hclock (l.calls path file).length hend
    rw [List.take_length] at hlived
    have hall : s.session = final Call.execute (l.calls path file) (l.entered path file).session :=
      hsession
    rw [← hall] at hlived
    exact hlived.restores hlog le_rfl hunreached

def nanoseconds (n : ℕ) (h : n ≤ 1000) : Instant 0 where
  time := n
  nonneg := by omega
  unix_le := by unfold nanosPerSecond; omega
  booted := by omega
  steady_le := by unfold maxTimePoint maxInt64; omega

def setThenGetLifetime : Lifetime where
  boot := 0
  start := nanoseconds 0 (by decide)
  listenFd := 3
  run := setThenGet

def setRecord : LogRecord := .command (text "SET") [text "k", text "v"]

theorem wellFormed_setRecord : ∀ r ∈ [setRecord], WellFormed r := by
  intro r hr
  rw [List.mem_singleton.mp hr]
  exact ⟨rfl, by decide⟩

theorem not_inFile_nil (key : Bytes) (deadline : ℤ) : ¬ InFile [] (.expire key deadline) := by
  intro hin
  have hnone := (@inFile_iff [] (by simp) (.expire key deadline)).mp hin
  cases hnone

theorem not_inFile_setRecord (key : Bytes) (deadline : ℤ) :
    ¬ InFile setRecord.encode (.expire key deadline) := by
  intro hin
  have hfile : setRecord.encode = [setRecord].flatMap LogRecord.encode := rfl
  rw [hfile, inFile_iff wellFormed_setRecord] at hin
  simp [setRecord] at hin

theorem setThenGet_survives :
    let s := final EventLoop.step setThenGet (setThenGetLifetime.entered [] [])
    Restores [] setRecord.encode (nanoseconds 7 (by decide)) s.session.store := by
  have htimed : setThenGetLifetime.Timed [] []
      [nanoseconds 0 (by decide), nanoseconds 7 (by decide)] := ⟨rfl, by decide⟩
  obtain ⟨-, -, hrestores⟩ := acknowledged_survives (.none 0) rfl setThenGetLifetime htimed le_rfl
    (unreached_of_not_inFile not_inFile_nil _).clock (nanoseconds 7 (by decide)) (by decide)
  exact hrestores setRecord.encode rfl (unreached_of_not_inFile not_inFile_setRecord _)

end RedisLite.Restart
