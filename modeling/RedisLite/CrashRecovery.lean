import RedisLite.ServerLifetimes
import RedisLite.TornLogs

/-!
# Crashes

A crash leaves a beginning of what the server has appended to its file. The next start refuses what is
left if the crash has cut a record; otherwise it gives back the store that some first requests of the
lifetime have made. No request is lost before one that is kept, and none is kept in part.
-/

namespace RedisLite.Restart
open ByteStrings Resp Keyspace AppendLog Commands Operations RecordFiles LogReader Replay
open EventLoop MachineRuns

variable {boot : ℤ}

def appendedBy : List (Arrival boot) → Session → List LogRecord
  | [], _ => []
  | a :: arrivals, s => a.records s ++ appendedBy arrivals (serve a s).2

theorem records_le_one (a : Arrival boot) (s : Session) :
    a.records s = [] ∨ ∃ r, a.records s = [r] := by
  unfold Arrival.records
  split
  · exact .inl rfl
  · rename_i key op _
    cases (a.decision key op s).record with
    | none => exact .inl rfl
    | some r => exact .inr ⟨r, rfl⟩

/-- Every number of records is reached after some request: each appends one at most. -/
theorem exists_take_appended (arrivals : List (Arrival boot)) (s : Session) (n : ℕ) :
    ∃ k, appendedBy (arrivals.take k) s = (appendedBy arrivals s).take n := by
  induction arrivals generalizing s n with
  | nil => exact ⟨0, by simp [appendedBy]⟩
  | cons a arrivals ih =>
    rcases records_le_one a s with hnone | ⟨r, hone⟩
    · obtain ⟨k, hk⟩ := ih (serve a s).2 n
      refine ⟨k + 1, ?_⟩
      rw [List.take_succ_cons, appendedBy, appendedBy, hnone, List.nil_append, List.nil_append, hk]
    · cases n with
      | zero => exact ⟨0, rfl⟩
      | succ n =>
        obtain ⟨k, hk⟩ := ih (serve a s).2 n
        refine ⟨k + 1, ?_⟩
        rw [List.take_succ_cons, appendedBy, appendedBy, hone, List.singleton_append,
          List.singleton_append, List.take_succ_cons, hk]

/-- The log of a lifetime holds the records of the file, and then those of its requests. -/
theorem Written.serveAll {s : Session} {records : List LogRecord} (h : Written s records)
    (arrivals : List (Arrival boot)) :
    Written (final Call.execute (arrivals.map Arrival.call) s) (records ++ appendedBy arrivals s) := by
  induction arrivals generalizing s records with
  | nil => simpa [appendedBy] using h
  | cons a arrivals ih =>
    have hrest := ih (h.serve a)
    rwa [List.append_assoc] at hrest

/-- A cut file is a list of first records, or it is refused. -/
theorem replay_cut {records : List LogRecord} (h : ∀ r ∈ records, WellFormed r) {cut : Bytes}
    (hcut : cut <+: records.flatMap LogRecord.encode) (path : Bytes) (clock : ℕ → Readings)
    (store : Store) : (∃ n, cut = (records.take n).flatMap LogRecord.encode) ∨
      (replayLog path (.contents cut) clock store).1 ≠ none := by
  rcases (load_cut readRecord_framing (fun n r hr _ _ => readRecord_torn n hr) 0 h hcut
      (s := ({} : Store)) : (∃ n, cut = (records.take n).flatMap LogRecord.encode) ∨
        ∃ error, load readRecord (fun n r => executeRecord (clock n) r) 0 cut {} = .error error) with
    hwhole | ⟨error, herror⟩
  · exact .inl hwhole
  · refine .inr ?_
    simp [replayLog, herror]

/-- The file that lifetimes have left behind is a list of records, and a lifetime on it begins with
what they give. -/
theorem Lifetimes.written {path : Bytes} {session : Session} {time : ℤ}
    (h : Lifetimes path session time) {file : Bytes} (hfile : session.log = some file) (l : Lifetime)
    (hlater : time ≤ l.start.time) (hclock : WithinClock file l.start) :
    ∃ records, Written (l.entered path file).session records := by
  obtain ⟨w, hw, rfl, htime⟩ := lifetimes_history h
  have hwfile : w.file = file := by rw [World.file, hfile, Option.getD_some]
  obtain ⟨records, hrestorable⟩ :=
    history_restorable (hw.restart l.start (htime.trans hlater) (by rwa [hwfile]))
  have hentered : (w.restart path l.start).session = (l.entered path file).session := by
    rw [World.restart, hwfile, hfile]
    rfl
  exact ⟨records, hentered ▸ hrestorable.written⟩

/-- Whatever the clients do and wherever the file is cut after what earlier lifetimes have left, the
next start either refuses the file or gives back the store of some first requests; and it accepts the
file exactly if it is what these requests have written. -/
theorem crash_consistent {path : Bytes} {session : Session} {time : ℤ}
    (h : Lifetimes path session time) {file : Bytes} (hfile : session.log = some file) (l : Lifetime)
    {instants : List (Instant l.boot)} (htimed : l.Timed path file instants)
    (hlater : time ≤ l.start.time) (hclock : WithinClock file l.start) (i : Instant boot)
    (hend : ∀ j ∈ l.start :: instants, j.time ≤ i.time) {later cut : Bytes}
    (hlog : (final EventLoop.step l.run (l.entered path file)).session.log = some later)
    (hkept : file <+: cut) (hcut : cut <+: later) :
    let after k := final Call.execute ((l.calls path file).take k) (l.entered path file).session
    ((replayLog path (.contents cut) (fun _ => i.readings) {}).1 = none ↔
        ∃ k, (after k).log = some cut) ∧
      ∀ k, (after k).log = some cut → Unreached cut i → Restores path cut i (after k).store := by
  intro after
  obtain ⟨records, hwritten⟩ := h.written hfile l hlater hclock
  obtain ⟨arrivals, hcalls, -⟩ := exists_arrivals htimed.readings
    (runCalls_short l.run (bounded_started l.listenFd _))
  have hentered : records.flatMap LogRecord.encode = file :=
    (Option.some.inj (hwritten.log : some file = _)).symm
  have hafter : ∀ k, Written (after k)
      (records ++ appendedBy (arrivals.take k) (l.entered path file).session) := by
    intro k
    have hserved := hwritten.serveAll (arrivals.take k)
    rw [List.map_take, hcalls] at hserved
    exact hserved
  have hwhole : Written (after arrivals.length)
      (records ++ appendedBy arrivals (l.entered path file).session) := by
    simpa only [List.take_length] using hafter arrivals.length
  have hlaterFile : later =
      (records ++ appendedBy arrivals (l.entered path file).session).flatMap LogRecord.encode := by
    have hall : after arrivals.length =
        (final EventLoop.step l.run (l.entered path file)).session := by
      have hlength : arrivals.length = (l.calls path file).length := by
        rw [← hcalls, List.length_map]
      rw [(run_calls l.run (l.entered path file)).2]
      simp only [after, hlength, List.take_length]
      rfl
    rw [← hall, hwhole.log] at hlog
    exact (Option.some.inj hlog).symm
  refine ⟨⟨fun haccepted => ?_, ?_⟩, fun k hk hunreached => ?_⟩
  · obtain ⟨n, hn⟩ := (replay_cut hwhole.wellFormed (hlaterFile ▸ hcut) path _ {}).resolve_right
      (not_not_intro haccepted)
    rw [← hentered, hn] at hkept
    obtain ⟨m, hm⟩ := readRecord_framing.take_of_prefix 0 hwritten.wellFormed hkept
    obtain ⟨k, hk⟩ := exists_take_appended arrivals (l.entered path file).session m
    refine ⟨k, ?_⟩
    rw [(hafter k).log, hk, ← hm, ← hn]
  · rintro ⟨k, hk⟩
    rw [(hafter k).log, Option.some.injEq] at hk
    rw [← hk, replayLog_records path _ {} (hafter k).wellFormed]
  · exact (h.lived hfile l htimed hlater hclock k hend).restores hk le_rfl hunreached

/-- Nothing of the only record of the lifetime has reached the disk. -/
theorem setThenGet_lost :
    (replayLog [] (.contents []) (fun _ => (nanoseconds 7 (by decide)).readings) {}).1 = none ∧
      Restores [] [] (nanoseconds 7 (by decide)) (setThenGetLifetime.entered [] []).session.store := by
  have htimed : setThenGetLifetime.Timed [] []
      [nanoseconds 0 (by decide), nanoseconds 7 (by decide)] := ⟨rfl, by decide⟩
  obtain ⟨haccepted, hrestores⟩ := crash_consistent (.none 0) rfl setThenGetLifetime htimed le_rfl
    (unreached_of_not_inFile not_inFile_nil _).clock (nanoseconds 7 (by decide)) (by decide)
    (show _ = some setRecord.encode from rfl) (List.prefix_refl []) List.nil_prefix
  exact ⟨haccepted.mpr ⟨0, rfl⟩, hrestores 0 rfl (unreached_of_not_inFile not_inFile_nil _)⟩

end RedisLite.Restart
