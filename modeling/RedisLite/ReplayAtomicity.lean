import RedisLite.RecordEffects

/-!
# Replay as a whole

A file that is refused leaves the store of the caller alone, and a file that is accepted becomes the
store that its records build from the empty one. Replay does not look at the replies of the commands
it executes, so a record that its command refuses is skipped: it takes effect exactly if the value of
its key has the right type by then, or its deadline is one that `EXPIRE` still takes.
-/

namespace RedisLite.Replay
open ByteStrings Resp Keyspace AppendLog Commands Operations RecordFiles LogReader

/-- The request that is executed for a record. -/
def recordRequest (now : Readings) : LogRecord → RespValue
  | .command verb arguments => asRequest (verb :: arguments)
  | .expire key deadline =>
    let remaining := wrapInt64 (deadline - now.unix)
    if remaining ≤ 0 then asRequest [text "DEL", key]
    else asRequest [text "EXPIRE", key, intDecimal remaining]

def fileRecords (bytes : Bytes) : Except Bytes (List LogRecord) := records readRecord 0 bytes

/-- The reply to the record after the first `k`, which replay discards. -/
def recordReply (clock : ℕ → Readings) (records : List LogRecord) (k : ℕ) (r : LogRecord) :
    RespValue :=
  (executeCommand (clock k) (recordRequest (clock k) r) ⟨loaded clock (records.take k), none⟩).1

/-- A file is loaded as a whole, with every record taking effect, or leaves the store alone. -/
structure AllOrNothing (path bytes : Bytes) (clock : ℕ → Readings) (store : Store) : Prop where
  refused : ∀ error, (replayLog path (.contents bytes) clock store).1 = some error →
    (replayLog path (.contents bytes) clock store).2 = store
  accepted : (replayLog path (.contents bytes) clock store).1 = none →
    ∃ records, fileRecords bytes = .ok records ∧
      (replayLog path (.contents bytes) clock store).2 = loaded clock records ∧
      ∀ k r, records[k]? = some r → (recordReply clock records k r).type ≠ .error

/-- A record that can be applied: its key does not hold a live value of another type than the verb
works on, or the seconds that the subtraction leaves, if there are any, are no more than `EXPIRE`
takes. -/
def Applies (now : Readings) (s : Store) : LogRecord → Prop
  | .command verb arguments => ∀ command key, verb = command.upper →
    arguments.head? = some key → ¬ HoldsOther now (commandKind command) key s
  | .expire _ deadline =>
    let remaining := wrapInt64 (deadline - now.unix)
    0 < remaining → remaining ≤ maxSeconds now.first

def loggedNames : List CommandName :=
  [.set, .del, .lpush, .rpush, .lpop, .rpop, .hset, .hdel, .sadd, .srem]

/-- The verbs of the log are names of commands that take a key and any strings. -/
theorem argumentsFor_command {verb : Bytes} {count : ℕ} (h : argumentsFor verb = some count) :
    ∃ command ∈ loggedNames, verb = command.upper ∧ count = arity command := by
  obtain ⟨shape, hfind, rfl⟩ := Option.map_eq_some_iff.mp h
  have hverb : shape.verb = verb := by simpa using List.find?_some hfind
  have hall : ∀ shape ∈ kRecordShapes, ∃ command ∈ loggedNames,
      shape.verb = command.upper ∧ shape.arguments = arity command := by decide
  obtain ⟨command, hmem, hupper, harity⟩ := hall shape (List.mem_of_find?_eq_some hfind)
  exact ⟨command, hmem, hverb.symm.trans hupper, harity⟩

theorem interpretArgs_logged (now : Readings) {command : CommandName} {args : List Bytes}
    (hcommand : command ∈ loggedNames) (hlen : args.length = arity command) :
    ∃ key op, args.head? = some key ∧ interpretArgs now command args = .ok (.on key op) ∧
      opKind op = commandKind command := by
  cases command
  case ping | expire | ttl | get | llen | lrange | hget | hexists | hlen | sismember | scard
      | smembers => exact absurd hcommand (by decide)
  all_goals
    rcases args with _ | ⟨a, _ | ⟨b, _ | ⟨c, _ | ⟨d, rest⟩⟩⟩⟩
    all_goals first
      | exact ⟨_, _, rfl, rfl, rfl⟩
      | simp [arity] at hlen

theorem command_applies {now : Readings} {verb : Bytes} {arguments : List Bytes}
    (hshape : argumentsFor verb = some arguments.length) (s : Store) :
    (executeCommand now (recordRequest now (.command verb arguments)) ⟨s, none⟩).1.type ≠ .error ↔
      Applies now s (.command verb arguments) := by
  obtain ⟨command, hlogged, rfl, hlen⟩ := argumentsFor_command hshape
  obtain ⟨key, op, hkey, hargs, hkind⟩ := interpretArgs_logged now hlogged hlen
  have hreply := (perform_error now key op ⟨s, none⟩).1
  simp only [recordRequest, executeCommand_words, hargs, answer, Applies, hkey]
  rw [ne_eq, hreply, hkind]
  constructor
  · intro h command' key' hupper hkey'
    have hname := congrArg commandNamed hupper
    rw [commandNamed_upper, commandNamed_upper] at hname
    obtain rfl := Option.some.inj hname
    obtain rfl := Option.some.inj hkey'
    exact h
  · exact fun h => h command key rfl rfl

theorem expire_applies (now : Readings) (key : Bytes) (deadline : ℤ) (s : Store) :
    (executeCommand now (recordRequest now (.expire key deadline)) ⟨s, none⟩).1.type ≠ .error ↔
      Applies now s (.expire key deadline) := by
  have hdel : text "DEL" = CommandName.del.upper := rfl
  have hexpire : text "EXPIRE" = CommandName.expire.upper := rfl
  have hnever {op : Op} (hop : opKind op = none) :
      (perform now (.on key op) ⟨s, none⟩).1.type ≠ .error := decide_untyped now key hop _
  have hin := inInt64_wrapInt64 (deadline - now.unix)
  simp only [Applies, recordRequest]
  generalize wrapInt64 (deadline - now.unix) = remaining at hin
  by_cases hpast : remaining ≤ 0
  · have hargs : interpretArgs now .del [key] = .ok (.on key .del) := rfl
    simp only [hpast, if_true, hdel, executeCommand_words, hargs, answer]
    exact ⟨fun _ hahead => absurd hahead (not_lt.mpr hpast), fun _ => hnever rfl⟩
  · simp only [hpast, if_false, hexpire, executeCommand_words, not_le.mp hpast, true_implies]
    by_cases hmax : maxSeconds now.first < remaining
    · simp only [interpretArgs, toInteger_intDecimal hin, hmax, if_true, answer]
      exact ⟨fun h => absurd rfl h, fun h => absurd hmax (not_lt.mpr h)⟩
    · simp only [interpretArgs, toInteger_intDecimal hin, hmax, if_false, answer]
      exact ⟨fun _ => not_lt.mp hmax, fun _ => hnever rfl⟩

/-- On clocks of the machine's range, the deadlines that apply are those whose subtraction stays in 64
bits and leaves no more than `EXPIRE` takes. -/
theorem applies_expire_iff {now : Readings} (hsteady : 0 ≤ now.first ∧ now.first ≤ maxTimePoint)
    (hunix : 0 ≤ now.unix ∧ now.unix ≤ 2 ^ 62) (key : Bytes) {deadline : ℤ}
    (hdeadline : InInt64 deadline) (s : Store) : Applies now s (.expire key deadline) ↔
      InInt64 (deadline - now.unix) ∧ deadline - now.unix ≤ maxSeconds now.first := by
  have hnonneg : 0 ≤ maxSeconds now.first := Int.tdiv_nonneg (by omega) (by decide)
  have hlimit : maxSeconds now.first ≤ 9223372036 :=
    (Int.tdiv_le_tdiv (by decide) (by omega : maxTimePoint - now.first ≤ maxTimePoint)).trans
      (by decide)
  simp only [Applies]
  by_cases hin : InInt64 (deadline - now.unix)
  · rw [wrapInt64_of_inInt64 hin]
    constructor
    · intro h
      refine ⟨hin, ?_⟩
      by_cases hahead : 0 < deadline - now.unix
      · exact h hahead
      · omega
    · exact fun h _ => h.2
  · -- the difference is below the range, and comes out far above what is allowed
    have hwrap : wrapInt64 (deadline - now.unix) = deadline - now.unix + 2 ^ 64 := by
      unfold InInt64 minInt64 maxInt64 at *
      unfold wrapInt64
      rw [← Int.add_bmod_right]
      apply Int.bmod_eq_of_le
      · omega
      · omega
    unfold InInt64 minInt64 maxInt64 at *
    constructor
    · intro h
      rw [hwrap] at h
      omega
    · exact fun h => absurd h.1 hin

theorem record_applies {now : Readings} {r : LogRecord} (hr : Shaped r) (s : Store) :
    (executeCommand now (recordRequest now r) ⟨s, none⟩).1.type ≠ .error ↔ Applies now s r := by
  cases r with
  | command verb arguments => exact command_applies hr s
  | expire key deadline => exact expire_applies now key deadline s

theorem replayLog_refused {path bytes error : Bytes} {clock : ℕ → Readings}
    (h : fileRecords bytes = .error error) (store : Store) :
    replayLog path (.contents bytes) clock store = (some error, store) := by
  simp only [fileRecords] at h
  simp only [replayLog, load_eq_applyAll, h, Except.map]

theorem replayLog_accepted {path bytes : Bytes} {clock : ℕ → Readings} {records : List LogRecord}
    (h : fileRecords bytes = .ok records) (store : Store) :
    replayLog path (.contents bytes) clock store = (none, loaded clock records) := by
  simp only [fileRecords] at h
  simp only [replayLog, load_eq_applyAll, h, Except.map, loaded]

/-- Replay is all or nothing exactly when every record of a file that it accepts can be applied to the
store that the records before it build. -/
theorem replay_all_or_nothing_iff (path bytes : Bytes) (clock : ℕ → Readings) (store : Store) :
    AllOrNothing path bytes clock store ↔
      ∀ records, fileRecords bytes = .ok records → ∀ k r, records[k]? = some r →
        Applies (clock k) (loaded clock (records.take k)) r := by
  have hreply {records : List LogRecord} (hrecords : fileRecords bytes = .ok records) {k : ℕ}
      {r : LogRecord} (hr : records[k]? = some r) :
      (recordReply clock records k r).type ≠ .error ↔
        Applies (clock k) (loaded clock (records.take k)) r := by
    have hshaped := forall_mem_records (fun _ _ _ _ hread => (readRecord_spec hread).1) hrecords
    exact record_applies (hshaped r (List.mem_of_getElem? hr)) _
  constructor
  · intro h records hrecords k r hr
    have haccepted := @replayLog_accepted path _ clock _ hrecords store
    obtain ⟨records', hrecords', -, hreplies⟩ := h.accepted (by rw [haccepted])
    rw [hrecords] at hrecords'
    obtain rfl := Except.ok.inj hrecords'
    exact (hreply hrecords hr).mp (hreplies k r hr)
  · intro h
    cases hfile : fileRecords bytes with
    | error error =>
      have hrefused := @replayLog_refused path _ _ clock hfile store
      refine ⟨fun _ _ => by rw [hrefused], fun haccepted => ?_⟩
      rw [hrefused] at haccepted
      cases haccepted
    | ok records =>
      have haccepted := @replayLog_accepted path _ clock _ hfile store
      refine ⟨fun error hrefused => ?_, fun _ => ?_⟩
      · rw [haccepted] at hrefused
        cases hrefused
      · exact ⟨records, hfile, by rw [haccepted],
          fun k r hr => (hreply hfile hr).mpr (h records hfile k r hr)⟩

/-- A push onto a string is skipped: the replay reports success and keeps the string. So is a deadline
from which the Unix time cannot be subtracted. -/
theorem skipped_push_accepted :
    ¬ AllOrNothing (text "redis.log") (text "SET 1 k 1 v\nLPUSH 1 k 1 a\n") (fun _ => .once 0 0) {} ∧
      ¬ AllOrNothing (text "redis.log") (text "SET 1 k 1 v\nEXPIRE 1 k -9223372036854775808\n")
        (fun _ => .once 0 1) {} := by
  let set : LogRecord := .command (text "SET") [text "k", text "v"]
  constructor
  · intro h
    have hfile : fileRecords (text "SET 1 k 1 v\nLPUSH 1 k 1 a\n") =
        .ok [set, .command (text "LPUSH") [text "k", text "a"]] := rfl
    obtain ⟨records, hrecords, -, hreplies⟩ := h.accepted (by rw [replayLog_accepted hfile])
    rw [hfile] at hrecords
    obtain rfl := Except.ok.inj hrecords
    exact hreplies 1 _ rfl (by decide +kernel)
  · intro h
    have hfile : fileRecords (text "SET 1 k 1 v\nEXPIRE 1 k -9223372036854775808\n") =
        .ok [set, .expire (text "k") (-9223372036854775808)] := rfl
    obtain ⟨records, hrecords, -, hreplies⟩ := h.accepted (by rw [replayLog_accepted hfile])
    rw [hfile] at hrecords
    obtain rfl := Except.ok.inj hrecords
    have happlies := (expire_applies (.once 0 1) (text "k") (-9223372036854775808) _).mp
      (hreplies 1 _ rfl)
    have hin := ((applies_expire_iff (by decide) (by decide) _ (by decide) _).mp happlies).1
    exact absurd hin (by decide)

end RedisLite.Replay
