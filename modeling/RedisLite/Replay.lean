import RedisLite.CommandRefinement
import RedisLite.LogReader

/-!
# Replaying the log

Records are executed one by one, without a log, on a store that starts empty; the caller's store is
replaced when the whole file has been read.
-/

namespace RedisLite.Replay
open ByteStrings Resp Keyspace AppendLog Commands Operations RecordFiles LogReader

/-- What opening the log file finds: no file, a file whose size cannot be determined, or bytes. -/
inductive LogFile where
  | absent
  | unsizable
  | contents (bytes : Bytes)

def asRequest (words : List Bytes) : RespValue := makeArray (words.map makeBulkString)

/-- Execute one record. `now` is what the clocks show meanwhile. -/
def executeRecord (now : Readings) (r : LogRecord) (loaded : Store) : Store :=
  match r with
  | .command verb arguments =>
    (executeCommand now (asRequest (verb :: arguments)) ⟨loaded, none⟩).2.store
  | .expire key deadline =>
    let remaining := wrapInt64 (deadline - now.unix)
    if remaining ≤ 0 then
      (executeCommand now (asRequest [text "DEL", key]) ⟨loaded, none⟩).2.store
    else
      (executeCommand now (asRequest [text "EXPIRE", key, intDecimal remaining])
        ⟨loaded, none⟩).2.store

/-- The error text, if the file is refused, and the caller's store afterwards. `clock n` is what the
clocks show while the record after the first `n` is executed. -/
def replayLog (path : Bytes) (file : LogFile) (clock : ℕ → Readings) (store : Store) :
    Option Bytes × Store :=
  match file with
  | .absent => (none, store)
  | .unsizable => (some (text "cannot determine the size of " ++ path), store)
  | .contents bytes =>
    match load readRecord (fun n r => executeRecord (clock n) r) 0 bytes {} with
    | .error error => (some error, store)
    | .ok loaded => (none, loaded)

def loaded (clock : ℕ → Readings) (records : List LogRecord) : Store :=
  applyAll (fun n r => executeRecord (clock n) r) 0 records {}

/-- A file of written records is accepted, and each of them is executed in order. -/
theorem replayLog_records (path : Bytes) (clock : ℕ → Readings) (store : Store)
    {records : List LogRecord} (h : ∀ r ∈ records, WellFormed r) :
    replayLog path (.contents (records.flatMap LogRecord.encode)) clock store =
      (none, loaded clock records) := by
  simp only [replayLog, load_encoded readRecord_framing 0 h]
  rfl

theorem requestWords_asRequest {words : List Bytes} (h : words ≠ []) :
    requestWords (asRequest words) = some words := by
  have hne : words.map makeBulkString ≠ [] := by simpa using h
  have hstrings : (words.map makeBulkString).map RespValue.string = words := by
    simp [makeBulkString, Function.comp_def]
  have hbulk : ∀ x ∈ words, (makeBulkString x).type = .bulkString ∧
      (makeBulkString x).isNull = false := fun _ _ => ⟨rfl, rfl⟩
  simpa [requestWords, asRequest, makeArray, hne, hstrings] using hbulk

end RedisLite.Replay
