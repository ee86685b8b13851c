import RedisLite.ByteStrings

/-!
# Writing the append-only log

A log that is not there (`nullptr`, while replaying) takes no records; every write succeeds and
lands at the end of the file.
-/

namespace RedisLite.AppendLog
open ByteStrings

/-- The contents of the log file, if there is a log. -/
abbrev Log := Option Bytes

def appendNumber (record : Bytes) (number : ℤ) : Bytes := record ++ intDecimal number

def appendField (record field : Bytes) : Bytes :=
  appendNumber record field.length ++ text " " ++ field

/-- The same field written with stream insertions. -/
def writeField (log field : Bytes) : Bytes :=
  log ++ natDecimal field.length ++ text " " ++ field

def logCommand (log : Log) (verb : Bytes) (arguments : List Bytes) : Log :=
  match log with
  | none => none
  | some contents =>
    let record := arguments.foldl (fun record a => appendField (record ++ text " ") a) verb
    some (contents ++ (record ++ text "\n"))

def logExpire (log : Log) (unixNow : ℤ) (key : Bytes) (secondsFromNow : ℤ) : Log :=
  match log with
  | none => none
  | some contents =>
    some (writeField (contents ++ text "EXPIRE ") key ++ text " " ++
      intDecimal (unixNow + secondsFromNow) ++ text "\n")

inductive LogRecord where
  | command (verb : Bytes) (arguments : List Bytes)
  | expire (key : Bytes) (deadline : ℤ)
  deriving DecidableEq, Repr

def field (s : Bytes) : Bytes := natDecimal s.length ++ text " " ++ s

def LogRecord.encode : LogRecord → Bytes
  | .command verb arguments =>
    verb ++ arguments.flatMap (fun a => text " " ++ field a) ++ text "\n"
  | .expire key deadline =>
    text "EXPIRE " ++ field key ++ text " " ++ intDecimal deadline ++ text "\n"

def LogRecord.key : LogRecord → Option Bytes
  | .command _ arguments => arguments.head?
  | .expire key _ => some key

/-- The log after the records, if there is a log. -/
def appendRecords (log : Log) (records : List LogRecord) : Log :=
  log.map (· ++ records.flatMap LogRecord.encode)

@[simp] theorem appendRecords_nil (log : Log) : appendRecords log [] = log := by
  cases log <;> simp [appendRecords]

theorem appendRecords_append (log : Log) (records more : List LogRecord) :
    appendRecords (appendRecords log records) more = appendRecords log (records ++ more) := by
  cases log <;> simp [appendRecords]

private theorem foldl_appendField (arguments : List Bytes) (record : Bytes) :
    arguments.foldl (fun record a => appendField (record ++ text " ") a) record =
      record ++ arguments.flatMap (fun a => text " " ++ field a) := by
  induction arguments generalizing record with
  | nil => simp
  | cons a arguments ih =>
    rw [List.foldl_cons, ih]
    simp [appendField, appendNumber, field, intDecimal_natCast]

theorem logCommand_eq (log : Log) (verb : Bytes) (arguments : List Bytes) :
    logCommand log verb arguments = appendRecords log [.command verb arguments] := by
  cases log with
  | none => rfl
  | some contents => simp [logCommand, foldl_appendField, appendRecords, LogRecord.encode]

theorem logExpire_eq (log : Log) (unixNow : ℤ) (key : Bytes) (seconds : ℤ) :
    logExpire log unixNow key seconds =
      appendRecords log [.expire key (unixNow + seconds)] := by
  cases log with
  | none => rfl
  | some contents => simp [logExpire, writeField, appendRecords, LogRecord.encode, field]

end RedisLite.AppendLog
