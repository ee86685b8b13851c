import RedisLite.AppendLog
import RedisLite.RecordFiles
import RedisLite.StreamExtraction

/-!
# Reading the append-only log

A record is a verb, its length-prefixed fields and a newline; an `EXPIRE` record ends in a deadline
in Unix seconds. Every written record is read back as it was written, whatever bytes its fields hold.
-/

namespace RedisLite.LogReader
open ByteStrings AppendLog RecordFiles StreamExtraction

structure RecordShape where
  verb : Bytes
  arguments : ℕ

def kRecordShapes : List RecordShape :=
  [⟨text "SET", 2⟩, ⟨text "DEL", 1⟩, ⟨text "LPUSH", 2⟩, ⟨text "RPUSH", 2⟩, ⟨text "LPOP", 1⟩,
    ⟨text "RPOP", 1⟩, ⟨text "HSET", 3⟩, ⟨text "HDEL", 2⟩, ⟨text "SADD", 2⟩, ⟨text "SREM", 2⟩]

def argumentsFor (verb : Bytes) : Option ℕ :=
  (kRecordShapes.find? (fun shape => shape.verb = verb)).map RecordShape.arguments

/-- `limit - in.tellg()` is what is left of the file. -/
def readField (input : Bytes) : Option (Bytes × Bytes) :=
  match readNumber input with
  | none => none
  | some (length, input) =>
    if length < 0 then none
    else
      match expect (byte ' ') input with
      | none => none
      | some input =>
        if (input.length : ℤ) < length then none else readExactly length.toNat input

def recordError (recordNumber : ℕ) (detail : Bytes) : Bytes :=
  text "malformed persistence record #" ++ natDecimal recordNumber ++ text ": " ++ detail

/-- The loop over the arguments after the key; `i` counts from one. -/
def readArguments : ℕ → ℕ → Bytes → Except Bytes (List Bytes × Bytes)
  | 0, _, input => .ok ([], input)
  | count + 1, i, input =>
    match expect (byte ' ') input with
    | none => .error (text "expected a space before argument " ++ natDecimal (i + 1))
    | some input =>
      match readField input with
      | none => .error (text "bad argument " ++ natDecimal (i + 1))
      | some (argument, input) =>
        match readArguments count (i + 1) input with
        | .error detail => .error detail
        | .ok (arguments, input) => .ok (argument :: arguments, input)

/-- The rest of an `EXPIRE` record after its key. -/
def readDeadline (input : Bytes) : Except Bytes (ℤ × Bytes) :=
  match expect (byte ' ') input with
  | none => .error (text "expected a space before the deadline")
  | some input =>
    match readNumber input with
    | none => .error (text "bad deadline")
    | some (deadline, input) =>
      match expect lf input with
      | none => .error (text "record does not end with a newline")
      | some input => .ok (deadline, input)

/-- The rest of any other record after its key. -/
def readCommand (verb key input : Bytes) : Except Bytes (List Bytes × Bytes) :=
  match argumentsFor verb with
  | none => .error (text "unknown record type '" ++ verb ++ text "'")
  | some expected =>
    match readArguments (expected - 1) 1 input with
    | .error detail => .error detail
    | .ok (arguments, input) =>
      match expect lf input with
      | none => .error (text "record does not end with a newline")
      | some input => .ok (key :: arguments, input)

/-- One round of the loop up to the point where the record is executed; `read` records came
before. -/
def readRecord (read : ℕ) (input : Bytes) : Next UInt8 LogRecord Bytes :=
  match readWord input with
  | none => .done
  | some (verb, input) =>
    match expect (byte ' ') input with
    | none => .bad (recordError (read + 1) (text "expected a space after " ++ verb))
    | some input =>
      match readField input with
      | none => .bad (recordError (read + 1) (text "bad key field"))
      | some (key, input) =>
        if verb = text "EXPIRE" then
          match readDeadline input with
          | .error detail => .bad (recordError (read + 1) detail)
          | .ok (deadline, input) => .record (.expire key deadline) input
        else
          match readCommand verb key input with
          | .error detail => .bad (recordError (read + 1) detail)
          | .ok (arguments, input) => .record (.command verb arguments) input

/-- The records that `log_command` and `log_expire` write. -/
def WellFormed : LogRecord → Prop
  | .command verb arguments =>
    argumentsFor verb = some arguments.length ∧ ∀ a ∈ arguments, FitsMemory a
  | .expire key deadline => FitsMemory key ∧ InInt64 deadline

theorem readField_field {s : Bytes} (hs : FitsMemory s) (rest : Bytes) :
    readField (field s ++ rest) = some (s, rest) := by
  have hin : InInt64 (s.length : ℤ) := ⟨by unfold minInt64; omega, hs⟩
  have hblank : ∀ b ∈ (byte ' ' :: (s ++ rest)).head?, isDigit b = false := by
    intro b hb
    cases hb
    rfl
  have hnum := readNumber_intDecimal hin hblank
  have hfield : field s ++ rest = intDecimal (s.length : ℤ) ++ byte ' ' :: (s ++ rest) := by
    simp [field, intDecimal_natCast, text]
  have hle : ¬ ((s ++ rest).length : ℤ) < s.length := by
    rw [List.length_append]
    push_cast
    omega
  have hneg : ¬ (s.length : ℤ) < 0 := by omega
  simp only [readField, hfield, hnum, hneg, if_false, expect_cons, hle, Int.toNat_natCast,
    readExactly_append]

theorem readArguments_fields {arguments : List Bytes} (ha : ∀ a ∈ arguments, FitsMemory a) (i : ℕ)
    (rest : Bytes) :
    readArguments arguments.length i (arguments.flatMap (fun a => text " " ++ field a) ++ rest) =
      .ok (arguments, rest) := by
  induction arguments generalizing i with
  | nil => rfl
  | cons a arguments ih =>
    have hspace (x : Bytes) : text " " ++ x = byte ' ' :: x := rfl
    rw [List.flatMap_cons, List.append_assoc, List.append_assoc, hspace, List.length_cons]
    simp only [readArguments, expect_cons, readField_field (ha a List.mem_cons_self),
      ih (fun b hb => ha b (List.mem_cons_of_mem _ hb))]

/-- What has to be known of a verb: it is a word, it is not `EXPIRE` and it takes a key. -/
theorem argumentsFor_spec {verb : Bytes} {count : ℕ} (h : argumentsFor verb = some count) :
    isWord verb = true ∧ verb ≠ text "EXPIRE" ∧ 0 < count := by
  obtain ⟨shape, hfind, rfl⟩ := Option.map_eq_some_iff.mp h
  have hverb : shape.verb = verb := by simpa using List.find?_some hfind
  have hall : kRecordShapes.all (fun shape =>
      isWord shape.verb && shape.verb != text "EXPIRE" && shape.arguments != 0) = true := by decide
  have hshape := List.all_eq_true.mp hall shape (List.mem_of_find?_eq_some hfind)
  simp only [Bool.and_eq_true, bne_iff_ne, hverb] at hshape
  exact ⟨hshape.1.1, hshape.1.2, Nat.pos_of_ne_zero hshape.2⟩

private theorem readRecord_verb {verb : Bytes} (hword : isWord verb = true) {key : Bytes}
    (hkey : FitsMemory key) (read : ℕ) (rest : Bytes) :
    readRecord read (verb ++ byte ' ' :: (field key ++ rest)) =
      if verb = text "EXPIRE" then
        match readDeadline rest with
        | .error detail => .bad (recordError (read + 1) detail)
        | .ok (deadline, input) => .record (.expire key deadline) input
      else
        match readCommand verb key rest with
        | .error detail => .bad (recordError (read + 1) detail)
        | .ok (arguments, input) => .record (.command verb arguments) input := by
  simp only [readRecord, readWord_append hword (show isSpace (byte ' ') = true from rfl),
    expect_cons, readField_field hkey]

theorem readRecord_encode {r : LogRecord} (hr : WellFormed r) (read : ℕ) (rest : Bytes) :
    readRecord read (r.encode ++ rest) = .record r rest := by
  cases r with
  | command verb arguments =>
    obtain ⟨hshape, ha⟩ := hr
    obtain ⟨hword, hexpire, hpos⟩ := argumentsFor_spec hshape
    cases arguments with
    | nil => exact absurd hpos (lt_irrefl 0)
    | cons key arguments =>
      have hkey := ha key List.mem_cons_self
      have hargs : ∀ a ∈ arguments, FitsMemory a := fun a h => ha a (List.mem_cons_of_mem _ h)
      have henc : (LogRecord.command verb (key :: arguments)).encode ++ rest =
          verb ++ byte ' ' :: (field key ++
            (arguments.flatMap (fun a => text " " ++ field a) ++ lf :: rest)) := by
        simp [LogRecord.encode, text, lf, byte]
      rw [henc, readRecord_verb hword hkey, if_neg hexpire]
      simp only [readCommand, hshape, List.length_cons, Nat.add_sub_cancel,
        readArguments_fields hargs, expect_cons]
  | expire key deadline =>
    obtain ⟨hkey, hdeadline⟩ := hr
    have henc : (LogRecord.expire key deadline).encode ++ rest =
        text "EXPIRE" ++ byte ' ' :: (field key ++
          (byte ' ' :: (intDecimal deadline ++ lf :: rest))) := by
      simp [LogRecord.encode, text, lf, byte]
    rw [henc, readRecord_verb (by decide) hkey, if_pos rfl]
    have hnewline : ∀ b ∈ (lf :: rest).head?, isDigit b = false := by
      intro b hb
      cases hb
      rfl
    have hnum := readNumber_intDecimal hdeadline hnewline
    simp only [readDeadline, expect_cons, hnum]

theorem readField_length {input out rest : Bytes} (h : readField input = some (out, rest)) :
    rest.length ≤ input.length := by
  simp only [readField] at h
  split at h
  · cases h
  rename_i hnum
  split at h
  · cases h
  split at h
  · cases h
  rename_i hspace
  split at h
  · cases h
  have := readNumber_length hnum
  have := expect_length hspace
  have := readExactly_length h
  omega

theorem readArguments_spec {count i : ℕ} {input rest : Bytes} {arguments : List Bytes}
    (h : readArguments count i input = .ok (arguments, rest)) :
    arguments.length = count ∧ rest.length ≤ input.length := by
  induction count generalizing i input arguments with
  | zero =>
    cases h
    exact ⟨rfl, le_refl _⟩
  | succ count ih =>
    simp only [readArguments] at h
    split at h
    · cases h
    rename_i hspace
    split at h
    · cases h
    rename_i hfield
    split at h
    · cases h
    rename_i hrest
    cases h
    obtain ⟨hcount, hlength⟩ := ih hrest
    have := expect_length hspace
    have := readField_length hfield
    exact ⟨by rw [List.length_cons, hcount], by omega⟩

theorem readDeadline_length {input rest : Bytes} {deadline : ℤ}
    (h : readDeadline input = .ok (deadline, rest)) : rest.length < input.length := by
  simp only [readDeadline] at h
  split at h
  · cases h
  rename_i hspace
  split at h
  · cases h
  rename_i hnum
  split at h
  · cases h
  rename_i hnewline
  cases h
  have := expect_length hspace
  have := readNumber_length hnum
  have := expect_length hnewline
  omega

theorem readCommand_spec {verb key input rest : Bytes} {arguments : List Bytes}
    (h : readCommand verb key input = .ok (arguments, rest)) :
    argumentsFor verb = some arguments.length ∧ rest.length < input.length := by
  simp only [readCommand] at h
  split at h
  · cases h
  rename_i hshape
  split at h
  · cases h
  rename_i hargs
  split at h
  · cases h
  rename_i hnewline
  cases h
  obtain ⟨-, -, hpos⟩ := argumentsFor_spec hshape
  obtain ⟨hcount, hlength⟩ := readArguments_spec hargs
  have := expect_length hnewline
  refine ⟨?_, by omega⟩
  rw [hshape, List.length_cons, hcount, Nat.sub_add_cancel hpos]

/-- The records that the reader lets through: a command has the arguments of its verb. -/
def Shaped : LogRecord → Prop
  | .command verb arguments => argumentsFor verb = some arguments.length
  | .expire _ _ => True

theorem readRecord_spec {read : ℕ} {input rest : Bytes} {r : LogRecord}
    (h : readRecord read input = .record r rest) : Shaped r ∧ rest.length < input.length := by
  simp only [readRecord] at h
  split at h
  · cases h
  rename_i hword
  split at h
  · cases h
  rename_i hspace
  split at h
  · cases h
  rename_i hfield
  have := readWord_length hword
  have := expect_length hspace
  have := readField_length hfield
  split at h
  · split at h
    · cases h
    rename_i hdeadline
    cases h
    have := readDeadline_length hdeadline
    exact ⟨trivial, by omega⟩
  · split at h
    · cases h
    rename_i hcommand
    cases h
    obtain ⟨hshape, _⟩ := readCommand_spec hcommand
    exact ⟨hshape, by omega⟩

theorem readRecord_consuming : Consuming readRecord :=
  fun _ _ _ _ h => (readRecord_spec h).2

/-- The log is a file of records that the reader undoes. -/
theorem readRecord_framing : Framing readRecord LogRecord.encode WellFormed where
  consuming := readRecord_consuming
  done _ := rfl
  record read _ hr rest := readRecord_encode hr read rest

end RedisLite.LogReader
