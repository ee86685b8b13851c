import RedisLite.ReplayAtomicity

/-!
# Logs that were cut

The log is what the appends of the server leave in an empty file. The reader takes exactly these
records from it. A file that was cut between two records is a log of fewer records; a file that was
cut inside a record is refused, because more input changes nothing about a record that was read.
-/

namespace RedisLite.LogReader
open ByteStrings AppendLog RecordFiles StreamExtraction

section Extend
variable {input rest : Bytes} (more : Bytes)

theorem readField_extend {out : Bytes} (h : readField input = some (out, rest)) :
    readField (input ++ more) = some (out, rest ++ more) := by
  simp only [readField] at h ⊢
  split at h
  · cases h
  rename_i length afterLength hnum
  split at h
  · cases h
  rename_i hneg
  split at h
  · cases h
  rename_i afterSpace hspace
  split at h
  · cases h
  rename_i hfits
  have hfits' : ¬ ((afterSpace ++ more).length : ℤ) < length := by
    rw [List.length_append]
    push_cast
    omega
  simp only [readNumber_extend more hnum (ne_nil_of_expect hspace), hneg, if_false,
    expect_extend more hspace, hfits', readExactly_extend more h]

theorem readArguments_extend {count i : ℕ} {arguments : List Bytes}
    (h : readArguments count i input = .ok (arguments, rest)) :
    readArguments count i (input ++ more) = .ok (arguments, rest ++ more) := by
  induction count generalizing i input arguments with
  | zero =>
    cases h
    rfl
  | succ count ih =>
    simp only [readArguments] at h ⊢
    split at h
    · cases h
    rename_i hspace
    split at h
    · cases h
    rename_i hfield
    split at h
    · cases h
    rename_i hrest
    cases h
    simp only [expect_extend more hspace, readField_extend more hfield, ih hrest]

theorem readDeadline_extend {deadline : ℤ} (h : readDeadline input = .ok (deadline, rest)) :
    readDeadline (input ++ more) = .ok (deadline, rest ++ more) := by
  simp only [readDeadline] at h ⊢
  split at h
  · cases h
  rename_i hspace
  split at h
  · cases h
  rename_i hnum
  split at h
  · cases h
  rename_i hnewline
  cases h
  simp only [expect_extend more hspace, readNumber_extend more hnum (ne_nil_of_expect hnewline),
    expect_extend more hnewline]

theorem readCommand_extend {verb key : Bytes} {arguments : List Bytes}
    (h : readCommand verb key input = .ok (arguments, rest)) :
    readCommand verb key (input ++ more) = .ok (arguments, rest ++ more) := by
  simp only [readCommand] at h ⊢
  split at h
  · cases h
  split at h
  · cases h
  rename_i hargs
  split at h
  · cases h
  rename_i hnewline
  cases h
  simp only [readArguments_extend more hargs, expect_extend more hnewline]

/-- A record that was read is read from every longer file. -/
theorem readRecord_extend {read : ℕ} {r : LogRecord} (h : readRecord read input = .record r rest) :
    readRecord read (input ++ more) = .record r (rest ++ more) := by
  simp only [readRecord] at h ⊢
  split at h
  · cases h
  rename_i hword
  split at h
  · cases h
  rename_i hspace
  split at h
  · cases h
  rename_i hfield
  simp only [readWord_extend more hword (ne_nil_of_expect hspace), expect_extend more hspace,
    readField_extend more hfield]
  split at h
  · rename_i hverb
    split at h
    · cases h
    rename_i hdeadline
    cases h
    rw [if_pos hverb, readDeadline_extend more hdeadline]
  · rename_i hverb
    split at h
    · cases h
    rename_i hcommand
    cases h
    rw [if_neg hverb, readCommand_extend more hcommand]

end Extend

theorem encode_head {r : LogRecord} (hr : WellFormed r) :
    ∃ b bs, r.encode = b :: bs ∧ isSpace b = false := by
  cases r with
  | command verb arguments =>
    obtain ⟨hword, -, -⟩ := argumentsFor_spec hr.1
    cases verb with
    | nil => cases hword
    | cons b verb =>
      have hb : (!isSpace b) = true :=
        List.all_eq_true.mp (Bool.and_eq_true_iff.mp hword).2 b List.mem_cons_self
      exact ⟨b, _, rfl, by simpa using hb⟩
  | expire key deadline => exact ⟨byte 'E', _, rfl, rfl⟩

/-- The loop ends where nothing but white space is left. -/
theorem skipSpace_of_done {read : ℕ} {input : Bytes} (h : readRecord read input = .done) :
    skipSpace input = [] := by
  simp only [readRecord] at h
  split at h
  · rename_i hword
    by_contra hne
    simp [readWord, hne] at hword
  · split at h
    · cases h
    split at h
    · cases h
    split at h
    · split at h <;> cases h
    · split at h <;> cases h

/-- A part of a record is rejected, wherever it was cut. -/
theorem readRecord_torn (read : ℕ) {r : LogRecord} (hr : WellFormed r) {xs ys : Bytes} (hxs : xs ≠ [])
    (hys : ys ≠ []) (h : r.encode = xs ++ ys) : ∃ error, readRecord read xs = .bad error := by
  cases hread : readRecord read xs with
  | bad error => exact ⟨error, rfl⟩
  | done =>
    obtain ⟨b, bs, hhead, hspace⟩ := encode_head hr
    have hskip := skipSpace_of_done hread
    cases xs with
    | nil => exact absurd rfl hxs
    | cons x xs =>
      rw [hhead, List.cons_append] at h
      rw [← (List.cons.inj h).1] at hskip
      simp [skipSpace, hspace] at hskip
  | record r' rest =>
    -- the whole record would be read in the same way, but it is read up to its end
    have hextend := readRecord_extend ys hread
    have hwhole := readRecord_encode hr read []
    rw [List.append_nil, h, hextend] at hwhole
    injection hwhole with _ hrest
    exact absurd (List.append_eq_nil_iff.mp hrest).2 hys

end RedisLite.LogReader

namespace RedisLite.Replay
open ByteStrings Keyspace AppendLog Commands RecordFiles LogReader

inductive Append where
  | command (verb : Bytes) (arguments : List Bytes)
  | expire (unixNow : ℤ) (key : Bytes) (secondsFromNow : ℤ)

def Append.perform (log : Log) : Append → Log
  | .command verb arguments => logCommand log verb arguments
  | .expire unixNow key secondsFromNow => logExpire log unixNow key secondsFromNow

def Append.record : Append → LogRecord
  | .command verb arguments => .command verb arguments
  | .expire unixNow key secondsFromNow => .expire key (unixNow + secondsFromNow)

def writtenBy (appends : List Append) : Log := appends.foldl Append.perform (some [])

theorem foldl_perform (appends : List Append) (log : Log) :
    appends.foldl Append.perform log = appendRecords log (appends.map Append.record) := by
  induction appends generalizing log with
  | nil => exact (appendRecords_nil log).symm
  | cons a appends ih =>
    have hfirst : a.perform log = appendRecords log [a.record] := by
      cases a with
      | command verb arguments => exact logCommand_eq log verb arguments
      | expire unixNow key seconds => exact logExpire_eq log unixNow key seconds
    rw [List.foldl_cons, ih, hfirst, appendRecords_append, List.map_cons, List.singleton_append]

theorem writtenBy_eq (appends : List Append) :
    writtenBy appends = some ((appends.map Append.record).flatMap LogRecord.encode) := by
  rw [writtenBy, foldl_perform]
  rfl

/-- The reader takes the records of all appends from the log, in order, and nothing is left. -/
theorem written_records_read {appends : List Append} (h : ∀ a ∈ appends, WellFormed a.record) :
    ∃ file, writtenBy appends = some file ∧
      Reads readRecord 0 file (appends.map Append.record) [] ∧
      fileRecords file = .ok (appends.map Append.record) := by
  have hvalid : ∀ r ∈ appends.map Append.record, WellFormed r := List.forall_mem_map.mpr h
  have hreads := readRecord_framing.reads 0 hvalid []
  rw [List.append_nil] at hreads
  exact ⟨_, writtenBy_eq appends, hreads,
    hreads.records readRecord_consuming (readRecord_framing.done _)⟩

/-- A cut log is accepted exactly if the cut is between two records, as the log of the appends before
it; otherwise it is refused and the store of the caller is left alone. -/
structure CutDetected (path : Bytes) (appends : List Append) (cut : Bytes) (clock : ℕ → Readings)
    (store : Store) : Prop where
  accepted_iff : (replayLog path (.contents cut) clock store).1 = none ↔
    ∃ k, writtenBy (appends.take k) = some cut
  accepted : ∀ k, writtenBy (appends.take k) = some cut →
    (replayLog path (.contents cut) clock store).2 =
      loaded clock ((appends.take k).map Append.record)
  refused : (replayLog path (.contents cut) clock store).1 ≠ none →
    (replayLog path (.contents cut) clock store).2 = store

/-- Wherever the log is cut, a replay of what is left loads the records before the cut or refuses the
file. -/
theorem torn_writes_detected {appends : List Append} (h : ∀ a ∈ appends, WellFormed a.record)
    {file cut : Bytes} (hfile : writtenBy appends = some file) (hcut : cut <+: file) (path : Bytes)
    (clock : ℕ → Readings) (store : Store) : CutDetected path appends cut clock store := by
  rw [writtenBy_eq, Option.some.injEq] at hfile
  have hvalid : ∀ r ∈ appends.map Append.record, WellFormed r := List.forall_mem_map.mpr h
  have hboundary : ∀ k, writtenBy (appends.take k) = some cut →
      replayLog path (.contents cut) clock store =
        (none, loaded clock ((appends.take k).map Append.record)) := by
    intro k hk
    rw [writtenBy_eq, Option.some.injEq] at hk
    rw [← hk]
    exact replayLog_records path clock store
      (List.forall_mem_map.mpr fun a ha => h a (List.mem_of_mem_take ha))
  have hcases : (∃ k, writtenBy (appends.take k) = some cut) ∨
      ∃ error, replayLog path (.contents cut) clock store = (some error, store) := by
    rw [← hfile] at hcut
    have hload : (∃ k, cut = ((appends.map Append.record).take k).flatMap LogRecord.encode) ∨
        ∃ error, load readRecord (fun n r => executeRecord (clock n) r) 0 cut {} = .error error :=
      load_cut readRecord_framing (fun n r hr _ _ => readRecord_torn n hr) 0 hvalid hcut ({} : Store)
    rcases hload with ⟨k, hk⟩ | ⟨error, herror⟩
    · exact .inl ⟨k, by rw [writtenBy_eq, List.map_take, hk]⟩
    · exact .inr ⟨error, by simp only [replayLog, herror]⟩
  refine ⟨⟨fun haccepted => ?_, ?_⟩, fun k hk => by rw [hboundary k hk], fun hrefused => ?_⟩
  · rcases hcases with hk | ⟨error, herror⟩
    · exact hk
    · rw [herror] at haccepted
      cases haccepted
  · rintro ⟨k, hk⟩
    rw [hboundary k hk]
  · rcases hcases with ⟨k, hk⟩ | ⟨error, herror⟩
    · exact absurd (by rw [hboundary k hk]) hrefused
    · rw [herror]

/-- A string that looks like a record, and a deadline. -/
def lookalike : List Append :=
  [.command (text "SET") [text "k", text "DEL 1 k\n"], .expire 100 (text "k") 5]

theorem lookalike_wellFormed : ∀ a ∈ lookalike, WellFormed a.record := by
  intro a ha
  simp only [lookalike, List.mem_cons, List.not_mem_nil, or_false] at ha
  rcases ha with rfl | rfl
  · exact ⟨rfl, by decide⟩
  · exact ⟨by decide, by decide⟩

theorem lookalike_read : ∃ file, writtenBy lookalike = some file ∧
    Reads readRecord 0 file (lookalike.map Append.record) [] ∧
    fileRecords file = .ok (lookalike.map Append.record) :=
  written_records_read lookalike_wellFormed

theorem lookalike_cut_detected : CutDetected (text "redis.log") lookalike
    (text "SET 1 k 8 DEL 1 k\n") (fun _ => .once 0 0) {} := by
  refine torn_writes_detected lookalike_wellFormed (writtenBy_eq lookalike) ?_ _ _ _
  decide

end RedisLite.Replay
