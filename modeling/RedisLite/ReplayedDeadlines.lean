import RedisLite.CommandArithmetic
import RedisLite.TornLogs

/-!
# Deadlines that are replayed

The record of a deadline holds Unix seconds. Replay subtracts the time of the system clock and lets
`EXPIRE` set what is left, without a look at its reply. A deadline that is too far ahead for `EXPIRE`
leaves the key without any, and one too far back leaves the range of the subtraction.
-/

namespace RedisLite.Replay
open ByteStrings Resp Keyspace AppendLog Commands Operations RecordFiles LogReader CommandArithmetic
  StreamExtraction

/-- No deadline of a store is past what the clock can hold. -/
def Within (s : Store) : Prop := ∀ key, ∀ deadline ∈ (s.cell key).deadline, deadline ≤ maxTimePoint

section Record
variable {now : Readings} {key : Bytes} {deadline : ℤ} {s : Store}

end Record

end RedisLite.Replay
