import RedisLite.DeliveryIndependence

/-!
# The size limit and pipelined requests

The limit is meant for a request that stays unfinished. It is checked while `recv` is drained, before
the complete requests are taken from the buffer, so it also ends connections whose requests are all
small: exactly those with a readiness event at which the chunk that crosses the limit does not belong
to one unfinished request.
-/

namespace RedisLite.EventLoop
open ByteStrings Resp IncrementalDecoding Keyspace Commands MachineRuns

theorem readResults_cases {fd : ℕ} {i : Input} {s : Server} {results : List RecvResult}
    (h : results ∈ readResults fd i s) :
    ∃ answers event batch, i = .handle answers ∧ s.phase = .dispatching (event :: batch) ∧
      event.Reads fd s ∧ results = answers.recvs := by
  unfold readResults at h
  split at h
  · rename_i answers event batch hphase
    split at h
    · rename_i hreads
      exact ⟨answers, event, batch, rfl, hphase, hreads, (Option.some.inj h).symm⟩
    · cases h
  · cases h

end RedisLite.EventLoop
