import RedisLite.ConnectionLedger
import RedisLite.RespStability

/-!
# The byte stream of one client

What the loops of `handle_readable` and `try_send` do to the buffers of a client, and the state that
every handled event leaves the client in.
-/

namespace RedisLite.EventLoop
open ByteStrings Resp IncrementalDecoding Keyspace Commands

/-- The chunks that one run of the `recv` loop finds, as long as it goes on. -/
def chunks : List RecvResult → List Bytes
  | .data chunk :: results => chunk.bytes :: chunks results
  | .interrupted :: results => chunks results
  | _ => []

/-- The socket has failed after these chunks. -/
def breaks : List RecvResult → Bool
  | .data _ :: results => breaks results
  | .interrupted :: results => breaks results
  | .failed :: _ => true
  | _ => false

theorem recvLoop_fits {results : List RecvResult} {buffer : Bytes}
    (h : (buffer ++ (chunks results).flatten).length ≤ kMaxRequestBytes) :
    (recvLoop results buffer).buffer = buffer ++ (chunks results).flatten ∧
      (recvLoop results buffer).received = (chunks results).flatten ∧
      (recvLoop results buffer).status ≠ .tooLarge ∧
      (breaks results = false → (recvLoop results buffer).status ≠ .failed) := by
  induction results generalizing buffer with
  | nil => simp [recvLoop, chunks]
  | cons result results ih =>
    cases result with
    | data chunk =>
      have hroom : ¬ kMaxRequestBytes < buffer.length + chunk.bytes.length := by
        simp only [chunks, List.flatten_cons, List.length_append] at h
        omega
      have happend : buffer ++ (chunks (.data chunk :: results)).flatten =
          buffer ++ chunk.bytes ++ (chunks results).flatten := by
        simp [chunks]
      rw [happend] at h ⊢
      obtain ⟨hbuffer, hreceived, hlarge, hfailed⟩ := ih h
      simp only [recvLoop, if_neg hroom, Receiving.push]
      exact ⟨hbuffer, by simp [hreceived, chunks], hlarge, hfailed⟩
    | interrupted => simpa [recvLoop, chunks, breaks] using ih h
    | endOfFile => simp [recvLoop, chunks]
    | wouldBlock => simp [recvLoop, chunks]
    | failed => simp [recvLoop, chunks, breaks]

/-- The loop stops at the chunk with which the buffer would be larger than the limit. -/
theorem recvLoop_crosses {results : List RecvResult} {buffer chunk : Bytes} {before after : List Bytes}
    (hchunks : chunks results = before ++ chunk :: after)
    (hfits : before = [] ∨ (buffer ++ before.flatten).length ≤ kMaxRequestBytes)
    (hcrosses : kMaxRequestBytes < (buffer ++ before.flatten ++ chunk).length) :
    recvLoop results buffer = ⟨buffer ++ before.flatten, before.flatten ++ chunk, .tooLarge⟩ := by
  induction results generalizing buffer before with
  | nil => simp [chunks] at hchunks
  | cons result results ih =>
    cases result with
    | data c =>
      cases before with
      | nil =>
        obtain ⟨rfl, -⟩ := List.cons.inj hchunks
        have hlarge : kMaxRequestBytes < buffer.length + c.bytes.length := by simpa using hcrosses
        simp [recvLoop, hlarge]
      | cons b before =>
        obtain ⟨rfl, htail⟩ := List.cons.inj hchunks
        have happend : buffer ++ (c.bytes :: before).flatten =
            buffer ++ c.bytes ++ before.flatten := by
          simp
        rw [happend] at hfits hcrosses ⊢
        have hfits : (buffer ++ c.bytes ++ before.flatten).length ≤ kMaxRequestBytes := by
          simpa using hfits
        have hroom : ¬ kMaxRequestBytes < buffer.length + c.bytes.length := by
          simp only [List.length_append] at hfits
          omega
        rw [recvLoop, if_neg hroom, ih htail (.inr hfits) hcrosses]
        simp [Receiving.push]
    | interrupted => exact ih hchunks hfits hcrosses
    | endOfFile => simp [chunks] at hchunks
    | wouldBlock => simp [chunks] at hchunks
    | failed => simp [chunks] at hchunks

theorem recvLoop_closed (buffer : Bytes) : recvLoop [.failed] buffer = ⟨buffer, [], .failed⟩ := rfl

theorem receive_open {fd : ℕ} {s : Server} (hopen : s.openFds.contains fd = true)
    (results : List RecvResult) :
    receive fd results s = ((recvLoop results (s.input.getD fd [])).status,
      { s with input := s.input.insert fd (recvLoop results (s.input.getD fd [])).buffer }.note fd
        [.received (recvLoop results (s.input.getD fd [])).received]) := by
  rw [receive, if_pos hopen]

theorem receive_status {fd : ℕ} {s : Server} (hopen : s.openFds.contains fd = true)
    (results : List RecvResult) :
    (receive fd results s).1 = (recvLoop results (s.input.getD fd [])).status := by
  rw [receive_open hopen]

theorem receive_input {fd : ℕ} {s : Server} (hopen : s.openFds.contains fd = true)
    (results : List RecvResult) : (receive fd results s).2.input.getD fd [] =
      (recvLoop results (s.input.getD fd [])).buffer := by
  rw [receive_open hopen]
  exact Std.ExtTreeMap.getD_insert_self

@[simp] theorem receive_output (fd : ℕ) (results : List RecvResult) (s : Server) :
    (receive fd results s).2.output = s.output := rfl

@[simp] theorem receive_session (fd : ℕ) (results : List RecvResult) (s : Server) :
    (receive fd results s).2.session = s.session := rfl

theorem receive_closed {fd : ℕ} {s : Server} (hclosed : s.openFds.contains fd = false)
    (results : List RecvResult) : (receive fd results s).1 = .failed := by
  rw [receive, hclosed]
  rfl

theorem Prepared.isOpen {fd : ℕ} {answers : Answers} {s s₂ : Server} {after : AfterRead}
    (h : Prepared fd answers s after s₂) : s.openFds.contains fd = true := by
  by_contra hclosed
  have hfailed := receive_closed (Bool.eq_false_iff.mpr hclosed) answers.recvs
  cases h with
  | oversized hstatus =>
    rw [hfailed] at hstatus
    cases hstatus
  | served hstatus =>
    rw [hfailed] at hstatus
    rcases hstatus with hstatus | hstatus
    · cases hstatus
    · cases hstatus

/-- Either everything fits, or one chunk is the first that does not. -/
theorem fits_or_crosses {buffer : Bytes} (h : buffer.length ≤ kMaxRequestBytes) (cs : List Bytes) :
    (buffer ++ cs.flatten).length ≤ kMaxRequestBytes ∨
      ∃ before chunk after, cs = before ++ chunk :: after ∧
        (buffer ++ before.flatten).length ≤ kMaxRequestBytes ∧
        kMaxRequestBytes < (buffer ++ before.flatten ++ chunk).length := by
  induction cs generalizing buffer with
  | nil => exact .inl (by simpa using h)
  | cons c cs ih =>
    by_cases hc : (buffer ++ c).length ≤ kMaxRequestBytes
    · have happend : buffer ++ (c :: cs).flatten = buffer ++ c ++ cs.flatten := by simp
      rw [happend]
      refine (ih hc).imp_right ?_
      rintro ⟨before, chunk, after, rfl, hfits, hcrosses⟩
      exact ⟨c :: before, chunk, after, rfl, by simpa using hfits, by simpa using hcrosses⟩
    · exact .inr ⟨[], c, cs, rfl, by simpa using h, by simpa using hc⟩

def serializedReplies (executed : List (RespValue × RespValue)) : Bytes :=
  executed.flatMap fun e => serialize e.2

theorem serializedReplies_append (executed executed' : List (RespValue × RespValue)) :
    serializedReplies (executed ++ executed') =
      serializedReplies executed ++ serializedReplies executed' :=
  List.flatMap_append

def errorReply : Option Bytes → Bytes
  | none => []
  | some e => serialize (protocolError e)

/-- Requests executed one after the other, with the readings of the clock from `k` on. -/
def executeAll (clock : ℕ → Readings) (k : ℕ) (requests : List RespValue) (session : Session) :
    List (RespValue × RespValue) × Session :=
  match requests with
  | [] => ([], session)
  | request :: requests =>
    let outcome := executeCommand (clock k) request session
    let rest := executeAll clock (k + 1) requests outcome.2
    ((request, outcome.1) :: rest.1, rest.2)

theorem executeAll_requests (clock : ℕ → Readings) (k : ℕ) (requests : List RespValue)
    (session : Session) : (executeAll clock k requests session).1.map Prod.fst = requests := by
  induction requests generalizing k session with
  | nil => rfl
  | cons request requests ih => exact congrArg (request :: ·) (ih _ _)

/-- The parse loop executes the requests that the buffer holds, in order, answers each of them and
stops where the parser stops. -/
theorem parseLoop_eq (clock : ℕ → Readings) {fuel : ℕ} {p : Parsing}
    (h : p.buffer.length < fuel) (hnone : p.error = none) :
    let d := drain parse p.buffer
    let run := executeAll clock p.executed.length d.values p.session
    parseLoop clock fuel p = ⟨d.rest, p.output ++ serializedReplies run.1 ++ errorReply d.error,
      run.2, p.executed ++ run.1, d.error⟩ := by
  induction fuel generalizing p with
  | zero => omega
  | succ fuel ih =>
    obtain ⟨buffer, output, session, executed, error⟩ := p
    obtain rfl : error = none := hnone
    cases hparse : parse buffer with
    | incomplete =>
      simp [parseLoop, hparse, drain_incomplete hparse, executeAll, serializedReplies, errorReply]
    | malformed e =>
      simp [parseLoop, hparse, drain_malformed hparse, executeAll, serializedReplies, errorReply]
    | ok request consumed =>
      have hpos := parse_stable.consumed_pos hparse
      have hle := parse_stable.consumed_le hparse
      set p' := Parsing.execute clock request consumed ⟨buffer, output, session, executed, none⟩
      have hlength : p'.executed.length = executed.length + 1 := List.length_append
      have hrest : p'.buffer.length < fuel := by
        change (buffer.drop consumed).length < fuel
        change buffer.length < fuel + 1 at h
        rw [List.length_drop]
        omega
      have hstep : parseLoop clock (fuel + 1) ⟨buffer, output, session, executed, none⟩ =
          parseLoop clock fuel p' := by
        simp only [parseLoop, hparse, p']
      rw [hstep, ih hrest rfl, hlength, drain_ok parse_stable hparse]
      simp [p', Parsing.execute, Drained.push, executeAll, serializedReplies]

theorem serveRequests_eq (fd : ℕ) (clock : ℕ → Readings) (s : Server) :
    let d := drain parse (s.input.getD fd [])
    let run := executeAll clock 0 d.values s.session
    let output := s.output.getD fd [] ++ serializedReplies run.1 ++ errorReply d.error
    serveRequests fd clock s = (d.error,
      { s with
        input := s.input.insert fd d.rest
        output := s.output.insert fd output
        session := run.2 }.note fd (Parsing.actions ⟨d.rest, output, run.2, run.1, d.error⟩)) := by
  have hparsed := @parseLoop_eq clock _ ⟨s.input.getD fd [], s.output.getD fd [], s.session, [], none⟩
    (Nat.lt_succ_self _) rfl
  simp only [serveRequests, hparsed, List.length_nil, List.nil_append]

theorem serveRequests_error (fd : ℕ) (clock : ℕ → Readings) (s : Server) :
    (serveRequests fd clock s).1 = (drain parse (s.input.getD fd [])).error := by
  rw [serveRequests_eq]

theorem serveRequests_input (fd : ℕ) (clock : ℕ → Readings) (s : Server) :
    (serveRequests fd clock s).2.input.getD fd [] = (drain parse (s.input.getD fd [])).rest := by
  rw [serveRequests_eq]
  exact Std.ExtTreeMap.getD_insert_self

theorem serveRequests_output (fd : ℕ) (clock : ℕ → Readings) (s : Server) :
    let d := drain parse (s.input.getD fd [])
    (serveRequests fd clock s).2.output.getD fd [] = s.output.getD fd [] ++
      serializedReplies (executeAll clock 0 d.values s.session).1 ++ errorReply d.error := by
  rw [serveRequests_eq]
  exact Std.ExtTreeMap.getD_insert_self

theorem refuseOversized_output (fd : ℕ) (s : Server) : (refuseOversized fd s).output.getD fd [] =
    s.output.getD fd [] ++ errorReply (some sizeError) :=
  Std.ExtTreeMap.getD_insert_self

/-- The requests in the input buffer enter the ledger, and what is wrong after them. -/
theorem ledger_serveRequests (fd : ℕ) (clock : ℕ → Readings) (s : Server) :
    let d := drain parse (s.input.getD fd [])
    ledger fd (serveRequests fd clock s).2.trace =
      { ledger fd s.trace with
        executed := (ledger fd s.trace).executed ++ (executeAll clock 0 d.values s.session).1
        error := d.error.or (ledger fd s.trace).error } := by
  rw [serveRequests_eq, ledger_note, record_parsing]

theorem ledger_receive (fd : ℕ) (results : List RecvResult) (s : Server) :
    ∃ bytes, ledger fd (receive fd results s).2.trace =
      { ledger fd s.trace with received := (ledger fd s.trace).received ++ bytes } :=
  ⟨_, ledger_note fd [.received _] _⟩

theorem ledger_refuseOversized (fd : ℕ) (s : Server) :
    ledger fd (refuseOversized fd s).trace = { ledger fd s.trace with oversized := true } :=
  ledger_note fd [.oversized] _

theorem ledger_closeClient (fd : ℕ) (s : Server) :
    ledger fd (closeClient fd s).trace = ledger fd s.trace :=
  ledger_note fd [.closed] _

/-- However often it has gone round, the parse loop has added to the output the replies to what it
has executed, and the error with which it has stopped. -/
theorem parseLoop_replies (clock : ℕ → Readings) (n : ℕ) {p : Parsing} (hnone : p.error = none) :
    ∃ executed, (parseLoop clock n p).executed = p.executed ++ executed ∧
      (parseLoop clock n p).output =
        p.output ++ serializedReplies executed ++ errorReply (parseLoop clock n p).error := by
  induction n generalizing p with
  | zero => exact ⟨[], by simp [parseLoop], by simp [parseLoop, hnone, errorReply, serializedReplies]⟩
  | succ n ih =>
    cases hparse : parse p.buffer with
    | incomplete =>
      exact ⟨[], by simp [parseLoop, hparse],
        by simp [parseLoop, hparse, hnone, errorReply, serializedReplies]⟩
    | malformed e =>
      exact ⟨[], by simp [parseLoop, hparse],
        by simp [parseLoop, hparse, errorReply, serializedReplies]⟩
    | ok request consumed =>
      have hstep : parseLoop clock (n + 1) p = parseLoop clock n (p.execute clock request consumed) := by
        rw [parseLoop, hparse]
      obtain ⟨executed, hexecuted, houtput⟩ := @ih (p.execute clock request consumed) hnone
      let reply := (executeCommand (clock p.executed.length) request p.session).1
      refine ⟨(request, reply) :: executed, ?_, ?_⟩
      · rw [hstep, hexecuted]
        exact List.append_assoc ..
      · rw [hstep, houtput]
        simp [Parsing.execute, serializedReplies, reply]

/-- How many bytes the kernel takes before it does anything else. -/
def room : List SendResult → ℕ
  | .accepted 0 :: _ => 0
  | .accepted (count + 1) :: results => count + 1 + room results
  | .interrupted :: results => room results
  | _ => 0

/-- How a `try_send` ends that has more to send than that. -/
def refusal : List SendResult → SendStatus
  | .accepted 0 :: _ => .failed
  | .accepted (_ + 1) :: results => refusal results
  | .interrupted :: results => refusal results
  | .wouldBlock registered :: _ => .blocked registered
  | .failed :: _ => .failed
  | .brokenPipe :: _ => .killed
  | [] => .blocked true

theorem sendLoop_nil (results : List SendResult) : sendLoop results [] = ⟨[], [], .drained⟩ := by
  cases results with
  | nil => rfl
  | cons result results => simp [sendLoop]

theorem sendLoop_eq (results : List SendResult) {pending : Bytes} (h : pending ≠ []) :
    sendLoop results pending =
      if pending.length ≤ room results then ⟨[], pending, .drained⟩
      else ⟨pending.drop (room results), pending.take (room results), refusal results⟩ := by
  induction results generalizing pending with
  | nil => simp [sendLoop, room, refusal, h]
  | cons result results ih =>
    unfold sendLoop
    rw [if_neg h]
    cases result with
    | accepted count =>
      cases count with
      | zero => simp [room, refusal, h]
      | succ count =>
        have hroom : room (.accepted (count + 1) :: results) = count + 1 + room results := rfl
        have hrefusal : refusal (.accepted (count + 1) :: results) = refusal results := rfl
        dsimp only
        rw [if_neg (Nat.succ_ne_zero count), hroom, hrefusal]
        by_cases hrest : pending.drop (count + 1) = []
        · have hle := List.drop_eq_nil_iff.mp hrest
          rw [if_pos (by omega), hrest, sendLoop_nil, List.take_of_length_le hle]
          simp [Sending.push]
        · rw [ih hrest, List.length_drop]
          split
          · rename_i hfits
            rw [if_pos (by omega)]
            simp [Sending.push]
          · rename_i hfull
            rw [if_neg (by omega)]
            simp [Sending.push, List.take_add]
    | interrupted => exact ih h
    | wouldBlock registered => simp [room, refusal, h]
    | failed => simp [room, refusal, h]
    | brokenPipe => simp [room, refusal, h]

/-- Nothing is lost or reordered while it is sent. -/
theorem sendLoop_conserves (results : List SendResult) (pending : Bytes) :
    (sendLoop results pending).sent ++ (sendLoop results pending).pending = pending := by
  induction results generalizing pending with
  | nil => rfl
  | cons result results ih =>
    unfold sendLoop
    split
    · rfl
    · cases result with
      | accepted count =>
        dsimp only
        split
        · rfl
        · rw [Sending.push, List.append_assoc, ih, List.take_append_drop]
      | interrupted => exact ih pending
      | wouldBlock registered => rfl
      | failed => rfl
      | brokenPipe => rfl

theorem ledger_trySend (fd : ℕ) (results : List SendResult) (s : Server) :
    ∃ sent, ledger fd (trySend fd results s).2.trace =
        { ledger fd s.trace with sent := (ledger fd s.trace).sent ++ sent } ∧
      sent ++ (trySend fd results s).2.output.getD fd [] = s.output.getD fd [] := by
  refine ⟨_, ledger_note fd [.sent _] _, ?_⟩
  have hpending : ∀ pending : Bytes, (s.output.insert fd pending).getD fd [] = pending :=
    fun _ => Std.ExtTreeMap.getD_insert_self
  refine (congrArg _ (hpending _)).trans (sendLoop_conserves _ _)

section Send
variable {fd : ℕ} {results : List SendResult} {s : Server}

theorem trySend_fits (hopen : s.openFds.contains fd = true)
    (h : (s.output.getD fd []).length ≤ room results) :
    (trySend fd results s).1 = some true ∧ (trySend fd results s).2.output.getD fd [] = [] := by
  have hsend : sendLoop results (s.output.getD fd []) = ⟨[], s.output.getD fd [], .drained⟩ := by
    by_cases hnothing : s.output.getD fd [] = []
    · rw [hnothing, sendLoop_nil]
    · rw [sendLoop_eq results hnothing, if_pos h]
  simp only [trySend, if_pos hopen, hsend, SendStatus.returned, true_and]
  exact Std.ExtTreeMap.getD_insert_self

theorem sendLoop_refused {pending : Bytes} (h : room results < pending.length) :
    sendLoop results pending =
      ⟨pending.drop (room results), pending.take (room results), refusal results⟩ := by
  have hpending : pending ≠ [] := List.length_pos_iff.mp (Nat.zero_lt_of_lt h)
  rw [sendLoop_eq results hpending, if_neg (by omega)]

theorem trySend_refused (hopen : s.openFds.contains fd = true)
    (h : room results < (s.output.getD fd []).length) :
    (trySend fd results s).1 = (refusal results).returned ∧
      (trySend fd results s).2.output.getD fd [] = (s.output.getD fd []).drop (room results) := by
  simp only [trySend, if_pos hopen, sendLoop_refused h, true_and]
  exact Std.ExtTreeMap.getD_insert_self

end Send

end RedisLite.EventLoop
