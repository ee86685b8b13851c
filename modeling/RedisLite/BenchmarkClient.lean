import RedisLite.BlockingReaders
import RedisLite.MachineRuns
import RedisLite.Replay
import RedisLite.ReplyFraming

/-!
# The benchmark client

The client of the benchmark sends batches of requests over one blocking connection and waits for the
replies to a batch before it sends the next one. The stages of its program are the places where it
waits for the kernel, and the top of its loop.
-/

namespace RedisLite.Benchmark
open ByteStrings Resp IncrementalDecoding Replay Operations MachineRuns

def encode (arguments : List Bytes) : Bytes :=
  arguments.foldl
    (fun out argument =>
      out ++ (text "$" ++ natDecimal argument.length ++ crlf ++ argument ++ crlf))
    (text "*" ++ natDecimal arguments.length ++ crlf)

/-- The bytes of a request with this number, for a prefix of the keys. -/
abbrev RequestFor := Bytes → ℤ → Bytes

/-- What has been received, and how much of it has been parsed. -/
structure Connection where
  incoming : Bytes := []
  parsed : ℕ := 0
  deriving DecidableEq, Repr

def Connection.remaining (c : Connection) : Bytes := c.incoming.drop c.parsed

/-- Where the inner loop of `await_replies` ends, with the replies that it has parsed. -/
structure Consuming where
  connection : Connection
  wanted : ℕ
  replies : List RespValue
  error : Option Bytes

/-- The inner loop of `await_replies`: consume what is already buffered. -/
def consume : ℕ → Connection → Consuming
  | 0, c => ⟨c, 0, [], none⟩
  | wanted + 1, c =>
    if c.remaining = [] then ⟨c, wanted + 1, [], none⟩
    else
      match parse c.remaining with
      | .incomplete => ⟨c, wanted + 1, [], none⟩
      | .malformed e => ⟨c, wanted + 1, [], some e⟩
      | .ok reply consumed =>
        let r := consume wanted { c with parsed := c.parsed + consumed }
        { r with replies := reply :: r.replies }

/-- Forget the bytes that have been parsed. -/
def Connection.compact (c : Connection) : Connection :=
  if 0 < c.parsed then ⟨c.incoming.drop c.parsed, 0⟩ else c

/-- One round of the outer loop, up to the call of `recv`. -/
def awaitRound (wanted : ℕ) (c : Connection) : Consuming :=
  let r := consume wanted c
  if r.error = none then { r with connection := r.connection.compact } else r

def Connection.receive (chunk : Bytes) (c : Connection) : Connection :=
  { c with incoming := c.incoming ++ chunk }

/-- What `recv` does: it returns bytes, is interrupted, or fails or says that nothing more will come. -/
inductive RecvAnswer where
  | received (chunk : Bytes)
  | interrupted | ended
  deriving DecidableEq, Repr

/-- How `await_replies` ends; it is `blocked` while `recv` has not answered. -/
inductive AwaitStatus where
  | replied
  | malformed (error : Bytes)
  | disconnected | blocked
  deriving DecidableEq, Repr

structure Awaiting where
  connection : Connection
  replies : List RespValue
  status : AwaitStatus
  unread : List RecvAnswer

def Awaiting.after (replies : List RespValue) (a : Awaiting) : Awaiting :=
  { a with replies := replies ++ a.replies }

def awaitReplies (answers : List RecvAnswer) (wanted : ℕ) (c : Connection) : Awaiting :=
  if wanted = 0 then ⟨c, [], .replied, answers⟩
  else
    let r := awaitRound wanted c
    match r.error with
    | some e => ⟨r.connection, r.replies, .malformed e, answers⟩
    | none =>
      if r.wanted = 0 then ⟨r.connection, r.replies, .replied, answers⟩
      else
        match answers with
        | [] => ⟨r.connection, r.replies, .blocked, []⟩
        | .received chunk :: answers =>
          (awaitReplies answers r.wanted (r.connection.receive chunk)).after r.replies
        | .interrupted :: answers =>
          (awaitReplies answers r.wanted r.connection).after r.replies
        | .ended :: answers => ⟨r.connection, r.replies, .disconnected, answers⟩

/-- A loop that sends requests in batches: `batchSize` is the number of requests that it sends next
when so many have been sent. -/
structure Workload where
  request : ℤ → Bytes
  ops : ℤ
  batchSize : ℤ → ℤ

def runPipelined (request : RequestFor) (keyPrefix : Bytes) (ops depth : ℤ) : Workload where
  request := request keyPrefix
  ops := ops
  batchSize sent := min depth (ops - sent)

def seed (request : RequestFor) (keyPrefix : Bytes) (ops depth : ℤ) : Workload where
  request := request keyPrefix
  ops := ops
  batchSize sent := min depth (ops - sent)

def runSequential (request : RequestFor) (keyPrefix : Bytes) (ops : ℤ) : Workload where
  request := request keyPrefix
  ops := ops
  batchSize _ := 1

/-- The requests of a batch, one after the other. -/
def Workload.payload (w : Workload) (sent batch : ℤ) : Bytes :=
  (List.range batch.toNat).flatMap fun (i : ℕ) => w.request (sent + i)

/-- The top of the loop; in `send_all`, with what it has sent of a payload; in `await_replies`. -/
inductive Stage where
  | batching
  | sending (payload : Bytes) (sent : ℕ) (batch : ℤ)
  | awaiting (wanted : ℕ) (batch : ℤ)
  | finished | failed
  deriving DecidableEq, Repr

structure Client where
  sent : ℤ := 0
  connection : Connection := {}
  stage : Stage := .batching
  replies : List RespValue := []

/-- What happens next: the program goes on, or the kernel answers the call that it waits for. -/
inductive Input where
  | proceed
  | wrote (count : ℕ)
  | received (chunk : Bytes)
  | interrupted | failed
  deriving DecidableEq, Repr

/-- The loop of `await_replies`, until it waits for the kernel or returns. -/
def Client.await (wanted : ℕ) (batch : ℤ) (c : Client) : Client :=
  if wanted = 0 then { c with sent := c.sent + batch, stage := .batching }
  else
    let r := awaitRound wanted c.connection
    let c := { c with connection := r.connection, replies := c.replies ++ r.replies }
    if r.error ≠ none then { c with stage := .failed }
    else if r.wanted = 0 then { c with sent := c.sent + batch, stage := .batching }
    else { c with stage := .awaiting r.wanted batch }

def next (w : Workload) (i : Input) (c : Client) : Client :=
  match c.stage with
  | .batching =>
    if i = .proceed then
      if c.sent < w.ops then
        let batch := w.batchSize c.sent
        { c with stage := .sending (w.payload c.sent batch) 0 batch }
      else { c with stage := .finished }
    else c
  | .sending payload sent batch =>
    if sent < payload.length then
      match i with
      | .wrote count => { c with stage := .sending payload (sent + count) batch }
      | .failed => { c with stage := .failed }
      | _ => c
    else if i = .proceed then c.await batch.toNat batch
    else c
  | .awaiting wanted batch =>
    match i with
    | .received chunk => { c with connection := c.connection.receive chunk }.await wanted batch
    | .interrupted => c.await wanted batch
    | .failed => { c with stage := .failed }
    | _ => c
  | .finished | .failed => c

def step (w : Workload) (i : Input) (c : Client) : Unit × Client := ((), next w i c)

inductive ClientStep (w : Workload) (c : Client) : Input → Client → Prop
  | batch (hstage : c.stage = .batching) (hmore : c.sent < w.ops) :
      ClientStep w c .proceed { c with
        stage := .sending (w.payload c.sent (w.batchSize c.sent)) 0 (w.batchSize c.sent) }
  | finish (hstage : c.stage = .batching) (hlast : w.ops ≤ c.sent) :
      ClientStep w c .proceed { c with stage := .finished }
  | sent {payload : Bytes} {sent : ℕ} {batch : ℤ} (hstage : c.stage = .sending payload sent batch)
      (hall : payload.length ≤ sent) : ClientStep w c .proceed (c.await batch.toNat batch)
  | wrote {payload : Bytes} {sent count : ℕ} {batch : ℤ}
      (hstage : c.stage = .sending payload sent batch) (hsome : sent < payload.length) :
      ClientStep w c (.wrote count) { c with stage := .sending payload (sent + count) batch }
  | received {chunk : Bytes} {wanted : ℕ} {batch : ℤ} (hstage : c.stage = .awaiting wanted batch) :
      ClientStep w c (.received chunk)
        ({ c with connection := c.connection.receive chunk }.await wanted batch)
  | again {wanted : ℕ} {batch : ℤ} (hstage : c.stage = .awaiting wanted batch) :
      ClientStep w c .interrupted (c.await wanted batch)
  | broken (hcalls : (∃ payload sent batch, c.stage = .sending payload sent batch ∧
        sent < payload.length) ∨ ∃ wanted batch, c.stage = .awaiting wanted batch) :
      ClientStep w c .failed { c with stage := .failed }
  | idle (i : Input)
      (hreads : ∀ wanted batch chunk, c.stage = .awaiting wanted batch → i ≠ .received chunk)
      (hwrites : ∀ payload sent batch count, c.stage = .sending payload sent batch →
        sent < payload.length → i ≠ .wrote count) : ClientStep w c i c

theorem clientStep (w : Workload) (i : Input) (c : Client) : ClientStep w c i (step w i c).2 := by
  change ClientStep w c i (next w i c)
  unfold next
  split
  · rename_i hstage
    split
    · rename_i hproceed
      subst hproceed
      split
      · rename_i hmore
        exact .batch hstage hmore
      · rename_i hlast
        exact .finish hstage (Int.not_lt.mp hlast)
    · exact .idle i (by simp [hstage]) (by simp [hstage])
  · rename_i payload sent batch hstage
    split
    · rename_i hsome
      split
      · exact .wrote hstage hsome
      · exact .broken (.inl ⟨payload, sent, batch, hstage, hsome⟩)
      · rename_i hwrote _
        exact .idle i (by simp [hstage]) fun _ _ _ count _ _ hi => hwrote count hi
    · rename_i hall
      split
      · rename_i hproceed
        subst hproceed
        exact .sent hstage (Nat.not_lt.mp hall)
      · refine .idle i (by simp [hstage]) fun payload' sent' batch' count h' hsome => ?_
        rw [hstage] at h'
        cases h'
        exact absurd hsome hall
  · rename_i wanted batch hstage
    split
    · exact .received hstage
    · exact .again hstage
    · exact .broken (.inr ⟨wanted, batch, hstage⟩)
    · rename_i hreceived _ _
      exact .idle i (fun _ _ chunk _ hi => hreceived chunk hi) (by simp [hstage])
  · rename_i hstage
    exact .idle i (by simp [hstage]) (by simp [hstage])
  · rename_i hstage
    exact .idle i (by simp [hstage]) (by simp [hstage])

theorem encode_eq (arguments : List Bytes) : encode arguments = serialize (asRequest arguments) := by
  have hfields : ∀ out : Bytes, arguments.foldl
      (fun out argument =>
        out ++ (text "$" ++ natDecimal argument.length ++ crlf ++ argument ++ crlf)) out =
      out ++ serializeElements (arguments.map makeBulkString) := by
    induction arguments with
    | nil => simp [serializeElements]
    | cons argument arguments ih =>
      intro out
      rw [List.foldl_cons, ih, List.map_cons, serializeElements, serialize_makeBulkString]
      simp [text]
  rw [encode, hfields, asRequest, serialize_makeArray]
  simp [text]

def RequestFits (arguments : List Bytes) : Prop :=
  (arguments.length : ℤ) ≤ maxInt64 ∧ ∀ x ∈ arguments, FitsMemory x

theorem parse_encode {arguments : List Bytes} (h : RequestFits arguments) (t : Bytes) :
    parse (encode arguments ++ t) = .ok (asRequest arguments) (encode arguments).length := by
  rw [encode_eq]
  exact (framed_bulkStrings h.1 h.2).parse t

theorem remaining_advance (c : Connection) (n : ℕ) :
    Connection.remaining { c with parsed := c.parsed + n } = c.remaining.drop n :=
  (List.drop_drop ..).symm

/-- The inner loop takes the replies from the front of what is left. -/
theorem consume_eq (wanted : ℕ) (c : Connection) :
    let r := consume wanted c
    let t := takeValues parse wanted c.remaining
    r.replies = t.values ∧ r.wanted = t.wanted ∧ r.error = t.error ∧
      r.connection.remaining = t.rest ∧ (c.parsed ≤ c.incoming.length →
        r.connection.parsed ≤ r.connection.incoming.length) := by
  induction wanted generalizing c with
  | zero => exact ⟨rfl, rfl, rfl, rfl, id⟩
  | succ wanted ih =>
    by_cases hempty : c.remaining = []
    · simp [consume, hempty, takeValues_incomplete parse_nil]
    · cases hparse : parse c.remaining with
      | incomplete =>
        simp [consume, hempty, hparse, takeValues_incomplete hparse]
      | malformed e =>
        simp [consume, hempty, hparse, takeValues_malformed hparse]
      | ok reply consumed =>
        obtain ⟨hreplies, hwanted, herror, hrest, hparsed⟩ :=
          ih { c with parsed := c.parsed + consumed }
        rw [remaining_advance] at hreplies hwanted herror hrest
        simp only [consume, if_neg hempty, hparse, takeValues_ok hparse]
        refine ⟨congrArg (reply :: ·) hreplies, hwanted, herror, hrest, fun hle => hparsed ?_⟩
        have hconsumed := parse_stable.consumed_le hparse
        rw [Connection.remaining, List.length_drop] at hconsumed
        dsimp only
        omega

theorem compact_remaining (c : Connection) : c.compact = ⟨c.remaining, 0⟩ := by
  unfold Connection.compact
  split
  · rfl
  · rename_i hparsed
    obtain ⟨incoming, parsed⟩ := c
    obtain rfl : parsed = 0 := Nat.eq_zero_of_not_pos hparsed
    rfl

theorem awaitRound_eq (wanted : ℕ) (c : Connection) :
    let r := awaitRound wanted c
    let t := takeValues parse wanted c.remaining
    r.replies = t.values ∧ r.wanted = t.wanted ∧ r.error = t.error ∧
      r.connection.remaining = t.rest ∧ (t.error = none → r.connection = ⟨t.rest, 0⟩) := by
  obtain ⟨hreplies, hwanted, herror, hrest, -⟩ := consume_eq wanted c
  by_cases hnone : (consume wanted c).error = none
  · simp only [awaitRound, if_pos hnone, compact_remaining]
    exact ⟨hreplies, hwanted, herror, hrest, fun _ => congrArg (⟨·, 0⟩ : Bytes → Connection) hrest⟩
  · simp only [awaitRound, if_neg hnone]
    exact ⟨hreplies, hwanted, herror, hrest, fun h => absurd (herror.trans h) hnone⟩

/-- The bytes that `recv` has returned. -/
def received : List RecvAnswer → Bytes
  | [] => []
  | .received chunk :: answers => chunk ++ received answers
  | _ :: answers => received answers

theorem received_cons (answer : RecvAnswer) (answers : List RecvAnswer) :
    received (answer :: answers) = received [answer] ++ received answers := by
  cases answer <;> simp [received]

/-- `await_replies` on a connection: the answers of `recv` that it has used, and what it has made of
the bytes. -/
structure AwaitSpec (answers : List RecvAnswer) (wanted : ℕ) (c : Connection) (a : Awaiting)
    (used : List RecvAnswer) : Prop where
  split : answers = used ++ a.unread
  replies : a.replies = (takeValues parse wanted (c.remaining ++ received used)).values
  remaining : a.connection.remaining = (takeValues parse wanted (c.remaining ++ received used)).rest
  replied : a.status = .replied ↔ (takeValues parse wanted (c.remaining ++ received used)).wanted = 0
  malformed : ∀ e, a.status = .malformed e ↔
    (takeValues parse wanted (c.remaining ++ received used)).error = some e
  disconnected : a.status = .disconnected → .ended ∈ used
  blocked : a.status = .blocked → a.unread = []
  needed : ∀ before answer later, used = before ++ answer :: later →
    (takeValues parse wanted (c.remaining ++ received before)).Blocked

/-- Without an answer of `recv` the reader does what the bytes in its buffer allow. -/
theorem awaitSpec_round {answers : List RecvAnswer} {wanted : ℕ} {c : Connection} {a : Awaiting}
    (hreplies : a.replies = (takeValues parse wanted c.remaining).values)
    (hremaining : a.connection.remaining = (takeValues parse wanted c.remaining).rest)
    (hunread : a.unread = answers)
    (hreplied : a.status = .replied ↔ (takeValues parse wanted c.remaining).wanted = 0)
    (hmalformed : ∀ e, a.status = .malformed e ↔
      (takeValues parse wanted c.remaining).error = some e)
    (hdisconnected : a.status ≠ .disconnected) (hblocked : a.status = .blocked → answers = []) :
    AwaitSpec answers wanted c a [] where
  split := hunread.symm
  replies := by rwa [received, List.append_nil]
  remaining := by rwa [received, List.append_nil]
  replied := by rwa [received, List.append_nil]
  malformed := by rwa [received, List.append_nil]
  disconnected h := absurd h hdisconnected
  blocked h := hunread.trans (hblocked h)
  needed before answer later h := by simp at h

/-- After an answer of `recv` the reader goes on with what it has left, and the bytes of the answer. -/
theorem AwaitSpec.cons {answer : RecvAnswer} {answers used : List RecvAnswer} {wanted : ℕ}
    {c c' : Connection} {a : Awaiting} (hblocked : (takeValues parse wanted c.remaining).Blocked)
    (hc' : c'.remaining = (takeValues parse wanted c.remaining).rest ++ received [answer])
    (h : AwaitSpec answers (takeValues parse wanted c.remaining).wanted c' a used) :
    AwaitSpec (answer :: answers) wanted c (a.after (takeValues parse wanted c.remaining).values)
      (answer :: used) := by
  have happend : ∀ rest : List RecvAnswer,
      takeValues parse wanted (c.remaining ++ received (answer :: rest)) =
        (takeValues parse (takeValues parse wanted c.remaining).wanted
          (c'.remaining ++ received rest)).after (takeValues parse wanted c.remaining).values := by
    intro rest
    rw [received_cons, takeValues_append parse_stable hblocked.1, hc', List.append_assoc]
  refine ⟨congrArg (answer :: ·) h.split, ?_, ?_, ?_, ?_, ?_, h.blocked, ?_⟩
  · rw [happend]
    exact congrArg _ h.replies
  · rw [happend]
    exact h.remaining
  · rw [happend]
    exact h.replied
  · rw [happend]
    exact h.malformed
  · exact fun hstatus => List.mem_cons_of_mem _ (h.disconnected hstatus)
  · intro before answer' later hused
    cases before with
    | nil => rwa [received, List.append_nil]
    | cons first before =>
      obtain ⟨rfl, htail⟩ := List.cons.inj hused
      rw [happend]
      exact h.needed before answer' later htail

theorem awaitSpec_unread {wanted : ℕ} {c : Connection}
    (h : ¬ (takeValues parse wanted c.remaining).Blocked) (answers : List RecvAnswer) :
    AwaitSpec answers wanted c (awaitReplies answers wanted c) [] := by
  obtain ⟨hreplies, hwanted, herror, hremaining, -⟩ := awaitRound_eq wanted c
  by_cases hnothing : wanted = 0
  · subst hnothing
    unfold awaitReplies
    exact awaitSpec_round rfl rfl rfl (by simp [takeValues_zero]) (by simp [takeValues_zero]) nofun
      nofun
  · unfold awaitReplies
    rw [if_neg hnothing]
    cases he : (takeValues parse wanted c.remaining).error with
    | some e =>
      have hstill : (takeValues parse wanted c.remaining).wanted ≠ 0 := by
        intro hsatisfied
        rw [takeValues_satisfied hsatisfied] at he
        cases he
      simp only [herror, he]
      exact awaitSpec_round hreplies hremaining rfl (by simpa using hstill) (by simp [he]) nofun nofun
    | none =>
      have hsatisfied : (takeValues parse wanted c.remaining).wanted = 0 := by
        by_contra hstill
        exact h ⟨he, Nat.pos_of_ne_zero hstill⟩
      simp only [herror, he, hwanted, hsatisfied, if_true]
      exact awaitSpec_round hreplies hremaining rfl (by simpa using hsatisfied) (by simp [he]) nofun
        nofun

/-- If it has to wait, it calls `recv`. -/
theorem awaitReplies_waits {wanted : ℕ} {c : Connection}
    (h : (takeValues parse wanted c.remaining).Blocked) (answers : List RecvAnswer) :
    let t := takeValues parse wanted c.remaining
    awaitReplies answers wanted c =
      match answers with
      | [] => ⟨⟨t.rest, 0⟩, t.values, .blocked, []⟩
      | .received chunk :: answers =>
        (awaitReplies answers t.wanted (Connection.receive chunk ⟨t.rest, 0⟩)).after t.values
      | .interrupted :: answers => (awaitReplies answers t.wanted ⟨t.rest, 0⟩).after t.values
      | .ended :: answers => ⟨⟨t.rest, 0⟩, t.values, .disconnected, answers⟩ := by
  obtain ⟨hreplies, hwanted, herror, -, hconnection⟩ := awaitRound_eq wanted c
  have hnothing : wanted ≠ 0 := by
    rintro rfl
    exact absurd h.2 (Nat.lt_irrefl 0)
  intro t
  conv_lhs => unfold awaitReplies
  rw [if_neg hnothing]
  simp only [herror, h.1, hwanted, if_neg h.2.ne', hreplies, hconnection h.1]
  rfl

/-- Whatever `recv` answers, `await_replies` takes the first replies of the bytes that it has received,
leaves the bytes after them where they are, and calls `recv` only when the bytes before do not hold the
replies that it wants; it succeeds exactly when they all have come. -/
theorem awaitReplies_spec (answers : List RecvAnswer) (wanted : ℕ) (c : Connection) :
    ∃ used, AwaitSpec answers wanted c (awaitReplies answers wanted c) used := by
  induction answers generalizing wanted c with
  | nil =>
    by_cases hblocked : (takeValues parse wanted c.remaining).Blocked
    · refine ⟨[], ?_⟩
      rw [awaitReplies_waits hblocked]
      exact awaitSpec_round rfl rfl rfl (by simpa using hblocked.2.ne') (by simp [hblocked.1]) nofun
        fun _ => rfl
    · exact ⟨[], awaitSpec_unread hblocked []⟩
  | cons answer answers ih =>
    by_cases hblocked : (takeValues parse wanted c.remaining).Blocked
    · set t := takeValues parse wanted c.remaining with ht
      rw [awaitReplies_waits hblocked]
      cases answer with
      | received chunk =>
        obtain ⟨used, hspec⟩ := ih t.wanted (Connection.receive chunk ⟨t.rest, 0⟩)
        refine ⟨.received chunk :: used, .cons hblocked ?_ hspec⟩
        have hchunk : received [.received chunk] = chunk := List.append_nil chunk
        rw [hchunk]
        rfl
      | interrupted =>
        obtain ⟨used, hspec⟩ := ih t.wanted ⟨t.rest, 0⟩
        refine ⟨.interrupted :: used, .cons hblocked ?_ hspec⟩
        exact (List.append_nil t.rest).symm
      | ended =>
        have hnothing : c.remaining ++ received [.ended] = c.remaining := List.append_nil _
        refine ⟨[.ended], rfl, ?_, ?_, ?_, ?_, fun _ => List.mem_cons_self, nofun, ?_⟩
        · rw [hnothing]
        · rw [hnothing]
          rfl
        · rw [hnothing, ← ht]
          simpa using hblocked.2.ne'
        · rw [hnothing, ← ht, hblocked.1]
          simp
        · intro before answer later hused
          cases before with
          | nil =>
            rw [received, List.append_nil]
            exact hblocked
          | cons first before => simp at hused
    · exact ⟨[], awaitSpec_unread hblocked _⟩

section Stages
variable {wanted : ℕ} {batch : ℤ} {c : Client}

/-- The replies have all come: the loop goes on to the next batch. -/
theorem await_satisfied (h : (takeValues parse wanted c.connection.remaining).wanted = 0) :
    let c' := c.await wanted batch
    c'.sent = c.sent + batch ∧ c'.stage = .batching ∧
      c'.replies = c.replies ++ (takeValues parse wanted c.connection.remaining).values ∧
      c'.connection.remaining = (takeValues parse wanted c.connection.remaining).rest ∧
      (c.connection.parsed = 0 → c'.connection.parsed = 0) := by
  by_cases hnothing : wanted = 0
  · subst hnothing
    simp [Client.await, takeValues_zero]
  · obtain ⟨hreplies, hwanted, herror, hremaining, hconnection⟩ := awaitRound_eq wanted c.connection
    have hnone : (awaitRound wanted c.connection).error = none :=
      herror.trans (takeValues_satisfied h)
    have hawait : c.await wanted batch =
        { sent := c.sent + batch
          connection := (awaitRound wanted c.connection).connection
          stage := .batching
          replies := c.replies ++ (awaitRound wanted c.connection).replies } := by
      simp [Client.await, hnothing, hnone, hwanted, h]
    rw [hawait]
    refine ⟨rfl, rfl, congrArg _ hreplies, hremaining, fun _ => ?_⟩
    exact congrArg Connection.parsed (hconnection (takeValues_satisfied h))

/-- Some have not: the loop waits for the kernel. -/
theorem await_blocked (h : (takeValues parse wanted c.connection.remaining).Blocked) :
    let t := takeValues parse wanted c.connection.remaining
    c.await wanted batch = { c with
      connection := ⟨t.rest, 0⟩
      replies := c.replies ++ t.values
      stage := .awaiting t.wanted batch } := by
  unfold Client.await
  have hnothing : wanted ≠ 0 := by
    rintro rfl
    exact absurd h.2 (Nat.lt_irrefl 0)
  obtain ⟨hreplies, hwanted, herror, -, hconnection⟩ := awaitRound_eq wanted c.connection
  simp only [if_neg hnothing, herror.trans h.1, ne_eq, not_true_eq_false, if_false, hwanted,
    if_neg h.2.ne', hreplies, hconnection h.1]

theorem await_malformed {e : Bytes}
    (h : (takeValues parse wanted c.connection.remaining).error = some e) :
    c.await wanted batch = { c with
      connection := (awaitRound wanted c.connection).connection
      replies := c.replies ++ (takeValues parse wanted c.connection.remaining).values
      stage := .failed } := by
  unfold Client.await
  have hnothing : wanted ≠ 0 := by
    rintro rfl
    cases h
  obtain ⟨hreplies, -, herror, -, -⟩ := awaitRound_eq wanted c.connection
  simp [if_neg hnothing, herror.trans h, hreplies]

end Stages

def RecvAnswer.input : RecvAnswer → Input
  | .received chunk => .received chunk
  | .interrupted => .interrupted
  | .ended => .failed

/-- A loop that is at the end of its batch, or has failed, does not look at answers of `recv`. -/
theorem final_ignores (w : Workload) {c : Client} (h : c.stage = .batching ∨ c.stage = .failed)
    (answers : List RecvAnswer) :
    final (step w) (answers.map RecvAnswer.input) c = c := by
  induction answers with
  | nil => rfl
  | cons answer answers ih =>
    have hsame : next w answer.input c = c := by
      unfold next
      rcases h with h | h
      · rw [h]
        cases answer <;> rfl
      · rw [h]
    rw [List.map_cons, final_cons, step, hsame]
    exact ih

/-- The stages of a loop go through `await_replies`. -/
structure Awaited (c : Client) (batch : ℤ) (a : Awaiting) (c' : Client) : Prop where
  replies : c'.replies = c.replies ++ a.replies
  remaining : c'.connection.remaining = a.connection.remaining
  replied : a.status = .replied → c'.stage = .batching ∧ c'.sent = c.sent + batch
  blocked : a.status = .blocked → ∃ wanted, c'.stage = .awaiting wanted batch
  failed : a.status = .disconnected ∨ (∃ e, a.status = .malformed e) → c'.stage = .failed

theorem Awaited.after {c : Client} {batch : ℤ} {a : Awaiting} {c' : Client}
    {replies : List RespValue} {connection : Connection} {stage : Stage}
    (h : Awaited { c with connection := connection, replies := c.replies ++ replies, stage := stage }
      batch a c') : Awaited c batch (a.after replies) c' where
  replies := by rw [h.replies, Awaiting.after, List.append_assoc]
  remaining := h.remaining
  replied := h.replied
  blocked := h.blocked
  failed := h.failed

theorem awaited_unread {wanted : ℕ} {batch : ℤ} {c : Client}
    (h : ¬ (takeValues parse wanted c.connection.remaining).Blocked) (w : Workload)
    (answers : List RecvAnswer) :
    Awaited c batch (awaitReplies answers wanted c.connection)
      (final (step w) (answers.map RecvAnswer.input) (c.await wanted batch)) := by
  have hspec := awaitSpec_unread h answers
  have hreplies := hspec.replies
  have hremaining := hspec.remaining
  have hreplied := hspec.replied
  have hmalformed := hspec.malformed
  rw [received, List.append_nil] at hreplies hremaining hreplied hmalformed
  by_cases hsatisfied : (takeValues parse wanted c.connection.remaining).wanted = 0
  · obtain ⟨hsent, hstage, hparsed, hrest, -⟩ := @await_satisfied wanted batch c hsatisfied
    have hstatus := hreplied.mpr hsatisfied
    rw [final_ignores w (.inl hstage)]
    exact ⟨by rw [hparsed, hreplies], hrest.trans hremaining.symm, fun _ => ⟨hstage, hsent⟩,
      by simp [hstatus], by simp [hstatus]⟩
  · cases he : (takeValues parse wanted c.connection.remaining).error with
    | none => exact absurd ⟨he, Nat.pos_of_ne_zero hsatisfied⟩ h
    | some e =>
      have hstatus := (hmalformed e).mpr he
      rw [await_malformed he, final_ignores w (.inr rfl)]
      have hrest := (awaitRound_eq wanted c.connection).2.2.2.1
      exact ⟨congrArg _ hreplies.symm, hrest.trans hremaining.symm, by simp [hstatus],
        by simp [hstatus], fun _ => rfl⟩

/-- The answers of `recv`, taken one by one by the stages of a loop, do what `await_replies` does with
them. -/
theorem stages_await (w : Workload) (answers : List RecvAnswer) (wanted : ℕ) (batch : ℤ) (c : Client) :
    Awaited c batch (awaitReplies answers wanted c.connection)
      (final (step w) (answers.map RecvAnswer.input) (c.await wanted batch)) := by
  induction answers generalizing wanted c with
  | nil =>
    by_cases hblocked : (takeValues parse wanted c.connection.remaining).Blocked
    · rw [awaitReplies_waits hblocked, await_blocked hblocked]
      exact ⟨rfl, rfl, nofun, fun _ => ⟨_, rfl⟩, by simp⟩
    · exact awaited_unread hblocked w []
  | cons answer answers ih =>
    by_cases hblocked : (takeValues parse wanted c.connection.remaining).Blocked
    · rw [awaitReplies_waits hblocked, await_blocked hblocked, List.map_cons, final_cons]
      cases answer with
      | received chunk => exact (ih _ _).after
      | interrupted => exact (ih _ _).after
      | ended =>
        set t := takeValues parse wanted c.connection.remaining
        have hfailed : final (step w) (answers.map RecvAnswer.input)
            (step w RecvAnswer.ended.input { c with
              connection := ⟨t.rest, 0⟩, replies := c.replies ++ t.values,
              stage := .awaiting t.wanted batch }).2 = { c with
              connection := ⟨t.rest, 0⟩, replies := c.replies ++ t.values, stage := .failed } :=
          final_ignores w (.inr rfl) answers
        rw [hfailed]
        exact ⟨rfl, rfl, nofun, nofun, fun _ => rfl⟩
    · exact awaited_unread hblocked w _

section Depth
variable {request : RequestFor} {keyPrefix : Bytes} {ops depth : ℤ}

structure Spinning (c : Client) : Prop where
  sent : c.sent = 0
  stage : c.stage = .batching ∨ c.stage = .sending [] 0 0
  replies : c.replies = []

theorem spinning_step (hops : 0 < ops) (i : Input) {c : Client} (h : Spinning c) :
    Spinning (step (runPipelined request keyPrefix ops 0) i c).2 := by
  have hstep := clientStep (runPipelined request keyPrefix ops 0) i c
  have hsize : (runPipelined request keyPrefix ops 0).batchSize c.sent = 0 := by
    rw [h.sent]
    exact min_eq_left (by omega)
  have hbusy : c.stage ≠ .batching → c.stage = .sending [] 0 0 := h.stage.resolve_left
  generalize (step (runPipelined request keyPrefix ops 0) i c).2 = c' at hstep
  cases hstep with
  | batch hstage hmore =>
    refine ⟨h.sent, .inr ?_, h.replies⟩
    rw [hsize]
    rfl
  | finish hstage hlast =>
    rw [h.sent] at hlast
    exact absurd hlast (Int.not_le.mpr hops)
  | sent hstage hall =>
    have hempty := hbusy (by simp [hstage])
    rw [hstage] at hempty
    cases hempty
    have hawait : c.await (Int.toNat 0) 0 = { c with sent := c.sent + 0, stage := .batching } := rfl
    rw [hawait, add_zero]
    exact ⟨h.sent, .inl rfl, h.replies⟩
  | wrote hstage hsome =>
    have hempty := hbusy (by simp [hstage])
    rw [hstage] at hempty
    cases hempty
    exact absurd hsome (Nat.not_lt_zero _)
  | received hstage => simp [hstage] at hbusy
  | again hstage => simp [hstage] at hbusy
  | broken hcalls =>
    rcases hcalls with ⟨payload, sent, batch, hstage, hsome⟩ | ⟨wanted, batch, hstage⟩
    · have hempty := hbusy (by simp [hstage])
      rw [hstage] at hempty
      cases hempty
      exact absurd hsome (Nat.not_lt_zero _)
    · simp [hstage] at hbusy
  | idle => exact h

/-- What the kernel may answer in a round of the loop. -/
def roundInputs (w : Workload) (sent : ℤ) : List Input :=
  [.proceed, .wrote (w.payload sent (w.batchSize sent)).length, .proceed,
    .received ((List.replicate (w.batchSize sent).toNat (makeInteger 0)).flatMap serialize)]

theorem round_run {w : Workload} {c : Client} (hstage : c.stage = .batching) (hmore : c.sent < w.ops)
    (hbatch : 0 < w.batchSize c.sent) (hempty : c.connection = {}) :
    let c' := final (step w) (roundInputs w c.sent) c
    c'.stage = .batching ∧ c'.sent = c.sent + w.batchSize c.sent ∧ c'.connection = {} := by
  set batch := w.batchSize c.sent with hbatch'
  set payload := w.payload c.sent batch with hpayload
  have hcount : 0 < batch.toNat := by omega
  have hassembled : next w .proceed c = { c with stage := .sending payload 0 batch } := by
    simp [next, hstage, hmore, hpayload, hbatch']
  have hwritten : next w (.wrote payload.length) { c with stage := .sending payload 0 batch } =
      { c with stage := .sending payload payload.length batch } := by
    rcases Nat.eq_zero_or_pos payload.length with hnothing | hsome
    · simp [next, hnothing]
    · simp [next, hsome]
  have hblocked : (takeValues parse batch.toNat []).Blocked := by
    rw [takeValues_incomplete parse_nil]
    exact ⟨rfl, hcount⟩
  have hwaiting : next w .proceed { c with stage := .sending payload payload.length batch } =
      { c with stage := .awaiting batch.toNat batch } := by
    have hawait := @await_blocked batch.toNat batch
      { c with stage := .sending payload payload.length batch } (by rw [hempty]; exact hblocked)
    simp only [next, lt_irrefl, if_false, if_true, hawait]
    simp [hempty, Connection.remaining, takeValues_incomplete parse_nil]
  have hframed : ∀ v ∈ List.replicate batch.toNat (makeInteger 0), ∀ t,
      parse (serialize v ++ t) = .ok v (serialize v).length := by
    intro v hv t
    rw [List.eq_of_mem_replicate hv]
    exact (framed_integer (by decide)).parse t
  have htaken := takeValues_all hframed
  rw [List.length_replicate] at htaken
  set bytes := (List.replicate batch.toNat (makeInteger 0)).flatMap serialize
  have hreceived : { c with
      connection := c.connection.receive bytes
      stage := .awaiting batch.toNat batch }.connection.remaining = bytes := by
    simp [hempty, Connection.receive, Connection.remaining]
  obtain ⟨hsent, hnext, -, hrest, hparsed⟩ := @await_satisfied batch.toNat batch
    { c with connection := c.connection.receive bytes, stage := .awaiting batch.toNat batch }
    (by rw [hreceived, htaken])
  have hround : final (step w) (roundInputs w c.sent) c =
      { c with connection := c.connection.receive bytes, stage := .awaiting batch.toNat batch }.await
        batch.toNat batch := by
    simp only [roundInputs, final_cons, final_nil, step, ← hbatch', ← hpayload, hassembled, hwritten,
      hwaiting]
    rfl
  rw [hround]
  refine ⟨hnext, hsent, ?_⟩
  rw [hreceived, htaken] at hrest
  have hcompacted := hparsed (by rw [hempty]; rfl)
  generalize Client.await _ _ _ = c' at hrest hcompacted ⊢
  obtain ⟨sent', ⟨incoming, parsed⟩, stage', replies'⟩ := c'
  dsimp only at hcompacted
  subst hcompacted
  exact congrArg (⟨·, 0⟩ : Bytes → Connection) hrest

theorem finishes {w : Workload} (hw : ∀ sent, 0 ≤ sent → sent < w.ops → 0 < w.batchSize sent)
    (n : ℕ) {c : Client} (hstage : c.stage = .batching) (hsent : 0 ≤ c.sent)
    (hn : w.ops - c.sent ≤ n) (hempty : c.connection = {}) :
    ∃ inputs, (final (step w) inputs c).stage = .finished := by
  induction n generalizing c with
  | zero =>
    refine ⟨[.proceed], ?_⟩
    have hlast : ¬ c.sent < w.ops := by omega
    simp [step, next, hstage, hlast]
  | succ n ih =>
    by_cases hmore : c.sent < w.ops
    · have hbatch := hw c.sent hsent hmore
      obtain ⟨hstage', hsent', hempty'⟩ := round_run hstage hmore hbatch hempty
      obtain ⟨inputs, hfinished⟩ := ih hstage' (by omega) (by omega) hempty'
      exact ⟨roundInputs w c.sent ++ inputs, by rwa [final_append]⟩
    · refine ⟨[.proceed], ?_⟩
      simp [step, next, hstage, hmore]

/-- With a depth that is not negative the pipelined loop can come to its end exactly if the depth is
positive or there is nothing to send. With depth zero it never even sends a byte. -/
theorem pipeline_finishes_iff (hdepth : 0 ≤ depth) :
    ((∃ inputs, (final (step (runPipelined request keyPrefix ops depth)) inputs {}).stage =
        .finished) ↔ 0 < depth ∨ ops ≤ 0) ∧
      (depth = 0 → 0 < ops → ∀ inputs,
        Spinning (final (step (runPipelined request keyPrefix ops depth)) inputs {})) := by
  have hspins : depth = 0 → 0 < ops → ∀ inputs,
      Spinning (final (step (runPipelined request keyPrefix ops depth)) inputs {}) := by
    rintro rfl hops inputs
    exact final_keeps (fun i _ h => spinning_step hops i h) ⟨rfl, .inl rfl, rfl⟩ inputs
  refine ⟨⟨fun ⟨inputs, hfinished⟩ => ?_, fun h => ?_⟩, hspins⟩
  · by_contra hnot
    have hstage := (hspins (by omega) (by omega) inputs).stage
    simp [hfinished] at hstage
  · rcases h with hpositive | hnothing
    · refine finishes (fun sent _ hmore => ?_) ops.toNat rfl le_rfl ?_ rfl
      · change 0 < min depth (ops - sent)
        change sent < ops at hmore
        omega
      · change ops - 0 ≤ ops.toNat
        omega
    · refine ⟨[.proceed], ?_⟩
      have hlast : ¬ (0 : ℤ) < ops := by omega
      simp [step, next, runPipelined, hlast]

end Depth

/-- `--pipeline 0` is accepted, and the client never gets past its warm-up. -/
theorem warmup_spins : ((∃ inputs, (final (step (runPipelined (fun _ _ => encode [text "PING"])
      (text "warmup") 2000 0)) inputs {}).stage = .finished) ↔ (0 : ℤ) < 0 ∨ (2000 : ℤ) ≤ 0) ∧
    ((0 : ℤ) = 0 → (0 : ℤ) < 2000 → ∀ inputs, Spinning (final (step (runPipelined
      (fun _ _ => encode [text "PING"]) (text "warmup") 2000 0)) inputs {})) :=
  pipeline_finishes_iff le_rfl

end RedisLite.Benchmark
