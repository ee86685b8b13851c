import Mathlib.Data.List.Flatten
import Mathlib.Logic.Relation
import RedisLite.BenchmarkClient
import RedisLite.LiveConnections

/-!
# A client and the server

The client of the benchmark is one of the clients of the event loop. Between the two the kernel holds
the bytes that one side has sent and the other has not received. In whatever pieces the bytes go, and
whatever the server does meanwhile for the other clients, the connection stays open as long as no call
on it fails, each request is executed once, in order, and the client reads the replies to its own
requests.
-/

namespace RedisLite.Benchmark
open ByteStrings Resp IncrementalDecoding Keyspace Commands Replay Operations EventLoop Relation

/-- The server, the client on the other end of one of its connections, and the bytes that are on their
way. -/
structure System where
  server : Server
  client : Client
  toServer : Bytes := []
  toClient : Bytes := []

/-- The client goes on, writes or reads; or the server takes a step in which no call on the connection
fails. What it reads of the connection has been sent to it, and what it sends is on its way. -/
inductive Move (w : Workload) (fd : ℕ) : System → System → Prop
  | proceed (σ : System) : Move w fd σ { σ with client := (step w .proceed σ.client).2 }
  | interrupted (σ : System) : Move w fd σ { σ with client := (step w .interrupted σ.client).2 }
  | write {σ : System} {payload : Bytes} {sent : ℕ} {batch : ℤ} {count : ℕ}
      (hstage : σ.client.stage = .sending payload sent batch)
      (hcount : sent + count ≤ payload.length) :
      Move w fd σ { σ with
        client := (step w (.wrote count) σ.client).2
        toServer := σ.toServer ++ (payload.drop sent).take count }
  | read {σ : System} {wanted : ℕ} {batch : ℤ} {chunk rest : Bytes}
      (hstage : σ.client.stage = .awaiting wanted batch) (hchunk : chunk ≠ [])
      (harrived : σ.toClient = chunk ++ rest) :
      Move w fd σ { σ with
        client := (step w (.received chunk) σ.client).2
        toClient := rest }
  | serve {σ : System} {i : EventLoop.Input} {taken rest given : Bytes}
      (hcalls : Untroubled fd i σ.server) (hfresh : AcceptsFresh i σ.server)
      (hheld : Held i σ.server) (harrived : σ.toServer = taken ++ rest)
      (htaken : (ledger fd (EventLoop.step i σ.server).2.trace).received =
        (ledger fd σ.server.trace).received ++ taken)
      (hgiven : (ledger fd (EventLoop.step i σ.server).2.trace).sent =
        (ledger fd σ.server.trace).sent ++ given) :
      Move w fd σ { σ with
        server := (EventLoop.step i σ.server).2
        toServer := rest
        toClient := σ.toClient ++ given }

structure Starts (fd : ℕ) (σ : System) : Prop where
  fresh : Fresh fd σ.server
  standing : Standing fd σ.server
  client : σ.client = {}
  toServer : σ.toServer = []
  toClient : σ.toClient = []

/-- Every request is an array of strings that the server can answer in one line, and a batch has at
least one request, no more than are left, and no more bytes than the server takes for one request. -/
structure Workload.Proper (w : Workload) (words : ℕ → List Bytes) : Prop where
  request : ∀ i : ℕ, i < w.ops → w.request i = encode (words i)
  fits : ∀ i : ℕ, i < w.ops → RequestFits (words i)
  line : ∀ i : ℕ, i < w.ops → ¬ BreaksLine (asRequest (words i))
  batch : ∀ sent, 0 ≤ sent → sent < w.ops → 0 < w.batchSize sent ∧ w.batchSize sent ≤ w.ops - sent
  small : ∀ sent, 0 ≤ sent → sent < w.ops →
    (w.payload sent (w.batchSize sent)).length ≤ kMaxRequestBytes

/-- The first requests of a workload. -/
def stream (words : ℕ → List Bytes) (n : ℕ) : List RespValue :=
  (List.range n).map fun i => asRequest (words i)

/-- The loop of `run_pipelined` sends proper batches as long as its depth is positive and no batch has
more bytes than the server takes. -/
theorem proper_pipelined {request : RequestFor} {keyPrefix : Bytes} {ops depth : ℤ}
    {words : ℕ → List Bytes} (hdepth : 0 < depth)
    (hrequest : ∀ i : ℕ, i < ops → request keyPrefix i = encode (words i))
    (hfits : ∀ i : ℕ, i < ops → RequestFits (words i))
    (hline : ∀ i : ℕ, i < ops → ¬ BreaksLine (asRequest (words i)))
    (hsmall : ∀ sent, 0 ≤ sent → sent < ops → ((runPipelined request keyPrefix ops depth).payload sent
      (min depth (ops - sent))).length ≤ kMaxRequestBytes) :
    (runPipelined request keyPrefix ops depth).Proper words where
  request := hrequest
  fits := hfits
  line := hline
  batch sent _ hmore := by
    change 0 < min depth (ops - sent) ∧ min depth (ops - sent) ≤ ops - sent
    change sent < ops at hmore
    omega
  small := hsmall

/-- The requests that the client has put in a payload. -/
def Client.issued (c : Client) : ℕ :=
  match c.stage with
  | .sending _ _ batch | .awaiting _ batch => (c.sent + batch).toNat
  | _ => c.sent.toNat

/-- The replies that are still to come. -/
def Client.owed (c : Client) : ℕ :=
  match c.stage with
  | .sending _ _ batch => batch.toNat
  | .awaiting wanted _ => wanted
  | _ => 0

def Client.unsent (c : Client) : Bytes :=
  match c.stage with
  | .sending payload sent _ => payload.drop sent
  | _ => []

structure Workload.Batch (w : Workload) (sent batch : ℤ) : Prop where
  start : 0 ≤ sent
  nonempty : 0 < batch
  ops : sent + batch ≤ w.ops
  size : batch = w.batchSize sent

inductive Paced (w : Workload) (c : Client) : Prop
  | batching (hstage : c.stage = .batching) (hsent : 0 ≤ c.sent) (hops : c.sent ≤ max w.ops 0)
  | sending {payload : Bytes} {sent : ℕ} {batch : ℤ} (hstage : c.stage = .sending payload sent batch)
      (hlength : sent ≤ payload.length) (hbatch : w.Batch c.sent batch)
  | awaiting {wanted : ℕ} {batch : ℤ} (hstage : c.stage = .awaiting wanted batch)
      (hwanted : 0 < wanted) (hmost : wanted ≤ batch) (hbatch : w.Batch c.sent batch)
      (hincomplete : parse c.connection.remaining = .incomplete)
  | finished (hstage : c.stage = .finished) (hsent : c.sent = max w.ops 0)

theorem Paced.of_batching {w : Workload} {c : Client} (h : Paced w c) (hstage : c.stage = .batching) :
    0 ≤ c.sent ∧ c.sent ≤ max w.ops 0 := by
  cases h with
  | batching _ hsent hops => exact ⟨hsent, hops⟩
  | sending h' => simp [hstage] at h'
  | awaiting h' => simp [hstage] at h'
  | finished h' => simp [hstage] at h'

theorem Paced.of_sending {w : Workload} {c : Client} {payload : Bytes} {sent : ℕ} {batch : ℤ}
    (h : Paced w c) (hstage : c.stage = .sending payload sent batch) :
    sent ≤ payload.length ∧ w.Batch c.sent batch := by
  cases h with
  | batching h' => simp [hstage] at h'
  | sending h' hlength hbatch =>
    rw [hstage] at h'
    cases h'
    exact ⟨hlength, hbatch⟩
  | awaiting h' => simp [hstage] at h'
  | finished h' => simp [hstage] at h'

theorem Paced.of_awaiting {w : Workload} {c : Client} {wanted : ℕ} {batch : ℤ} (h : Paced w c)
    (hstage : c.stage = .awaiting wanted batch) :
    0 < wanted ∧ wanted ≤ batch ∧ w.Batch c.sent batch ∧
      parse c.connection.remaining = .incomplete := by
  cases h with
  | batching h' => simp [hstage] at h'
  | sending h' => simp [hstage] at h'
  | awaiting h' hwanted hmost hbatch hincomplete =>
    rw [hstage] at h'
    cases h'
    exact ⟨hwanted, hmost, hbatch, hincomplete⟩
  | finished h' => simp [hstage] at h'

/-- Nothing is lost or done twice: of the requests that have been issued each byte is received, on its
way or not yet sent, and of the replies each byte is parsed, in the buffer, on its way or not yet
sent. -/
structure Coupled (words : ℕ → List Bytes) (fd issued owed : ℕ) (unsent : Bytes) (σ : System) :
    Prop where
  standing : Standing fd σ.server
  served : Served fd σ.server
  requests : (ledger fd σ.server.trace).received ++ (σ.toServer ++ unsent) =
    (stream words issued).flatMap serialize
  replies : (ledger fd σ.server.trace).sent =
    σ.client.replies.flatMap serialize ++ (σ.client.connection.remaining ++ σ.toClient)
  count : σ.client.replies.length + owed = issued
  answers : σ.client.replies <+: (ledger fd σ.server.trace).executed.map Prod.snd
  framed : ∀ e ∈ (ledger fd σ.server.trace).executed, Framed e.2
  compacted : σ.client.connection.parsed = 0

theorem Coupled.live {words : ℕ → List Bytes} {fd issued owed : ℕ} {unsent : Bytes} {σ : System}
    (h : Coupled words fd issued owed unsent σ) : Live fd σ.server := h.standing.live

section Streams
variable {w : Workload} {words : ℕ → List Bytes}

theorem stream_add (words : ℕ → List Bytes) (m n : ℕ) :
    stream words (m + n) =
      stream words m ++ (List.range n).map fun i => asRequest (words (m + i)) := by
  simp [stream, List.range_add, Function.comp_def]

theorem Workload.Proper.payload (h : w.Proper words) {sent batch : ℤ} (hsent : 0 ≤ sent)
    (hbatch : 0 ≤ batch) (hops : sent + batch ≤ w.ops) :
    (stream words sent.toNat).flatMap serialize ++ w.payload sent batch =
      (stream words (sent + batch).toNat).flatMap serialize := by
  have hnext : ∀ i ∈ List.range batch.toNat,
      w.request (sent + i) = serialize (asRequest (words (sent.toNat + i))) := by
    intro i hi
    have hlast := List.mem_range.mp hi
    have hindex : sent + i = ((sent.toNat + i : ℕ) : ℤ) := by omega
    rw [hindex, h.request _ (by omega), encode_eq]
  rw [Int.toNat_add hsent hbatch, stream_add, List.flatMap_append, Workload.payload,
    List.flatMap_congr hnext, List.flatMap_map]

theorem Workload.Proper.batch_bytes (h : w.Proper words) {sent batch : ℤ} (hsent : 0 ≤ sent)
    (hbatch : 0 ≤ batch) (hops : sent + batch ≤ w.ops) :
    ((stream words (sent + batch).toNat).drop sent.toNat).flatMap serialize =
      w.payload sent batch := by
  have hall := h.payload hsent hbatch hops
  have hfirst : (stream words sent.toNat).length = sent.toNat := by simp [stream]
  rw [Int.toNat_add hsent hbatch, stream_add, List.flatMap_append] at hall
  rw [Int.toNat_add hsent hbatch, stream_add, List.drop_left' hfirst]
  exact (List.append_cancel_left hall).symm

/-- The requests of a workload are read back from any part of their bytes. -/
theorem Workload.Proper.received (h : w.Proper words) {n : ℕ} (hops : (n : ℤ) ≤ max w.ops 0)
    {x y : Bytes} (hxy : x ++ y = (stream words n).flatMap serialize) :
    let d := drain parse x
    d.error = none ∧ d.values = (stream words n).take d.values.length ∧
      d.rest ++ y = ((stream words n).drop d.values.length).flatMap serialize := by
  refine drain_prefix parse_stable (fun v hv t => ?_) parse_nil hxy
  obtain ⟨i, hi, rfl⟩ := List.mem_map.mp hv
  have hlast := List.mem_range.mp hi
  have hfits := h.fits i (by omega)
  exact (framed_bulkStrings hfits.1 hfits.2).parse t

theorem Workload.Proper.line_of_mem (h : w.Proper words) {n : ℕ} (hops : (n : ℤ) ≤ max w.ops 0)
    {request : RespValue} (hmem : request ∈ stream words n) : ¬ BreaksLine request := by
  obtain ⟨i, hi, rfl⟩ := List.mem_map.mp hmem
  have hlast := List.mem_range.mp hi
  exact h.line i (by omega)

end Streams

section Coupled
variable {w : Workload} {words : ℕ → List Bytes} {fd issued owed : ℕ} {unsent : Bytes} {σ : System}

/-- The bytes that the client has not parsed are those of the replies that it has not parsed. -/
theorem Coupled.pending (h : Coupled words fd issued owed unsent σ) :
    σ.client.connection.remaining ++ (σ.toClient ++ σ.server.output.getD fd []) =
      (((ledger fd σ.server.trace).executed.map Prod.snd).drop σ.client.replies.length).flatMap
        serialize := by
  have hflow := (h.served.current h.live).output
  obtain ⟨later, hlater⟩ := h.answers
  have hall : serializedReplies (ledger fd σ.server.trace).executed =
      ((ledger fd σ.server.trace).executed.map Prod.snd).flatMap serialize := by
    rw [serializedReplies, List.flatMap_map]
  rw [hall, h.replies, ← hlater, List.flatMap_append] at hflow
  rw [← hlater, List.drop_left]
  simpa only [List.append_assoc, List.append_cancel_left_eq] using hflow

theorem Coupled.readable (h : Coupled words fd issued owed unsent σ) {reply : RespValue}
    (hmem : reply ∈ ((ledger fd σ.server.trace).executed.map Prod.snd).drop
      σ.client.replies.length) (t : Bytes) :
    parse (serialize reply ++ t) = .ok reply (serialize reply).length := by
  obtain ⟨e, he, rfl⟩ := List.mem_map.mp (List.drop_subset _ _ hmem)
  exact (h.framed e he).parse t

/-- What the client takes from its buffer are the next replies. -/
theorem Coupled.taken (h : Coupled words fd issued owed unsent σ) (wanted : ℕ) :
    let t := takeValues parse wanted σ.client.connection.remaining
    t.error = none ∧
      σ.client.replies ++ t.values <+: (ledger fd σ.server.trace).executed.map Prod.snd ∧
      σ.client.connection.remaining = t.values.flatMap serialize ++ t.rest := by
  intro t
  obtain ⟨herror, hvalues, hrest⟩ := takeValues_prefix parse_stable (fun _ hv => h.readable hv)
    parse_nil h.pending wanted
  refine ⟨herror, ?_, ?_⟩
  · obtain ⟨later, hlater⟩ := h.answers
    rw [← hlater, List.drop_left] at hvalues
    rw [← hlater, List.prefix_append_right_inj, hvalues]
    exact List.take_prefix _ _
  · have hall := h.pending
    rw [← List.take_append_drop t.values.length (List.drop _ _), List.flatMap_append, ← hvalues,
      ← hrest] at hall
    exact List.append_cancel_right (hall.trans (List.append_assoc ..).symm)

/-- Only what the client has, and the bytes on their way to it, are different. -/
theorem Coupled.withClient (h : Coupled words fd issued owed unsent σ) {c : Client} {owed' : ℕ}
    {toClient : Bytes} (hcount : c.replies.length + owed' = issued)
    (hreplies : c.replies.flatMap serialize ++ (c.connection.remaining ++ toClient) =
      σ.client.replies.flatMap serialize ++ (σ.client.connection.remaining ++ σ.toClient))
    (hanswers : c.replies <+: (ledger fd σ.server.trace).executed.map Prod.snd)
    (hcompacted : c.connection.parsed = 0) :
    Coupled words fd issued owed' unsent { σ with client := c, toClient := toClient } where
  standing := h.standing
  served := h.served
  requests := h.requests
  replies := h.replies.trans hreplies.symm
  count := hcount
  answers := hanswers
  framed := h.framed
  compacted := hcompacted

/-- In `await_replies` the client takes the replies that are there, and waits for the others. -/
theorem Coupled.await (h : Coupled words fd issued owed unsent σ) (batch : ℤ) :
    let c := σ.client.await owed batch
    ∃ wanted, wanted ≤ owed ∧ Coupled words fd issued wanted unsent { σ with client := c } ∧
      (wanted = 0 ∧ c.stage = .batching ∧ c.sent = σ.client.sent + batch ∨
        0 < wanted ∧ c.stage = .awaiting wanted batch ∧ c.sent = σ.client.sent ∧
          parse c.connection.remaining = .incomplete) := by
  intro c
  obtain ⟨herror, hanswers, hremaining⟩ := h.taken owed
  set t := takeValues parse owed σ.client.connection.remaining with ht
  have hcount : t.values.length + t.wanted = owed := takeValues_count owed _
  have htotal := h.count
  -- whether or not it has to wait, the client takes the same replies
  have hcoupled : c.replies = σ.client.replies ++ t.values → c.connection.remaining = t.rest →
      c.connection.parsed = 0 → Coupled words fd issued t.wanted unsent { σ with client := c } := by
    intro hreplies hrest hparsed
    refine h.withClient ?_ ?_ (hreplies ▸ hanswers) hparsed
    · rw [hreplies, List.length_append]
      omega
    · rw [hreplies, hrest, hremaining, List.flatMap_append]
      simp only [List.append_assoc]
  refine ⟨t.wanted, by omega, ?_⟩
  rcases Nat.eq_zero_or_pos t.wanted with hdone | hwaits
  · obtain ⟨hsent, hstage, hreplies, hrest, hparsed⟩ := @await_satisfied owed batch σ.client hdone
    exact ⟨hcoupled hreplies hrest (hparsed h.compacted), .inl ⟨hdone, hstage, hsent⟩⟩
  · have hawait := @await_blocked owed batch σ.client ⟨herror, hwaits⟩
    have hincomplete : parse t.rest = .incomplete := takeValues_blocked ⟨herror, hwaits⟩
    have hc : c = { σ.client with
        connection := ⟨t.rest, 0⟩
        replies := σ.client.replies ++ t.values
        stage := .awaiting t.wanted batch } := hawait
    clear_value c
    subst hc
    exact ⟨hcoupled rfl rfl rfl, .inr ⟨hwaits, rfl, rfl, hincomplete⟩⟩

end Coupled

structure InStep (w : Workload) (words : ℕ → List Bytes) (fd : ℕ) (σ : System) : Prop where
  paced : Paced w σ.client
  coupled : Coupled words fd σ.client.issued σ.client.owed σ.client.unsent σ

section Moves
variable {w : Workload} {words : ℕ → List Bytes} {fd : ℕ} {σ σ' : System}

theorem inStep_await {issued owed : ℕ} {batch : ℤ} (h : Coupled words fd issued owed [] σ)
    (hissued : issued = (σ.client.sent + batch).toNat) (hbatch : w.Batch σ.client.sent batch)
    (howed : owed ≤ batch) : InStep w words fd { σ with client := σ.client.await owed batch } := by
  obtain ⟨wanted, hwanted, hcoupled, hcase⟩ := h.await batch
  have hsent := hbatch.start
  have hnonempty := hbatch.nonempty
  have hops := hbatch.ops
  set c := σ.client.await owed batch
  rcases hcase with ⟨hdone, hstage, hc⟩ | ⟨hwaits, hstage, hc, hincomplete⟩
  · constructor
    · exact .batching hstage (hc ▸ by omega) (hc ▸ by omega)
    · simpa only [Client.issued, Client.owed, Client.unsent, hstage, hc, ← hissued, ← hdone]
        using hcoupled
  · constructor
    · exact .awaiting hstage hwaits (by omega) (hc ▸ hbatch) hincomplete
    · simpa only [Client.issued, Client.owed, Client.unsent, hstage, hc, ← hissued] using hcoupled

theorem InStep.batch (hw : w.Proper words) (h : InStep w words fd σ)
    (hstage : σ.client.stage = .batching) (hmore : σ.client.sent < w.ops) :
    InStep w words fd { σ with client := { σ.client with
      stage := .sending (w.payload σ.client.sent (w.batchSize σ.client.sent)) 0
        (w.batchSize σ.client.sent) } } := by
  obtain ⟨hsent, -⟩ := h.paced.of_batching hstage
  obtain ⟨hbatch, hleft⟩ := hw.batch σ.client.sent hsent hmore
  have hops : σ.client.sent + w.batchSize σ.client.sent ≤ w.ops := by omega
  have hissued := Int.toNat_add hsent hbatch.le
  have hcoupled := h.coupled
  simp only [Client.issued, Client.owed, Client.unsent, hstage] at hcoupled
  constructor
  · exact .sending rfl (Nat.zero_le _) ⟨hsent, hbatch, hops, rfl⟩
  · refine ⟨hcoupled.standing, hcoupled.served, ?_, hcoupled.replies, ?_, hcoupled.answers,
      hcoupled.framed, hcoupled.compacted⟩
    · have hbytes := hw.payload hsent hbatch.le hops
      rw [← hcoupled.requests] at hbytes
      simpa [Client.issued, Client.unsent] using hbytes
    · have hcount := hcoupled.count
      simp only [Client.issued, Client.owed]
      omega

theorem InStep.client (hw : w.Proper words) (h : InStep w words fd σ) {i : Input}
    (hi : i = .proceed ∨ i = .interrupted) :
    InStep w words fd { σ with client := (step w i σ.client).2 } := by
  have hstep := clientStep w i σ.client
  have hcoupled := h.coupled
  generalize (step w i σ.client).2 = c at hstep
  cases hstep with
  | batch hstage hmore => exact h.batch hw hstage hmore
  | finish hstage hlast =>
    obtain ⟨hsent, hops⟩ := h.paced.of_batching hstage
    simp only [Client.issued, Client.owed, Client.unsent, hstage] at hcoupled
    constructor
    · exact .finished rfl (by simp only; omega)
    · exact hcoupled.withClient hcoupled.count rfl hcoupled.answers hcoupled.compacted
  | sent hstage hall =>
    obtain ⟨-, hbatch⟩ := h.paced.of_sending hstage
    simp only [Client.issued, Client.owed, Client.unsent, hstage, List.drop_of_length_le hall]
      at hcoupled
    exact inStep_await hcoupled rfl hbatch (Int.toNat_of_nonneg hbatch.nonempty.le).le
  | again hstage =>
    obtain ⟨-, hmost, hbatch, -⟩ := h.paced.of_awaiting hstage
    simp only [Client.issued, Client.owed, Client.unsent, hstage] at hcoupled
    exact inStep_await hcoupled rfl hbatch hmost
  | wrote => simp at hi
  | received => simp at hi
  | broken => simp at hi
  | idle => exact h

theorem InStep.write (h : InStep w words fd σ) {payload : Bytes} {sent : ℕ} {batch : ℤ}
    {count : ℕ} (hstage : σ.client.stage = .sending payload sent batch)
    (hcount : sent + count ≤ payload.length) :
    InStep w words fd { σ with
      client := (step w (.wrote count) σ.client).2
      toServer := σ.toServer ++ (payload.drop sent).take count } := by
  have hstep := clientStep w (.wrote count) σ.client
  generalize (step w (.wrote count) σ.client).2 = c at hstep
  obtain ⟨-, hbatch⟩ := h.paced.of_sending hstage
  have hcoupled := h.coupled
  simp only [Client.issued, Client.owed, Client.unsent, hstage] at hcoupled
  cases hstep with
  | wrote hstage' hsome =>
    rw [hstage] at hstage'
    cases hstage'
    refine ⟨.sending rfl hcount hbatch, hcoupled.standing, hcoupled.served, ?_, hcoupled.replies,
      hcoupled.count, hcoupled.answers, hcoupled.framed, hcoupled.compacted⟩
    simp only [Client.issued, Client.unsent]
    rw [← hcoupled.requests, List.append_assoc, ← List.drop_drop, List.take_append_drop]
  | idle _ _ hwrites =>
    have hdone : payload.drop sent = [] := by
      refine List.drop_of_length_le (Nat.not_lt.mp fun hsome => ?_)
      exact hwrites _ _ _ count hstage hsome rfl
    rw [hdone, List.take_nil, List.append_nil]
    exact h

theorem InStep.read (h : InStep w words fd σ) {wanted : ℕ} {batch : ℤ} {chunk rest : Bytes}
    (hstage : σ.client.stage = .awaiting wanted batch) (harrived : σ.toClient = chunk ++ rest) :
    InStep w words fd { σ with
      client := (step w (.received chunk) σ.client).2
      toClient := rest } := by
  have hstep := clientStep w (.received chunk) σ.client
  generalize (step w (.received chunk) σ.client).2 = c at hstep
  obtain ⟨-, hmost, hbatch, -⟩ := h.paced.of_awaiting hstage
  have hcoupled := h.coupled
  simp only [Client.issued, Client.owed, Client.unsent, hstage] at hcoupled
  cases hstep with
  | received hstage' =>
    rw [hstage] at hstage'
    cases hstage'
    have hparsed := hcoupled.compacted
    have hreceived : Coupled words fd (σ.client.sent + batch).toNat wanted [] { σ with
        client := { σ.client with connection := σ.client.connection.receive chunk }
        toClient := rest } := by
      refine hcoupled.withClient hcoupled.count ?_ hcoupled.answers hparsed
      simp [Connection.receive, Connection.remaining, hparsed, harrived]
    exact inStep_await hreceived rfl hbatch hmost
  | idle _ hreads => exact absurd rfl (hreads _ _ chunk hstage)

theorem InStep.issued_le (h : InStep w words fd σ) : (σ.client.issued : ℤ) ≤ max w.ops 0 := by
  cases h.paced with
  | batching hstage hsent hops =>
    simp only [Client.issued, hstage]
    omega
  | sending hstage _ hbatch =>
    have hops := hbatch.ops
    simp only [Client.issued, hstage]
    omega
  | awaiting hstage _ _ hbatch =>
    have hops := hbatch.ops
    simp only [Client.issued, hstage]
    omega
  | finished hstage hsent =>
    simp only [Client.issued, hstage]
    omega

/-- The server has executed the first requests of the client, in their order. -/
theorem InStep.executed (hw : w.Proper words) (h : InStep w words fd σ) :
    let l := ledger fd σ.server.trace
    l.executed.map Prod.fst = (stream words σ.client.issued).take l.executed.length ∧
      σ.server.input.getD fd [] ++ (σ.toServer ++ σ.client.unsent) =
        ((stream words σ.client.issued).drop l.executed.length).flatMap serialize := by
  intro l
  obtain ⟨-, hvalues, hrest⟩ := hw.received h.issued_le h.coupled.requests
  have hrequests := h.coupled.served.faithful.requests
  have hlength : (drain parse l.received).values.length = l.executed.length := by
    rw [← hrequests, Ledger.requests, List.length_map]
  rw [hlength] at hvalues hrest
  rw [(h.coupled.served.current h.coupled.live).input]
  exact ⟨hrequests.trans hvalues, hrest⟩

/-- What the client has sent and the server has not executed belongs to one batch. -/
theorem InStep.small (hw : w.Proper words) (h : InStep w words fd σ) :
    (σ.server.input.getD fd [] ++ (σ.toServer ++ σ.client.unsent)).length ≤ kMaxRequestBytes := by
  have hleast := h.coupled.answers.length_le
  have hcount := h.coupled.count
  rw [List.length_map] at hleast
  rw [(h.executed hw).2]
  have hlater {k : ℕ} (hk : k ≤ (ledger fd σ.server.trace).executed.length) :=
    ((List.drop_sublist_drop_left (stream words σ.client.issued) hk).flatMap serialize).length_le
  have hidle (howed : σ.client.owed = 0) : (((stream words σ.client.issued).drop
      (ledger fd σ.server.trace).executed.length).flatMap serialize).length ≤ kMaxRequestBytes := by
    refine (hlater (k := σ.client.issued) (by omega)).trans ?_
    rw [List.drop_of_length_le (by simp [stream])]
    exact Nat.zero_le _
  have hbusy {batch : ℤ} (hbatch : w.Batch σ.client.sent batch)
      (hissued : σ.client.issued = (σ.client.sent + batch).toNat)
      (howed : (σ.client.owed : ℤ) ≤ batch) : (((stream words σ.client.issued).drop
      (ledger fd σ.server.trace).executed.length).flatMap serialize).length ≤ kMaxRequestBytes := by
    have hsent := hbatch.start
    have hnonempty := hbatch.nonempty
    have hops := hbatch.ops
    refine (hlater (k := σ.client.sent.toNat) (by omega)).trans ?_
    rw [hissued, hw.batch_bytes hsent hnonempty.le hops, hbatch.size]
    exact hw.small _ hsent (by omega)
  cases h.paced with
  | batching hstage => exact hidle (by simp [Client.owed, hstage])
  | finished hstage => exact hidle (by simp [Client.owed, hstage])
  | sending hstage _ hbatch =>
    have hnonempty := hbatch.nonempty
    refine hbusy hbatch (by simp [Client.issued, hstage]) ?_
    simp only [Client.owed, hstage]
    omega
  | awaiting hstage _ hmost hbatch =>
    refine hbusy hbatch (by simp [Client.issued, hstage]) ?_
    simpa only [Client.owed, hstage] using hmost

theorem InStep.serve (hw : w.Proper words) (h : InStep w words fd σ) {i : EventLoop.Input}
    {taken rest given : Bytes} (hcalls : Untroubled fd i σ.server)
    (hfresh : AcceptsFresh i σ.server) (hheld : Held i σ.server)
    (harrived : σ.toServer = taken ++ rest)
    (htaken : (ledger fd (EventLoop.step i σ.server).2.trace).received =
      (ledger fd σ.server.trace).received ++ taken)
    (hgiven : (ledger fd (EventLoop.step i σ.server).2.trace).sent =
      (ledger fd σ.server.trace).sent ++ given) :
    InStep w words fd { σ with
      server := (EventLoop.step i σ.server).2
      toServer := rest
      toClient := σ.toClient ++ given } := by
  have hcoupled := h.coupled
  have hall : ((ledger fd σ.server.trace).received ++ taken) ++ (rest ++ σ.client.unsent) =
      (stream words σ.client.issued).flatMap serialize := by
    rw [← hcoupled.requests, harrived]
    simp only [List.append_assoc]
  have hroom : (σ.server.input.getD fd [] ++ taken).length ≤ kMaxRequestBytes := by
    have hsmall := h.small hw
    rw [harrived] at hsmall
    simp only [List.length_append] at hsmall ⊢
    omega
  have hstanding := standing_step hcoupled.standing hcoupled.served hcalls htaken hroom
    (hw.received h.issued_le hall).1
  obtain ⟨hserved, -, -, later, hlater, hframed⟩ :=
    live_step hcoupled.served hcoupled.live hstanding.live hfresh hheld
  have hrequests : (ledger fd (EventLoop.step i σ.server).2.trace).received ++
      (rest ++ σ.client.unsent) = (stream words σ.client.issued).flatMap serialize := by
    rw [htaken]
    exact hall
  refine ⟨h.paced, hstanding, hserved, hrequests, ?_, hcoupled.count, ?_, ?_, hcoupled.compacted⟩
  · rw [hgiven, hcoupled.replies]
    simp only [List.append_assoc]
  · rw [hlater, List.map_append]
    exact hcoupled.answers.trans (List.prefix_append _ _)
  · intro e he
    have hmem : e.1 ∈ stream words σ.client.issued := by
      obtain ⟨-, hvalues, -⟩ := hw.received h.issued_le hrequests
      have hin : e.1 ∈ (ledger fd (EventLoop.step i σ.server).2.trace).requests :=
        List.mem_map_of_mem he
      rw [hserved.faithful.requests.trans hvalues] at hin
      exact List.take_subset _ _ hin
    rw [hlater] at he
    rcases List.mem_append.mp he with he | he
    · exact hcoupled.framed e he
    · exact hframed e he (hw.line_of_mem h.issued_le hmem)

theorem inStep_starts (h : Starts fd σ) : InStep w words fd σ := by
  obtain ⟨hfresh, hstanding, hclient, htoServer, htoClient⟩ := h
  refine ⟨?_, hstanding, hfresh.served, ?_, ?_, ?_, ?_, ?_, ?_⟩
  · rw [hclient]
    exact .batching rfl le_rfl (le_max_right _ _)
  · simp [hfresh.ledger, hclient, htoServer, Client.unsent, Client.issued, stream]
  · simp [hfresh.ledger, hclient, htoClient, Connection.remaining]
  · simp [hclient, Client.owed, Client.issued]
  · simp [hclient]
  · simp [hfresh.ledger]
  · simp [hclient]

theorem InStep.move (hw : w.Proper words) (h : InStep w words fd σ) (hmove : Move w fd σ σ') :
    InStep w words fd σ' := by
  cases hmove with
  | proceed => exact h.client hw (.inl rfl)
  | interrupted => exact h.client hw (.inr rfl)
  | write hstage hcount => exact h.write hstage hcount
  | read hstage _ harrived => exact h.read hstage harrived
  | serve hcalls hfresh hheld harrived htaken hgiven =>
    exact h.serve hw hcalls hfresh hheld harrived htaken hgiven

theorem inStep_run (hw : w.Proper words) (hstart : Starts fd σ)
    (hrun : ReflTransGen (Move w fd) σ σ') : InStep w words fd σ' := by
  induction hrun with
  | refl => exact inStep_starts hstart
  | tail _ hmove ih => exact ih.move hw hmove

/-- No more replies are outstanding than a batch has requests. -/
theorem InStep.owed_le (h : InStep w words fd σ) :
    (σ.client.owed : ℤ) ≤ max 0 (w.batchSize σ.client.sent) := by
  cases h.paced with
  | batching hstage => simp [Client.owed, hstage]
  | sending hstage _ hbatch =>
    have hnonempty := hbatch.nonempty
    rw [← hbatch.size]
    simp only [Client.owed, hstage]
    omega
  | awaiting hstage _ hmost hbatch =>
    rw [← hbatch.size]
    simp only [Client.owed, hstage]
    omega
  | finished hstage => simp [Client.owed, hstage]

theorem InStep.not_failed (h : InStep w words fd σ) : σ.client.stage ≠ .failed := by
  cases h.paced <;> simp [*]

theorem InStep.executed_length (hw : w.Proper words) (h : InStep w words fd σ) :
    (ledger fd σ.server.trace).executed.length ≤ σ.client.issued := by
  have hlength := congrArg List.length (h.executed hw).1
  rw [List.length_map, List.length_take, stream, List.length_map, List.length_range] at hlength
  omega

/-- When every byte of the requests has been received, they have all been executed. -/
theorem InStep.served_all (hw : w.Proper words) (h : InStep w words fd σ)
    (hnothing : σ.toServer ++ σ.client.unsent = []) :
    (ledger fd σ.server.trace).executed.length = σ.client.issued := by
  obtain ⟨-, hrest⟩ := h.executed hw
  refine (h.executed_length hw).antisymm (Nat.not_lt.mp fun hmore => ?_)
  rw [hnothing, List.append_nil] at hrest
  have hincomplete := h.coupled.served.incomplete h.coupled.live
  set k := (ledger fd σ.server.trace).executed.length
  have hnext : k < (stream words σ.client.issued).length := by simpa [stream] using hmore
  rw [hrest, List.drop_eq_getElem_cons hnext, List.flatMap_cons] at hincomplete
  have hlast : (k : ℤ) < w.ops := by
    have := h.issued_le
    omega
  have hget : (stream words σ.client.issued)[k] = asRequest (words k) := by simp [stream]
  rw [hget, ← encode_eq, parse_encode (hw.fits k hlast)] at hincomplete
  cases hincomplete

/-- In whatever pieces the bytes go and whatever the other clients do, the connection stays open as long
as no call on it fails; the requests that the server has executed for the client are its first ones,
each once and in order; the replies that the client has parsed are the replies to the first of these;
no more of them are outstanding than a batch has requests, and the client never fails. -/
theorem session_safe (hw : w.Proper words) (hstart : Starts fd σ)
    (hrun : ReflTransGen (Move w fd) σ σ') :
    let executed := (ledger fd σ'.server.trace).executed
    let c := σ'.client
    executed.map Prod.fst = (stream words c.issued).take executed.length ∧
      c.replies <+: executed.map Prod.snd ∧ c.replies.length + c.owed = c.issued ∧
      (c.owed : ℤ) ≤ max 0 (w.batchSize c.sent) ∧ c.stage ≠ .failed ∧ Standing fd σ'.server := by
  intro executed c
  have h := inStep_run hw hstart hrun
  exact ⟨(h.executed hw).1, h.coupled.answers, h.coupled.count, h.owed_le, h.not_failed,
    h.coupled.standing⟩

/-- When the client has finished, every request of the workload has been executed once, in order, the
client has the reply to each, and no byte is left anywhere on the connection. -/
theorem session_complete (hw : w.Proper words) (hstart : Starts fd σ)
    (hrun : ReflTransGen (Move w fd) σ σ') (hfinished : σ'.client.stage = .finished) :
    let executed := (ledger fd σ'.server.trace).executed
    executed.map Prod.fst = stream words w.ops.toNat ∧ executed.map Prod.snd = σ'.client.replies ∧
      σ'.toServer = [] ∧ σ'.server.input.getD fd [] = [] ∧ σ'.server.output.getD fd [] = [] ∧
      σ'.toClient = [] ∧ σ'.client.connection.remaining = [] := by
  intro executed
  have h := inStep_run hw hstart hrun
  have hissued : σ'.client.issued = w.ops.toNat := by
    cases h.paced with
    | finished _ hsent =>
      simp only [Client.issued, hfinished]
      omega
    | batching h' => simp [hfinished] at h'
    | sending h' => simp [hfinished] at h'
    | awaiting h' => simp [hfinished] at h'
  have hcount := h.coupled.count
  simp only [Client.owed, hfinished, Nat.add_zero, hissued] at hcount
  obtain ⟨hrequests, hrest⟩ := h.executed hw
  have hmost := h.executed_length hw
  have hleast := h.coupled.answers.length_le
  rw [List.length_map] at hleast
  have hlength : executed.length = w.ops.toNat :=
    (hmost.trans_eq hissued).antisymm (hcount ▸ hleast)
  have hstream : (stream words w.ops.toNat).length = w.ops.toNat := by simp [stream]
  have hpending := h.coupled.pending
  have hparsed : (executed.map Prod.snd).length ≤ σ'.client.replies.length := by
    rw [List.length_map]
    omega
  rw [List.drop_of_length_le hparsed, List.flatMap_nil] at hpending
  rw [hissued, List.drop_of_length_le (hstream.trans hlength.symm).le, List.flatMap_nil] at hrest
  obtain ⟨hremaining, htail⟩ := List.append_eq_nil_iff.mp hpending
  obtain ⟨htoClient, houtput⟩ := List.append_eq_nil_iff.mp htail
  obtain ⟨hinput, htoServer⟩ := List.append_eq_nil_iff.mp hrest
  refine ⟨?_, ?_, (List.append_eq_nil_iff.mp htoServer).1, hinput, houtput, htoClient, hremaining⟩
  · rw [hrequests, hissued, List.take_of_length_le (hstream.trans hlength.symm).le]
  · refine (h.coupled.answers.eq_of_length ?_).symm
    rw [List.length_map]
    omega

/-- The two never wait for each other: when the server has nothing left to read and nothing left to
send, what is on its way to the waiting client completes every reply that it waits for. -/
theorem session_goes_on (hw : w.Proper words) (hstart : Starts fd σ)
    (hrun : ReflTransGen (Move w fd) σ σ') {wanted : ℕ} {batch : ℤ}
    (hwaits : σ'.client.stage = .awaiting wanted batch) (hread : σ'.toServer = [])
    (hsent : σ'.server.output.getD fd [] = []) :
    σ'.toClient ≠ [] ∧
      (takeValues parse wanted (σ'.client.connection.remaining ++ σ'.toClient)).wanted = 0 := by
  have h := inStep_run hw hstart hrun
  obtain ⟨hwanted, -, -, hincomplete⟩ := h.paced.of_awaiting hwaits
  have hcount := h.coupled.count
  have hall := h.served_all hw (by simp [hread, Client.unsent, hwaits])
  have hpending := h.coupled.pending
  rw [hsent, List.append_nil] at hpending
  have howed : (((ledger fd σ'.server.trace).executed.map Prod.snd).drop
      σ'.client.replies.length).length = wanted := by
    simp only [Client.owed, hwaits] at hcount
    rw [List.length_drop, List.length_map]
    omega
  have htake := @takeValues_all _ _ _ parse _ _ fun _ hmem => h.coupled.readable hmem
  rw [howed, ← hpending] at htake
  refine ⟨fun hnothing => ?_, by rw [htake]⟩
  rw [hnothing, List.append_nil, takeValues_incomplete hincomplete] at htake
  exact hwanted.ne' (congrArg Taken.wanted htake)

end Moves

def ping : List Bytes := [text "PING"]

def twoPings : Workload := runPipelined (fun _ _ => encode ping) [] 2 64

theorem proper_twoPings : twoPings.Proper fun _ => ping := by
  refine proper_pipelined (by decide) (fun _ _ => rfl) (fun _ _ => ?_) (fun _ _ => ?_)
    fun sent hsent hmore => ?_
  · exact ⟨by decide, by decide⟩
  · rintro ⟨name, args, hwords, hname, -⟩
    have hping : requestWords (asRequest ping) = some ping := rfl
    rw [hping] at hwords
    cases hwords
    revert hname
    decide
  · obtain rfl | rfl : sent = 0 ∨ sent = 1 := by omega
    · decide
    · decide

def pingStart : System := ⟨twoClients, {}, [], []⟩

theorem starts_pingStart : Starts 5 pingStart :=
  ⟨fresh_twoClients, ⟨⟨by decide, by decide⟩, by decide, by decide⟩, rfl, rfl, rfl⟩

def pingBytes : Bytes := encode ping ++ encode ping

def pingsSent : System := ⟨twoClients, { stage := .awaiting 2 2 }, pingBytes, []⟩

theorem run_pingsSent : ReflTransGen (Move twoPings 5) pingStart pingsSent := by
  have hwrite := @Move.write twoPings 5 ⟨twoClients, { stage := .sending pingBytes 0 2 }, [], []⟩
    pingBytes 0 2 28 rfl (by decide)
  exact ((ReflTransGen.single (.proceed pingStart)).tail hwrite).tail (.proceed _)

/-- The server reads the two requests, and sends the replies, in two parts. -/
def firstPart : Answers where
  recvs := [chunkOf "*1\r\n$4\r\nPING\r\n*1\r\n" (by decide)]
  sends := [.accepted 5, .wouldBlock true]

def lastPart : Answers where
  recvs := [chunkOf "$4\r\nPING\r\n" (by decide)]
  sends := [.accepted 9]

def pongs : Bytes := text "+PONG\r\n+PONG\r\n"

theorem fits_empty : Store.Fits {} := by
  intro key
  constructor <;> simp [Store.cell]

theorem held_ping {i : EventLoop.Input} {s : Server}
    (hcalls : stepCalls i s = [⟨.once 0 0, makeArray [makeBulkString (text "PING")]⟩])
    (hsession : s.session = ⟨{}, none⟩) : Held i s := by
  rw [Held, hcalls, hsession]
  exact ⟨⟨⟨by decide, by decide⟩, fits_empty⟩, trivial⟩

def clientReadable : EventLoop.Input := .ready [⟨5, .read, false⟩]

def System.readable (σ : System) : System :=
  { σ with server := (EventLoop.step clientReadable σ.server).2 }

/-- The server has sent the reply to one of the requests. -/
def pingsHalf : System where
  server := (EventLoop.step (.handle firstPart) pingsSent.readable.server).2
  client := pingsSent.client
  toServer := pingBytes.drop 18
  toClient := pongs.take 5

def pingsServed : System where
  server := (EventLoop.step (.handle lastPart) pingsHalf.readable.server).2
  client := pingsSent.client
  toClient := pongs

def pingsDone : System where
  server := pingsServed.server
  client :=
    { sent := 2
      stage := .finished
      replies := [makeSimpleString (text "PONG"), makeSimpleString (text "PONG")] }

theorem run_pingsServed (w : Workload) : ReflTransGen (Move w 5) pingsSent pingsServed := by
  have hready : Move w 5 pingsSent pingsSent.readable :=
    @Move.serve _ _ pingsSent clientReadable [] pingBytes []
      (untroubled_of_unhandled rfl (by decide) 5) (by decide) trivial rfl rfl rfl
  have hfirst := @held_ping (.handle firstPart) pingsSent.readable.server rfl rfl
  have hhalf : Move w 5 pingsSent.readable pingsHalf :=
    @Move.serve _ _ pingsSent.readable (.handle firstPart) (pingBytes.take 18) (pingBytes.drop 18)
      (pongs.take 5) (untroubled_of_handled rfl (by decide) rfl ⟨rfl, by simp [firstPart, chunkOf]⟩
        (by decide +kernel) 5) (by decide) hfirst rfl rfl rfl
  have hready' : Move w 5 pingsHalf pingsHalf.readable :=
    @Move.serve _ _ pingsHalf clientReadable [] _ [] (untroubled_of_unhandled rfl (by decide) 5)
      (by decide) trivial rfl rfl rfl
  have hlast := @held_ping (.handle lastPart) pingsHalf.readable.server rfl rfl
  have hall : Move w 5 pingsHalf.readable pingsServed :=
    @Move.serve _ _ pingsHalf.readable (.handle lastPart) (pingBytes.drop 18) [] (pongs.drop 5)
      (untroubled_of_handled rfl (by decide) rfl ⟨rfl, by simp [lastPart, chunkOf]⟩
        (by decide +kernel) 5) (by decide) hlast rfl rfl rfl
  exact (((ReflTransGen.single hready).tail hhalf).tail hready').tail hall

theorem run_pingsDone : ReflTransGen (Move twoPings 5) pingsServed pingsDone := by
  have hread := @Move.read twoPings 5 pingsServed 2 2 pongs [] rfl (by decide) rfl
  exact (ReflTransGen.single hread).tail (.proceed _)

theorem twoPings_safe :
    let executed := (ledger 5 pingsServed.server.trace).executed
    let c := pingsServed.client
    executed.map Prod.fst = (stream (fun _ => ping) c.issued).take executed.length ∧
      c.replies <+: executed.map Prod.snd ∧ c.replies.length + c.owed = c.issued ∧
      (c.owed : ℤ) ≤ max 0 (twoPings.batchSize c.sent) ∧ c.stage ≠ .failed ∧
      Standing 5 pingsServed.server :=
  session_safe proper_twoPings starts_pingStart (run_pingsSent.trans (run_pingsServed _))

theorem twoPings_complete :
    let executed := (ledger 5 pingsDone.server.trace).executed
    executed.map Prod.fst = stream (fun _ => ping) twoPings.ops.toNat ∧
      executed.map Prod.snd = pingsDone.client.replies ∧ pingsDone.toServer = [] ∧
      pingsDone.server.input.getD 5 [] = [] ∧ pingsDone.server.output.getD 5 [] = [] ∧
      pingsDone.toClient = [] ∧ pingsDone.client.connection.remaining = [] :=
  session_complete proper_twoPings starts_pingStart
    ((run_pingsSent.trans (run_pingsServed _)).trans run_pingsDone) rfl

theorem twoPings_goes_on : pingsServed.toClient ≠ [] ∧
    (takeValues parse 2 (pingsServed.client.connection.remaining ++ pingsServed.toClient)).wanted = 0 :=
  session_goes_on proper_twoPings starts_pingStart (run_pingsSent.trans (run_pingsServed _)) rfl rfl
    (by decide)

end RedisLite.Benchmark
