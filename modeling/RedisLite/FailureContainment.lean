import RedisLite.DeliveryIndependence

/-!
# What one client's failure does to the others

However the events of a client end, the other clients keep their buffers, their marks and their
filters, and the store is changed only by the requests that the client has sent. The process does not
survive a `send` to a peer that is gone, since SIGPIPE is neither ignored nor handled.
-/

namespace RedisLite.EventLoop
open ByteStrings Resp IncrementalDecoding Keyspace Commands MachineRuns

/-- The output of a client when what `recv` returns has been served. -/
def answeredOutput (fd : ℕ) (answers : Answers) (s : Server) : Bytes :=
  let r := recvLoop answers.recvs (s.input.getD fd [])
  match r.status with
  | .failed => []
  | .tooLarge => s.output.getD fd [] ++ errorReply (some sizeError)
  | .drained | .peerFinished =>
    let d := drain parse r.buffer
    s.output.getD fd [] ++ serializedReplies (executeAll answers.clock 0 d.values s.session).1 ++
      errorReply d.error

/-- What there is to send at an event of a client. -/
def outputToSend (event : Event) (answers : Answers) (s : Server) : Bytes :=
  if event.error ∨ s.openFds.contains event.fd = false then []
  else
    match event.filter with
    | .read => answeredOutput event.fd answers s
    | .write => s.output.getD event.fd []

/-- A `send` finds the peer gone. -/
def PeerGone (results : List SendResult) (pending : Bytes) : Prop :=
  room results < pending.length ∧ refusal results = .killed

instance (results : List SendResult) (pending : Bytes) : Decidable (PeerGone results pending) :=
  inferInstanceAs (Decidable (_ ∧ _))

theorem not_peerGone_nil (results : List SendResult) : ¬ PeerGone results [] :=
  fun h => absurd h.1 (Nat.not_lt_zero _)

theorem Prepared.output {fd : ℕ} {answers : Answers} {s s₂ : Server} {after : AfterRead}
    (h : Prepared fd answers s after s₂) : s₂.output.getD fd [] = answeredOutput fd answers s := by
  have hopen := h.isOpen
  unfold answeredOutput
  cases h with
  | oversized hstatus =>
    rw [receive_status hopen] at hstatus
    rw [refuseOversized_output, receive_output]
    simp only [hstatus]
  | served hstatus =>
    rw [receive_status hopen] at hstatus
    rw [serveRequests_output, receive_input hopen, receive_output, receive_session]
    rcases hstatus with hstatus | hstatus
    · simp only [hstatus]
    · simp only [hstatus]

section Process
variable {fd : ℕ} {answers : Answers} {s s' : Server}

theorem trySend_killed_iff {results : List SendResult} (hopen : s.openFds.contains fd = true) :
    (trySend fd results s).1 = none ↔ PeerGone results (s.output.getD fd []) := by
  by_cases hfits : (s.output.getD fd []).length ≤ room results
  · rw [(trySend_fits hopen hfits).1]
    exact iff_of_false nofun fun hgone => absurd hgone.1 (by omega)
  · rw [(trySend_refused hopen (by omega)).1, PeerGone, and_iff_right (by omega)]
    cases refusal results with
    | killed => exact iff_of_true rfl rfl
    | _ => exact iff_of_false nofun nofun

theorem undisturbed_running (fd : ℕ) (running : Bool) :
    Undisturbed fd fun s => s.running = running where
  receive _ _ hs := hs
  failed _ hs := hs
  serve _ _ hs := hs
  refuse _ hs := hs
  send _ _ hs := hs
  linger _ hs := hs
  drain _ hs := hs

theorem Prepared.same {s₂ : Server} {after : AfterRead} (h : Prepared fd answers s after s₂) :
    s₂.phase = s.phase ∧ s₂.openFds = s.openFds := by
  cases h with
  | oversized => exact ⟨rfl, rfl⟩
  | served => exact ⟨rfl, rfl⟩

/-- A `try_send` that returns has found the peer. -/
theorem Prepared.killed_iff {s₂ : Server} {after : AfterRead} {returned : Bool}
    (h : Prepared fd answers s after s₂) (halive : s.phase ≠ .killed)
    (hsend : (trySend fd answers.sends s₂).1 = some returned) :
    (trySend fd answers.sends s₂).2.phase = .killed ↔ s.openFds.contains fd = true ∧
      PeerGone answers.sends (answeredOutput fd answers s) := by
  have hopen : s₂.openFds.contains fd = true := by
    rw [h.same.2]
    exact h.isOpen
  have hphase : (trySend fd answers.sends s₂).2.phase = s.phase :=
    (trySend_phase (by simp [hsend])).trans h.same.1
  refine iff_of_false (hphase.trans_ne halive) fun ⟨_, hgone⟩ => ?_
  rw [← h.output, ← trySend_killed_iff hopen, hsend] at hgone
  cases hgone

theorem ReadOutcome.killed_iff (h : ReadOutcome fd answers s s') (halive : s.phase ≠ .killed) :
    s'.phase = .killed ↔ s.openFds.contains fd = true ∧
      PeerGone answers.sends (answeredOutput fd answers s) := by
  cases h with
  | failed hstatus =>
    refine iff_of_false halive fun ⟨hopen, hgone⟩ => ?_
    rw [receive_status hopen] at hstatus
    rw [answeredOutput] at hgone
    simp only [hstatus] at hgone
    exact not_peerGone_nil _ hgone
  | silent hp hnothing =>
    rw [← hp.output, hnothing, hp.same.1]
    exact iff_of_false halive fun hgone => not_peerGone_nil _ hgone.2
  | left hp hnothing =>
    rw [← hp.output, hnothing]
    exact iff_of_false (hp.same.1.trans_ne halive) fun hgone => not_peerGone_nil _ hgone.2
  | killed hp hsend =>
    have hopen := hp.isOpen
    rw [← hp.same.2] at hopen
    rw [← hp.output, ← trySend_killed_iff hopen]
    exact iff_of_true (trySend_killed hsend) ⟨hp.isOpen, hsend⟩
  | dropped hp hsend => exact hp.killed_iff halive hsend
  | rejected hp hsend => exact hp.killed_iff halive hsend
  | answered hp hsend => exact hp.killed_iff halive hsend
  | finished hp hsend => exact hp.killed_iff halive hsend
  | lingering hp hsend => exact hp.killed_iff halive hsend

theorem trySend_stale (results : List SendResult) (hclosed : s.openFds.contains fd = false) :
    (trySend fd results s).1 ≠ none := by
  unfold trySend
  simp only [hclosed, Bool.false_eq_true, if_false]
  by_cases hnothing : s.output.getD fd [] = []
  · simp [hnothing, sendLoop_nil, SendStatus.returned]
  · simp [sendLoop, hnothing, SendStatus.returned]

theorem WriteOutcome.killed_iff (h : WriteOutcome fd answers s s') (halive : s.phase ≠ .killed) :
    s'.phase = .killed ↔ s.openFds.contains fd = true ∧
      PeerGone answers.sends (s.output.getD fd []) := by
  have hreturned : s'.phase = .killed ↔ (trySend fd answers.sends s).1 = none := by
    have hsame : ∀ {returned}, (trySend fd answers.sends s).1 = some returned →
        (trySend fd answers.sends s).2.phase ≠ .killed :=
      fun hsend => (trySend_phase (by simp [hsend])).trans_ne halive
    cases h with
    | killed hsend => exact iff_of_true (trySend_killed hsend) hsend
    | dropped hsend => exact iff_of_false (hsame hsend) (by simp [hsend])
    | pending hsend => exact iff_of_false (hsame hsend) (by simp [hsend])
    | drained hsend => exact iff_of_false (hsame hsend) (by simp [hsend])
    | finished hsend => exact iff_of_false (hsame hsend) (by simp [hsend])
  rw [hreturned]
  cases hopen : s.openFds.contains fd with
  | true => rw [trySend_killed_iff hopen, and_iff_right rfl]
  | false => exact iff_of_false (trySend_stale _ hopen) (by simp)

theorem handleEvent_killed_iff {event : Event} (hclient : event.fd ≠ s.listenFd)
    (halive : s.phase ≠ .killed) : (handleEvent event answers s).phase = .killed ↔
      PeerGone answers.sends (outputToSend event answers s) := by
  have houtcome := eventOutcome event answers s
  generalize handleEvent event answers s = s' at houtcome
  unfold outputToSend
  cases houtcome with
  | listenFailed hlisten => exact absurd hlisten hclient
  | accepted hlisten => exact absurd hlisten hclient
  | error _ herror =>
    rw [if_pos (.inl herror)]
    exact iff_of_false halive (not_peerGone_nil _)
  | read _ herror hfilter h =>
    rw [h.killed_iff halive, hfilter]
    cases hopen : s.openFds.contains event.fd with
    | true => simp [herror]
    | false => simp [herror, not_peerGone_nil]
  | write _ herror hfilter h =>
    rw [h.killed_iff halive, hfilter]
    cases hopen : s.openFds.contains event.fd with
    | true => simp [herror]
    | false => simp [herror, not_peerGone_nil]

end Process

/-- What has been entered for the client since is what has changed the store. -/
def Accounts (fd : ℕ) (clock : ℕ → Readings) (s s' : Server) : Prop :=
  ∃ requests, let run := executeAll clock 0 requests s.session
    (ledger fd s'.trace).executed = (ledger fd s.trace).executed ++ run.1 ∧ s'.session = run.2

section Store
variable {fd : ℕ} {clock : ℕ → Readings} {answers : Answers} {s s' : Server}

theorem Accounts.same {s₁ : Server} (h : Accounts fd clock s s₁)
    (hledger : (ledger fd s'.trace).executed = (ledger fd s₁.trace).executed)
    (hsession : s'.session = s₁.session) : Accounts fd clock s s' := by
  obtain ⟨requests, hexecuted, hrun⟩ := h
  exact ⟨requests, hledger.trans hexecuted, hsession.trans hrun⟩

theorem accounts_refl (fd : ℕ) (clock : ℕ → Readings) (s : Server) : Accounts fd clock s s :=
  ⟨[], (List.append_nil _).symm, rfl⟩

theorem accounts_settling (fd : ℕ) (clock : ℕ → Readings) (s : Server) :
    Settling fd (Accounts fd clock s) where
  send results s₁ h := by
    obtain ⟨sent, hledger, -⟩ := ledger_trySend fd results s₁
    exact h.same (by rw [hledger]) rfl
  linger _ h := h
  drain _ h := h

theorem Accounts.close (h : Accounts fd clock s s') : Accounts fd clock s (closeClient fd s') :=
  h.same (by rw [ledger_closeClient]) rfl

theorem accounts_receive (fd : ℕ) (clock : ℕ → Readings) (results : List RecvResult) (s : Server) :
    Accounts fd clock s (receive fd results s).2 := by
  obtain ⟨bytes, hledger⟩ := ledger_receive fd results s
  exact (accounts_refl fd clock s).same (by rw [hledger]) rfl

theorem Prepared.accounts {after : AfterRead} (h : Prepared fd answers s after s') :
    Accounts fd answers.clock s s' := by
  have hreceived := accounts_receive fd answers.clock answers.recvs s
  cases h with
  | oversized => exact hreceived.same (by rw [ledger_refuseOversized]) rfl
  | served =>
    obtain ⟨bytes, hledger⟩ := ledger_receive fd answers.recvs s
    refine ⟨(drain parse ((receive fd answers.recvs s).2.input.getD fd [])).values, ?_, ?_⟩
    · rw [ledger_serveRequests, hledger, receive_session]
    · rw [serveRequests_eq, Server.note, receive_session]

theorem handleEvent_accounts (event : Event) (answers : Answers) {s : Server}
    (hclient : event.fd ≠ s.listenFd) :
    Accounts event.fd answers.clock s (handleEvent event answers s) := by
  have hsettling := accounts_settling event.fd answers.clock s
  have houtcome := eventOutcome event answers s
  generalize handleEvent event answers s = s' at houtcome
  cases houtcome with
  | listenFailed hlisten => exact absurd hlisten hclient
  | accepted hlisten => exact absurd hlisten hclient
  | error => exact (accounts_refl _ _ s).close
  | read _ _ _ h =>
    refine (hsettling.read (fun _ => ?_) (fun _ _ hp => hp.accounts) h).keeps fun _ => Accounts.close
    exact (accounts_receive _ _ _ s).same (by rw [ledger_note]; rfl) rfl
  | write _ _ _ h =>
    exact (hsettling.write (hsettling.send _ s (accounts_refl _ _ s)) h).keeps fun _ => Accounts.close

end Store

def Serving (s : Server) : Prop := s.phase = .waiting ∨ ∃ batch, s.phase = .dispatching batch

/-- An event of a client leaves the others alone, changes the store through the client's requests
only, and the process serves on. -/
structure Contained (event : Event) (answers : Answers) (s : Server) : Prop where
  others : ∀ fd, fd ≠ event.fd → Untouched fd s (handleEvent event answers s)
  store : Accounts event.fd answers.clock s (handleEvent event answers s)
  alive : (handleEvent event answers s).phase ≠ .killed
  serving : s.running = true → Serving (step (.handle answers) s).2

/-- The event that the input handles is contained, if it is a client's. -/
def Contains (i : Input) (s : Server) : Prop :=
  ∀ e ∈ handled i s, e.1.fd ≠ s.listenFd → Contained e.1 e.2 s

/-- No `send` that the event of a client makes finds the peer gone. -/
def PeerPresent (i : Input) (s : Server) : Prop :=
  ∀ e ∈ handled i s, e.1.fd ≠ s.listenFd → ¬ PeerGone e.2.sends (outputToSend e.1 e.2 s)

theorem handleEvent_running {event : Event} (answers : Answers) {s : Server}
    (hclient : event.fd ≠ s.listenFd) : (handleEvent event answers s).running = s.running :=
  ((undisturbed_running event.fd s.running).event answers hclient rfl).keeps fun _ h => h

theorem serving_step {answers : Answers} {s : Server} {event : Event} {batch : List Event}
    (hphase : s.phase = .dispatching (event :: batch)) (hclient : event.fd ≠ s.listenFd)
    (halive : (handleEvent event answers s).phase ≠ .killed) (hrunning : s.running = true) :
    Serving (step (.handle answers) s).2 := by
  have hstep : (step (.handle answers) s).2 = proceed batch (handleEvent event answers s) := by
    simp only [step, next, hphase, if_neg halive]
  rw [hstep]
  cases batch with
  | nil =>
    rw [proceed, loopTop, if_pos ((handleEvent_running answers hclient).trans hrunning)]
    exact .inl rfl
  | cons event batch => exact .inr ⟨_, rfl⟩

theorem contains_iff (i : Input) (s : Server) : Contains i s ↔ PeerPresent i s := by
  constructor
  · rintro h ⟨event, answers⟩ he hclient hgone
    exact (h _ he hclient).alive ((handleEvent_killed_iff hclient (handled_alive he)).mpr hgone)
  · rintro h ⟨event, answers⟩ he hclient
    obtain ⟨rfl, batch, hphase⟩ := handled_eq_some he
    have halive : (handleEvent event answers s).phase ≠ .killed :=
      mt (handleEvent_killed_iff hclient (handled_alive he)).mp (h _ he hclient)
    exact ⟨fun fd hother => Untouched.handleEvent hother.symm answers hclient,
      handleEvent_accounts event answers hclient, halive, serving_step hphase hclient halive⟩

/-- In every run the failures of the clients are contained exactly if no `send` to a client finds its
peer gone. -/
theorem failures_contained (run : List Input) (s : Server) :
    Along Contains step run s ↔ Along PeerPresent step run s :=
  @along_congr _ _ _ _ _ _ (fun _ => True) (fun i s _ => contains_iff i s) (fun _ _ _ => trivial) s
    trivial run

/-- The client asks twice and leaves; the first reply makes its host reset the connection. -/
def abandonedReplies : List Input :=
  [.ready [⟨5, .read, false⟩],
    .handle { recvs := [chunkOf "*1\r\n$4\r\nPING\r\n" ping_isChunk], sends := [.accepted 7] },
    .ready [⟨5, .read, false⟩, ⟨6, .read, false⟩]]

theorem killed_forever {s : Server} (h : s.phase = .killed) (run : List Input) :
    (final step run s).phase = .killed := by
  induction run generalizing s with
  | nil => exact h
  | cons i run ih =>
    refine ih ?_
    rcases step_cases i s with hrest | ⟨event, answers, hhandled, -⟩
    · cases i with
      | signal => exact h
      | _ => simp [step, next, h]
    · exact absurd h (handled_alive hhandled)

theorem not_contains_of_killed {s : Server} {answers : Answers} {event : Event} {batch : List Event}
    (hphase : s.phase = .dispatching (event :: batch)) (hclient : event.fd ≠ s.listenFd)
    (hrunning : s.running = true) (hkilled : (step (.handle answers) s).2.phase = .killed) :
    ¬ Contains (.handle answers) s := by
  intro h
  rcases (h _ (handled_of_phase hphase answers) hclient).serving hrunning with hwaiting | ⟨batch, hbatch⟩
  · exact absurd (hkilled.symm.trans hwaiting) (by decide)
  · exact absurd (hkilled.symm.trans hbatch) (by simp)

def gonePeer : Answers where
  recvs := [chunkOf "*1\r\n$4\r\nPING\r\n" ping_isChunk, .endOfFile]
  sends := [.brokenPipe]

/-- One peer that is gone ends the process, and nobody is served any more. -/
theorem gone_peer_kills_server :
    ¬ Contains (.handle gonePeer) (final step abandonedReplies twoClients) ∧
      ∀ run, (final step (abandonedReplies ++ .handle gonePeer :: run) twoClients).phase =
        .killed := by
  have hphase : (final step abandonedReplies twoClients).phase =
      .dispatching [⟨5, .read, false⟩, ⟨6, .read, false⟩] := by decide +kernel
  have hkilled : (step (.handle gonePeer) (final step abandonedReplies twoClients)).2.phase =
      .killed := by decide +kernel
  refine ⟨not_contains_of_killed hphase (by decide +kernel) (by decide +kernel) hkilled, ?_⟩
  intro run
  rw [final, List.foldl_append]
  exact killed_forever hkilled run

end RedisLite.EventLoop
