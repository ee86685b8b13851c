import RedisLite.ServedClients

/-!
# Requests do not depend on how they are delivered

However a client's stream is cut into chunks and readiness events, and whatever happens on other
connections in between, the server executes for it the requests of the whole stream parsed at once.
-/

namespace RedisLite.EventLoop
open ByteStrings Resp IncrementalDecoding Keyspace Commands MachineRuns

/-- What `recv` answers if the input handles a readiness event of this open client. -/
def readResults (fd : ℕ) (i : Input) (s : Server) : Option (List RecvResult) :=
  match i, s.phase with
  | .handle answers, .dispatching (event :: _) =>
    if event.Reads fd s then some answers.recvs else none
  | _, _ => none

def RecvSucceeds (fd : ℕ) (i : Input) (s : Server) : Prop :=
  ∀ results ∈ readResults fd i s, breaks results = false

/-- The unparsed bytes of the client, with all that `recv` returns now, do not exceed the limit. -/
def Fits (fd : ℕ) (i : Input) (s : Server) : Prop :=
  ∀ results ∈ readResults fd i s,
    (s.input.getD fd [] ++ (chunks results).flatten).length ≤ kMaxRequestBytes

/-- A chunk that crosses the limit belongs, with the unparsed bytes before it, to one unfinished
request. -/
def Alone (fd : ℕ) (i : Input) (s : Server) : Prop :=
  ∀ results ∈ readResults fd i s, AloneWhenCrossing (s.input.getD fd []) results

/-- The clients that are accepted if the input handles an event of the listening socket. -/
def acceptedBy (i : Input) (s : Server) : List ℕ :=
  match handled i s with
  | some (event, answers) =>
    if event.error = false ∧ event.fd = s.listenFd then acceptedFds answers.accepts else []
  | none => []

/-- The chunks that `recv` has returned for the client, from its acceptance on. -/
def arrived (fd : ℕ) : List Input → Server → Bytes → Bytes
  | [], _, bytes => bytes
  | i :: is, s, bytes =>
    let later := (readResults fd i s).elim [] fun results => (chunks results).flatten
    arrived fd is (step i s).2 (if fd ∈ acceptedBy i s then [] else bytes ++ later)

instance (fd : ℕ) (i : Input) (s : Server) : Decidable (RecvSucceeds fd i s) :=
  inferInstanceAs (Decidable (∀ results ∈ readResults fd i s, breaks results = false))

instance (fd : ℕ) (i : Input) (s : Server) : Decidable (Fits fd i s) :=
  inferInstanceAs (Decidable (∀ results ∈ readResults fd i s, _))

theorem Fits.alone {fd : ℕ} {i : Input} {s : Server} (h : Fits fd i s) : Alone fd i s :=
  fun results hresults => aloneWhenCrossing_of_fits (h results hresults)

theorem ledger_shutdown (fd : ℕ) (s : Server) :
    ledger fd (shutdown s).trace = ledger fd s.trace := by
  rw [shutdown, ledger_append, List.foldl_map]
  refine List.foldl_fixed' (fun l => ?_) _
  rw [recordOn]
  split <;> rfl

theorem ledger_rests {fd : ℕ} {s s' : Server} (hrests : Rests s s') :
    ledger fd s'.trace = ledger fd s.trace := by
  rcases hrests with ⟨running, phase, -, rfl⟩ | ⟨-, rfl⟩
  · rfl
  · exact ledger_shutdown fd s

theorem not_live_shutdown (fd : ℕ) (s : Server) : ¬ Live fd (shutdown s) := by
  simp [Live, shutdown]

/-- Between events a client is left alone, until the server stops. -/
theorem served_rests {fd : ℕ} {s s' : Server} (hrests : Rests s s') (h : Served fd s) :
    Served fd s' := by
  rcases hrests with ⟨running, phase, hphase, rfl⟩ | ⟨-, rfl⟩
  · refine ⟨h.faithful, fun hlive => ?_⟩
    have halive : s.phase ≠ .killed :=
      mt (Phase.Over.eq_iff (.inr rfl) hphase).mpr hlive.2
    exact (h.current ⟨hlive.1, halive⟩).congr rfl rfl rfl
  · refine ⟨?_, fun hlive => absurd hlive (not_live_shutdown fd s)⟩
    rw [ledger_shutdown]
    exact h.faithful

/-- A step keeps a client served. -/
theorem served_step {fd : ℕ} (i : Input) (s : Server) (hrecv : RecvSucceeds fd i s)
    (halone : Alone fd i s) (h : Served fd s) : Served fd (step i s).2 := by
  refine step_keeps (fun _ _ => served_rests) (fun event answers hhandled h => ?_) h
  have hresults : event.Reads fd s → answers.recvs ∈ readResults fd i s := by
    obtain ⟨rfl, batch, hphase⟩ := handled_eq_some hhandled
    intro hreads
    simp [readResults, hphase, hreads]
  exact served_handleEvent h (handled_alive hhandled) (fun hreads => hrecv _ (hresults hreads))
    (fun hreads => halone _ (hresults hreads))

/-- Only reading adds to what has been received. -/
theorem settling_received (fd : ℕ) (bytes : Bytes) :
    Settling fd fun s => (ledger fd s.trace).received = bytes where
  send results s h := by
    obtain ⟨sent, hledger, -⟩ := ledger_trySend fd results s
    rw [hledger]
    exact h
  linger _ h := h
  drain _ h := h

theorem received_closeClient (fd : ℕ) (s : Server) :
    (ledger fd (closeClient fd s).trace).received = (ledger fd s.trace).received := by
  rw [closeClient, ledger_note]
  rfl

theorem received_read {fd : ℕ} {answers : Answers} {s s' : Server}
    (h : ReadOutcome fd answers s s') : (ledger fd s'.trace).received =
      (ledger fd (receive fd answers.recvs s).2.trace).received := by
  refine ((settling_received fd _).read (fun _ => ?_) (fun after s₂ hp => ?_) h).keeps
    (fun s₁ h₁ => (received_closeClient fd s₁).trans h₁)
  · rw [ledger_note]
    rfl
  · cases hp with
    | oversized =>
      rw [refuseOversized, ledger_note]
      rfl
    | served => rw [serveRequests, ledger_note, record_parsing]

theorem received_acceptClients {fd : ℕ} (results : List AcceptResult) (s : Server) :
    (ledger fd (acceptClients results s).trace).received =
      if fd ∈ acceptedFds results then [] else (ledger fd s.trace).received := by
  induction results generalizing s with
  | nil => rfl
  | cons result results ih =>
    cases result with
    | connection fd' nonBlocking registered =>
      rw [acceptClients, acceptedFds]
      split
      · rw [ih]
        by_cases hfd : fd' = fd
        · subst hfd
          rw [(fresh_addClient fd' s).ledger, ite_self, if_pos List.mem_cons_self]
        · rw [(Untouched.addClient hfd s).ledger]
          simp only [List.mem_cons, Ne.symm hfd, false_or]
      · rw [ih, (Untouched.refused fd fd' s).ledger]
    | interrupted => exact ih s
    | wouldBlock => rfl
    | failed => rfl

theorem received_event {event : Event} {answers : Answers} {s : Server}
    (hclient : event.fd ≠ s.listenFd) (hfits : event.Reads event.fd s →
      (s.input.getD event.fd [] ++ (chunks answers.recvs).flatten).length ≤ kMaxRequestBytes) :
    (ledger event.fd (handleEvent event answers s).trace).received =
      (ledger event.fd s.trace).received ++
        if event.Reads event.fd s then (chunks answers.recvs).flatten else [] := by
  have houtcome := eventOutcome event answers s
  generalize handleEvent event answers s = s' at houtcome
  cases houtcome with
  | listenFailed hlisten => exact absurd hlisten hclient
  | accepted hlisten => exact absurd hlisten hclient
  | error _ herror => simp [received_closeClient, Event.Reads, herror]
  | read _ herror hfilter hread =>
    rw [received_read hread, receive, ledger_note]
    simp only [Event.Reads, herror, hclient, hfilter, true_and, ne_eq, not_false_eq_true,
      List.foldl_cons, List.foldl_nil, Ledger.record]
    by_cases hopen : s.openFds.contains event.fd = true
    · rw [if_pos hopen, if_pos hopen,
        (recvLoop_fits (hfits ⟨herror, hclient, hfilter, rfl, hopen⟩)).2.1]
    · rw [if_neg hopen, if_neg hopen, recvLoop_closed]
  | write _ _ hfilter hwrite =>
    have hsettling := settling_received event.fd (ledger event.fd s.trace).received
    have hsame := (hsettling.write (hsettling.send answers.sends s rfl) hwrite).keeps
      fun s₁ h₁ => (received_closeClient event.fd s₁).trans h₁
    simp [hsame, Event.Reads, hfilter]

theorem readResults_of_handled {i : Input} {s : Server} {event : Event} {answers : Answers}
    (h : handled i s = some (event, answers)) (fd : ℕ) :
    readResults fd i s = if event.Reads fd s then some answers.recvs else none := by
  obtain ⟨rfl, batch, hphase⟩ := handled_eq_some h
  simp only [readResults, hphase]

theorem readResults_of_unhandled {i : Input} {s : Server} (h : handled i s = none) (fd : ℕ) :
    readResults fd i s = none := by
  unfold readResults
  split
  · rename_i answers event batch hphase
    cases h.symm.trans (handled_of_phase hphase answers)
  · rfl

/-- What a step adds to the bytes that have been received is what `recv` returns in it. -/
theorem received_step {fd : ℕ} {i : Input} {s : Server} (hfits : Fits fd i s) :
    (ledger fd (step i s).2.trace).received = if fd ∈ acceptedBy i s then []
      else (ledger fd s.trace).received ++
        (readResults fd i s).elim [] fun results => (chunks results).flatten := by
  cases hhandled : handled i s with
  | none =>
    rw [ledger_rests (rests_of_unhandled hhandled), readResults_of_unhandled hhandled]
    simp [acceptedBy, hhandled]
  | some e =>
    obtain ⟨event, answers⟩ := e
    rw [ledger_rests (rests_of_handled hhandled), readResults_of_handled hhandled]
    simp only [acceptedBy, hhandled]
    by_cases hclient : event.fd = s.listenFd
    · have hreads : ¬ event.Reads fd s := fun h => h.2.1 hclient
      unfold handleEvent
      rw [if_neg hreads]
      cases herror : event.error with
      | true => simp [hclient]
      | false => simp [hclient, received_acceptClients]
    · simp only [hclient, and_false, if_false, List.not_mem_nil]
      by_cases hfd : event.fd = fd
      · subst hfd
        rw [received_event hclient fun hreads => hfits _ ?_]
        · split
          · rfl
          · rfl
        · rw [readResults_of_handled hhandled, if_pos hreads]
          rfl
      · have hreads : ¬ event.Reads fd s := fun h => hfd h.2.2.2.1
        rw [(Untouched.handleEvent hfd answers hclient).ledger, if_neg hreads]
        exact (List.append_nil _).symm

/-- What has been received in a run is what `recv` has returned. -/
theorem received_run {fd : ℕ} {run : List Input} {s : Server} (hfits : Along (Fits fd) step run s) :
    (ledger fd (final step run s).trace).received =
      arrived fd run s (ledger fd s.trace).received := by
  induction run generalizing s with
  | nil => rfl
  | cons i run ih =>
    rw [final_cons, ih hfits.2, received_step hfits.1]
    rfl

/-- Requests, order, attribution and protocol error do not depend on the delivery: from the moment at
which a client is accepted, and whatever the other clients do, what is executed for it, what is left
in its input buffer and the error for which it is closed are those of its whole stream. -/
theorem delivery_independence {fd : ℕ} {s : Server} {run : List Input} (hfresh : Fresh fd s)
    (hrecv : Along (RecvSucceeds fd) step run s) (hfits : Along (Fits fd) step run s) :
    let s' := final step run s
    let l := ledger fd s'.trace
    let whole := drain parse l.received
    l.received = arrived fd run s [] ∧ l.requests = whole.values ∧ l.error = whole.error ∧
      (Live fd s' → s'.input.getD fd [] = whole.rest) ∧ (l.error ≠ none → ¬ Live fd s') := by
  have hserved : Served fd (final step run s) := by
    refine final_along (fun i _ s hok h => ?_) hfresh.served (hrecv.and hfits)
    exact served_step i s hok.1 hok.2.alone h
  have hreceived := received_run hfits
  rw [hfresh.ledger] at hreceived
  refine ⟨hreceived, hserved.faithful.requests, hserved.faithful.error, fun hlive => ?_,
    fun herror hlive => ?_⟩
  · exact (hserved.current hlive).input
  · exact herror (hserved.current hlive).error

def twoClients : Server :=
  final step [.ready [⟨3, .read, false⟩],
    .handle { accepts := [.connection 5 true true, .connection 6 true true] }] (started 3 ⟨{}, none⟩)

def deliver (fd : ℕ) (results : List RecvResult) : List Input :=
  [.ready [⟨fd, .read, false⟩], .handle { recvs := results }]

def chunkOf (s : String) (h : text s ≠ [] ∧ (text s).length ≤ kChunkBytes) : RecvResult :=
  .data ⟨text s, h.1, h.2⟩

theorem ping_isChunk : text "*1\r\n$4\r\nPING\r\n" ≠ [] ∧
    (text "*1\r\n$4\r\nPING\r\n").length ≤ kChunkBytes := by decide

/-- A request in two pieces, with a request of the other client in between. -/
def splitRequest : List Input :=
  deliver 5 [chunkOf "*1\r\n$4\r" (by decide)] ++
    deliver 6 [chunkOf "*1\r\n$4\r\nPING\r\n" ping_isChunk] ++
    deliver 5 [.interrupted, chunkOf "\nPING\r\n*" (by decide)]

theorem fresh_twoClients : Fresh 5 twoClients := by
  have hfresh : Fresh 5 (acceptClients [.connection 5 true true, .connection 6 true true]
      (started 3 ⟨{}, none⟩)) := fresh_acceptClients (.inr (by decide))
  exact ⟨hfresh.ledger, hfresh.input, hfresh.output⟩

theorem splitRequest_independent :
    let s' := final step splitRequest twoClients
    let l := ledger 5 s'.trace
    let whole := drain parse l.received
    l.received = arrived 5 splitRequest twoClients [] ∧ l.requests = whole.values ∧
      l.error = whole.error ∧
      (Live 5 s' → s'.input.getD 5 [] = whole.rest) ∧ (l.error ≠ none → ¬ Live 5 s') :=
  delivery_independence fresh_twoClients (by decide +kernel) (by decide +kernel)

end RedisLite.EventLoop
