import RedisLite.ClientStreams

/-!
# Clients between events

The ledger of a client agrees with its whole stream decoded at once, and the buffers of a client that
is still connected hold what remains: in the input the bytes after the last complete request, in the
output the replies that have not been sent. Every handled event keeps this, provided that `recv` does
not fail and that a chunk which crosses the size limit belongs to one unfinished request.
-/

namespace RedisLite.EventLoop
open ByteStrings Resp IncrementalDecoding Keyspace Commands

/-- The descriptor is open, in a process that runs. -/
def Live (fd : ℕ) (s : Server) : Prop := s.openFds.contains fd = true ∧ s.phase ≠ .killed

/-- The ledger says what the stream, decoded at once, gives; a connection that was ended for size had
one unfinished request of more bytes than the limit. -/
structure Ledger.Faithful (l : Ledger) : Prop where
  requests : l.requests = (drain parse l.received).values
  error : l.error = (drain parse l.received).error
  oversized : l.oversized = true →
    l.error = none ∧ kMaxRequestBytes < (drain parse l.received).rest.length

structure Current (fd : ℕ) (s : Server) : Prop where
  input : s.input.getD fd [] = (drain parse (ledger fd s.trace).received).rest
  fits : (s.input.getD fd []).length ≤ kMaxRequestBytes
  error : (ledger fd s.trace).error = none
  oversized : (ledger fd s.trace).oversized = false
  output : (ledger fd s.trace).sent ++ s.output.getD fd [] =
    serializedReplies (ledger fd s.trace).executed

structure Served (fd : ℕ) (s : Server) : Prop where
  faithful : (ledger fd s.trace).Faithful
  current : Live fd s → Current fd s

theorem Current.congr {fd : ℕ} {s s' : Server} (h : Current fd s) (hinput : s'.input = s.input)
    (houtput : s'.output = s.output) (htrace : s'.trace = s.trace) : Current fd s' where
  input := by rw [hinput, htrace]; exact h.input
  fits := by rw [hinput]; exact h.fits
  error := by rw [htrace]; exact h.error
  oversized := by rw [htrace]; exact h.oversized
  output := by rw [houtput, htrace]; exact h.output

/-- Between events nothing complete and nothing malformed waits in the input buffer. -/
theorem Served.incomplete {fd : ℕ} {s : Server} (h : Served fd s) (hlive : Live fd s) :
    parse (s.input.getD fd []) = .incomplete := by
  have hcurrent := h.current hlive
  rw [hcurrent.input]
  exact drain_rest_incomplete parse_stable (h.faithful.error.symm.trans hcurrent.error)

/-- A chunk that crosses the limit belongs to one unfinished request. -/
def AloneWhenCrossing (held : Bytes) (results : List RecvResult) : Prop :=
  ∀ before chunk after, chunks results = before ++ chunk :: after →
    (held ++ before.flatten).length ≤ kMaxRequestBytes →
    kMaxRequestBytes < (held ++ before.flatten ++ chunk).length →
    parse (held ++ before.flatten ++ chunk) = .incomplete

theorem aloneWhenCrossing_of_fits {held : Bytes} {results : List RecvResult}
    (h : (held ++ (chunks results).flatten).length ≤ kMaxRequestBytes) :
    AloneWhenCrossing held results := by
  intro before chunk after hchunks _ hcrosses
  rw [hchunks] at h
  simp only [List.length_append, List.flatten_append, List.flatten_cons] at h hcrosses
  omega

theorem faithful_empty : ({} : Ledger).Faithful where
  requests := by rw [drain_incomplete parse_nil]; rfl
  error := by rw [drain_incomplete parse_nil]
  oversized := nofun

/-- Nothing has happened on this descriptor since its connection was accepted. -/
structure Fresh (fd : ℕ) (s : Server) : Prop where
  ledger : ledger fd s.trace = {}
  input : s.input.getD fd [] = []
  output : s.output.getD fd [] = []

theorem Fresh.served {fd : ℕ} {s : Server} (h : Fresh fd s) : Served fd s where
  faithful := by
    rw [h.ledger]
    exact faithful_empty
  current _ := by
    refine ⟨?_, ?_, ?_, ?_, ?_⟩
    · rw [h.input, h.ledger, drain_incomplete parse_nil]
    · rw [h.input]
      exact Nat.zero_le _
    · rw [h.ledger]
    · rw [h.ledger]
    · rw [h.output, h.ledger]
      rfl

theorem fresh_addClient (fd : ℕ) (s : Server) : Fresh fd (addClient fd s) where
  ledger := ledger_note fd [.accepted] _
  input := Std.ExtTreeMap.getD_insert_self
  output := Std.ExtTreeMap.getD_insert_self

def acceptedFds : List AcceptResult → List ℕ
  | .connection fd nonBlocking registered :: results =>
    if nonBlocking ∧ registered then fd :: acceptedFds results else acceptedFds results
  | .interrupted :: results => acceptedFds results
  | _ => []

theorem Untouched.fresh {fd : ℕ} {s s' : Server} (hu : Untouched fd s s') (h : Fresh fd s) :
    Fresh fd s' where
  ledger := hu.ledger.trans h.ledger
  input := hu.pendingInput.trans h.input
  output := hu.pendingOutput.trans h.output

theorem Untouched.served {fd : ℕ} {s s' : Server} (hu : Untouched fd s s') (h : Served fd s)
    (halive : s.phase ≠ .killed) : Served fd s' where
  faithful := by
    rw [hu.ledger]
    exact h.faithful
  current hlive := by
    have hcurrent := h.current ⟨hu.isOpen ▸ hlive.1, halive⟩
    refine ⟨?_, ?_, ?_, ?_, ?_⟩
    · rw [hu.pendingInput, hu.ledger]
      exact hcurrent.input
    · rw [hu.pendingInput]
      exact hcurrent.fits
    · rw [hu.ledger]
      exact hcurrent.error
    · rw [hu.ledger]
      exact hcurrent.oversized
    · rw [hu.pendingOutput, hu.ledger]
      exact hcurrent.output

theorem not_live_closeClient (fd : ℕ) (s : Server) : ¬ Live fd (closeClient fd s) := by
  simp [Live, closeClient, Server.note]

theorem served_closeClient {fd : ℕ} {s : Server} (h : (ledger fd s.trace).Faithful) :
    Served fd (closeClient fd s) where
  faithful := by
    rw [closeClient, ledger_note]
    exact h
  current hlive := absurd hlive (not_live_closeClient fd s)

theorem faithful_trySend {fd : ℕ} {results : List SendResult} {s : Server}
    (h : (ledger fd s.trace).Faithful) : (ledger fd (trySend fd results s).2.trace).Faithful := by
  obtain ⟨sent, hledger, -⟩ := ledger_trySend fd results s
  rw [hledger]
  exact ⟨h.requests, h.error, h.oversized⟩

theorem current_trySend {fd : ℕ} {results : List SendResult} {s : Server} (h : Current fd s) :
    Current fd (trySend fd results s).2 := by
  obtain ⟨sent, hledger, houtput⟩ := ledger_trySend fd results s
  refine ⟨?_, h.fits, ?_, ?_, ?_⟩
  · rw [hledger]
    exact h.input
  · rw [hledger]
    exact h.error
  · rw [hledger]
    exact h.oversized
  · rw [hledger, List.append_assoc, houtput]
    exact h.output

structure Handled (fd : ℕ) (r : Option AfterRead × Server) : Prop where
  faithful : (ledger fd r.2.trace).Faithful
  current : ∀ after, r.1 = some after → after ≠ .closeNow → Current fd r.2
  killed : r.1 = none → r.2.phase = .killed

theorem handled_sendAndClose {fd : ℕ} {results : List SendResult} {s : Server}
    (h : (ledger fd s.trace).Faithful) : Handled fd (sendAndClose fd results s) where
  faithful := faithful_trySend h
  current after hafter hopen := by
    obtain ⟨_, -, rfl⟩ := Option.map_eq_some_iff.mp hafter
    exact absurd rfl hopen
  killed hnone := trySend_killed (Option.map_eq_none_iff.mp hnone)

theorem handled_sendReplies {fd : ℕ} {results : List SendResult} {after : AfterRead} {s : Server}
    (h : (ledger fd s.trace).Faithful) (hcurrent : Current fd s) :
    Handled fd (sendReplies fd results after s) := by
  unfold sendReplies
  split
  · exact ⟨h, fun _ _ _ => hcurrent, nofun⟩
  · exact ⟨faithful_trySend h, fun _ _ _ => current_trySend hcurrent,
      fun hnone => trySend_killed (Option.map_eq_none_iff.mp hnone)⟩

/-- With more bytes in the input buffer, the ledger of a client stays faithful when they are served. -/
theorem serve_received {fd : ℕ} {s s₁ : Server} {data : Bytes} (clock : ℕ → Readings)
    (h : (ledger fd s.trace).Faithful) (hcurrent : Current fd s)
    (hinput : s₁.input.getD fd [] = s.input.getD fd [] ++ data)
    (houtput : s₁.output.getD fd [] = s.output.getD fd [])
    (hledger : ledger fd s₁.trace =
      { ledger fd s.trace with received := (ledger fd s.trace).received ++ data })
    (hfits : (s.input.getD fd [] ++ data).length ≤ kMaxRequestBytes) :
    (ledger fd (serveRequests fd clock s₁).2.trace).Faithful ∧
      ((serveRequests fd clock s₁).1 = none → Current fd (serveRequests fd clock s₁).2) := by
  have hserved := ledger_serveRequests fd clock s₁
  -- the whole stream, decoded at once
  have hdrain := drain_append parse_stable (h.error.symm.trans hcurrent.error) data
  have hlength := drain_rest_length parse_stable (s.input.getD fd [] ++ data)
  simp only [hledger, hinput] at hserved
  rw [← hcurrent.input] at hdrain
  rw [serveRequests_eq] at hserved ⊢
  simp only [hinput, houtput] at hserved ⊢
  set d := drain parse (s.input.getD fd [] ++ data)
  set run := executeAll clock 0 d.values s₁.session
  have hrequests : ((ledger fd s.trace).executed ++ run.1).map Prod.fst =
      (drain parse (ledger fd s.trace).received).values ++ d.values := by
    rw [List.map_append, executeAll_requests]
    exact congrArg (· ++ d.values) h.requests
  refine ⟨⟨?_, ?_, ?_⟩, fun hnone => ⟨?_, ?_, ?_, ?_, ?_⟩⟩
  · rw [hserved, hdrain]
    exact hrequests
  · rw [hserved, hdrain]
    simp only [hcurrent.error]
    exact Option.or_none
  · rw [hserved]
    intro hlarge
    simp [hcurrent.oversized] at hlarge
  · rw [hserved, hdrain]
    exact Std.ExtTreeMap.getD_insert_self
  · exact (congrArg List.length Std.ExtTreeMap.getD_insert_self).trans_le (hlength.trans hfits)
  · rw [hserved]
    simp only [hcurrent.error, hnone]
    rfl
  · rw [hserved]
    exact hcurrent.oversized
  · rw [hserved]
    refine (congrArg _ Std.ExtTreeMap.getD_insert_self).trans ?_
    rw [hnone, errorReply, List.append_nil, ← List.append_assoc, hcurrent.output]
    exact (serializedReplies_append _ _).symm

/-- An event for a descriptor that is not open does not reach the ledger. -/
theorem served_stale {fd : ℕ} {answers : Answers} {s : Server} (h : Served fd s)
    (hclosed : s.openFds.contains fd = false) : Served fd (handleReadEvent fd answers s) := by
  have hhandled : handleReadEvent fd answers s = closeClient fd (({ s with
      input := s.input.insert fd (s.input.getD fd []) }.note fd [.received []]).note fd
        [.recvFailed]) := by
    simp [handleReadEvent, handleReadable, receive, hclosed, recvLoop_closed]
  rw [hhandled]
  refine served_closeClient ?_
  rw [ledger_note, ledger_note]
  simp only [List.foldl_cons, List.foldl_nil, Ledger.record, List.append_nil]
  exact h.faithful

/-- Everything that `recv` returns fits, and the complete requests are served. -/
theorem handled_fitting {fd : ℕ} {answers : Answers} {s : Server} (h : Served fd s)
    (hlive : Live fd s) (hrecv : breaks answers.recvs = false)
    (hfits : (s.input.getD fd [] ++ (chunks answers.recvs).flatten).length ≤ kMaxRequestBytes) :
    Handled fd (handleReadable fd answers s) := by
  obtain ⟨hbuffer, hreceived, hlarge, hfailed⟩ := recvLoop_fits hfits
  rw [handleReadable, receive_open hlive.1, hbuffer, hreceived]
  set s₁ := Server.note fd [.received (chunks answers.recvs).flatten] _
  have hinput : s₁.input.getD fd [] = s.input.getD fd [] ++ (chunks answers.recvs).flatten :=
    Std.ExtTreeMap.getD_insert_self
  obtain ⟨hfaithful, hcurrent⟩ := serve_received answers.clock h.faithful (h.current hlive) hinput
    rfl (ledger_note fd _ _) hfits
  cases hstatus : (recvLoop answers.recvs (s.input.getD fd [])).status with
  | tooLarge => exact absurd hstatus hlarge
  | failed => exact absurd hstatus (hfailed hrecv)
  | _ =>
    dsimp only
    split
    · rename_i s₂ heq
      rw [heq] at hfaithful
      exact handled_sendAndClose hfaithful
    · rename_i s₂ heq
      rw [heq] at hfaithful hcurrent
      exact handled_sendReplies hfaithful (hcurrent rfl)

theorem served_of_handled {fd : ℕ} {answers : Answers} {s : Server}
    (h : Handled fd (handleReadable fd answers s)) : Served fd (handleReadEvent fd answers s) := by
  unfold handleReadEvent
  split
  · rename_i s₁ heq
    rw [heq] at h
    exact ⟨h.faithful, fun hlive => absurd (h.killed rfl) hlive.2⟩
  · rename_i s₁ heq
    rw [heq] at h
    exact served_closeClient h.faithful
  · rename_i s₁ heq
    rw [heq] at h
    have hcurrent := h.current .closeWhenSent rfl nofun
    split
    · exact served_closeClient h.faithful
    · exact ⟨h.faithful, fun _ => hcurrent.congr rfl rfl rfl⟩
  · rename_i s₁ heq
    rw [heq] at h
    exact ⟨h.faithful, fun _ => h.current .keepOpen rfl nofun⟩

/-- After the last `try_send` nothing more is entered for the client, and it is gone. -/
theorem handleReadEvent_sendAndClose {fd : ℕ} {answers : Answers} {s s' : Server}
    (h : handleReadable fd answers s = sendAndClose fd answers.sends s') :
    ledger fd (handleReadEvent fd answers s).trace =
        ledger fd (trySend fd answers.sends s').2.trace ∧
      ¬ Live fd (handleReadEvent fd answers s) := by
  rcases hsend : trySend fd answers.sends s' with ⟨returned, s₁⟩
  rw [handleReadEvent, h, sendAndClose, hsend]
  cases returned with
  | none =>
    have hkilled := trySend_killed (congrArg Prod.fst hsend)
    rw [hsend] at hkilled
    exact ⟨rfl, fun hlive => hlive.2 hkilled⟩
  | some sent => exact ⟨ledger_note fd [.closed] _, not_live_closeClient fd s₁⟩

theorem ledger_crossing {fd : ℕ} {answers : Answers} {s : Server} {before after : List Bytes}
    {chunk : Bytes} (hopen : s.openFds.contains fd = true)
    (hchunks : chunks answers.recvs = before ++ chunk :: after)
    (hfits : (s.input.getD fd [] ++ before.flatten).length ≤ kMaxRequestBytes)
    (hcrosses : kMaxRequestBytes < (s.input.getD fd [] ++ before.flatten ++ chunk).length) :
    (∃ sent, ledger fd (handleReadEvent fd answers s).trace =
      { ledger fd s.trace with
        received := (ledger fd s.trace).received ++ (before.flatten ++ chunk)
        oversized := true
        sent := (ledger fd s.trace).sent ++ sent }) ∧
      ¬ Live fd (handleReadEvent fd answers s) := by
  have hread := receive_open hopen answers.recvs
  rw [recvLoop_crosses hchunks (.inr hfits) hcrosses] at hread
  set s₁ := Server.note fd [.received (before.flatten ++ chunk)] _ with hs₁
  have hhandle : handleReadable fd answers s =
      sendAndClose fd answers.sends (refuseOversized fd s₁) := by
    rw [handleReadable, hread]
  obtain ⟨hledger, hgone⟩ := handleReadEvent_sendAndClose hhandle
  obtain ⟨sent, hsent, -⟩ := ledger_trySend fd answers.sends (refuseOversized fd s₁)
  refine ⟨⟨sent, ?_⟩, hgone⟩
  rw [hledger, hsent, refuseOversized, ledger_note]
  simp [hs₁, Ledger.record]

theorem served_crossing {fd : ℕ} {answers : Answers} {s : Server} {before after : List Bytes}
    {chunk : Bytes} (h : Served fd s) (hlive : Live fd s)
    (hchunks : chunks answers.recvs = before ++ chunk :: after)
    (hfits : (s.input.getD fd [] ++ before.flatten).length ≤ kMaxRequestBytes)
    (hcrosses : kMaxRequestBytes < (s.input.getD fd [] ++ before.flatten ++ chunk).length)
    (halone : parse (s.input.getD fd [] ++ before.flatten ++ chunk) = .incomplete) :
    Served fd (handleReadEvent fd answers s) := by
  have hcurrent := h.current hlive
  obtain ⟨⟨sent, hledger⟩, hgone⟩ := ledger_crossing hlive.1 hchunks hfits hcrosses
  have hdrain := drain_append parse_stable (h.faithful.error.symm.trans hcurrent.error)
    (before.flatten ++ chunk)
  rw [← hcurrent.input, ← List.append_assoc (s.input.getD fd []), drain_incomplete halone] at hdrain
  refine ⟨?_, fun hlive => absurd hlive hgone⟩
  rw [hledger]
  refine ⟨?_, ?_, fun _ => ⟨hcurrent.error, ?_⟩⟩
  · simp only [hdrain, List.append_nil]
    exact h.faithful.requests
  · simp only [hdrain]
    exact hcurrent.error
  · simpa only [hdrain] using hcrosses

/-- A readiness event keeps a client served. -/
theorem served_handleReadEvent {fd : ℕ} {answers : Answers} {s : Server} (h : Served fd s)
    (halive : s.phase ≠ .killed)
    (hrecv : s.openFds.contains fd = true → breaks answers.recvs = false)
    (halone : s.openFds.contains fd = true →
      AloneWhenCrossing (s.input.getD fd []) answers.recvs) :
    Served fd (handleReadEvent fd answers s) := by
  cases hopen : s.openFds.contains fd with
  | false => exact served_stale h hopen
  | true =>
    have hlive : Live fd s := ⟨hopen, halive⟩
    rcases fits_or_crosses (h.current hlive).fits (chunks answers.recvs) with
      hfits | ⟨before, chunk, after, hchunks, hfits, hcrosses⟩
    · exact served_of_handled (handled_fitting h hlive (hrecv hopen) hfits)
    · exact served_crossing h hlive hchunks hfits hcrosses
        (halone hopen before chunk after hchunks hfits hcrosses)

theorem served_handleWriteEvent {fd : ℕ} {answers : Answers} {s : Server} (h : Served fd s)
    (halive : s.phase ≠ .killed) : Served fd (handleWriteEvent fd answers s) := by
  have hfaithful : (ledger fd (trySend fd answers.sends s).2.trace).Faithful :=
    faithful_trySend h.faithful
  have hopen : (trySend fd answers.sends s).2.openFds = s.openFds := rfl
  have hcurrent : ∀ s₁, (trySend fd answers.sends s).2 = s₁ → s₁.openFds.contains fd = true →
      Current fd s₁ := by
    rintro s₁ rfl h₁
    exact current_trySend (h.current ⟨h₁, halive⟩)
  have hkilled := @trySend_killed fd answers.sends s
  unfold handleWriteEvent
  split
  · rename_i s₁ heq
    rw [heq] at hfaithful hkilled
    exact ⟨hfaithful, fun hlive => absurd (hkilled rfl) hlive.2⟩
  · rename_i s₁ heq
    rw [heq] at hfaithful
    exact served_closeClient hfaithful
  · rename_i s₁ heq
    rw [heq] at hfaithful hcurrent
    split
    · dsimp only
      split
      · exact served_closeClient hfaithful
      · exact ⟨hfaithful, fun hlive => (hcurrent s₁ rfl hlive.1).congr rfl rfl rfl⟩
    · exact ⟨hfaithful, fun hlive => hcurrent s₁ rfl hlive.1⟩

theorem Untouched.refused (fd fd' : ℕ) (s : Server) : Untouched fd s (s.note fd' [.refused]) := by
  by_cases hfd : fd' = fd
  · subst hfd
    exact ⟨rfl, rfl, rfl, rfl, rfl, rfl, ledger_note fd' [.refused] s⟩
  · exact .note hfd _ s

theorem fresh_acceptClients {fd : ℕ} {results : List AcceptResult} {s : Server}
    (h : Fresh fd s ∨ fd ∈ acceptedFds results) : Fresh fd (acceptClients results s) := by
  induction results generalizing s with
  | nil => exact h.resolve_right (by simp [acceptedFds])
  | cons result results ih =>
    cases result with
    | wouldBlock => exact h.resolve_right (by simp [acceptedFds])
    | failed => exact h.resolve_right (by simp [acceptedFds])
    | interrupted => exact ih h
    | connection fd' nonBlocking registered =>
      rw [acceptedFds] at h
      rw [acceptClients]
      split
      · rename_i hready
        rw [if_pos hready] at h
        refine ih ?_
        by_cases hfd : fd' = fd
        · subst hfd
          exact .inl (fresh_addClient fd' s)
        · refine h.imp (Untouched.addClient hfd s).fresh fun hmem => ?_
          exact (List.mem_cons.mp hmem).resolve_left (Ne.symm hfd)
      · rename_i hready
        rw [if_neg hready] at h
        exact ih (h.imp_left (Untouched.refused fd fd' s).fresh)

theorem served_acceptClients {fd : ℕ} (results : List AcceptResult) {s : Server} (h : Served fd s)
    (halive : s.phase ≠ .killed) : Served fd (acceptClients results s) := by
  refine And.left (acceptClients_keeps (P := fun s => Served fd s ∧ s.phase ≠ .killed) ?_ ?_
    ⟨h, halive⟩)
  · rintro fd' s ⟨h, halive⟩
    refine ⟨?_, halive⟩
    by_cases hfd : fd' = fd
    · subst hfd
      exact (fresh_addClient fd' s).served
    · exact (Untouched.addClient hfd s).served h halive
  · rintro fd' s ⟨h, halive⟩
    exact ⟨(Untouched.refused fd fd' s).served h halive, halive⟩

/-- The event makes the server read from this open client. -/
def Event.Reads (event : Event) (fd : ℕ) (s : Server) : Prop :=
  event.error = false ∧ event.fd ≠ s.listenFd ∧ event.filter = .read ∧ event.fd = fd ∧
    s.openFds.contains fd = true

instance (event : Event) (fd : ℕ) (s : Server) : Decidable (event.Reads fd s) := by
  unfold Event.Reads
  infer_instance

theorem served_handleEvent {fd : ℕ} {event : Event} {answers : Answers} {s : Server}
    (h : Served fd s) (halive : s.phase ≠ .killed)
    (hrecv : event.Reads fd s → breaks answers.recvs = false)
    (halone : event.Reads fd s → AloneWhenCrossing (s.input.getD fd []) answers.recvs) :
    Served fd (handleEvent event answers s) := by
  by_cases hlisten : event.fd = s.listenFd
  · unfold handleEvent
    simp only [if_pos hlisten]
    split
    · have hsame : Untouched fd s { s with running := false } :=
        ⟨rfl, rfl, rfl, rfl, rfl, rfl, rfl⟩
      exact hsame.served h halive
    · exact served_acceptClients answers.accepts h halive
  by_cases hfd : event.fd = fd
  · unfold handleEvent
    rw [if_neg hlisten, if_neg hlisten, hfd]
    split
    · exact served_closeClient h.faithful
    · rename_i herror
      cases hfilter : event.filter with
      | read =>
        have hreads : s.openFds.contains fd = true → event.Reads fd s :=
          fun hopen => ⟨by simpa using herror, hlisten, hfilter, hfd, hopen⟩
        exact served_handleReadEvent h halive (fun hopen => hrecv (hreads hopen))
          (fun hopen => halone (hreads hopen))
      | write => exact served_handleWriteEvent h halive
  · exact (Untouched.handleEvent hfd answers hlisten).served h halive

end RedisLite.EventLoop
