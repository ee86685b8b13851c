import RedisLite.ConnectionBookkeeping
import RedisLite.HangUps
import RedisLite.ReplyFraming
import RedisLite.RequestSizeLimit
import RedisLite.SequentialExecution

/-!
# Connections that stay open

A connection stays open if no call on it fails and the bytes that come are well formed and few enough.
If it is open before a step of the event loop and after it, then `recv` has not failed on it and
nothing was too large, and the step has only added to its history.
-/

namespace RedisLite.EventLoop
open ByteStrings Resp IncrementalDecoding Keyspace Commands MachineRuns
open Operations (Call Representable Framed BreaksLine executeCommand_framed serve)

/-- A loop that neither fails nor finds a chunk too large has taken everything. -/
theorem recvLoop_goesOn {results : List RecvResult} {buffer : Bytes}
    (hlarge : (recvLoop results buffer).status ≠ .tooLarge)
    (hfailed : (recvLoop results buffer).status ≠ .failed)
    (hfits : buffer.length ≤ kMaxRequestBytes) :
    breaks results = false ∧ (buffer ++ (chunks results).flatten).length ≤ kMaxRequestBytes := by
  induction results generalizing buffer with
  | nil => exact ⟨rfl, by simpa [chunks] using hfits⟩
  | cons result results ih =>
    cases result with
    | data chunk =>
      by_cases hcrosses : kMaxRequestBytes < buffer.length + chunk.bytes.length
      · rw [recvLoop, if_pos hcrosses] at hlarge
        exact absurd rfl hlarge
      · rw [recvLoop, if_neg hcrosses] at hlarge hfailed
        obtain ⟨hbreaks, hlength⟩ := @ih (buffer ++ chunk.bytes) hlarge hfailed
          (by rw [List.length_append]; omega)
        exact ⟨hbreaks, by simpa [chunks] using hlength⟩
    | interrupted => exact ih hlarge hfailed hfits
    | endOfFile => exact ⟨rfl, by simpa [chunks] using hfits⟩
    | wouldBlock => exact ⟨rfl, by simpa [chunks] using hfits⟩
    | failed => exact absurd rfl hfailed

section Live
variable {fd : ℕ} {answers : Answers} {s s' : Server}

theorem live_of_rests (hrests : Rests s s') (hlive : Live fd s') : Live fd s := by
  rcases hrests with ⟨running, phase, hphase, rfl⟩ | ⟨-, rfl⟩
  · exact ⟨hlive.1, mt (Phase.Over.eq_iff (.inr rfl) hphase).mpr hlive.2⟩
  · exact absurd hlive (not_live_shutdown fd s)

theorem not_live_killed {results : List SendResult} (hsend : (trySend fd results s).1 = none) :
    ¬ Live fd (trySend fd results s).2 := fun hlive => hlive.2 (trySend_killed hsend)

/-- A client that is open after it was read from has been served. -/
theorem ReadOutcome.drained (h : ReadOutcome fd answers s s') (hlive : Live fd s') :
    (receive fd answers.recvs s).1 ≠ .tooLarge ∧ (receive fd answers.recvs s).1 ≠ .failed := by
  have hserved : ∀ {after s₂}, Prepared fd answers s after s₂ → after ≠ .closeNow →
      (receive fd answers.recvs s).1 ≠ .tooLarge ∧ (receive fd answers.recvs s).1 ≠ .failed := by
    intro after s₂ hp hafter
    cases hp with
    | oversized => exact absurd rfl hafter
    | served hstatus =>
      rcases hstatus with hstatus | hstatus
      · simp [hstatus]
      · simp [hstatus]
  cases h with
  | failed => exact absurd hlive (not_live_closeClient fd _)
  | silent hp => exact hserved hp nofun
  | left => exact absurd hlive (not_live_closeClient fd _)
  | killed _ hsend => exact absurd hlive (not_live_killed hsend)
  | dropped => exact absurd hlive (not_live_closeClient fd _)
  | rejected => exact absurd hlive (not_live_closeClient fd _)
  | answered hp => exact hserved hp nofun
  | finished => exact absurd hlive (not_live_closeClient fd _)
  | lingering hp => exact hserved hp nofun

end Live

/-- What a client that stays open has been sent is all read, and none of it was too large. -/
theorem recv_of_live_step {fd : ℕ} {i : Input} {s : Server} (hserved : Served fd s)
    (hlive' : Live fd (step i s).2) : RecvSucceeds fd i s ∧ Fits fd i s := by
  suffices hall : ∀ results ∈ readResults fd i s, breaks results = false ∧
      (s.input.getD fd [] ++ (chunks results).flatten).length ≤ kMaxRequestBytes from
    ⟨fun results hresults => (hall results hresults).1,
      fun results hresults => (hall results hresults).2⟩
  intro results hresults
  obtain ⟨answers, event, batch, rfl, hphase, hreads, rfl⟩ := readResults_cases hresults
  have hrests := rests_of_handled (handled_of_phase hphase answers)
  have hlive := live_of_rests hrests hlive'
  obtain ⟨herror, hlisten, hfilter, rfl, hopen⟩ := hreads
  have hevent : handleEvent event answers s = handleReadEvent event.fd answers s := by
    simp [handleEvent, herror, hlisten, hfilter]
  rw [hevent] at hlive
  obtain ⟨hlarge, hfailed⟩ := (readOutcome event.fd answers s).drained hlive
  rw [receive_open hopen] at hlarge hfailed
  exact recvLoop_goesOn hlarge hfailed (hserved.current ⟨hopen, by simp [hphase]⟩).fits

theorem served_live_step {fd : ℕ} {i : Input} {s : Server} (hserved : Served fd s)
    (hlive' : Live fd (step i s).2) : Served fd (step i s).2 := by
  obtain ⟨hrecv, hfits⟩ := recv_of_live_step hserved hlive'
  exact served_step i s hrecv hfits.alone hserved

/-- A client whose connection is open, and will not be closed when all is sent. -/
structure Standing (fd : ℕ) (s : Server) : Prop where
  live : Live fd s
  client : fd ≠ s.listenFd
  stays : s.closing.contains fd = false

/-- The process goes on, and on the connection no call fails and no end of the stream is seen. -/
structure Untroubled (fd : ℕ) (i : Input) (s : Server) : Prop where
  goesOn : ¬ (step i s).2.phase.Over
  noError : ∀ e ∈ handled i s, e.1.fd = fd → e.1.error = false
  recv : ∀ e ∈ handled i s, e.1.fd = fd → breaks e.2.recvs = false ∧ .endOfFile ∉ e.2.recvs
  send : ∀ e ∈ handled i s, e.1.fd = fd → ¬ SendFails e.2.sends (outputToSend e.1 e.2 s)

theorem untroubled_of_unhandled {i : Input} {s : Server} (h : handled i s = none)
    (hgoesOn : ¬ (step i s).2.phase.Over) (fd : ℕ) : Untroubled fd i s := by
  refine ⟨hgoesOn, ?_, ?_, ?_⟩
  all_goals
    intro e he
    rw [h] at he
    cases he

theorem untroubled_of_handled {i : Input} {s : Server} {event : Event} {answers : Answers}
    (h : handled i s = some (event, answers)) (hgoesOn : ¬ (step i s).2.phase.Over)
    (herror : event.error = false) (hrecv : breaks answers.recvs = false ∧ .endOfFile ∉ answers.recvs)
    (hsend : ¬ SendFails answers.sends (outputToSend event answers s)) (fd : ℕ) :
    Untroubled fd i s := by
  refine ⟨hgoesOn, ?_, ?_, ?_⟩
  all_goals
    intro e he _
    rw [h] at he
    cases he
    assumption

theorem recvLoop_unfinished {results : List RecvResult} (h : .endOfFile ∉ results) (buffer : Bytes) :
    (recvLoop results buffer).status ≠ .peerFinished := by
  induction results generalizing buffer with
  | nil =>
    intro hfinished
    cases hfinished
  | cons result results ih =>
    have hrest : .endOfFile ∉ results := fun hmem => h (List.mem_cons_of_mem result hmem)
    cases result with
    | data chunk =>
      rw [recvLoop]
      split
      · intro hfinished
        cases hfinished
      · exact ih hrest _
    | interrupted => exact ih hrest buffer
    | endOfFile => exact absurd List.mem_cons_self h
    | wouldBlock =>
      intro hfinished
      cases hfinished
    | failed =>
      intro hfinished
      cases hfinished

theorem recvLoop_large {results : List RecvResult} {buffer : Bytes}
    (h : (recvLoop results buffer).status = .tooLarge) :
    kMaxRequestBytes < (buffer ++ (recvLoop results buffer).received).length := by
  induction results generalizing buffer with
  | nil => cases h
  | cons result results ih =>
    cases result with
    | data chunk =>
      by_cases hcrosses : kMaxRequestBytes < buffer.length + chunk.bytes.length
      · rw [recvLoop, if_pos hcrosses, List.length_append]
        exact hcrosses
      · rw [recvLoop, if_neg hcrosses] at h ⊢
        have hlarge := @ih (buffer ++ chunk.bytes) h
        rwa [List.append_assoc] at hlarge
    | interrupted => exact ih h
    | endOfFile => cases h
    | wouldBlock => cases h
    | failed => cases h

section Standing
variable {fd : ℕ} {event : Event} {answers : Answers} {s s' s₂ : Server} {after : AfterRead}

theorem Prepared.peerFinished (hp : Prepared fd answers s .closeWhenSent s₂) :
    (receive fd answers.recvs s).1 = .peerFinished := by
  generalize hafter : AfterRead.closeWhenSent = after at hp
  cases hp with
  | oversized => cases hafter
  | served hstatus hkind =>
    subst hafter
    by_contra hopen
    cases herror : (serveRequests fd answers.clock (receive fd answers.recvs s).2).1 with
    | some e => simp [herror, afterServing] at hkind
    | none => simp [herror, afterServing, hopen] at hkind

theorem Prepared.closing (hp : Prepared fd answers s after s₂) : s₂.closing = s.closing := by
  cases hp with
  | oversized => rfl
  | served => rfl

/-- Without a failure, an end of the stream or bytes to be rejected, no event closes a client. -/
theorem standing_event (hun : Unfailing event answers s) (hend : .endOfFile ∉ answers.recvs)
    (haccepted : ¬ Rejected event answers s) (hstays : s.closing.contains event.fd = false) :
    (handleEvent event answers s).openFds.contains event.fd = true ∧
      (handleEvent event answers s).closing.contains event.fd = false := by
  rw [hun.handleEvent_eq]
  cases hfilter : event.filter with
  | read =>
    have hunfinished : (receive event.fd answers.recvs s).1 ≠ .peerFinished := by
      rw [receive_status hun.isOpen]
      exact recvLoop_unfinished hend _
    have hsame {after s₂} (hp : Prepared event.fd answers s after s₂) :
        s₂.openFds.contains event.fd = true ∧ s₂.closing.contains event.fd = false := by
      rw [hp.same.2, hp.closing]
      exact ⟨hun.isOpen, hstays⟩
    have hsent {after s₂} (hp : Prepared event.fd answers s after s₂) :=
      (hp.unfailing hun hfilter).1
    have houtcome := readOutcome event.fd answers s
    dsimp only
    generalize handleReadEvent event.fd answers s = s' at houtcome
    cases houtcome with
    | failed hstatus => exact absurd hstatus hun.status
    | silent hp => exact hsame hp
    | left hp => exact absurd hp.peerFinished hunfinished
    | killed hp hsend => exact absurd ((hsent hp).symm.trans hsend) nofun
    | dropped hp hsend => exact absurd ((hsent hp).symm.trans hsend) (by simp)
    | rejected hp => exact absurd ((hp.rejected_iff hfilter).mpr rfl) haccepted
    | answered hp => exact ⟨(hsame hp).1, (hsame hp).2⟩
    | finished hp => exact absurd hp.peerFinished hunfinished
    | lingering hp => exact absurd hp.peerFinished hunfinished
  | write =>
    have hsend := hun.send
    rw [outputToSend_write hun hfilter] at hsend
    have hsent := (trySend_unfailing hun.isOpen hsend).1
    have houtcome := writeOutcome event.fd answers s
    dsimp only
    generalize handleWriteEvent event.fd answers s = s' at houtcome
    cases houtcome with
    | killed hnone => exact absurd (hsent.symm.trans hnone) nofun
    | dropped hfalse => exact absurd (hsent.symm.trans hfalse) (by simp)
    | pending => exact ⟨hun.isOpen, hstays⟩
    | drained => exact ⟨hun.isOpen, hstays⟩
    | finished _ _ hclosing => exact absurd (hstays.symm.trans hclosing) (by decide)

theorem standing_rests (hrests : Rests s s') (hgoesOn : ¬ s'.phase.Over)
    (hopen : s.openFds.contains fd = true) (hclient : fd ≠ s.listenFd)
    (hstays : s.closing.contains fd = false) : Standing fd s' := by
  have halive : s'.phase ≠ .killed := fun hkilled => hgoesOn (.inr hkilled)
  rcases hrests with ⟨running, phase, -, rfl⟩ | ⟨-, rfl⟩
  · exact ⟨⟨hopen, halive⟩, hclient, hstays⟩
  · exact absurd (.inl rfl) hgoesOn

theorem recvLoop_of_received {taken : Bytes} (hun : Unfailing event answers s)
    (hfilter : event.filter = .read)
    (htaken : (ledger event.fd (handleEvent event answers s).trace).received =
      (ledger event.fd s.trace).received ++ taken) :
    (recvLoop answers.recvs (s.input.getD event.fd [])).received = taken := by
  rw [hun.handleEvent_eq, hfilter, received_read (readOutcome event.fd answers s),
    receive_open hun.isOpen, ledger_note] at htaken
  exact List.append_cancel_left htaken

/-- Where all bytes taken together are short and well formed, none are rejected. -/
theorem not_rejected {taken : Bytes} (hun : Unfailing event answers s) (hserved : Served event.fd s)
    (hlive : Live event.fd s)
    (htaken : (ledger event.fd (handleEvent event answers s).trace).received =
      (ledger event.fd s.trace).received ++ taken)
    (hroom : (s.input.getD event.fd [] ++ taken).length ≤ kMaxRequestBytes)
    (hclean : (drain parse ((ledger event.fd s.trace).received ++ taken)).error = none) :
    ¬ Rejected event answers s := by
  rintro ⟨hfilter, hreason⟩
  have hreceived := recvLoop_of_received hun hfilter htaken
  have hcurrent := hserved.current hlive
  set buffer := s.input.getD event.fd [] with hbuffer
  have hlarge : (recvLoop answers.recvs buffer).status ≠ .tooLarge := by
    intro hlarge
    have hlength := recvLoop_large hlarge
    rw [hreceived] at hlength
    omega
  obtain ⟨-, hfits⟩ := recvLoop_goesOn hlarge (recvLoop_unbroken hun.recv buffer) hcurrent.fits
  obtain ⟨hrest, hchunks, -⟩ := recvLoop_fits hfits
  rw [← hchunks, hreceived] at hrest
  refine hreason.elim hlarge fun hmalformed => hmalformed ?_
  have hdrain := drain_append parse_stable (hserved.faithful.error.symm.trans hcurrent.error) taken
  rw [← hcurrent.input] at hdrain
  rw [hdrain] at hclean
  rwa [hrest]

end Standing

/-- A connection on which nothing fails stays open as long as its bytes are short and well formed. -/
theorem standing_step {fd : ℕ} {i : Input} {s : Server} {taken : Bytes} (h : Standing fd s)
    (hserved : Served fd s) (hcalls : Untroubled fd i s)
    (htaken : (ledger fd (step i s).2.trace).received = (ledger fd s.trace).received ++ taken)
    (hroom : (s.input.getD fd [] ++ taken).length ≤ kMaxRequestBytes)
    (hclean : (drain parse ((ledger fd s.trace).received ++ taken)).error = none) :
    Standing fd (step i s).2 := by
  cases hhandled : handled i s with
  | none =>
    exact standing_rests (rests_of_unhandled hhandled) hcalls.goesOn h.live.1 h.client h.stays
  | some e =>
    obtain ⟨event, answers⟩ := e
    have hrests := rests_of_handled hhandled
    by_cases hlisten : event.fd = s.listenFd
    · have hkept : (handleEvent event answers s).openFds.contains fd = true ∧
          fd ≠ (handleEvent event answers s).listenFd ∧
          (handleEvent event answers s).closing.contains fd = false := by
        unfold handleEvent
        rw [if_pos hlisten, if_pos hlisten]
        split
        · exact ⟨h.live.1, h.client, h.stays⟩
        · refine acceptClients_keeps (P := fun s => s.openFds.contains fd = true ∧
            fd ≠ s.listenFd ∧ s.closing.contains fd = false) ?_ ?_ ⟨h.live.1, h.client, h.stays⟩
          · rintro fd' s ⟨hopen, hclient, hstays⟩
            refine ⟨?_, hclient, hstays⟩
            change (s.openFds.insert fd').contains fd = true
            rw [contains_insert, hopen, Bool.or_true]
          · exact fun _ _ h => h
      exact standing_rests hrests hcalls.goesOn hkept.1 hkept.2.1 hkept.2.2
    · have hlistenFd : (handleEvent event answers s).listenFd = s.listenFd :=
        ((undisturbed_listenFd event.fd s.listenFd).event answers hlisten rfl).keeps fun _ h => h
      by_cases hfd : event.fd = fd
      · subst hfd
        obtain ⟨hbreaks, hend⟩ := hcalls.recv _ hhandled rfl
        have hun : Unfailing event answers s := ⟨hlisten, h.live.1, hcalls.noError _ hhandled rfl,
          hbreaks, hcalls.send _ hhandled rfl⟩
        rw [ledger_rests hrests] at htaken
        obtain ⟨hopen, hstays⟩ := standing_event hun hend
          (not_rejected hun hserved h.live htaken hroom hclean) h.stays
        exact standing_rests hrests hcalls.goesOn hopen (hlistenFd ▸ h.client) hstays
      · have hu := Untouched.handleEvent hfd answers hlisten
        exact standing_rests hrests hcalls.goesOn (hu.isOpen.trans h.live.1) (hlistenFd ▸ h.client)
          (hu.closing.trans h.stays)

/-- The trace has only become longer, and no connection has been accepted on this descriptor. -/
def Continues (fd : ℕ) (s s' : Server) : Prop :=
  ∃ later, s'.trace = s.trace ++ later ∧ (fd, Action.accepted) ∉ later

section Continues
variable {fd : ℕ} {s s' : Server}

theorem Continues.refl (fd : ℕ) (s : Server) : Continues fd s s := ⟨[], by simp, by simp⟩

theorem Continues.note (h : Continues fd s s') {fd' : ℕ} {actions : List Action}
    (hidle : fd' = fd → .accepted ∉ actions) : Continues fd s (s'.note fd' actions) := by
  obtain ⟨later, htrace, hlater⟩ := h
  refine ⟨later ++ actions.map (fd', ·), by rw [Server.note, htrace, List.append_assoc], ?_⟩
  rw [List.mem_append, not_or]
  refine ⟨hlater, fun hmem => ?_⟩
  obtain ⟨action, haction, heq⟩ := List.mem_map.mp hmem
  obtain ⟨rfl, rfl⟩ := Prod.mk.inj heq
  exact hidle rfl haction

theorem accepted_notMem_parsing (p : Parsing) : .accepted ∉ p.actions := by
  intro h
  rcases List.mem_append.mp h with h | h
  · obtain ⟨e, -, he⟩ := List.mem_map.mp h
    cases he
  · obtain ⟨e, -, he⟩ := List.mem_map.mp h
    cases he

theorem continues_undisturbed (fd fd' : ℕ) (s : Server) : Undisturbed fd' (Continues fd s) where
  receive results s' h := h.note (by simp)
  failed s' h := h.note (by simp)
  serve clock s' h := h.note fun _ => accepted_notMem_parsing _
  refuse s' h := h.note (by simp)
  send results s' h := h.note (by simp)
  linger _ h := h
  drain _ h := h

theorem continues_acceptClients {results : List AcceptResult} {s' : Server}
    (hfresh : freshAccepts results s'.openFds = true) (hopen : s'.openFds.contains fd = true)
    (h : Continues fd s s') : Continues fd s (acceptClients results s') := by
  induction results generalizing s' with
  | nil => exact h
  | cons result results ih =>
    cases result with
    | connection fd' nonBlocking registered =>
      rw [freshAccepts, Bool.and_eq_true, Bool.not_eq_true'] at hfresh
      obtain ⟨hclosed, hfresh⟩ := hfresh
      have hother : fd' ≠ fd := by
        rintro rfl
        rw [hclosed] at hopen
        cases hopen
      rw [acceptClients]
      split
      · rename_i hset
        rw [if_pos hset] at hfresh
        refine ih hfresh ?_ (h.note fun heq => absurd heq hother)
        exact (Untouched.contains_insert_ne hother _).trans hopen
      · rename_i hset
        rw [if_neg hset] at hfresh
        exact ih hfresh hopen (h.note fun heq => absurd heq hother)
    | interrupted => exact ih hfresh hopen h
    | wouldBlock => exact h
    | failed => exact h

theorem continues_rests (hrests : Rests s s') {s₀ : Server} (h : Continues fd s₀ s) :
    Continues fd s₀ s' := by
  rcases hrests with ⟨running, phase, -, rfl⟩ | ⟨-, rfl⟩
  · exact h
  · obtain ⟨later, htrace, hlater⟩ := h
    refine ⟨later ++ (s.input.keys ++ [s.listenFd]).map (·, Action.closed), ?_, ?_⟩
    · rw [shutdown, htrace, List.append_assoc]
    · rw [List.mem_append, not_or]
      refine ⟨hlater, fun hmem => ?_⟩
      obtain ⟨fd', -, heq⟩ := List.mem_map.mp hmem
      cases heq

/-- A step only adds to the history of a connection that is open. -/
theorem continues_step {i : Input} (hfresh : AcceptsFresh i s)
    (hopen : s.openFds.contains fd = true) : Continues fd s (step i s).2 := by
  refine step_keeps (P := Continues fd s) (fun _ _ hrests h => continues_rests hrests h)
    (fun event answers hhandled h => ?_) (.refl fd s)
  by_cases hclient : event.fd = s.listenFd
  · unfold handleEvent
    rw [if_pos hclient, if_pos hclient]
    split
    · exact h
    · exact continues_acceptClients (hfresh _ hhandled hclient) hopen h
  · exact ((continues_undisturbed fd event.fd s).event answers hclient h).keeps
      fun s' h' => h'.note (by simp)

structure Ledger.Grown (fd : ℕ) (later : List (ℕ × Action)) (l l' : Ledger) : Prop where
  executed : l'.executed =
    l.executed ++ ((executions later).filter (fun e => e.1 = fd)).map Prod.snd
  received : l.received <+: l'.received
  sent : l.sent <+: l'.sent

theorem Ledger.grown_record {entry : ℕ × Action} (h : entry ≠ (fd, .accepted)) (l : Ledger) :
    l.Grown fd [entry] (recordOn fd l entry) := by
  obtain ⟨fd', action⟩ := entry
  by_cases hfd : fd' = fd
  · subst hfd
    rw [recordOn, if_pos rfl]
    cases action with
    | accepted => exact absurd rfl h
    | received =>
      refine ⟨?_, List.prefix_append _ _, List.prefix_rfl⟩
      simp [executions, executedOn, record]
    | sent =>
      refine ⟨?_, List.prefix_rfl, List.prefix_append _ _⟩
      simp [executions, executedOn, record]
    | _ =>
      refine ⟨?_, List.prefix_rfl, List.prefix_rfl⟩
      simp [executions, executedOn, record]
  · rw [recordOn, if_neg hfd]
    refine ⟨?_, List.prefix_rfl, List.prefix_rfl⟩
    rw [executions_singleton]
    cases action with
    | executed => simp [executedOn, hfd]
    | _ => simp [executedOn]

theorem Ledger.grown_later {later : List (ℕ × Action)} (h : (fd, Action.accepted) ∉ later)
    (l : Ledger) : l.Grown fd later (later.foldl (recordOn fd) l) := by
  induction later generalizing l with
  | nil => exact ⟨by simp [executions], List.prefix_rfl, List.prefix_rfl⟩
  | cons entry later ih =>
    rw [List.mem_cons, not_or] at h
    have hfirst := l.grown_record (Ne.symm h.1)
    have hrest := ih h.2 (recordOn fd l entry)
    refine ⟨?_, hfirst.received.trans hrest.received, hfirst.sent.trans hrest.sent⟩
    rw [List.foldl_cons, hrest.executed, hfirst.executed, List.append_assoc, ← List.map_append,
      ← List.filter_append, ← executions_append]
    rfl

end Continues

def exchangeOn (r : Round (ℕ × Call) RespValue Session) : ℕ × RespValue × RespValue :=
  (r.input.1, r.input.2.request, r.output)

/-- Between two states the calls have been executed, and those of one connection are what its ledger
has more. -/
structure Serves (fd : ℕ) (calls : List (ℕ × Call)) (s s' : Server) : Prop where
  executed : executions s'.trace =
    executions s.trace ++ (trace serve calls s.session).map exchangeOn
  session : s'.session = final serve calls s.session
  ledger : (ledger fd s'.trace).executed = (ledger fd s.trace).executed ++
    (((trace serve calls s.session).map exchangeOn).filter (fun e => e.1 = fd)).map Prod.snd

section Serves
variable {fd : ℕ} {s s' s₁ : Server} {calls calls' : List (ℕ × Call)}

theorem Serves.refl (fd : ℕ) (s : Server) : Serves fd [] s s :=
  ⟨(List.append_nil _).symm, rfl, (List.append_nil _).symm⟩

theorem Serves.trans (h : Serves fd calls s s₁) (h' : Serves fd calls' s₁ s') :
    Serves fd (calls ++ calls') s s' where
  executed := by
    rw [h'.executed, h.executed, h.session, trace_append, List.map_append, List.append_assoc]
  session := by rw [h'.session, h.session, final_append]
  ledger := by
    rw [h'.ledger, h.ledger, h.session, trace_append, List.map_append, List.filter_append,
      List.map_append, List.append_assoc]

/-- The calls of one connection, executed one after the other. -/
theorem trace_serve_on (fd : ℕ) (calls : List Call) (session : Session) :
    (trace serve (calls.map (fd, ·)) session).map exchangeOn =
        ((trace Call.execute calls session).map exchange).map (fd, ·) ∧
      final serve (calls.map (fd, ·)) session = final Call.execute calls session := by
  induction calls generalizing session with
  | nil => exact ⟨rfl, rfl⟩
  | cons call calls ih =>
    obtain ⟨htrace, hfinal⟩ := ih (call.execute session).2
    exact ⟨congrArg (_ :: ·) htrace, hfinal⟩

/-- What a step executes has come from one connection. -/
theorem step_executes (i : Input) (s : Server) : ∃ calls : List (ℕ × Call),
    executions (step i s).2.trace =
        executions s.trace ++ (trace serve calls s.session).map exchangeOn ∧
      (step i s).2.session = final serve calls s.session := by
  cases hhandled : handled i s with
  | none =>
    obtain ⟨hsession, hexecuted⟩ := reached_rests (rests_of_unhandled hhandled) ⟨rfl, rfl⟩
    exact ⟨[], hexecuted.trans (List.append_nil _).symm, hsession⟩
  | some e =>
    obtain ⟨event, answers⟩ := e
    obtain ⟨requests, -, -, hreached⟩ := stepCalls_handled hhandled
    obtain ⟨hsession, hexecuted⟩ := reached_rests (rests_of_handled hhandled) hreached
    have hall := executeAll_eq_trace answers.clock 0 requests s.session
    rw [hall] at hsession hexecuted
    obtain ⟨htrace, hfinal⟩ := trace_serve_on event.fd
      (requests.mapIdx fun j request => (⟨answers.clock (0 + j), request⟩ : Call)) s.session
    exact ⟨_, hexecuted.trans (congrArg (_ ++ ·) htrace.symm), hsession.trans hfinal.symm⟩

theorem serves_step {i : Input} (hfresh : AcceptsFresh i s)
    (hopen : s.openFds.contains fd = true) : ∃ calls, Serves fd calls s (step i s).2 := by
  obtain ⟨later, htrace, hidle⟩ := continues_step hfresh hopen
  have hgrown := Ledger.grown_later hidle (ledger fd s.trace)
  rw [← ledger_append, ← htrace] at hgrown
  obtain ⟨calls, hexecuted, hsession⟩ := step_executes i s
  have hlater : executions later = (trace serve calls s.session).map exchangeOn := by
    rw [htrace, executions_append] at hexecuted
    exact List.append_cancel_left hexecuted
  exact ⟨calls, hexecuted, hsession, hlater ▸ hgrown.executed⟩

end Serves

/-- The clocks show 64-bit numbers, and the store is one that a program can hold, whenever a request of
the step is executed. -/
def Held (i : Input) (s : Server) : Prop :=
  Along (fun call session => Representable call.now ∧ session.store.Fits) Call.execute
    (stepCalls i s) s.session

structure LiveStep (fd : ℕ) (s s' : Server) : Prop where
  served : Served fd s'
  received : (ledger fd s.trace).received <+: (ledger fd s'.trace).received
  sent : (ledger fd s.trace).sent <+: (ledger fd s'.trace).sent
  executed : ∃ later, (ledger fd s'.trace).executed = (ledger fd s.trace).executed ++ later ∧
    ∀ e ∈ later, ¬ BreaksLine e.1 → Framed e.2

theorem live_step {fd : ℕ} {i : Input} {s : Server} (hserved : Served fd s) (hlive : Live fd s)
    (hlive' : Live fd (step i s).2) (hfresh : AcceptsFresh i s) (hheld : Held i s) :
    LiveStep fd s (step i s).2 := by
  obtain ⟨later, htrace, hidle⟩ := continues_step hfresh hlive.1
  have hgrown := Ledger.grown_later hidle (ledger fd s.trace)
  rw [← ledger_append, ← htrace] at hgrown
  have hcalls : (executions later).map Prod.snd =
      (trace Call.execute (stepCalls i s) s.session).map exchange := by
    have hall := (step_calls i s).1
    rw [htrace, executions_append, List.map_append] at hall
    exact List.append_cancel_left hall
  refine ⟨served_live_step hserved hlive', hgrown.received, hgrown.sent, _, hgrown.executed, ?_⟩
  intro e he hline
  have hmem : e ∈ (executions later).map Prod.snd :=
    (List.filter_sublist.map Prod.snd).subset he
  rw [hcalls] at hmem
  obtain ⟨r, hr, rfl⟩ := List.mem_map.mp hmem
  obtain ⟨session, ⟨hclock, hfits⟩, hround⟩ := hheld.round hr
  rw [hround]
  exact executeCommand_framed hclock hfits hline

end RedisLite.EventLoop
