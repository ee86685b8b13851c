import RedisLite.LiveConnections
import RedisLite.RequestMemory

/-!
# Clients that read slowly

A client that has finished sending is closed when everything has been sent to it. However slowly it
reads, and whatever happens on other connections meanwhile, this comes about: every time the client can
be written to there is less left for it.
-/

namespace RedisLite.EventLoop
open ByteStrings Resp IncrementalDecoding Keyspace Commands MachineRuns

/-- A client that has finished sending, and has not been sent everything. -/
structure Leaving (fd : ℕ) (s : Server) : Prop where
  live : Live fd s
  marked : s.closing.contains fd = true
  pending : s.output.getD fd [] ≠ []

/-- What holds of the buffers of a client in every state: no complete request is left unparsed. -/
structure Settled (fd : ℕ) (s : Server) : Prop extends Sound fd s where
  bounded : Bounded s
  parsed : Live fd s → parse (s.input.getD fd []) = .incomplete

/-- `recv` says that the peer has finished sending. -/
def finishes : List RecvResult → Bool
  | .endOfFile :: _ => true
  | .interrupted :: results => finishes results
  | _ => false

/-- The kernel's side of a connection whose peer has finished sending and goes on reading: no call on
it fails, nothing more comes, and when the peer can be written to it takes at least a byte. -/
structure Patient (event : Event) (answers : Answers) (s : Server) : Prop where
  unfailing : Unfailing event answers s
  finished : event.filter = .read → finishes answers.recvs = true
  writable : event.filter = .write → 0 < room answers.sends

/-- As long as the client is to be closed, its events are those of a patient peer. -/
def AwaitsPatiently (fd : ℕ) (i : Input) (s : Server) : Prop :=
  ∀ e ∈ handled i s, e.1.fd = fd → s.closing.contains fd = true → Patient e.1 e.2 s

instance (event : Event) (answers : Answers) (s : Server) : Decidable (Unfailing event answers s) :=
  decidable_of_iff (event.fd ≠ s.listenFd ∧ s.openFds.contains event.fd = true ∧
    event.error = false ∧ breaks answers.recvs = false ∧
    ¬ SendFails answers.sends (outputToSend event answers s))
    ⟨fun h => ⟨h.1, h.2.1, h.2.2.1, h.2.2.2.1, h.2.2.2.2⟩,
      fun h => ⟨h.client, h.isOpen, h.noError, h.recv, h.send⟩⟩

instance (event : Event) (answers : Answers) (s : Server) : Decidable (Patient event answers s) :=
  decidable_of_iff (Unfailing event answers s ∧
    (event.filter = .read → finishes answers.recvs = true) ∧
    (event.filter = .write → 0 < room answers.sends))
    ⟨fun h => ⟨h.1, h.2.1, h.2.2⟩, fun h => ⟨h.unfailing, h.finished, h.writable⟩⟩

instance (fd : ℕ) (i : Input) (s : Server) : Decidable (AwaitsPatiently fd i s) :=
  inferInstanceAs (Decidable (∀ e ∈ handled i s, _ → _ → Patient e.1 e.2 s))

def writesTo (fd : ℕ) (i : Input) (s : Server) : Bool :=
  match handled i s with
  | some (event, _) => event.fd = fd ∧ event.filter = .write
  | none => false

/-- The connection has been closed, and everything has been sent on it. -/
def Dismissed (fd : ℕ) (s : Server) : Prop :=
  s.openFds.contains fd = false ∧ (ledger fd s.trace).sent = (ledger fd s.trace).owed

theorem recvLoop_finishes {results : List RecvResult} (h : finishes results = true)
    (buffer : Bytes) : recvLoop results buffer = ⟨buffer, [], .peerFinished⟩ := by
  induction results with
  | nil => cases h
  | cons result results ih =>
    cases result with
    | endOfFile => rfl
    | interrupted => exact ih h
    | data => cases h
    | wouldBlock => cases h
    | failed => cases h

section Settled
variable {fd : ℕ} {event : Event} {answers : Answers} {s s' : Server}

theorem parsed_read (hbounded : Bounded s) (houtcome : ReadOutcome fd answers s s')
    (hlive : Live fd s') : parse (s'.input.getD fd []) = .incomplete := by
  cases houtcome with
  | failed => exact absurd hlive (not_live_closeClient fd _)
  | silent hp => exact (hp.input nofun (hbounded fd)).2
  | left => exact absurd hlive (not_live_closeClient fd _)
  | killed _ hsend => exact absurd hlive (not_live_killed hsend)
  | dropped => exact absurd hlive (not_live_closeClient fd _)
  | rejected => exact absurd hlive (not_live_closeClient fd _)
  | answered hp => exact (hp.input nofun (hbounded fd)).2
  | finished => exact absurd hlive (not_live_closeClient fd _)
  | lingering hp => exact (hp.input nofun (hbounded fd)).2

theorem parsed_write (halive : s.phase ≠ .killed)
    (h : Live fd s → parse (s.input.getD fd []) = .incomplete)
    (houtcome : WriteOutcome fd answers s s') (hlive : Live fd s') :
    parse (s'.input.getD fd []) = .incomplete := by
  cases houtcome with
  | killed hsend => exact absurd hlive (not_live_killed hsend)
  | dropped => exact absurd hlive (not_live_closeClient fd _)
  | pending => exact h ⟨hlive.1, halive⟩
  | drained => exact h ⟨hlive.1, halive⟩
  | finished => exact absurd hlive (not_live_closeClient fd _)

theorem parsed_addClient (fd' : ℕ) (h : Live fd s → parse (s.input.getD fd []) = .incomplete)
    (hlive : Live fd (addClient fd' s)) :
    parse ((addClient fd' s).input.getD fd []) = .incomplete := by
  by_cases hfd : fd' = fd
  · subst hfd
    rw [(fresh_addClient fd' s).input]
    exact parse_nil
  · have hu := Untouched.addClient hfd s
    rw [hu.pendingInput]
    exact h ⟨hu.isOpen ▸ hlive.1, hlive.2⟩

theorem parsed_handleEvent (hbounded : Bounded s) (halive : s.phase ≠ .killed)
    (h : Live fd s → parse (s.input.getD fd []) = .incomplete)
    (hlive : Live fd (handleEvent event answers s)) :
    parse ((handleEvent event answers s).input.getD fd []) = .incomplete := by
  by_cases hfd : event.fd = fd ∨ event.fd = s.listenFd
  swap
  · rw [not_or] at hfd
    have hu := Untouched.handleEvent hfd.1 answers hfd.2
    rw [hu.pendingInput]
    exact h ⟨hu.isOpen ▸ hlive.1, halive⟩
  have houtcome := eventOutcome event answers s
  generalize handleEvent event answers s = s' at houtcome hlive ⊢
  cases houtcome with
  | listenFailed => exact h hlive
  | accepted =>
    exact acceptClients_keeps
      (P := fun s' => Live fd s' → parse (s'.input.getD fd []) = .incomplete)
      (fun fd' _ h => parsed_addClient fd' h) (fun _ _ h => h) h hlive
  | error hclient =>
    rw [hfd.resolve_right hclient] at hlive
    exact absurd hlive (not_live_closeClient fd s)
  | read hclient _ _ hread =>
    rw [hfd.resolve_right hclient] at hread
    exact parsed_read hbounded hread hlive
  | write hclient _ _ hwrite =>
    rw [hfd.resolve_right hclient] at hwrite
    exact parsed_write halive h hwrite hlive

theorem parsed_rests (hrests : Rests s s')
    (h : Live fd s → parse (s.input.getD fd []) = .incomplete) (hlive : Live fd s') :
    parse (s'.input.getD fd []) = .incomplete := by
  have hbefore := h (live_of_rests hrests hlive)
  rcases hrests with ⟨running, phase, -, rfl⟩ | ⟨-, rfl⟩
  · exact hbefore
  · exact absurd hlive (not_live_shutdown fd s)

/-- Every step leaves the buffers of a client as they should be. -/
theorem settled_step (i : Input) (h : Settled fd s) : Settled fd (step i s).2 := by
  refine ⟨sound_step i h.toSound, bounded_step i h.bounded, ?_⟩
  rcases step_cases i s with hrests | ⟨event, answers, hhandled, hrests⟩
  · exact parsed_rests hrests h.parsed
  · exact parsed_rests hrests
      (parsed_handleEvent h.bounded (handled_alive hhandled) h.parsed)

theorem settled_final (run : List Input) (fd listenFd : ℕ) (session : Session) :
    Settled fd (final step run (started listenFd session)) := by
  refine final_keeps (fun i _ h => settled_step i h) ?_ run
  refine ⟨sound_started fd listenFd session, bounded_started listenFd session, fun _ => ?_⟩
  simp [started, parse_nil]

end Settled

section Event
variable {fd : ℕ} {event : Event} {answers : Answers} {s s' : Server}

/-- The buffers of a client that is leaving, after a `try_send` that does not fail. -/
theorem Leaving.send {results : List SendResult} (h : Leaving fd s)
    (hsend : ¬ SendFails results (s.output.getD fd []))
    (hpending : (trySend fd results s).2.output.getD fd [] ≠ []) :
    Leaving fd (trySend fd results s).2 ∧ ((trySend fd results s).2.output.getD fd []).length +
      room results = (s.output.getD fd []).length := by
  obtain ⟨hreturned, hdrained⟩ := trySend_unfailing h.live.1 hsend
  have hmore : room results < (s.output.getD fd []).length := by
    by_contra hfits
    exact hpending (hdrained.mpr (Nat.not_lt.mp hfits))
  have hrest := (trySend_refused h.live.1 hmore).2
  refine ⟨⟨⟨h.live.1, ?_⟩, h.marked, hpending⟩, ?_⟩
  · rw [trySend_phase (by simp [hreturned])]
    exact h.live.2
  · rw [hrest, List.length_drop]
    omega

/-- Nothing more comes from the peer: what there is to send is what was there. -/
theorem Patient.nothing_new (hpatient : Patient event answers s)
    (hincomplete : parse (s.input.getD event.fd []) = .incomplete) (hfilter : event.filter = .read) :
    answeredOutput event.fd answers s = s.output.getD event.fd [] ∧ ¬ Rejected event answers s := by
  have hfinishes := recvLoop_finishes (hpatient.finished hfilter) (s.input.getD event.fd [])
  constructor
  · simp [answeredOutput, hfinishes, drain_incomplete hincomplete, executeAll, serializedReplies,
      errorReply]
  · rintro ⟨-, hrejected⟩
    simp [hfinishes, drain_incomplete hincomplete] at hrejected

/-- Everything is ready to be sent, and then the connection is to be closed. -/
theorem Leaving.prepared (h : Leaving event.fd s)
    (hincomplete : parse (s.input.getD event.fd []) = .incomplete)
    (hpatient : Patient event answers s) (hfilter : event.filter = .read) {after : AfterRead}
    {s₂ : Server} (hp : Prepared event.fd answers s after s₂) :
    Leaving event.fd s₂ ∧ s₂.output.getD event.fd [] = s.output.getD event.fd [] ∧
      after = .closeWhenSent := by
  obtain ⟨houtput, hrejected⟩ := hpatient.nothing_new hincomplete hfilter
  have hafter : after ≠ .closeNow := mt (hp.rejected_iff hfilter).mpr hrejected
  have hsame : s₂.output.getD event.fd [] = s.output.getD event.fd [] := hp.output.trans houtput
  obtain ⟨hfilters, hclosing⟩ := hp.filters
  obtain ⟨hphase, hopenFds⟩ := hp.same
  refine ⟨⟨⟨?_, ?_⟩, ?_, ?_⟩, hsame, ?_⟩
  · rw [hopenFds]
    exact h.live.1
  · rw [hphase]
    exact h.live.2
  · rw [hclosing]
    exact h.marked
  · rw [hsame]
    exact h.pending
  · have hopen := h.live.1
    have hfinished : (receive event.fd answers.recvs s).1 = .peerFinished := by
      rw [receive_status hopen, recvLoop_finishes (hpatient.finished hfilter)]
    cases hp with
    | oversized => exact absurd rfl hafter
    | served _ hkind =>
      rw [hkind, error_of_afterServing hkind hafter, hfinished]
      rfl

theorem dismissed_closeClient {fd : ℕ} {s : Server}
    (hsent : (closeClient fd s).openFds.contains fd = false →
      (ledger fd (closeClient fd s).trace).sent = (ledger fd (closeClient fd s).trace).owed) :
    Dismissed fd (closeClient fd s) := by
  have hclosed : (closeClient fd s).openFds.contains fd = false := by simp [closeClient, Server.note]
  exact ⟨hclosed, hsent hclosed⟩

theorem leaving_read (h : Leaving event.fd s) (hsettled : Settled event.fd s)
    (hpatient : Patient event answers s) (hfilter : event.filter = .read)
    (houtcome : ReadOutcome event.fd answers s s') :
    Dismissed event.fd s' ∨ Leaving event.fd s' ∧
      (s'.output.getD event.fd []).length ≤ (s.output.getD event.fd []).length := by
  have hunfailing := hpatient.unfailing
  have hincomplete := hsettled.parsed h.live
  obtain ⟨-, hrejected⟩ := hpatient.nothing_new hincomplete hfilter
  have hsent := all_sent_read hunfailing hfilter houtcome (hsettled.whole h.live.1)
    (hsettled.clean h.live) (fun hrejects => absurd hrejects hrejected)
  cases houtcome with
  | failed => exact .inl (dismissed_closeClient hsent)
  | silent hp => cases (h.prepared hincomplete hpatient hfilter hp).2.2
  | left => exact .inl (dismissed_closeClient hsent)
  | killed hp hnone => cases (hp.unfailing hunfailing hfilter).1.symm.trans hnone
  | dropped => exact .inl (dismissed_closeClient hsent)
  | rejected => exact .inl (dismissed_closeClient hsent)
  | answered hp => cases (h.prepared hincomplete hpatient hfilter hp).2.2
  | finished => exact .inl (dismissed_closeClient hsent)
  | lingering hp _ hpending =>
    obtain ⟨hready, hsame, -⟩ := h.prepared hincomplete hpatient hfilter hp
    have hnotFails := hunfailing.send
    rw [outputToSend_read hunfailing hfilter, ← hp.output] at hnotFails
    obtain ⟨hleaving, hlength⟩ := hready.send hnotFails hpending
    rw [hsame] at hlength
    refine .inr ⟨⟨hleaving.live, ?_, hleaving.pending⟩, ?_⟩
    · simp
    · exact (Nat.le_add_right _ _).trans hlength.le

/-- The peer can be written to: it takes a part of what is left, or all of it. -/
theorem leaving_write (h : Leaving event.fd s) (hsound : Sound event.fd s)
    (hpatient : Patient event answers s) (hfilter : event.filter = .write)
    (houtcome : WriteOutcome event.fd answers s s') :
    Dismissed event.fd s' ∨ Leaving event.fd s' ∧
      (s'.output.getD event.fd []).length < (s.output.getD event.fd []).length := by
  have hunfailing := hpatient.unfailing
  have hsent := all_sent_write hunfailing hfilter houtcome (hsound.whole h.live.1)
  have hnotFails := hunfailing.send
  rw [outputToSend_write hunfailing hfilter] at hnotFails
  cases houtcome with
  | killed hnone => cases (trySend_unfailing h.live.1 hnotFails).1.symm.trans hnone
  | dropped => exact .inl (dismissed_closeClient hsent)
  | pending _ hpending =>
    obtain ⟨hleaving, hlength⟩ := h.send hnotFails hpending
    have hroom := hpatient.writable hfilter
    exact .inr ⟨hleaving, by omega⟩
  | drained _ _ hstays => cases hstays.symm.trans h.marked
  | finished => exact .inl (dismissed_closeClient hsent)

end Event

section Step
variable {fd : ℕ} {i : Input} {s s' : Server}

theorem Untouched.leaving (hu : Untouched fd s s') (h : Leaving fd s) (halive : s'.phase ≠ .killed) :
    Leaving fd s' := by
  refine ⟨⟨?_, halive⟩, ?_, ?_⟩
  · rw [hu.isOpen]
    exact h.live.1
  · rw [hu.closing]
    exact h.marked
  · rw [hu.pendingOutput]
    exact h.pending

/-- Connections that are accepted leave those alone that are open. -/
theorem untouched_acceptClients {results : List AcceptResult}
    (hfresh : freshAccepts results s.openFds = true) (hopen : s.openFds.contains fd = true) :
    Untouched fd s (acceptClients results s) := by
  induction results generalizing s with
  | nil => exact .refl s
  | cons result results ih =>
    cases result with
    | connection fd' nonBlocking registered =>
      rw [freshAccepts, Bool.and_eq_true, Bool.not_eq_true'] at hfresh
      obtain ⟨hclosed, hfresh⟩ := hfresh
      have hother : fd' ≠ fd := by
        rintro rfl
        cases hclosed.symm.trans hopen
      rw [acceptClients]
      split
      · rename_i hset
        rw [if_pos hset] at hfresh
        refine (Untouched.addClient hother s).trans (ih hfresh ?_)
        exact (Untouched.contains_insert_ne hother _).trans hopen
      · rename_i hset
        rw [if_neg hset] at hfresh
        exact (Untouched.note hother _ s).trans (ih hfresh hopen)
    | interrupted => exact ih hfresh hopen
    | wouldBlock => exact .refl s
    | failed => exact .refl s

theorem untouched_of_other (hfresh : AcceptsFresh i s) {event : Event} {answers : Answers}
    (hhandled : handled i s = some (event, answers)) (hother : event.fd ≠ fd)
    (hopen : s.openFds.contains fd = true) : Untouched fd s (handleEvent event answers s) := by
  by_cases hlisten : event.fd = s.listenFd
  · have hclosed := hfresh _ hhandled hlisten
    unfold handleEvent
    rw [if_pos hlisten, if_pos hlisten]
    split
    · exact ⟨rfl, rfl, rfl, rfl, rfl, rfl, rfl⟩
    · exact untouched_acceptClients hclosed hopen
  · exact .handleEvent hother answers hlisten

/-- What the client is left with when an event has been handled. -/
theorem leaving_handled (hfresh : AcceptsFresh i s) (hpatiently : AwaitsPatiently fd i s)
    (h : Leaving fd s) (hsettled : Settled fd s) {event : Event} {answers : Answers}
    (hhandled : handled i s = some (event, answers)) :
    let s' := handleEvent event answers s
    Dismissed fd s' ∨ s'.phase = .killed ∧ writesTo fd i s = false ∨ Leaving fd s' ∧
      (s'.output.getD fd []).length + (writesTo fd i s).toNat ≤ (s.output.getD fd []).length := by
  intro s'
  by_cases hfd : event.fd = fd
  · subst hfd
    have hpatient := hpatiently _ hhandled rfl h.marked
    have hevent : s' = _ := hpatient.unfailing.handleEvent_eq
    cases hfilter : event.filter with
    | read =>
      rw [hevent, hfilter]
      rcases leaving_read h hsettled hpatient hfilter (readOutcome event.fd answers s) with
        hdone | ⟨hleaving, hlength⟩
      · exact .inl hdone
      · refine .inr (.inr ⟨hleaving, ?_⟩)
        simpa [writesTo, hhandled, hfilter] using hlength
    | write =>
      rw [hevent, hfilter]
      rcases leaving_write h hsettled.toSound hpatient hfilter (writeOutcome event.fd answers s) with
        hdone | ⟨hleaving, hlength⟩
      · exact .inl hdone
      · refine .inr (.inr ⟨hleaving, ?_⟩)
        simpa [writesTo, hhandled, hfilter] using Nat.succ_le_of_lt hlength
  · have hu := untouched_of_other hfresh hhandled hfd h.live.1
    have hkind : writesTo fd i s = false := by simp [writesTo, hhandled, hfd]
    by_cases halive : s'.phase = .killed
    · exact .inr (.inl ⟨halive, hkind⟩)
    · refine .inr (.inr ⟨hu.leaving h halive, ?_⟩)
      rw [hkind, hu.pendingOutput]
      rfl

theorem dismissed_rests (hrests : Rests s s') (h : Dismissed fd s) : Dismissed fd s' := by
  rcases hrests with ⟨running, phase, -, rfl⟩ | ⟨-, rfl⟩
  · exact h
  · refine ⟨by simp [shutdown], ?_⟩
    rw [ledger_shutdown]
    exact h.2

theorem leaving_rests (hrests : Rests s s') (h : Leaving fd s) :
    s'.phase.Over ∨ Leaving fd s' ∧ s'.output = s.output := by
  rcases hrests with ⟨running, phase, hphase, rfl⟩ | ⟨-, rfl⟩
  · refine .inr ⟨⟨⟨h.live.1, fun hkilled => h.live.2 ?_⟩, h.marked, h.pending⟩, rfl⟩
    exact (Phase.Over.eq_iff (.inr rfl) hphase).mp hkilled
  · exact .inl (.inl rfl)

theorem over_step (fd : ℕ) (i : Input) (s : Server) (h : s.phase.Over) :
    writesTo fd i s = false ∧ (step i s).2.phase.Over := by
  rcases step_cases i s with hrests | ⟨event, answers, hhandled, -⟩
  · refine ⟨?_, over_rests hrests h⟩
    unfold writesTo
    cases hhandled : handled i s with
    | none => rfl
    | some e => exact absurd h (handled_goesOn hhandled)
  · exact absurd h (handled_goesOn hhandled)

/-- After a step the client is gone, or the server is, or no more is left for the client than before,
and less if it could be written to. -/
theorem leaving_step (hfresh : AcceptsFresh i s) (hpatiently : AwaitsPatiently fd i s)
    (h : Leaving fd s) (hsettled : Settled fd s) :
    Dismissed fd (step i s).2 ∨
      (step i s).2.phase.Over ∧ (writesTo fd i s).toNat < (s.output.getD fd []).length ∨
      Leaving fd (step i s).2 ∧ ((step i s).2.output.getD fd []).length +
        (writesTo fd i s).toNat ≤ (s.output.getD fd []).length := by
  have hleft : ∀ {s'}, Leaving fd s' → 0 < (s'.output.getD fd []).length :=
    fun h' => List.length_pos_iff.mpr h'.pending
  cases hhandled : handled i s with
  | none =>
    have hrests : Rests s (step i s).2 := by
      rcases step_cases i s with hrests | ⟨event, answers, hsome, -⟩
      · exact hrests
      · cases hhandled.symm.trans hsome
    have hkind : writesTo fd i s = false := by simp [writesTo, hhandled]
    rw [hkind]
    rcases leaving_rests hrests h with hover | ⟨hleaving, houtput⟩
    · exact .inr (.inl ⟨hover, hleft h⟩)
    · exact .inr (.inr ⟨hleaving, by simp [houtput]⟩)
  | some e =>
    obtain ⟨event, answers⟩ := e
    have hrests := rests_of_handled hhandled
    rcases leaving_handled hfresh hpatiently h hsettled hhandled with hdone | ⟨hkilled, hkind⟩ |
      ⟨hleaving, hlength⟩
    · exact .inl (dismissed_rests hrests hdone)
    · rw [hkind]
      exact .inr (.inl ⟨over_rests hrests (.inr hkilled), hleft h⟩)
    · have hmore := hleft hleaving
      rcases leaving_rests hrests hleaving with hover | ⟨hstays, houtput⟩
      · exact .inr (.inl ⟨hover, by omega⟩)
      · rw [houtput]
        exact .inr (.inr ⟨hstays, hlength⟩)

end Step

/-- However little a client takes at a time that has finished sending, and whatever happens on other
connections, the client is sent all that it is owed and then it is closed, if it can be written to as
often as there are bytes left for it. -/
theorem slow_reader_served (listenFd : ℕ) (session : Session) (before run : List Input) (fd : ℕ) :
    let s := final step before (started listenFd session)
    Leaving fd s → Along AcceptsFresh step run s → Along (AwaitsPatiently fd) step run s →
      (s.output.getD fd []).length ≤ occurrences (writesTo fd) step run s →
        ∃ k, Dismissed fd (final step (run.take k) s) := by
  intro s h hfresh hpatiently henough
  refine @countdown _ _ _ (writesTo fd) _ step (fun s => Leaving fd s ∧ Settled fd s) _
    (fun s => s.phase.Over) (fun s => (s.output.getD fd []).length) ?_ ?_ (over_step fd) _ _
    ⟨h, settled_final before fd listenFd session⟩ (hfresh.and hpatiently) henough
  · exact fun s h => List.length_pos_iff.mpr h.1.pending
  · rintro i s ⟨hfresh, hpatiently⟩ ⟨hleaving, hsettled⟩
    rcases leaving_step hfresh hpatiently hleaving hsettled with hdone | hover | ⟨hnext, hlength⟩
    · exact .inl hdone
    · exact .inr (.inl hover)
    · exact .inr (.inr ⟨⟨hnext, settled_step i hsettled⟩, hlength⟩)

/-- The client takes its last four bytes one by one; meanwhile another one comes, and is served. -/
def trickle : List Input :=
  [.ready [⟨3, .read, false⟩, ⟨5, .write, false⟩],
    .handle { accepts := [.connection 6 true true] },
    .handle { sends := [.accepted 1, .wouldBlock true] },
    .ready [⟨5, .read, false⟩, ⟨6, .read, false⟩],
    .handle { recvs := [.endOfFile], sends := [.interrupted, .wouldBlock true] },
    .handle { recvs := [chunkOf "*1\r\n$4\r\nPING\r\n" ping_isChunk], sends := [.accepted 7] },
    .ready [⟨5, .write, false⟩], .handle { sends := [.accepted 1, .wouldBlock true] },
    .ready [⟨5, .write, false⟩], .handle { sends := [.accepted 1, .wouldBlock true] },
    .ready [⟨5, .write, false⟩], .handle { sends := [.accepted 1] }]

theorem leaving_halfClosed : Leaving 5 (final step halfClosed (started 3 ⟨{}, none⟩)) where
  live := ⟨by decide +kernel, by decide +kernel⟩
  marked := by decide +kernel
  pending := by decide +kernel

theorem trickle_served : ∃ k, Dismissed 5
    (final step (trickle.take k) (final step halfClosed (started 3 ⟨{}, none⟩))) :=
  slow_reader_served 3 ⟨{}, none⟩ halfClosed trickle 5 leaving_halfClosed
    (by decide +kernel) (by decide +kernel) (by decide +kernel)

end RedisLite.EventLoop
