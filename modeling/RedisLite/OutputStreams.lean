import RedisLite.DeliveryIndependence

/-!
# The byte stream to a client

What `send` has accepted for a connection and what is still pending for it are, one after the other,
the replies to the requests that have been executed for it, and at the end the error with which it is
closed. This holds at every moment, in the middle of an event too, and whichever connections have had
the same descriptor before.
-/

namespace RedisLite.EventLoop
open ByteStrings Resp IncrementalDecoding Keyspace Commands MachineRuns

/-- What the connection is to be sent: the replies to its requests, and then the error for which it is
closed. -/
def Ledger.owed (l : Ledger) : Bytes :=
  serializedReplies l.executed ++ errorReply l.error ++
    errorReply (if l.oversized then some sizeError else none)

def Ledger.Clean (l : Ledger) : Prop := l.error = none ∧ l.oversized = false

theorem Ledger.Clean.owed {l : Ledger} (h : l.Clean) : l.owed = serializedReplies l.executed := by
  simp [Ledger.owed, h.1, h.2, errorReply]

/-- The bytes that were accepted and the pending ones are what the connection is to be sent. -/
def Flowing (fd : ℕ) (s : Server) : Prop :=
  (ledger fd s.trace).sent ++ s.output.getD fd [] = (ledger fd s.trace).owed

/-- The stream of an open connection is whole, and nothing else was ever sent on it. -/
structure Streamed (fd : ℕ) (s : Server) : Prop where
  whole : s.openFds.contains fd = true → Flowing fd s
  only : (ledger fd s.trace).sent <+: (ledger fd s.trace).owed

theorem Flowing.streamed {fd : ℕ} {s : Server} (h : Flowing fd s) : Streamed fd s :=
  ⟨fun _ => h, _, h⟩

def serveRounds (fd : ℕ) (clock : ℕ → Readings) (n : ℕ) (s : Server) : Server :=
  let p := parseLoop clock n ⟨s.input.getD fd [], s.output.getD fd [], s.session, [], none⟩
  { s with
    input := s.input.insert fd p.buffer
    output := s.output.insert fd p.output
    session := p.session }.note fd p.actions

theorem serveRequests_eq_rounds (fd : ℕ) (clock : ℕ → Readings) (s : Server) :
    (serveRequests fd clock s).2 = serveRounds fd clock ((s.input.getD fd []).length + 1) s := rfl

/-- The states through which the buffers go while an event is handled. A loop of system calls is seen
in its middle when its script ends there. -/
inductive Moment (event : Event) (answers : Answers) (s : Server) : Server → Prop
  | accepting (n : ℕ) (hlisten : event.fd = s.listenFd) :
      Moment event answers s (acceptClients (answers.accepts.take n) s)
  | receiving (n : ℕ) (hclient : event.fd ≠ s.listenFd) :
      Moment event answers s (receive event.fd (answers.recvs.take n) s).2
  | serving (n : ℕ) (hclient : event.fd ≠ s.listenFd)
      (hstatus : (receive event.fd answers.recvs s).1 = .drained ∨
        (receive event.fd answers.recvs s).1 = .peerFinished) :
      Moment event answers s
        (serveRounds event.fd answers.clock n (receive event.fd answers.recvs s).2)
  | prepared {after : AfterRead} {s₂ : Server} (hclient : event.fd ≠ s.listenFd)
      (h : Prepared event.fd answers s after s₂) : Moment event answers s s₂
  | answering {after : AfterRead} {s₂ : Server} (n : ℕ) (hclient : event.fd ≠ s.listenFd)
      (h : Prepared event.fd answers s after s₂) :
      Moment event answers s (trySend event.fd (answers.sends.take n) s₂).2
  | sending (n : ℕ) (hclient : event.fd ≠ s.listenFd) :
      Moment event answers s (trySend event.fd (answers.sends.take n) s).2
  | done : Moment event answers s (handleEvent event answers s)

section Parts
variable {fd : ℕ} {s : Server}

theorem flowing_receive (results : List RecvResult) (h : Flowing fd s) :
    Flowing fd (receive fd results s).2 := by
  obtain ⟨bytes, hledger⟩ := ledger_receive fd results s
  rw [Flowing, hledger, receive_output]
  exact h

theorem clean_receive (results : List RecvResult) (h : (ledger fd s.trace).Clean) :
    (ledger fd (receive fd results s).2.trace).Clean := by
  obtain ⟨bytes, hledger⟩ := ledger_receive fd results s
  rw [hledger]
  exact h

theorem flowing_serveRounds (clock : ℕ → Readings) (n : ℕ) (h : Flowing fd s)
    (hclean : (ledger fd s.trace).Clean) : Flowing fd (serveRounds fd clock n s) := by
  obtain ⟨executed, hexecuted, houtput⟩ := @parseLoop_replies clock n
    ⟨s.input.getD fd [], s.output.getD fd [], s.session, [], none⟩ rfl
  rw [Flowing, hclean.owed] at h
  have hoversized : (if (ledger fd s.trace).oversized then some sizeError else none) = none := by
    rw [hclean.2]
    rfl
  rw [Flowing, serveRounds, ledger_note, record_parsing]
  refine (congrArg _ Std.ExtTreeMap.getD_insert_self).trans ?_
  rw [houtput, ← List.append_assoc, ← List.append_assoc, h, Ledger.owed, hexecuted]
  simp only [hclean.1, hoversized, Option.or_none, errorReply, List.append_nil, List.nil_append]
  rw [serializedReplies_append]

theorem flowing_refuseOversized (h : Flowing fd s) (hclean : (ledger fd s.trace).Clean) :
    Flowing fd (refuseOversized fd s) := by
  rw [Flowing, hclean.owed] at h
  rw [Flowing, ledger_refuseOversized, refuseOversized_output, ← List.append_assoc, h]
  simp [Ledger.owed, hclean.1, errorReply]

theorem flowing_settling (fd : ℕ) : Settling fd (Flowing fd) where
  send results s h := by
    obtain ⟨sent, hledger, houtput⟩ := ledger_trySend fd results s
    rw [Flowing, hledger, List.append_assoc, houtput]
    exact h
  linger _ h := h
  drain _ h := h

theorem streamed_closeClient (h : (ledger fd s.trace).sent <+: (ledger fd s.trace).owed) :
    Streamed fd (closeClient fd s) where
  whole hopen := by simp [closeClient, Server.note] at hopen
  only := by
    rw [ledger_closeClient]
    exact h

theorem Prepared.flowing {answers : Answers} {after : AfterRead} {s₂ : Server}
    (hp : Prepared fd answers s after s₂) (h : Flowing fd s) (hclean : (ledger fd s.trace).Clean) :
    Flowing fd s₂ := by
  have hflowing := flowing_receive answers.recvs h
  have hclean := clean_receive answers.recvs hclean
  cases hp with
  | oversized => exact flowing_refuseOversized hflowing hclean
  | served =>
    rw [serveRequests_eq_rounds]
    exact flowing_serveRounds answers.clock _ hflowing hclean

/-- A connection that is not to be closed is sent nothing but replies. -/
theorem Prepared.clean {answers : Answers} {after : AfterRead} {s₂ : Server}
    (hp : Prepared fd answers s after s₂) (hafter : after ≠ .closeNow)
    (hclean : (ledger fd s.trace).Clean) : (ledger fd s₂.trace).Clean := by
  have hclean := clean_receive answers.recvs hclean
  cases hp with
  | oversized => exact absurd rfl hafter
  | served hstatus hkind =>
    have herror := error_of_afterServing hkind hafter
    rw [serveRequests_error] at herror
    rw [ledger_serveRequests]
    refine ⟨?_, hclean.2⟩
    simpa [herror] using hclean.1

end Parts

/-- What is known of a connection between events: the whole stream, and no error as long as the
connection goes on. -/
structure Sound (fd : ℕ) (s : Server) : Prop extends Streamed fd s where
  clean : Live fd s → (ledger fd s.trace).Clean

section Events
variable {fd : ℕ} {answers : Answers} {s s' : Server}

theorem Untouched.streamed (hu : Untouched fd s s') (h : Streamed fd s) : Streamed fd s' where
  whole hopen := by
    rw [Flowing, hu.ledger, hu.pendingOutput]
    exact h.whole (hu.isOpen ▸ hopen)
  only := by
    rw [hu.ledger]
    exact h.only

theorem Untouched.sound (hu : Untouched fd s s') (h : Sound fd s) (halive : s.phase ≠ .killed) :
    Sound fd s' where
  toStreamed := hu.streamed h.toStreamed
  clean hlive := by
    rw [hu.ledger]
    exact h.clean ⟨hu.isOpen ▸ hlive.1, halive⟩

theorem sound_closeClient (h : (ledger fd s.trace).sent <+: (ledger fd s.trace).owed) :
    Sound fd (closeClient fd s) where
  toStreamed := streamed_closeClient h
  clean hlive := absurd hlive (not_live_closeClient fd s)

theorem sound_addClient (fd fd' : ℕ) {s : Server} (h : Sound fd s) (halive : s.phase ≠ .killed) :
    Sound fd (addClient fd' s) := by
  by_cases hfd : fd' = fd
  · subst hfd
    have hfresh := fresh_addClient fd' s
    have hflowing : Flowing fd' (addClient fd' s) := by
      rw [Flowing, hfresh.ledger, hfresh.output]
      rfl
    refine ⟨hflowing.streamed, fun _ => ?_⟩
    rw [hfresh.ledger]
    exact ⟨rfl, rfl⟩
  · exact (Untouched.addClient hfd s).sound h halive

theorem sound_acceptClients {results : List AcceptResult} (h : Sound fd s)
    (halive : s.phase ≠ .killed) : Sound fd (acceptClients results s) := by
  have hkept : Sound fd (acceptClients results s) ∧ (acceptClients results s).phase = s.phase := by
    refine acceptClients_keeps (P := fun s' => Sound fd s' ∧ s'.phase = s.phase) ?_ ?_ ⟨h, rfl⟩
    · rintro fd' s' ⟨h, hphase⟩
      exact ⟨sound_addClient fd fd' h (hphase.trans_ne halive), hphase⟩
    · rintro fd' s' ⟨h, hphase⟩
      refine ⟨?_, hphase⟩
      by_cases hfd : fd' = fd
      · subst hfd
        have hledger : ledger fd' (s'.note fd' [.refused]).trace = ledger fd' s'.trace :=
          ledger_note fd' [.refused] s'
        refine ⟨⟨fun hopen => ?_, ?_⟩, fun hlive => ?_⟩
        · rw [Flowing, hledger]
          exact h.whole hopen
        · rw [hledger]
          exact h.only
        · rw [hledger]
          exact h.clean hlive
      · exact (Untouched.note hfd _ s').sound h (hphase.trans_ne halive)
  exact hkept.1

theorem flowing_failed (results : List RecvResult) (h : Flowing fd s) :
    Flowing fd ((receive fd results s).2.note fd [.recvFailed]) := by
  rw [Flowing, ledger_note]
  exact flowing_receive results h

theorem sound_read (h : ReadOutcome fd answers s s') (hflowing : Flowing fd s)
    (hclean : (ledger fd s.trace).Clean) : Sound fd s' where
  toStreamed := by
    rcases (flowing_settling fd).read (fun _ => flowing_failed answers.recvs hflowing)
      (fun _ _ hp => hp.flowing hflowing hclean) h with hflowing | ⟨s₁, hflowing, rfl⟩
    · exact hflowing.streamed
    · exact streamed_closeClient ⟨_, hflowing⟩
  clean hlive := by
    have hsent : ∀ {s₂}, (ledger fd s₂.trace).Clean →
        (ledger fd (trySend fd answers.sends s₂).2.trace).Clean := by
      intro s₂ hclean
      obtain ⟨sent, hledger, -⟩ := ledger_trySend fd answers.sends s₂
      rw [hledger]
      exact hclean
    cases h with
    | failed => exact absurd hlive (not_live_closeClient fd _)
    | silent hp => exact hp.clean nofun hclean
    | left => exact absurd hlive (not_live_closeClient fd _)
    | killed _ hsend => exact absurd (trySend_killed hsend) hlive.2
    | dropped => exact absurd hlive (not_live_closeClient fd _)
    | rejected => exact absurd hlive (not_live_closeClient fd _)
    | answered hp => exact hsent (hp.clean nofun hclean)
    | finished => exact absurd hlive (not_live_closeClient fd _)
    | lingering hp => exact hsent (hp.clean nofun hclean)

theorem sound_write (h : WriteOutcome fd answers s s') (hflowing : Flowing fd s)
    (hclean : (ledger fd s.trace).Clean) : Sound fd s' where
  toStreamed := by
    rcases (flowing_settling fd).write ((flowing_settling fd).send _ s hflowing) h with
      hflowing | ⟨s₁, hflowing, rfl⟩
    · exact hflowing.streamed
    · exact streamed_closeClient ⟨_, hflowing⟩
  clean hlive := by
    have hclean : (ledger fd (trySend fd answers.sends s).2.trace).Clean := by
      obtain ⟨sent, hledger, -⟩ := ledger_trySend fd answers.sends s
      rw [hledger]
      exact hclean
    cases h with
    | killed => exact hclean
    | dropped => exact absurd hlive (not_live_closeClient fd _)
    | pending => exact hclean
    | drained => exact hclean
    | finished => exact absurd hlive (not_live_closeClient fd _)

structure Gone (fd : ℕ) (s : Server) : Prop where
  closed : s.openFds.contains fd = false
  only : (ledger fd s.trace).sent <+: (ledger fd s.trace).owed

theorem Gone.sound (h : Gone fd s) : Sound fd s where
  whole hopen := by
    rw [h.closed] at hopen
    cases hopen
  only := h.only
  clean hlive := by
    have hopen := hlive.1
    rw [h.closed] at hopen
    cases hopen

theorem gone_receive (results : List RecvResult) (h : Gone fd s) :
    Gone fd (receive fd results s).2 where
  closed := h.closed
  only := by
    obtain ⟨bytes, hledger⟩ := ledger_receive fd results s
    rw [hledger]
    exact h.only

/-- Nothing can be sent on a descriptor that is not open. -/
theorem gone_settling (fd : ℕ) : Settling fd (Gone fd) where
  send results s h := by
    have hsent : (sendLoop [.failed] (s.output.getD fd [])).sent = [] := by
      rw [sendLoop]
      split <;> rfl
    refine ⟨h.closed, ?_⟩
    rw [trySend, h.closed, if_neg Bool.false_ne_true, ledger_note, hsent]
    simpa [Ledger.record, Ledger.owed] using h.only
  linger _ h := ⟨h.closed, h.only⟩
  drain _ h := ⟨h.closed, h.only⟩

theorem Gone.close (h : Gone fd s) : Gone fd (closeClient fd s) where
  closed := by simp [closeClient, Server.note]
  only := by
    rw [ledger_closeClient]
    exact h.only

theorem gone_read (h : ReadOutcome fd answers s s') (hgone : Gone fd s) : Gone fd s' := by
  refine ((gone_settling fd).read (fun _ => ?_) (fun _ _ hp => ?_) h).keeps fun _ => Gone.close
  · refine ⟨hgone.closed, ?_⟩
    rw [ledger_note]
    exact (gone_receive answers.recvs hgone).only
  · have hopen := hp.isOpen
    rw [hgone.closed] at hopen
    cases hopen

theorem gone_write (h : WriteOutcome fd answers s s') (hgone : Gone fd s) : Gone fd s' :=
  ((gone_settling fd).write ((gone_settling fd).send _ s hgone) h).keeps fun _ => Gone.close

theorem Streamed.gone (h : Streamed fd s) (hclosed : s.openFds.contains fd = false) : Gone fd s :=
  ⟨hclosed, h.only⟩

/-- Every event keeps the streams of all connections. -/
theorem sound_handleEvent {event : Event} (h : Sound fd s) (halive : s.phase ≠ .killed) :
    Sound fd (handleEvent event answers s) := by
  by_cases hfd : event.fd = fd ∨ event.fd = s.listenFd
  swap
  · rw [not_or] at hfd
    exact (Untouched.handleEvent hfd.1 answers hfd.2).sound h halive
  have houtcome := eventOutcome event answers s
  generalize handleEvent event answers s = s' at houtcome
  cases houtcome with
  | listenFailed =>
    have hsame : Untouched fd s { s with running := false } := ⟨rfl, rfl, rfl, rfl, rfl, rfl, rfl⟩
    exact hsame.sound h halive
  | accepted => exact sound_acceptClients h halive
  | error hclient =>
    rw [hfd.resolve_right hclient]
    exact sound_closeClient h.only
  | read hclient _ _ hread =>
    rw [hfd.resolve_right hclient] at hread
    cases hopen : s.openFds.contains fd with
    | true => exact sound_read hread (h.whole hopen) (h.clean ⟨hopen, halive⟩)
    | false => exact (gone_read hread (h.gone hopen)).sound
  | write hclient _ _ hwrite =>
    rw [hfd.resolve_right hclient] at hwrite
    cases hopen : s.openFds.contains fd with
    | true => exact sound_write hwrite (h.whole hopen) (h.clean ⟨hopen, halive⟩)
    | false => exact (gone_write hwrite (h.gone hopen)).sound

theorem untouched_serveRounds {fd' : ℕ} (h : fd' ≠ fd) (clock : ℕ → Readings) (n : ℕ) (s : Server) :
    Untouched fd s (serveRounds fd' clock n s) where
  input := Untouched.insert_ne h _ _
  output := Untouched.insert_ne h _ _
  closing := rfl
  isOpen := rfl
  reading := rfl
  writing := rfl
  ledger := ledger_note_other h _ _

/-- The streams of the other connections are whole in the middle of an event. -/
theorem Moment.streamed_other {event : Event} (h : Moment event answers s s')
    (hother : event.fd ≠ fd) (hsound : Sound fd s) (halive : s.phase ≠ .killed) :
    Streamed fd s' := by
  have hstreamed := hsound.toStreamed
  have hkept := Untouched.undisturbed hother s
  have hreceived := Untouched.receive hother answers.recvs s
  cases h with
  | accepting n => exact (sound_acceptClients hsound halive).toStreamed
  | receiving n => exact (Untouched.receive hother _ s).streamed hstreamed
  | serving n => exact (hreceived.trans (untouched_serveRounds hother _ n _)).streamed hstreamed
  | prepared _ hp => exact (hkept.prepared (.refl s) hp).streamed hstreamed
  | answering n _ hp =>
    exact ((hkept.prepared (.refl s) hp).trans (Untouched.trySend hother _ _)).streamed hstreamed
  | sending n => exact (Untouched.trySend hother _ s).streamed hstreamed
  | done => exact (sound_handleEvent hsound halive).toStreamed

/-- The stream of the connection itself is whole in the middle of its event. -/
theorem Moment.streamed_self {event : Event} (h : Moment event answers s s')
    (hsound : Sound event.fd s) (halive : s.phase ≠ .killed) : Streamed event.fd s' := by
  have hsettling := flowing_settling event.fd
  cases hopen : s.openFds.contains event.fd with
  | true =>
    have hflowing := hsound.whole hopen
    have hclean := hsound.clean ⟨hopen, halive⟩
    cases h with
    | accepting n => exact (sound_acceptClients hsound halive).toStreamed
    | receiving n => exact (flowing_receive _ hflowing).streamed
    | serving n =>
      exact (flowing_serveRounds _ n (flowing_receive _ hflowing) (clean_receive _ hclean)).streamed
    | prepared _ hp => exact (hp.flowing hflowing hclean).streamed
    | answering n _ hp => exact (hsettling.send _ _ (hp.flowing hflowing hclean)).streamed
    | sending n => exact (hsettling.send _ s hflowing).streamed
    | done => exact (sound_handleEvent hsound halive).toStreamed
  | false =>
    have hgone := hsound.toStreamed.gone hopen
    cases h with
    | accepting n => exact (sound_acceptClients hsound halive).toStreamed
    | receiving n => exact (gone_receive _ hgone).sound.toStreamed
    | serving n _ hstatus => simp [receive_closed hopen] at hstatus
    | prepared _ hp => exact absurd hp.isOpen (by simp [hopen])
    | answering n _ hp => exact absurd hp.isOpen (by simp [hopen])
    | sending n => exact ((gone_settling event.fd).send _ s hgone).sound.toStreamed
    | done => exact (sound_handleEvent hsound halive).toStreamed

theorem Moment.streamed {event : Event} (h : Moment event answers s s') (hsound : Sound fd s)
    (halive : s.phase ≠ .killed) : Streamed fd s' := by
  by_cases hfd : event.fd = fd
  · subst hfd
    exact h.streamed_self hsound halive
  · exact h.streamed_other hfd hsound halive

end Events

theorem sound_rests {fd : ℕ} {s s' : Server} (hrests : Rests s s') (h : Sound fd s) :
    Sound fd s' := by
  rcases hrests with ⟨running, phase, hphase, rfl⟩ | ⟨-, rfl⟩
  · refine ⟨⟨h.whole, h.only⟩, fun hlive => h.clean ⟨hlive.1, fun hkilled => hlive.2 ?_⟩⟩
    exact (Phase.Over.eq_iff (.inr rfl) hphase).mpr hkilled
  · refine Gone.sound ⟨by simp [shutdown], ?_⟩
    rw [ledger_shutdown]
    exact h.only

theorem sound_step {fd : ℕ} (i : Input) {s : Server} (h : Sound fd s) : Sound fd (step i s).2 :=
  step_keeps (fun _ _ => sound_rests)
    (fun _ _ hhandled h => sound_handleEvent h (handled_alive hhandled)) h

theorem sound_started (fd listenFd : ℕ) (session : Session) : Sound fd (started listenFd session) := by
  have hflowing : Flowing fd (started listenFd session) := by
    simp [Flowing, started, ledger, Ledger.owed, serializedReplies, errorReply]
  exact ⟨hflowing.streamed, fun _ => ⟨rfl, rfl⟩⟩

theorem sound_final (run : List Input) (fd listenFd : ℕ) (session : Session) :
    Sound fd (final step run (started listenFd session)) :=
  final_keeps (fun i _ h => sound_step i h) (sound_started fd listenFd session) run

/-- In every state of every run, and at every moment in the middle of an event, the stream of every
connection is whole: what was accepted and what is pending are the replies to its requests in order,
with an error after them only if the connection is being closed for it. -/
theorem output_integrity (listenFd : ℕ) (session : Session) (run : List Input) (fd : ℕ) :
    let s := final step run (started listenFd session)
    Sound fd s ∧ ∀ i, ∀ e ∈ handled i s, ∀ s', Moment e.1 e.2 s s' → Streamed fd s' := by
  intro s
  have hsound : Sound fd s := sound_final run fd listenFd session
  exact ⟨hsound, fun i e he s' hmoment => hmoment.streamed hsound (handled_alive he)⟩

end RedisLite.EventLoop
