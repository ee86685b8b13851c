import RedisLite.FailureContainment
import RedisLite.OutputStreams

/-!
# What is sent before the server hangs up

A client that has finished sending is closed once everything has been sent to it. A client whose bytes
are rejected is closed after one `try_send`, and what the kernel does not take then is lost, replies to
earlier requests included.
-/

namespace RedisLite.EventLoop
open ByteStrings Resp IncrementalDecoding Keyspace Commands MachineRuns

/-- A `send` fails while bytes are pending. -/
def SendFails (results : List SendResult) (pending : Bytes) : Prop :=
  room results < pending.length ∧ (refusal results = .failed ∨ refusal results = .killed)

instance (results : List SendResult) (pending : Bytes) : Decidable (SendFails results pending) :=
  inferInstanceAs (Decidable (_ ∧ _))

/-- No call on the client's connection fails while its event is handled. -/
structure Unfailing (event : Event) (answers : Answers) (s : Server) : Prop where
  client : event.fd ≠ s.listenFd
  isOpen : s.openFds.contains event.fd = true
  noError : event.error = false
  recv : breaks answers.recvs = false
  send : ¬ SendFails answers.sends (outputToSend event answers s)

/-- The event brings bytes for which the connection is to be closed: too many, or malformed ones. -/
def Rejected (event : Event) (answers : Answers) (s : Server) : Prop :=
  let r := recvLoop answers.recvs (s.input.getD event.fd [])
  event.filter = .read ∧ (r.status = .tooLarge ∨ (drain parse r.buffer).error ≠ none)

/-- When the server closes a connection of its own accord, everything that the connection is to be
sent has been accepted. -/
def Answered (i : Input) (s : Server) : Prop :=
  ∀ e ∈ handled i s, Unfailing e.1 e.2 s →
    (handleEvent e.1 e.2 s).openFds.contains e.1.fd = false →
    let l := ledger e.1.fd (handleEvent e.1 e.2 s).trace
    l.sent = l.owed

/-- The kernel takes all that is pending for a client whose bytes are rejected. -/
def TakenAtOnce (i : Input) (s : Server) : Prop :=
  ∀ e ∈ handled i s, Unfailing e.1 e.2 s → Rejected e.1 e.2 s →
    (outputToSend e.1 e.2 s).length ≤ room e.2.sends

theorem recvLoop_unbroken {results : List RecvResult} (h : breaks results = false)
    (buffer : Bytes) : (recvLoop results buffer).status ≠ .failed := by
  induction results generalizing buffer with
  | nil =>
    intro hfailed
    cases hfailed
  | cons result results ih =>
    cases result with
    | data chunk =>
      rw [recvLoop]
      split
      · intro hfailed
        cases hfailed
      · exact ih h _
    | interrupted => exact ih h buffer
    | endOfFile =>
      intro hfailed
      cases hfailed
    | wouldBlock =>
      intro hfailed
      cases hfailed
    | failed => cases h

section Unfailing
variable {event : Event} {answers : Answers} {s s₂ : Server} {after : AfterRead}

theorem Unfailing.status (h : Unfailing event answers s) :
    (receive event.fd answers.recvs s).1 ≠ .failed := by
  rw [receive_status h.isOpen]
  exact recvLoop_unbroken h.recv _

theorem outputToSend_read (h : Unfailing event answers s) (hfilter : event.filter = .read) :
    outputToSend event answers s = answeredOutput event.fd answers s := by
  rw [outputToSend, if_neg (by simp [h.noError, h.isOpen]), hfilter]

theorem outputToSend_write (h : Unfailing event answers s) (hfilter : event.filter = .write) :
    outputToSend event answers s = s.output.getD event.fd [] := by
  rw [outputToSend, if_neg (by simp [h.noError, h.isOpen]), hfilter]

/-- A `try_send` that does not fail either sends everything or leaves the rest. -/
theorem trySend_unfailing {fd : ℕ} {results : List SendResult} (hopen : s.openFds.contains fd = true)
    (h : ¬ SendFails results (s.output.getD fd [])) : (trySend fd results s).1 = some true ∧
      ((trySend fd results s).2.output.getD fd [] = [] ↔
        (s.output.getD fd []).length ≤ room results) := by
  by_cases hfits : (s.output.getD fd []).length ≤ room results
  · obtain ⟨hsend, hdrained⟩ := trySend_fits hopen hfits
    exact ⟨hsend, iff_of_true hdrained hfits⟩
  · obtain ⟨hsend, hrest⟩ := trySend_refused hopen (not_le.mp hfits)
    refine ⟨?_, ?_⟩
    · rw [hsend]
      cases hrefusal : refusal results with
      | drained => rfl
      | blocked => rfl
      | failed => exact absurd ⟨not_le.mp hfits, .inl hrefusal⟩ h
      | killed => exact absurd ⟨not_le.mp hfits, .inr hrefusal⟩ h
    · rw [hrest, List.drop_eq_nil_iff]

theorem Prepared.unfailing (hp : Prepared event.fd answers s after s₂)
    (h : Unfailing event answers s) (hfilter : event.filter = .read) :
    (trySend event.fd answers.sends s₂).1 = some true ∧
      ((trySend event.fd answers.sends s₂).2.output.getD event.fd [] = [] ↔
        (outputToSend event answers s).length ≤ room answers.sends) := by
  have hopen : s₂.openFds.contains event.fd = true := by
    rw [hp.same.2]
    exact h.isOpen
  rw [outputToSend_read h hfilter, ← hp.output]
  refine trySend_unfailing hopen ?_
  rw [hp.output, ← outputToSend_read h hfilter]
  exact h.send

theorem Prepared.rejected_iff (hp : Prepared event.fd answers s after s₂)
    (hfilter : event.filter = .read) : Rejected event answers s ↔ after = .closeNow := by
  have hopen := hp.isOpen
  rw [Rejected, and_iff_right hfilter, ← receive_status hopen, ← receive_input hopen]
  cases hp with
  | oversized hstatus => exact iff_of_true (.inl hstatus) rfl
  | served hstatus hafter =>
    rw [← serveRequests_error event.fd answers.clock]
    have hfitting : (receive event.fd answers.recvs s).1 ≠ .tooLarge := by
      rcases hstatus with hstatus | hstatus
      · simp [hstatus]
      · simp [hstatus]
    rw [or_iff_right hfitting, hafter]
    cases (serveRequests event.fd answers.clock (receive event.fd answers.recvs s).2).1 with
    | some e => exact iff_of_true (Option.some_ne_none e) rfl
    | none =>
      refine iff_of_false (fun h => h rfl) (fun hnow => ?_)
      simp only [afterServing] at hnow
      split at hnow
      · cases hnow
      · cases hnow

end Unfailing

section Last
variable {event : Event} {answers : Answers} {s s' s₂ : Server} {after : AfterRead}

theorem Flowing.nothing_left_iff {fd : ℕ} (h : Flowing fd s) :
    (ledger fd s.trace).sent = (ledger fd s.trace).owed ↔ s.output.getD fd [] = [] := by
  rw [Flowing] at h
  rw [← h]
  exact List.self_eq_append_right

theorem Flowing.all_sent {fd : ℕ} (h : Flowing fd s) (hnothing : s.output.getD fd [] = []) :
    (ledger fd (closeClient fd s).trace).sent = (ledger fd (closeClient fd s).trace).owed := by
  rw [ledger_closeClient]
  exact h.nothing_left_iff.mpr hnothing

/-- A connection that is closed after a readiness event has been sent everything, if the kernel takes
at once what is pending when its bytes are rejected. -/
theorem all_sent_read (h : Unfailing event answers s) (hfilter : event.filter = .read)
    (houtcome : ReadOutcome event.fd answers s s') (hflowing : Flowing event.fd s)
    (hclean : (ledger event.fd s.trace).Clean)
    (htaken : Rejected event answers s → (outputToSend event answers s).length ≤ room answers.sends)
    (hclosed : s'.openFds.contains event.fd = false) :
    (ledger event.fd s'.trace).sent = (ledger event.fd s'.trace).owed := by
  have hsettling := flowing_settling event.fd
  have hopen : ∀ {after s₂}, Prepared event.fd answers s after s₂ →
      s₂.openFds.contains event.fd = true := by
    intro after s₂ hp
    rw [hp.same.2]
    exact h.isOpen
  cases houtcome with
  | failed hstatus => exact absurd hstatus h.status
  | silent hp => exact absurd ((hopen hp).symm.trans hclosed) (by decide)
  | left hp hnothing => exact (hp.flowing hflowing hclean).all_sent hnothing
  | killed hp hsend => exact absurd ((hp.unfailing h hfilter).1.symm.trans hsend) nofun
  | dropped hp hsend => exact absurd ((hp.unfailing h hfilter).1.symm.trans hsend) (by simp)
  | rejected hp =>
    have hfits := htaken ((hp.rejected_iff hfilter).mpr rfl)
    exact (hsettling.send _ _ (hp.flowing hflowing hclean)).all_sent
      ((hp.unfailing h hfilter).2.mpr hfits)
  | answered hp => exact absurd ((hopen hp).symm.trans hclosed) (by decide)
  | finished hp _ hdrained =>
    exact (hsettling.send _ _ (hp.flowing hflowing hclean)).all_sent hdrained
  | lingering hp => exact absurd ((hopen hp).symm.trans hclosed) (by decide)

theorem all_sent_write (h : Unfailing event answers s) (hfilter : event.filter = .write)
    (houtcome : WriteOutcome event.fd answers s s') (hflowing : Flowing event.fd s)
    (hclosed : s'.openFds.contains event.fd = false) :
    (ledger event.fd s'.trace).sent = (ledger event.fd s'.trace).owed := by
  have hsettling := flowing_settling event.fd
  have hsent := hsettling.send answers.sends s hflowing
  have hunfailing := h.send
  rw [outputToSend_write h hfilter] at hunfailing
  have hsend := (trySend_unfailing h.isOpen hunfailing).1
  have hopen : (trySend event.fd answers.sends s).2.openFds.contains event.fd = true := h.isOpen
  cases houtcome with
  | killed hnone => exact absurd (hsend.symm.trans hnone) nofun
  | dropped hfalse => exact absurd (hsend.symm.trans hfalse) (by simp)
  | pending => exact absurd (hopen.symm.trans hclosed) (by decide)
  | drained => exact absurd (hopen.symm.trans hclosed) (by decide)
  | finished _ hdrained => exact (hsettling.drain _ hsent).all_sent hdrained

theorem handleReadEvent_rejected {fd : ℕ} (hp : Prepared fd answers s .closeNow s₂)
    (hsend : (trySend fd answers.sends s₂).1 = some true) :
    handleReadEvent fd answers s = closeClient fd (trySend fd answers.sends s₂).2 := by
  rw [handleReadEvent, handleReadable_prepared hp, if_pos rfl, sendAndClose,
    ← @Prod.mk.eta _ _ (trySend fd answers.sends s₂), hsend]
  rfl

theorem Unfailing.handleEvent_eq (h : Unfailing event answers s) : handleEvent event answers s =
    match event.filter with
    | .read => handleReadEvent event.fd answers s
    | .write => handleWriteEvent event.fd answers s := by
  cases hfilter : event.filter with
  | read => simp [handleEvent, h.noError, h.client, hfilter]
  | write => simp [handleEvent, h.noError, h.client, hfilter]

/-- What the kernel does not take from a rejected client's output is lost. -/
theorem taken_of_all_sent (h : Unfailing event answers s) (hrejected : Rejected event answers s)
    (hflowing : Flowing event.fd s) (hclean : (ledger event.fd s.trace).Clean)
    (hall : (handleEvent event answers s).openFds.contains event.fd = false →
      (ledger event.fd (handleEvent event answers s).trace).sent =
        (ledger event.fd (handleEvent event answers s).trace).owed) :
    (outputToSend event answers s).length ≤ room answers.sends := by
  have hfilter := hrejected.1
  obtain ⟨after, s₂, hp⟩ := (failed_or_prepared event.fd answers s).resolve_left h.status
  obtain rfl := (hp.rejected_iff hfilter).mp hrejected
  obtain ⟨hsend, hdrained⟩ := hp.unfailing h hfilter
  have hsent := (flowing_settling event.fd).send answers.sends s₂ (hp.flowing hflowing hclean)
  have hhandled : handleEvent event answers s =
      closeClient event.fd (trySend event.fd answers.sends s₂).2 := by
    rw [h.handleEvent_eq, hfilter]
    exact handleReadEvent_rejected hp hsend
  rw [hhandled, ledger_closeClient, hsent.nothing_left_iff] at hall
  exact hdrained.mp (hall (by simp [closeClient, Server.note]))

end Last

theorem answered_iff {i : Input} {s : Server} (h : ∀ fd, Sound fd s) :
    Answered i s ↔ TakenAtOnce i s := by
  constructor
  · rintro hanswered ⟨event, answers⟩ he hunfailing hrejected
    have hlive : Live event.fd s := ⟨hunfailing.isOpen, handled_alive he⟩
    exact taken_of_all_sent hunfailing hrejected ((h event.fd).whole hlive.1) ((h event.fd).clean hlive)
      (hanswered _ he hunfailing)
  · rintro htaken ⟨event, answers⟩ he hunfailing hclosed
    have hlive : Live event.fd s := ⟨hunfailing.isOpen, handled_alive he⟩
    have hflowing := (h event.fd).whole hlive.1
    have htaken := htaken _ he hunfailing
    rw [hunfailing.handleEvent_eq] at hclosed ⊢
    cases hfilter : event.filter with
    | read =>
      rw [hfilter] at hclosed
      exact all_sent_read hunfailing hfilter (readOutcome _ _ _) hflowing ((h event.fd).clean hlive)
        htaken hclosed
    | write =>
      rw [hfilter] at hclosed
      exact all_sent_write hunfailing hfilter (writeOutcome _ _ _) hflowing hclosed

/-- In every run, all that is to be sent to a client has been accepted whenever the server closes its
connection of its own accord, exactly if the kernel always takes at once what is pending for a client
whose bytes are rejected. -/
theorem answered_before_hangup (listenFd : ℕ) (session : Session) (run : List Input) :
    Along Answered step run (started listenFd session) ↔
      Along TakenAtOnce step run (started listenFd session) := by
  refine @along_congr _ _ _ _ _ _ (fun s => ∀ fd, Sound fd s) (fun i s h => ?_)
    (fun i s h fd => ?_) _ (fun fd => ?_) run
  · exact answered_iff h
  · exact sound_step i (h fd)
  · exact sound_started fd listenFd session

/-- A client that reads slowly sends a mutation, and after it a byte with which no request begins. -/
def slowReader : List Input :=
  [.ready [⟨3, .read, false⟩], .handle { accepts := [.connection 5 true true] },
    .ready [⟨5, .read, false⟩],
    .handle
      { recvs := [chunkOf "*1\r\n$4\r\nPING\r\n" ping_isChunk]
        sends := [.accepted 3, .wouldBlock true] },
    .ready [⟨5, .read, false⟩]]

def mutationThenGarbage : Answers where
  recvs := [chunkOf "*3\r\n$3\r\nSET\r\n$1\r\nk\r\n$1\r\nv\r\nx" (by decide)]
  sends := [.wouldBlock true]

/-- The mutation is executed and logged, and its reply is thrown away with the output buffer. -/
theorem logged_mutation_unanswered :
    let s := final step (slowReader ++ [.handle mutationThenGarbage]) (started 3 ⟨{}, some []⟩)
    ¬ Along Answered step (slowReader ++ [.handle mutationThenGarbage]) (started 3 ⟨{}, some []⟩) ∧
      (ledger 5 s.trace).requests.length = 2 ∧ s.session.log ≠ some [] ∧
      (ledger 5 s.trace).sent = text "+PO" ∧ s.openFds.contains 5 = false := by
  have hphase : (final step slowReader (started 3 ⟨{}, some []⟩)).phase =
      .dispatching [⟨5, .read, false⟩] := by decide +kernel
  refine ⟨fun h => ?_, by decide +kernel, by decide +kernel, by decide +kernel, by decide +kernel⟩
  have hunfailing : Unfailing ⟨5, .read, false⟩ mutationThenGarbage
      (final step slowReader (started 3 ⟨{}, some []⟩)) :=
    ⟨by decide +kernel, by decide +kernel, rfl, rfl, by decide +kernel⟩
  have hsent := h.last _ (handled_of_phase hphase mutationThenGarbage) hunfailing (by decide +kernel)
  exact absurd hsent (by decide +kernel)

end RedisLite.EventLoop
