import RedisLite.EventLoop

/-!
# How an event can end

The ways in which the handling of a client's event ends, each with the state that it leaves, and what
the loop does after it. What holds of all of them holds of every step.
-/

namespace RedisLite.EventLoop
open ByteStrings Resp Keyspace Commands MachineRuns

/-- What is to happen when the requests have been served. -/
def afterServing (status : RecvStatus) : Option Bytes → AfterRead
  | some _ => .closeNow
  | none => if status = .peerFinished then .closeWhenSent else .keepOpen

theorem error_of_afterServing {status : RecvStatus} {error : Option Bytes} {after : AfterRead}
    (h : after = afterServing status error) (hafter : after ≠ .closeNow) : error = none := by
  cases error with
  | none => rfl
  | some e => exact absurd h hafter

/-- The server when the replies are about to be sent, and what is to happen once they are. -/
inductive Prepared (fd : ℕ) (answers : Answers) (s : Server) : AfterRead → Server → Prop
  | oversized (hstatus : (receive fd answers.recvs s).1 = .tooLarge) :
      Prepared fd answers s .closeNow (refuseOversized fd (receive fd answers.recvs s).2)
  | served {after : AfterRead}
      (hstatus : (receive fd answers.recvs s).1 = .drained ∨
        (receive fd answers.recvs s).1 = .peerFinished)
      (hafter : after = afterServing (receive fd answers.recvs s).1
        (serveRequests fd answers.clock (receive fd answers.recvs s).2).1) :
      Prepared fd answers s after (serveRequests fd answers.clock (receive fd answers.recvs s).2).2

inductive ReadOutcome (fd : ℕ) (answers : Answers) (s : Server) : Server → Prop
  | failed (hstatus : (receive fd answers.recvs s).1 = .failed) :
      ReadOutcome fd answers s
        (closeClient fd ((receive fd answers.recvs s).2.note fd [.recvFailed]))
  | silent {s₂ : Server} (h : Prepared fd answers s .keepOpen s₂)
      (hnothing : s₂.output.getD fd [] = []) : ReadOutcome fd answers s s₂
  | left {s₂ : Server} (h : Prepared fd answers s .closeWhenSent s₂)
      (hnothing : s₂.output.getD fd [] = []) : ReadOutcome fd answers s (closeClient fd s₂)
  | killed {after : AfterRead} {s₂ : Server} (h : Prepared fd answers s after s₂)
      (hsend : (trySend fd answers.sends s₂).1 = none) :
      ReadOutcome fd answers s (trySend fd answers.sends s₂).2
  | dropped {after : AfterRead} {s₂ : Server} (h : Prepared fd answers s after s₂)
      (hsend : (trySend fd answers.sends s₂).1 = some false) :
      ReadOutcome fd answers s (closeClient fd (trySend fd answers.sends s₂).2)
  | rejected {s₂ : Server} (h : Prepared fd answers s .closeNow s₂)
      (hsend : (trySend fd answers.sends s₂).1 = some true) :
      ReadOutcome fd answers s (closeClient fd (trySend fd answers.sends s₂).2)
  | answered {s₂ : Server} (h : Prepared fd answers s .keepOpen s₂)
      (hsend : (trySend fd answers.sends s₂).1 = some true) :
      ReadOutcome fd answers s (trySend fd answers.sends s₂).2
  | finished {s₂ : Server} (h : Prepared fd answers s .closeWhenSent s₂)
      (hsend : (trySend fd answers.sends s₂).1 = some true)
      (hdrained : (trySend fd answers.sends s₂).2.output.getD fd [] = []) :
      ReadOutcome fd answers s (closeClient fd (trySend fd answers.sends s₂).2)
  | lingering {s₂ : Server} (h : Prepared fd answers s .closeWhenSent s₂)
      (hsend : (trySend fd answers.sends s₂).1 = some true)
      (hpending : (trySend fd answers.sends s₂).2.output.getD fd [] ≠ []) :
      ReadOutcome fd answers s { (trySend fd answers.sends s₂).2 with
        closing := (trySend fd answers.sends s₂).2.closing.insert fd }

section Read
variable {fd : ℕ} {answers : Answers} {s s₂ : Server} {after : AfterRead}

/-- Either `recv` fails or the replies are sent. -/
theorem failed_or_prepared (fd : ℕ) (answers : Answers) (s : Server) :
    (receive fd answers.recvs s).1 = .failed ∨ ∃ after s₂, Prepared fd answers s after s₂ := by
  cases hstatus : (receive fd answers.recvs s).1 with
  | failed => exact .inl rfl
  | tooLarge => exact .inr ⟨_, _, .oversized hstatus⟩
  | drained => exact .inr ⟨_, _, .served (.inl hstatus) rfl⟩
  | peerFinished => exact .inr ⟨_, _, .served (.inr hstatus) rfl⟩

theorem handleReadable_prepared (h : Prepared fd answers s after s₂) :
    handleReadable fd answers s =
      if after = .closeNow then sendAndClose fd answers.sends s₂
      else sendReplies fd answers.sends after s₂ := by
  rw [handleReadable, ← @Prod.mk.eta _ _ (receive fd answers.recvs s)]
  cases h with
  | oversized hstatus => rw [hstatus, if_pos rfl]
  | served hstatus hafter =>
    subst hafter
    generalize (receive fd answers.recvs s).2 = s₁
    rcases hserve : serveRequests fd answers.clock s₁ with ⟨_ | e, s₂⟩
    · rcases hstatus with hstatus | hstatus
      · simp [hstatus, hserve, afterServing]
      · simp [hstatus, hserve, afterServing]
    · rcases hstatus with hstatus | hstatus
      · simp [hstatus, hserve, afterServing]
      · simp [hstatus, hserve, afterServing]

theorem sendReplies_eq (fd : ℕ) (results : List SendResult) (after : AfterRead) (s : Server) :
    sendReplies fd results after s = if s.output.getD fd [] = [] then (some after, s) else
      ((trySend fd results s).1.map fun sent => if sent then after else .closeNow,
        (trySend fd results s).2) := rfl

theorem readOutcome_rejected (h : Prepared fd answers s .closeNow s₂) :
    ReadOutcome fd answers s (handleReadEvent fd answers s) := by
  rw [handleReadEvent, handleReadable_prepared h, if_pos rfl, sendAndClose,
    ← @Prod.mk.eta _ _ (trySend fd answers.sends s₂)]
  rcases hsend : (trySend fd answers.sends s₂).1 with _ | _ | _
  · exact .killed h hsend
  · exact .dropped h hsend
  · exact .rejected h hsend

theorem readOutcome_prepared (h : Prepared fd answers s after s₂) (hafter : after ≠ .closeNow) :
    ReadOutcome fd answers s (handleReadEvent fd answers s) := by
  rw [handleReadEvent, handleReadable_prepared h, if_neg hafter, sendReplies_eq]
  by_cases hnothing : s₂.output.getD fd [] = []
  · rw [if_pos hnothing]
    cases after with
    | closeNow => exact absurd rfl hafter
    | keepOpen => exact .silent h hnothing
    | closeWhenSent =>
      dsimp only
      rw [if_pos hnothing]
      exact .left h hnothing
  · rw [if_neg hnothing]
    rcases hsend : (trySend fd answers.sends s₂).1 with _ | _ | _
    · exact .killed h hsend
    · exact .dropped h hsend
    · cases after with
      | closeNow => exact absurd rfl hafter
      | keepOpen => exact .answered h hsend
      | closeWhenSent =>
        simp only [Option.map_some, if_true]
        by_cases hdrained : (trySend fd answers.sends s₂).2.output.getD fd [] = []
        · rw [if_pos hdrained]
          exact .finished h hsend hdrained
        · rw [if_neg hdrained]
          exact .lingering h hsend hdrained

theorem readOutcome (fd : ℕ) (answers : Answers) (s : Server) :
    ReadOutcome fd answers s (handleReadEvent fd answers s) := by
  rcases failed_or_prepared fd answers s with hfailed | ⟨after, s₂, hprepared⟩
  · rw [handleReadEvent, handleReadable, ← @Prod.mk.eta _ _ (receive fd answers.recvs s), hfailed]
    exact .failed hfailed
  · by_cases hafter : after = .closeNow
    · subst hafter
      exact readOutcome_rejected hprepared
    · exact readOutcome_prepared hprepared hafter

end Read

inductive WriteOutcome (fd : ℕ) (answers : Answers) (s : Server) : Server → Prop
  | killed (hsend : (trySend fd answers.sends s).1 = none) :
      WriteOutcome fd answers s (trySend fd answers.sends s).2
  | dropped (hsend : (trySend fd answers.sends s).1 = some false) :
      WriteOutcome fd answers s (closeClient fd (trySend fd answers.sends s).2)
  | pending (hsend : (trySend fd answers.sends s).1 = some true)
      (hpending : (trySend fd answers.sends s).2.output.getD fd [] ≠ []) :
      WriteOutcome fd answers s (trySend fd answers.sends s).2
  | drained (hsend : (trySend fd answers.sends s).1 = some true)
      (hdrained : (trySend fd answers.sends s).2.output.getD fd [] = [])
      (hstays : s.closing.contains fd = false) :
      WriteOutcome fd answers s { (trySend fd answers.sends s).2 with
        writeFilters := (trySend fd answers.sends s).2.writeFilters.erase fd }
  | finished (hsend : (trySend fd answers.sends s).1 = some true)
      (hdrained : (trySend fd answers.sends s).2.output.getD fd [] = [])
      (hclosing : s.closing.contains fd = true) :
      WriteOutcome fd answers s (closeClient fd { (trySend fd answers.sends s).2 with
        writeFilters := (trySend fd answers.sends s).2.writeFilters.erase fd })

theorem writeOutcome (fd : ℕ) (answers : Answers) (s : Server) :
    WriteOutcome fd answers s (handleWriteEvent fd answers s) := by
  have hclosing : (trySend fd answers.sends s).2.closing = s.closing := rfl
  rw [handleWriteEvent, ← @Prod.mk.eta _ _ (trySend fd answers.sends s)]
  rcases hsend : (trySend fd answers.sends s).1 with _ | _ | _
  · exact .killed hsend
  · exact .dropped hsend
  · dsimp only
    by_cases hdrained : (trySend fd answers.sends s).2.output.getD fd [] = []
    · rw [if_pos hdrained, hclosing]
      cases hmarked : s.closing.contains fd with
      | false => exact .drained hsend hdrained hmarked
      | true => exact .finished hsend hdrained hmarked
    · rw [if_neg hdrained]
      exact .pending hsend hdrained

/-- What the handlers of a descriptor do once the requests have been served keeps the property. -/
structure Settling (fd : ℕ) (P : Server → Prop) : Prop where
  send : ∀ results s, P s → P (trySend fd results s).2
  linger : ∀ s, P s → P { s with closing := s.closing.insert fd }
  drain : ∀ s, P s → P { s with writeFilters := s.writeFilters.erase fd }

structure Undisturbed (fd : ℕ) (P : Server → Prop) : Prop extends Settling fd P where
  receive : ∀ results s, P s → P (receive fd results s).2
  failed : ∀ s, P s → P (s.note fd [.recvFailed])
  serve : ∀ clock s, P s → P (serveRequests fd clock s).2
  refuse : ∀ s, P s → P (refuseOversized fd s)

/-- The property holds, or it did until the descriptor was closed. -/
def Ends (fd : ℕ) (P : Server → Prop) (s : Server) : Prop := P s ∨ ∃ s₁, P s₁ ∧ s = closeClient fd s₁

section Settle
variable {fd : ℕ} {P : Server → Prop} {answers : Answers} {s s' : Server}

theorem Ends.keeps (h : Ends fd P s) (hclose : ∀ s, P s → P (closeClient fd s)) : P s := by
  rcases h with h | ⟨s₁, h, rfl⟩
  · exact h
  · exact hclose s₁ h

theorem ends_closed (h : P s) : Ends fd P (closeClient fd s) := .inr ⟨s, h, rfl⟩

theorem Settling.read (h : Settling fd P)
    (hfailed : (receive fd answers.recvs s).1 = .failed →
      P ((receive fd answers.recvs s).2.note fd [.recvFailed]))
    (hprepared : ∀ after s₂, Prepared fd answers s after s₂ → P s₂)
    (houtcome : ReadOutcome fd answers s s') : Ends fd P s' := by
  cases houtcome with
  | failed hstatus => exact ends_closed (hfailed hstatus)
  | silent hp => exact .inl (hprepared _ _ hp)
  | left hp => exact ends_closed (hprepared _ _ hp)
  | killed hp => exact .inl (h.send _ _ (hprepared _ _ hp))
  | dropped hp => exact ends_closed (h.send _ _ (hprepared _ _ hp))
  | rejected hp => exact ends_closed (h.send _ _ (hprepared _ _ hp))
  | answered hp => exact .inl (h.send _ _ (hprepared _ _ hp))
  | finished hp => exact ends_closed (h.send _ _ (hprepared _ _ hp))
  | lingering hp => exact .inl (h.linger _ (h.send _ _ (hprepared _ _ hp)))

theorem Settling.write (h : Settling fd P) (hsent : P (trySend fd answers.sends s).2)
    (houtcome : WriteOutcome fd answers s s') : Ends fd P s' := by
  cases houtcome with
  | killed => exact .inl hsent
  | dropped => exact ends_closed hsent
  | pending => exact .inl hsent
  | drained => exact .inl (h.drain _ hsent)
  | finished => exact ends_closed (h.drain _ hsent)

theorem Undisturbed.prepared (h : Undisturbed fd P) (hs : P s) {after : AfterRead}
    (hprepared : Prepared fd answers s after s') : P s' := by
  cases hprepared with
  | oversized => exact h.refuse _ (h.receive _ s hs)
  | served => exact h.serve _ _ (h.receive _ s hs)

theorem Undisturbed.read (h : Undisturbed fd P) (hs : P s)
    (houtcome : ReadOutcome fd answers s s') : Ends fd P s' :=
  h.toSettling.read (fun _ => h.failed _ (h.receive _ s hs)) (fun _ _ hp => h.prepared hs hp) houtcome

end Settle

/-- The server after an event: the listening socket has failed or has new clients, or a client has
been closed for an error, read from or written to. -/
inductive EventOutcome (event : Event) (answers : Answers) (s : Server) : Server → Prop
  | listenFailed (hlisten : event.fd = s.listenFd) :
      EventOutcome event answers s { s with running := false }
  | accepted (hlisten : event.fd = s.listenFd) :
      EventOutcome event answers s (acceptClients answers.accepts s)
  | error (hclient : event.fd ≠ s.listenFd) (herror : event.error = true) :
      EventOutcome event answers s (closeClient event.fd s)
  | read {s' : Server} (hclient : event.fd ≠ s.listenFd) (herror : event.error = false)
      (hfilter : event.filter = .read) (h : ReadOutcome event.fd answers s s') :
      EventOutcome event answers s s'
  | write {s' : Server} (hclient : event.fd ≠ s.listenFd) (herror : event.error = false)
      (hfilter : event.filter = .write) (h : WriteOutcome event.fd answers s s') :
      EventOutcome event answers s s'

theorem eventOutcome (event : Event) (answers : Answers) (s : Server) :
    EventOutcome event answers s (handleEvent event answers s) := by
  unfold handleEvent
  by_cases hlisten : event.fd = s.listenFd
  · simp only [if_pos hlisten]
    split
    · exact .listenFailed hlisten
    · exact .accepted hlisten
  · simp only [if_neg hlisten]
    cases herror : event.error with
    | true => exact .error hlisten herror
    | false =>
      cases hfilter : event.filter with
      | read => exact .read hlisten herror hfilter (readOutcome event.fd answers s)
      | write => exact .write hlisten herror hfilter (writeOutcome event.fd answers s)

theorem Undisturbed.event {event : Event} {P : Server → Prop} {s : Server}
    (h : Undisturbed event.fd P) (answers : Answers) (hclient : event.fd ≠ s.listenFd) (hs : P s) :
    Ends event.fd P (handleEvent event answers s) := by
  have houtcome := eventOutcome event answers s
  generalize handleEvent event answers s = s' at houtcome
  cases houtcome with
  | listenFailed hlisten => exact absurd hlisten hclient
  | accepted hlisten => exact absurd hlisten hclient
  | error => exact ends_closed hs
  | read _ _ _ hread => exact h.read hs hread
  | write _ _ _ hwrite => exact h.toSettling.write (h.send _ s hs) hwrite

theorem trySend_killed {fd : ℕ} {results : List SendResult} {s : Server}
    (h : (trySend fd results s).1 = none) : (trySend fd results s).2.phase = .killed := by
  unfold trySend at h ⊢
  generalize sendLoop _ _ = r at h ⊢
  obtain ⟨pending, sent, status⟩ := r
  cases status with
  | killed => rfl
  | _ => cases h

theorem trySend_phase {fd : ℕ} {results : List SendResult} {s : Server}
    (h : (trySend fd results s).1 ≠ none) : (trySend fd results s).2.phase = s.phase := by
  refine if_neg fun hkilled => h ?_
  simp only [trySend, hkilled, SendStatus.returned]

/-- A handler leaves the process as it was, or dead. -/
theorem undisturbed_phase (fd : ℕ) (phase : Phase) :
    Undisturbed fd fun s => s.phase = phase ∨ s.phase = .killed where
  receive _ _ hs := hs
  failed _ hs := hs
  serve _ _ hs := hs
  refuse _ hs := hs
  send results s hs := by
    by_cases hsend : (trySend fd results s).1 = none
    · exact .inr (trySend_killed hsend)
    · rwa [trySend_phase hsend]
  linger _ hs := hs
  drain _ hs := hs

theorem undisturbed_listenFd (fd listenFd : ℕ) : Undisturbed fd fun s => s.listenFd = listenFd where
  receive _ _ h := h
  failed _ h := h
  serve _ _ h := h
  refuse _ h := h
  send _ _ h := h
  linger _ h := h
  drain _ h := h

/-- What a new client keeps, and one that is turned away, the accept loop keeps. -/
theorem acceptClients_keeps {P : Server → Prop} (hadd : ∀ fd s, P s → P (addClient fd s))
    (hrefuse : ∀ fd s, P s → P (s.note fd [.refused])) {results : List AcceptResult} {s : Server}
    (h : P s) : P (acceptClients results s) := by
  induction results generalizing s with
  | nil => exact h
  | cons result results ih =>
    cases result with
    | connection fd nonBlocking registered =>
      rw [acceptClients]
      split
      · exact ih (hadd fd s h)
      · exact ih (hrefuse fd s h)
    | interrupted => exact ih h
    | wouldBlock => exact h
    | failed => exact h

theorem handleEvent_phase (event : Event) (answers : Answers) (s : Server) :
    (handleEvent event answers s).phase = s.phase ∨
      (handleEvent event answers s).phase = .killed := by
  by_cases hclient : event.fd = s.listenFd
  · left
    unfold handleEvent
    simp only [if_pos hclient]
    split
    · rfl
    · refine acceptClients_keeps (P := fun s' => s'.phase = s.phase) ?_ ?_ rfl
      · exact fun _ _ h => h
      · exact fun _ _ h => h
  · exact ((undisturbed_phase event.fd s.phase).event answers hclient (.inl rfl)).keeps fun _ h => h

/-- The event that an input handles, and what the kernel answers meanwhile. -/
def handled (i : Input) (s : Server) : Option (Event × Answers) :=
  match i, s.phase with
  | .handle answers, .dispatching (event :: _) => some (event, answers)
  | _, _ => none

/-- The process is gone or `run_server` has returned. -/
def Phase.Over (phase : Phase) : Prop := phase = .stopped ∨ phase = .killed

instance (phase : Phase) : Decidable phase.Over := inferInstanceAs (Decidable (_ ∨ _))

/-- No event is handled: the server is as it was but for the phase and the flag, or it stops. -/
def Rests (s s' : Server) : Prop :=
  (∃ running phase, (phase = s.phase ∨ ¬ s.phase.Over ∧ ¬ phase.Over) ∧
    s' = { s with running := running, phase := phase }) ∨ ¬ s.phase.Over ∧ s' = shutdown s

/-- Between events the loop does not come to an end. -/
theorem Phase.Over.eq_iff {phase phase' ended : Phase} (hended : ended.Over)
    (h : phase' = phase ∨ ¬ phase.Over ∧ ¬ phase'.Over) : phase' = ended ↔ phase = ended := by
  rcases h with rfl | ⟨hgoesOn, hgoesOn'⟩
  · exact Iff.rfl
  · refine iff_of_false ?_ ?_
    · rintro rfl
      exact hgoesOn' hended
    · rintro rfl
      exact hgoesOn hended

theorem Rests.refl (s : Server) : Rests s s := .inl ⟨s.running, s.phase, .inl rfl, rfl⟩

theorem rests_loopTop {s : Server} (h : ¬ s.phase.Over) : Rests s (loopTop s) := by
  unfold loopTop
  split
  · exact .inl ⟨s.running, .waiting, .inr ⟨h, by simp [Phase.Over]⟩, rfl⟩
  · exact .inr ⟨h, rfl⟩

theorem rests_proceed {s : Server} (batch : List Event) (h : ¬ s.phase.Over) :
    Rests s (proceed batch s) := by
  cases batch with
  | nil => exact rests_loopTop h
  | cons event batch =>
    exact .inl ⟨s.running, .dispatching (event :: batch), .inr ⟨h, by simp [Phase.Over]⟩, rfl⟩

theorem handled_eq_some {i : Input} {s : Server} {event : Event} {answers : Answers}
    (h : handled i s = some (event, answers)) :
    i = .handle answers ∧ ∃ batch, s.phase = .dispatching (event :: batch) := by
  unfold handled at h
  split at h
  · rename_i batch hphase
    cases h
    exact ⟨rfl, batch, hphase⟩
  · cases h

theorem handled_of_phase {s : Server} {event : Event} {batch : List Event}
    (hphase : s.phase = .dispatching (event :: batch)) (answers : Answers) :
    handled (.handle answers) s = some (event, answers) := by
  simp [handled, hphase]

theorem handled_goesOn {i : Input} {s : Server} {event : Event} {answers : Answers}
    (h : handled i s = some (event, answers)) : ¬ s.phase.Over := by
  obtain ⟨-, batch, hphase⟩ := handled_eq_some h
  simp [hphase, Phase.Over]

theorem handled_alive {i : Input} {s : Server} {event : Event} {answers : Answers}
    (h : handled i s = some (event, answers)) : s.phase ≠ .killed :=
  fun hkilled => handled_goesOn h (.inr hkilled)

theorem step_cases (i : Input) (s : Server) :
    Rests s (step i s).2 ∨ ∃ event answers, handled i s = some (event, answers) ∧
      Rests (handleEvent event answers s) (step i s).2 := by
  change Rests s (next i s) ∨ ∃ _ _, _ ∧ Rests _ (next i s)
  unfold next
  split
  · rename_i batch hphase
    exact .inl (rests_proceed batch (by simp [hphase, Phase.Over]))
  · rename_i hphase
    exact .inl (rests_loopTop (by simp [hphase, Phase.Over]))
  · rename_i hphase
    exact .inl (.inr ⟨by simp [hphase, Phase.Over], rfl⟩)
  · rename_i answers event batch hphase
    refine .inr ⟨event, answers, handled_of_phase hphase answers, ?_⟩
    dsimp only
    split
    · exact .refl _
    · rename_i halive
      have hsame := (handleEvent_phase event answers s).resolve_right halive
      exact rests_proceed batch (by simp [hsame, hphase, Phase.Over])
  · exact .inl (.inl ⟨false, s.phase, .inl rfl, rfl⟩)
  · exact .inl (.refl s)

theorem rests_of_handled {i : Input} {s : Server} {event : Event} {answers : Answers}
    (h : handled i s = some (event, answers)) :
    Rests (handleEvent event answers s) (step i s).2 := by
  obtain ⟨rfl, batch, hphase⟩ := handled_eq_some h
  have hnext : (step (.handle answers) s).2 =
      if (handleEvent event answers s).phase = .killed then handleEvent event answers s
      else proceed batch (handleEvent event answers s) := by
    simp only [step, next, hphase]
  rw [hnext]
  split
  · exact .refl _
  · rename_i halive
    have hsame := (handleEvent_phase event answers s).resolve_right halive
    exact rests_proceed batch (by simp [hsame, hphase, Phase.Over])

theorem rests_of_unhandled {i : Input} {s : Server} (h : handled i s = none) :
    Rests s (step i s).2 := by
  rcases step_cases i s with hrests | ⟨event, answers, hsome, -⟩
  · exact hrests
  · cases h.symm.trans hsome

/-- When it is over, it stays so. -/
theorem over_rests {s s' : Server} (hrests : Rests s s') (h : s.phase.Over) : s'.phase.Over := by
  rcases hrests with ⟨running, phase, hphase, rfl⟩ | ⟨hgoesOn, -⟩
  · rcases hphase with hsame | ⟨hgoesOn, -⟩
    · exact hsame ▸ h
    · exact absurd h hgoesOn
  · exact absurd h hgoesOn

/-- What survives the rests of the loop and every handled event is kept by every step. -/
theorem step_keeps {P : Server → Prop} {i : Input} {s : Server}
    (hrests : ∀ s s', Rests s s' → P s → P s')
    (hevent : ∀ event answers, handled i s = some (event, answers) → P s →
      P (handleEvent event answers s)) (h : P s) : P (step i s).2 := by
  rcases step_cases i s with hrest | ⟨event, answers, hhandled, hrest⟩
  · exact hrests _ _ hrest h
  · exact hrests _ _ hrest (hevent event answers hhandled h)

end RedisLite.EventLoop
