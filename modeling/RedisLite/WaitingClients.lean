import RedisLite.ConnectionBookkeeping
import RedisLite.OutputStreams

/-!
# No client is left waiting

When the loop waits for events, every client has something to wait for: nothing that could be parsed
is in its input buffer, and as long as there is output for it, or it is to be closed, the server is
woken when it can be written to.
-/

namespace RedisLite.EventLoop
open ByteStrings Resp IncrementalDecoding Keyspace Commands MachineRuns

/-- A client that the server has done all it can for. -/
structure Attended (fd : ℕ) (s : Server) : Prop where
  fits : (s.input.getD fd []).length ≤ kMaxRequestBytes
  incomplete : parse (s.input.getD fd []) = .incomplete
  output : s.output.getD fd [] ≠ [] → s.writeFilters.contains fd = true
  closing : s.closing.contains fd = true → s.writeFilters.contains fd = true

/-- The client is attended, unless the process is gone. -/
def Attending (fd : ℕ) (s : Server) : Prop := s.phase = .killed ∨ Attended fd s

def Registers (i : Input) (s : Server) : Prop :=
  ∀ e ∈ handled i s, SendResult.wouldBlock false ∉ e.2.sends

instance (i : Input) (s : Server) : Decidable (Registers i s) :=
  inferInstanceAs (Decidable (∀ e ∈ handled i s, SendResult.wouldBlock false ∉ e.2.sends))

theorem recvLoop_length {results : List RecvResult} {buffer : Bytes}
    (h : buffer.length ≤ kMaxRequestBytes) :
    (recvLoop results buffer).buffer.length ≤ kMaxRequestBytes := by
  induction results generalizing buffer with
  | nil => exact h
  | cons result results ih =>
    cases result with
    | data chunk =>
      rw [recvLoop]
      split
      · exact h
      · rename_i hroom
        refine @ih (buffer ++ chunk.bytes) ?_
        rw [List.length_append]
        omega
    | interrupted => exact ih h
    | endOfFile => exact h
    | wouldBlock => exact h
    | failed => exact h

section Buffers
variable {fd : ℕ} {answers : Answers} {s s₂ : Server} {after : AfterRead}

/-- The handlers look at the filters only when they send. -/
theorem Prepared.filters (h : Prepared fd answers s after s₂) :
    s₂.writeFilters = s.writeFilters ∧ s₂.closing = s.closing := by
  cases h with
  | oversized => exact ⟨rfl, rfl⟩
  | served => exact ⟨rfl, rfl⟩

/-- What stays in the input buffer is the beginning of one request. -/
theorem Prepared.input (h : Prepared fd answers s after s₂) (hafter : after ≠ .closeNow)
    (hfits : (s.input.getD fd []).length ≤ kMaxRequestBytes) :
    (s₂.input.getD fd []).length ≤ kMaxRequestBytes ∧ parse (s₂.input.getD fd []) = .incomplete := by
  have hopen := h.isOpen
  cases h with
  | oversized => exact absurd rfl hafter
  | served hstatus hkind =>
    have herror := error_of_afterServing hkind hafter
    rw [serveRequests_error] at herror
    rw [serveRequests_input]
    refine ⟨?_, drain_rest_incomplete parse_stable herror⟩
    refine (drain_rest_length parse_stable _).trans ?_
    rw [receive_input hopen]
    exact recvLoop_length hfits

end Buffers

/-- A `try_send` that succeeds without having sent everything has been refused, and registered. -/
theorem refusal_blocked {results : List SendResult}
    (hregister : SendResult.wouldBlock false ∉ results)
    (h : (refusal results).returned = some true) : refusal results = .blocked true := by
  induction results with
  | nil => rfl
  | cons result results ih =>
    have hrest : SendResult.wouldBlock false ∉ results := fun hmem =>
      hregister (List.mem_cons_of_mem _ hmem)
    cases result with
    | accepted count =>
      cases count with
      | zero => cases h
      | succ count => exact ih hrest h
    | interrupted => exact ih hrest h
    | wouldBlock registered =>
      cases registered with
      | true => rfl
      | false => exact absurd List.mem_cons_self hregister
    | failed => cases h
    | brokenPipe => cases h

section Filters
variable {fd : ℕ} {results : List SendResult} {s : Server}

theorem trySend_keeps_filter (h : s.writeFilters.contains fd = true) :
    (trySend fd results s).2.writeFilters.contains fd = true := by
  unfold trySend Server.note
  generalize sendLoop _ _ = r
  dsimp only
  split
  · simp
  · exact h

/-- One is registered if output is left. -/
theorem trySend_filter (hregister : SendResult.wouldBlock false ∉ results)
    (hsend : (trySend fd results s).1 = some true)
    (hpending : (trySend fd results s).2.output.getD fd [] ≠ []) :
    (trySend fd results s).2.writeFilters.contains fd = true := by
  cases hopen : s.openFds.contains fd with
  | true =>
    by_cases hfits : (s.output.getD fd []).length ≤ room results
    · exact absurd (trySend_fits hopen hfits).2 hpending
    · have hrefused := sendLoop_refused (not_le.mp hfits)
      rw [(trySend_refused hopen (not_le.mp hfits)).1] at hsend
      rw [refusal_blocked hregister hsend] at hrefused
      simp [trySend, Server.note, hopen, hrefused]
  | false =>
    have hnothing : s.output.getD fd [] = [] := by
      by_contra hpending
      simp [trySend, hopen, sendLoop, hpending, SendStatus.returned] at hsend
    have hsent : (trySend fd results s).2.output.getD fd [] = [] := by
      simp [trySend, Server.note, hopen, hnothing, sendLoop]
    exact absurd hsent hpending

end Filters

section Events
variable {fd : ℕ} {answers : Answers} {s s' : Server}

theorem Untouched.attended (hu : Untouched fd s s') (h : Attended fd s) : Attended fd s' := by
  refine ⟨?_, ?_, ?_, ?_⟩
  · rw [hu.pendingInput]
    exact h.fits
  · rw [hu.pendingInput]
    exact h.incomplete
  · rw [hu.pendingOutput, hu.writing]
    exact h.output
  · rw [hu.closing, hu.writing]
    exact h.closing

theorem attended_absent (hinput : s.input.getD fd [] = []) (houtput : s.output.getD fd [] = [])
    (hclosing : s.closing.contains fd = true → s.writeFilters.contains fd = true) : Attended fd s where
  fits := by
    rw [hinput]
    exact Nat.zero_le _
  incomplete := by
    rw [hinput]
    exact parse_nil
  output hpending := absurd houtput hpending
  closing := hclosing

theorem attended_closeClient (fd : ℕ) (s : Server) : Attended fd (closeClient fd s) :=
  attended_absent Std.ExtTreeMap.getD_erase_self Std.ExtTreeMap.getD_erase_self
    (by simp [closeClient, Server.note])

theorem attended_addClient (fd' : ℕ) (h : Attended fd s) : Attended fd (addClient fd' s) := by
  by_cases hfd : fd' = fd
  · subst hfd
    have hfresh := fresh_addClient fd' s
    exact attended_absent hfresh.input hfresh.output h.closing
  · exact (Untouched.addClient hfd s).attended h

/-- A readiness event leaves the client attended, in a process that is not killed. -/
theorem attended_read (houtcome : ReadOutcome fd answers s s') (h : Attended fd s)
    (hregister : SendResult.wouldBlock false ∉ answers.sends) : Attending fd s' := by
  have hclosing : ∀ {after s₂}, Prepared fd answers s after s₂ → s₂.closing.contains fd = true →
      s₂.writeFilters.contains fd = true := by
    intro after s₂ hp
    rw [hp.filters.1, hp.filters.2]
    exact h.closing
  cases houtcome with
  | failed => exact .inr (attended_closeClient fd _)
  | silent hp hnothing =>
    obtain ⟨hfits, hincomplete⟩ := hp.input nofun h.fits
    exact .inr ⟨hfits, hincomplete, absurd hnothing, hclosing hp⟩
  | left => exact .inr (attended_closeClient fd _)
  | killed _ hsend => exact .inl (trySend_killed hsend)
  | dropped => exact .inr (attended_closeClient fd _)
  | rejected => exact .inr (attended_closeClient fd _)
  | answered hp hsend =>
    obtain ⟨hfits, hincomplete⟩ := hp.input nofun h.fits
    exact .inr ⟨hfits, hincomplete, trySend_filter hregister hsend,
      fun hmarked => trySend_keeps_filter (hclosing hp hmarked)⟩
  | finished => exact .inr (attended_closeClient fd _)
  | lingering hp hsend hpending =>
    obtain ⟨hfits, hincomplete⟩ := hp.input nofun h.fits
    exact .inr ⟨hfits, hincomplete, trySend_filter hregister hsend,
      fun _ => trySend_filter hregister hsend hpending⟩

theorem attended_write (houtcome : WriteOutcome fd answers s s') (h : Attended fd s)
    (hregister : SendResult.wouldBlock false ∉ answers.sends) : Attending fd s' := by
  cases houtcome with
  | killed hsend => exact .inl (trySend_killed hsend)
  | dropped => exact .inr (attended_closeClient fd _)
  | pending hsend =>
    exact .inr ⟨h.fits, h.incomplete, trySend_filter hregister hsend,
      fun hmarked => trySend_keeps_filter (h.closing hmarked)⟩
  | drained hsend hdrained hstays =>
    refine .inr ⟨h.fits, h.incomplete, absurd hdrained, fun hmarked => ?_⟩
    exact absurd (hstays.symm.trans hmarked) Bool.false_ne_true
  | finished => exact .inr (attended_closeClient fd _)

theorem attended_handleEvent {event : Event} (h : Attended fd s)
    (hregister : SendResult.wouldBlock false ∉ answers.sends) :
    Attending fd (handleEvent event answers s) := by
  by_cases hfd : event.fd = fd ∨ event.fd = s.listenFd
  swap
  · rw [not_or] at hfd
    exact .inr ((Untouched.handleEvent hfd.1 answers hfd.2).attended h)
  have houtcome := eventOutcome event answers s
  generalize handleEvent event answers s = s' at houtcome
  cases houtcome with
  | listenFailed => exact .inr ⟨h.fits, h.incomplete, h.output, h.closing⟩
  | accepted =>
    exact .inr (acceptClients_keeps (fun fd' _ h => attended_addClient fd' h)
      (fun _ _ h => ⟨h.fits, h.incomplete, h.output, h.closing⟩) h)
  | error hclient =>
    rw [hfd.resolve_right hclient]
    exact .inr (attended_closeClient fd s)
  | read hclient _ _ hread =>
    rw [hfd.resolve_right hclient] at hread
    exact attended_read hread h hregister
  | write hclient _ _ hwrite =>
    rw [hfd.resolve_right hclient] at hwrite
    exact attended_write hwrite h hregister

end Events

theorem attending_rests {fd : ℕ} {s s' : Server} (hrests : Rests s s') (h : Attending fd s) :
    Attending fd s' := by
  rcases hrests with ⟨running, phase, hphase, rfl⟩ | ⟨-, rfl⟩
  · rcases h with hkilled | h
    · exact .inl ((Phase.Over.eq_iff (.inr rfl) hphase).mpr hkilled)
    · exact .inr ⟨h.fits, h.incomplete, h.output, h.closing⟩
  · exact .inr (attended_absent Std.ExtTreeMap.getD_empty Std.ExtTreeMap.getD_empty
      (by simp [shutdown]))

theorem attending_step {fd : ℕ} {i : Input} {s : Server} (hregister : Registers i s)
    (h : Attending fd s) : Attending fd (step i s).2 := by
  refine step_keeps (fun _ _ => attending_rests) (fun event answers hhandled h => ?_) h
  exact attended_handleEvent (h.resolve_left (handled_alive hhandled)) (hregister _ hhandled)

/-- A client that is to be closed is closed by the next event at which everything can be sent. -/
theorem write_closes {fd : ℕ} {answers : Answers} {s : Server}
    (hopen : s.openFds.contains fd = true) (hclosing : s.closing.contains fd = true)
    (hfits : (s.output.getD fd []).length ≤ room answers.sends) :
    (handleWriteEvent fd answers s).openFds.contains fd = false := by
  obtain ⟨hsend, hdrained⟩ := trySend_fits hopen hfits
  have houtcome := writeOutcome fd answers s
  generalize handleWriteEvent fd answers s = s' at houtcome
  cases houtcome with
  | killed hnone => simp [hsend] at hnone
  | dropped hfalse => simp [hsend] at hfalse
  | pending _ hpending => exact absurd hdrained hpending
  | drained _ _ hstays => exact absurd (hstays.symm.trans hclosing) Bool.false_ne_true
  | finished => simp [closeClient, Server.note]

/-- Whenever the loop waits, no client is stuck: there is nothing to parse for it, output for it and
its mark make the server wait until it can be written to, and the event that lets everything be sent
to a marked client closes it. -/
theorem no_client_stuck {listenFd : ℕ} {session : Session} {run : List Input}
    (hregister : Along Registers step run (started listenFd session)) :
    let s := final step run (started listenFd session)
    s.phase = .waiting → ∀ fd, s.openFds.contains fd = true → Attended fd s ∧
      (s.closing.contains fd = true → ∀ answers : Answers,
        (s.output.getD fd []).length ≤ room answers.sends →
          (handleWriteEvent fd answers s).openFds.contains fd = false) := by
  intro s hwaiting fd hopen
  have hstart : Attended fd (started listenFd session) :=
    attended_absent Std.ExtTreeMap.getD_empty Std.ExtTreeMap.getD_empty (by simp [started])
  have hattending : Attending fd s :=
    final_along (fun i _ _ hregister h => attending_step hregister h) (.inr hstart) hregister
  refine ⟨hattending.resolve_left (by simp [hwaiting]), fun hclosing answers hfits => ?_⟩
  exact write_closes hopen hclosing hfits

theorem halfClosed_attended : Attended 5 (final step halfClosed (started 3 ⟨{}, none⟩)) :=
  (@no_client_stuck 3 ⟨{}, none⟩ halfClosed (by decide +kernel) (by decide +kernel) 5
    (by decide +kernel)).1

end RedisLite.EventLoop
