import RedisLite.FailureContainment

/-!
# The end of the loop

The loop runs until a signal comes, `kevent` fails or the listening socket has an error, whatever the
clients do. Told to stop, it does not begin anything new: if it was waiting, `kevent` returns at most
once more, and what is left of the batch is handled.
-/

namespace RedisLite.EventLoop
open ByteStrings Keyspace Commands MachineRuns

/-- What makes the loop end. -/
def EndsLoop (i : Input) (s : Server) : Prop :=
  i = .signal ∨ i = .waitFailed ∧ s.phase = .waiting ∨
    ∃ event answers, handled i s = some (event, answers) ∧ event.error = true ∧
      event.fd = s.listenFd

def returns (i : Input) (s : Server) : Bool :=
  match i, s.phase with
  | .ready _, .waiting | .interrupted, .waiting | .waitFailed, .waiting => true
  | _, _ => false

def handles (i : Input) (s : Server) : Bool := (handled i s).isSome

/-- Where a server that is to stop goes on with the rest of a batch. -/
def leftover : List Event → Phase
  | [] => .stopped
  | batch => .dispatching batch

section Stopping
variable {s : Server}

theorem proceed_stopping (h : s.running = false) (batch : List Event) :
    (proceed batch s).running = false ∧ (proceed batch s).phase = leftover batch := by
  cases batch with
  | nil =>
    rw [proceed, loopTop, if_neg (by simp [h])]
    exact ⟨h, rfl⟩
  | cons event batch => exact ⟨h, rfl⟩

theorem acceptClients_running (results : List AcceptResult) (s : Server) :
    (acceptClients results s).running = s.running :=
  @acceptClients_keeps (fun s' => s'.running = s.running) (fun _ _ h => h) (fun _ _ h => h) results s
    rfl

theorem handleEvent_flag (event : Event) (answers : Answers) (s : Server) :
    (handleEvent event answers s).running =
      if event.error = true ∧ event.fd = s.listenFd then false else s.running := by
  by_cases hclient : event.fd = s.listenFd
  · unfold handleEvent
    cases herror : event.error with
    | true => simp [hclient]
    | false => simp [hclient, acceptClients_running]
  · rw [handleEvent_running answers hclient, if_neg fun h => hclient h.2]

theorem handleEvent_stopping (event : Event) (answers : Answers) (h : s.running = false) :
    (handleEvent event answers s).running = false := by
  rw [handleEvent_flag, h, ite_self]

/-- A step of a server that is to stop. -/
inductive Stopping (i : Input) (s s' : Server) : Prop
  | idle (hphase : s'.phase = s.phase) (hreturns : returns i s = false)
      (hhandles : handles i s = false) : Stopping i s s'
  | returned (batch : List Event) (hready : i = .ready batch ∨ batch = [])
      (hwaits : s.phase = .waiting) (hphase : s'.phase = leftover batch)
      (hreturns : returns i s = true) (hhandles : handles i s = false) : Stopping i s s'
  | handled {event : Event} {batch : List Event} (hbatch : s.phase = .dispatching (event :: batch))
      (hphase : s'.phase = .killed ∨ s'.phase = leftover batch) (hreturns : returns i s = false)
      (hhandles : handles i s = true) : Stopping i s s'

theorem stopping_step (h : s.running = false) (i : Input) :
    (step i s).2.running = false ∧ Stopping i s (step i s).2 := by
  change (next i s).running = false ∧ Stopping i s (next i s)
  unfold next
  split
  · rename_i batch hphase
    obtain ⟨hrunning, hnext⟩ := proceed_stopping h batch
    exact ⟨hrunning, .returned batch (.inl rfl) hphase hnext (by simp [returns, hphase])
      (by simp [handles, handled])⟩
  · rename_i hphase
    obtain ⟨hrunning, hnext⟩ := proceed_stopping h []
    exact ⟨hrunning, .returned [] (.inr rfl) hphase hnext (by simp [returns, hphase])
      (by simp [handles, handled])⟩
  · rename_i hphase
    exact ⟨h, .returned [] (.inr rfl) hphase rfl (by simp [returns, hphase])
      (by simp [handles, handled])⟩
  · rename_i answers event batch hphase
    have hflag := handleEvent_stopping event answers h
    have hreturns : returns (.handle answers) s = false := by simp [returns]
    have hhandles : handles (.handle answers) s = true := by
      simp [handles, handled_of_phase hphase answers]
    dsimp only
    split
    · rename_i hkilled
      exact ⟨hflag, .handled hphase (.inl hkilled) hreturns hhandles⟩
    · obtain ⟨hrunning, hnext⟩ := proceed_stopping hflag batch
      exact ⟨hrunning, .handled hphase (.inr hnext) hreturns hhandles⟩
  · exact ⟨rfl, .idle rfl (by simp [returns]) (by simp [handles, handled])⟩
  · refine ⟨h, .idle rfl ?_ ?_⟩
    · unfold returns
      split <;> simp_all
    · unfold handles handled
      split <;> simp_all

end Stopping

def Ongoing (s : Server) : Prop := s.running = true ∧ s.phase ≠ .stopped

section Ongoing
variable {s : Server}

theorem proceed_ongoing (h : s.running = true) (batch : List Event) : Ongoing (proceed batch s) := by
  cases batch with
  | nil =>
    rw [proceed, loopTop, if_pos h]
    exact ⟨h, by simp⟩
  | cons event batch => exact ⟨h, by simp [proceed]⟩

theorem over_phase (i : Input) (h : s.phase.Over) : (step i s).2.phase = s.phase := by
  rcases step_cases i s with (⟨running, phase, hphase, hsame⟩ | ⟨hgoesOn, -⟩) | ⟨_, _, hhandled, -⟩
  · rw [hsame]
    exact hphase.resolve_right fun hgoesOn => hgoesOn.1 h
  · exact absurd h hgoesOn
  · exact absurd h (handled_goesOn hhandled)

theorem ongoing_of_step (i : Input) (h : Ongoing (step i s).2) : Ongoing s := by
  constructor
  · by_contra hstops
    have hflag := (stopping_step (Bool.eq_false_of_not_eq_true hstops) i).1
    rw [h.1] at hflag
    cases hflag
  · intro hstopped
    exact h.2 ((over_phase i (.inl hstopped)).trans hstopped)

theorem handle_ongoing {answers : Answers} {event : Event} {batch : List Event} (h : Ongoing s)
    (hphase : s.phase = .dispatching (event :: batch)) :
    ¬ (event.error = true ∧ event.fd = s.listenFd) ↔ Ongoing (step (.handle answers) s).2 := by
  have hflag := handleEvent_flag event answers s
  have hstep : (step (.handle answers) s).2 =
      if (handleEvent event answers s).phase = .killed then handleEvent event answers s
      else proceed batch (handleEvent event answers s) := by
    simp only [step, next, hphase]
  rw [hstep]
  by_cases hfails : event.error = true ∧ event.fd = s.listenFd
  · rw [if_pos hfails] at hflag
    refine iff_of_false (not_not_intro hfails) fun hongoing => ?_
    split at hongoing
    · exact absurd hongoing.1 (by simp [hflag])
    · exact absurd hongoing.1 (by simp [(proceed_stopping hflag batch).1])
  · rw [if_neg hfails, h.1] at hflag
    refine iff_of_true hfails ?_
    split
    · rename_i hkilled
      exact ⟨hflag, by simp [hkilled]⟩
    · exact proceed_ongoing hflag batch

theorem ongoing_step (i : Input) (h : Ongoing s) : ¬ EndsLoop i s ↔ Ongoing (step i s).2 := by
  cases hhandled : handled i s with
  | some e =>
    obtain ⟨event, answers⟩ := e
    obtain ⟨rfl, batch, hphase⟩ := handled_eq_some hhandled
    rw [← handle_ongoing h hphase]
    simp [EndsLoop, hhandled]
  | none =>
    cases i with
    | signal => exact iff_of_false (not_not_intro (.inl rfl)) fun hongoing => by cases hongoing.1
    | waitFailed =>
      cases hphase : s.phase with
      | waiting =>
        refine iff_of_false (not_not_intro (.inr (.inl ⟨rfl, hphase⟩))) fun hongoing => hongoing.2 ?_
        simp [step, next, hphase, shutdown]
      | _ => simp [EndsLoop, hhandled, hphase, step, next, h]
    | ready batch =>
      refine iff_of_true (by simp [EndsLoop, hhandled]) ?_
      cases hphase : s.phase with
      | waiting => simpa only [step, next, hphase] using proceed_ongoing h.1 batch
      | _ => simpa [step, next, hphase] using h
    | interrupted =>
      refine iff_of_true (by simp [EndsLoop, hhandled]) ?_
      cases hphase : s.phase with
      | waiting => simpa only [step, next, hphase, proceed] using proceed_ongoing h.1 []
      | _ => simpa [step, next, hphase] using h
    | handle answers =>
      refine iff_of_true (by simp [EndsLoop, hhandled]) ?_
      cases hphase : s.phase with
      | dispatching batch =>
        cases batch with
        | nil => simpa [step, next, hphase] using h
        | cons event batch => cases hhandled.symm.trans (handled_of_phase hphase answers)
      | _ => simpa [step, next, hphase] using h

end Ongoing

/-- Where a server is that goes on with a batch and then stops, when `n` events have been handled. -/
def Winding (batch : List Event) (n : ℕ) (phase : Phase) : Prop :=
  n ≤ batch.length ∧ (phase = .killed ∨ phase = leftover (batch.drop n))

/-- How far a server has come with some inputs that was to stop. -/
def WindsUp (later : List Input) (s : Server) : Prop :=
  let returned := occurrences returns step later s
  let handled := occurrences handles step later s
  let ended := (final step later s).phase
  match s.phase with
  | .waiting => returned = 0 ∧ handled = 0 ∧ ended = .waiting ∨
      returned = 1 ∧ ∃ batch, (.ready batch ∈ later ∨ batch = []) ∧ Winding batch handled ended
  | .dispatching batch => returned = 0 ∧ Winding batch handled ended
  | phase => returned = 0 ∧ handled = 0 ∧ ended = phase

section WindsUp
variable {s : Server}

theorem over_idle (i : Input) (h : s.phase.Over) : returns i s = false ∧ handles i s = false := by
  constructor
  · unfold returns
    rcases h with hphase | hphase <;> simp [hphase]
  · unfold handles
    cases hhandled : handled i s with
    | none => rfl
    | some e => exact absurd h (handled_goesOn hhandled)

theorem over_run (h : s.phase.Over) (later : List Input) : occurrences returns step later s = 0 ∧
    occurrences handles step later s = 0 ∧ (final step later s).phase = s.phase := by
  have hkeep : ∀ i s, s.phase.Over → (step i s).2.phase.Over :=
    fun i s hover => (over_phase i hover).symm ▸ hover
  refine ⟨occurrences_eq_zero (fun i s hover => ⟨(over_idle i hover).1, hkeep i s hover⟩) h later,
    occurrences_eq_zero (fun i s hover => ⟨(over_idle i hover).2, hkeep i s hover⟩) h later, ?_⟩
  refine (@final_keeps _ _ _ step (fun s' => s'.phase.Over ∧ s'.phase = s.phase) ?_ s ⟨h, rfl⟩
    later).2
  exact fun i s' hs => ⟨hkeep i s' hs.1, (over_phase i hs.1).trans hs.2⟩

theorem winding_run {batch : List Event} (h : s.running = false) (hphase : s.phase = leftover batch)
    (later : List Input) : occurrences returns step later s = 0 ∧
      Winding batch (occurrences handles step later s) (final step later s).phase := by
  induction later generalizing s batch with
  | nil => exact ⟨rfl, Nat.zero_le _, .inr hphase⟩
  | cons i later ih =>
    obtain ⟨hrunning, hstopping⟩ := stopping_step h i
    cases hstopping with
    | idle hsame hreturns hhandles =>
      simp only [occurrences, hreturns, hhandles, Bool.toNat_false, Nat.zero_add]
      exact ih hrunning (hsame.trans hphase)
    | returned _ _ hwaits => cases batch <;> cases hwaits.symm.trans hphase
    | @handled event rest hbatch hnext hreturns hhandles =>
      obtain rfl : batch = event :: rest := by cases batch <;> cases hbatch.symm.trans hphase; rfl
      simp only [occurrences, hreturns, hhandles, Bool.toNat_false, Bool.toNat_true, Nat.zero_add]
      rcases hnext with hkilled | hnext
      · obtain ⟨hreturned, hhandled, hended⟩ := over_run (.inr hkilled) later
        rw [hhandled]
        exact ⟨hreturned, Nat.le_add_left 1 _, .inl (hended.trans hkilled)⟩
      · obtain ⟨hreturned, hcount, hended⟩ := ih hrunning hnext
        refine ⟨hreturned, ?_, ?_⟩
        · rw [List.length_cons]
          omega
        · rw [Nat.add_comm, List.drop_succ_cons]
          exact hended

theorem waiting_run (h : s.running = false) (hphase : s.phase = .waiting) (later : List Input) :
    WindsUp later s := by
  rw [WindsUp, hphase]
  induction later generalizing s with
  | nil => exact .inl ⟨rfl, rfl, hphase⟩
  | cons i later ih =>
    obtain ⟨hrunning, hstopping⟩ := stopping_step h i
    cases hstopping with
    | idle hsame hreturns hhandles =>
      simp only [occurrences, hreturns, hhandles, Bool.toNat_false, Nat.zero_add]
      rcases ih hrunning (hsame.trans hphase) with hwaits | ⟨hreturned, batch, hready, hwinding⟩
      · exact .inl hwaits
      · exact .inr ⟨hreturned, batch, hready.imp_left (List.mem_cons_of_mem i), hwinding⟩
    | returned batch hready _ hnext hreturns hhandles =>
      simp only [occurrences, hreturns, hhandles, Bool.toNat_false, Bool.toNat_true, Nat.zero_add]
      obtain ⟨hreturned, hwinding⟩ := winding_run hrunning hnext later
      refine .inr ⟨by rw [hreturned], batch, hready.imp_left ?_, hwinding⟩
      rintro rfl
      exact List.mem_cons_self
    | handled hbatch => cases hbatch.symm.trans hphase

theorem proceed_batched (batch : List Event) (s : Server) :
    (proceed batch s).phase ≠ .dispatching [] := by
  cases batch with
  | nil =>
    rw [proceed, loopTop]
    split <;> simp [shutdown]
  | cons event batch => simp [proceed]

theorem step_batched (i : Input) (h : s.phase ≠ .dispatching []) :
    (step i s).2.phase ≠ .dispatching [] := by
  change (next i s).phase ≠ .dispatching []
  unfold next
  split
  · exact proceed_batched _ s
  · exact proceed_batched [] s
  · simp [shutdown]
  · dsimp only
    split
    · rename_i hkilled
      simp [hkilled]
    · exact proceed_batched _ _
  · exact h
  · exact h

theorem winds_up (h : s.running = false) (hbatched : s.phase ≠ .dispatching []) (later : List Input) :
    WindsUp later s := by
  cases hphase : s.phase with
  | waiting => exact waiting_run h hphase later
  | dispatching batch =>
    cases batch with
    | nil => exact absurd hphase hbatched
    | cons event batch =>
      rw [WindsUp, hphase]
      exact @winding_run s (event :: batch) h hphase later
  | stopped =>
    have hover := over_run (.inl hphase) later
    rw [hphase] at hover
    rw [WindsUp, hphase]
    exact hover
  | killed =>
    have hover := over_run (.inr hphase) later
    rw [hphase] at hover
    rw [WindsUp, hphase]
    exact hover

end WindsUp

/-- Whatever the clients do, the loop goes on until a signal comes, `kevent` fails or the listening
socket has an error. A server that is to stop finishes the batch it is at; if it was waiting, `kevent`
returns once more and the server finishes that batch. -/
theorem loop_ends (listenFd : ℕ) (session : Session) (run : List Input) :
    let s := final step run (started listenFd session)
    (Along (fun i s => ¬ EndsLoop i s) step run (started listenFd session) ↔ Ongoing s) ∧
      (s.running = false → ∀ later, WindsUp later s) := by
  have hstarted : Ongoing (started listenFd session) := ⟨rfl, by simp [started]⟩
  refine ⟨along_iff_final (fun i s => ongoing_step i) (fun i s => ongoing_of_step i) hstarted run, ?_⟩
  refine fun hstops later => winds_up hstops ?_ later
  exact @final_keeps _ _ _ step (fun s => s.phase ≠ .dispatching []) (fun i s => step_batched i) _
    (by simp [started]) run

def stopMidway : List Input :=
  [.ready [⟨3, .read, false⟩], .handle { accepts := [.connection 5 true true] },
    .ready [⟨3, .read, false⟩, ⟨5, .read, false⟩],
    .handle { accepts := [.connection 6 true true] }, .signal]

theorem stopMidway_ends :
    let s := final step stopMidway (started 3 ⟨{}, none⟩)
    s.running = false ∧ s.phase = .dispatching [⟨5, .read, false⟩] ∧
      WindsUp [.handle { recvs := [chunkOf "*1\r\n$4\r\nPING\r\n" ping_isChunk] }] s :=
  ⟨rfl, rfl, (loop_ends 3 ⟨{}, none⟩ stopMidway).2 rfl _⟩

end RedisLite.EventLoop
