import RedisLite.DeliveryIndependence

/-!
# The books of the event loop

The keys of the two buffer maps are the connections that are open, and every connection is closed once.
The handlers never look whether their descriptor is still open, so this lasts as long as every event
that is handled is for a descriptor that is.
-/

namespace RedisLite.EventLoop
open ByteStrings Resp IncrementalDecoding Keyspace Commands MachineRuns

/-- What an action makes of the connection on its descriptor. No connection is accepted on a
descriptor that is open, and none is closed that is not. -/
def Action.turn (connected : Option Bool) : Action → Option Bool
  | .accepted => if connected = some false then some true else none
  | .closed => if connected = some true then some false else none
  | _ => connected

def turnOn (fd : ℕ) (connected : Option Bool) (entry : ℕ × Action) : Option Bool :=
  if entry.1 = fd then entry.2.turn connected else connected

/-- Whether a descriptor is accepted and not yet closed; the listening socket is there from the start.
Nothing is said once it has been closed or accepted when it could not. -/
def connected (s : Server) (fd : ℕ) : Option Bool :=
  s.trace.foldl (turnOn fd) (some (fd = s.listenFd))

/-- The books are in order: `close` has been called for connections only, once for each, and the maps
have the open ones as their keys. -/
structure Bookkept (s : Server) : Prop where
  disciplined : ∀ fd, connected s fd ≠ none
  input : ∀ fd, s.input.contains fd = true ↔ fd ≠ s.listenFd ∧ connected s fd = some true
  output : ∀ fd, s.output.contains fd = true ↔ fd ≠ s.listenFd ∧ connected s fd = some true
  closing : ∀ fd, s.closing.contains fd = true → fd ≠ s.listenFd ∧ connected s fd = some true
  stopped : s.phase = .stopped → ∀ fd, connected s fd = some false

theorem connected_note (fd fd' : ℕ) (actions : List Action) (s : Server) :
    connected (s.note fd' actions) fd =
      if fd' = fd then actions.foldl Action.turn (connected s fd) else connected s fd := by
  rw [connected, Server.note, List.foldl_append, List.foldl_map]
  split
  · rename_i h
    simp only [turnOn, if_pos h]
    rfl
  · rename_i h
    simp only [turnOn, if_neg h]
    exact List.foldl_fixed' (fun _ => rfl) actions

/-- Actions that are not about the connection itself. -/
theorem connected_note_idle {actions : List Action} (h : ∀ a ∈ actions, ∀ c, a.turn c = c)
    (fd fd' : ℕ) (s : Server) : connected (s.note fd' actions) fd = connected s fd := by
  have hfold : ∀ c, actions.foldl Action.turn c = c := by
    intro c
    induction actions with
    | nil => rfl
    | cons a actions ih =>
      rw [List.foldl_cons, h a List.mem_cons_self]
      exact ih fun b hb => h b (List.mem_cons_of_mem a hb)
  rw [connected_note, hfold, ite_self]

theorem idle_parsing (p : Parsing) : ∀ a ∈ p.actions, ∀ c, a.turn c = c := by
  intro a ha c
  rcases List.mem_append.mp ha with ha | ha
  · obtain ⟨e, -, rfl⟩ := List.mem_map.mp ha
    rfl
  · obtain ⟨e, -, rfl⟩ := List.mem_map.mp ha
    rfl

theorem foldl_closed {fds : List ℕ} (hnodup : fds.Nodup) (fd : ℕ) (c : Option Bool) :
    (fds.map (·, Action.closed)).foldl (turnOn fd) c =
      if fd ∈ fds then Action.turn c .closed else c := by
  induction fds generalizing c with
  | nil => simp
  | cons fd' fds ih =>
    obtain ⟨hnew, hnodup⟩ := List.nodup_cons.mp hnodup
    rw [List.map_cons, List.foldl_cons, ih hnodup]
    by_cases hfd : fd' = fd
    · subst hfd
      simp [turnOn, hnew]
    · simp [turnOn, hfd, Ne.symm hfd]

theorem compare_beq (fd fd' : ℕ) : (compare fd fd' == .eq) = (fd == fd') := by
  rw [Bool.eq_iff_iff, beq_iff_eq, beq_iff_eq, compare_eq_iff_eq]

theorem contains_erase (fd fd' : ℕ) (d : Descriptors) :
    (d.erase fd).contains fd' = (fd != fd' && d.contains fd') := by
  rw [Std.ExtTreeSet.contains_erase, bne, bne, compare_beq]

theorem key_erase (fd fd' : ℕ) (m : ClientBuffers) :
    (m.erase fd).contains fd' = (fd != fd' && m.contains fd') := by
  rw [Std.ExtTreeMap.contains_erase, bne, bne, compare_beq]

theorem contains_insert (fd fd' : ℕ) (d : Descriptors) :
    (d.insert fd).contains fd' = (fd == fd' || d.contains fd') := by
  rw [Std.ExtTreeSet.contains_insert, compare_beq]

theorem key_insert (fd fd' : ℕ) (buffer : Bytes) (m : ClientBuffers) :
    (m.insert fd buffer).contains fd' = (fd == fd' || m.contains fd') := by
  rw [Std.ExtTreeMap.contains_insert, compare_beq]

theorem key_insert_of_key {fd : ℕ} {m : ClientBuffers} (h : m.contains fd = true) (fd' : ℕ)
    (buffer : Bytes) : (m.insert fd buffer).contains fd' = m.contains fd' := by
  rw [key_insert]
  by_cases hfd : fd = fd'
  · subst hfd
    rw [h, Bool.or_true]
  · rw [beq_eq_false_iff_ne.mpr hfd, Bool.false_or]

structure Synced (s : Server) : Prop where
  connected : ∀ fd, connected s fd = some (s.openFds.contains fd)
  input : ∀ fd, s.input.contains fd = (s.openFds.contains fd && fd != s.listenFd)
  output : ∀ fd, s.output.contains fd = (s.openFds.contains fd && fd != s.listenFd)
  closing : ∀ fd, s.closing.contains fd = true → s.input.contains fd = true
  listening : s.phase ≠ .stopped → s.openFds.contains s.listenFd = true
  stopped : s.phase = .stopped → ∀ fd, s.openFds.contains fd = false

namespace Synced
variable {fd : ℕ} {s s' : Server}

theorem bookkept (h : Synced s) : Bookkept s where
  disciplined fd := by simp [h.connected]
  input fd := by simp [h.connected, h.input, and_comm]
  output fd := by simp [h.connected, h.output, and_comm]
  closing fd hfd := by simpa [h.connected, h.input, and_comm] using h.closing fd hfd
  stopped hstopped fd := by rw [h.connected, h.stopped hstopped]

theorem not_stopped (h : Synced s) (hfd : s.openFds.contains fd = true) : s.phase ≠ .stopped := by
  intro hstopped
  simp [h.stopped hstopped] at hfd

/-- Buffers may change, and a connected client may be marked. -/
theorem congr (h : Synced s) (hopen : s'.openFds = s.openFds) (hlisten : s'.listenFd = s.listenFd)
    (hconnected : ∀ fd, EventLoop.connected s' fd = EventLoop.connected s fd)
    (hinput : ∀ fd, s'.input.contains fd = s.input.contains fd)
    (houtput : ∀ fd, s'.output.contains fd = s.output.contains fd)
    (hclosing : ∀ fd, s'.closing.contains fd = true → s.input.contains fd = true)
    (hphase : s'.phase = .stopped ↔ s.phase = .stopped) : Synced s' where
  connected fd := by rw [hconnected, hopen, h.connected]
  input fd := by rw [hinput, hopen, hlisten, h.input]
  output fd := by rw [houtput, hopen, hlisten, h.output]
  closing fd hfd := by
    rw [hinput]
    exact hclosing fd hfd
  listening hstopped := by
    rw [hopen, hlisten]
    exact h.listening (mt hphase.mpr hstopped)
  stopped hstopped fd := by
    rw [hopen]
    exact h.stopped (hphase.mp hstopped) fd

theorem close (h : Synced s) (hfd : s.input.contains fd = true) : Synced (closeClient fd s) := by
  obtain ⟨hopen, hclient⟩ : s.openFds.contains fd = true ∧ fd ≠ s.listenFd := by
    simpa [h.input] using hfd
  refine ⟨fun fd' => ?_, fun fd' => ?_, fun fd' => ?_, fun fd' hclosing => ?_, fun hstopped => ?_,
    fun hstopped => absurd hstopped (h.not_stopped hopen)⟩
  · change EventLoop.connected (Server.note fd [.closed] _) fd' = some ((s.openFds.erase fd).contains fd')
    rw [connected_note, contains_erase]
    change (if fd = fd' then Action.turn (EventLoop.connected s fd') .closed
      else EventLoop.connected s fd') = _
    rw [h.connected]
    by_cases hfd' : fd = fd'
    · subst hfd'
      simp [Action.turn, hopen]
    · simp [hfd']
  · change (s.input.erase fd).contains fd' = ((s.openFds.erase fd).contains fd' && fd' != s.listenFd)
    rw [key_erase, contains_erase, Bool.and_assoc, h.input]
  · change (s.output.erase fd).contains fd' = ((s.openFds.erase fd).contains fd' && fd' != s.listenFd)
    rw [key_erase, contains_erase, Bool.and_assoc, h.output]
  · change (s.input.erase fd).contains fd' = true
    change (s.closing.erase fd).contains fd' = true at hclosing
    rw [contains_erase, Bool.and_eq_true] at hclosing
    rw [key_erase, Bool.and_eq_true]
    exact ⟨hclosing.1, h.closing fd' hclosing.2⟩
  · change (s.openFds.erase fd).contains s.listenFd = true
    rw [contains_erase, h.listening (h.not_stopped hopen)]
    simpa using hclient

theorem add (h : Synced s) (hfresh : s.openFds.contains fd = false) (hphase : s.phase ≠ .stopped) :
    Synced (addClient fd s) := by
  have hclient : fd ≠ s.listenFd := by
    rintro rfl
    rw [h.listening hphase] at hfresh
    cases hfresh
  refine ⟨fun fd' => ?_, fun fd' => ?_, fun fd' => ?_, fun fd' hclosing => ?_, fun _ => ?_,
    fun hstopped => absurd hstopped hphase⟩
  · change EventLoop.connected (Server.note fd [.accepted] _) fd' =
      some ((s.openFds.insert fd).contains fd')
    rw [connected_note, contains_insert]
    change (if fd = fd' then Action.turn (EventLoop.connected s fd') .accepted
      else EventLoop.connected s fd') = _
    rw [h.connected]
    by_cases hfd' : fd = fd'
    · subst hfd'
      simp [Action.turn, hfresh]
    · simp [hfd']
  · change (s.input.insert fd []).contains fd' =
      ((s.openFds.insert fd).contains fd' && fd' != s.listenFd)
    rw [key_insert, contains_insert, h.input]
    by_cases hfd' : fd = fd'
    · subst hfd'
      simpa using hclient
    · rw [beq_eq_false_iff_ne.mpr hfd', Bool.false_or, Bool.false_or]
  · change (s.output.insert fd []).contains fd' =
      ((s.openFds.insert fd).contains fd' && fd' != s.listenFd)
    rw [key_insert, contains_insert, h.output]
    by_cases hfd' : fd = fd'
    · subst hfd'
      simpa using hclient
    · rw [beq_eq_false_iff_ne.mpr hfd', Bool.false_or, Bool.false_or]
  · change (s.input.insert fd []).contains fd' = true
    rw [key_insert, h.closing fd' hclosing, Bool.or_true]
  · change (s.openFds.insert fd).contains s.listenFd = true
    rw [contains_insert, h.listening hphase, Bool.or_true]

theorem key (h : Synced s) (hfd : s.input.contains fd = true) :
    s.output.contains fd = true ∧ s.phase ≠ .stopped := by
  have hopen : s.openFds.contains fd = true := by
    rw [h.input, Bool.and_eq_true] at hfd
    exact hfd.1
  rw [h.output, ← h.input]
  exact ⟨hfd, h.not_stopped hopen⟩

/-- What the handlers do with a connected client keeps the books until it is closed. -/
theorem undisturbed (fd : ℕ) : Undisturbed fd fun s => Synced s ∧ s.input.contains fd = true where
  receive results s := by
    rintro ⟨h, hfd⟩
    have hkeys := key_insert_of_key hfd
    refine ⟨h.congr rfl rfl (fun fd' => ?_) (fun fd' => hkeys fd' _) (fun _ => rfl) h.closing Iff.rfl,
      (hkeys fd _).trans hfd⟩
    exact connected_note_idle (by simp [Action.turn]) fd' fd _
  failed s := by
    rintro ⟨h, hfd⟩
    refine ⟨h.congr rfl rfl (fun fd' => ?_) (fun _ => rfl) (fun _ => rfl) h.closing Iff.rfl, hfd⟩
    exact connected_note_idle (by simp [Action.turn]) fd' fd _
  serve clock s := by
    rintro ⟨h, hfd⟩
    have hkeys := key_insert_of_key hfd
    have hkeys' := key_insert_of_key (h.key hfd).1
    refine ⟨h.congr rfl rfl (fun fd' => ?_) (fun fd' => hkeys fd' _) (fun fd' => hkeys' fd' _)
      h.closing Iff.rfl, (hkeys fd _).trans hfd⟩
    exact connected_note_idle (idle_parsing _) fd' fd _
  refuse s := by
    rintro ⟨h, hfd⟩
    have hkeys' := key_insert_of_key (h.key hfd).1
    refine ⟨h.congr rfl rfl (fun fd' => ?_) (fun _ => rfl) (fun fd' => hkeys' fd' _) h.closing Iff.rfl,
      hfd⟩
    exact connected_note_idle (by simp [Action.turn]) fd' fd _
  send results s := by
    rintro ⟨h, hfd⟩
    obtain ⟨houtput, hphase⟩ := h.key hfd
    have hkeys' := key_insert_of_key houtput
    have hphase' : (trySend fd results s).2.phase ≠ .stopped := by
      by_cases hsend : (trySend fd results s).1 = none
      · rw [trySend_killed hsend]
        decide
      · rwa [trySend_phase hsend]
    refine ⟨h.congr rfl rfl (fun fd' => ?_) (fun _ => rfl) (fun fd' => hkeys' fd' _) h.closing
      (iff_of_false hphase' hphase), hfd⟩
    exact connected_note_idle (by simp [Action.turn]) fd' fd _
  linger s := by
    rintro ⟨h, hfd⟩
    refine ⟨h.congr rfl rfl (fun _ => rfl) (fun _ => rfl) (fun _ => rfl) (fun fd' hclosing => ?_)
      Iff.rfl, hfd⟩
    rw [contains_insert, Bool.or_eq_true, beq_iff_eq] at hclosing
    rcases hclosing with rfl | hclosing
    · exact hfd
    · exact h.closing fd' hclosing
  drain s := by
    rintro ⟨h, hfd⟩
    exact ⟨h.congr rfl rfl (fun _ => rfl) (fun _ => rfl) (fun _ => rfl) h.closing Iff.rfl, hfd⟩

/-- The descriptors that are closed when the server stops: the connections, and then the listening
socket. -/
theorem closes (h : Synced s) (hphase : s.phase ≠ .stopped) :
    (s.input.keys ++ [s.listenFd]).Nodup ∧
      ∀ fd, fd ∈ s.input.keys ++ [s.listenFd] ↔ s.openFds.contains fd = true := by
  have hkey : ∀ fd, fd ∈ s.input.keys ↔ s.openFds.contains fd = true ∧ fd ≠ s.listenFd := by
    intro fd
    rw [Std.ExtTreeMap.mem_keys, ← Std.ExtTreeMap.contains_iff_mem, h.input]
    simp
  refine ⟨List.nodup_append.mpr ⟨Std.ExtTreeMap.nodup_keys, by simp, ?_⟩, fun fd => ?_⟩
  · intro fd hfd fd' hfd'
    rw [List.mem_singleton.mp hfd']
    exact ((hkey fd).mp hfd).2
  · rw [List.mem_append, hkey, List.mem_singleton]
    by_cases hfd : fd = s.listenFd
    · subst hfd
      simpa using h.listening hphase
    · simp [hfd]

theorem shutdown (h : Synced s) (hphase : s.phase ≠ .stopped) : Synced (shutdown s) := by
  obtain ⟨hnodup, hmem⟩ := h.closes hphase
  have hempty : ∀ fd, (∅ : Descriptors).contains fd = false := fun _ => Std.ExtTreeSet.contains_empty
  have hnokey : ∀ fd, (∅ : ClientBuffers).contains fd = false := fun _ => Std.ExtTreeMap.contains_empty
  refine ⟨fun fd => ?_, fun fd => ?_, fun fd => ?_, fun fd hfd => ?_, fun hstopped => absurd rfl hstopped,
    fun _ => hempty⟩
  · have hconnected : EventLoop.connected (EventLoop.shutdown s) fd =
        ((s.input.keys ++ [s.listenFd]).map (·, Action.closed)).foldl (turnOn fd)
          (EventLoop.connected s fd) := List.foldl_append
    rw [hconnected, foldl_closed hnodup, h.connected]
    simp only [hmem]
    refine Eq.trans ?_ (congrArg some (hempty fd)).symm
    cases s.openFds.contains fd with
    | true => rfl
    | false => rfl
  · change (∅ : ClientBuffers).contains fd = ((∅ : Descriptors).contains fd && _)
    rw [hempty, hnokey, Bool.false_and]
  · change (∅ : ClientBuffers).contains fd = ((∅ : Descriptors).contains fd && _)
    rw [hempty, hnokey, Bool.false_and]
  · exact absurd hfd (by simp [EventLoop.shutdown])

/-- Between events the books stay as they are, and in the end everything is closed. -/
theorem rests (hrests : Rests s s') (h : Synced s) : Synced s' := by
  rcases hrests with ⟨running, phase, hphase, rfl⟩ | ⟨hgoesOn, rfl⟩
  · refine h.congr rfl rfl (fun _ => rfl) (fun _ => rfl) (fun _ => rfl) h.closing ?_
    exact Phase.Over.eq_iff (.inl rfl) hphase
  · exact h.shutdown fun hstopped => hgoesOn (.inl hstopped)

end Synced

/-- `accept` returns descriptors that are not open. -/
def freshAccepts : List AcceptResult → Descriptors → Bool
  | .connection fd nonBlocking registered :: results, openFds =>
    !openFds.contains fd &&
      freshAccepts results (if nonBlocking ∧ registered then openFds.insert fd else openFds)
  | .interrupted :: results, openFds => freshAccepts results openFds
  | _, _ => true

def AcceptsFresh (i : Input) (s : Server) : Prop :=
  ∀ e ∈ handled i s, e.1.fd = s.listenFd → freshAccepts e.2.accepts s.openFds = true

instance (i : Input) (s : Server) : Decidable (AcceptsFresh i s) :=
  inferInstanceAs (Decidable (∀ e ∈ handled i s, _ → freshAccepts e.2.accepts s.openFds = true))

/-- What a client on a descriptor that is not open keeps, and one that is turned away, the accept loop
keeps. -/
theorem acceptClients_fresh {P : Server → Prop}
    (hadd : ∀ fd s, s.openFds.contains fd = false → P s → P (addClient fd s))
    (hrefuse : ∀ fd s, P s → P (s.note fd [.refused])) {results : List AcceptResult} {s : Server}
    (hfresh : freshAccepts results s.openFds = true) (h : P s) : P (acceptClients results s) := by
  induction results generalizing s with
  | nil => exact h
  | cons result results ih =>
    cases result with
    | connection fd nonBlocking registered =>
      rw [freshAccepts, Bool.and_eq_true, Bool.not_eq_true'] at hfresh
      obtain ⟨hfd, hfresh⟩ := hfresh
      rw [acceptClients]
      split
      · rename_i hset
        rw [if_pos hset] at hfresh
        exact ih hfresh (hadd fd s hfd h)
      · rename_i hset
        rw [if_neg hset] at hfresh
        exact ih hfresh (hrefuse fd s h)
    | interrupted => exact ih hfresh h
    | wouldBlock => exact h
    | failed => exact h

theorem Synced.note {actions : List Action} {s : Server} (h : Synced s)
    (hidle : ∀ a ∈ actions, ∀ c, a.turn c = c) (fd : ℕ) : Synced (s.note fd actions) :=
  h.congr rfl rfl (fun fd' => connected_note_idle hidle fd' fd s) (fun _ => rfl) (fun _ => rfl)
    h.closing Iff.rfl

theorem synced_acceptClients {results : List AcceptResult} {s : Server}
    (hfresh : freshAccepts results s.openFds = true) (h : Synced s) (hphase : s.phase ≠ .stopped) :
    Synced (acceptClients results s) := by
  refine (@acceptClients_fresh (fun s => Synced s ∧ s.phase ≠ .stopped) ?_ ?_ _ _ hfresh
    ⟨h, hphase⟩).1
  · rintro fd s hfd ⟨h, hphase⟩
    exact ⟨h.add hfd hphase, hphase⟩
  · rintro fd s ⟨h, hphase⟩
    exact ⟨h.note (by simp [Action.turn]) fd, hphase⟩

theorem synced_handleEvent {event : Event} {answers : Answers} {s : Server} (h : Synced s)
    (hphase : s.phase ≠ .stopped)
    (hfresh : event.fd = s.listenFd → freshAccepts answers.accepts s.openFds = true)
    (hlive : event.fd = s.listenFd ∨ s.openFds.contains event.fd = true) :
    Synced (handleEvent event answers s) := by
  by_cases hclient : event.fd = s.listenFd
  · unfold handleEvent
    rw [if_pos hclient, if_pos hclient]
    split
    · exact h.congr rfl rfl (fun _ => rfl) (fun _ => rfl) (fun _ => rfl) h.closing Iff.rfl
    · exact synced_acceptClients (hfresh hclient) h hphase
  · have hkey : s.input.contains event.fd = true := by
      simpa [h.input, hclient] using hlive.resolve_left hclient
    rcases (Synced.undisturbed event.fd).event answers hclient ⟨h, hkey⟩ with ⟨h, -⟩ | ⟨s₁, h, hclosed⟩
    · exact h
    · rw [hclosed]
      exact h.1.close h.2

/-- There is no connection on the descriptor, and yet there is an entry for it. -/
structure Stray (fd listenFd : ℕ) (s : Server) : Prop where
  connected : EventLoop.connected s fd = some false
  listenFd : s.listenFd = listenFd
  key : s.input.contains fd = true ∨ s.output.contains fd = true

theorem Stray.not_bookkept {fd listenFd : ℕ} {s : Server} (h : Stray fd listenFd s) :
    ¬ Bookkept s := by
  intro hbooks
  have hconnected : EventLoop.connected s fd = some true := by
    rcases h.key with hkey | hkey
    · exact ((hbooks.input fd).mp hkey).2
    · exact ((hbooks.output fd).mp hkey).2
  rw [h.connected] at hconnected
  cases hconnected

theorem not_bookkept_closed {fd : ℕ} {s : Server} (h : connected s fd = some false) :
    ¬ Bookkept (closeClient fd s) := by
  intro hbooks
  refine hbooks.disciplined fd ?_
  change connected (Server.note fd [.closed] _) fd = none
  rw [connected_note, if_pos rfl]
  exact (congrArg (Action.turn · .closed) h).trans rfl

theorem stray_settling (fd listenFd : ℕ) : Settling fd (Stray fd listenFd) where
  send results s h := by
    refine ⟨?_, h.listenFd, .inr ?_⟩
    · exact (connected_note_idle (by simp [Action.turn]) fd fd _).trans h.connected
    · exact (key_insert fd fd _ s.output).trans (by simp)
  linger _ h := ⟨h.connected, h.listenFd, h.key⟩
  drain _ h := ⟨h.connected, h.listenFd, h.key⟩

/-- An event that is left over from a connection spoils the books. -/
theorem not_bookkept_stale {event : Event} {answers : Answers} {s : Server} (h : Synced s)
    (hclient : event.fd ≠ s.listenFd) (hclosed : s.openFds.contains event.fd = false) :
    ¬ Bookkept (handleEvent event answers s) := by
  have hconnected : connected s event.fd = some false := by rw [h.connected, hclosed]
  have hsettling := stray_settling event.fd s.listenFd
  have hends : ∀ s', Ends event.fd (Stray event.fd s.listenFd) s' → ¬ Bookkept s' := by
    rintro s' (hstray | ⟨s₁, hstray, rfl⟩)
    · exact hstray.not_bookkept
    · exact not_bookkept_closed hstray.connected
  have houtcome := eventOutcome event answers s
  generalize handleEvent event answers s = s' at houtcome
  cases houtcome with
  | listenFailed hlisten => exact absurd hlisten hclient
  | accepted hlisten => exact absurd hlisten hclient
  | error => exact not_bookkept_closed hconnected
  | read _ _ _ hread =>
    refine hends _ (hsettling.read (fun _ => ⟨?_, rfl, .inl ?_⟩) (fun _ _ hp => ?_) hread)
    · rw [connected_note_idle (by simp [Action.turn]), ← hconnected]
      exact connected_note_idle (by simp [Action.turn]) event.fd event.fd _
    · exact (key_insert event.fd event.fd _ s.input).trans (by simp)
    · rw [hp.isOpen] at hclosed
      cases hclosed
  | write _ _ _ hwrite =>
    refine hends _ (hsettling.write ⟨?_, rfl, .inr ?_⟩ hwrite)
    · rw [← hconnected]
      exact connected_note_idle (by simp [Action.turn]) event.fd event.fd _
    · exact (key_insert event.fd event.fd _ s.output).trans (by simp)

theorem synced_started (listenFd : ℕ) (session : Session) : Synced (started listenFd session) := by
  have hopen : ∀ fd, (started listenFd session).openFds.contains fd = decide (fd = listenFd) := by
    intro fd
    rw [started, contains_insert, Std.ExtTreeSet.contains_empty, Bool.or_false, Bool.eq_iff_iff,
      beq_iff_eq, decide_eq_true_eq]
    exact eq_comm
  have hnokey : ∀ fd, (∅ : ClientBuffers).contains fd =
      ((started listenFd session).openFds.contains fd && fd != listenFd) := by
    intro fd
    simp [hopen]
  refine ⟨fun fd => ?_, hnokey, hnokey, fun fd hfd => absurd hfd (by simp [started]), fun _ => ?_, nofun⟩
  · rw [hopen]
    rfl
  · rw [hopen]
    exact decide_eq_true rfl

def halfClosed : List Input :=
  [.ready [⟨3, .read, false⟩], .handle { accepts := [.connection 5 true true] },
    .ready [⟨5, .read, false⟩],
    .handle
      { recvs := [chunkOf "*1\r\n$4\r\nPING\r\n" ping_isChunk, .endOfFile]
        sends := [.accepted 3, .wouldBlock true] }]

end RedisLite.EventLoop
