import RedisLite.ConnectionBookkeeping

/-!
# Events that are left over in a batch

A batch may hold two events of one client, and the first may close it. The second is handled all the
same: on a descriptor that is not open it spoils the books, and where `accept` has given the number to
a new client it is taken for an event of that one. There it changes nothing only as long as it is no
error and there is nothing to be read yet.
-/

namespace RedisLite.EventLoop
open ByteStrings Resp IncrementalDecoding Keyspace Commands MachineRuns

def Action.closes : Action → Bool
  | .closed => true
  | _ => false

/-- The server with the number of its actions that lay behind it when `kevent` returned last. -/
structure Watched where
  server : Server
  behind : ℕ

def watched (s : Server) : Watched := ⟨s, s.trace.length⟩

def watchStep (i : Input) (w : Watched) : Unit × Watched :=
  ((), {
    server := (step i w.server).2
    behind := if w.server.phase = .waiting then w.server.trace.length else w.behind })

/-- A connection on the descriptor has been closed since. What the batch still holds for it is left
over, whether or not the number has been given to a new client. -/
def Watched.leftOver (w : Watched) (fd : ℕ) : Bool :=
  (w.server.trace.drop w.behind).any fun entry => entry.1 == fd && entry.2.closes

/-- Nothing is changed, though `recv` or `send` may have been tried. -/
def Unchanged (fd : ℕ) (s s' : Server) : Prop :=
  ∃ actions, (∀ a ∈ actions, a = .received [] ∨ a = .sent []) ∧ s' = s.note fd actions

/-- The books are in order after the event, which changes nothing if it is left over, and when the
loop has gone on. -/
structure Bookkeeps (i : Input) (w : Watched) : Prop where
  event : ∀ e ∈ handled i w.server, Bookkept (handleEvent e.1 e.2 w.server)
  leftOver : ∀ e ∈ handled i w.server, e.1.fd ≠ w.server.listenFd → w.leftOver e.1.fd = true →
    Unchanged e.1.fd w.server (handleEvent e.1 e.2 w.server)
  next : Bookkept (step i w.server).2

/-- `recv` has nothing to tell about a client: no bytes, no end of the stream and no failure. -/
def silent : List RecvResult → Bool
  | [] => true
  | .wouldBlock :: _ => true
  | .interrupted :: results => silent results
  | _ => false

/-- The event that the input handles is for the listening socket or for a client that is still
connected. If it was for another client with this number, it is no error, and this one has nothing to
be read. -/
def EventLive (i : Input) (w : Watched) : Prop :=
  ∀ e ∈ handled i w.server, e.1.fd = w.server.listenFd ∨ w.server.openFds.contains e.1.fd = true ∧
    (w.leftOver e.1.fd = true →
      e.1.error = false ∧ (e.1.filter = .read → silent e.2.recvs = true))

instance (i : Input) (w : Watched) : Decidable (EventLive i w) :=
  inferInstanceAs (Decidable (∀ e ∈ handled i w.server, _ ∨ _ ∧ (_ → _ ∧ (_ → _))))

structure Unused (fd : ℕ) (s : Server) : Prop where
  input : s.input[fd]? = some []
  output : s.output[fd]? = some []
  closing : s.closing.contains fd = false
  writing : s.writeFilters.contains fd = false

/-- The books are in order, and in the course of a batch a number that is used again is that of a
client for which nothing has been done. -/
structure Orderly (w : Watched) : Prop where
  synced : Synced w.server
  writing : ∀ fd, w.server.writeFilters.contains fd = true → w.server.openFds.contains fd = true
  reused : ∀ fd, fd ≠ w.server.listenFd → w.leftOver fd = true →
    w.server.openFds.contains fd = true → Unused fd w.server

section Watching
variable {fd fd' n : ℕ} {actions : List Action} {s s' : Server}

theorem leftOver_note (h : fd' = fd → ∀ a ∈ actions, a.closes = false) (n : ℕ) (s : Server) :
    Watched.leftOver ⟨s.note fd' actions, n⟩ fd = Watched.leftOver ⟨s, n⟩ fd := by
  have hnew : ((actions.map (fd', ·)).drop (n - s.trace.length)).any
      (fun entry => entry.1 == fd && entry.2.closes) = false := by
    rw [List.any_eq_false]
    intro entry hentry
    obtain ⟨a, ha, rfl⟩ := List.mem_map.mp (List.mem_of_mem_drop hentry)
    rw [Bool.and_eq_true, beq_iff_eq]
    rintro ⟨hfd, hcloses⟩
    rw [h hfd a ha] at hcloses
    cases hcloses
  change ((s.trace ++ actions.map (fd', ·)).drop n).any _ = _
  rw [List.drop_append, List.any_append, hnew, Bool.or_false]
  rfl

theorem undisturbed_leftOver (fd fd' n : ℕ) (leftOver : Bool) :
    Undisturbed fd' fun s => Watched.leftOver ⟨s, n⟩ fd = leftOver where
  receive results s h := (leftOver_note (by simp [Action.closes]) n _).trans h
  failed s h := (leftOver_note (by simp [Action.closes]) n _).trans h
  serve clock s h := by
    refine (leftOver_note (fun _ a ha => ?_) n _).trans h
    rcases List.mem_append.mp ha with ha | ha
    · obtain ⟨e, -, rfl⟩ := List.mem_map.mp ha
      rfl
    · obtain ⟨e, -, rfl⟩ := List.mem_map.mp ha
      rfl
  refuse s h := (leftOver_note (by simp [Action.closes]) n _).trans h
  send results s h := (leftOver_note (by simp [Action.closes]) n _).trans h
  linger _ h := h
  drain _ h := h

theorem undisturbed_writing (fd : ℕ) : Undisturbed fd fun s => s.openFds.contains fd = true ∧
    ∀ fd', s.writeFilters.contains fd' = true → s.openFds.contains fd' = true where
  receive _ _ h := h
  failed _ h := h
  serve _ _ h := h
  refuse _ h := h
  send results s := by
    rintro ⟨hopen, hwriting⟩
    refine ⟨hopen, fun fd' hfd' => ?_⟩
    by_cases hother : fd = fd'
    · subst hother
      exact hopen
    · rw [(Untouched.trySend hother results s).writing] at hfd'
      exact hwriting fd' hfd'
  linger _ h := h
  drain s := by
    rintro ⟨hopen, hwriting⟩
    refine ⟨hopen, fun fd' hfd' => hwriting fd' ?_⟩
    rw [contains_erase, Bool.and_eq_true] at hfd'
    exact hfd'.2

theorem Untouched.unused (hu : Untouched fd s s') (h : Unused fd s) : Unused fd s' where
  input := hu.input.trans h.input
  output := hu.output.trans h.output
  closing := hu.closing.trans h.closing
  writing := hu.writing.trans h.writing

theorem getD_of_unused {m : ClientBuffers} (h : m[fd]? = some []) : m.getD fd [] = [] := by
  rw [Std.ExtTreeMap.getD_eq_getD_getElem?, h]
  rfl

theorem insert_of_unused {m : ClientBuffers} (h : m[fd]? = some []) : m.insert fd [] = m := by
  apply Std.ExtTreeMap.ext_getElem?
  intro fd'
  by_cases hfd : fd = fd'
  · subst hfd
    rw [Std.ExtTreeMap.getElem?_insert_self, h]
  · exact Untouched.insert_ne hfd m []

theorem erase_of_absent {d : Descriptors} (h : d.contains fd = false) : d.erase fd = d := by
  apply Std.ExtTreeSet.ext_contains
  intro fd'
  rw [contains_erase]
  by_cases hfd : fd = fd'
  · subst hfd
    rw [h, Bool.and_false]
  · simp [hfd]

theorem recvLoop_silent {results : List RecvResult} (h : silent results = true) :
    recvLoop results [] = ⟨[], [], .drained⟩ := by
  induction results with
  | nil => rfl
  | cons result results ih =>
    cases result with
    | interrupted => exact ih h
    | wouldBlock => rfl
    | data | endOfFile | failed => cases h

theorem closed_changed (s₁ : Server) (hopen : s.openFds.contains fd = true) :
    ¬ Unchanged fd s (closeClient fd s₁) := by
  rintro ⟨actions, -, heq⟩
  have hsame : (s₁.openFds.erase fd).contains fd = s.openFds.contains fd :=
    congrArg (fun s => s.openFds.contains fd) heq
  rw [contains_erase, hopen] at hsame
  simp at hsame

theorem received_unchanged (h : Unchanged fd s s') :
    (ledger fd s'.trace).received = (ledger fd s.trace).received := by
  obtain ⟨actions, hidle, rfl⟩ := h
  rw [ledger_note]
  generalize ledger fd s.trace = l
  induction actions generalizing l with
  | nil => rfl
  | cons a actions ih =>
    refine (ih (fun b hb => hidle b (List.mem_cons_of_mem a hb)) _).trans ?_
    rcases hidle a List.mem_cons_self with rfl | rfl
    · exact List.append_nil _
    · rfl

namespace Unused

theorem trySend (h : Unused fd s) (results : List SendResult) :
    EventLoop.trySend fd results s = (some true, s.note fd [.sent []]) := by
  simp only [EventLoop.trySend, getD_of_unused h.output, sendLoop_nil, SendStatus.returned,
    insert_of_unused h.output, reduceCtorEq, if_false]

theorem receive (h : Unused fd s) (hopen : s.openFds.contains fd = true)
    {results : List RecvResult} (hsilent : silent results = true) :
    EventLoop.receive fd results s = (.drained, s.note fd [.received []]) := by
  simp only [EventLoop.receive, hopen, if_true, getD_of_unused h.input, recvLoop_silent hsilent,
    insert_of_unused h.input]

theorem serveRequests (h : Unused fd s) (clock : ℕ → Readings) :
    EventLoop.serveRequests fd clock s = (none, s) := by
  have hloop (p : Parsing) (hp : p.buffer = []) : parseLoop clock 1 p = p := by
    rw [parseLoop, hp, parse_nil]
  simp only [EventLoop.serveRequests, getD_of_unused h.input, getD_of_unused h.output,
    List.length_nil, Nat.zero_add, hloop, insert_of_unused h.input, insert_of_unused h.output,
    Parsing.actions, List.map_nil, Option.toList_none, List.append_nil, Server.note]

theorem note (h : Unused fd s) (fd' : ℕ) (actions : List Action) : Unused fd (s.note fd' actions) :=
  ⟨h.input, h.output, h.closing, h.writing⟩

/-- What `recv` tells when it is not silent. -/
theorem recvLoop_told {results : List RecvResult} (h : silent results = false) :
    recvLoop results [] = ⟨[], [], .peerFinished⟩ ∨ recvLoop results [] = ⟨[], [], .failed⟩ ∨
      (recvLoop results []).received ≠ [] := by
  induction results with
  | nil => cases h
  | cons result results ih =>
    cases result with
    | interrupted => exact ih h
    | wouldBlock => cases h
    | endOfFile => exact .inl rfl
    | failed => exact .inr (.inl rfl)
    | data chunk =>
      refine .inr (.inr ?_)
      rw [recvLoop]
      split
      · exact chunk.nonempty
      · exact List.append_ne_nil_of_left_ne_nil chunk.nonempty _

/-- Without an error, and with nothing to be read, a new client is left as it is. -/
theorem unchanged {event : Event} {answers : Answers} (h : Unused event.fd s)
    (hopen : s.openFds.contains event.fd = true) (hlisten : event.fd ≠ s.listenFd)
    (herror : event.error = false) (hread : event.filter = .read → silent answers.recvs = true) :
    Unchanged event.fd s (handleEvent event answers s) := by
  rw [handleEvent, if_neg (by simp [herror]), if_neg hlisten]
  cases hfilter : event.filter with
  | read =>
    have hquiet := h.note event.fd [.received []]
    refine ⟨[.received []], by simp, ?_⟩
    simp only [handleReadEvent, handleReadable, h.receive hopen (hread hfilter), hquiet.serveRequests,
      sendReplies, getD_of_unused hquiet.output, if_true, reduceCtorEq, if_false]
  | write =>
    have hquiet := h.note event.fd [.sent []]
    refine ⟨[.sent []], by simp, ?_⟩
    have herase := erase_of_absent hquiet.writing
    simp only [handleWriteEvent, h.trySend, getD_of_unused hquiet.output, if_true, herase,
      hquiet.closing, Bool.false_eq_true, if_false]

/-- An error, or something to be read, changes a new client. -/
theorem changed {event : Event} {answers : Answers} (h : Unused event.fd s)
    (hopen : s.openFds.contains event.fd = true) (hlisten : event.fd ≠ s.listenFd)
    (hunchanged : Unchanged event.fd s (handleEvent event answers s)) :
    event.error = false ∧ (event.filter = .read → silent answers.recvs = true) := by
  cases herror : event.error with
  | true =>
    rw [handleEvent, if_pos herror, if_neg hlisten] at hunchanged
    exact absurd hunchanged (closed_changed s hopen)
  | false =>
    refine ⟨rfl, fun hfilter => ?_⟩
    rw [handleEvent, if_neg (by simp [herror]), if_neg hlisten, hfilter] at hunchanged
    by_contra htold
    rw [Bool.not_eq_true] at htold
    have hreceive := receive_open hopen answers.recvs
    rw [getD_of_unused h.input] at hreceive
    rcases recvLoop_told htold with hloop | hloop | hloop
    · have hquiet := h.note event.fd [.received []]
      rw [hloop, insert_of_unused h.input] at hreceive
      simp only [handleReadEvent, handleReadable, hreceive, hquiet.serveRequests, sendReplies,
        getD_of_unused hquiet.output, if_true] at hunchanged
      exact closed_changed _ hopen hunchanged
    · rw [hloop] at hreceive
      simp only [handleReadEvent, handleReadable, hreceive] at hunchanged
      exact closed_changed _ hopen hunchanged
    · have hreceived := received_read (readOutcome event.fd answers s)
      rw [received_unchanged hunchanged, hreceive, ledger_note] at hreceived
      exact hloop (List.self_eq_append_right.mp hreceived)

end Unused

namespace Orderly

/-- While `kevent` waits, nothing is left over. -/
theorem returned (h : Orderly ⟨s, n⟩) : Orderly ⟨s, s.trace.length⟩ where
  synced := h.synced
  writing := h.writing
  reused fd _ hleft := by
    rw [Watched.leftOver, List.drop_length] at hleft
    cases hleft

theorem rests (hrests : Rests s s') (h : Orderly ⟨s, n⟩) : Orderly ⟨s', n⟩ := by
  refine ⟨h.synced.rests hrests, ?_, ?_⟩
  · rcases hrests with ⟨running, phase, -, rfl⟩ | ⟨-, rfl⟩
    · exact h.writing
    · exact fun fd hfd => absurd hfd (by simp [shutdown])
  · rcases hrests with ⟨running, phase, -, rfl⟩ | ⟨-, rfl⟩
    · intro fd hlisten hleft hopen
      obtain ⟨hinput, houtput, hclosing, hwriting⟩ := h.reused fd hlisten hleft hopen
      exact ⟨hinput, houtput, hclosing, hwriting⟩
    · exact fun fd _ _ hopen => absurd hopen (by simp [shutdown])

theorem add (h : Orderly ⟨s, n⟩) (hfresh : s.openFds.contains fd = false)
    (hphase : s.phase ≠ .stopped) : Orderly ⟨addClient fd s, n⟩ where
  synced := h.synced.add hfresh hphase
  writing fd' hfd' := by
    change (s.openFds.insert fd).contains fd' = true
    rw [contains_insert, h.writing fd' hfd', Bool.or_true]
  reused fd' hlisten hleft hopen := by
    by_cases hfd : fd = fd'
    · subst hfd
      refine ⟨Std.ExtTreeMap.getElem?_insert_self, Std.ExtTreeMap.getElem?_insert_self, ?_, ?_⟩
      · refine Bool.eq_false_iff.mpr fun hclosing => ?_
        have hkey := h.synced.closing fd hclosing
        rw [h.synced.input, hfresh, Bool.false_and] at hkey
        cases hkey
      · refine Bool.eq_false_iff.mpr fun hwriting => ?_
        have hopen := h.writing fd hwriting
        rw [hfresh] at hopen
        cases hopen
    · have hu := Untouched.addClient hfd s
      refine hu.unused (h.reused fd' hlisten ?_ (hu.isOpen.symm.trans hopen))
      exact (leftOver_note (fun hsame => absurd hsame hfd) n _).symm.trans hleft

theorem note (h : Orderly ⟨s, n⟩)
    (hidle : ∀ a ∈ actions, (∀ c, a.turn c = c) ∧ a.closes = false) (fd : ℕ) :
    Orderly ⟨s.note fd actions, n⟩ where
  synced := h.synced.note (fun a ha => (hidle a ha).1) fd
  writing := h.writing
  reused fd' hlisten hleft hopen := by
    have hsame := @leftOver_note fd' fd _ (fun _ a ha => (hidle a ha).2) n s
    exact (h.reused fd' hlisten (hsame.symm.trans hleft) hopen).note fd actions

theorem acceptClients (h : Orderly ⟨s, n⟩) (hphase : s.phase ≠ .stopped)
    {results : List AcceptResult} (hfresh : freshAccepts results s.openFds = true) :
    Orderly ⟨acceptClients results s, n⟩ := by
  refine (@acceptClients_fresh (fun s => Orderly ⟨s, n⟩ ∧ s.phase ≠ .stopped) ?_ ?_ _ _ hfresh
    ⟨h, hphase⟩).1
  · rintro fd s hfd ⟨h, hphase⟩
    exact ⟨h.add hfd hphase, hphase⟩
  · rintro fd s ⟨h, hphase⟩
    exact ⟨h.note (by simp [Action.turn, Action.closes]) fd, hphase⟩

/-- An event that is not left over concerns its own client only. -/
theorem client {event : Event} {answers : Answers} (h : Orderly ⟨s, n⟩) (hphase : s.phase ≠ .stopped)
    (hclient : event.fd ≠ s.listenFd) (hopen : s.openFds.contains event.fd = true)
    (hfirst : Watched.leftOver ⟨s, n⟩ event.fd = false) :
    Orderly ⟨handleEvent event answers s, n⟩ where
  synced := synced_handleEvent h.synced hphase (fun hlisten => absurd hlisten hclient) (.inr hopen)
  writing := by
    rcases (undisturbed_writing event.fd).event answers hclient ⟨hopen, h.writing⟩ with
      ⟨-, hwriting⟩ | ⟨s₁, ⟨-, hwriting⟩, hclosed⟩
    · exact hwriting
    · intro fd hfd
      rw [hclosed] at hfd ⊢
      change (s₁.writeFilters.erase event.fd).contains fd = true at hfd
      change (s₁.openFds.erase event.fd).contains fd = true
      rw [contains_erase, Bool.and_eq_true] at hfd ⊢
      exact ⟨hfd.1, hwriting fd hfd.2⟩
  reused fd hlisten hleft hopen' := by
    have hends := (undisturbed_leftOver fd event.fd n (Watched.leftOver ⟨s, n⟩ fd)).event answers
      hclient rfl
    by_cases hfd : event.fd = fd
    · subst hfd
      rcases hends with hsame | ⟨s₁, -, hclosed⟩
      · rw [hfirst] at hsame
        cases hsame.symm.trans hleft
      · change (handleEvent event answers s).openFds.contains event.fd = true at hopen'
        rw [hclosed] at hopen'
        exact absurd hopen' (by simp [closeClient, Server.note])
    · have hu := Untouched.handleEvent hfd answers hclient
      have hsame := hends.keeps fun s₁ h₁ =>
        (leftOver_note (fun hsame => absurd hsame hfd) n _).trans h₁
      have hlistenFd := ((undisturbed_listenFd event.fd s.listenFd).event answers hclient rfl).keeps
        fun _ h₁ => h₁
      rw [hlistenFd] at hlisten
      exact hu.unused (h.reused fd hlisten (hsame.symm.trans hleft) (hu.isOpen.symm.trans hopen'))

theorem handleEvent {event : Event} {answers : Answers} (h : Orderly ⟨s, n⟩)
    (hphase : s.phase ≠ .stopped)
    (hfresh : event.fd = s.listenFd → freshAccepts answers.accepts s.openFds = true)
    (hlive : event.fd = s.listenFd ∨ s.openFds.contains event.fd = true ∧
      (Watched.leftOver ⟨s, n⟩ event.fd = true →
        event.error = false ∧ (event.filter = .read → silent answers.recvs = true))) :
    Orderly ⟨EventLoop.handleEvent event answers s, n⟩ := by
  by_cases hlisten : event.fd = s.listenFd
  · unfold EventLoop.handleEvent
    rw [if_pos hlisten, if_pos hlisten]
    split
    · exact h.rests (.inl ⟨false, s.phase, .inl rfl, rfl⟩)
    · exact h.acceptClients hphase (hfresh hlisten)
  · obtain ⟨hopen, hleft⟩ := hlive.resolve_left hlisten
    cases hreused : Watched.leftOver ⟨s, n⟩ event.fd with
    | false => exact h.client hphase hlisten hopen hreused
    | true =>
      obtain ⟨herror, hread⟩ := hleft hreused
      obtain ⟨actions, hidle, hsame⟩ :=
        (h.reused _ hlisten hreused hopen).unchanged hopen hlisten herror hread
      rw [hsame]
      refine h.note (fun a ha => ?_) event.fd
      rcases hidle a ha with rfl | rfl
      · exact ⟨fun _ => rfl, rfl⟩
      · exact ⟨fun _ => rfl, rfl⟩

end Orderly

end Watching

theorem orderly_step {i : Input} {w : Watched} (hfresh : AcceptsFresh i w.server) (h : Orderly w)
    (hlive : EventLive i w) : Orderly (watchStep i w).2 := by
  obtain ⟨s, n⟩ := w
  cases hhandled : handled i s with
  | none =>
    refine Orderly.rests (rests_of_unhandled hhandled) ?_
    dsimp only
    split
    · exact h.returned
    · exact h
  | some e =>
    obtain ⟨event, answers⟩ := e
    have hphase : s.phase ≠ .waiting := by
      obtain ⟨-, batch, hphase⟩ := handled_eq_some hhandled
      simp [hphase]
    refine Orderly.rests (rests_of_handled hhandled) ?_
    dsimp only
    rw [if_neg hphase]
    exact h.handleEvent (fun hstopped => handled_goesOn hhandled (.inl hstopped)) (hfresh _ hhandled)
      (hlive _ hhandled)

/-- One event keeps the books, and is harmless where it is left over, exactly if it is live. -/
theorem bookkeeps_iff {i : Input} {w : Watched} (hfresh : AcceptsFresh i w.server) (h : Orderly w) :
    Bookkeeps i w ↔ EventLive i w := by
  constructor
  · rintro hbooks ⟨event, answers⟩ he
    by_cases hclient : event.fd = w.server.listenFd
    · exact .inl hclient
    · have hopen : w.server.openFds.contains event.fd = true := by
        by_contra hclosed
        rw [Bool.not_eq_true] at hclosed
        exact not_bookkept_stale h.synced hclient hclosed (hbooks.event _ he)
      refine .inr ⟨hopen, fun hleft => ?_⟩
      exact (h.reused _ hclient hleft hopen).changed hopen hclient (hbooks.leftOver _ he hclient hleft)
  · intro hlive
    refine ⟨fun e he => ?_, fun e he hclient hleft => ?_, ?_⟩
    · have hphase : w.server.phase ≠ .stopped := fun hstopped => handled_goesOn he (.inl hstopped)
      exact (h.handleEvent hphase (hfresh e he) (hlive e he)).synced.bookkept
    · obtain ⟨hopen, hharmless⟩ := (hlive e he).resolve_left hclient
      obtain ⟨herror, hread⟩ := hharmless hleft
      exact (h.reused _ hclient hleft hopen).unchanged hopen hclient herror hread
    · exact (orderly_step hfresh h hlive).synced.bookkept

theorem orderly_started (listenFd : ℕ) (session : Session) :
    Orderly (watched (started listenFd session)) where
  synced := synced_started listenFd session
  writing fd hfd := absurd hfd (by simp [watched, started])
  reused fd _ hleft := by cases hleft

/-- In every run the books are in order after every event, and an event that is left over changes
nothing, exactly if every event is for a client that is still connected, and there is nothing to be
read and no error where a new one has taken over the number. -/
theorem bookkeeping {listenFd : ℕ} {session : Session} {run : List Input}
    (hfresh : Along AcceptsFresh step run (started listenFd session)) :
    Along Bookkeeps watchStep run (watched (started listenFd session)) ↔
      Along EventLive watchStep run (watched (started listenFd session)) := by
  have hview (i : Input) (w : Watched) : (watchStep i w).2.server = (step i w.server).2 := rfl
  have hwatched := (along_watching hview run (watched (started listenFd session))).mpr hfresh
  refine along_iff_along (fun i w hfresh h => ?_) (fun i w hfresh h hlive => ?_)
    (orderly_started listenFd session) hwatched
  · exact bookkeeps_iff hfresh h
  · exact orderly_step hfresh h hlive

theorem halfClosed_bookkept :
    Along Bookkeeps watchStep
      (halfClosed ++ [.ready [⟨5, .write, false⟩], .handle { sends := [.accepted 4] }])
      (watched (started 3 ⟨{}, none⟩)) :=
  (bookkeeping (by decide +kernel)).mpr (by decide +kernel)

def bothReady (first second : Filter) : List Input :=
  halfClosed ++ [.ready [⟨5, first, false⟩, ⟨5, second, false⟩],
    .handle { recvs := [.endOfFile], sends := [.accepted 4] }]

/-- An event of the listening socket lies between the two, and the number is used again. -/
def numberReused : List Input :=
  [.ready [⟨3, .read, false⟩], .handle { accepts := [.connection 5 true true] },
    .ready [⟨5, .read, false⟩, ⟨3, .read, false⟩, ⟨5, .write, true⟩],
    .handle { recvs := [.endOfFile] }, .handle { accepts := [.connection 5 true true] }]

/-- The first event sends the rest and closes the connection; the second leaves an output buffer
behind that belongs to nobody, or closes the descriptor once more, or a client that has just been
accepted. -/
theorem leftover_event_spoils_books :
    (Along AcceptsFresh step (bothReady .read .write ++ [.handle {}]) (started 3 ⟨{}, none⟩) ∧
      ¬ Along Bookkeeps watchStep (bothReady .read .write ++ [.handle {}])
        (watched (started 3 ⟨{}, none⟩))) ∧
    (Along AcceptsFresh step (bothReady .write .read ++ [.handle {}]) (started 3 ⟨{}, none⟩) ∧
      ¬ Along Bookkeeps watchStep (bothReady .write .read ++ [.handle {}])
        (watched (started 3 ⟨{}, none⟩))) ∧
    Along AcceptsFresh step (numberReused ++ [.handle {}]) (started 3 ⟨{}, none⟩) ∧
      ¬ Along Bookkeeps watchStep (numberReused ++ [.handle {}])
        (watched (started 3 ⟨{}, none⟩)) := by
  refine ⟨⟨by decide +kernel, fun h => ?_⟩, ⟨by decide +kernel, fun h => ?_⟩, by decide +kernel,
    fun h => ?_⟩
  · have hkey := (h.last.next.output 5).mp (by decide +kernel)
    exact absurd hkey.2 (by decide +kernel)
  · exact h.last.next.disciplined 5 (by decide +kernel)
  · have hunchanged := h.last.leftOver (⟨5, .write, true⟩, {}) rfl (by decide +kernel)
      (by decide +kernel)
    rw [handleEvent, if_pos rfl, if_neg (by decide +kernel)] at hunchanged
    exact closed_changed _ (by decide +kernel) hunchanged

end RedisLite.EventLoop
