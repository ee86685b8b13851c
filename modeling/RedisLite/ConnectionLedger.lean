import RedisLite.EventOutcomes

/-!
# The history of a connection

The ledger of a descriptor is what the server has done for the connection on it since that was
accepted. Handling the events of one descriptor leaves everything that belongs to the connection on
another one as it was.
-/

namespace RedisLite.EventLoop
open ByteStrings Resp Keyspace Commands

structure Ledger where
  received : Bytes := []
  executed : List (RespValue × RespValue) := []
  error : Option Bytes := none
  oversized : Bool := false
  sent : Bytes := []

def Ledger.requests (l : Ledger) : List RespValue := l.executed.map Prod.fst

def Ledger.record (l : Ledger) : Action → Ledger
  | .accepted => {}
  | .received bytes => { l with received := l.received ++ bytes }
  | .executed request reply => { l with executed := l.executed ++ [(request, reply)] }
  | .protocolError error => { l with error := some error }
  | .oversized => { l with oversized := true }
  | .sent bytes => { l with sent := l.sent ++ bytes }
  | .refused | .recvFailed | .closed => l

def recordOn (fd : ℕ) (l : Ledger) (entry : ℕ × Action) : Ledger :=
  if entry.1 = fd then l.record entry.2 else l

def ledger (fd : ℕ) (trace : List (ℕ × Action)) : Ledger := trace.foldl (recordOn fd) {}

theorem ledger_append (fd : ℕ) (trace trace' : List (ℕ × Action)) :
    ledger fd (trace ++ trace') = trace'.foldl (recordOn fd) (ledger fd trace) :=
  List.foldl_append

@[simp] theorem ledger_note (fd : ℕ) (actions : List Action) (s : Server) :
    ledger fd (s.note fd actions).trace = actions.foldl Ledger.record (ledger fd s.trace) := by
  rw [Server.note, ledger_append, List.foldl_map]
  simp only [recordOn, if_true]

theorem ledger_note_other {fd fd' : ℕ} (h : fd' ≠ fd) (actions : List Action) (s : Server) :
    ledger fd (s.note fd' actions).trace = ledger fd s.trace := by
  rw [Server.note, ledger_append, List.foldl_map]
  simp only [recordOn, if_neg h]
  exact List.foldl_fixed' (fun _ => rfl) actions

/-- The requests of a parse loop enter the ledger, and then its error. -/
theorem record_parsing (l : Ledger) (p : Parsing) :
    p.actions.foldl Ledger.record l =
      { l with executed := l.executed ++ p.executed, error := p.error.or l.error } := by
  have hexecuted : ∀ (es : List (RespValue × RespValue)) (l : Ledger),
      (es.map fun e => Action.executed e.1 e.2).foldl Ledger.record l =
        { l with executed := l.executed ++ es } := by
    intro es
    induction es with
    | nil => intro l; simp
    | cons e es ih => intro l; simp [ih, Ledger.record]
  rw [Parsing.actions, List.foldl_append, hexecuted]
  cases p.error with
  | none => rfl
  | some e => rfl

/-- What belongs to the connection on a descriptor is as it was. -/
structure Untouched (fd : ℕ) (s s' : Server) : Prop where
  input : s'.input[fd]? = s.input[fd]?
  output : s'.output[fd]? = s.output[fd]?
  closing : s'.closing.contains fd = s.closing.contains fd
  isOpen : s'.openFds.contains fd = s.openFds.contains fd
  reading : s'.readFilters.contains fd = s.readFilters.contains fd
  writing : s'.writeFilters.contains fd = s.writeFilters.contains fd
  ledger : EventLoop.ledger fd s'.trace = EventLoop.ledger fd s.trace

namespace Untouched
variable {fd fd' : ℕ}

protected theorem refl (s : Server) : Untouched fd s s := ⟨rfl, rfl, rfl, rfl, rfl, rfl, rfl⟩

protected theorem trans {s s' s'' : Server} (h : Untouched fd s s') (h' : Untouched fd s' s'') :
    Untouched fd s s'' :=
  ⟨h'.input.trans h.input, h'.output.trans h.output, h'.closing.trans h.closing,
    h'.isOpen.trans h.isOpen, h'.reading.trans h.reading, h'.writing.trans h.writing,
    h'.ledger.trans h.ledger⟩

theorem pendingInput {s s' : Server} (h : Untouched fd s s') :
    s'.input.getD fd [] = s.input.getD fd [] := by
  simp only [Std.ExtTreeMap.getD_eq_getD_getElem?, h.input]

theorem pendingOutput {s s' : Server} (h : Untouched fd s s') :
    s'.output.getD fd [] = s.output.getD fd [] := by
  simp only [Std.ExtTreeMap.getD_eq_getD_getElem?, h.output]

theorem note (h : fd' ≠ fd) (actions : List Action) (s : Server) :
    Untouched fd s (s.note fd' actions) :=
  ⟨rfl, rfl, rfl, rfl, rfl, rfl, ledger_note_other h actions s⟩

theorem insert_ne {β : Type*} (h : fd' ≠ fd) (m : Std.ExtTreeMap ℕ β compare) (b : β) :
    (m.insert fd' b)[fd]? = m[fd]? := by
  rw [Std.ExtTreeMap.getElem?_insert, if_neg (by simpa using h)]

theorem erase_ne {β : Type*} (h : fd' ≠ fd) (m : Std.ExtTreeMap ℕ β compare) :
    (m.erase fd')[fd]? = m[fd]? := by
  rw [Std.ExtTreeMap.getElem?_erase, if_neg (by simpa using h)]

theorem contains_insert_ne (h : fd' ≠ fd) (d : Descriptors) :
    (d.insert fd').contains fd = d.contains fd := by
  simp [Std.ExtTreeSet.contains_insert, h]

theorem contains_erase_ne (h : fd' ≠ fd) (d : Descriptors) :
    (d.erase fd').contains fd = d.contains fd := by
  simp [Std.ExtTreeSet.contains_erase, h]

theorem contains_ite_insert_ne {p : Prop} [Decidable p] (h : fd' ≠ fd) (d : Descriptors) :
    (if p then d.insert fd' else d).contains fd = d.contains fd := by
  split
  · exact contains_insert_ne h d
  · rfl

theorem closeClient (h : fd' ≠ fd) (s : Server) : Untouched fd s (closeClient fd' s) where
  input := erase_ne h _
  output := erase_ne h _
  closing := contains_erase_ne h _
  isOpen := contains_erase_ne h _
  reading := contains_erase_ne h _
  writing := contains_erase_ne h _
  ledger := ledger_note_other h _ _

theorem addClient (h : fd' ≠ fd) (s : Server) : Untouched fd s (addClient fd' s) where
  input := insert_ne h _ _
  output := insert_ne h _ _
  closing := rfl
  isOpen := contains_insert_ne h _
  reading := contains_insert_ne h _
  writing := rfl
  ledger := ledger_note_other h _ _

theorem trySend (h : fd' ≠ fd) (results : List SendResult) (s : Server) :
    Untouched fd s (trySend fd' results s).2 where
  input := rfl
  output := insert_ne h _ _
  closing := rfl
  isOpen := rfl
  reading := rfl
  writing := contains_ite_insert_ne h _
  ledger := ledger_note_other h _ _

theorem receive (h : fd' ≠ fd) (results : List RecvResult) (s : Server) :
    Untouched fd s (receive fd' results s).2 where
  input := insert_ne h _ _
  output := rfl
  closing := rfl
  isOpen := rfl
  reading := rfl
  writing := rfl
  ledger := ledger_note_other h _ _

theorem serveRequests (h : fd' ≠ fd) (clock : ℕ → Readings) (s : Server) :
    Untouched fd s (serveRequests fd' clock s).2 where
  input := insert_ne h _ _
  output := insert_ne h _ _
  closing := rfl
  isOpen := rfl
  reading := rfl
  writing := rfl
  ledger := ledger_note_other h _ _

theorem refuseOversized (h : fd' ≠ fd) (s : Server) : Untouched fd s (refuseOversized fd' s) where
  input := rfl
  output := insert_ne h _ _
  closing := rfl
  isOpen := rfl
  reading := rfl
  writing := rfl
  ledger := ledger_note_other h _ _

theorem undisturbed (h : fd' ≠ fd) (s : Server) : Undisturbed fd' (Untouched fd s) where
  receive results s' hs := hs.trans (receive h results s')
  failed s' hs := hs.trans (note h _ s')
  serve clock s' hs := hs.trans (serveRequests h clock s')
  refuse s' hs := hs.trans (refuseOversized h s')
  send results s' hs := hs.trans (trySend h results s')
  linger _ hs := hs.trans ⟨rfl, rfl, contains_insert_ne h _, rfl, rfl, rfl, rfl⟩
  drain _ hs := hs.trans ⟨rfl, rfl, rfl, rfl, rfl, contains_erase_ne h _, rfl⟩

theorem handleEvent {event : Event} (h : event.fd ≠ fd) (answers : Answers) {s : Server}
    (hclient : event.fd ≠ s.listenFd) : Untouched fd s (handleEvent event answers s) :=
  ((undisturbed h s).event answers hclient (.refl s)).keeps fun s' hs => hs.trans (closeClient h s')

end Untouched

end RedisLite.EventLoop
