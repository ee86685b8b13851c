import Mathlib.Data.List.Induction
import RedisLite.ClientIsolation
import RedisLite.DeliveryIndependence
import RedisLite.LazyExpiration

/-!
# One order for all clients

The event loop goes from connection to connection, and what it does to the store and to the log is
what the executed requests do one after the other, in the order in which they were executed. The
replies are those of a database that knows no connections and loses every key at its deadline.
-/

namespace RedisLite.EventLoop
open ByteStrings Resp IncrementalDecoding Keyspace Commands MachineRuns LazyExpiration
open Operations (Call)

/-- The request that an entry of the trace is about, with its connection and its reply. -/
def executedOn : ℕ × Action → Option (ℕ × RespValue × RespValue)
  | (fd, .executed request reply) => some (fd, request, reply)
  | _ => none

/-- The requests of all connections, in the order in which they were executed. -/
def executions (trace : List (ℕ × Action)) : List (ℕ × RespValue × RespValue) :=
  trace.filterMap executedOn

/-- The requests that an input makes the server execute, with the readings of the clocks. -/
def stepCalls (i : Input) (s : Server) : List Call :=
  match handled i s with
  | none => []
  | some (event, answers) =>
    ((executions (handleEvent event answers s).trace).drop (executions s.trace).length).mapIdx
      fun k e => ⟨answers.clock k, e.2.1⟩

def runCalls : List Input → Server → List Call
  | [], _ => []
  | i :: is, s => stepCalls i s ++ runCalls is (step i s).2

def exchange (r : Round Call RespValue Session) : RespValue × RespValue := (r.input.request, r.output)

theorem executions_append (trace trace' : List (ℕ × Action)) :
    executions (trace ++ trace') = executions trace ++ executions trace' :=
  List.filterMap_append

theorem executions_map_closed (fds : List ℕ) :
    executions (fds.map (·, Action.closed)) = [] := by
  induction fds with
  | nil => rfl
  | cons fd fds ih => exact ih

/-- Actions that execute nothing do not show. -/
theorem executions_note_idle {actions : List Action} (fd : ℕ)
    (h : ∀ a ∈ actions, executedOn (fd, a) = none) (s : Server) :
    executions (s.note fd actions).trace = executions s.trace := by
  have hidle : executions (actions.map (fd, ·)) = [] := by
    refine List.filterMap_eq_nil_iff.mpr ?_
    simpa using h
  rw [Server.note, executions_append, hidle, List.append_nil]

theorem executions_parsing (fd : ℕ) (p : Parsing) (s : Server) :
    executions (s.note fd p.actions).trace = executions s.trace ++ p.executed.map (fd, ·) := by
  have hexecuted : executions ((p.executed.map fun e => Action.executed e.1 e.2).map (fd, ·)) =
      p.executed.map (fd, ·) := by
    induction p.executed with
    | nil => rfl
    | cons e es ih => exact congrArg ((fd, e) :: ·) ih
  have herror : executions ((p.error.toList.map Action.protocolError).map (fd, ·)) = [] := by
    cases p.error with
    | none => rfl
    | some e => rfl
  rw [Server.note, executions_append, Parsing.actions, List.map_append, executions_append, hexecuted,
    herror, List.append_nil]

def Reached (session : Session) (executed : List (ℕ × RespValue × RespValue)) (s : Server) : Prop :=
  s.session = session ∧ executions s.trace = executed

variable {session : Session} {executed : List (ℕ × RespValue × RespValue)}

theorem reached_settling (fd : ℕ) (session : Session)
    (executed : List (ℕ × RespValue × RespValue)) : Settling fd (Reached session executed) where
  send _ s h := ⟨h.1, (executions_note_idle fd (by simp [executedOn]) _).trans h.2⟩
  linger _ h := h
  drain _ h := h

theorem reached_closeClient {fd : ℕ} {s : Server} (h : Reached session executed s) :
    Reached session executed (closeClient fd s) :=
  ⟨h.1, (executions_note_idle fd (by simp [executedOn]) _).trans h.2⟩

theorem reached_receive {fd : ℕ} {results : List RecvResult} {s : Server} :
    Reached s.session (executions s.trace) (receive fd results s).2 :=
  ⟨rfl, executions_note_idle fd (by simp [executedOn]) _⟩

/-- The requests that are complete once the client has been read from. -/
def decoded (fd : ℕ) (answers : Answers) (s : Server) : List RespValue :=
  (drain parse ((receive fd answers.recvs s).2.input.getD fd [])).values

/-- What a readiness event executes are the requests that its bytes complete. -/
theorem reached_read {fd : ℕ} {answers : Answers} {s s' : Server}
    (h : ReadOutcome fd answers s s') :
    ∃ requests ⊆ decoded fd answers s, let run := executeAll answers.clock 0 requests s.session
      Reached run.2 (executions s.trace ++ run.1.map (fd, ·)) s' := by
  set s₁ := (receive fd answers.recvs s).2 with hs₁
  have hreceived : Reached s.session (executions s.trace) s₁ := reached_receive
  by_cases hserved : (receive fd answers.recvs s).1 = .drained ∨
    (receive fd answers.recvs s).1 = .peerFinished
  · refine ⟨decoded fd answers s, List.Subset.refl _, ?_⟩
    refine ((reached_settling fd _ _).read (fun hfailed => ?_) (fun _ _ hp => ?_) h).keeps
      fun _ => reached_closeClient
    · simp [hfailed] at hserved
    · cases hp with
      | oversized hstatus => simp [hstatus] at hserved
      | served =>
        rw [← hs₁, serveRequests_eq, hreceived.1]
        exact ⟨rfl, (executions_parsing fd _ _).trans (congrArg (· ++ _) hreceived.2)⟩
  · refine ⟨[], List.nil_subset _, ?_⟩
    simp only [executeAll, List.map_nil, List.append_nil]
    refine ((reached_settling fd _ _).read (fun _ => ?_) (fun _ _ hp => ?_) h).keeps
      fun _ => reached_closeClient
    · exact ⟨hreceived.1, (executions_note_idle fd (by simp [executedOn]) _).trans hreceived.2⟩
    · cases hp with
      | oversized =>
        exact ⟨hreceived.1, (executions_note_idle fd (by simp [executedOn]) _).trans hreceived.2⟩
      | served hstatus => exact absurd hstatus hserved

theorem reached_acceptClients (results : List AcceptResult) (s : Server) :
    Reached s.session (executions s.trace) (acceptClients results s) := by
  refine acceptClients_keeps (fun fd s' h => ?_) (fun fd s' h => ?_) ⟨rfl, rfl⟩
  · exact ⟨h.1, (executions_note_idle fd (by simp [executedOn]) _).trans h.2⟩
  · exact ⟨h.1, (executions_note_idle fd (by simp [executedOn]) _).trans h.2⟩

/-- An event executes requests of its own connection, and nothing else moves the session. -/
theorem reached_handleEvent (event : Event) (answers : Answers) (s : Server) :
    ∃ requests ⊆ decoded event.fd answers s,
      let run := executeAll answers.clock 0 requests s.session
      Reached run.2 (executions s.trace ++ run.1.map (event.fd, ·)) (handleEvent event answers s) := by
  have hnothing : ∀ s', Reached s.session (executions s.trace) s' →
      ∃ requests ⊆ decoded event.fd answers s,
        let run := executeAll answers.clock 0 requests s.session
        Reached run.2 (executions s.trace ++ run.1.map (event.fd, ·)) s' := by
    intro s' h
    exact ⟨[], List.nil_subset _, by simpa [executeAll] using h⟩
  have houtcome := eventOutcome event answers s
  generalize handleEvent event answers s = s' at houtcome
  cases houtcome with
  | listenFailed => exact hnothing _ ⟨rfl, rfl⟩
  | accepted => exact hnothing _ (reached_acceptClients answers.accepts s)
  | error => exact hnothing _ (reached_closeClient ⟨rfl, rfl⟩)
  | read _ _ _ hread => exact reached_read hread
  | write _ _ _ hwrite =>
    have hsettling := reached_settling event.fd s.session (executions s.trace)
    exact hnothing _ ((hsettling.write (hsettling.send _ s ⟨rfl, rfl⟩) hwrite).keeps
      fun _ => reached_closeClient)

theorem executeAll_eq_trace (clock : ℕ → Readings) (k : ℕ) (requests : List RespValue)
    (session : Session) :
    let calls := requests.mapIdx fun j request => (⟨clock (k + j), request⟩ : Call)
    executeAll clock k requests session =
      ((trace Call.execute calls session).map exchange, final Call.execute calls session) := by
  induction requests generalizing k session with
  | nil => rfl
  | cons request requests ih =>
    have hrest := ih (k + 1) (executeCommand (clock k) request session).2
    simp only [List.mapIdx_cons, Nat.add_zero, ← Nat.add_assoc, Nat.add_right_comm k 1] at hrest ⊢
    simp only [executeAll, hrest]
    rfl

theorem reached_rests {s s' : Server} (hrests : Rests s s') (h : Reached session executed s) :
    Reached session executed s' := by
  rcases hrests with ⟨running, phase, -, rfl⟩ | ⟨-, rfl⟩
  · exact h
  · refine ⟨h.1, ?_⟩
    rw [shutdown, executions_append, executions_map_closed, List.append_nil]
    exact h.2

/-- The calls of an input that handles an event. -/
theorem stepCalls_handled {i : Input} {s : Server} {event : Event} {answers : Answers}
    (h : handled i s = some (event, answers)) :
    ∃ requests ⊆ decoded event.fd answers s,
      stepCalls i s = requests.mapIdx (fun j request => (⟨answers.clock (0 + j), request⟩ : Call)) ∧
        let run := executeAll answers.clock 0 requests s.session
        Reached run.2 (executions s.trace ++ run.1.map (event.fd, ·))
          (handleEvent event answers s) := by
  obtain ⟨requests, hdecoded, hreached⟩ := reached_handleEvent event answers s
  refine ⟨requests, hdecoded, ?_, hreached⟩
  have hrequests := executeAll_requests answers.clock 0 requests s.session
  simp only [stepCalls, h, hreached.2, List.drop_left]
  conv_rhs => rw [← hrequests]
  simp [List.mapIdx_eq_zipIdx_map, List.zipIdx_map, Function.comp_def]

/-- A step executes its calls one after the other. -/
theorem step_calls (i : Input) (s : Server) :
    (executions (step i s).2.trace).map Prod.snd = (executions s.trace).map Prod.snd ++
        (trace Call.execute (stepCalls i s) s.session).map exchange ∧
      (step i s).2.session = final Call.execute (stepCalls i s) s.session := by
  cases hhandled : handled i s with
  | none =>
    have hrests : Rests s (step i s).2 := by
      refine (step_cases i s).resolve_right ?_
      rintro ⟨event, answers, hsome, -⟩
      rw [hhandled] at hsome
      cases hsome
    obtain ⟨hsession, hexecuted⟩ := reached_rests hrests ⟨rfl, rfl⟩
    simp [stepCalls, hhandled, hsession, hexecuted, trace]
  | some e =>
    obtain ⟨event, answers⟩ := e
    obtain ⟨requests, -, hcalls, hreached⟩ := stepCalls_handled hhandled
    obtain ⟨hsession, hexecuted⟩ := reached_rests (rests_of_handled hhandled) hreached
    have hall := executeAll_eq_trace answers.clock 0 requests s.session
    simp only [← hcalls] at hall
    rw [hsession, hexecuted, hall]
    simp

/-- What is executed has come from the connection of the event. -/
theorem stepCalls_decoded {i : Input} {s : Server} {call : Call} (hcall : call ∈ stepCalls i s) :
    ∃ event answers, handled i s = some (event, answers) ∧
      call.request ∈ decoded event.fd answers s := by
  cases hhandled : handled i s with
  | none => simp [stepCalls, hhandled] at hcall
  | some e =>
    obtain ⟨event, answers⟩ := e
    obtain ⟨requests, hdecoded, hcalls, -⟩ := stepCalls_handled hhandled
    rw [hcalls, List.mem_mapIdx] at hcall
    obtain ⟨j, hj, rfl⟩ := hcall
    exact ⟨event, answers, rfl, hdecoded (List.getElem_mem hj)⟩

theorem run_calls (run : List Input) (s : Server) :
    (executions (final step run s).trace).map Prod.snd = (executions s.trace).map Prod.snd ++
        (trace Call.execute (runCalls run s) s.session).map exchange ∧
      (final step run s).session = final Call.execute (runCalls run s) s.session := by
  induction run generalizing s with
  | nil => simp [runCalls, trace]
  | cons i run ih =>
    obtain ⟨hexecuted, hsession⟩ := step_calls i s
    obtain ⟨hrest, hfinal⟩ := ih (step i s).2
    rw [hsession] at hrest hfinal
    rw [runCalls, trace_append, final_append, List.map_append, ← List.append_assoc, ← hexecuted]
    exact ⟨hrest, hfinal⟩

theorem executions_singleton (entry : ℕ × Action) :
    executions [entry] = (executedOn entry).toList := by
  rw [executions, List.filterMap_cons, List.filterMap_nil]
  cases executedOn entry <;> rfl

/-- What the ledger of a connection holds is what was executed last on its descriptor. -/
theorem ledger_executions (fd : ℕ) (trace : List (ℕ × Action)) :
    (ledger fd trace).executed <:+
      ((executions trace).filter (fun e => e.1 = fd)).map Prod.snd := by
  induction trace using List.reverseRecOn with
  | nil => exact List.suffix_refl _
  | append_singleton trace entry ih =>
    obtain ⟨fd', action⟩ := entry
    rw [ledger_append, executions_append, executions_singleton, List.filter_append, List.map_append]
    by_cases hfd : fd' = fd
    · subst hfd
      cases action with
      | accepted => simp [recordOn, Ledger.record]
      | executed request reply =>
        obtain ⟨before, hbefore⟩ := ih
        refine ⟨before, ?_⟩
        simp [recordOn, Ledger.record, executedOn, ← hbefore]
      | _ => simpa [recordOn, Ledger.record, executedOn] using ih
    · have hother : (executedOn (fd', action)).toList.filter (fun e => e.1 = fd) = [] := by
        cases action with
        | executed => simp [executedOn, hfd]
        | _ => rfl
      simpa [recordOn, hfd, hother] using ih

/-- Whatever the clients and the kernel do, the replies, the store and the log of a run are those of
its calls executed one after the other; the requests of a connection are among them in their order. -/
theorem event_loop_serializable (listenFd : ℕ) (session : Session) (run : List Input) :
    let s := final step run (started listenFd session)
    let calls := runCalls run (started listenFd session)
    (executions s.trace).map Prod.snd = (trace Call.execute calls session).map exchange ∧
      s.session = final Call.execute calls session ∧
      ∀ fd, (ledger fd s.trace).executed <:+
        ((executions s.trace).filter (fun e => e.1 = fd)).map Prod.snd := by
  intro s calls
  obtain ⟨hexecuted, hsession⟩ := run_calls run (started listenFd session)
  exact ⟨hexecuted, hsession, fun fd => ledger_executions fd s.trace⟩

def timedCall (i : TimedRequest) : Call := ⟨i.readings, i.request⟩

/-- A request and the reply to it, as a database answers it at its time. -/
def answered (r : Round TimedRequest RespValue Session) : RespValue × RespValue :=
  (r.input.request, r.output)

/-- The lazy server and the reference server give the same replies, and end with the same log and the
same live keys. -/
theorem agree_run {requests : List TimedRequest} (h : Ordered TimedRequest.now requests)
    {lazy eager : Session} (hagree : ∀ i ∈ requests, Agree i.now lazy eager) :
    (trace lazyStep requests lazy).map answered = (trace eagerStep requests eager).map answered ∧
      (lazy.log = eager.log →
        (final lazyStep requests lazy).log = (final eagerStep requests eager).log) ∧
      ∀ t, Agree t lazy eager → (∀ i ∈ requests, i.now ≤ t) →
        Agree t (final lazyStep requests lazy) (final eagerStep requests eager) := by
  induction requests generalizing lazy eager with
  | nil => exact ⟨rfl, id, fun t ht _ => ht⟩
  | cons i requests ih =>
    obtain ⟨hfirst, horder⟩ := List.pairwise_cons.mp h
    obtain ⟨hreply, hlog, hstore⟩ := step_agree i (hagree i List.mem_cons_self)
    have hnext : Agree i.now (lazyStep i lazy).2 (eagerStep i eager).2 := by
      refine ⟨?_, hlog⟩
      rw [← hstore, Store.dropDue_dropDue le_rfl]
    obtain ⟨hreplies, hlogs, hend⟩ := ih horder fun j hj => hnext.later (hfirst j hj)
    refine ⟨congrArg₂ List.cons (congrArg (i.request, ·) hreply) hreplies, fun _ => hlogs hlog,
      fun t _ ht => ?_⟩
    exact hend t (hnext.later (ht i List.mem_cons_self)) fun j hj => ht j (List.mem_cons_of_mem i hj)

theorem trace_timedCall (requests : List TimedRequest) (s : Session) :
    (trace Call.execute (requests.map timedCall) s).map exchange =
        (trace lazyStep requests s).map answered ∧
      final Call.execute (requests.map timedCall) s = final lazyStep requests s := by
  induction requests generalizing s with
  | nil => exact ⟨rfl, rfl⟩
  | cons i requests ih =>
    obtain ⟨htrace, hfinal⟩ := ih (lazyStep i s).2
    exact ⟨congrArg (_ :: ·) htrace, hfinal⟩

/-- As long as no reading is before an earlier one and every command takes one, the server is
indistinguishable from the reference database: the same replies, the same log, and the same keys with
their values and deadlines as long as they live. -/
theorem event_loop_refines_eager {listenFd : ℕ} {session : Session} {run : List Input}
    {requests : List TimedRequest}
    (hcalls : runCalls run (started listenFd session) = requests.map timedCall)
    (horder : Ordered TimedRequest.now requests) :
    let s := final step run (started listenFd session)
    let reference := final eagerStep requests session
    (executions s.trace).map Prod.snd = (trace eagerStep requests session).map answered ∧
      s.session.log = reference.log ∧
      ∀ t, (∀ i ∈ requests, i.now ≤ t) →
        s.session.store.dropDue t = reference.store.dropDue t := by
  intro s reference
  obtain ⟨hexecuted, hsession⟩ := run_calls run (started listenFd session)
  obtain ⟨htrace, hfinal⟩ := trace_timedCall requests session
  obtain ⟨hreplies, hlogs, hend⟩ := agree_run horder (fun _ _ => ⟨rfl, rfl⟩ : ∀ i ∈ requests,
    Agree i.now session session)
  rw [hcalls] at hexecuted hsession
  have hlazy : s.session = final lazyStep requests session := hsession.trans hfinal
  rw [hlazy]
  exact ⟨(hexecuted.trans htrace).trans hreplies, hlogs rfl, fun t ht => (hend t ⟨rfl, rfl⟩ ht).1⟩

def setThenGet : List Input :=
  [.ready [⟨3, .read, false⟩],
    .handle { accepts := [.connection 5 true true, .connection 6 true true] },
    .ready [⟨5, .read, false⟩, ⟨6, .read, false⟩],
    .handle
      { recvs := [chunkOf "*3\r\n$3\r\nSET\r\n$1\r\nk\r\n$1\r\nv\r\n" (by decide)] },
    .handle
      { recvs := [chunkOf "*2\r\n$3\r\nGET\r\n$1\r\nk\r\n" (by decide)]
        clock := fun _ => .once 7 0 }]

def setThenGetRequests : List TimedRequest :=
  [⟨0, 0, makeArray [makeBulkString (text "SET"), makeBulkString (text "k"),
      makeBulkString (text "v")]⟩,
    ⟨7, 0, makeArray [makeBulkString (text "GET"), makeBulkString (text "k")]⟩]

theorem setThenGet_refines :
    (executions (final step setThenGet (started 3 ⟨{}, some []⟩)).trace).map Prod.snd =
      (trace eagerStep setThenGetRequests ⟨{}, some []⟩).map answered :=
  (@event_loop_refines_eager 3 ⟨{}, some []⟩ setThenGet setThenGetRequests rfl
    (by simp [Ordered, setThenGetRequests])).1

end RedisLite.EventLoop
