import RedisLite.Commands
import RedisLite.MachineRuns

/-!
# The event loop

The server runs one thread over non-blocking sockets. What the kernel answers to the system calls of
one handler is a script; a script that has run out answers `EAGAIN`, and a call on a descriptor that
is not open fails. A `send` to a connection whose peer is gone raises SIGPIPE, which is not handled
and ends the process.
-/

namespace RedisLite.EventLoop
open ByteStrings Resp Keyspace Commands

abbrev ClientBuffers := Std.ExtTreeMap ℕ Bytes compare
abbrev Descriptors := Std.ExtTreeSet ℕ compare

def kMaxRequestBytes : ℕ := 16 * 1024 * 1024

def kChunkBytes : ℕ := 4096

/-- What one `recv` returns when it returns bytes. -/
structure Chunk where
  bytes : Bytes
  nonempty : bytes ≠ []
  fits : bytes.length ≤ kChunkBytes

inductive RecvResult where
  | data (chunk : Chunk)
  | endOfFile | interrupted | wouldBlock | failed

/-- `wouldBlock` tells whether the write filter that is asked for then can be registered. -/
inductive SendResult where
  | accepted (count : ℕ)
  | interrupted
  | wouldBlock (registered : Bool)
  | failed | brokenPipe
  deriving DecidableEq, Repr

/-- A connection comes with the success of `set_non_blocking` and of the registration. -/
inductive AcceptResult where
  | connection (fd : ℕ) (nonBlocking registered : Bool)
  | interrupted | wouldBlock | failed
  deriving DecidableEq, Repr

/-- What the kernel answers while one event is handled, and what the clocks show while the
requests that it brings are executed, one after the other. -/
structure Answers where
  accepts : List AcceptResult := []
  recvs : List RecvResult := []
  sends : List SendResult := []
  clock : ℕ → Readings := fun _ => .once 0 0

inductive Filter where
  | read | write
  deriving DecidableEq, Repr

/-- An event of a `kevent` batch; `error` is the flag `EV_ERROR`. -/
structure Event where
  fd : ℕ
  filter : Filter
  error : Bool
  deriving DecidableEq, Repr

inductive Action where
  | accepted | refused
  | received (bytes : Bytes)
  | executed (request reply : RespValue)
  | protocolError (error : Bytes)
  | oversized | recvFailed
  | sent (bytes : Bytes)
  | closed

/-- `waiting` is the top of the loop, `dispatching` the batch that is being handled; a server is
`killed` by a signal and `stopped` when `run_server` has returned. -/
inductive Phase where
  | waiting
  | dispatching (batch : List Event)
  | stopped | killed
  deriving DecidableEq, Repr

/-- The variables of `run_server`, the kernel's tables (the open sockets and the registered
filters), and everything the server has done so far, which no handler reads. -/
structure Server where
  listenFd : ℕ
  session : Session
  input : ClientBuffers := ∅
  output : ClientBuffers := ∅
  closing : Descriptors := ∅
  running : Bool := true
  phase : Phase := .waiting
  openFds : Descriptors
  readFilters : Descriptors
  writeFilters : Descriptors := ∅
  trace : List (ℕ × Action) := []

/-- The server when it enters the loop, with what it has loaded. -/
def started (listenFd : ℕ) (session : Session) : Server where
  listenFd := listenFd
  session := session
  openFds := (∅ : Descriptors).insert listenFd
  readFilters := (∅ : Descriptors).insert listenFd

def Server.note (fd : ℕ) (actions : List Action) (s : Server) : Server :=
  { s with trace := s.trace ++ actions.map (fd, ·) }

def closeClient (fd : ℕ) (s : Server) : Server :=
  { s with
    readFilters := s.readFilters.erase fd
    writeFilters := s.writeFilters.erase fd
    openFds := s.openFds.erase fd
    input := s.input.erase fd
    output := s.output.erase fd
    closing := s.closing.erase fd }.note fd [.closed]

inductive SendStatus where
  | drained
  | blocked (registered : Bool)
  | failed | killed
  deriving DecidableEq, Repr

structure Sending where
  pending : Bytes
  sent : Bytes
  status : SendStatus
  deriving DecidableEq, Repr

def Sending.push (accepted : Bytes) (r : Sending) : Sending := { r with sent := accepted ++ r.sent }

def sendLoop : List SendResult → Bytes → Sending
  | [], pending => ⟨pending, [], if pending = [] then .drained else .blocked true⟩
  | result :: results, pending =>
    if pending = [] then ⟨pending, [], .drained⟩
    else
      match result with
      | .accepted count =>
        if count = 0 then ⟨pending, [], .failed⟩
        else (sendLoop results (pending.drop count)).push (pending.take count)
      | .interrupted => sendLoop results pending
      | .wouldBlock registered => ⟨pending, [], .blocked registered⟩
      | .failed => ⟨pending, [], .failed⟩
      | .brokenPipe => ⟨pending, [], .killed⟩

/-- What `try_send` returns; nothing when the process is gone. -/
def SendStatus.returned : SendStatus → Option Bool
  | .drained | .blocked _ => some true
  | .failed => some false
  | .killed => none

def trySend (fd : ℕ) (results : List SendResult) (s : Server) : Option Bool × Server :=
  let r := sendLoop (if s.openFds.contains fd then results else [.failed]) (s.output.getD fd [])
  (r.status.returned,
    { s with
      output := s.output.insert fd r.pending
      writeFilters :=
        if r.status = SendStatus.blocked true then s.writeFilters.insert fd else s.writeFilters
      phase := if r.status = SendStatus.killed then .killed else s.phase }.note fd [.sent r.sent])

def addClient (fd : ℕ) (s : Server) : Server :=
  { s with
    openFds := s.openFds.insert fd
    readFilters := s.readFilters.insert fd
    input := s.input.insert fd []
    output := s.output.insert fd [] }.note fd [.accepted]

def acceptClients : List AcceptResult → Server → Server
  | [], s => s
  | .wouldBlock :: _, s => s
  | .interrupted :: results, s => acceptClients results s
  | .failed :: _, s => s
  | .connection fd nonBlocking registered :: results, s =>
    -- a descriptor that cannot be set up is closed at once
    if nonBlocking ∧ registered then acceptClients results (addClient fd s)
    else acceptClients results (s.note fd [.refused])

inductive RecvStatus where
  | drained | peerFinished | tooLarge | failed
  deriving DecidableEq, Repr

/-- How the `recv` loop ends: the input buffer, and the bytes that `recv` returned, with the chunk
that did not fit. -/
structure Receiving where
  buffer : Bytes
  received : Bytes
  status : RecvStatus
  deriving DecidableEq, Repr

def Receiving.push (chunk : Bytes) (r : Receiving) : Receiving :=
  { r with received := chunk ++ r.received }

def recvLoop : List RecvResult → Bytes → Receiving
  | [], buffer => ⟨buffer, [], .drained⟩
  | .data chunk :: results, buffer =>
    if kMaxRequestBytes < buffer.length + chunk.bytes.length then ⟨buffer, chunk.bytes, .tooLarge⟩
    else (recvLoop results (buffer ++ chunk.bytes)).push chunk.bytes
  | .endOfFile :: _, buffer => ⟨buffer, [], .peerFinished⟩
  | .interrupted :: results, buffer => recvLoop results buffer
  | .wouldBlock :: _, buffer => ⟨buffer, [], .drained⟩
  | .failed :: _, buffer => ⟨buffer, [], .failed⟩

structure Parsing where
  buffer : Bytes
  output : Bytes
  session : Session
  executed : List (RespValue × RespValue)
  error : Option Bytes

def Parsing.actions (p : Parsing) : List Action :=
  p.executed.map (fun e => .executed e.1 e.2) ++ p.error.toList.map .protocolError

def protocolError (error : Bytes) : RespValue := makeError (text "ERR Protocol error: " ++ error)

/-- Execute a request and take it from the buffer. -/
def Parsing.execute (clock : ℕ → Readings) (request : RespValue) (consumed : ℕ) (p : Parsing) :
    Parsing :=
  let outcome := executeCommand (clock p.executed.length) request p.session
  ⟨p.buffer.drop consumed, p.output ++ serialize outcome.1, outcome.2,
    p.executed ++ [(request, outcome.1)], p.error⟩

def parseLoop (clock : ℕ → Readings) : ℕ → Parsing → Parsing
  | 0, p => p
  | fuel + 1, p =>
    match parse p.buffer with
    | .incomplete => p
    | .malformed e => { p with output := p.output ++ serialize (protocolError e), error := some e }
    | .ok request consumed => parseLoop clock fuel (p.execute clock request consumed)

def sizeError : Bytes :=
  text "request larger than " ++ natDecimal kMaxRequestBytes ++ text " bytes"

inductive AfterRead where
  | keepOpen | closeWhenSent | closeNow
  deriving DecidableEq, Repr

/-- The `recv` loop on the input buffer of a client. -/
def receive (fd : ℕ) (results : List RecvResult) (s : Server) : RecvStatus × Server :=
  let r := recvLoop (if s.openFds.contains fd then results else [.failed]) (s.input.getD fd [])
  (r.status, { s with input := s.input.insert fd r.buffer }.note fd [.received r.received])

/-- The parse loop on the buffers of a client; every request costs a byte of the buffer. -/
def serveRequests (fd : ℕ) (clock : ℕ → Readings) (s : Server) : Option Bytes × Server :=
  let buffer := s.input.getD fd []
  let p := parseLoop clock (buffer.length + 1) ⟨buffer, s.output.getD fd [], s.session, [], none⟩
  (p.error,
    { s with
      input := s.input.insert fd p.buffer
      output := s.output.insert fd p.output
      session := p.session }.note fd p.actions)

/-- The last `try_send` before a connection is dropped. -/
def sendAndClose (fd : ℕ) (results : List SendResult) (s : Server) : Option AfterRead × Server :=
  let (returned, s) := trySend fd results s
  (returned.map fun _ => .closeNow, s)

def sendReplies (fd : ℕ) (results : List SendResult) (after : AfterRead) (s : Server) :
    Option AfterRead × Server :=
  if s.output.getD fd [] = [] then (some after, s)
  else
    let (returned, s) := trySend fd results s
    (returned.map fun sent => if sent then after else .closeNow, s)

def refuseOversized (fd : ℕ) (s : Server) : Server :=
  { s with
    output := s.output.insert fd (s.output.getD fd [] ++ serialize (protocolError sizeError)) }.note
      fd [.oversized]

/-- Nothing is returned when the process is gone. -/
def handleReadable (fd : ℕ) (answers : Answers) (s : Server) : Option AfterRead × Server :=
  match receive fd answers.recvs s with
  | (.tooLarge, s) => sendAndClose fd answers.sends (refuseOversized fd s)
  | (.failed, s) => (some .closeNow, s.note fd [.recvFailed])
  | (status, s) =>
    match serveRequests fd answers.clock s with
    | (some _, s) => sendAndClose fd answers.sends s
    | (none, s) =>
      sendReplies fd answers.sends
        (if status = .peerFinished then .closeWhenSent else .keepOpen) s

def handleReadEvent (fd : ℕ) (answers : Answers) (s : Server) : Server :=
  match handleReadable fd answers s with
  | (none, s) => s
  | (some .closeNow, s) => closeClient fd s
  | (some .closeWhenSent, s) =>
    if s.output.getD fd [] = [] then closeClient fd s
    else { s with closing := s.closing.insert fd }
  | (some .keepOpen, s) => s

def handleWriteEvent (fd : ℕ) (answers : Answers) (s : Server) : Server :=
  match trySend fd answers.sends s with
  | (none, s) => s
  | (some false, s) => closeClient fd s
  | (some true, s) =>
    if s.output.getD fd [] = [] then
      let s := { s with writeFilters := s.writeFilters.erase fd }
      if s.closing.contains fd then closeClient fd s else s
    else s

def handleEvent (event : Event) (answers : Answers) (s : Server) : Server :=
  if event.error then
    if event.fd = s.listenFd then { s with running := false } else closeClient event.fd s
  else if event.fd = s.listenFd then acceptClients answers.accepts s
  else
    match event.filter with
    | .read => handleReadEvent event.fd answers s
    | .write => handleWriteEvent event.fd answers s

/-- What follows the loop: every client is closed, then the listening socket. -/
def shutdown (s : Server) : Server :=
  { s with
    input := ∅
    output := ∅
    closing := ∅
    openFds := ∅
    readFilters := ∅
    writeFilters := ∅
    phase := .stopped
    trace := s.trace ++ (s.input.keys ++ [s.listenFd]).map (·, .closed) }

/-- The condition of the loop. -/
def loopTop (s : Server) : Server :=
  if s.running then { s with phase := .waiting } else shutdown s

def proceed (batch : List Event) (s : Server) : Server :=
  match batch with
  | [] => loopTop s
  | batch => { s with phase := .dispatching batch }

/-- What happens next: `kevent` returns a batch, is interrupted or fails; the next event of the
batch is handled; or a signal asks the server to stop. -/
inductive Input where
  | ready (batch : List Event)
  | interrupted | waitFailed
  | handle (answers : Answers)
  | signal

def next (i : Input) (s : Server) : Server :=
  match i, s.phase with
  | .ready batch, .waiting => proceed batch s
  | .interrupted, .waiting => loopTop s
  | .waitFailed, .waiting => shutdown s
  | .handle answers, .dispatching (event :: batch) =>
    let s := handleEvent event answers s
    if s.phase = .killed then s else proceed batch s
  | .signal, _ => { s with running := false }
  | _, _ => s

def step (i : Input) (s : Server) : Unit × Server := ((), next i s)

end RedisLite.EventLoop
