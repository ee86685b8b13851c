import RedisLite.RespGrammar
import RedisLite.SequentialExecution
import RedisLite.WaitingClients

/-!
# The memory of the buffers

Whatever the clients send, the server never holds more unparsed bytes of one of them than the limit,
and so no string of a request that it executes is longer than that. The replies that a client does not
take have no limit.
-/

namespace RedisLite.Resp
open ByteStrings IncrementalDecoding

theorem Derives.string_length {levels : ℕ} {v : RespValue} {w : Bytes} (h : Derives levels v w) :
    v.string.length ≤ w.length := by
  cases levels with
  | zero => exact h.elim
  | succ levels =>
    cases h with
    | nullArray => exact Nat.zero_le _
    | _ => simp [makeSimpleString, makeError, makeInteger, makeBulkString, makeNullBulkString,
        makeArray] <;> omega

theorem Spelled.length_le {Element : RespValue → Bytes → Prop} {es : List RespValue} {w : Bytes}
    (h : Spelled Element es w) {e : RespValue} (he : e ∈ es) :
    ∃ w', Element e w' ∧ w'.length ≤ w.length := by
  induction h with
  | nil => cases he
  | @cons v vs w ws head tail ih =>
    rw [List.length_append]
    rcases List.mem_cons.mp he with rfl | he
    · exact ⟨w, head, Nat.le_add_right _ _⟩
    · obtain ⟨w', hw', hle⟩ := ih he
      exact ⟨w', hw', by omega⟩

theorem Derives.elements_length {levels : ℕ} {v : RespValue} {w : Bytes} (h : Derives levels v w) :
    ∀ e ∈ v.elements, e.string.length ≤ w.length := by
  intro e he
  cases levels with
  | zero => exact h.elim
  | succ levels =>
    cases h with
    | array hn hes =>
      obtain ⟨w', hw', hle⟩ := hes.length_le he
      have hstring := hw'.string_length
      simp only [List.length_cons, List.length_append]
      omega
    | _ => cases he

theorem parse_strings {x : Bytes} {v : RespValue} {n : ℕ} (h : parse x = .ok v n) :
    ∀ e ∈ v.elements, e.string.length ≤ x.length := by
  obtain ⟨-, hderives⟩ := parse_eq_ok_iff.mp h
  intro e he
  exact (hderives.elements_length e he).trans (by simp)

end RedisLite.Resp

namespace RedisLite.EventLoop
open ByteStrings Resp IncrementalDecoding Keyspace Commands MachineRuns
open Operations (Call)

/-- No client has more unparsed bytes than the limit. -/
def Bounded (s : Server) : Prop := ∀ fd, (s.input.getD fd []).length ≤ kMaxRequestBytes

section Bounded
variable {s s' : Server}

theorem Bounded.insert (h : Bounded s) {fd : ℕ} {buffer : Bytes}
    (hbuffer : buffer.length ≤ kMaxRequestBytes) (hinput : s'.input = s.input.insert fd buffer) :
    Bounded s' := by
  intro fd'
  rw [hinput, Std.ExtTreeMap.getD_insert]
  split
  · exact hbuffer
  · exact h fd'

theorem Bounded.receive (h : Bounded s) (fd : ℕ) (results : List RecvResult) :
    Bounded (receive fd results s).2 :=
  h.insert (recvLoop_length (h fd)) rfl

theorem bounded_undisturbed (fd : ℕ) : Undisturbed fd Bounded where
  receive results _ h := h.receive fd results
  failed _ h := h
  serve clock s h := by
    refine @Bounded.insert _ _ h fd (drain parse (s.input.getD fd [])).rest ?_ ?_
    · exact (drain_rest_length parse_stable _).trans (h fd)
    · rw [serveRequests_eq]
      rfl
  refuse _ h := h
  send _ _ h := h
  linger _ h := h
  drain _ h := h

theorem Bounded.closeClient (h : Bounded s) (fd : ℕ) : Bounded (closeClient fd s) := by
  intro fd'
  change ((s.input.erase fd).getD fd' []).length ≤ kMaxRequestBytes
  rw [Std.ExtTreeMap.getD_erase]
  split
  · exact Nat.zero_le _
  · exact h fd'

theorem bounded_step (i : Input) (h : Bounded s) : Bounded (step i s).2 := by
  refine step_keeps (fun s s' hrests h => ?_) (fun event answers hhandled h => ?_) h
  · rcases hrests with ⟨running, phase, -, rfl⟩ | ⟨-, rfl⟩
    · exact h
    · intro fd
      simp [shutdown]
  · by_cases hclient : event.fd = s.listenFd
    · unfold handleEvent
      rw [if_pos hclient, if_pos hclient]
      split
      · exact h
      · refine acceptClients_keeps (fun fd s' h' => ?_) (fun fd s' h' => h') h
        exact h'.insert (Nat.zero_le _) rfl
    · exact ((bounded_undisturbed event.fd).event answers hclient h).keeps
        fun s' h' => h'.closeClient event.fd

theorem bounded_started (listenFd : ℕ) (session : Session) : Bounded (started listenFd session) := by
  intro fd
  simp [started]

/-- A request fits in the buffer that it came from. -/
def Short (call : Call) : Prop :=
  ∀ e ∈ call.request.elements, e.string.length ≤ kMaxRequestBytes

theorem stepCalls_short {i : Input} (h : Bounded s) : ∀ call ∈ stepCalls i s, Short call := by
  intro call hcall
  obtain ⟨event, answers, -, hdecoded⟩ := stepCalls_decoded hcall
  have hstrings : ∀ {x : Bytes} {v n}, x.length ≤ kMaxRequestBytes → parse x = .ok v n →
      ∀ e ∈ v.elements, e.string.length ≤ kMaxRequestBytes :=
    fun hx hparse e he => (parse_strings hparse e he).trans hx
  exact drain_values_within parse_stable hstrings (h.receive event.fd answers.recvs event.fd)
    call.request hdecoded

theorem runCalls_short (run : List Input) (h : Bounded s) : ∀ call ∈ runCalls run s, Short call := by
  induction run generalizing s with
  | nil => nofun
  | cons i run ih =>
    intro call hcall
    rcases List.mem_append.mp hcall with hcall | hcall
    · exact stepCalls_short h call hcall
    · exact ih (bounded_step i h) call hcall

end Bounded

/-- In every run no client ever has more unparsed bytes in memory than the limit, not even while it is
being read from, and no string of an executed request is longer than that. -/
theorem input_bounded (listenFd : ℕ) (session : Session) (run : List Input) :
    let s := final step run (started listenFd session)
    Bounded s ∧ (∀ fd results, Bounded (receive fd results s).2) ∧
      ∀ call ∈ runCalls run (started listenFd session), Short call := by
  intro s
  have hbounded : Bounded s :=
    final_keeps (fun i _ h => bounded_step i h) (bounded_started listenFd session) run
  exact ⟨hbounded, hbounded.receive, runCalls_short run (bounded_started listenFd session)⟩

structure Idle (fd : ℕ) (s : Server) : Prop where
  waits : s.phase = .waiting
  running : s.running = true
  client : fd ≠ s.listenFd
  connected : s.openFds.contains fd = true
  between : s.input.getD fd [] = []

structure Asked where
  chunk : Chunk
  request : RespValue
  whole : parse chunk.bytes = .ok request chunk.bytes.length
  now : Readings

def Asked.call (a : Asked) : Call := ⟨a.now, a.request⟩

/-- The client sends a request, and takes no byte of the replies. -/
def Asked.inputs (fd : ℕ) (a : Asked) : List Input :=
  [.ready [⟨fd, .read, false⟩],
    .handle { recvs := [.data a.chunk], sends := [.wouldBlock true], clock := fun _ => a.now }]

section Output
variable {fd : ℕ} {s : Server} {a : Asked}

theorem receive_asked (hopen : s.openFds.contains fd = true) (hbetween : s.input.getD fd [] = [])
    (chunk : Chunk) :
    receive fd [.data chunk] s = (.drained,
      { s with input := s.input.insert fd chunk.bytes }.note fd [.received chunk.bytes]) := by
  have hfits : ¬ kMaxRequestBytes < ([] : Bytes).length + chunk.bytes.length := by
    have hchunk := chunk.fits
    rw [List.length_nil, kMaxRequestBytes]
    rw [kChunkBytes] at hchunk
    omega
  have hloop : recvLoop [.data chunk] [] = ⟨chunk.bytes, chunk.bytes, .drained⟩ := by
    rw [recvLoop, if_neg hfits]
    simp [recvLoop, Receiving.push]
  simp only [receive, hopen, hbetween, hloop, if_true]

theorem drain_whole {x : Bytes} {v : RespValue} (h : parse x = .ok v x.length) :
    drain parse x = ⟨[v], [], none⟩ := by
  rw [drain_ok parse_stable h, List.drop_length, drain_incomplete rfl]
  rfl

theorem serve_whole (clock : ℕ → Readings) {v : RespValue} {x : Bytes} (hbuffer : s.input.getD fd [] = x)
    (h : parse x = .ok v x.length) :
    let outcome := executeCommand (clock 0) v s.session
    let r := serveRequests fd clock s
    r.1 = none ∧ r.2.session = outcome.2 ∧ r.2.input.getD fd [] = [] ∧
      r.2.output.getD fd [] = s.output.getD fd [] ++ serialize outcome.1 := by
  have hserve := serveRequests_eq fd clock s
  rw [hbuffer, drain_whole h] at hserve
  intro outcome r
  have hr : r = serveRequests fd clock s := rfl
  rw [hr, hserve]
  refine ⟨rfl, rfl, Std.ExtTreeMap.getD_insert_self, Std.ExtTreeMap.getD_insert_self.trans ?_⟩
  simp [executeAll, serializedReplies, errorReply, outcome]

/-- The last `try_send` of the handler changes nothing that counts. -/
theorem sendReplies_blocked (hopen : s.openFds.contains fd = true) :
    let r := sendReplies fd [.wouldBlock true] .keepOpen s
    r.1 = some .keepOpen ∧ r.2.output.getD fd [] = s.output.getD fd [] ∧ r.2.session = s.session ∧
      r.2.input = s.input ∧ r.2.openFds = s.openFds ∧ r.2.listenFd = s.listenFd ∧
      r.2.running = s.running ∧ r.2.phase = s.phase := by
  rw [sendReplies_eq]
  split
  · exact ⟨rfl, rfl, rfl, rfl, rfl, rfl, rfl, rfl⟩
  · rename_i hpending
    obtain ⟨hsend, houtput⟩ := @trySend_refused fd [.wouldBlock true] s hopen
      (List.length_pos_iff.mpr hpending)
    have hreturned : (trySend fd [.wouldBlock true] s).1 = some true := hsend
    refine ⟨?_, houtput, rfl, rfl, rfl, rfl, rfl, trySend_phase (by simp [hreturned])⟩
    rw [hreturned]
    rfl

/-- The reply to a request joins those that have not been taken. -/
theorem unread_reply (h : Idle fd s) (a : Asked) :
    let s' := final step (a.inputs fd) s
    Idle fd s' ∧ s'.session = (a.call.execute s.session).2 ∧
      s'.output.getD fd [] = s.output.getD fd [] ++ serialize (a.call.execute s.session).1 := by
  intro s'
  let answers : Answers :=
    { recvs := [.data a.chunk], sends := [.wouldBlock true], clock := fun _ => a.now }
  let s₀ : Server := { s with phase := .dispatching [⟨fd, .read, false⟩] }
  let s₁ := (receive fd answers.recvs s₀).2
  let s₂ := (serveRequests fd answers.clock s₁).2
  let r := sendReplies fd answers.sends .keepOpen s₂
  have hreceive := @receive_asked fd s₀ h.connected h.between a.chunk
  have hs₁ : s₁.input.getD fd [] = a.chunk.bytes := by
    change (receive fd [.data a.chunk] s₀).2.input.getD fd [] = _
    rw [hreceive]
    exact Std.ExtTreeMap.getD_insert_self
  obtain ⟨hnone, hsession, hinput, houtput⟩ := @serve_whole fd s₁ answers.clock _ _ hs₁ a.whole
  obtain ⟨hkept, hunread, hstore, hrest, hopen, hlisten, hrunning, hphase⟩ :=
    @sendReplies_blocked fd s₂ h.connected
  have hprepared : Prepared fd answers s₀ .keepOpen s₂ := by
    have hdrained : (receive fd answers.recvs s₀).1 = .drained := congrArg Prod.fst hreceive
    refine .served (.inl hdrained) ?_
    rw [hdrained]
    exact (congrArg (afterServing .drained) hnone).symm
  have hread : handleReadEvent fd answers s₀ = r.2 := by
    rw [handleReadEvent, (handleReadable_prepared hprepared).trans (if_neg (by decide)),
      ← @Prod.mk.eta _ _ (sendReplies fd answers.sends .keepOpen s₂), hkept]
  have hend : s' = { r.2 with phase := .waiting } := by
    have hready : (step (.ready [⟨fd, .read, false⟩]) s).2 = s₀ := by
      simp only [step, next, h.waits, proceed]
      rfl
    have hhandled : handleEvent ⟨fd, .read, false⟩ answers s₀ = r.2 :=
      (if_neg h.client).trans hread
    change (step (.handle answers) (step (.ready [⟨fd, .read, false⟩]) s).2).2 = _
    rw [hready]
    change (if (handleEvent ⟨fd, .read, false⟩ answers s₀).phase = .killed then _
      else proceed [] (handleEvent ⟨fd, .read, false⟩ answers s₀)) = _
    have halive : r.2.phase ≠ .killed := fun hkilled => by cases hphase.symm.trans hkilled
    have hrun : r.2.running = true := hrunning.trans h.running
    rw [hhandled, if_neg halive, proceed, loopTop, if_pos hrun]
  rw [hend]
  exact ⟨⟨rfl, hrunning.trans h.running, fun hl => h.client (hl.trans hlisten),
    (congrArg (·.contains fd) hopen).trans h.connected,
    (congrArg (·.getD fd []) hrest).trans hinput⟩, hstore.trans hsession, hunread.trans houtput⟩

/-- The server keeps every reply that is not taken. -/
theorem unread_replies (h : Idle fd s) (asked : List Asked) :
    let s' := final step (asked.flatMap (Asked.inputs fd)) s
    let calls := asked.map Asked.call
    Idle fd s' ∧ s'.session = final Call.execute calls s.session ∧
      s'.output.getD fd [] =
        s.output.getD fd [] ++ (trace Call.execute calls s.session).flatMap (serialize ·.output) := by
  induction asked generalizing s with
  | nil => exact ⟨h, rfl, (List.append_nil _).symm⟩
  | cons a asked ih =>
    obtain ⟨hidle, hsession, houtput⟩ := unread_reply h a
    obtain ⟨hidle', hsession', houtput'⟩ := ih hidle
    rw [hsession] at hsession' houtput'
    rw [List.flatMap_cons, final_append]
    refine ⟨hidle', hsession', houtput'.trans ?_⟩
    rw [houtput, List.append_assoc]
    rfl

def askedPing : Asked where
  chunk := ⟨text "*1\r\n$4\r\nPING\r\n", by decide, by decide⟩
  request := makeArray [makeBulkString (text "PING")]
  whole := rfl
  now := .once 0 0

theorem execute_pings (n : ℕ) (s : Session) :
    final Call.execute (List.replicate n askedPing.call) s = s ∧
      (trace Call.execute (List.replicate n askedPing.call) s).flatMap (serialize ·.output) =
        (List.replicate n (text "+PONG\r\n")).flatten := by
  induction n with
  | zero => exact ⟨rfl, rfl⟩
  | succ n ih =>
    have hping : askedPing.call.execute s = (makeSimpleString (text "PONG"), s) := rfl
    rw [List.replicate_succ, final_cons, trace, hping]
    exact ⟨ih.1, congrArg (text "+PONG\r\n" ++ ·) ih.2⟩

end Output

/-- Nothing bounds the output: whatever the server holds for a client that takes no replies, there is a
run in which only this client sends, no command changes the store, and afterwards the server holds more
than any given number of bytes for it and serves it as before. -/
theorem output_unbounded {fd : ℕ} {s : Server} (h : Idle fd s) (n : ℕ) :
    ∃ asked : List Asked, let s' := final step (asked.flatMap (Asked.inputs fd)) s
      Idle fd s' ∧ s'.session = s.session ∧ n < (s'.output.getD fd []).length := by
  obtain ⟨hidle, hsession, houtput⟩ := unread_replies h (List.replicate (n + 1) askedPing)
  rw [List.map_replicate, (execute_pings (n + 1) s.session).1] at hsession
  rw [List.map_replicate, (execute_pings (n + 1) s.session).2] at houtput
  refine ⟨_, hidle, hsession, ?_⟩
  have hpong : (text "+PONG\r\n").length = 7 := by decide
  rw [houtput, List.length_append, List.length_flatten, List.map_replicate,
    List.sum_replicate_nat, hpong]
  omega

theorem twoClients_flooded :
    ∃ asked : List Asked, let s' := final step (asked.flatMap (Asked.inputs 5)) twoClients
      Idle 5 s' ∧ s'.session = twoClients.session ∧ 1000000000 < (s'.output.getD 5 []).length :=
  output_unbounded ⟨by decide, by decide, by decide, by decide, by decide⟩ 1000000000

end RedisLite.EventLoop
