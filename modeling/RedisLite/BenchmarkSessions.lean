import RedisLite.BenchmarkCommands

/-!
# The benchmark and the server

All loops of the benchmark run over one connection, each on the buffer that the one before has left.
They do what one loop over all their requests does, so that what holds of a session with the server
holds of the whole program, and the replies that it counts are the ones that it is about.
-/

namespace RedisLite.Benchmark
open ByteStrings Resp Commands Replay Operations EventLoop Relation MachineRuns
open BenchmarkProgram (Loop Sent Options main main_proper main_served served_among Tidy tidy_empty)

/-- The replies of the loops that have finished, the loops that are left with the one that is running
first, and its session. -/
structure Program where
  earlier : List RespValue := []
  loops : List Workload
  session : System

/-- A move of the session of a loop; or the loop has finished, and the next one begins with what is in
the buffer. -/
inductive Turn (fd : ℕ) : Program → Program → Prop
  | move {earlier : List RespValue} {w : Workload} {ws : List Workload} {σ σ' : System}
      (h : Move w fd σ σ') : Turn fd ⟨earlier, w :: ws, σ⟩ ⟨earlier, w :: ws, σ'⟩
  | next {earlier : List RespValue} {w : Workload} {ws : List Workload} {σ : System}
      (h : σ.client.stage = .finished) :
      Turn fd ⟨earlier, w :: ws, σ⟩ ⟨earlier ++ σ.client.replies, ws,
        { σ with client := { connection := σ.client.connection } }⟩

def Program.replies (p : Program) : List RespValue := p.earlier ++ p.session.client.replies

/-- A loop that goes on with the requests of another one. -/
def Workload.followedBy (w w' : Workload) : Workload where
  request i := if i < w.ops then w.request i else w'.request (i - max w.ops 0)
  ops := max w.ops 0 + max w'.ops 0
  batchSize sent := if sent < w.ops then w.batchSize sent else w'.batchSize (sent - max w.ops 0)

def joined : List Workload → Workload
  | [] => ⟨fun _ => [], 0, fun _ => 1⟩
  | w :: ws => w.followedBy (joined ws)

def total : List Workload → ℤ
  | [] => 0
  | w :: ws => max w.ops 0 + total ws

/-- From some request on, a loop does what another one does. -/
structure Workload.Contains (whole w : Workload) (base : ℤ) : Prop where
  request : ∀ i, 0 ≤ i → i < w.ops → whole.request (base + i) = w.request i
  batchSize : ∀ sent, 0 ≤ sent → sent < w.ops →
    whole.batchSize (base + sent) = w.batchSize sent
  ops : base + max w.ops 0 ≤ whole.ops

section Joined
variable {w w' whole : Workload} {ws done : List Workload} {base : ℤ}

theorem total_nonneg (ws : List Workload) : 0 ≤ total ws := by
  induction ws with
  | nil => exact le_rfl
  | cons w ws ih => exact add_nonneg (le_max_right _ _) ih

theorem total_append (ws ws' : List Workload) : total (ws ++ ws') = total ws + total ws' := by
  induction ws with
  | nil => exact (zero_add _).symm
  | cons w ws ih => rw [List.cons_append, total, total, ih, add_assoc]

theorem ops_joined (ws : List Workload) : (joined ws).ops = total ws := by
  induction ws with
  | nil => rfl
  | cons w ws ih =>
    change max w.ops 0 + max (joined ws).ops 0 = _
    rw [ih, max_eq_left (total_nonneg ws), total]

theorem contains_first (w w' : Workload) : (w.followedBy w').Contains w 0 where
  request i _ hi := by
    rw [zero_add]
    exact if_pos hi
  batchSize sent _ hsent := by
    rw [zero_add]
    exact if_pos hsent
  ops := by
    change 0 + max w.ops 0 ≤ max w.ops 0 + max w'.ops 0
    omega

theorem contains_later (h : whole.Contains w base) (hbase : 0 ≤ base) (first : Workload) :
    (first.followedBy whole).Contains w (max first.ops 0 + base) where
  request i hi hlast := by
    change (if _ then _ else whole.request _) = _
    rw [if_neg (by omega), ← h.request i hi hlast]
    congr 1
    omega
  batchSize sent hsent hlast := by
    change (if _ then _ else whole.batchSize _) = _
    rw [if_neg (by omega), ← h.batchSize sent hsent hlast]
    congr 1
    omega
  ops := by
    have hops := h.ops
    change max first.ops 0 + base + max w.ops 0 ≤ max first.ops 0 + max whole.ops 0
    omega

theorem joined_contains (done : List Workload) (w : Workload) (ws : List Workload) :
    (joined (done ++ w :: ws)).Contains w (total done) := by
  induction done with
  | nil => exact contains_first w (joined ws)
  | cons first done ih => exact contains_later ih (total_nonneg done) first

theorem Workload.Contains.payload (h : whole.Contains w base) {sent : ℤ} (hsent : 0 ≤ sent) (batch : ℤ)
    (hops : sent + batch ≤ w.ops) : whole.payload (base + sent) batch = w.payload sent batch := by
  refine List.flatMap_congr fun i hi => ?_
  have hlast := List.mem_range.mp hi
  rw [add_assoc]
  exact h.request (sent + i) (by omega) (by omega)

theorem Workload.Proper.congr {words words' : ℕ → List Bytes} (h : w.Proper words)
    (hsame : ∀ i : ℕ, i < w.ops → words' i = words i) : w.Proper words' where
  request i hi := (h.request i hi).trans (congrArg encode (hsame i hi).symm)
  fits i hi := hsame i hi ▸ h.fits i hi
  line i hi := hsame i hi ▸ h.line i hi
  batch := h.batch
  small := h.small

theorem Workload.Proper.followedBy {words words' : ℕ → List Bytes} (hw : w.Proper words)
    (hw' : w'.Proper words') : (w.followedBy w').Proper fun i =>
      if (i : ℤ) < w.ops then words i else words' (i - w.ops.toNat) := by
  have hops : (w.followedBy w').ops = max w.ops 0 + max w'.ops 0 := rfl
  refine ⟨fun i hi => ?_, fun i hi => ?_, fun i hi => ?_, fun sent hsent hmore => ?_,
    fun sent hsent hmore => ?_⟩
  · change (if (i : ℤ) < w.ops then w.request i else w'.request (i - max w.ops 0)) = _
    split
    · exact hw.request i ‹_›
    · have hindex : (i : ℤ) - max w.ops 0 = ((i - w.ops.toNat : ℕ) : ℤ) := by omega
      rw [hindex]
      exact hw'.request _ (by omega)
  · split
    · exact hw.fits i ‹_›
    · exact hw'.fits _ (by omega)
  · split
    · exact hw.line i ‹_›
    · exact hw'.line _ (by omega)
  · change 0 < (if sent < w.ops then w.batchSize sent else w'.batchSize (sent - max w.ops 0)) ∧
      (if sent < w.ops then w.batchSize sent else w'.batchSize (sent - max w.ops 0)) ≤ _
    split
    · obtain ⟨hbatch, hleft⟩ := hw.batch sent hsent ‹_›
      omega
    · obtain ⟨hbatch, hleft⟩ := hw'.batch (sent - max w.ops 0) (by omega) (by omega)
      omega
  · change ((w.followedBy w').payload sent
      (if sent < w.ops then w.batchSize sent else w'.batchSize (sent - max w.ops 0))).length ≤ _
    split
    · rename_i hfirst
      obtain ⟨-, hleft⟩ := hw.batch sent hsent hfirst
      have hpayload := (contains_first w w').payload hsent (w.batchSize sent) (by omega)
      rw [zero_add] at hpayload
      rw [hpayload]
      exact hw.small sent hsent hfirst
    · have hpayload : (w.followedBy w').payload sent (w'.batchSize (sent - max w.ops 0)) =
          w'.payload (sent - max w.ops 0) (w'.batchSize (sent - max w.ops 0)) := by
        refine List.flatMap_congr fun i _ => ?_
        change (if sent + (i : ℤ) < w.ops then _ else w'.request (sent + i - max w.ops 0)) = _
        rw [if_neg (by omega)]
        congr 1
        omega
      rw [hpayload]
      exact hw'.small _ (by omega) (by omega)

theorem length_sent (l : Loop) : l.sent.length = l.workload.ops.toNat := by
  rw [Loop.sent, List.length_map, List.length_range]

theorem length_sents (loops : List Loop) :
    ((loops.flatMap Loop.sent).length : ℤ) = total (loops.map Loop.workload) := by
  induction loops with
  | nil => rfl
  | cons l loops ih =>
    have hlength := length_sent l
    rw [List.flatMap_cons, List.length_append, List.map_cons, total, ← ih]
    omega

theorem joined_proper {loops : List Loop} (h : ∀ l ∈ loops, l.workload.Proper l.arguments) :
    (joined (loops.map Loop.workload)).Proper fun i =>
      (loops.flatMap Loop.sent)[i]?.elim [] Sent.arguments := by
  induction loops with
  | nil =>
    have hnone : (joined ([].map Loop.workload)).ops = 0 := rfl
    refine ⟨fun i hi => ?_, fun i hi => ?_, fun i hi => ?_, fun sent hsent hmore => ?_,
      fun sent hsent hmore => ?_⟩
    all_goals omega
  | cons l loops ih =>
    have hlength := length_sent l
    refine ((h l List.mem_cons_self).followedBy
      (ih fun l' hl' => h l' (List.mem_cons_of_mem l hl'))).congr fun i _ => ?_
    rw [List.flatMap_cons]
    split
    · rw [List.getElem?_append_left (by omega)]
      have hrange : i < l.workload.ops.toNat := by omega
      simp [Loop.sent, hrange]
    · rw [List.getElem?_append_right (by omega), hlength]

theorem stream_sent (sent : List Sent) {n : ℕ} (hn : n ≤ sent.length) :
    stream (fun i => sent[i]?.elim [] Sent.arguments) n =
      (sent.take n).map fun item => asRequest item.arguments := by
  refine List.ext_getElem (by simp [stream, hn]) fun i hi _ => ?_
  have hlast : i < n := by simpa [stream] using hi
  have hsome : sent[i]? = some sent[i] := List.getElem?_eq_getElem (hlast.trans_le hn)
  simp [stream, hsome]

end Joined

def Client.Within (w : Workload) (c : Client) : Prop :=
  match c.stage with
  | .batching => 0 ≤ c.sent ∧ c.sent ≤ max w.ops 0
  | .sending _ _ batch | .awaiting _ batch => 0 ≤ c.sent ∧ 0 ≤ batch ∧ c.sent + batch ≤ w.ops
  | .finished => c.sent = max w.ops 0
  | .failed => True

/-- A client of the whole loop, when the loops before have had their replies: it does not stop where a
loop has finished. -/
def Client.after (base : ℤ) (earlier : List RespValue) (c : Client) : Client where
  sent := base + c.sent
  connection := c.connection
  stage := if c.stage = .finished then .batching else c.stage
  replies := earlier ++ c.replies

def System.after (base : ℤ) (earlier : List RespValue) (σ : System) : System :=
  { σ with client := σ.client.after base earlier }

section Follow
variable {w whole : Workload} {words : ℕ → List Bytes} {base : ℤ} {earlier : List RespValue}
variable {c : Client} {wanted : ℕ} {batch : ℤ} {fd : ℕ} {σ σ' : System}

theorem within_await (hsent : 0 ≤ c.sent) (hbatch : 0 ≤ batch) (hops : c.sent + batch ≤ w.ops) :
    (c.await wanted batch).Within w := by
  have hdone : 0 ≤ c.sent + batch ∧ c.sent + batch ≤ max w.ops 0 := by omega
  unfold Client.await
  dsimp only
  split
  · exact hdone
  · split
    · trivial
    · split
      · exact hdone
      · exact ⟨hsent, hbatch, hops⟩

theorem within_step (hw : w.Proper words) (h : c.Within w) (i : Input) :
    (step w i c).2.Within w := by
  have hstep := clientStep w i c
  generalize (step w i c).2 = c' at hstep
  cases hstep with
  | batch hstage hmore =>
    rw [Client.Within, hstage] at h
    obtain ⟨hbatch, hleft⟩ := hw.batch c.sent h.1 hmore
    exact ⟨h.1, hbatch.le, by simp only; omega⟩
  | finish hstage hlast =>
    rw [Client.Within, hstage] at h
    change c.sent = max w.ops 0
    omega
  | sent hstage =>
    rw [Client.Within, hstage] at h
    exact within_await h.1 h.2.1 h.2.2
  | wrote hstage =>
    rw [Client.Within, hstage] at h
    exact h
  | received hstage =>
    rw [Client.Within, hstage] at h
    exact within_await h.1 h.2.1 h.2.2
  | again hstage =>
    rw [Client.Within, hstage] at h
    exact within_await h.1 h.2.1 h.2.2
  | broken => trivial
  | idle => exact h

theorem after_stage {stage : Stage} (hstage : c.stage = stage) (hgoesOn : stage ≠ .finished) :
    (c.after base earlier).stage = stage := by
  rw [Client.after, if_neg (hstage ▸ hgoesOn), hstage]

theorem after_await : (c.await wanted batch).after base earlier =
    (c.after base earlier).await wanted batch := by
  unfold Client.await
  by_cases hwanted : wanted = 0
  · simp [hwanted, Client.after, add_assoc]
  · by_cases herror : (awaitRound wanted c.connection).error = none
    · by_cases hdone : (awaitRound wanted c.connection).wanted = 0
      · simp [hwanted, herror, hdone, Client.after, add_assoc]
      · simp [hwanted, herror, hdone, Client.after]
    · simp [hwanted, herror, Client.after]

/-- Where a loop goes on by itself the whole loop does so too; where it finishes the whole loop has
nothing to do. -/
theorem after_step (hwhole : whole.Contains w base) (hw : w.Proper words) (h : c.Within w) {i : Input}
    (hi : i = .proceed ∨ i = .interrupted) :
    (step w i c).2.after base earlier = (step whole i (c.after base earlier)).2 ∨
      (step w i c).2.after base earlier = c.after base earlier := by
  have hstep := clientStep w i c
  generalize (step w i c).2 = c' at hstep
  cases hstep with
  | batch hstage hmore =>
    left
    rw [Client.Within, hstage] at h
    obtain ⟨-, hleft⟩ := hw.batch c.sent h.1 hmore
    have hops := hwhole.ops
    have hbegun : base + c.sent < whole.ops := by omega
    have hpayload : whole.payload (base + c.sent) (w.batchSize c.sent) =
        w.payload c.sent (w.batchSize c.sent) := hwhole.payload h.1 _ (by omega)
    simp [step, next, Client.after, hstage, hbegun, hwhole.batchSize c.sent h.1 hmore, hpayload]
  | finish hstage => exact .inr (by simp [Client.after, hstage])
  | sent hstage hall =>
    left
    have hafter := @after_stage base earlier c _ hstage (by simp)
    rw [after_await]
    simp only [step, next, hafter, if_neg (Nat.not_lt.mpr hall), if_true]
  | again hstage =>
    left
    have hafter := @after_stage base earlier c _ hstage (by simp)
    rw [after_await]
    simp only [step, next, hafter]
  | wrote => simp at hi
  | received => simp at hi
  | broken => simp at hi
  | idle => exact .inr rfl

theorem follow_client {c c' : Client}
    (hmove : Move whole fd (σ.after base earlier) { σ.after base earlier with client := c' })
    (hsame : c.after base earlier = c' ∨ c.after base earlier = σ.client.after base earlier) :
    ReflTransGen (Move whole fd) (σ.after base earlier)
      ({ σ with client := c }.after base earlier) := by
  rcases hsame with rfl | hsame
  · exact ReflTransGen.single hmove
  · have hidle : { σ with client := c }.after base earlier = σ.after base earlier := by
      simp only [System.after, hsame]
    rw [hidle]

/-- The moves of a session with a loop are moves of a session with the whole loop. -/
theorem Move.after (hwhole : whole.Contains w base) (hw : w.Proper words)
    (h : σ.client.Within w) (hmove : Move w fd σ σ') :
    ReflTransGen (Move whole fd) (σ.after base earlier) (σ'.after base earlier) := by
  cases hmove with
  | proceed => exact follow_client (.proceed _) (after_step hwhole hw h (.inl rfl))
  | interrupted => exact follow_client (.interrupted _) (after_step hwhole hw h (.inr rfl))
  | @write payload sent batch count hstage hcount =>
    have hafter := @after_stage base earlier σ.client _ hstage (by simp)
    have hwritten : (step w (.wrote count) σ.client).2.after base earlier =
        (step whole (.wrote count) (σ.client.after base earlier)).2 := by
      simp only [step, next, hstage, hafter]
      by_cases hsome : sent < payload.length
      · simp [hsome, Client.after]
      · simp [hsome]
    have hmoved := @Move.write whole fd (σ.after base earlier) _ _ _ count hafter hcount
    simp only [System.after, ← hwritten] at hmoved
    exact ReflTransGen.single hmoved
  | @read wanted batch chunk rest hstage hchunk harrived =>
    have hafter := @after_stage base earlier σ.client _ hstage (by simp)
    have hreceived : (step w (.received chunk) σ.client).2.after base earlier =
        (step whole (.received chunk) (σ.client.after base earlier)).2 := by
      simp only [step, next, hstage, hafter, after_await]
      rfl
    have hmoved := @Move.read whole fd (σ.after base earlier) _ _ chunk rest hafter hchunk harrived
    simp only [System.after, ← hreceived] at hmoved
    exact ReflTransGen.single hmoved
  | serve hlive hfresh hheld harrived htaken hgiven =>
    exact ReflTransGen.single
      (@Move.serve whole fd (σ.after base earlier) _ _ _ _ hlive hfresh hheld harrived htaken hgiven)

theorem within_move (hw : w.Proper words) (h : σ.client.Within w) (hmove : Move w fd σ σ') :
    σ'.client.Within w := by
  cases hmove with
  | proceed => exact within_step hw h .proceed
  | interrupted => exact within_step hw h .interrupted
  | write => exact within_step hw h _
  | read => exact within_step hw h _
  | serve => exact h

end Follow

/-- How far the program has come with its loops, said of the one loop for all. -/
structure Follows (all : List Workload) (fd : ℕ) (σ : System) (p : Program) (done : List Workload) :
    Prop where
  loops : all = done ++ p.loops
  run : ReflTransGen (Move (joined all) fd) σ (p.session.after (total done) p.earlier)
  within : ∀ w ∈ p.loops.head?, p.session.client.Within w
  ended : p.loops = [] → p.session.client.stage = .batching ∧ p.session.client.sent = 0

section Follows
variable {all : List Workload} {fd : ℕ} {σ : System} {p p' : Program} {done : List Workload}

theorem within_begin (w : Workload) (connection : Connection) :
    ({ connection := connection } : Client).Within w := ⟨le_rfl, le_max_right _ _⟩

theorem follows_start (hclient : σ.client = {}) : Follows all fd σ ⟨[], all, σ⟩ [] where
  loops := rfl
  run := by
    obtain ⟨server, client, toServer, toClient⟩ := σ
    obtain rfl : client = {} := hclient
    exact .refl
  within w _ := by
    rw [hclient]
    exact within_begin w {}
  ended _ := by
    rw [hclient]
    exact ⟨rfl, rfl⟩

theorem Follows.turn (hproper : ∀ w ∈ all, ∃ words, w.Proper words) (h : Follows all fd σ p done)
    (hturn : Turn fd p p') : ∃ done', Follows all fd σ p' done' := by
  cases hturn with
  | @move earlier w ws σ₁ σ₂ hmove =>
    have hwithin := h.within w rfl
    have hwhole := joined_contains done w ws
    rw [← h.loops] at hwhole
    obtain ⟨words, hw⟩ := hproper w (h.loops ▸ by simp)
    refine ⟨done, h.loops, h.run.trans (hmove.after hwhole hw hwithin), fun w' hw' => ?_,
      fun hnone => by cases hnone⟩
    cases hw'
    exact within_move hw hwithin hmove
  | @next earlier w ws σ₁ hfinished =>
    have hsent : σ₁.client.sent = max w.ops 0 := by
      have hwithin := h.within w rfl
      rw [Client.Within, hfinished] at hwithin
      exact hwithin
    have hsame : σ₁.after (total done) earlier =
        { σ₁ with client := { connection := σ₁.client.connection } }.after
          (total (done ++ [w])) (earlier ++ σ₁.client.replies) := by
      simp [System.after, Client.after, hfinished, hsent, total_append, total]
    refine ⟨done ++ [w], by simpa using h.loops, hsame ▸ h.run, fun w' _ => ?_, fun _ => ⟨rfl, rfl⟩⟩
    exact within_begin w' _

theorem follows_run (hproper : ∀ w ∈ all, ∃ words, w.Proper words) (hclient : σ.client = {})
    (hrun : ReflTransGen (Turn fd) ⟨[], all, σ⟩ p) : ∃ done, Follows all fd σ p done := by
  induction hrun with
  | refl => exact ⟨[], follows_start hclient⟩
  | tail _ hturn ih =>
    obtain ⟨done, h⟩ := ih
    exact h.turn hproper hturn

/-- When the last loop has finished, every reply has been counted. -/
theorem Follows.counted {words : ℕ → List Bytes} (h : Follows all fd σ p done)
    (hstep : InStep (joined all) words fd (p.session.after (total done) p.earlier))
    (hnone : p.loops = []) : p.replies.length = total all := by
  obtain ⟨hstage, hsent⟩ := h.ended hnone
  have hall : total done = total all := by rw [h.loops, hnone, List.append_nil]
  have hcount := hstep.coupled.count
  have hafter := @after_stage (total done) p.earlier p.session.client _ hstage (by simp)
  simp only [System.after, Client.owed, Client.issued, hafter] at hcount
  change p.replies.length + 0 = (total done + p.session.client.sent).toNat at hcount
  have hnonneg := total_nonneg all
  rw [hall, hsent] at hcount
  omega

end Follows

/-- The calls that the server has executed in a session, with those of the client among them. -/
theorem serves_run {w : Workload} {words : ℕ → List Bytes} {fd : ℕ} {σ σ' : System}
    (hw : w.Proper words) (hstart : Starts fd σ) (hrun : ReflTransGen (Move w fd) σ σ') :
    ∃ calls, Serves fd calls σ.server σ'.server := by
  induction hrun with
  | refl => exact ⟨[], .refl fd σ.server⟩
  | tail hrun hmove ih =>
    obtain ⟨calls, hserves⟩ := ih
    have hopen := (inStep_run hw hstart hrun).coupled.live.1
    cases hmove with
    | serve hcalls hfresh =>
      obtain ⟨later, hlater⟩ := serves_step hfresh hopen
      exact ⟨calls ++ later, hserves.trans hlater⟩
    | _ => exact ⟨calls, hserves⟩

section Calls
variable {fd : ℕ} {calls : List (ℕ × Call)} {s s' : Server}

/-- What has been executed on a connection that was fresh are the calls of the client. -/
theorem executed_of_serves (h : Serves fd calls s s') (hfresh : Fresh fd s) :
    let executed := (ledger fd s'.trace).executed
    executed.map Prod.fst = (callsOf fd calls).map (fun call => call.2.request) ∧
      executed.map Prod.snd = repliesTo fd calls s.session := by
  intro executed
  have hrounds : executed = ((trace serve calls s.session).filter (fun r => r.input.1 = fd)).map
      fun r => (exchangeOn r).2 := by
    have hledger := h.ledger
    rw [hfresh.ledger, List.filter_map, List.map_map] at hledger
    exact hledger
  constructor
  · conv_rhs =>
      rw [callsOf, ← map_input_trace serve calls s.session, List.filter_map, List.map_map]
    rw [hrounds, List.map_map]
    rfl
  · rw [hrounds, List.map_map]
    rfl

/-- A key that is named by a call is named by its round. -/
theorem named_execution (h : Serves fd calls s s') {fd' : ℕ} {key : Bytes}
    (hkey : key ∈ namedKeys (callsOf fd' calls)) :
    ∃ e ∈ (executions s'.trace).drop (executions s.trace).length, e.1 = fd' ∧
      e.2.1.elements[1]?.map RespValue.string = some key := by
  obtain ⟨call, hcall, hkey⟩ := List.mem_filterMap.mp hkey
  obtain ⟨hmem, hfd⟩ := List.mem_filter.mp hcall
  rw [← map_input_trace serve calls s.session] at hmem
  obtain ⟨r, hr, rfl⟩ := List.mem_map.mp hmem
  refine ⟨exchangeOn r, ?_, of_decide_eq_true hfd, hkey⟩
  rw [h.executed, List.drop_left]
  exact List.mem_map_of_mem hr

/-- A key that is named by one of the first requests is an argument of it. -/
theorem named_sent {sent : List Sent} {key : Bytes}
    (hsent : (callsOf fd calls).map (fun call => call.2.request) <+:
      sent.map fun item => asRequest item.arguments)
    (h : key ∈ namedKeys (callsOf fd calls)) : ∃ item ∈ sent, item.arguments[1]? = some key := by
  obtain ⟨call, hcall, hkey⟩ := List.mem_filterMap.mp h
  obtain ⟨item, hitem, hrequest⟩ := List.mem_map.mp
    (hsent.subset (List.mem_map_of_mem (f := fun call : ℕ × Call => call.2.request) hcall))
  refine ⟨item, hitem, ?_⟩
  rw [Call.namedKey, ← hrequest] at hkey
  simpa [asRequest, makeArray, makeBulkString] using hkey

/-- Replies that hit do so as far as they have been counted. -/
theorem hits_counted {value : Bytes} {sent : List Sent} {n : ℕ} {replies counted : List RespValue}
    (h : List.Forall₂ (Sent.Hits value) (sent.take n) replies) (hcounted : counted <+: replies)
    (hn : n = replies.length) :
    List.Forall₂ (Sent.Hits value) (sent.take counted.length) counted := by
  have hmost := hcounted.length_le
  have hpart := List.forall₂_take counted.length h
  rwa [List.take_take, Nat.min_eq_left (by omega), ← List.prefix_iff_eq_take.mp hcounted] at hpart

end Calls

/-- What the benchmark counts, as long as no call fails on its connection, a batch is no more than the
server takes for one request, and nobody else uses its keys: the server executes the requests of the
table in their order, each once, the replies that are counted are the replies to the first of them, and
to all when the program has finished, and the measured ones are those that the table is about. -/
theorem benchmark_served {options : Options} {fd : ℕ} {σ : System} {p : Program}
    (hdepth : 0 < options.pipeline) (hops : options.ops ≤ 10 ^ 10)
    (hroom : options.pipeline * (150 + options.valueSize) ≤ kMaxRequestBytes)
    (hstart : Starts fd σ) (htidy : Tidy σ.server.session)
    (hrun : ReflTransGen (Turn fd) ⟨[], (main options).map Loop.workload, σ⟩ p)
    (hothers : ∀ e ∈ (executions p.session.server.trace).drop (executions σ.server.trace).length,
      e.1 ≠ fd → ∀ key ∈ e.2.1.elements[1]?.map RespValue.string,
        ∀ item ∈ (main options).flatMap Loop.sent, item.arguments[1]? ≠ some key) :
    let sent := (main options).flatMap Loop.sent
    let executed := (ledger fd p.session.server.trace).executed
    executed.map Prod.fst <+: sent.map (fun item => asRequest item.arguments) ∧
      p.replies <+: executed.map Prod.snd ∧
      (p.loops = [] → p.replies.length = sent.length) ∧ p.session.client.stage ≠ .failed ∧
      List.Forall₂ (Sent.Hits (List.replicate options.valueSize (byte 'x')))
        (sent.take p.replies.length) p.replies := by
  intro sent executed
  have hproper : ∀ l ∈ main options, l.workload.Proper l.arguments :=
    fun l hl => main_proper hdepth hops hroom hl
  have hjoined := joined_proper hproper
  obtain ⟨done, hfollows⟩ := follows_run (fun w hw => by
    obtain ⟨l, hl, rfl⟩ := List.mem_map.mp hw
    exact ⟨_, hproper l hl⟩) hstart.client hrun
  have hstep := inStep_run hjoined hstart hfollows.run
  obtain ⟨calls, hserves⟩ := serves_run hjoined hstart hfollows.run
  have htotal : (joined ((main options).map Loop.workload)).ops = sent.length := by
    rw [ops_joined, length_sents]
  have hissued := hstep.issued_le
  rw [htotal] at hissued
  have hfirst : executed.map Prod.fst <+: sent.map fun item => asRequest item.arguments := by
    have hstream : executed.map Prod.fst = _ := (hstep.executed hjoined).1
    rw [hstream, stream_sent sent (by omega)]
    exact (List.take_prefix _ _).trans ((List.take_prefix _ _).map _)
  have hreplies : p.replies <+: executed.map Prod.snd := hstep.coupled.answers
  obtain ⟨hrequests, hanswers⟩ := executed_of_serves hserves hstart.fresh
  have hown : (callsOf fd calls).map (fun call => call.2.request) <+:
      sent.map fun item => asRequest item.arguments := by
    rw [← hrequests]
    exact hfirst
  have hapart : ∀ fd', fd' ≠ fd →
      List.Disjoint (namedKeys (callsOf fd calls)) (namedKeys (callsOf fd' calls)) := by
    intro fd' hfd' key hkey hother
    obtain ⟨e, he, rfl, hnamed⟩ := named_execution hserves hother
    obtain ⟨item, hitem, hargument⟩ := named_sent hown hkey
    exact hothers e he hfd' key hnamed item hitem hargument
  have hhits := served_among (main_served options) hown hapart htidy
  refine ⟨hfirst, hreplies, fun hnone => ?_, fun hfailed => ?_, hits_counted hhits ?_ ?_⟩
  · have hcounted := hfollows.counted hstep hnone
    rw [← length_sents] at hcounted
    exact Int.natCast_inj.mp hcounted
  · exact hstep.not_failed (after_stage hfailed (by simp))
  · rwa [← hanswers]
  · simpa [← hanswers] using (congrArg List.length hrequests).symm

def inPairs : Options := { pipeline := 2 }

def warmUp : Workload := runPipelined (fun _ _ => encode ping) (text "warmup") 2000 2

def pairCounted : System where
  server := pingsServed.server
  client :=
    { sent := 2
      stage := .batching
      replies := [makeSimpleString (text "PONG"), makeSimpleString (text "PONG")] }

theorem run_pairCounted : ReflTransGen (Move warmUp 5) pingStart pairCounted := by
  have hwrite := @Move.write warmUp 5 ⟨twoClients, { stage := .sending pingBytes 0 2 }, [], []⟩
    pingBytes 0 2 28 rfl (by decide)
  have hsent : ReflTransGen (Move warmUp 5) pingStart pingsSent :=
    ((ReflTransGen.single (.proceed pingStart)).tail hwrite).tail (.proceed _)
  exact (hsent.trans (run_pingsServed warmUp)).tail
    (@Move.read warmUp 5 pingsServed 2 2 pongs [] rfl (by decide) rfl)

theorem pair_served :
    let sent := (main inPairs).flatMap Loop.sent
    let executed := (ledger 5 pairCounted.server.trace).executed
    executed.map Prod.fst <+: sent.map (fun item => asRequest item.arguments) ∧
      pairCounted.client.replies <+: executed.map Prod.snd ∧
      (((main inPairs).map Loop.workload) = [] →
        pairCounted.client.replies.length = sent.length) ∧
      pairCounted.client.stage ≠ .failed ∧
      List.Forall₂ (Sent.Hits (List.replicate 16 (byte 'x')))
        (sent.take pairCounted.client.replies.length) pairCounted.client.replies := by
  have howner : ∀ e ∈ executions pairCounted.server.trace, e.1 = 5 := by decide +kernel
  let begun : System → Program := fun σ => ⟨[], (main inPairs).map Loop.workload, σ⟩
  have hrun : ReflTransGen (Turn 5) (begun pingStart) (begun pairCounted) :=
    run_pairCounted.lift begun fun _ _ => Turn.move
  exact @benchmark_served inPairs 5 pingStart (begun pairCounted) (by decide) (by decide) (by decide)
    starts_pingStart (tidy_empty none) hrun
    fun e he hother => absurd (howner e (List.mem_of_mem_drop he)) hother

end RedisLite.Benchmark
