import Mathlib.Algebra.Order.BigOperators.Group.List
import Mathlib.Data.Nat.Count
import RedisLite.CollectionAccounting
import RedisLite.PipelinedSessions

/-!
# What the benchmark measures

The benchmark counts replies without looking at them. Its table is made so that they are all hits: what
a measured request reads or removes has been put there by the requests that came before it.
-/

namespace RedisLite.BenchmarkProgram
open ByteStrings Resp Keyspace Commands Operations Replay Accounting MachineRuns
open RedisLite.Benchmark (RequestFor Workload encode runSequential runPipelined RequestFits)

structure Options where
  ops : ℤ := 20000
  pipeline : ℤ := 64
  valueSize : ℕ := 16
  only : Bytes := []

/-- A row of the table, with what `encode` is given for the request with a number; there is no setup
when the command needs no seeding. -/
structure Benchmark where
  name : CommandName
  request : Bytes → ℤ → List Bytes
  setup : Option (Bytes → ℤ → List Bytes)

def buildBenchmarks (options : Options) : List Benchmark :=
  let value := List.replicate options.valueSize (byte 'x')
  [{ name := .set
     request := fun p i => [text "SET", text "key:" ++ p ++ intDecimal i, value]
     setup := none },
    { name := .get
      request := fun p i => [text "GET", text "key:" ++ p ++ intDecimal i]
      setup := some fun p i => [text "SET", text "key:" ++ p ++ intDecimal i, value] },
    { name := .del
      request := fun p i => [text "DEL", text "del:" ++ p ++ intDecimal i]
      setup := some fun p i => [text "SET", text "del:" ++ p ++ intDecimal i, value] },
    { name := .lpush
      request := fun p i => [text "LPUSH", text "list:" ++ p ++ intDecimal (i.tmod 64), value]
      setup := none },
    { name := .lpop
      request := fun p i => [text "LPOP", text "poplist:" ++ p ++ intDecimal (i.tmod 64)]
      setup := some fun p i =>
        [text "LPUSH", text "poplist:" ++ p ++ intDecimal (i.tmod 64), value] },
    { name := .hset
      request := fun p i => [text "HSET", text "hash:" ++ p, text "field:" ++ intDecimal i, value]
      setup := none },
    { name := .hget
      request := fun p i => [text "HGET", text "hash:" ++ p, text "field:" ++ intDecimal i]
      setup := some fun p i =>
        [text "HSET", text "hash:" ++ p, text "field:" ++ intDecimal i, value] },
    { name := .sadd
      request := fun p i => [text "SADD", text "set:" ++ p, text "member:" ++ intDecimal i]
      setup := none },
    { name := .sismember
      request := fun p i => [text "SISMEMBER", text "set:" ++ p, text "member:" ++ intDecimal i]
      setup := some fun p i => [text "SADD", text "set:" ++ p, text "member:" ++ intDecimal i] }]

def requestFor (arguments : Bytes → ℤ → List Bytes) : RequestFor := fun p i => encode (arguments p i)

structure Loop where
  measured : Option CommandName
  arguments : ℕ → List Bytes
  workload : Workload

def Benchmark.seeding (b : Benchmark) (keyPrefix : Bytes) (options : Options) : List Loop :=
  match b.setup with
  | none => []
  | some setup =>
    [{ measured := none
       arguments := fun i => setup keyPrefix i
       workload := Benchmark.seed (requestFor setup) keyPrefix options.ops options.pipeline }]

/-- The body of the loop over the table. -/
def Benchmark.loops (b : Benchmark) (options : Options) : List Loop :=
  b.seeding (text "seq:") options ++
    [{ measured := some b.name
       arguments := fun i => b.request (text "seq:") i
       workload := runSequential (requestFor b.request) (text "seq:") options.ops }] ++
  b.seeding (text "pipe:") options ++
    [{ measured := some b.name
       arguments := fun i => b.request (text "pipe:") i
       workload := runPipelined (requestFor b.request) (text "pipe:") options.ops options.pipeline }]

/-- All loops of the program in their order, as far as nothing fails; the first is the warm-up. -/
def main (options : Options) : List Loop :=
  { measured := none
    arguments := fun _ => [text "PING"]
    workload :=
      runPipelined (requestFor fun _ _ => [text "PING"]) (text "warmup") 2000 options.pipeline } ::
    ((buildBenchmarks options).filter fun b =>
      options.only = [] ∨ options.only = b.name.upper).flatMap (·.loops options)

structure Sent where
  measured : Option CommandName
  arguments : List Bytes

def Loop.sent (l : Loop) : List Sent :=
  (List.range l.workload.ops.toNat).map fun i => ⟨l.measured, l.arguments i⟩

section Proper
variable {p : Bytes} {i : ℕ} {options : Options}

theorem length_natDecimal {n : ℕ} (hn : n < 10 ^ 10) : (natDecimal n).length ≤ 10 := by
  rw [natDecimal, List.length_map]
  exact (Nat.length_toDigits_le_iff (by decide) (by decide)).mpr hn

/-- The header and the end of an argument take at most fifteen bytes. -/
theorem length_encode {words : List Bytes} (hfew : words.length < 10 ^ 10)
    (hshort : ∀ x ∈ words, x.length < 10 ^ 10) :
    (encode words).length ≤ 13 + 15 * words.length + words.flatten.length := by
  have hfields (out : Bytes) : (words.foldl
      (fun out argument =>
        out ++ (text "$" ++ natDecimal argument.length ++ crlf ++ argument ++ crlf)) out).length ≤
      out.length + 15 * words.length + words.flatten.length := by
    clear hfew
    induction words generalizing out with
    | nil => exact le_rfl
    | cons word words ih =>
      have hdigits := length_natDecimal (hshort word List.mem_cons_self)
      have hdollar : (text "$").length = 1 := rfl
      have hcrlf : crlf.length = 2 := rfl
      have hlater := ih (fun x hx => hshort x (List.mem_cons_of_mem word hx))
        (out ++ (text "$" ++ natDecimal word.length ++ crlf ++ word ++ crlf))
      simp only [List.length_append] at hlater
      rw [List.foldl_cons, List.length_cons, List.flatten_cons, List.length_append]
      omega
  have hdigits := length_natDecimal hfew
  have hstar : (text "*").length = 1 := rfl
  have hcrlf : crlf.length = 2 := rfl
  have hall := hfields (text "*" ++ natDecimal words.length ++ crlf)
  simp only [List.length_append] at hall
  exact hall.trans (by omega)

theorem length_payload {w : Workload} {sent batch : ℤ} {n : ℕ}
    (h : ∀ i, sent ≤ i → i < sent + batch → (w.request i).length ≤ n) :
    (w.payload sent batch).length ≤ batch.toNat * n := by
  rw [Workload.payload, List.length_flatMap]
  refine (List.sum_le_card_nsmul _ n fun length hlength => ?_).trans_eq (by simp)
  obtain ⟨i, hi, rfl⟩ := List.mem_map.mp hlength
  have hlast := List.mem_range.mp hi
  exact h _ (by omega) (by omega)

/-- A known command with a few arguments, which are short but for a value. -/
def Plain (v : ℕ) (words : List Bytes) : Prop :=
  ∃ (command : CommandName) (args : List Bytes), words = command.upper :: args ∧
    args.length ≤ 3 ∧ args.flatten.length ≤ 60 + v

section Plain
variable {v : ℕ} {words : List Bytes} {x y z : Bytes}

theorem Plain.short (h : Plain v words) : words.length ≤ 4 ∧ words.flatten.length ≤ 69 + v := by
  obtain ⟨command, args, rfl, hfew, hshort⟩ := h
  have hname : command.upper.length ≤ 9 := by cases command <;> decide
  rw [List.length_cons, List.flatten_cons, List.length_append]
  omega

theorem Plain.length_le (h : Plain v words) {x : Bytes} (hx : x ∈ words) : x.length ≤ 69 + v :=
  (List.sublist_flatten_of_mem hx).length_le.trans h.short.2

theorem Plain.fits (h : Plain v words) (hv : v ≤ 10 ^ 9) : RequestFits words := by
  obtain ⟨hfew, -⟩ := h.short
  refine ⟨?_, fun x hx => ?_⟩
  · rw [maxInt64]
    omega
  · have hlength := h.length_le hx
    rw [FitsMemory, maxInt64]
    omega

theorem Plain.length_encode (h : Plain v words) (hv : v ≤ 10 ^ 9) :
    (encode words).length ≤ 150 + v := by
  obtain ⟨hfew, hshort⟩ := h.short
  refine (BenchmarkProgram.length_encode (by omega) fun x hx => ?_).trans (by omega)
  have hlength := h.length_le hx
  omega

theorem Plain.line (h : Plain v words) : ¬ BreaksLine (asRequest words) := by
  obtain ⟨command, args, rfl, -, -⟩ := h
  rintro ⟨name, args', hwords, hname, -⟩
  rw [requestWords_asRequest (List.cons_ne_nil _ _)] at hwords
  cases hwords
  rw [toUpper_upper, commandNamed_upper] at hname
  cases hname

theorem plain_one (command : CommandName) (hx : x.length ≤ 30) : Plain v [command.upper, x] := by
  refine ⟨command, [x], rfl, by simp, ?_⟩
  rw [List.flatten_singleton]
  omega

theorem plain_two (command : CommandName) (hx : x.length ≤ 30) (hy : y.length ≤ 30 + v) :
    Plain v [command.upper, x, y] := by
  refine ⟨command, [x, y], rfl, by simp, ?_⟩
  rw [List.flatten_cons, List.flatten_singleton, List.length_append]
  omega

theorem plain_three (command : CommandName) (hx : x.length ≤ 30) (hy : y.length ≤ 30)
    (hz : z.length ≤ v) : Plain v [command.upper, x, y, z] := by
  refine ⟨command, [x, y, z], rfl, by simp, ?_⟩
  rw [List.flatten_cons, List.flatten_cons, List.flatten_singleton, List.length_append,
    List.length_append]
  omega

end Plain

theorem length_numbered {front : Bytes} (hfront : front.length ≤ 20) (hi : i < 10 ^ 10) :
    (front ++ intDecimal i).length ≤ 30 := by
  have hdigits := length_natDecimal hi
  rw [List.length_append, intDecimal_natCast]
  omega

theorem length_prefixed {front : Bytes} (hfront : front.length ≤ 10) (hp : p.length ≤ 10) :
    (front ++ p).length ≤ 20 := by
  rw [List.length_append]
  omega

theorem table_plain (hp : p.length ≤ 10) (hi : i < 10 ^ 10) {b : Benchmark}
    (hb : b ∈ buildBenchmarks options) :
    Plain options.valueSize (b.request p i) ∧
      ∀ setup ∈ b.setup, Plain options.valueSize (setup p i) := by
  have hvalue : (List.replicate options.valueSize (byte 'x')).length ≤ options.valueSize :=
    List.length_replicate.le
  have hx := hvalue.trans (Nat.le_add_left _ 30)
  have hkey {front : Bytes} (hfront : front.length ≤ 10) :=
    length_numbered (length_prefixed hfront hp) hi
  have hlist {front : Bytes} (hfront : front.length ≤ 10) :
      (front ++ p ++ intDecimal ((i : ℤ).tmod 64)).length ≤ 30 :=
    @length_numbered (i % 64) _ (length_prefixed hfront hp) ((Nat.mod_le i 64).trans_lt hi)
  have hname {front : Bytes} (hfront : front.length ≤ 10) :=
    (length_prefixed hfront hp).trans (by decide : 20 ≤ 30)
  have hpart {front : Bytes} (hfront : front.length ≤ 20) := length_numbered hfront hi
  have hmember {front : Bytes} (hfront : front.length ≤ 20) :=
    (hpart hfront).trans (Nat.le_add_right 30 options.valueSize)
  simp only [buildBenchmarks, List.mem_cons, List.not_mem_nil, or_false] at hb
  rcases hb with rfl | rfl | rfl | rfl | rfl | rfl | rfl | rfl | rfl
  · refine ⟨plain_two .set (hkey (by decide)) hx, fun setup h => ?_⟩
    cases h
  · refine ⟨plain_one .get (hkey (by decide)), fun setup h => ?_⟩
    cases h
    exact plain_two .set (hkey (by decide)) hx
  · refine ⟨plain_one .del (hkey (by decide)), fun setup h => ?_⟩
    cases h
    exact plain_two .set (hkey (by decide)) hx
  · refine ⟨plain_two .lpush (hlist (by decide)) hx, fun setup h => ?_⟩
    cases h
  · refine ⟨plain_one .lpop (hlist (by decide)), fun setup h => ?_⟩
    cases h
    exact plain_two .lpush (hlist (by decide)) hx
  · refine ⟨plain_three .hset (hname (by decide)) (hpart (by decide)) hvalue, fun setup h => ?_⟩
    cases h
  · refine ⟨plain_two .hget (hname (by decide)) (hmember (by decide)), fun setup h => ?_⟩
    cases h
    exact plain_three .hset (hname (by decide)) (hpart (by decide)) hvalue
  · refine ⟨plain_two .sadd (hname (by decide)) (hmember (by decide)), fun setup h => ?_⟩
    cases h
  · refine ⟨plain_two .sismember (hname (by decide)) (hmember (by decide)), fun setup h => ?_⟩
    cases h
    exact plain_two .sadd (hname (by decide)) (hmember (by decide))

section Batches
variable {arguments : Bytes → ℤ → List Bytes} {depth ops : ℤ} {v : ℕ}

theorem length_batch (hplain : ∀ i : ℕ, i < ops → Plain v (arguments p i)) (hv : v ≤ 10 ^ 9)
    {w : Workload} (hw : w.request = requestFor arguments p) {sent : ℤ} (hsent : 0 ≤ sent) (batch : ℤ)
    (hops : sent + batch ≤ ops) : (w.payload sent batch).length ≤ batch.toNat * (150 + v) := by
  refine length_payload fun i hi hlast => ?_
  obtain ⟨i, rfl⟩ := Int.eq_ofNat_of_zero_le (hsent.trans hi)
  rw [hw]
  exact (hplain i (by omega)).length_encode hv

theorem proper_batches (hdepth : 0 < depth) (hplain : ∀ i : ℕ, i < ops → Plain v (arguments p i))
    (hroom : depth * (150 + v) ≤ EventLoop.kMaxRequestBytes) :
    (runPipelined (requestFor arguments) p ops depth).Proper fun i => arguments p i := by
  have hv : v ≤ 10 ^ 9 := by
    have hone : 1 * (150 + v : ℤ) ≤ depth * (150 + v) :=
      mul_le_mul_of_nonneg_right (by omega) (by omega)
    change _ ≤ (16777216 : ℤ) at hroom
    omega
  refine RedisLite.Benchmark.proper_pipelined hdepth (fun _ _ => rfl)
    (fun i hi => (hplain i hi).fits hv) (fun i hi => (hplain i hi).line) fun sent hsent hmore => ?_
  have hsize := length_batch hplain hv (w := runPipelined (requestFor arguments) p ops depth) rfl hsent
    (min depth (ops - sent)) (by omega)
  have hmost : (min depth (ops - sent)).toNat * (150 + v) ≤ depth.toNat * (150 + v) :=
    Nat.mul_le_mul_right _ (by omega)
  have hdepth' : ((depth.toNat * (150 + v) : ℕ) : ℤ) = depth * (150 + v) := by
    push_cast
    rw [Int.toNat_of_nonneg hdepth.le]
  omega

theorem proper_singles (hplain : ∀ i : ℕ, i < ops → Plain v (arguments p i))
    (hroom : 150 + v ≤ EventLoop.kMaxRequestBytes) :
    (runSequential (requestFor arguments) p ops).Proper fun i => arguments p i := by
  have hv : v ≤ 10 ^ 9 := by
    change _ ≤ 16777216 at hroom
    omega
  refine ⟨fun _ _ => rfl, fun i hi => (hplain i hi).fits hv, fun i hi => (hplain i hi).line,
    fun sent _ hmore => ?_, fun sent hsent hmore => ?_⟩
  · change sent < ops at hmore
    change 0 < 1 ∧ 1 ≤ ops - sent
    omega
  · change sent < ops at hmore
    have hsize := length_batch hplain hv (w := runSequential (requestFor arguments) p ops) rfl hsent 1
      (by omega)
    rw [Int.toNat_one, one_mul] at hsize
    exact hsize.trans hroom

end Batches

/-- Every loop of the program is one that the server can follow, if a whole batch is no more than the
server takes for one request. -/
theorem main_proper (hdepth : 0 < options.pipeline) (hops : options.ops ≤ 10 ^ 10)
    (hroom : options.pipeline * (150 + options.valueSize) ≤ EventLoop.kMaxRequestBytes) {l : Loop}
    (hl : l ∈ main options) : l.workload.Proper l.arguments := by
  rcases List.mem_cons.mp hl with rfl | hl
  · exact @proper_batches (text "warmup") (fun _ _ => [text "PING"]) _ 2000 _ hdepth (fun i _ =>
      ⟨.ping, [], rfl, by decide, Nat.zero_le _⟩) hroom
  obtain ⟨b, hb, hl⟩ := List.mem_flatMap.mp hl
  have hplain {q : Bytes} (hq : q.length ≤ 10) (i : ℕ) (hi : i < options.ops) :=
    @table_plain q i options hq (by omega) b (List.mem_filter.mp hb).1
  have hsingle : 150 + options.valueSize ≤ EventLoop.kMaxRequestBytes := by
    have hone : 1 * (150 + options.valueSize : ℤ) ≤ options.pipeline * (150 + options.valueSize) :=
      mul_le_mul_of_nonneg_right (by omega) (by omega)
    omega
  have hseeding {q : Bytes} (hq : q.length ≤ 10) {l : Loop} (hl : l ∈ b.seeding q options) :
      l.workload.Proper l.arguments := by
    rw [Benchmark.seeding] at hl
    cases hsetup : b.setup with
    | none =>
      rw [hsetup] at hl
      cases hl
    | some setup =>
      rw [hsetup] at hl
      cases List.mem_singleton.mp hl
      exact proper_batches hdepth (fun i hi => (hplain hq i hi).2 setup hsetup) hroom
  simp only [Benchmark.loops, List.mem_append, List.mem_singleton] at hl
  rcases hl with ((hl | rfl) | hl) | rfl
  · exact hseeding (by decide) hl
  · exact proper_singles (fun i hi => (hplain (by decide) i hi).1) hsingle
  · exact hseeding (by decide) hl
  · exact proper_batches hdepth (fun i hi => (hplain (by decide) i hi).1) hroom

end Proper

/-- The reply that a benchmark is about. -/
def Hits (value : Bytes) (name : CommandName) (reply : RespValue) : Prop :=
  match name with
  | .set => reply = makeSimpleString (text "OK")
  | .get | .lpop | .hget => reply = makeBulkString value
  | .del | .sismember => reply = makeInteger 1
  | .lpush => ∃ length : ℕ, 0 < length ∧ reply = makeInteger length
  | .hset | .sadd => ∃ added, reply = makeFlag added
  | _ => False

section Calls
variable {key key' : Bytes} {call : Call} {op : Op} {s : Session}

theorem asked_words (now : Readings) {command : CommandName} {args : List Bytes}
    (h : interpretArgs now command args = .ok (.on key op)) :
    asked key ⟨now, asRequest (command.upper :: args)⟩ = some op :=
  asks_words now command args h

theorem cell_other (h : asked key call = some op) (hother : key' ≠ key) :
    (call.execute s).2.store.cell key' = s.store.cell key' := by
  apply cell_of_asks_none
  have hrequest := asks_eq_some_iff.mp h
  simp only [asks, hrequest, if_neg (Ne.symm hother)]

theorem shows_of_cell {α : Type} {k : Kind α} {x : α} {s' : Session}
    (h : s'.store.cell key = s.store.cell key) (hs : Shows k key s x) : Shows k key s' x := by
  obtain ⟨v, hcell, hx⟩ := hs
  exact ⟨v, h.trans hcell, hx⟩

theorem shows_other {α : Type} {k : Kind α} {x : α} (h : asked key call = some op)
    (hother : key' ≠ key) (hs : Shows k key' s x) : Shows k key' (call.execute s).2 x :=
  shows_of_cell (cell_other h hother) hs

theorem shows_asked {α : Type} {k : Kind α} {x x' : α} {reply : RespValue}
    (h : asked key call = some op) (hresets : op.resets = false) (hs : Shows k key s x)
    (hleaves : ∀ v, typedOf k.getIf k.empty v = some x →
      typedOf k.getIf k.empty (op.leaves v) = some x')
    (hreply : ∀ v, typedOf k.getIf k.empty v = some x → replyOn call.now key op v = reply) :
    (call.execute s).1 = reply ∧ Shows k key (call.execute s).2 x' := by
  obtain ⟨v, hcell, hx⟩ := hs
  obtain ⟨hreplied, hleft⟩ := execute_asked h hresets hcell
  exact ⟨hreplied.trans (hreply v hx), op.leaves v, hleft, hleaves v hx⟩

def Holds (key value : Bytes) (s : Session) : Prop :=
  s.store.cell key = ⟨some (.string value), none⟩

theorem set_asked {value : Bytes} (h : asked key call = some (.set value)) :
    (call.execute s).1 = makeSimpleString (text "OK") ∧ Holds key value (call.execute s).2 := by
  rw [Call.execute, executeCommand_asks h]
  exact ⟨rfl, Store.cell_setCell_self _ _ _⟩

theorem get_asked {value : Bytes} (h : asked key call = some .get) (hs : Holds key value s) :
    (call.execute s).1 = makeBulkString value ∧ Holds key value (call.execute s).2 :=
  execute_asked h rfl hs

theorem del_asked {value : Bytes} (h : asked key call = some .del) (hs : Holds key value s) :
    (call.execute s).1 = makeInteger 1 := by
  have hlive : (s.store.cell key).live (Op.del.checkedAt call.now) = ⟨some (.string value), none⟩ := by
    rw [hs]
    rfl
  rw [Call.execute, executeCommand_asks h, hlive]
  rfl

theorem push_asked {value : Bytes} {l : ListValue} (h : asked key call = some (.push .left value))
    (hs : Shows lists key s l) :
    (call.execute s).1 = makeInteger (value :: l).length ∧
      Shows lists key (call.execute s).2 (value :: l) := by
  refine shows_asked h rfl hs (fun v hv => ?_) (fun v hv => ?_)
  · cases v with
    | none =>
      cases hv
      rfl
    | some w =>
      cases w <;> cases hv
      rfl
  · exact congrArg Decision.reply (writing_typedOf hv)

theorem pop_asked {l : ListValue} (h : asked key call = some (.pop .left))
    (hs : Shows lists key s l) :
    (call.execute s).1 = popReply .left l ∧ Shows lists key (call.execute s).2 l.tail := by
  refine shows_asked h rfl hs (fun v hv => ?_) (fun v hv => replyOn_pop hv)
  cases v with
  | none =>
    cases hv
    rfl
  | some w =>
    cases w <;> cases hv
    cases l with
    | nil => rfl
    | cons x rest => exact typedOf_kept rfl List.isEmpty_iff.mp

theorem hset_asked {field value : Bytes} {fields : HashValue}
    (h : asked key call = some (.hset field value)) (hs : Shows hashes key s fields) :
    (call.execute s).1 = makeFlag (!fields.contains field) ∧
      Shows hashes key (call.execute s).2 (fields.insert field value) := by
  refine shows_asked h rfl hs (fun v hv => ?_) (fun v hv => ?_)
  · cases v with
    | none =>
      cases hv
      rfl
    | some w =>
      cases w <;> cases hv
      rfl
  · exact congrArg Decision.reply (writing_typedOf hv)

theorem hget_asked {field : Bytes} {fields : HashValue} (h : asked key call = some (.hget field))
    (hs : Shows hashes key s fields) :
    (call.execute s).1 = fields[field]?.elim makeNullBulkString makeBulkString ∧
      Shows hashes key (call.execute s).2 fields := by
  refine shows_asked h rfl hs (fun v hv => ?_) (fun v hv => ?_)
  · cases v with
    | none => exact hv
    | some w => cases w <;> exact hv
  · rw [replyOn_hget hv]
    cases fields[field]? <;> rfl

theorem sadd_asked {member : Bytes} {members : SetValue} (h : asked key call = some (.sadd member))
    (hs : Shows sets key s members) :
    (call.execute s).1 = makeFlag (!members.contains member) ∧
      Shows sets key (call.execute s).2 (members.insert member) := by
  refine shows_asked h rfl hs (fun v hv => ?_) (fun v hv => ?_)
  · cases v with
    | none =>
      cases hv
      rfl
    | some w =>
      cases w <;> cases hv
      simp only [Op.leaves]
      split
      · rename_i hm
        rw [insert_set_of_mem hm]
        rfl
      · rfl
  · refine (congrArg Decision.reply (writing_typedOf hv)).trans ?_
    cases members.contains member <;> rfl

theorem sismember_asked {member : Bytes} {members : SetValue}
    (h : asked key call = some (.sismember member)) (hs : Shows sets key s members) :
    (call.execute s).1 = makeFlag (member ∈ members.toList) ∧
      Shows sets key (call.execute s).2 members := by
  refine shows_asked h rfl hs (fun v hv => ?_) (fun v hv => replyOn_sismember hv)
  cases v with
  | none => exact hv
  | some w => cases w <;> exact hv

end Calls

inductive Family where
  | strings | lists | hashes | sets

/-- What the table puts on a key. -/
def family (key : Bytes) : Family :=
  if text "list:" <+: key ∨ text "poplist:" <+: key then .lists
  else if text "hash:" <+: key then .hashes
  else if text "set:" <+: key then .sets
  else .strings

/-- A key that a family can use: it is missing or has a value of the family, and it has no deadline.
A string is overwritten in any case. -/
def Usable (key : Bytes) (s : Session) : Family → Prop
  | .strings => True
  | .lists => ∃ l, Shows lists key s l
  | .hashes => ∃ fields, Shows hashes key s fields
  | .sets => ∃ members, Shows sets key s members

/-- A session in which the table can use all its keys. -/
def Tidy (s : Session) : Prop := ∀ key, Usable key s (family key)

def Suits (f : Family) (op : Op) : Prop :=
  ∀ key call s, asked key call = some op → Usable key s f → Usable key (call.execute s).2 f

section Tidy
variable {key key' : Bytes} {call : Call} {op : Op} {s : Session} {value : Bytes}

theorem suits_strings (op : Op) : Suits .strings op := fun _ _ _ _ _ => trivial

theorem suits_push (value : Bytes) : Suits .lists (.push .left value) := by
  rintro key call s h ⟨l, hl⟩
  exact ⟨_, (push_asked h hl).2⟩

theorem suits_pop : Suits .lists (.pop .left) := by
  rintro key call s h ⟨l, hl⟩
  exact ⟨_, (pop_asked h hl).2⟩

theorem suits_hset (field value : Bytes) : Suits .hashes (.hset field value) := by
  rintro key call s h ⟨fields, hfields⟩
  exact ⟨_, (hset_asked h hfields).2⟩

theorem suits_hget (field : Bytes) : Suits .hashes (.hget field) := by
  rintro key call s h ⟨fields, hfields⟩
  exact ⟨_, (hget_asked h hfields).2⟩

theorem suits_sadd (member : Bytes) : Suits .sets (.sadd member) := by
  rintro key call s h ⟨members, hmembers⟩
  exact ⟨_, (sadd_asked h hmembers).2⟩

theorem suits_sismember (member : Bytes) : Suits .sets (.sismember member) := by
  rintro key call s h ⟨members, hmembers⟩
  exact ⟨_, (sismember_asked h hmembers).2⟩

theorem usable_of_cell {s' : Session} (h : s'.store.cell key = s.store.cell key) {f : Family}
    (hs : Usable key s f) : Usable key s' f := by
  cases f with
  | strings => trivial
  | lists => exact hs.imp fun _ => shows_of_cell h
  | hashes => exact hs.imp fun _ => shows_of_cell h
  | sets => exact hs.imp fun _ => shows_of_cell h

theorem Tidy.execute (hs : Tidy s) (hop : Suits (family key) op) (h : asked key call = some op) :
    Tidy (call.execute s).2 := by
  intro key'
  by_cases hkey : key' = key
  · subst hkey
    exact hop key' call s h (hs key')
  · exact usable_of_cell (cell_other h hkey) (hs key')

end Tidy

/-- The requests of a loop that has a row of the table for its requests. -/
def numbered (measured : Option CommandName) (arguments : Bytes → ℤ → List Bytes) (keyPrefix : Bytes)
    (ops : ℤ) : List Sent :=
  (List.range ops.toNat).map fun (i : ℕ) => ⟨measured, arguments keyPrefix i⟩

def Sent.Asks (item : Sent) (call : Call) : Prop := call.request = asRequest item.arguments

def Sent.Hits (value : Bytes) (item : Sent) (reply : RespValue) : Prop :=
  ∀ name ∈ item.measured, BenchmarkProgram.Hits value name reply

/-- Requests whose measured ones hit. -/
abbrev Served (value : Bytes) : List Sent → (Session → Prop) → (Session → Prop) → Prop :=
  Script Call.execute Sent.Asks (Sent.Hits value)

/-- A loop of requests on keys of the table, with what its first requests have made true. -/
theorem numbered_served {value keyPrefix : Bytes} {measured : Option CommandName} {ops : ℤ}
    {arguments : Bytes → ℤ → List Bytes} {key : ℕ → Bytes} {op : ℕ → Op}
    {Made : ℕ → Session → Prop}
    (hasks : ∀ (m : ℕ) now, asked (key m) ⟨now, asRequest (arguments keyPrefix m)⟩ = some (op m))
    (hsuits : ∀ m, Suits (family (key m)) (op m))
    (hstep : ∀ (m : ℕ) call s, m < ops.toNat → asked (key m) call = some (op m) → Tidy s → Made m s →
      (∀ name ∈ measured, Hits value name (call.execute s).1) ∧ Made (m + 1) (call.execute s).2) :
    Served value (numbered measured arguments keyPrefix ops)
      (fun s => Tidy s ∧ Made 0 s) (fun s => Tidy s ∧ Made ops.toNat s) := by
  refine @Script.loop _ _ _ _ Call.execute Sent.Asks (Sent.Hits value)
    (fun m : ℕ => ⟨measured, arguments keyPrefix m⟩) (fun m s => Tidy s ∧ Made m s) ops.toNat
    fun m hm => .single fun call s hcall hs => ?_
  have h : asked (key m) call = some (op m) := by
    obtain ⟨now, request⟩ := call
    cases hcall
    exact hasks m now
  obtain ⟨hhits, hmade⟩ := hstep m call s hm h hs.1 hs.2
  exact ⟨hhits, hs.1.execute (hsuits m) h, hmade⟩

theorem keyed_ne {front : Bytes} {m n : ℕ} (h : m ≠ n) :
    front ++ intDecimal m ≠ front ++ intDecimal n := by
  intro heq
  have hread := readSigned_eq_iff.mpr (signedDecimal_intDecimal m)
  rw [List.append_cancel_left heq, readSigned_eq_iff.mpr (signedDecimal_intDecimal n)] at hread
  simp only [Option.some.injEq, Prod.mk.injEq, Nat.cast_inj, and_true] at hread
  exact h hread.symm

theorem eq_of_getD {measured : Option CommandName} {name command : CommandName}
    (h : measured.getD command = command) (hname : name ∈ measured) : name = command := by
  cases hname
  exact h

section Rows
variable {value keyPrefix : Bytes} {ops : ℤ}

/-- The keys of the numbers up to a bound hold the value. -/
def Filled (value front : Bytes) (n : ℕ) (s : Session) : Prop :=
  ∀ m < n, Holds (front ++ intDecimal m) value s

theorem holds_other {key key' : Bytes} {call : Call} {op : Op} {s : Session}
    (h : asked key call = some op) (hother : key' ≠ key) (hs : Holds key' value s) :
    Holds key' value (call.execute s).2 :=
  (cell_other h hother).trans hs

theorem set_served {measured : Option CommandName} {front : Bytes}
    (hmeasured : measured.getD .set = .set)
    (hfamily : ∀ m : ℕ, family (front ++ keyPrefix ++ intDecimal m) = .strings) :
    Served value
      (numbered measured (fun p i => [text "SET", front ++ p ++ intDecimal i, value]) keyPrefix ops)
      Tidy (fun s => Tidy s ∧ Filled value (front ++ keyPrefix) ops.toNat s) := by
  refine (@numbered_served value keyPrefix measured ops _
    (fun m : ℕ => front ++ keyPrefix ++ intDecimal m) (fun _ => .set value)
    (Filled value (front ++ keyPrefix))
    (fun m now => @asked_words _ _ now .set [_, _] rfl)
    (fun m => by rw [hfamily m]; exact suits_strings _) ?_).mono
    (fun s hs => ⟨hs, fun m hm => absurd hm m.not_lt_zero⟩) (fun s hs => hs)
  intro m call s hm h hs hfilled
  obtain ⟨hreply, hholds⟩ := @set_asked _ _ s _ h
  refine ⟨fun name hname => ?_, fun j hj => ?_⟩
  · rw [eq_of_getD hmeasured hname]
    exact hreply
  · by_cases hjm : j = m
    · rw [hjm]
      exact hholds
    · exact holds_other h (keyed_ne hjm) (hfilled j (by omega))

theorem get_served :
    Served value
      (numbered (some .get) (fun p i => [text "GET", text "key:" ++ p ++ intDecimal i]) keyPrefix ops)
      (fun s => Tidy s ∧ Filled value (text "key:" ++ keyPrefix) ops.toNat s) Tidy := by
  refine (@numbered_served value keyPrefix (some .get) ops _
    (fun m : ℕ => text "key:" ++ keyPrefix ++ intDecimal m) (fun _ => .get)
    (fun _ => Filled value (text "key:" ++ keyPrefix) ops.toNat)
    (fun m now => @asked_words _ _ now .get [_] rfl) (fun m => suits_strings _) ?_).mono
    (fun s hs => hs) (fun s hs => hs.1)
  intro m call s hm h hs hfilled
  obtain ⟨hreply, hholds⟩ := get_asked h (hfilled m hm)
  refine ⟨fun name hname => ?_, fun j hj => ?_⟩
  · cases hname
    exact hreply
  · by_cases hjm : j = m
    · rw [hjm]
      exact hholds
    · exact holds_other h (keyed_ne hjm) (hfilled j hj)

theorem del_served :
    Served value
      (numbered (some .del) (fun p i => [text "DEL", text "del:" ++ p ++ intDecimal i]) keyPrefix ops)
      (fun s => Tidy s ∧ Filled value (text "del:" ++ keyPrefix) ops.toNat s) Tidy := by
  refine (@numbered_served value keyPrefix (some .del) ops _
    (fun m : ℕ => text "del:" ++ keyPrefix ++ intDecimal m) (fun _ => .del)
    (fun m s => ∀ j, m ≤ j → j < ops.toNat → Holds (text "del:" ++ keyPrefix ++ intDecimal j) value s)
    (fun m now => @asked_words _ _ now .del [_] rfl) (fun m => suits_strings _) ?_).mono
    (fun s hs => ⟨hs.1, fun j _ hj => hs.2 j hj⟩) (fun s hs => hs.1)
  intro m call s hm h hs hleft
  refine ⟨fun name hname => ?_, fun j hmj hj => ?_⟩
  · cases hname
    exact del_asked h (hleft m le_rfl hm)
  · have hjm : j ≠ m := by omega
    exact holds_other h (keyed_ne hjm) (hleft j (by omega) hj)

/-- How many of the first numbers go to a list. -/
def share (n r : ℕ) : ℕ := Nat.count (fun m => m % 64 = r) n

theorem share_succ (m r : ℕ) : share (m + 1) r = share m r + if m % 64 = r then 1 else 0 :=
  Nat.count_succ _ m

theorem share_lt {m n : ℕ} (h : m < n) : share m (m % 64) < share n (m % 64) :=
  Nat.count_strict_mono rfl h

/-- Each list begins with a number of copies of the value. -/
def Stocked (value front : Bytes) (copies : ℕ → ℕ) (s : Session) : Prop :=
  ∀ r : ℕ, ∃ l, Shows lists (front ++ intDecimal r) s (List.replicate (copies r) value ++ l)

theorem lpush_served {measured : Option CommandName} {front : Bytes}
    (hmeasured : measured.getD .lpush = .lpush)
    (hfamily : ∀ m : ℕ, family (front ++ keyPrefix ++ intDecimal m) = .lists) :
    Served value
      (numbered measured
        (fun p i => [text "LPUSH", front ++ p ++ intDecimal (i.tmod 64), value]) keyPrefix ops)
      Tidy (fun s => Tidy s ∧ Stocked value (front ++ keyPrefix) (share ops.toNat) s) := by
  refine (@numbered_served value keyPrefix measured ops _
    (fun m : ℕ => front ++ keyPrefix ++ intDecimal ((m % 64 : ℕ) : ℤ)) (fun _ => .push .left value)
    (fun m => Stocked value (front ++ keyPrefix) (share m))
    (fun m now => @asked_words _ _ now .lpush [_, _] rfl)
    (fun m => by rw [hfamily]; exact suits_push value) ?_).mono (fun s hs => ⟨hs, fun r => ?_⟩)
    (fun s hs => hs)
  · intro m call s hm h hs hstocked
    obtain ⟨l, hl⟩ := hstocked (m % 64)
    obtain ⟨hreply, hshows⟩ := push_asked h hl
    refine ⟨fun name hname => ?_, fun r => ?_⟩
    · rw [eq_of_getD hmeasured hname]
      exact ⟨_, Nat.succ_pos _, hreply⟩
    · by_cases hr : m % 64 = r
      · subst hr
        refine ⟨l, ?_⟩
        rwa [share_succ, if_pos rfl]
      · obtain ⟨l', hl'⟩ := hstocked r
        refine ⟨l', ?_⟩
        rw [share_succ, if_neg hr]
        exact shows_other h (keyed_ne (Ne.symm hr)) hl'
  · have husable := hs (front ++ keyPrefix ++ intDecimal r)
    rwa [hfamily] at husable

theorem lpop_served :
    Served value
      (numbered (some .lpop)
        (fun p i => [text "LPOP", text "poplist:" ++ p ++ intDecimal (i.tmod 64)]) keyPrefix ops)
      (fun s => Tidy s ∧ Stocked value (text "poplist:" ++ keyPrefix) (share ops.toNat) s) Tidy := by
  refine (@numbered_served value keyPrefix (some .lpop) ops _
    (fun m : ℕ => text "poplist:" ++ keyPrefix ++ intDecimal ((m % 64 : ℕ) : ℤ))
    (fun _ => .pop .left)
    (fun m => Stocked value (text "poplist:" ++ keyPrefix) fun r => share ops.toNat r - share m r)
    (fun m now => @asked_words _ _ now .lpop [_] rfl) (fun m => suits_pop) ?_).mono
    (fun s hs => hs) (fun s hs => hs.1)
  intro m call s hm h hs hstocked
  obtain ⟨l, hl⟩ := hstocked (m % 64)
  have hless := share_lt hm
  have hcopies : share ops.toNat (m % 64) - share m (m % 64) =
      (share ops.toNat (m % 64) - share (m + 1) (m % 64)) + 1 := by
    rw [share_succ, if_pos rfl]
    omega
  dsimp only at hl
  rw [hcopies] at hl
  obtain ⟨hreply, hshows⟩ := pop_asked h hl
  refine ⟨fun name hname => ?_, fun r => ?_⟩
  · cases hname
    exact hreply
  · by_cases hr : m % 64 = r
    · subst hr
      exact ⟨l, hshows⟩
    · obtain ⟨l', hl'⟩ := hstocked r
      refine ⟨l', ?_⟩
      dsimp only
      rw [share_succ, if_neg hr]
      exact shows_other h (keyed_ne (Ne.symm hr)) hl'

def Fielded (value key : Bytes) (n : ℕ) (s : Session) : Prop :=
  ∃ fields, Shows hashes key s fields ∧
    ∀ m : ℕ, m < n → fields[text "field:" ++ intDecimal m]? = some value

theorem hset_served {measured : Option CommandName} (hmeasured : measured.getD .hset = .hset) :
    Served value
      (numbered measured
        (fun p i => [text "HSET", text "hash:" ++ p, text "field:" ++ intDecimal i, value])
        keyPrefix ops)
      Tidy (fun s => Tidy s ∧ Fielded value (text "hash:" ++ keyPrefix) ops.toNat s) := by
  refine (@numbered_served value keyPrefix measured ops _ (fun _ => text "hash:" ++ keyPrefix)
    (fun m : ℕ => .hset (text "field:" ++ intDecimal m) value)
    (Fielded value (text "hash:" ++ keyPrefix))
    (fun m now => @asked_words _ _ now .hset [_, _, _] rfl) (fun m => suits_hset _ _) ?_).mono
    (fun s hs => ⟨hs, ?_⟩) (fun s hs => hs)
  · rintro m call s hm h hs ⟨fields, hshows, hfields⟩
    obtain ⟨hreply, hnext⟩ := hset_asked h hshows
    refine ⟨fun name hname => ?_, _, hnext, fun j hj => ?_⟩
    · rw [eq_of_getD hmeasured hname]
      exact ⟨_, hreply⟩
    · by_cases hjm : j = m
      · rw [hjm]
        exact Std.ExtTreeMap.getElem?_insert_self
      · have hne : text "field:" ++ intDecimal m ≠ text "field:" ++ intDecimal j :=
          keyed_ne (Ne.symm hjm)
        exact ((getElem?_hashed (.hset _ value) fields _).trans (if_neg hne)).trans
          (hfields j (by omega))
  · obtain ⟨fields, hshows⟩ := hs (text "hash:" ++ keyPrefix)
    exact ⟨fields, hshows, fun m hm => absurd hm m.not_lt_zero⟩

theorem hget_served :
    Served value
      (numbered (some .hget)
        (fun p i => [text "HGET", text "hash:" ++ p, text "field:" ++ intDecimal i]) keyPrefix ops)
      (fun s => Tidy s ∧ Fielded value (text "hash:" ++ keyPrefix) ops.toNat s) Tidy := by
  refine (@numbered_served value keyPrefix (some .hget) ops _ (fun _ => text "hash:" ++ keyPrefix)
    (fun m : ℕ => .hget (text "field:" ++ intDecimal m))
    (fun _ => Fielded value (text "hash:" ++ keyPrefix) ops.toNat)
    (fun m now => @asked_words _ _ now .hget [_, _] rfl) (fun m => suits_hget _) ?_).mono
    (fun s hs => hs) (fun s hs => hs.1)
  rintro m call s hm h hs ⟨fields, hshows, hfields⟩
  obtain ⟨hreply, hnext⟩ := hget_asked h hshows
  refine ⟨fun name hname => ?_, fields, hnext, hfields⟩
  cases hname
  rw [hreply, hfields m hm]
  rfl

def Joined (key : Bytes) (n : ℕ) (s : Session) : Prop :=
  ∃ members, Shows sets key s members ∧
    ∀ m : ℕ, m < n → members.contains (text "member:" ++ intDecimal m) = true

theorem sadd_served {measured : Option CommandName} (hmeasured : measured.getD .sadd = .sadd) :
    Served value
      (numbered measured
        (fun p i => [text "SADD", text "set:" ++ p, text "member:" ++ intDecimal i]) keyPrefix ops)
      Tidy (fun s => Tidy s ∧ Joined (text "set:" ++ keyPrefix) ops.toNat s) := by
  refine (@numbered_served value keyPrefix measured ops _ (fun _ => text "set:" ++ keyPrefix)
    (fun m : ℕ => .sadd (text "member:" ++ intDecimal m)) (Joined (text "set:" ++ keyPrefix))
    (fun m now => @asked_words _ _ now .sadd [_, _] rfl) (fun m => suits_sadd _) ?_).mono
    (fun s hs => ⟨hs, ?_⟩) (fun s hs => hs)
  · rintro m call s hm h hs ⟨members, hshows, hmembers⟩
    obtain ⟨hreply, hnext⟩ := sadd_asked h hshows
    refine ⟨fun name hname => ?_, _, hnext, fun j hj => ?_⟩
    · rw [eq_of_getD hmeasured hname]
      exact ⟨_, hreply⟩
    · rw [Std.ExtTreeSet.contains_insert]
      by_cases hjm : j = m
      · simp [hjm]
      · simp [hmembers j (by omega)]
  · obtain ⟨members, hshows⟩ := hs (text "set:" ++ keyPrefix)
    exact ⟨members, hshows, fun m hm => absurd hm m.not_lt_zero⟩

theorem sismember_served :
    Served value
      (numbered (some .sismember)
        (fun p i => [text "SISMEMBER", text "set:" ++ p, text "member:" ++ intDecimal i])
        keyPrefix ops)
      (fun s => Tidy s ∧ Joined (text "set:" ++ keyPrefix) ops.toNat s) Tidy := by
  refine (@numbered_served value keyPrefix (some .sismember) ops _ (fun _ => text "set:" ++ keyPrefix)
    (fun m : ℕ => .sismember (text "member:" ++ intDecimal m))
    (fun _ => Joined (text "set:" ++ keyPrefix) ops.toNat)
    (fun m now => @asked_words _ _ now .sismember [_, _] rfl) (fun m => suits_sismember _) ?_).mono
    (fun s hs => hs) (fun s hs => hs.1)
  rintro m call s hm h hs ⟨members, hshows, hmembers⟩
  obtain ⟨hreply, hnext⟩ := sismember_asked h hshows
  refine ⟨fun name hname => ?_, members, hnext, hmembers⟩
  have hmember := hmembers m hm
  rw [Std.ExtTreeSet.contains_iff_mem, ← Std.ExtTreeSet.mem_toList] at hmember
  cases hname
  rw [hreply, decide_eq_true hmember]
  rfl

theorem Benchmark.served {options : Options} {b : Benchmark} {Ready : Bytes → Session → Prop}
    (hsetup : ∀ p, Served value (b.setup.elim [] fun setup => numbered none setup p options.ops)
      Tidy (fun s => Tidy s ∧ Ready p s))
    (hrequest : ∀ p, Served value (numbered (some b.name) b.request p options.ops)
      (fun s => Tidy s ∧ Ready p s) Tidy) :
    Served value ((b.loops options).flatMap Loop.sent) Tidy Tidy := by
  have hseeding (p : Bytes) : (b.seeding p options).flatMap Loop.sent =
      b.setup.elim [] fun setup => numbered none setup p options.ops := by
    rw [Benchmark.seeding]
    cases b.setup with
    | none => rfl
    | some setup => exact List.flatMap_singleton ..
  rw [Benchmark.loops, List.flatMap_append, List.flatMap_append, List.flatMap_append, hseeding,
    hseeding, List.flatMap_singleton, List.flatMap_singleton]
  exact (((hsetup _).append (hrequest _)).append (hsetup _)).append (hrequest _)

theorem Benchmark.served_unseeded {options : Options} {b : Benchmark} {Made : Bytes → Session → Prop}
    (hsetup : b.setup = none)
    (hrequest : ∀ p, Served value (numbered (some b.name) b.request p options.ops)
      Tidy (fun s => Tidy s ∧ Made p s)) :
    Served value ((b.loops options).flatMap Loop.sent) Tidy Tidy := by
  refine @Benchmark.served value options b (fun _ _ => True) (fun p => ?_) (fun p => ?_)
  · rw [hsetup]
    exact Script.nil.mono (fun s hs => hs) fun s hs => ⟨hs, trivial⟩
  · exact (hrequest p).mono (fun s hs => hs.1) fun s hs => hs.1

theorem warmup_served :
    Served value (numbered none (fun _ _ => [text "PING"]) keyPrefix ops) Tidy Tidy := by
  refine @Script.loop _ _ _ _ Call.execute Sent.Asks (Sent.Hits value) _ (fun _ => Tidy) ops.toNat
    fun m _ => .single fun call s hcall hs => ?_
  refine ⟨fun name hname => (by cases hname), fun key => usable_of_cell ?_ (hs key)⟩
  obtain ⟨now, request⟩ := call
  cases hcall
  exact cell_of_asks_none rfl s

theorem table_served (options : Options) {b : Benchmark} (hb : b ∈ buildBenchmarks options) :
    Served (List.replicate options.valueSize (byte 'x')) ((b.loops options).flatMap Loop.sent)
      Tidy Tidy := by
  simp only [buildBenchmarks, List.mem_cons, List.not_mem_nil, or_false] at hb
  rcases hb with rfl | rfl | rfl | rfl | rfl | rfl | rfl | rfl | rfl
  · exact Benchmark.served_unseeded rfl fun p => set_served rfl fun m => rfl
  · exact Benchmark.served (fun p => set_served rfl fun m => rfl) fun p => get_served
  · exact Benchmark.served (fun p => set_served rfl fun m => rfl) fun p => del_served
  · exact Benchmark.served_unseeded rfl fun p => lpush_served rfl fun m => rfl
  · exact Benchmark.served (fun p => lpush_served rfl fun m => rfl) fun p => lpop_served
  · exact Benchmark.served_unseeded rfl fun p => hset_served rfl
  · exact Benchmark.served (fun p => hset_served rfl) fun p => hget_served
  · exact Benchmark.served_unseeded rfl fun p => sadd_served rfl
  · exact Benchmark.served (fun p => sadd_served rfl) fun p => sismember_served

theorem main_served (options : Options) :
    Served (List.replicate options.valueSize (byte 'x')) ((main options).flatMap Loop.sent)
      Tidy Tidy := by
  rw [main, List.flatMap_cons, List.flatMap_assoc]
  exact (@warmup_served _ (text "warmup") 2000).append
    (.flatMap fun b hb => table_served options (List.mem_filter.mp hb).1)

end Rows

theorem tidy_empty (log : AppendLog.Log) : Tidy ⟨{}, log⟩ := by
  intro key
  have hcell : Store.cell {} key = ⟨none, none⟩ := by simp [Store.cell]
  cases family key with
  | strings => trivial
  | lists => exact ⟨[], none, hcell, rfl⟩
  | hashes => exact ⟨∅, none, hcell, rfl⟩
  | sets => exact ⟨∅, none, hcell, rfl⟩

theorem trace_serve {Client : Type} (calls : List (Client × Call)) (s : Session) :
    (trace serve calls s).map Round.output =
      (trace Call.execute (calls.map Prod.snd) s).map Round.output := by
  induction calls generalizing s with
  | nil => rfl
  | cons call calls ih => exact congrArg (_ :: ·) (ih _)

/-- Among the requests of other clients on other keys the first of the requests hit as they do alone. -/
theorem served_among {value : Bytes} {items : List Sent} {P Q : Session → Prop}
    (hserved : Served value items P Q) {Client : Type} [DecidableEq Client] {c : Client}
    {calls : List (Client × Call)}
    (hsent : (callsOf c calls).map (fun call => call.2.request) <+:
      items.map fun item => asRequest item.arguments)
    (hothers : ∀ c', c' ≠ c →
      List.Disjoint (namedKeys (callsOf c calls)) (namedKeys (callsOf c' calls)))
    {s : Session} (hs : P s) :
    List.Forall₂ (Sent.Hits value) (items.take (callsOf c calls).length) (repliesTo c calls s) := by
  rw [List.prefix_iff_eq_take, List.length_map, ← List.map_take, ← List.forall₂_eq_eq_eq,
    List.forall₂_map_left_iff, List.forall₂_map_right_iff] at hsent
  have hasked : List.Forall₂ Sent.Asks (items.take (callsOf c calls).length)
      ((callsOf c calls).map Prod.snd) := List.forall₂_map_right_iff.mpr hsent.flip
  have hhits := hserved.brokenOff
    (fun item => ⟨⟨.once 0 0, asRequest item.arguments⟩, rfl⟩) (List.take_prefix _ _) hasked hs
  rw [(independent hothers s).replies, trace_serve]
  exact List.forall₂_map_right_iff.mpr hhits

/-- As long as the other clients name other keys, every measured request of the program gets the reply
that it is about, however far the program has come and in whatever way the requests of the others come
between. -/
theorem measured_requests_hit (options : Options) {Client : Type} [DecidableEq Client] {c : Client}
    {calls : List (Client × Call)}
    (hsent : (callsOf c calls).map (fun call => call.2.request) <+:
      ((main options).flatMap Loop.sent).map fun item => asRequest item.arguments)
    (hothers : ∀ c', c' ≠ c →
      List.Disjoint (namedKeys (callsOf c calls)) (namedKeys (callsOf c' calls)))
    {s : Session} (hs : Tidy s) :
    List.Forall₂ (fun item reply => ∀ name ∈ item.measured,
        Hits (List.replicate options.valueSize (byte 'x')) name reply)
      (((main options).flatMap Loop.sent).take (callsOf c calls).length) (repliesTo c calls s) :=
  served_among (main_served options) hsent hothers hs

/-- A short run of the program, with a request of another client after each of its own. -/
theorem short_benchmark_hits :
    let options : Options := { ops := 2, valueSize := 3 }
    let sent := (main options).flatMap Loop.sent
    let calls := sent.flatMap fun item =>
      [(true, (⟨.once 0 0, asRequest item.arguments⟩ : Call)), (false, callOf ["PING"])]
    List.Forall₂ (fun item reply => ∀ name ∈ item.measured, Hits (text "xxx") name reply)
      (sent.take (callsOf true calls).length) (repliesTo true calls ⟨{}, none⟩) := by
  intro options sent calls
  have hown : callsOf true calls =
      sent.map fun item => (true, (⟨.once 0 0, asRequest item.arguments⟩ : Call)) := by
    simp only [callsOf, calls, List.filter_flatMap, List.filter_cons, List.filter_nil]
    exact List.flatMap_pure_eq_map _ _
  have hothers : namedKeys (callsOf false calls) = [] := by
    refine List.filterMap_eq_nil_iff.mpr fun call hcall => ?_
    obtain ⟨hmem, hfalse⟩ := List.mem_filter.mp hcall
    obtain ⟨item, -, hitem⟩ := List.mem_flatMap.mp hmem
    rcases List.mem_pair.mp hitem with rfl | rfl
    · simp at hfalse
    · rfl
  refine measured_requests_hit options ?_ (fun c' hc' => ?_) (tidy_empty none)
  · rw [hown, List.map_map]
    exact List.prefix_refl _
  · obtain rfl : c' = false := by simpa using hc'
    rw [hothers]
    exact List.disjoint_nil_right _

end RedisLite.BenchmarkProgram
