import RedisLite.RespRoundTrip
import RedisLite.RespStability
import RedisLite.CommandErrors

/-!
# Reply framing

Every reply but one is canonical and at most two levels deep, so it is one RESP value on the wire
and a client that parses the stream of replies reads them back. The exception is the error for an
unknown command, which repeats the name as the client sent it: with a CR or LF in the name, its line
ends early.
-/

namespace RedisLite.Keyspace
open ByteStrings

def Value.Fits : Value → Prop
  | .string s => FitsMemory s
  | .list l => (l.length : ℤ) < maxInt64 ∧ ∀ x ∈ l, FitsMemory x
  | .hash h => (h.size : ℤ) ≤ maxInt64 ∧ ∀ (field value : Bytes), h[field]? = some value →
      FitsMemory value
  | .set s => (s.size : ℤ) ≤ maxInt64 ∧ ∀ m ∈ s, FitsMemory m

structure Cell.Fits (c : Cell) : Prop where
  value : ∀ v, c.value = some v → v.Fits
  deadline : ∀ d, c.deadline = some d → InInt64 d

/-- A store that a program can hold: sizes and deadlines are 64-bit numbers. -/
def Store.Fits (s : Store) : Prop := ∀ key, (s.cell key).Fits

theorem Cell.Fits.live {c : Cell} (h : c.Fits) (now : ℤ) : (c.live now).Fits := by
  unfold Cell.live
  split
  · exact ⟨nofun, nofun⟩
  · exact h

end RedisLite.Keyspace

namespace RedisLite.Operations
open ByteStrings IncrementalDecoding Resp Keyspace AppendLog Commands

/-- Readings of a clock that counts nanoseconds in a signed 64-bit integer. -/
def Representable (now : Readings) : Prop := InInt64 now.first ∧ InInt64 now.second

def Framed (reply : RespValue) : Prop := Canonical reply ∧ reply.depth ≤ 2

theorem Framed.parse {reply : RespValue} (h : Framed reply) (t : Bytes) :
    parse (serialize reply ++ t) = .ok reply (serialize reply).length :=
  parse_canonical h.1 (h.2.trans (by decide)) t

theorem framed_simpleString {s : Bytes} (hcr : cr ∉ s) (hlf : lf ∉ s) :
    Framed (makeSimpleString s) := ⟨.simpleString hcr hlf, Nat.le_succ 1⟩

theorem framed_error {s : Bytes} (hcr : cr ∉ s) (hlf : lf ∉ s) : Framed (makeError s) :=
  ⟨.error hcr hlf, Nat.le_succ 1⟩

theorem framed_integer {n : ℤ} (h : InInt64 n) : Framed (makeInteger n) :=
  ⟨.integer h, Nat.le_succ 1⟩

theorem framed_flag (b : Bool) : Framed (makeFlag b) := by
  cases b <;> exact framed_integer (by decide)

theorem framed_bulkString {s : Bytes} (h : FitsMemory s) : Framed (makeBulkString s) :=
  ⟨.bulkString h, Nat.le_succ 1⟩

theorem framed_null : Framed makeNullBulkString := ⟨.nullBulkString, by decide⟩

theorem depthElements_bulkStrings (xs : List Bytes) : depthElements (xs.map makeBulkString) ≤ 1 := by
  induction xs with
  | nil => exact Nat.zero_le _
  | cons x xs ih => exact max_le (Nat.le_refl 1) ih

theorem framed_bulkStrings {xs : List Bytes} (hlen : (xs.length : ℤ) ≤ maxInt64)
    (h : ∀ x ∈ xs, FitsMemory x) : Framed (makeArray (xs.map makeBulkString)) := by
  refine ⟨.array (by simpa using hlen) (fun e he => ?_), ?_⟩
  · obtain ⟨x, hx, rfl⟩ := List.mem_map.mp he
    exact .bulkString (h x hx)
  · rw [depth_makeArray]
    have := depthElements_bulkStrings xs
    omega

theorem framed_emptyArray : Framed (makeArray []) :=
  ⟨.array (by decide) nofun, Nat.le_succ 1⟩

theorem framed_size {n : ℕ} (h : (n : ℤ) ≤ maxInt64) : Framed (makeInteger n) :=
  framed_integer ⟨by unfold minInt64; omega, h⟩

theorem framed_wrongType : Framed wrongType := framed_error (by decide) (by decide)

theorem inInt64_ceilSeconds {a b : ℤ} (ha : InInt64 a) (hb : InInt64 b) :
    InInt64 (ceilSeconds (a - b)) := by
  have habs : ((a - b).tdiv nanosPerSecond).natAbs = (a - b).natAbs / 1000000000 :=
    Int.natAbs_tdiv _ _
  simp only [InInt64, minInt64, maxInt64] at ha hb ⊢
  unfold ceilSeconds toSeconds
  dsimp only
  split <;> omega

section Typed
variable {α : Type} {getIf : Value → Option α} {found : α → Decision} {c : Cell}
  (hfound : ∀ v x, c.value = some v → getIf v = some x → Framed (found x).reply)
include hfound

theorem reading_framed {missing : RespValue} (hmissing : Framed missing) :
    Framed (reading getIf missing found c).reply := by
  unfold reading
  cases hvalue : c.value with
  | none => exact hmissing
  | some v =>
    dsimp only
    cases hx : getIf v with
    | none => exact framed_wrongType
    | some x => exact hfound v x hvalue hx

theorem writing_framed {empty : α} (hempty : Framed (found empty).reply) :
    Framed (writing getIf empty found c).reply := by
  unfold writing
  cases hvalue : c.value with
  | none => exact hempty
  | some v =>
    dsimp only
    cases hx : getIf v with
    | none => exact framed_wrongType
    | some x => exact hfound v x hvalue hx

end Typed

theorem string?_fits {v : Value} {s : Bytes} (h : v.Fits) (hv : v.string? = some s) :
    FitsMemory s := by
  cases v <;> cases hv
  exact h

theorem list?_fits {v : Value} {l : ListValue} (h : v.Fits) (hv : v.list? = some l) :
    (l.length : ℤ) < maxInt64 ∧ ∀ x ∈ l, FitsMemory x := by
  cases v <;> cases hv
  exact h

theorem hash?_fits {v : Value} {m : HashValue} (h : v.Fits) (hv : v.hash? = some m) :
    (m.size : ℤ) ≤ maxInt64 ∧ ∀ (field value : Bytes), m[field]? = some value →
      FitsMemory value := by
  cases v <;> cases hv
  exact h

theorem set?_fits {v : Value} {s : SetValue} (h : v.Fits) (hv : v.set? = some s) :
    (s.size : ℤ) ≤ maxInt64 ∧ ∀ m ∈ s, FitsMemory m := by
  cases v <;> cases hv
  exact h

theorem fitsMemory_getD {l : ListValue} (h : ∀ x ∈ l, FitsMemory x) (i : ℕ) :
    FitsMemory (l.getD i []) := by
  rw [List.getD_eq_getElem?_getD]
  cases hx : l[i]? with
  | none => exact (by decide : (0 : ℤ) ≤ maxInt64)
  | some x => exact h x (List.mem_of_getElem? hx)

theorem framed_lrange {l : ListValue} (hlen : (l.length : ℤ) < maxInt64)
    (h : ∀ x ∈ l, FitsMemory x) (start stop : ℤ) : Framed (lrangeReply start stop l) := by
  have hmap : lrangeReply start stop l = makeArray
      (((List.range (min ((l.length : ℤ) - 1) (absoluteIndex stop l.length) + 1 -
        max 0 (absoluteIndex start l.length)).toNat).map
          (fun (i : ℕ) => l.getD (max 0 (absoluteIndex start l.length) + i).toNat [])).map
            makeBulkString) := by
    rw [List.map_map]
    rfl
  rw [hmap]
  refine framed_bulkStrings ?_ (fun x hx => ?_)
  · rw [List.length_map, List.length_range]
    omega
  · obtain ⟨i, -, rfl⟩ := List.mem_map.mp hx
    exact fitsMemory_getD h _

theorem side_push_length (side : Side) (x : Bytes) (l : ListValue) :
    (side.push x l).length = l.length + 1 := by
  cases side <;> simp [Side.push]

theorem side_pop_mem {side : Side} {l rest : ListValue} {x : Bytes}
    (h : side.pop l = some (x, rest)) : x ∈ l := by
  cases side with
  | left =>
    obtain ⟨y, hy, heq⟩ := Option.map_eq_some_iff.mp h
    cases heq
    exact List.mem_of_head? hy
  | right =>
    obtain ⟨y, hy, heq⟩ := Option.map_eq_some_iff.mp h
    cases heq
    exact List.mem_of_getLast? hy

theorem decide_framed {now : Readings} (hnow : Representable now) (key : Bytes) (op : Op)
    {c : Cell} (hc : c.Fits) : Framed (op.decide now key c).reply := by
  have hzero : Framed (makeInteger 0) := framed_integer (by decide)
  cases op <;> simp only [Op.decide]
  case del => exact framed_flag _
  case expire seconds =>
    split
    · exact hzero
    · split <;> exact framed_integer (by decide)
  case ttl =>
    split
    · exact framed_integer (by decide)
    · cases hd : c.deadline with
      | none => exact framed_integer (by decide)
      | some d => exact framed_integer (inInt64_ceilSeconds (hc.deadline d hd) hnow.2)
  case set value => exact framed_simpleString (by decide) (by decide)
  case get =>
    refine reading_framed (fun v s hv hs => ?_) framed_null
    exact framed_bulkString (string?_fits (hc.value v hv) hs)
  case push side x =>
    refine writing_framed (fun v l hv hl => ?_) ?_
    · have := (list?_fits (hc.value v hv) hl).1
      refine framed_size ?_
      rw [side_push_length]
      push_cast
      omega
    · refine framed_size ?_
      rw [side_push_length]
      decide
  case pop side =>
    refine reading_framed (fun v l hv hl => ?_) framed_null
    cases hpop : side.pop l with
    | none => exact framed_null
    | some p => exact framed_bulkString ((list?_fits (hc.value v hv) hl).2 _ (side_pop_mem hpop))
  case llen =>
    refine reading_framed (fun v l hv hl => ?_) hzero
    exact framed_size (list?_fits (hc.value v hv) hl).1.le
  case lrange start stop =>
    refine reading_framed (fun v l hv hl => ?_) framed_emptyArray
    obtain ⟨hlen, hmem⟩ := list?_fits (hc.value v hv) hl
    exact framed_lrange hlen hmem start stop
  case hset field value =>
    exact writing_framed (fun _ _ _ _ => framed_flag _) (framed_flag _)
  case hget field =>
    refine reading_framed (fun v h hv hh => ?_) framed_null
    cases hvalue : h[field]? with
    | none => exact framed_null
    | some value => exact framed_bulkString ((hash?_fits (hc.value v hv) hh).2 _ _ hvalue)
  case hdel field =>
    refine reading_framed (fun v h hv hh => ?_) hzero
    split <;> exact framed_integer (by decide)
  case hexists field => exact reading_framed (fun _ _ _ _ => framed_flag _) hzero
  case hlen =>
    refine reading_framed (fun v h hv hh => ?_) hzero
    exact framed_size (hash?_fits (hc.value v hv) hh).1
  case sadd member =>
    refine writing_framed (fun v s hv hs => ?_) ?_
    · split <;> exact framed_integer (by decide)
    · split <;> exact framed_integer (by decide)
  case srem member =>
    refine reading_framed (fun v s hv hs => ?_) hzero
    split <;> exact framed_integer (by decide)
  case sismember member => exact reading_framed (fun _ _ _ _ => framed_flag _) hzero
  case scard =>
    refine reading_framed (fun v s hv hs => ?_) hzero
    exact framed_size (set?_fits (hc.value v hv) hs).1
  case smembers =>
    refine reading_framed (fun v s hv hs => ?_) framed_emptyArray
    obtain ⟨hsize, hmem⟩ := set?_fits (hc.value v hv) hs
    refine framed_bulkStrings ?_ (fun x hx => hmem x ?_)
    · rw [Std.ExtTreeSet.length_toList]
      exact hsize
    · exact Std.ExtTreeSet.mem_toList.mp hx

theorem interpretArgs_framed {now : Readings} {command : CommandName} {args : List Bytes}
    {reply : RespValue} (h : interpretArgs now command args = .error reply) : Framed reply := by
  have hinteger : Framed notAnInteger := framed_error (by decide) (by decide)
  cases command
  case expire =>
    have harity : Framed (wrongArity "expire") := framed_error (by decide) (by decide)
    rcases args with _ | ⟨key, _ | ⟨amount, _ | ⟨extra, rest⟩⟩⟩
    · cases h
      exact harity
    · cases h
      exact harity
    · simp only [interpretArgs] at h
      split at h
      · cases h
        exact hinteger
      · split at h
        · cases h
          exact hinteger
        · cases h
    · cases h
      exact harity
  case lrange =>
    have harity : Framed (wrongArity "lrange") := framed_error (by decide) (by decide)
    rcases args with _ | ⟨key, _ | ⟨first, _ | ⟨last, _ | ⟨extra, rest⟩⟩⟩⟩
    · cases h
      exact harity
    · cases h
      exact harity
    · cases h
      exact harity
    · simp only [interpretArgs] at h
      split at h
      · cases h
      · cases h
        exact hinteger
    · cases h
      exact harity
  -- the other commands are only refused for the number of their arguments
  all_goals
    rcases args with _ | ⟨a, _ | ⟨b, _ | ⟨c, _ | ⟨d, rest⟩⟩⟩⟩
    all_goals first
      | cases h; done
      | cases h; exact framed_error (by decide) (by decide)

/-- An unknown command whose name ends a line. -/
def BreaksLine (request : RespValue) : Prop :=
  ∃ name args, requestWords request = some (name :: args) ∧ commandNamed (toUpper name) = none ∧
    (cr ∈ name ∨ lf ∈ name)

theorem executeCommand_framed {now : Readings} (hnow : Representable now) {request : RespValue}
    {s : Session} (hs : s.store.Fits) (h : ¬ BreaksLine request) :
    Framed (executeCommand now request s).1 := by
  rw [executeCommand_refines]
  unfold interpret
  cases hwords : requestWords request with
  | none => exact framed_error (by decide) (by decide)
  | some words =>
    cases words with
    | nil => exact framed_error (by decide) (by decide)
    | cons name args =>
      dsimp only
      cases hname : commandNamed (toUpper name) with
      | none =>
        have hline : cr ∉ name ∧ lf ∉ name := by
          by_contra hbreak
          exact h ⟨name, args, hwords, hname, by tauto⟩
        refine framed_error ?_ ?_
        · simp only [List.mem_append, not_or]
          exact ⟨⟨by decide, hline.1⟩, by decide⟩
        · simp only [List.mem_append, not_or]
          exact ⟨⟨by decide, hline.2⟩, by decide⟩
      | some command =>
        dsimp only
        cases hargs : interpretArgs now command args with
        | error reply => exact interpretArgs_framed hargs
        | ok r =>
          cases r with
          | ping => exact framed_simpleString (by decide) (by decide)
          | on key op => exact decide_framed hnow key op ((hs key).live _)

theorem executeCommand_breaksLine (now : Readings) {request : RespValue} (s : Session)
    (h : BreaksLine request) :
    (executeCommand now request s).1.type = .error ∧
      (cr ∈ (executeCommand now request s).1.string ∨
        lf ∈ (executeCommand now request s).1.string) := by
  obtain ⟨name, args, hwords, hname, hline⟩ := h
  simp only [executeCommand, hwords, hname, unknownCommand, makeError, List.mem_append]
  tauto

theorem readLine_ok_line {input line : Bytes} {pos next : ℕ}
    (h : readLine input pos = .ok line next) : cr ∉ line ∧ lf ∉ line := by
  simp only [readLine] at h
  split at h
  · cases h
  · split at h
    · cases h
    · rename_i hline
      cases h
      exact not_or.mp hline

theorem parseBody_error {input line : Bytes} {element : ℕ → ParseResult} {type : RespType}
    {pos n : ℕ} {v : RespValue} (h : parseBody input element type line pos = .ok v n)
    (hv : v.type = .error) : v.string = line := by
  cases type with
  | simpleString => cases h; cases hv
  | error => cases h; rfl
  | integer =>
    simp only [parseBody] at h
    split at h
    · cases h
    · cases h; cases hv
  | bulkString =>
    simp only [parseBody] at h
    split at h
    · cases h
    · simp only [parseBulk] at h
      repeat' split at h
      all_goals cases h
      all_goals cases hv
  | array =>
    simp only [parseBody] at h
    split at h
    · cases h
    · simp only [parseArray] at h
      split at h
      · cases h; cases hv
      · split at h
        · cases h
        · obtain ⟨vs, -, rfl⟩ := map_eq_ok h
          cases hv

/-- A parsed error is one line. -/
theorem parse_error_line {x : Bytes} {v : RespValue} {n : ℕ} (h : parse x = .ok v n)
    (hv : v.type = .error) : cr ∉ v.string ∧ lf ∉ v.string := by
  obtain ⟨levels, hlevels⟩ : ∃ levels, kMaxDepth = levels + 1 := ⟨127, rfl⟩
  rw [parse, hlevels] at h
  simp only [parseValue] at h
  split at h
  · cases h
  split at h
  · cases h
  split at h
  · cases h
  · cases h
  · rename_i hline
    rw [parseBody_error h hv]
    exact readLine_ok_line hline

structure Execution where
  now : Readings
  request : RespValue
  session : Session
  representable : Representable now
  fits : session.store.Fits

def Execution.reply (e : Execution) : RespValue := (executeCommand e.now e.request e.session).1

theorem Execution.parse_reply (e : Execution) (h : ¬ BreaksLine e.request) (t : Bytes) :
    parse (serialize e.reply ++ t) = .ok e.reply (serialize e.reply).length :=
  (executeCommand_framed e.representable e.fits h).parse t

/-- No stream holds the reply to an unknown command that ends a line. -/
theorem Execution.not_parsed (e : Execution) (h : BreaksLine e.request) {x : Bytes} {n : ℕ} :
    parse x ≠ .ok e.reply n := by
  intro hparse
  obtain ⟨htype, hbreak⟩ := executeCommand_breaksLine e.now e.session h
  obtain ⟨hcr, hlf⟩ := parse_error_line hparse htype
  exact hbreak.elim hcr hlf

/-- A reply is framed, and a stream of replies is read back reply by reply, exactly when no request
names an unknown command with a CR or LF in its name. -/
theorem replies_framed (e : Execution) (t : Bytes) (es : List Execution) :
    (parse (serialize e.reply ++ t) = .ok e.reply (serialize e.reply).length ↔
      ¬ BreaksLine e.request) ∧
    (drain parse (es.flatMap (fun e => serialize e.reply)) = ⟨es.map Execution.reply, [], none⟩ ↔
      ∀ e ∈ es, ¬ BreaksLine e.request) := by
  refine ⟨⟨fun h hbreak => e.not_parsed hbreak h, fun h => e.parse_reply h t⟩,
    ⟨fun h e he hbreak => ?_, fun h => ?_⟩⟩
  · have hmem : e.reply ∈ (drain parse (es.flatMap (fun e => serialize e.reply))).values := by
      rw [h]
      exact List.mem_map_of_mem he
    have hline := drain_values parse_stable
      (P := fun v => v.type = .error → cr ∉ v.string ∧ lf ∉ v.string) parse_error_line _ _ hmem
    obtain ⟨htype, hends⟩ := executeCommand_breaksLine e.now e.session hbreak
    exact hends.elim (hline htype).1 (hline htype).2
  · have hreplies : ∀ v ∈ es.map Execution.reply, ∀ t,
        parse (serialize v ++ t) = .ok v (serialize v).length := by
      intro v hv t
      obtain ⟨e, he, rfl⟩ := List.mem_map.mp hv
      exact e.parse_reply (h e he) t
    have hdrain : drain parse ((es.map Execution.reply).flatMap serialize ++ []) = _ :=
      drain_flatMap parse_stable hreplies
    rwa [drain_incomplete parse_nil, List.append_nil, List.append_nil, List.flatMap_map] at hdrain

/-- The client that sends the name `A CR LF B` reads an error that ends before the `B`, and then
whatever the rest of the name looks like. -/
theorem unknown_name_splits_reply :
    ¬ ∀ (e : Execution) (t : Bytes), (∃ x n, parse x = .ok e.request n) →
      parse (serialize e.reply ++ t) = .ok e.reply (serialize e.reply).length := by
  intro h
  have hempty : Store.Fits {} := fun key => by
    constructor <;> simp [Store.cell]
  have hrequest : parse (text "*1\r\n$4\r\nA\r\nB\r\n") =
      .ok (makeArray [makeBulkString (text "A\r\nB")]) 14 := rfl
  have hreply : parse (serialize (executeCommand (.once 0 0)
      (makeArray [makeBulkString (text "A\r\nB")]) ⟨{}, none⟩).1 ++ []) =
        .ok (makeError (text "ERR unknown command 'A")) 25 := rfl
  have hlength : (serialize (executeCommand (.once 0 0)
      (makeArray [makeBulkString (text "A\r\nB")]) ⟨{}, none⟩).1).length = 29 := rfl
  have hframed := h ⟨.once 0 0, makeArray [makeBulkString (text "A\r\nB")], ⟨{}, none⟩,
    ⟨by decide, by decide⟩, hempty⟩ [] ⟨_, _, hrequest⟩
  rw [Execution.reply, hreply] at hframed
  injection hframed with _ hconsumed
  exact absurd (hconsumed.trans hlength) (by decide)

end RedisLite.Operations
