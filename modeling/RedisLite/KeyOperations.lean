import RedisLite.Commands
import RedisLite.KeyCells

/-!
# What a command means for its key

A request that passes its argument checks is `PING` or an operation on one key. An operation sees
the cell of its key free of a deadline that has passed; it gives the reply, says how the cell
changes and what the log records. Nothing here knows about lazy expiration, about the two maps or
about the bytes of the log.
-/

namespace RedisLite.Operations
open ByteStrings Resp Keyspace AppendLog Commands

inductive Side where
  | left | right
  deriving DecidableEq, Repr

def Side.push (side : Side) (x : Bytes) (l : ListValue) : ListValue :=
  match side with
  | .left => x :: l
  | .right => l ++ [x]

def Side.pop (side : Side) (l : ListValue) : Option (Bytes × ListValue) :=
  match side with
  | .left => l.head?.map (·, l.tail)
  | .right => l.getLast?.map (·, l.dropLast)

def Side.pushName : Side → CommandName
  | .left => .lpush
  | .right => .rpush

def Side.popName : Side → CommandName
  | .left => .lpop
  | .right => .rpop

inductive Op where
  | del
  | expire (seconds : ℤ)
  | ttl
  | set (value : Bytes)
  | get
  | push (side : Side) (x : Bytes)
  | pop (side : Side)
  | llen
  | lrange (start stop : ℤ)
  | hset (field value : Bytes)
  | hget (field : Bytes)
  | hdel (field : Bytes)
  | hexists (field : Bytes)
  | hlen
  | sadd (member : Bytes)
  | srem (member : Bytes)
  | sismember (member : Bytes)
  | scard
  | smembers
  deriving DecidableEq, Repr

def Op.arguments : Op → List Bytes
  | .set value => [value]
  | .push _ x => [x]
  | .hset field value => [field, value]
  | .hget field | .hdel field | .hexists field => [field]
  | .sadd member | .srem member | .sismember member => [member]
  | _ => []

/-- An operation that starts from an empty collection when the key is missing. -/
def Op.creates : Op → Bool
  | .push _ _ | .hset _ _ | .sadd _ => true
  | _ => false

inductive Change where
  | keep
  | put (value : Value)
  | replace (value : Value)
  | remove
  | expireAt (deadline : ℤ)

def Change.apply : Change → Cell → Cell
  | .keep, c => c
  | .put value, c => { c with value := some value }
  | .replace value, _ => ⟨some value, none⟩
  | .remove, _ => .missing
  | .expireAt deadline, c => { c with deadline := some deadline }

/-- A collection that lost an element goes away with its key when it is empty. -/
def shrunk (value : Value) : Change := if value.isEmpty then .remove else .put value

structure Decision where
  reply : RespValue
  change : Change
  record : Option LogRecord

def Decision.answer (reply : RespValue) : Decision := ⟨reply, .keep, none⟩

/-- An operation on a value of one type that leaves a missing key missing. -/
def reading {α : Type} (getIf : Value → Option α) (missing : RespValue) (found : α → Decision)
    (c : Cell) : Decision :=
  match c.value with
  | none => .answer missing
  | some value =>
    match getIf value with
    | none => .answer wrongType
    | some typed => found typed

/-- An operation on a value of one type that starts from an empty one when the key is missing. -/
def writing {α : Type} (getIf : Value → Option α) (empty : α) (found : α → Decision)
    (c : Cell) : Decision :=
  match c.value with
  | none => found empty
  | some value =>
    match getIf value with
    | none => .answer wrongType
    | some typed => found typed

def lrangeReply (start stop : ℤ) (l : ListValue) : RespValue :=
  makeArray (lrangeLoop l (max 0 (absoluteIndex start l.length))
    (min (l.length - 1) (absoluteIndex stop l.length)))

def logged (name : CommandName) (arguments : List Bytes) : Option LogRecord :=
  some (.command name.upper arguments)

def Op.decide (now : Readings) (key : Bytes) (op : Op) (c : Cell) : Decision :=
  match op with
  | .del => ⟨makeFlag c.value.isSome, .remove, if c.value.isSome then logged .del [key] else none⟩
  | .expire seconds =>
    if c.value.isNone then .answer (makeInteger 0)
    else if seconds ≤ 0 then ⟨makeInteger 1, .remove, logged .del [key]⟩
    else ⟨makeInteger 1, .expireAt (now.first + seconds * nanosPerSecond),
      some (.expire key (now.unix + seconds))⟩
  | .ttl =>
    if c.value.isNone then .answer (makeInteger (-2))
    else
      match c.deadline with
      | none => .answer (makeInteger (-1))
      | some deadline => .answer (makeInteger (ceilSeconds (deadline - now.second)))
  | .set value =>
    ⟨makeSimpleString (text "OK"), .replace (.string value), logged .set [key, value]⟩
  | .get => reading Value.string? makeNullBulkString (fun s => .answer (makeBulkString s)) c
  | .push side x =>
    writing Value.list? [] (fun l => ⟨makeInteger (side.push x l).length,
      .put (.list (side.push x l)), logged side.pushName [key, x]⟩) c
  | .pop side =>
    reading Value.list? makeNullBulkString (fun l =>
      match side.pop l with
      | none => .answer makeNullBulkString
      | some (x, rest) =>
        ⟨makeBulkString x, shrunk (.list rest), logged side.popName [key]⟩) c
  | .llen => reading Value.list? (makeInteger 0) (fun l => .answer (makeInteger l.length)) c
  | .lrange start stop =>
    reading Value.list? (makeArray []) (fun l => .answer (lrangeReply start stop l)) c
  | .hset field value =>
    writing Value.hash? ∅ (fun h => ⟨makeFlag (!h.contains field),
      .put (.hash (h.insert field value)), logged .hset [key, field, value]⟩) c
  | .hget field =>
    reading Value.hash? makeNullBulkString (fun h =>
      match h[field]? with
      | none => .answer makeNullBulkString
      | some value => .answer (makeBulkString value)) c
  | .hdel field =>
    reading Value.hash? (makeInteger 0) (fun h =>
      if h.contains field then
        ⟨makeInteger 1, shrunk (.hash (h.erase field)), logged .hdel [key, field]⟩
      else .answer (makeInteger 0)) c
  | .hexists field =>
    reading Value.hash? (makeInteger 0) (fun h => .answer (makeFlag (h.contains field))) c
  | .hlen => reading Value.hash? (makeInteger 0) (fun h => .answer (makeInteger h.size)) c
  | .sadd member =>
    writing Value.set? ∅ (fun s =>
      if s.contains member then .answer (makeInteger 0)
      else ⟨makeInteger 1, .put (.set (s.insert member)), logged .sadd [key, member]⟩) c
  | .srem member =>
    reading Value.set? (makeInteger 0) (fun s =>
      if s.contains member then
        ⟨makeInteger 1, shrunk (.set (s.erase member)), logged .srem [key, member]⟩
      else .answer (makeInteger 0)) c
  | .sismember member =>
    reading Value.set? (makeInteger 0) (fun s => .answer (makeFlag (s.contains member))) c
  | .scard => reading Value.set? (makeInteger 0) (fun s => .answer (makeInteger s.size)) c
  | .smembers =>
    reading Value.set? (makeArray [])
      (fun s => .answer (makeArray (s.toList.map makeBulkString))) c

inductive Request where
  | ping
  | on (key : Bytes) (op : Op)

def interpretArgs (now : Readings) : CommandName → List Bytes → Except RespValue Request
  | .ping, [] => .ok .ping
  | .ping, _ => .error (wrongArity "ping")
  | .del, [key] => .ok (.on key .del)
  | .del, _ => .error (wrongArity "del")
  | .expire, [key, amount] =>
    match toInteger amount with
    | none => .error notAnInteger
    | some seconds =>
      if maxSeconds now.first < seconds then .error notAnInteger else .ok (.on key (.expire seconds))
  | .expire, _ => .error (wrongArity "expire")
  | .ttl, [key] => .ok (.on key .ttl)
  | .ttl, _ => .error (wrongArity "ttl")
  | .set, [key, value] => .ok (.on key (.set value))
  | .set, _ => .error (wrongArity "set")
  | .get, [key] => .ok (.on key .get)
  | .get, _ => .error (wrongArity "get")
  | .lpush, [key, x] => .ok (.on key (.push .left x))
  | .lpush, _ => .error (wrongArity "lpush")
  | .rpush, [key, x] => .ok (.on key (.push .right x))
  | .rpush, _ => .error (wrongArity "rpush")
  | .lpop, [key] => .ok (.on key (.pop .left))
  | .lpop, _ => .error (wrongArity "lpop")
  | .rpop, [key] => .ok (.on key (.pop .right))
  | .rpop, _ => .error (wrongArity "rpop")
  | .llen, [key] => .ok (.on key .llen)
  | .llen, _ => .error (wrongArity "llen")
  | .lrange, [key, first, last] =>
    match toInteger first, toInteger last with
    | some start, some stop => .ok (.on key (.lrange start stop))
    | _, _ => .error notAnInteger
  | .lrange, _ => .error (wrongArity "lrange")
  | .hset, [key, field, value] => .ok (.on key (.hset field value))
  | .hset, _ => .error (wrongArity "hset")
  | .hget, [key, field] => .ok (.on key (.hget field))
  | .hget, _ => .error (wrongArity "hget")
  | .hdel, [key, field] => .ok (.on key (.hdel field))
  | .hdel, _ => .error (wrongArity "hdel")
  | .hexists, [key, field] => .ok (.on key (.hexists field))
  | .hexists, _ => .error (wrongArity "hexists")
  | .hlen, [key] => .ok (.on key .hlen)
  | .hlen, _ => .error (wrongArity "hlen")
  | .sadd, [key, member] => .ok (.on key (.sadd member))
  | .sadd, _ => .error (wrongArity "sadd")
  | .srem, [key, member] => .ok (.on key (.srem member))
  | .srem, _ => .error (wrongArity "srem")
  | .sismember, [key, member] => .ok (.on key (.sismember member))
  | .sismember, _ => .error (wrongArity "sismember")
  | .scard, [key] => .ok (.on key .scard)
  | .scard, _ => .error (wrongArity "scard")
  | .smembers, [key] => .ok (.on key .smembers)
  | .smembers, _ => .error (wrongArity "smembers")

def interpret (now : Readings) (request : RespValue) : Except RespValue Request :=
  match requestWords request with
  | none | some [] => .error notARequest
  | some (name :: args) =>
    match commandNamed (toUpper name) with
    | none => .error (unknownCommand name)
    | some command => interpretArgs now command args

/-- The reading at which a command checks the deadline of its key: `EXPIRE` has taken one before. -/
def Op.checkedAt (now : Readings) : Op → ℤ
  | .expire _ => now.second
  | _ => now.first

/-- Store what an operation decided about a cell. -/
def commit (key : Bytes) (c : Cell) (d : Decision) (s : Session) : Outcome :=
  (d.reply, ⟨s.store.setCell key (d.change.apply c), appendRecords s.log d.record.toList⟩)

/-- Answer a request that passed its checks: the operation sees its cell after the deadline check. -/
def perform (now : Readings) (request : Request) (s : Session) : Outcome :=
  match request with
  | .ping => (makeSimpleString (text "PONG"), s)
  | .on key op =>
    let c := (s.store.cell key).live (op.checkedAt now)
    commit key c (op.decide now key c) s

/-- Answer a request; a rejected one leaves the session alone. -/
def answer (now : Readings) (request : Except RespValue Request) (s : Session) : Outcome :=
  match request with
  | .error reply => (reply, s)
  | .ok request => perform now request s

end RedisLite.Operations
