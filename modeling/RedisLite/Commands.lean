import RedisLite.Resp
import RedisLite.Store
import RedisLite.AppendLog

/-!
# Command execution

Every command gets the clock readings, the arguments after its name and the session (the store
and the log), and returns the reply with the new session.
-/

namespace RedisLite.Commands
open ByteStrings Resp Keyspace AppendLog

structure Session where
  store : Store
  log : Log

abbrev Outcome := RespValue × Session

inductive CommandName where
  | ping | del | expire | ttl | set | get | lpush | rpush | lpop | rpop | llen | lrange
  | hset | hget | hdel | hexists | hlen | sadd | srem | sismember | scard | smembers
  deriving DecidableEq, Repr

def CommandName.upper : CommandName → Bytes
  | .ping => text "PING"
  | .del => text "DEL"
  | .expire => text "EXPIRE"
  | .ttl => text "TTL"
  | .set => text "SET"
  | .get => text "GET"
  | .lpush => text "LPUSH"
  | .rpush => text "RPUSH"
  | .lpop => text "LPOP"
  | .rpop => text "RPOP"
  | .llen => text "LLEN"
  | .lrange => text "LRANGE"
  | .hset => text "HSET"
  | .hget => text "HGET"
  | .hdel => text "HDEL"
  | .hexists => text "HEXISTS"
  | .hlen => text "HLEN"
  | .sadd => text "SADD"
  | .srem => text "SREM"
  | .sismember => text "SISMEMBER"
  | .scard => text "SCARD"
  | .smembers => text "SMEMBERS"

/-- The commands in the order in which the source compares their names. -/
def commandNames : List CommandName :=
  [.ping, .del, .expire, .ttl, .set, .get, .lpush, .rpush, .lpop, .rpop, .llen, .lrange,
    .hset, .hget, .hdel, .hexists, .hlen, .sadd, .srem, .sismember, .scard, .smembers]

def commandNamed (name : Bytes) : Option CommandName :=
  commandNames.find? (fun c => c.upper = name)

/-- `std::toupper` in the C locale. -/
def toUpperByte (b : UInt8) : UInt8 := if 97 ≤ b ∧ b ≤ 122 then b - 32 else b

def toUpper (s : Bytes) : Bytes := s.map toUpperByte

def wrongArity (name : String) : RespValue :=
  makeError (text "ERR wrong number of arguments for '" ++ text name ++ text "' command")

def wrongType : RespValue :=
  makeError (text "WRONGTYPE Operation against a key holding the wrong kind of value")

def notAnInteger : RespValue := makeError (text "ERR value is not an integer or out of range")

def notARequest : RespValue := makeError (text "ERR expected a non-empty array of bulk strings")

def unknownCommand (name : Bytes) : RespValue :=
  makeError (text "ERR unknown command '" ++ name ++ text "'")

def makeFlag (b : Bool) : RespValue := makeInteger (if b then 1 else 0)

def nanosPerSecond : ℤ := 1000000000

/-- `Clock::time_point::max()`: the clock counts nanoseconds in a signed 64-bit integer. -/
def maxTimePoint : ℤ := maxInt64

/-- `duration_cast<seconds>` truncates towards zero. -/
def toSeconds (nanos : ℤ) : ℤ := nanos.tdiv nanosPerSecond

def ceilSeconds (nanos : ℤ) : ℤ :=
  let t := toSeconds nanos
  if t * nanosPerSecond < nanos then t + 1 else t

def maxSeconds (now : ℤ) : ℤ := toSeconds (maxTimePoint - now)

/-- `read_typed` followed by the replies for a wrong type and for a missing key. -/
def withTyped {α : Type} (getIf : Value → Option α) (now : ℤ) (key : Bytes) (missing : RespValue)
    (found : α → Session → Outcome) (s : Session) : Outcome :=
  match readTyped getIf now s.store key with
  | (.mismatch, store) => (wrongType, { s with store := store })
  | (.missing, store) => (missing, { s with store := store })
  | (.found value, store) => found value { s with store := store }

/-- `write_typed` followed by the reply for a wrong type. -/
def withWritable {α : Type} (getIf : Value → Option α) (empty : Value) (now : ℤ) (key : Bytes)
    (found : α → Session → Outcome) (s : Session) : Outcome :=
  match writeTyped getIf empty now s.store key with
  | (none, store) => (wrongType, { s with store := store })
  | (some value, store) => found value { s with store := store }

def ping (args : List Bytes) (s : Session) : Outcome :=
  match args with
  | [] => (makeSimpleString (text "PONG"), s)
  | _ => (wrongArity "ping", s)

def del (now : Readings) (args : List Bytes) (s : Session) : Outcome :=
  match args with
  | [key] =>
    let store := expireIfDue now.first s.store key
    let existed := store.values.contains key
    (makeFlag existed,
      ⟨removeKey store key, if existed then logCommand s.log CommandName.del.upper [key] else s.log⟩)
  | _ => (wrongArity "del", s)

def expire (now : Readings) (args : List Bytes) (s : Session) : Outcome :=
  match args with
  | [key, amount] =>
    match toInteger amount with
    | none => (notAnInteger, s)
    | some seconds =>
      -- a deadline past what the clock can hold would overflow the arithmetic below
      if maxSeconds now.first < seconds then (notAnInteger, s)
      else
        let store := expireIfDue now.second s.store key
        if ¬ store.values.contains key then (makeInteger 0, { s with store := store })
        else if seconds ≤ 0 then
          (makeInteger 1, ⟨removeKey store key, logCommand s.log CommandName.del.upper [key]⟩)
        else
          (makeInteger 1,
            ⟨{ store with
                expirations := store.expirations.insert key (now.first + seconds * nanosPerSecond) },
              logExpire s.log now.unix key seconds⟩)
  | _ => (wrongArity "expire", s)

def ttl (now : Readings) (args : List Bytes) (s : Session) : Outcome :=
  match args with
  | [key] =>
    let store := expireIfDue now.first s.store key
    let s := { s with store := store }
    if ¬ store.values.contains key then (makeInteger (-2), s)
    else
      match store.expirations[key]? with
      | none => (makeInteger (-1), s)
      | some deadline => (makeInteger (ceilSeconds (deadline - now.second)), s)
  | _ => (wrongArity "ttl", s)

/-- Replaces whatever was there, of any type, and clears the deadline without looking at it. -/
def set (args : List Bytes) (s : Session) : Outcome :=
  match args with
  | [key, value] =>
    let store := setValue s.store key (.string value)
    (makeSimpleString (text "OK"),
      ⟨{ store with expirations := store.expirations.erase key },
        logCommand s.log CommandName.set.upper [key, value]⟩)
  | _ => (wrongArity "set", s)

def get (now : Readings) (args : List Bytes) (s : Session) : Outcome :=
  match args with
  | [key] =>
    withTyped Value.string? now.first key makeNullBulkString
      (fun value s => (makeBulkString value, s)) s
  | _ => (wrongArity "get", s)

/-- `LPUSH` and `RPUSH`. -/
def push (name : CommandName) (now : Readings) (args : List Bytes) (s : Session) : Outcome :=
  match args with
  | [key, x] =>
    withWritable Value.list? (.list []) now.first key (fun list s =>
      let list := if name = .lpush then x :: list else list ++ [x]
      (makeInteger list.length,
        ⟨setValue s.store key (.list list), logCommand s.log name.upper [key, x]⟩)) s
  | _ => (wrongArity (if name = .lpush then "lpush" else "rpush"), s)

/-- `LPOP` and `RPOP`. -/
def pop (name : CommandName) (now : Readings) (args : List Bytes) (s : Session) : Outcome :=
  match args with
  | [key] =>
    withTyped Value.list? now.first key makeNullBulkString (fun list s =>
      match if name = .lpop then list.head? else list.getLast? with
      | none => (makeNullBulkString, s)
      | some popped =>
        let list := if name = .lpop then list.tail else list.dropLast
        (makeBulkString popped,
          ⟨dropIfEmpty (setValue s.store key (.list list)) key,
            logCommand s.log name.upper [key]⟩)) s
  | _ => (wrongArity (if name = .lpop then "lpop" else "rpop"), s)

def llen (now : Readings) (args : List Bytes) (s : Session) : Outcome :=
  match args with
  | [key] =>
    withTyped Value.list? now.first key (makeInteger 0)
      (fun list s => (makeInteger list.length, s)) s
  | _ => (wrongArity "llen", s)

/-- The loop `for (i = start; i <= stop; ++i)` over a list. -/
def lrangeLoop (list : ListValue) (start stop : ℤ) : List RespValue :=
  (List.range (stop + 1 - start).toNat).map fun (i : ℕ) =>
    makeBulkString (list.getD (start + i).toNat [])

def lrange (now : Readings) (args : List Bytes) (s : Session) : Outcome :=
  match args with
  | [key, first, last] =>
    match toInteger first, toInteger last with
    | some start, some stop =>
      withTyped Value.list? now.first key (makeArray []) (fun list s =>
        let size : ℤ := list.length
        let start := max 0 (absoluteIndex start size)
        let stop := min (size - 1) (absoluteIndex stop size)
        (makeArray (lrangeLoop list start stop), s)) s
    | _, _ => (notAnInteger, s)
  | _ => (wrongArity "lrange", s)

def hset (now : Readings) (args : List Bytes) (s : Session) : Outcome :=
  match args with
  | [key, field, value] =>
    withWritable Value.hash? (.hash ∅) now.first key (fun hash s =>
      (makeFlag (!hash.contains field),
        ⟨setValue s.store key (.hash (hash.insert field value)),
          logCommand s.log CommandName.hset.upper [key, field, value]⟩)) s
  | _ => (wrongArity "hset", s)

def hget (now : Readings) (args : List Bytes) (s : Session) : Outcome :=
  match args with
  | [key, field] =>
    withTyped Value.hash? now.first key makeNullBulkString (fun hash s =>
      match hash[field]? with
      | none => (makeNullBulkString, s)
      | some value => (makeBulkString value, s)) s
  | _ => (wrongArity "hget", s)

def hdel (now : Readings) (args : List Bytes) (s : Session) : Outcome :=
  match args with
  | [key, field] =>
    withTyped Value.hash? now.first key (makeInteger 0) (fun hash s =>
      if hash.contains field then
        (makeInteger 1,
          ⟨dropIfEmpty (setValue s.store key (.hash (hash.erase field))) key,
            logCommand s.log CommandName.hdel.upper [key, field]⟩)
      else (makeInteger 0, s)) s
  | _ => (wrongArity "hdel", s)

def hexists (now : Readings) (args : List Bytes) (s : Session) : Outcome :=
  match args with
  | [key, field] =>
    withTyped Value.hash? now.first key (makeInteger 0)
      (fun hash s => (makeFlag (hash.contains field), s)) s
  | _ => (wrongArity "hexists", s)

def hlen (now : Readings) (args : List Bytes) (s : Session) : Outcome :=
  match args with
  | [key] =>
    withTyped Value.hash? now.first key (makeInteger 0)
      (fun hash s => (makeInteger hash.size, s)) s
  | _ => (wrongArity "hlen", s)

def sadd (now : Readings) (args : List Bytes) (s : Session) : Outcome :=
  match args with
  | [key, member] =>
    withWritable Value.set? (.set ∅) now.first key (fun set s =>
      if set.contains member then (makeInteger 0, s)
      else
        (makeInteger 1,
          ⟨setValue s.store key (.set (set.insert member)),
            logCommand s.log CommandName.sadd.upper [key, member]⟩)) s
  | _ => (wrongArity "sadd", s)

def srem (now : Readings) (args : List Bytes) (s : Session) : Outcome :=
  match args with
  | [key, member] =>
    withTyped Value.set? now.first key (makeInteger 0) (fun set s =>
      if set.contains member then
        (makeInteger 1,
          ⟨dropIfEmpty (setValue s.store key (.set (set.erase member))) key,
            logCommand s.log CommandName.srem.upper [key, member]⟩)
      else (makeInteger 0, s)) s
  | _ => (wrongArity "srem", s)

def sismember (now : Readings) (args : List Bytes) (s : Session) : Outcome :=
  match args with
  | [key, member] =>
    withTyped Value.set? now.first key (makeInteger 0)
      (fun set s => (makeFlag (set.contains member), s)) s
  | _ => (wrongArity "sismember", s)

def scard (now : Readings) (args : List Bytes) (s : Session) : Outcome :=
  match args with
  | [key] =>
    withTyped Value.set? now.first key (makeInteger 0)
      (fun set s => (makeInteger set.size, s)) s
  | _ => (wrongArity "scard", s)

/-- The iteration order of the container is unspecified; the model lists the members in order. -/
def smembers (now : Readings) (args : List Bytes) (s : Session) : Outcome :=
  match args with
  | [key] =>
    withTyped Value.set? now.first key (makeArray [])
      (fun set s => (makeArray (set.toList.map makeBulkString), s)) s
  | _ => (wrongArity "smembers", s)

def runCommand (name : CommandName) (now : Readings) (args : List Bytes) (s : Session) : Outcome :=
  match name with
  | .ping => ping args s
  | .del => del now args s
  | .expire => expire now args s
  | .ttl => ttl now args s
  | .set => set args s
  | .get => get now args s
  | .lpush => push .lpush now args s
  | .rpush => push .rpush now args s
  | .lpop => pop .lpop now args s
  | .rpop => pop .rpop now args s
  | .llen => llen now args s
  | .lrange => lrange now args s
  | .hset => hset now args s
  | .hget => hget now args s
  | .hdel => hdel now args s
  | .hexists => hexists now args s
  | .hlen => hlen now args s
  | .sadd => sadd now args s
  | .srem => srem now args s
  | .sismember => sismember now args s
  | .scard => scard now args s
  | .smembers => smembers now args s

/-- The words of a request: the strings of a non-empty array of bulk strings. -/
def requestWords (request : RespValue) : Option (List Bytes) :=
  if request.type ≠ .array ∨ request.isNull ∨ request.elements = [] then none
  else if request.elements.any (fun e => e.type ≠ .bulkString ∨ e.isNull) then none
  else some (request.elements.map RespValue.string)

def executeCommand (now : Readings) (request : RespValue) (s : Session) : Outcome :=
  match requestWords request with
  | none | some [] => (notARequest, s)
  | some (name :: args) =>
    match commandNamed (toUpper name) with
    | none => (unknownCommand name, s)
    | some command => runCommand command now args s

end RedisLite.Commands
