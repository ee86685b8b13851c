import RedisLite.ByteStrings

/-!
# The typed keyspace with lazy expiration

`values` holds the live data and `expirations` the deadlines on the steady clock, in nanoseconds.
A key whose deadline has passed stays in both maps until the next access removes it.
-/

namespace RedisLite.Keyspace
open ByteStrings

abbrev ListValue := List Bytes
abbrev HashValue := Std.ExtTreeMap Bytes Bytes compare
abbrev SetValue := Std.ExtTreeSet Bytes compare

inductive Value where
  | string (s : Bytes)
  | list (l : ListValue)
  | hash (h : HashValue)
  | set (s : SetValue)

structure Store where
  values : Std.ExtTreeMap Bytes Value compare := ∅
  expirations : Std.ExtTreeMap Bytes ℤ compare := ∅

/-- What the clocks show while one command runs: the first and the second reading a command takes
of the steady clock, in nanoseconds, and the system clock in Unix seconds. -/
structure Readings where
  first : ℤ
  second : ℤ
  unix : ℤ
  ordered : first ≤ second

/-- Both steady readings show the same instant. -/
def Readings.once (now unix : ℤ) : Readings := ⟨now, now, unix, le_refl now⟩

def Value.string? : Value → Option Bytes
  | .string s => some s
  | _ => none

def Value.list? : Value → Option ListValue
  | .list l => some l
  | _ => none

def Value.hash? : Value → Option HashValue
  | .hash h => some h
  | _ => none

def Value.set? : Value → Option SetValue
  | .set s => some s
  | _ => none

def Value.isEmpty : Value → Bool
  | .string _ => false
  | .list l => l.isEmpty
  | .hash h => h.isEmpty
  | .set s => s.isEmpty

def removeKey (store : Store) (key : Bytes) : Store :=
  ⟨store.values.erase key, store.expirations.erase key⟩

/-- Lazy expiration: drop the key if its deadline has passed. -/
def expireIfDue (now : ℤ) (store : Store) (key : Bytes) : Store :=
  match store.expirations[key]? with
  | none => store
  | some deadline => if now < deadline then store else removeKey store key

/-- The result of looking a key up at one type: a null pointer, the `mismatch` flag or the value. -/
inductive Typed (α : Type) where
  | missing
  | mismatch
  | found (value : α)

def readTyped {α : Type} (getIf : Value → Option α) (now : ℤ) (store : Store) (key : Bytes) :
    Typed α × Store :=
  let store := expireIfDue now store key
  match store.values[key]? with
  | none => (.missing, store)
  | some value =>
    match getIf value with
    | none => (.mismatch, store)
    | some typed => (.found typed, store)

def setValue (store : Store) (key : Bytes) (value : Value) : Store :=
  { store with values := store.values.insert key value }

/-- The value to write to, created as `empty` when the key is missing; `none` when the key holds
another type. -/
def writeTyped {α : Type} (getIf : Value → Option α) (empty : Value) (now : ℤ) (store : Store)
    (key : Bytes) : Option α × Store :=
  let store := expireIfDue now store key
  let store := if store.values.contains key then store else setValue store key empty
  (store.values[key]?.bind getIf, store)

def dropIfEmpty (store : Store) (key : Bytes) : Store :=
  match store.values[key]? with
  | none => store
  | some value => if value.isEmpty then removeKey store key else store

def absoluteIndex (index size : ℤ) : ℤ :=
  if index < 0 then index + size else index

end RedisLite.Keyspace
