import RedisLite.Replay

/-!
# The store invariant

Every deadline belongs to a key that is present, and no key holds an empty list, hash or set. Both
are properties of single cells, and an operation replaces one cell.
-/

namespace RedisLite.Keyspace
open ByteStrings

/-- A deadline without a value does not occur, and neither does an empty collection. -/
structure Cell.Sound (c : Cell) : Prop where
  present : c.deadline.isSome → c.value.isSome
  nonempty : ∀ v, c.value = some v → v.isEmpty = false

structure Store.Sound (s : Store) : Prop where
  present : ∀ key : Bytes, key ∈ s.expirations → key ∈ s.values
  nonempty : ∀ (key : Bytes) (v : Value), s.values[key]? = some v → v.isEmpty = false

theorem Store.sound_iff {s : Store} : s.Sound ↔ ∀ key, (s.cell key).Sound := by
  constructor
  · intro h key
    refine ⟨fun hd => ?_, h.nonempty key⟩
    have hmem : key ∈ s.expirations := by
      rw [Std.ExtTreeMap.mem_iff_isSome_getElem?]
      exact hd
    have hvalue := h.present key hmem
    rw [Std.ExtTreeMap.mem_iff_isSome_getElem?] at hvalue
    exact hvalue
  · intro h
    refine ⟨fun key hmem => ?_, fun key => (h key).nonempty⟩
    rw [Std.ExtTreeMap.mem_iff_isSome_getElem?] at hmem ⊢
    exact (h key).present hmem

theorem Cell.sound_missing : Cell.missing.Sound := ⟨nofun, nofun⟩

theorem Cell.Sound.live {c : Cell} (h : c.Sound) (now : ℤ) : (c.live now).Sound := by
  unfold Cell.live
  split
  · exact Cell.sound_missing
  · exact h

theorem Cell.Sound.eq_missing {c : Cell} (h : c.Sound) (hvalue : c.value = none) :
    c = .missing := by
  obtain ⟨value, deadline⟩ := c
  cases hvalue
  cases deadline with
  | none => rfl
  | some d => exact absurd (h.present rfl) (by simp)

theorem Cell.Sound.deadline_none {c : Cell} (h : c.Sound) (hvalue : c.value = none) :
    c.deadline = none := by
  rw [h.eq_missing hvalue]
  rfl

theorem Store.sound_empty : Store.Sound {} := by
  rw [Store.sound_iff]
  intro key
  have : Store.cell {} key = .missing := by simp [Store.cell, Cell.missing]
  rw [this]
  exact Cell.sound_missing

theorem Store.Sound.setCell {s : Store} (hs : s.Sound) (key : Bytes) {c : Cell} (hc : c.Sound) :
    (s.setCell key c).Sound := by
  rw [Store.sound_iff] at hs ⊢
  intro key'
  rw [Store.cell_setCell]
  split
  · exact hc
  · exact hs key'

end RedisLite.Keyspace

namespace RedisLite.Operations
open ByteStrings Resp Keyspace AppendLog Commands

/-- The changes that an operation may make to a cell. -/
def Change.Allowed (now : ℤ) (c : Cell) : Change → Prop
  | .keep => True
  | .put v => v.isEmpty = false
  | .replace v => v.isEmpty = false
  | .remove => True
  | .expireAt deadline => now < deadline ∧ c.value.isSome

theorem Change.Allowed.sound {now : ℤ} {c : Cell} {change : Change} (h : change.Allowed now c)
    (hc : c.Sound) :
    (change.apply c).Sound := by
  cases change with
  | keep => exact hc
  | put v => exact ⟨fun _ => rfl, fun _ hv => by cases hv; exact h⟩
  | replace v => exact ⟨nofun, fun _ hv => by cases hv; exact h⟩
  | remove => exact Cell.sound_missing
  | expireAt d => exact ⟨fun _ => h.2, hc.nonempty⟩

theorem shrunk_allowed (now : ℤ) (c : Cell) (v : Value) : (shrunk v).Allowed now c := by
  unfold shrunk
  split
  · trivial
  · rename_i h
    simpa [Change.Allowed] using h

section Typed
variable {α : Type} {getIf : Value → Option α} {found : α → Decision} {now : ℤ} {c : Cell}
  (hfound : ∀ x, (found x).change.Allowed now c)
include hfound

theorem reading_allowed {missing : RespValue} :
    (reading getIf missing found c).change.Allowed now c := by
  unfold reading
  split
  · trivial
  · split
    · trivial
    · exact hfound _

theorem writing_allowed {empty : α} : (writing getIf empty found c).change.Allowed now c := by
  unfold writing
  split
  · exact hfound _
  · split
    · trivial
    · exact hfound _

end Typed

theorem Side.push_ne_nil (side : Side) (x : Bytes) (l : ListValue) :
    (Value.list (side.push x l)).isEmpty = false := by
  cases side <;> simp [Side.push, Value.isEmpty]

/-- What an operation writes is never empty, and a deadline it sets is that of a present key and lies
ahead. -/
theorem decide_allowed (now : Readings) (key : Bytes) (op : Op) (c : Cell) :
    (op.decide now key c).change.Allowed now.first c := by
  cases op <;> simp only [Op.decide]
  case del => trivial
  case expire seconds =>
    split
    · trivial
    · split
      · trivial
      · rename_i h hseconds
        refine ⟨?_, by simpa [Option.isSome_iff_ne_none] using h⟩
        unfold nanosPerSecond
        omega
  case ttl =>
    split
    · trivial
    · split <;> trivial
  case set value => rfl
  case push side x =>
    refine writing_allowed (fun l => ?_)
    exact side.push_ne_nil x l
  case pop side =>
    refine reading_allowed (fun l => ?_)
    split
    · trivial
    · exact shrunk_allowed now.first c _
  case hset field value =>
    exact writing_allowed (fun h => by simp [Change.Allowed, Value.isEmpty])
  case hget field =>
    refine reading_allowed (fun h => ?_)
    split <;> trivial
  case hdel field =>
    refine reading_allowed (fun h => ?_)
    split
    · exact shrunk_allowed now.first c _
    · trivial
  case sadd member =>
    refine writing_allowed (fun s => ?_)
    split
    · trivial
    · simp [Change.Allowed, Value.isEmpty]
  case srem member =>
    refine reading_allowed (fun s => ?_)
    split
    · exact shrunk_allowed now.first c _
    · trivial
  all_goals exact reading_allowed (fun _ => by trivial)

/-- Every command keeps the store sound. -/
theorem executeCommand_sound (now : Readings) (request : RespValue) {s : Session}
    (hs : s.store.Sound) : (executeCommand now request s).2.store.Sound := by
  rw [executeCommand_refines]
  cases interpret now request with
  | error reply => exact hs
  | ok r =>
    cases r with
    | ping => exact hs
    | on key op =>
      have hc := (Store.sound_iff.mp hs key).live (op.checkedAt now)
      exact hs.setCell key ((decide_allowed now key op _).sound hc)

end RedisLite.Operations

namespace RedisLite.Replay
open ByteStrings Resp Keyspace AppendLog Commands Operations RecordFiles LogReader

theorem executeRecord_sound (now : Readings) (r : LogRecord) {s : Store} (hs : s.Sound) :
    (executeRecord now r s).Sound := by
  cases r with
  | command verb arguments => exact executeCommand_sound now _ (s := ⟨s, none⟩) hs
  | expire key deadline =>
    simp only [executeRecord]
    split
    · exact executeCommand_sound now _ (s := ⟨s, none⟩) hs
    · exact executeCommand_sound now _ (s := ⟨s, none⟩) hs

theorem replayLog_sound (path : Bytes) (file : LogFile) (clock : ℕ → Readings) {s : Store}
    (hs : s.Sound) : (replayLog path file clock s).2.Sound := by
  cases file with
  | absent => exact hs
  | unsizable => exact hs
  | contents bytes =>
    simp only [replayLog]
    split
    · exact hs
    · rename_i hload
      exact load_invariant (fun n r s => executeRecord_sound (clock n) r) hload Store.sound_empty

/-- The stores a server can have: it starts empty, executes requests and replays files. -/
inductive Reachable : Store → Prop where
  | empty : Reachable {}
  | command {s} (h : Reachable s) (now : Readings) (request : RespValue) (log : Log) :
      Reachable (executeCommand now request ⟨s, log⟩).2.store
  | replay {s} (h : Reachable s) (path : Bytes) (file : LogFile) (clock : ℕ → Readings) :
      Reachable (replayLog path file clock s).2

theorem reachable_sound {s : Store} (h : Reachable s) : s.Sound := by
  induction h with
  | empty => exact Store.sound_empty
  | command _ now request log ih => exact executeCommand_sound now request (s := ⟨_, log⟩) ih
  | replay _ path file clock ih => exact replayLog_sound path file clock ih

theorem emptied_list_sound :
    let pushed := (executeCommand (.once 0 0) (asRequest [text "LPUSH", text "k", text "x"])
      ⟨{}, none⟩).2.store
    let timed := (executeCommand (.once 0 0) (asRequest [text "EXPIRE", text "k", text "9"])
      ⟨pushed, none⟩).2.store
    (executeCommand (.once 1 0) (asRequest [text "LPOP", text "k"]) ⟨timed, none⟩).2.store.Sound :=
  reachable_sound (((Reachable.empty.command (.once 0 0) _ none).command (.once 0 0) _ none).command
    (.once 1 0) _ none)

end RedisLite.Replay
