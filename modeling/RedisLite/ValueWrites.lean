import RedisLite.RecordEffects

/-!
# What the writes to a key leave

Apart from `SET`, `DEL` and `EXPIRE`, an operation looks at the value of its key only: it leaves a
value that depends on no clock, and the deadline stays with the key for as long as the key has a
value.
-/

namespace RedisLite.Operations
open ByteStrings Resp Keyspace AppendLog Commands Replay

def asks (now : Readings) (request : RespValue) (key : Bytes) : Option Op :=
  match interpret now request with
  | .ok (.on key' op) => if key' = key then some op else none
  | _ => none

/-- An operation that sets a key, removes it or gives it a deadline, whatever its type. -/
def Op.resets : Op → Bool
  | .set _ | .del | .expire _ => true
  | _ => false

/-- A collection without elements is not kept. -/
def kept (value : Value) : Option Value := if value.isEmpty then none else some value

/-- What the other operations leave of a value. -/
def Op.leaves : Op → Option Value → Option Value
  | .push side x, none => some (.list (side.push x []))
  | .push side x, some (.list l) => some (.list (side.push x l))
  | .pop side, some (.list l) =>
    match side.pop l with
    | none => some (.list l)
    | some (_, rest) => kept (.list rest)
  | .hset field value, none => some (.hash (({} : HashValue).insert field value))
  | .hset field value, some (.hash h) => some (.hash (h.insert field value))
  | .hdel field, some (.hash h) =>
    if h.contains field then kept (.hash (h.erase field)) else some (.hash h)
  | .sadd member, none => some (.set (({} : SetValue).insert member))
  | .sadd member, some (.set s) =>
    if s.contains member then some (.set s) else some (.set (s.insert member))
  | .srem member, some (.set s) =>
    if s.contains member then kept (.set (s.erase member)) else some (.set s)
  | _, v => v

/-- The collection that a value stands for: a missing key is an empty one. -/
def typedOf {α : Type} (getIf : Value → Option α) (empty : α) : Option Value → Option α
  | none => some empty
  | some value => getIf value

/-- A value with the deadline of its key, which a key without a value does not have. -/
def withDeadline (v : Option Value) (deadline : Option ℤ) : Cell :=
  ⟨v, if v.isSome then deadline else none⟩

theorem withDeadline_none (v : Option Value) : withDeadline v none = ⟨v, none⟩ := by
  cases v <;> rfl

theorem apply_put (v : Value) (c : Cell) :
    (Change.put v).apply c = withDeadline (some v) c.deadline := rfl

theorem apply_shrunk (v : Value) (c : Cell) :
    (shrunk v).apply c = withDeadline (kept v) c.deadline := by
  unfold shrunk kept
  split <;> rfl

theorem list_ops_other {v : Value} (h : v.list? = none) :
    (∀ side x, (Op.push side x).leaves (some v) = some v) ∧
      ∀ side, (Op.pop side).leaves (some v) = some v := by
  cases v <;> first | exact ⟨fun _ _ => rfl, fun _ => rfl⟩ | cases h

theorem hash_ops_other {v : Value} (h : v.hash? = none) :
    (∀ field value, (Op.hset field value).leaves (some v) = some v) ∧
      ∀ field, (Op.hdel field).leaves (some v) = some v := by
  cases v <;> first | exact ⟨fun _ _ => rfl, fun _ => rfl⟩ | cases h

theorem set_ops_other {v : Value} (h : v.set? = none) :
    (∀ member, (Op.sadd member).leaves (some v) = some v) ∧
      ∀ member, (Op.srem member).leaves (some v) = some v := by
  cases v <;> first | exact ⟨fun _ => rfl, fun _ => rfl⟩ | cases h

section Leaves
variable {now : Readings} {key : Bytes} {c : Cell}

theorem withDeadline_self (hc : c.value = none → c.deadline = none) :
    withDeadline c.value c.deadline = c := by
  obtain ⟨value, deadline⟩ := c
  cases value with
  | none => exact congrArg _ (hc rfl).symm
  | some v => rfl

theorem reading_leaves {α : Type} {getIf : Value → Option α} {missing : RespValue}
    {found : α → Decision} {leaves : Option Value → Option Value}
    (hc : c.value = none → c.deadline = none) (hmissing : leaves none = none)
    (hother : ∀ v, getIf v = none → leaves (some v) = some v)
    (hfound : ∀ v x, c.value = some v → getIf v = some x →
      (found x).change.apply c = withDeadline (leaves (some v)) c.deadline) :
    (reading getIf missing found c).change.apply c = withDeadline (leaves c.value) c.deadline := by
  have hsame := withDeadline_self hc
  unfold reading
  cases hvalue : c.value with
  | none =>
    rw [hvalue] at hsame
    rw [hmissing]
    exact hsame.symm
  | some v =>
    rw [hvalue] at hsame
    dsimp only
    cases hx : getIf v with
    | none =>
      rw [hother v hx]
      exact hsame.symm
    | some x => exact hfound v x hvalue hx

theorem writing_leaves {α : Type} {getIf : Value → Option α} {empty : α}
    {found : α → Decision} {leaves : Option Value → Option Value}
    (hc : c.value = none → c.deadline = none)
    (hmissing : (found empty).change.apply c = withDeadline (leaves none) c.deadline)
    (hother : ∀ v, getIf v = none → leaves (some v) = some v)
    (hfound : ∀ v x, c.value = some v → getIf v = some x →
      (found x).change.apply c = withDeadline (leaves (some v)) c.deadline) :
    (writing getIf empty found c).change.apply c = withDeadline (leaves c.value) c.deadline := by
  have hsame := withDeadline_self hc
  unfold writing
  cases hvalue : c.value with
  | none => exact hmissing
  | some v =>
    rw [hvalue] at hsame
    dsimp only
    cases hx : getIf v with
    | none =>
      rw [hother v hx]
      exact hsame.symm
    | some x => exact hfound v x hvalue hx

section Writes
variable (now : Readings) (key : Bytes) (hc : c.value = none → c.deadline = none)
include hc

theorem ttl_leaves :
    (Op.ttl.decide now key c).change.apply c = withDeadline (Op.ttl.leaves c.value) c.deadline := by
  have hsame := withDeadline_self hc
  simp only [Op.decide]
  split
  · exact hsame.symm
  · split <;> exact hsame.symm

theorem push_leaves (side : Side) (x : Bytes) :
    ((Op.push side x).decide now key c).change.apply c =
      withDeadline ((Op.push side x).leaves c.value) c.deadline := by
  refine writing_leaves hc rfl (fun v hv => ?_) (fun v l _ hl => ?_)
  · exact (list_ops_other hv).1 side x
  · cases v <;> cases hl
    rfl

theorem pop_leaves (side : Side) :
    ((Op.pop side).decide now key c).change.apply c =
      withDeadline ((Op.pop side).leaves c.value) c.deadline := by
  have hsame := withDeadline_self hc
  refine reading_leaves hc rfl (fun v hv => ?_) (fun v l hvalue hl => ?_)
  · exact (list_ops_other hv).2 side
  · cases v <;> cases hl
    rw [hvalue] at hsame
    simp only [Op.leaves]
    cases side.pop l with
    | none => exact hsame.symm
    | some popped => exact apply_shrunk _ _

theorem hset_leaves (field value : Bytes) :
    ((Op.hset field value).decide now key c).change.apply c =
      withDeadline ((Op.hset field value).leaves c.value) c.deadline := by
  refine writing_leaves hc rfl (fun v hv => ?_) (fun v h _ hh => ?_)
  · exact (hash_ops_other hv).1 field value
  · cases v <;> cases hh
    rfl

theorem hdel_leaves (field : Bytes) :
    ((Op.hdel field).decide now key c).change.apply c =
      withDeadline ((Op.hdel field).leaves c.value) c.deadline := by
  have hsame := withDeadline_self hc
  refine reading_leaves hc rfl (fun v hv => ?_) (fun v h hvalue hh => ?_)
  · exact (hash_ops_other hv).2 field
  · cases v <;> cases hh
    rw [hvalue] at hsame
    simp only [Op.leaves]
    split
    · exact apply_shrunk _ _
    · exact hsame.symm

theorem sadd_leaves (member : Bytes) :
    ((Op.sadd member).decide now key c).change.apply c =
      withDeadline ((Op.sadd member).leaves c.value) c.deadline := by
  have hsame := withDeadline_self hc
  refine writing_leaves hc ?_ (fun v hv => ?_) (fun v s hvalue hs => ?_)
  · simp [Op.leaves, apply_put]
  · exact (set_ops_other hv).1 member
  · cases v <;> cases hs
    rw [hvalue] at hsame
    simp only [Op.leaves]
    split
    · exact hsame.symm
    · rfl

theorem srem_leaves (member : Bytes) :
    ((Op.srem member).decide now key c).change.apply c =
      withDeadline ((Op.srem member).leaves c.value) c.deadline := by
  have hsame := withDeadline_self hc
  refine reading_leaves hc rfl (fun v hv => ?_) (fun v s hvalue hs => ?_)
  · exact (set_ops_other hv).2 member
  · cases v <;> cases hs
    rw [hvalue] at hsame
    simp only [Op.leaves]
    split
    · exact apply_shrunk _ _
    · exact hsame.symm

/-- What an operation makes of a cell: what it leaves of the value, with the deadline. -/
theorem decide_leaves {op : Op} (hop : op.resets = false) :
    (op.decide now key c).change.apply c = withDeadline (op.leaves c.value) c.deadline := by
  have hsame := withDeadline_self hc
  cases op with
  | del | expire _ | set _ => cases hop
  | ttl => exact ttl_leaves now key hc
  | push side x => exact push_leaves now key hc side x
  | pop side => exact pop_leaves now key hc side
  | hset field value => exact hset_leaves now key hc field value
  | hdel field => exact hdel_leaves now key hc field
  | sadd member => exact sadd_leaves now key hc member
  | srem member => exact srem_leaves now key hc member
  | hget field =>
    refine reading_leaves hc rfl (fun _ _ => rfl) (fun v h hvalue hh => ?_)
    rw [hvalue] at hsame
    split <;> exact hsame.symm
  | get | llen | lrange _ _ | hexists _ | hlen | sismember _ | scard | smembers =>
    refine reading_leaves hc rfl (fun _ _ => rfl) (fun v x hvalue hx => ?_)
    rw [hvalue] at hsame
    exact hsame.symm

end Writes

/-- A deadline that a key has after an operation is the one it had before, or that of an `EXPIRE`. -/
theorem decide_deadline (now : Readings) (key : Bytes) (op : Op)
    (hc : c.value = none → c.deadline = none) {deadline : ℤ}
    (h : deadline ∈ ((op.decide now key c).change.apply c).deadline) : deadline ∈ c.deadline ∨
      ∃ seconds, op = .expire seconds ∧ 0 < seconds ∧
        deadline = now.first + seconds * nanosPerSecond := by
  cases hop : op.resets with
  | false =>
    rw [decide_leaves now key hc hop, withDeadline] at h
    dsimp only at h
    split at h
    · exact .inl h
    · cases h
  | true =>
    cases op with
    | set value => cases h
    | del => cases h
    | expire seconds =>
      simp only [Op.decide] at h
      split at h
      · exact .inl h
      · split at h
        · cases h
        · rename_i hpos
          cases h
          exact .inr ⟨seconds, rfl, not_le.mp hpos, rfl⟩
    | _ => cases hop

end Leaves

theorem writing_typedOf {α : Type} {getIf : Value → Option α} {empty x : α} {found : α → Decision}
    {c : Cell} (h : typedOf getIf empty c.value = some x) : writing getIf empty found c = found x := by
  unfold writing
  cases hvalue : c.value with
  | none =>
    rw [hvalue] at h
    cases h
    rfl
  | some v =>
    rw [hvalue] at h
    dsimp only [typedOf] at h ⊢
    rw [h]

/-- A reading operation that tells of a missing key what it tells of an empty collection. -/
theorem reading_typedOf {α : Type} {getIf : Value → Option α} {empty x : α} {missing : RespValue}
    {found : α → Decision} {c : Cell} (h : typedOf getIf empty c.value = some x)
    (hmissing : (found empty).reply = missing) :
    (reading getIf missing found c).reply = (found x).reply := by
  unfold reading
  cases hvalue : c.value with
  | none =>
    rw [hvalue] at h
    cases h
    exact hmissing.symm
  | some v =>
    rw [hvalue] at h
    dsimp only [typedOf] at h ⊢
    rw [h]

section Requests
variable {now : Readings} {request : RespValue} {key : Bytes} {op : Op}

theorem asks_eq_some_iff : asks now request key = some op ↔
    interpret now request = .ok (.on key op) := by
  unfold asks
  split
  · rename_i key' op' h
    rw [h]
    by_cases hkey : key' = key
    · simp [hkey]
    · simp [hkey]
  · rename_i h
    refine iff_of_false nofun (h key op)

theorem live_withDeadline {t : ℤ} {c : Cell} (hc : c.live t = c) (v : Option Value) :
    (withDeadline v c.deadline).live t = withDeadline v c.deadline := by
  have hdeadline := Cell.live_eq_self_iff.mp hc
  cases v with
  | none => rfl
  | some v => exact Cell.live_eq_self_iff.mpr hdeadline

theorem asks_words (now : Readings) {key : Bytes} {op : Op} (command : CommandName)
    (args : List Bytes) (h : interpretArgs now command args = .ok (.on key op)) :
    asks now (asRequest (command.upper :: args)) key = some op := by
  rw [asks_eq_some_iff, interpret_words, h]

theorem checkedAt_of_resets (now : Readings) {op : Op} (hop : op.resets = false) :
    op.checkedAt now = now.first := by
  cases op <;> first | rfl | cases hop

theorem executeCommand_asks (h : asks now request key = some op) (s : Session) :
    executeCommand now request s = commit key ((s.store.cell key).live (op.checkedAt now))
      (op.decide now key ((s.store.cell key).live (op.checkedAt now))) s := by
  rw [executeCommand_refines, asks_eq_some_iff.mp h]
  rfl

/-- A request that asks for nothing on a key leaves its cell alone. -/
theorem cell_of_asks_none (h : asks now request key = none) (s : Session) :
    (executeCommand now request s).2.store.cell key = s.store.cell key := by
  rw [executeCommand_refines]
  cases hrequest : interpret now request with
  | error reply => rfl
  | ok r =>
    cases r with
    | ping => rfl
    | on key' op =>
      have hkey : key' ≠ key := by
        rintro rfl
        rw [asks_eq_some_iff.mpr hrequest] at h
        cases h
      simp only [answer, perform, commit, Store.cell_setCell, if_neg hkey]

/-- What a request makes of the cell of a key that it neither sets, removes nor gives a deadline. -/
theorem cell_of_asks (h : asks now request key = some op) (hop : op.resets = false) (s : Session)
    {c : Cell} (hc : (s.store.cell key).live now.first = c)
    (hdeadline : c.value = none → c.deadline = none) :
    (executeCommand now request s).2.store.cell key = withDeadline (op.leaves c.value) c.deadline := by
  rw [executeCommand_asks h, checkedAt_of_resets now hop, hc, commit, Store.cell_setCell_self,
    decide_leaves now key hdeadline hop]

end Requests

end RedisLite.Operations
