import RedisLite.InsertRemove
import RedisLite.LogReader

/-!
# Records and changes

A command writes a record when it changes what a client can see, and none when it does not, with
three exceptions: a `SET` to the string that is there, an `HSET` to the value that is there and an
`EXPIRE` to the deadline that is there write a record and change nothing.
-/

namespace RedisLite.Operations
open ByteStrings Resp Keyspace AppendLog Commands LogReader Replay

/-- A write of what is there: the cell is the one that the operation finds. -/
def Op.Redundant (now : Readings) : Op → Cell → Prop
  | .set value, c => c = ⟨some (.string value), none⟩
  | .hset field value, c => ∃ h, c.value = some (.hash h) ∧ h[field]? = some value
  | .expire seconds, c => 0 < seconds ∧ c.value.isSome ∧
      c.deadline = some (now.first + seconds * nanosPerSecond)
  | _, _ => False

section Values
variable {c : Cell} {α : Type} {getIf : Value → Option α} {found : α → Decision}
  {leaves : Option Value → Option Value}
  (hother : ∀ v, getIf v = none → leaves (some v) = some v)
  (hfound : ∀ v x, c.value = some v → getIf v = some x →
    ((found x).record.isSome ↔ leaves (some v) ≠ some v))
include hother hfound

theorem reading_record_iff {missing : RespValue} (hmissing : leaves none = none) :
    (reading getIf missing found c).record.isSome ↔ leaves c.value ≠ c.value := by
  unfold reading
  cases hvalue : c.value with
  | none => simp [hmissing, Decision.answer]
  | some v =>
    dsimp only
    cases hx : getIf v with
    | none => simp [hother v hx, Decision.answer]
    | some x => exact hfound v x hvalue hx

theorem writing_record_iff {empty : α} (hmissing : (found empty).record.isSome ↔ leaves none ≠ none) :
    (writing getIf empty found c).record.isSome ↔ leaves c.value ≠ c.value := by
  unfold writing
  cases hvalue : c.value with
  | none => exact hmissing
  | some v =>
    dsimp only
    cases hx : getIf v with
    | none => simp [hother v hx, Decision.answer]
    | some x => exact hfound v x hvalue hx

end Values

theorem reading_record_none {α : Type} {getIf : Value → Option α} {missing : RespValue}
    {found : α → Decision} {c : Cell} (h : ∀ x, (found x).record = none) :
    (reading getIf missing found c).record = none := by
  unfold reading
  split
  · rfl
  · split
    · rfl
    · exact h _

theorem kept_ne {v w : Value} (h : v ≠ w) : kept v ≠ some w := by
  unfold kept
  split
  · nofun
  · exact fun heq => h (Option.some.inj heq)

section Operations
variable {now : Readings} {key : Bytes} {c : Cell}

theorem push_record_iff (side : Side) (x : Bytes) :
    ((Op.push side x).decide now key c).record.isSome ↔
      (Op.push side x).leaves c.value ≠ c.value := by
  have hpush (l : ListValue) : side.push x l ≠ l := by
    intro h
    have hlength := congrArg List.length h
    cases side <;> simp [Side.push] at hlength
  refine writing_record_iff (fun v hv => ?_) (fun v l _ hl => ?_) ?_
  · exact (list_ops_other hv).1 side x
  · cases v <;> cases hl
    simp [Op.leaves, logged, hpush]
  · simp [Op.leaves, logged]

theorem pop_record_iff (side : Side) :
    ((Op.pop side).decide now key c).record.isSome ↔ (Op.pop side).leaves c.value ≠ c.value := by
  refine reading_record_iff (fun v hv => ?_) (fun v l _ hl => ?_) rfl
  · exact (list_ops_other hv).2 side
  · cases v <;> cases hl
    simp only [Op.leaves]
    cases hpop : side.pop l with
    | none => simp [Decision.answer]
    | some popped =>
      obtain ⟨x, rest⟩ := popped
      have hne : Value.list rest ≠ .list l := by
        intro h
        have hlength := Side.length_of_pop hpop
        rw [← Value.list.inj h] at hlength
        omega
      simp [logged, kept_ne hne]

theorem hdel_record_iff (field : Bytes) :
    ((Op.hdel field).decide now key c).record.isSome ↔
      (Op.hdel field).leaves c.value ≠ c.value := by
  refine reading_record_iff (fun v hv => ?_) (fun v h _ hh => ?_) rfl
  · exact (hash_ops_other hv).2 field
  · cases v <;> cases hh
    simp only [Op.leaves]
    split
    · rename_i hf
      have hne : Value.hash (h.erase field) ≠ .hash h := by
        intro heq
        have hsame : h.erase field = h := Value.hash.inj heq
        rw [← hsame] at hf
        simp at hf
      simp [logged, kept_ne hne]
    · simp [Decision.answer]

theorem sadd_record_iff (member : Bytes) :
    ((Op.sadd member).decide now key c).record.isSome ↔
      (Op.sadd member).leaves c.value ≠ c.value := by
  refine writing_record_iff (fun v hv => ?_) (fun v s _ hs => ?_) ?_
  · exact (set_ops_other hv).1 member
  · cases v <;> cases hs
    simp only [Op.leaves]
    split
    · simp [Decision.answer]
    · rename_i hm
      have hne : s.insert member ≠ s := by
        intro heq
        rw [← heq] at hm
        simp at hm
      simp [logged, hne]
  · simp [Op.leaves, logged]

theorem srem_record_iff (member : Bytes) :
    ((Op.srem member).decide now key c).record.isSome ↔
      (Op.srem member).leaves c.value ≠ c.value := by
  refine reading_record_iff (fun v hv => ?_) (fun v s _ hs => ?_) rfl
  · exact (set_ops_other hv).2 member
  · cases v <;> cases hs
    simp only [Op.leaves]
    split
    · rename_i hm
      have hne : Value.set (s.erase member) ≠ .set s := by
        intro heq
        have hsame : s.erase member = s := Value.set.inj heq
        rw [← hsame] at hm
        simp at hm
      simp [logged, kept_ne hne]
    · simp [Decision.answer]

theorem hset_record_iff (field value : Bytes) :
    (((Op.hset field value).decide now key c).record.isSome ↔
        (Op.hset field value).leaves c.value ≠ c.value) ↔
      ¬ (Op.hset field value).Redundant now c := by
  simp only [Op.Redundant, Op.decide, writing]
  cases hvalue : c.value with
  | none => simp [Op.leaves, logged]
  | some v =>
    cases v with
    | hash h =>
      have hsame : h.insert field value = h ↔ h[field]? = some value := by
        constructor
        · intro heq
          rw [← heq]
          simp
        · intro hf
          refine Std.ExtTreeMap.ext_getElem? fun field' => ?_
          rw [Std.ExtTreeMap.getElem?_insert]
          split
          · rename_i hfield
            rw [← Std.LawfulEqOrd.eq_of_compare hfield, hf]
          · rfl
      simp [Op.leaves, logged, Value.hash?, hsame]
    | string _ | list _ | set _ => simp [Op.leaves, Value.hash?, Decision.answer]

theorem silent_record_iff {op : Op} (hrecord : (op.decide now key c).record = none)
    (hleaves : op.leaves c.value = c.value) (hneeded : ¬ op.Redundant now c) :
    ((op.decide now key c).record.isSome ↔ op.leaves c.value ≠ c.value) ↔ ¬ op.Redundant now c := by
  simp [hrecord, hleaves, hneeded]

/-- An operation on the value of its key writes a record exactly if it leaves another value, unless
it is redundant. -/
theorem leaves_record_iff {op : Op} (hop : op.resets = false) :
    ((op.decide now key c).record.isSome ↔ op.leaves c.value ≠ c.value) ↔ ¬ op.Redundant now c := by
  cases op with
  | del | expire _ | set _ => cases hop
  | push side x => simpa [Op.Redundant] using push_record_iff side x
  | pop side => simpa [Op.Redundant] using pop_record_iff side
  | hset field value => exact hset_record_iff field value
  | hdel field => simpa [Op.Redundant] using hdel_record_iff field
  | sadd member => simpa [Op.Redundant] using sadd_record_iff member
  | srem member => simpa [Op.Redundant] using srem_record_iff member
  | ttl =>
    refine silent_record_iff ?_ rfl not_false
    simp only [Op.decide]
    split
    · rfl
    · split <;> rfl
  | hget field =>
    exact silent_record_iff (reading_record_none fun h => by split <;> rfl) rfl not_false
  | get | llen | lrange _ _ | hexists _ | hlen | sismember _ | scard | smembers =>
    exact silent_record_iff (reading_record_none fun _ => rfl) rfl not_false

/-- A new deadline changes a key with a value, unless it had the same one. -/
theorem expireAt_live_iff {t deadline : ℤ} (hlive : c.live t = c) (hvalue : c.value.isSome) :
    ({ c with deadline := some deadline } : Cell).live t ≠ c ↔ c.deadline ≠ some deadline := by
  refine not_congr ⟨fun h => ?_, fun h => ?_⟩
  · have hvalue' : (({ c with deadline := some deadline } : Cell).live t).value.isSome := by
      rw [h]
      exact hvalue
    obtain ⟨v, hv⟩ := Option.isSome_iff_exists.mp hvalue'
    rw [Cell.live_of_value hv] at h
    exact (congrArg Cell.deadline h).symm
  · rw [← h]
    exact hlive

theorem missing_ne (hvalue : c.value.isSome) : Cell.missing ≠ c := by
  rintro rfl
  cases hvalue

/-- What an operation does to a live cell shows exactly if it wrote a record, unless it is redundant. -/
def RecordIff (now : Readings) (key : Bytes) (op : Op) (c : Cell) : Prop :=
  ((op.decide now key c).record.isSome ↔
      ((op.decide now key c).change.apply c).live (op.checkedAt now) ≠ c) ↔
    ¬ op.Redundant now c

theorem set_record_iff (value : Bytes) : RecordIff now key (.set value) c := by
  have hset : (⟨some (.string value), none⟩ : Cell).live now.first = ⟨some (.string value), none⟩ := rfl
  simp only [RecordIff, Op.decide, Op.Redundant, Change.apply, Op.checkedAt, logged, hset]
  simp [eq_comm]

theorem del_record_iff (hc : c.Sound) : RecordIff now key .del c := by
  cases hvalue : c.value with
  | none =>
    rw [hc.eq_missing hvalue]
    simp [RecordIff, Op.decide, Op.Redundant, Change.apply, Cell.missing, Cell.live, Cell.due]
  | some v =>
    have hpresent : c.value.isSome := by rw [hvalue]; rfl
    simp [RecordIff, Op.decide, Op.Redundant, Change.apply, hvalue, logged, missing_ne hpresent]

theorem expire_record_iff (seconds : ℤ) (hlive : c.live now.second = c) :
    RecordIff now key (.expire seconds) c := by
  have hchecked : (Op.expire seconds).checkedAt now = now.second := rfl
  unfold RecordIff
  rw [hchecked]
  cases hvalue : c.value with
  | none => simp [Op.decide, Op.Redundant, Change.apply, Decision.answer, hvalue, hlive]
  | some v =>
    have hpresent : c.value.isSome := by rw [hvalue]; rfl
    by_cases hpos : seconds ≤ 0
    · simp [Op.decide, Op.Redundant, Change.apply, hvalue, hpos, logged, missing_ne hpresent]
    · have hdecide : (Op.expire seconds).decide now key c =
          ⟨makeInteger 1, .expireAt (now.first + seconds * nanosPerSecond),
            some (.expire key (now.unix + seconds))⟩ := by
        simp [Op.decide, hvalue, hpos]
      rw [hdecide, Change.apply, expireAt_live_iff hlive hpresent]
      simp [Op.Redundant, not_le.mp hpos, hpresent]

theorem decide_record_iff {op : Op} (hc : c.Sound) (hlive : c.live (op.checkedAt now) = c) :
    RecordIff now key op c := by
  cases hop : op.resets with
  | false =>
    rw [RecordIff, checkedAt_of_resets now hop] at *
    have hsame : withDeadline c.value c.deadline = c := withDeadline_self hc.deadline_none
    have hchanged : withDeadline (op.leaves c.value) c.deadline ≠ c ↔ op.leaves c.value ≠ c.value := by
      refine not_congr ⟨fun h => congrArg Cell.value h, fun h => ?_⟩
      rw [h, hsame]
    rw [decide_leaves now key hc.deadline_none hop, live_withDeadline hlive, hchanged]
    exact leaves_record_iff hop
  | true =>
    cases op with
    | set value => exact set_record_iff value
    | del => exact del_record_iff hc
    | expire seconds => exact expire_record_iff seconds hlive
    | _ => cases hop

end Operations

def checkedAt (now : Readings) (request : RespValue) : ℤ :=
  match interpret now request with
  | .ok (.on _ op) => op.checkedAt now
  | _ => now.first

/-- A command appends at most one record, and it appends one exactly if it changes the keys that are
not due, their values or their deadlines. -/
def RecordsChanges (now : Readings) (request : RespValue) (s : Session) : Prop :=
  ∃ record : Option LogRecord, (∀ r ∈ record, Shaped r) ∧
    (executeCommand now request s).2.log = appendRecords s.log record.toList ∧
    (record.isSome ↔ (executeCommand now request s).2.store.dropDue (checkedAt now request) ≠
      s.store.dropDue (checkedAt now request))

def Redundant (now : Readings) (request : RespValue) (store : Store) : Prop :=
  ∃ key op, asks now request key = some op ∧
    op.Redundant now ((store.cell key).live (op.checkedAt now))

section Requests
variable {now : Readings} {request : RespValue} {key : Bytes} {op : Op} {store : Store}
  {contents : Bytes}

theorem encode_ne_nil (r : LogRecord) : r.encode ≠ [] := by
  cases r <;> simp [LogRecord.encode, text]

theorem isSome_of_appendRecords {record record' : Option LogRecord}
    (h : appendRecords (some contents) record.toList = appendRecords (some contents) record'.toList) :
    record.isSome = record'.isSome := by
  cases record <;> cases record' <;> simp_all [appendRecords, encode_ne_nil]

theorem decide_shaped {c : Cell} (hc : c.Sound) {r : LogRecord}
    (hr : r ∈ (op.decide now key c).record) : Shaped r := by
  rcases decide_recorded now key op hc with ⟨hrecord, -⟩ | ⟨_, -, -, -, -, hrecord⟩ |
    ⟨_, _, _, hrecord, -, hshape, -, -, -, -⟩
  · rw [hrecord] at hr
    cases hr
  · rw [hrecord] at hr
    cases hr
    trivial
  · rw [hrecord] at hr
    cases hr
    exact hshape

/-- A request for no operation changes nothing and records nothing. -/
theorem recordsChanges_of_asks_none (h : ∀ key, asks now request key = none) (s : Session) :
    RecordsChanges now request s := by
  have hsame : (executeCommand now request s).2 = s := by
    rw [executeCommand_refines]
    cases hrequest : interpret now request with
    | error reply => rfl
    | ok r =>
      cases r with
      | ping => rfl
      | on key op =>
        have hop := asks_eq_some_iff.mpr hrequest
        rw [h key] at hop
        cases hop
  exact ⟨none, nofun, by simp [hsame], by simp [hsame]⟩

theorem setCell_eq_self_iff (s : Store) (key : Bytes) (c : Cell) :
    s.setCell key c = s ↔ c = s.cell key := by
  constructor
  · intro h
    have hcell := congrArg (Store.cell · key) h
    simpa using hcell
  · rintro rfl
    exact Store.setCell_cell s key

/-- A request on a key records its change, unless its operation is redundant there. -/
theorem recordsChanges_iff (hs : store.Sound) (hop : asks now request key = some op) :
    RecordsChanges now request ⟨store, some contents⟩ ↔
      ¬ op.Redundant now ((store.cell key).live (op.checkedAt now)) := by
  have hcell := (Store.sound_iff.mp hs key).live (op.checkedAt now)
  have hchecked : checkedAt now request = op.checkedAt now := by
    rw [checkedAt, asks_eq_some_iff.mp hop]
  have hiff := @decide_record_iff now key _ op hcell (Cell.live_live le_rfl _)
  rw [RecordIff] at hiff
  rw [← hiff, RecordsChanges, executeCommand_asks hop,
    commit, hchecked, Store.dropDue_setCell, ne_eq, setCell_eq_self_iff, Store.cell_dropDue]
  constructor
  · rintro ⟨record, -, hrecord, hiff⟩
    rwa [← isSome_of_appendRecords hrecord] at hiff
  · intro hiff
    exact ⟨_, fun r hr => decide_shaped hcell hr, rfl, hiff⟩

end Requests

end RedisLite.Operations

namespace RedisLite.Replay
open ByteStrings Resp Keyspace AppendLog Commands Operations

/-- The log records exactly the changes, apart from the redundant writes. -/
theorem records_changes_iff {store : Store} (hs : Reachable store) (contents : Bytes)
    (now : Readings) (request : RespValue) :
    RecordsChanges now request ⟨store, some contents⟩ ↔ ¬ Redundant now request store := by
  have hsound := reachable_sound hs
  by_cases hnone : ∀ key, asks now request key = none
  · refine iff_of_true (recordsChanges_of_asks_none hnone _) ?_
    rintro ⟨key, op, hop, -⟩
    rw [hnone key] at hop
    cases hop
  · push Not at hnone
    obtain ⟨key, hkey⟩ := hnone
    obtain ⟨op, hop⟩ := Option.ne_none_iff_exists'.mp hkey
    rw [recordsChanges_iff hsound hop]
    refine not_congr ⟨fun h => ⟨key, op, hop, h⟩, ?_⟩
    rintro ⟨key', op', hop', h⟩
    have hsame := (asks_eq_some_iff.mp hop).symm.trans (asks_eq_some_iff.mp hop')
    cases hsame
    exact h

def hsetField : RespValue := asRequest [CommandName.hset.upper, text "k", text "f", text "v"]

def oneField : Store := (executeCommand (.once 0 0) hsetField ⟨{}, some []⟩).2.store

theorem asks_hsetField : asks (.once 0 0) hsetField (text "k") = some (.hset (text "f") (text "v")) :=
  rfl

/-- The same `HSET` once more: a record of no change. -/
theorem hset_same_value_recorded : Reachable oneField ∧
    ¬ RecordsChanges (.once 0 0) hsetField ⟨oneField, some []⟩ := by
  have hreachable : Reachable oneField := Reachable.empty.command _ _ _
  refine ⟨hreachable, fun h => ?_⟩
  rw [recordsChanges_iff (reachable_sound hreachable) asks_hsetField] at h
  have hcell : oneField.cell (text "k") =
      ⟨some (.hash (({} : HashValue).insert (text "f") (text "v"))), none⟩ :=
    cell_of_asks asks_hsetField rfl ⟨{}, some []⟩ (c := .missing)
      (by simp [Store.cell, Cell.live, Cell.due, Cell.missing]) fun _ => rfl
  rw [hcell] at h
  exact h ⟨_, rfl, by simp⟩

theorem first_hset_recorded : RecordsChanges (.once 0 0) hsetField ⟨{}, some []⟩ := by
  refine (records_changes_iff Reachable.empty [] (.once 0 0) hsetField).mpr ?_
  rintro ⟨key, op, hop, hredundant⟩
  have hsame := (asks_eq_some_iff.mp asks_hsetField).symm.trans (asks_eq_some_iff.mp hop)
  cases hsame
  obtain ⟨h, hvalue, -⟩ := hredundant
  simp [Store.cell, Cell.live, Cell.due] at hvalue

end RedisLite.Replay
