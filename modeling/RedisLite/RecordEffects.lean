import RedisLite.StoreInvariant
import RedisLite.CommandErrors

/-!
# What a record says about its command

An operation that changes its cell writes a record, and the record names an operation that makes the
same change to every cell with the same value. The exception is `EXPIRE`: its record is a deadline in
Unix seconds.
-/

namespace RedisLite.Operations
open ByteStrings Resp Keyspace AppendLog Commands LogReader

/-- What an operation without a value of its own to start from makes of a missing key. -/
def Change.onMissing : Change → Cell
  | .replace v => ⟨some v, none⟩
  | _ => .missing

inductive Recorded (now : Readings) (key : Bytes) (op : Op) (c : Cell) (d : Decision) : Prop where
  | nothing (hrecord : d.record = none) (hcell : d.change.apply c = c)
  | deadline (seconds : ℤ) (hop : op = .expire seconds) (hpos : 0 < seconds)
      (hvalue : c.value.isSome) (hchange : d.change = .expireAt (now.first + seconds * nanosPerSecond))
      (hrecord : d.record = some (.expire key (now.unix + seconds)))
  | command (name : CommandName) (args : List Bytes) (op' : Op)
      (hrecord : d.record = logged name (key :: args))
      (hargs : ∀ now', interpretArgs now' name (key :: args) = .ok (.on key op'))
      (hshape : argumentsFor name.upper = some (key :: args).length)
      (hstrings : ∀ a ∈ args, a ∈ op.arguments)
      (hchange : ∀ deadline, d.change ≠ .expireAt deadline)
      (hsame : ∀ now' c', c'.value = c.value → (op'.decide now' key c').change = d.change)
      (hmissing : op.creates = false → ∀ now',
        (op'.decide now' key .missing).change.apply .missing = d.change.onMissing)

section Typed
variable {now : Readings} {key : Bytes} {op : Op} {c : Cell}
variable {α : Type} {getIf : Value → Option α} {found : α → Decision}
  (hfound : ∀ v x, c.value = some v → getIf v = some x → Recorded now key op c (found x))
include hfound

theorem reading_recorded {missing : RespValue} :
    Recorded now key op c (reading getIf missing found c) := by
  unfold reading
  cases hvalue : c.value with
  | none => exact .nothing rfl rfl
  | some v =>
    dsimp only
    cases hx : getIf v with
    | none => exact .nothing rfl rfl
    | some x => exact hfound v x hvalue hx

theorem writing_recorded {empty : α} (hempty : c.value = none → Recorded now key op c (found empty)) :
    Recorded now key op c (writing getIf empty found c) := by
  unfold writing
  cases hvalue : c.value with
  | none => exact hempty hvalue
  | some v =>
    dsimp only
    cases hx : getIf v with
    | none => exact .nothing rfl rfl
    | some x => exact hfound v x hvalue hx

end Typed

theorem shrunk_ne_expireAt (v : Value) (deadline : ℤ) : shrunk v ≠ .expireAt deadline := by
  unfold shrunk
  split <;> nofun

theorem onMissing_shrunk (v : Value) : (shrunk v).onMissing = .missing := by
  unfold shrunk
  split <;> rfl

section Operations
variable (now : Readings) (key : Bytes) {c : Cell}

theorem del_recorded (hc : c.Sound) : Recorded now key .del c (Op.del.decide now key c) := by
  cases hvalue : c.value with
  | none =>
    refine .nothing ?_ ?_
    · simp [Op.decide, hvalue]
    · exact (hc.eq_missing hvalue).symm
  | some v =>
    refine .command .del [] .del ?_ (fun _ => rfl) rfl (fun a ha => by cases ha)
      (fun deadline h => by cases h) (fun _ _ _ => rfl) (fun _ _ => rfl)
    simp [Op.decide, hvalue]

theorem expire_recorded (seconds : ℤ) :
    Recorded now key (.expire seconds) c ((Op.expire seconds).decide now key c) := by
  cases hvalue : c.value with
  | none =>
    refine .nothing ?_ ?_
    · simp [Op.decide, hvalue, Decision.answer]
    · simp [Op.decide, hvalue, Decision.answer, Change.apply]
  | some v =>
    by_cases hpos : seconds ≤ 0
    · -- a time that is not in the future is recorded as a removal
      have hdecide : (Op.expire seconds).decide now key c =
          ⟨makeInteger 1, .remove, logged .del [key]⟩ := by
        simp [Op.decide, hvalue, hpos]
      rw [hdecide]
      exact .command .del [] .del rfl (fun _ => rfl) rfl (fun a ha => by cases ha)
        (fun deadline h => by cases h) (fun _ _ _ => rfl) (fun _ _ => rfl)
    · refine .deadline seconds rfl (not_le.mp hpos) ?_ ?_ ?_ <;> simp [Op.decide, hvalue, hpos]

theorem ttl_recorded : Recorded now key .ttl c (Op.ttl.decide now key c) := by
  simp only [Op.decide]
  split
  · exact .nothing rfl rfl
  · split <;> exact .nothing rfl rfl

theorem set_recorded (value : Bytes) :
    Recorded now key (.set value) c ((Op.set value).decide now key c) :=
  .command .set [value] (.set value) rfl (fun _ => rfl) rfl (fun _ ha => ha) nofun
    (fun _ _ _ => rfl) (fun _ _ => rfl)

theorem push_recorded (side : Side) (x : Bytes) :
    Recorded now key (.push side x) c ((Op.push side x).decide now key c) := by
  have hcommand (l : ListValue) (hsame : ∀ now' c', c'.value = c.value →
      ((Op.push side x).decide now' key c').change = .put (.list (side.push x l))) :
      Recorded now key (.push side x) c ⟨makeInteger (side.push x l).length,
        .put (.list (side.push x l)), logged side.pushName [key, x]⟩ := by
    refine .command side.pushName [x] (.push side x) rfl (fun _ => ?_) ?_ (fun _ ha => ha) nofun
      hsame nofun
    · cases side <;> rfl
    · cases side <;> rfl
  refine writing_recorded (fun v l hv hl => hcommand l (fun now' c' hc' => ?_))
    (fun hv => hcommand [] (fun now' c' hc' => ?_))
  · simp [Op.decide, writing, hc', hv, hl]
  · simp [Op.decide, writing, hc', hv]

theorem pop_recorded (side : Side) :
    Recorded now key (.pop side) c ((Op.pop side).decide now key c) := by
  refine reading_recorded (fun v l hv hl => ?_)
  cases hpop : side.pop l with
  | none => exact .nothing rfl rfl
  | some p =>
    refine .command side.popName [] (.pop side) rfl (fun _ => ?_) ?_ nofun
      (shrunk_ne_expireAt _) (fun now' c' hc' => ?_) (fun _ _ => (onMissing_shrunk _).symm)
    · cases side <;> rfl
    · cases side <;> rfl
    · simp [Op.decide, reading, hc', hv, hl, hpop]

theorem hset_recorded (field value : Bytes) :
    Recorded now key (.hset field value) c ((Op.hset field value).decide now key c) := by
  have hcommand (h : HashValue) (hsame : ∀ now' c', c'.value = c.value →
      ((Op.hset field value).decide now' key c').change = .put (.hash (h.insert field value))) :
      Recorded now key (.hset field value) c ⟨makeFlag (!h.contains field),
        .put (.hash (h.insert field value)), logged .hset [key, field, value]⟩ :=
    .command .hset [field, value] (.hset field value) rfl (fun _ => rfl) rfl (fun _ ha => ha) nofun
      hsame nofun
  refine writing_recorded (fun v h hv hh => hcommand h (fun now' c' hc' => ?_))
    (fun hv => hcommand ∅ (fun now' c' hc' => ?_))
  · simp [Op.decide, writing, hc', hv, hh]
  · simp [Op.decide, writing, hc', hv]

theorem hdel_recorded (field : Bytes) :
    Recorded now key (.hdel field) c ((Op.hdel field).decide now key c) := by
  refine reading_recorded (fun v h hv hh => ?_)
  split
  · rename_i hf
    refine .command .hdel [field] (.hdel field) rfl (fun _ => rfl) rfl (fun _ ha => ha)
      (shrunk_ne_expireAt _) (fun now' c' hc' => ?_) (fun _ _ => (onMissing_shrunk _).symm)
    simp [Op.decide, reading, hc', hv, hh, hf]
  · exact .nothing rfl rfl

theorem sadd_recorded (member : Bytes) :
    Recorded now key (.sadd member) c ((Op.sadd member).decide now key c) := by
  have hcommand (s : SetValue) (hsame : ∀ now' c', c'.value = c.value →
      ((Op.sadd member).decide now' key c').change =
        if s.contains member then .keep else .put (.set (s.insert member))) :
      Recorded now key (.sadd member) c (if s.contains member then .answer (makeInteger 0)
        else ⟨makeInteger 1, .put (.set (s.insert member)), logged .sadd [key, member]⟩) := by
    by_cases hm : s.contains member
    · rw [if_pos hm]
      exact .nothing rfl rfl
    · simp only [hm] at hsame ⊢
      exact .command .sadd [member] (.sadd member) rfl (fun _ => rfl) rfl (fun _ ha => ha) nofun
        hsame nofun
  refine writing_recorded (fun v s hv hs => hcommand s (fun now' c' hc' => ?_))
    (fun hv => hcommand ∅ (fun now' c' hc' => ?_))
  · simp only [Op.decide, writing, hc', hv, hs]
    split <;> rfl
  · simp only [Op.decide, writing, hc', hv]
    split <;> rfl

theorem srem_recorded (member : Bytes) :
    Recorded now key (.srem member) c ((Op.srem member).decide now key c) := by
  refine reading_recorded (fun v s hv hs => ?_)
  split
  · rename_i hm
    refine .command .srem [member] (.srem member) rfl (fun _ => rfl) rfl (fun _ ha => ha)
      (shrunk_ne_expireAt _) (fun now' c' hc' => ?_) (fun _ _ => (onMissing_shrunk _).symm)
    simp [Op.decide, reading, hc', hv, hs, hm]
  · exact .nothing rfl rfl

theorem hget_recorded (field : Bytes) :
    Recorded now key (.hget field) c ((Op.hget field).decide now key c) := by
  refine reading_recorded (fun v h hv hh => ?_)
  split <;> exact .nothing rfl rfl

/-- What an operation records agrees with what it does to a sound cell. -/
theorem decide_recorded (op : Op) (hc : c.Sound) : Recorded now key op c (op.decide now key c) := by
  cases op with
  | del => exact del_recorded now key hc
  | expire seconds => exact expire_recorded now key seconds
  | ttl => exact ttl_recorded now key
  | set value => exact set_recorded now key value
  | push side x => exact push_recorded now key side x
  | pop side => exact pop_recorded now key side
  | hset field value => exact hset_recorded now key field value
  | hget field => exact hget_recorded now key field
  | hdel field => exact hdel_recorded now key field
  | sadd member => exact sadd_recorded now key member
  | srem member => exact srem_recorded now key member
  | get | llen | lrange | hexists | hlen | sismember | scard | smembers =>
    exact reading_recorded (fun _ _ _ _ => .nothing rfl rfl)

end Operations

end RedisLite.Operations

namespace RedisLite.Replay
open ByteStrings Resp Keyspace AppendLog Commands Operations RecordFiles LogReader

theorem toUpper_upper (command : CommandName) : toUpper command.upper = command.upper := by
  cases command <;> rfl

theorem interpret_words (now : Readings) (command : CommandName) (args : List Bytes) :
    interpret now (asRequest (command.upper :: args)) = interpretArgs now command args := by
  have hwords := requestWords_asRequest (List.cons_ne_nil command.upper args)
  simp only [interpret, hwords, toUpper_upper, commandNamed_upper]

theorem executeCommand_words (now : Readings) (command : CommandName) (args : List Bytes)
    (s : Session) : executeCommand now (asRequest (command.upper :: args)) s =
      answer now (interpretArgs now command args) s := by
  rw [executeCommand_refines, interpret_words]

theorem executeRecord_command {now : Readings} {command : CommandName} {args : List Bytes}
    {key : Bytes} {op : Op} (h : interpretArgs now command args = .ok (.on key op)) (s : Store)
    {c : Cell} (hc : (s.cell key).live (op.checkedAt now) = c) :
    executeRecord now (.command command.upper args) s =
      s.setCell key ((op.decide now key c).change.apply c) := by
  simp only [executeRecord, executeCommand_words, h, answer, perform, commit, hc]

theorem executeRecord_past {now : Readings} {key : Bytes} {deadline : ℤ} (h : deadline ≤ now.unix)
    (hin : InInt64 (deadline - now.unix)) (s : Store) :
    executeRecord now (.expire key deadline) s = s.setCell key .missing := by
  have hdel : text "DEL" = CommandName.del.upper := rfl
  have hargs : interpretArgs now .del [key] = .ok (.on key .del) := rfl
  have hle : deadline - now.unix ≤ 0 := by omega
  simp only [executeRecord, wrapInt64_of_inInt64 hin, hle, if_true, hdel, executeCommand_words,
    hargs, answer, perform, commit, Op.decide, Change.apply]

theorem executeRecord_ahead {now : Readings} {key : Bytes} {deadline : ℤ} (h : now.unix < deadline)
    (hin : InInt64 (deadline - now.unix)) (hmax : deadline - now.unix ≤ maxSeconds now.first)
    (s : Store) {c : Cell} (hc : (s.cell key).live now.second = c) :
    executeRecord now (.expire key deadline) s = s.setCell key
      (if c.value.isSome then
        { c with deadline := some (now.first + (deadline - now.unix) * nanosPerSecond) }
      else c) := by
  have hexpire : text "EXPIRE" = CommandName.expire.upper := rfl
  have hargs : interpretArgs now .expire [key, intDecimal (deadline - now.unix)] =
      .ok (.on key (.expire (deadline - now.unix))) := by
    simp only [interpretArgs, toInteger_intDecimal hin, not_lt.mpr hmax, if_false]
  have hle : ¬ deadline - now.unix ≤ 0 := by omega
  simp only [executeRecord, wrapInt64_of_inInt64 hin, hle, if_false, hexpire, executeCommand_words,
    hargs, answer, perform, commit, Op.checkedAt, hc, Op.decide]
  cases hvalue : c.value with
  | none => simp [Decision.answer, Change.apply]
  | some v => simp [Change.apply, hvalue]

/-- An `EXPIRE` record changes no cell but the one of its key. -/
theorem executeRecord_expire (now : Readings) (key : Bytes) (deadline : ℤ) (s : Store) :
    ∃ c, executeRecord now (.expire key deadline) s = s.setCell key c := by
  by_cases hle : wrapInt64 (deadline - now.unix) ≤ 0
  · have hdel : text "DEL" = CommandName.del.upper := rfl
    have hargs : interpretArgs now .del [key] = .ok (.on key .del) := rfl
    simp only [executeRecord, hle, if_true, hdel, executeCommand_words, hargs, answer]
    exact ⟨_, rfl⟩
  · have hexpire : text "EXPIRE" = CommandName.expire.upper := rfl
    simp only [executeRecord, hle, if_false, hexpire, executeCommand_words, interpretArgs]
    split
    · exact ⟨s.cell key, (Store.setCell_cell s key).symm⟩
    · split
      · exact ⟨s.cell key, (Store.setCell_cell s key).symm⟩
      · exact ⟨_, rfl⟩

theorem loaded_append (now : Readings) (records : List LogRecord) (r : LogRecord) :
    loaded (fun _ => now) (records ++ [r]) =
      executeRecord now r (loaded (fun _ => now) records) := by
  simp only [loaded, applyAll_append, applyAll]

end RedisLite.Replay
