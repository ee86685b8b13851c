import RedisLite.KeyOperations

/-!
# Commands act on the cell of their key

Every command of the source is equal to its argument checks followed by its operation on the cell
of its key, taken after the deadline check, and stored back. The two ways to a typed value are
proved once; each command is then its own continuation.
-/

namespace RedisLite.Operations
open ByteStrings Resp Keyspace AppendLog Commands

theorem removeKey_eq (store : Store) (key : Bytes) :
    removeKey store key = store.setCell key .missing := by
  apply Store.ext_cell
  intro key'
  rw [Store.cell_setCell]
  simp only [Store.cell, removeKey, Std.ExtTreeMap.getElem?_erase, Std.compare_eq_iff_eq]
  split <;> rfl

theorem setValue_eq (store : Store) (key : Bytes) (value : Value) :
    setValue store key value = store.setCell key { store.cell key with value := some value } := by
  apply Store.ext_cell
  intro key'
  rw [Store.cell_setCell]
  simp only [Store.cell, setValue, Std.ExtTreeMap.getElem?_insert, Std.compare_eq_iff_eq]
  split
  · rename_i h
    rw [h]
  · rfl

theorem expireIfDue_eq (now : ℤ) (store : Store) (key : Bytes) :
    expireIfDue now store key = store.setCell key ((store.cell key).live now) := by
  have hdeadline : (store.cell key).deadline = store.expirations[key]? := rfl
  unfold expireIfDue
  cases hd : store.expirations[key]? with
  | none =>
    have hlive : (store.cell key).live now = store.cell key := by
      simp [Cell.live, Cell.due, hdeadline, hd]
    rw [hlive, Store.setCell_cell]
  | some deadline =>
    by_cases hlt : now < deadline
    · have hlive : (store.cell key).live now = store.cell key := by
        simp [Cell.live, Cell.due, hdeadline, hd, hlt]
      simp only [hlt, if_true, hlive, Store.setCell_cell]
    · have hlive : (store.cell key).live now = .missing := by
        simp [Cell.live, Cell.due, hdeadline, hd, not_lt.mp hlt]
      simp only [hlt, if_false, hlive, removeKey_eq]

theorem values_cell (store : Store) (key : Bytes) :
    store.values[key]? = (store.cell key).value := rfl

theorem expirations_cell (store : Store) (key : Bytes) :
    store.expirations[key]? = (store.cell key).deadline := rfl

theorem contains_cell (store : Store) (key : Bytes) :
    store.values.contains key = (store.cell key).value.isSome :=
  Std.ExtTreeMap.contains_eq_isSome_getElem?

theorem setValue_setCell (store : Store) (key : Bytes) (c : Cell) (value : Value) :
    setValue (store.setCell key c) key value =
      store.setCell key { c with value := some value } := by
  rw [setValue_eq, Store.setCell_setCell, Store.cell_setCell_self]

theorem removeKey_setCell (store : Store) (key : Bytes) (c : Cell) :
    removeKey (store.setCell key c) key = store.setCell key .missing := by
  rw [removeKey_eq, Store.setCell_setCell]

theorem dropIfEmpty_setValue (store : Store) (key : Bytes) (c : Cell) (value : Value) :
    dropIfEmpty (setValue (store.setCell key c) key value) key =
      store.setCell key ((shrunk value).apply c) := by
  rw [setValue_setCell, dropIfEmpty, values_cell, Store.cell_setCell_self]
  by_cases h : value.isEmpty
  · simp only [h, if_true, removeKey_setCell, shrunk, Change.apply]
  · simp [h, shrunk, Change.apply]

theorem insert_expirations (store : Store) (key : Bytes) (c : Cell) (deadline : ℤ) :
    ({ store.setCell key c with
        expirations := (store.setCell key c).expirations.insert key deadline } : Store) =
      store.setCell key { c with deadline := some deadline } := by
  apply Store.ext_cell
  intro key'
  have hvalue := congrArg Cell.value (Store.cell_setCell store key key' c)
  have hdeadline := congrArg Cell.deadline (Store.cell_setCell store key key' c)
  simp only [Store.cell] at hvalue hdeadline
  rw [Store.cell_setCell, Store.cell]
  simp only [Std.ExtTreeMap.getElem?_insert, Std.compare_eq_iff_eq, hvalue, hdeadline]
  split <;> simp [Store.cell]

theorem erase_expirations (store : Store) (key : Bytes) (c : Cell) :
    ({ store.setCell key c with
        expirations := (store.setCell key c).expirations.erase key } : Store) =
      store.setCell key { c with deadline := none } := by
  apply Store.ext_cell
  intro key'
  have hvalue := congrArg Cell.value (Store.cell_setCell store key key' c)
  have hdeadline := congrArg Cell.deadline (Store.cell_setCell store key key' c)
  simp only [Store.cell] at hvalue hdeadline
  rw [Store.cell_setCell, Store.cell]
  simp only [Std.ExtTreeMap.getElem?_erase, Std.compare_eq_iff_eq, hvalue, hdeadline]
  split <;> simp [Store.cell]

section Typed
variable {α : Type} {getIf : Value → Option α} {now : ℤ} {key : Bytes} {s : Session}
variable {found : α → Session → Outcome} {found' : α → Decision}

theorem commit_answer (key : Bytes) (c : Cell) (reply : RespValue) (s : Session) :
    commit key c (.answer reply) s = (reply, ⟨s.store.setCell key c, s.log⟩) := by
  simp [commit, Decision.answer, Change.apply]

theorem withTyped_eq {missing : RespValue} {c : Cell} (hc : (s.store.cell key).live now = c)
    (hfound : ∀ x, found x ⟨s.store.setCell key c, s.log⟩ = commit key c (found' x) s) :
    withTyped getIf now key missing found s = commit key c (reading getIf missing found' c) s := by
  unfold withTyped readTyped reading
  simp only [expireIfDue_eq, hc, values_cell, Store.cell_setCell_self]
  cases c.value with
  | none => rw [commit_answer]
  | some value =>
    cases hvalue : getIf value with
    | none => simp only [hvalue]; rw [commit_answer]
    | some typed => simp only [hvalue]; exact hfound typed

theorem withWritable_eq {emptyValue : Value} {empty : α} {c : Cell}
    (hc : (s.store.cell key).live now = c) (hempty : getIf emptyValue = some empty)
    (hmissing : found empty ⟨s.store.setCell key { c with value := some emptyValue }, s.log⟩ =
      commit key c (found' empty) s)
    (hfound : ∀ x, found x ⟨s.store.setCell key c, s.log⟩ = commit key c (found' x) s) :
    withWritable getIf emptyValue now key found s = commit key c (writing getIf empty found' c) s := by
  unfold withWritable writeTyped writing
  simp only [expireIfDue_eq, hc, contains_cell, Store.cell_setCell_self]
  cases hvalue : c.value with
  | none =>
    simp only [Option.isSome_none, Bool.false_eq_true, if_false, setValue_setCell, values_cell,
      Store.cell_setCell_self, Option.bind_some, hempty]
    exact hmissing
  | some value =>
    simp only [Option.isSome_some, if_true, values_cell, Store.cell_setCell_self, hvalue,
      Option.bind_some]
    cases hget : getIf value with
    | none => exact (commit_answer key c wrongType s).symm
    | some typed => exact hfound typed

end Typed

variable (now : Readings) (args : List Bytes) (s : Session)

theorem ping_refines : ping args s = answer now (interpretArgs now .ping args) s := by
  match args with
  | [] => rfl
  | _ :: _ => rfl

theorem del_refines : del now args s = answer now (interpretArgs now .del args) s := by
  match args with
  | [] => rfl
  | [key] =>
    simp only [del, expireIfDue_eq, contains_cell, Store.cell_setCell_self, removeKey_setCell,
      logCommand_eq, answer, interpretArgs, perform, commit, Op.decide, Op.checkedAt, Change.apply,
      logged]
    by_cases hvalue : ((s.store.cell key).live now.first).value.isSome <;> simp [hvalue]
  | _ :: _ :: _ => rfl

theorem expire_refines : expire now args s = answer now (interpretArgs now .expire args) s := by
  match args with
  | [] => rfl
  | [_] => rfl
  | _ :: _ :: _ :: _ => rfl
  | [key, amount] =>
    simp only [expire, interpretArgs]
    cases toInteger amount with
    | none => rfl
    | some seconds =>
      by_cases hmax : maxSeconds now.first < seconds
      · simp only [hmax, if_true]
        rfl
      · simp only [hmax, if_false, expireIfDue_eq, contains_cell, Store.cell_setCell_self, answer,
          perform, Op.decide, Op.checkedAt, removeKey_setCell, insert_expirations, logCommand_eq,
          logExpire_eq]
        rcases Option.eq_none_or_eq_some ((s.store.cell key).live now.second).value with
          hnone | ⟨value, hsome⟩
        · simp [hnone, commit_answer]
        · by_cases hpos : seconds ≤ 0 <;> simp [hsome, hpos, commit, Change.apply, logged]

theorem ttl_refines : ttl now args s = answer now (interpretArgs now .ttl args) s := by
  match args with
  | [] => rfl
  | [key] =>
    simp only [ttl, expireIfDue_eq, contains_cell, expirations_cell, Store.cell_setCell_self, answer,
      interpretArgs, perform, Op.decide, Op.checkedAt]
    rcases Option.eq_none_or_eq_some ((s.store.cell key).live now.first).value with
      hnone | ⟨value, hsome⟩
    · simp [hnone, commit_answer]
    · cases ((s.store.cell key).live now.first).deadline <;> simp [hsome, commit_answer]
  | _ :: _ :: _ => rfl

theorem set_refines : Commands.set args s = answer now (interpretArgs now .set args) s := by
  match args with
  | [] => rfl
  | [_] => rfl
  | [key, value] =>
    simp only [Commands.set, setValue_eq, erase_expirations, logCommand_eq, answer, interpretArgs,
      perform, commit, Op.decide, Change.apply, logged, Option.toList_some]
  | _ :: _ :: _ :: _ => rfl

theorem get_refines : get now args s = answer now (interpretArgs now .get args) s := by
  match args with
  | [] => rfl
  | [key] => exact withTyped_eq rfl (fun x => (commit_answer key _ _ s).symm)
  | _ :: _ :: _ => rfl

/-- Both pushes write the longer list through the value they were given. -/
theorem push_key_refines (side : Side) (key x : Bytes) :
    push side.pushName now [key, x] s = perform now (.on key (.push side x)) s := by
  have hlist (l : ListValue) :
      (if side.pushName = .lpush then x :: l else l ++ [x]) = side.push x l := by
    cases side <;> rfl
  simp only [push, hlist, logCommand_eq]
  refine withWritable_eq rfl rfl ?_ (fun l => ?_) <;>
    simp only [setValue_setCell, commit, Change.apply, logged, Option.toList_some]

theorem push_refines (side : Side) :
    push side.pushName now args s = answer now (interpretArgs now side.pushName args) s := by
  match args with
  | [] => cases side <;> rfl
  | [_] => cases side <;> rfl
  | [key, x] => cases side <;> exact push_key_refines now s _ key x
  | _ :: _ :: _ :: _ => cases side <;> rfl

theorem pop_key_refines (side : Side) (key : Bytes) :
    pop side.popName now [key] s = perform now (.on key (.pop side)) s := by
  simp only [pop, logCommand_eq]
  refine withTyped_eq rfl (fun l => ?_)
  cases side with
  | left =>
    cases hl : l.head? with
    | none => simp [Side.popName, Side.pop, hl, commit_answer]
    | some x => simp [Side.popName, Side.pop, hl, commit, logged, dropIfEmpty_setValue]
  | right =>
    cases hl : l.getLast? with
    | none => simp [Side.popName, Side.pop, hl, commit_answer]
    | some x => simp [Side.popName, Side.pop, hl, commit, logged, dropIfEmpty_setValue]

theorem pop_refines (side : Side) :
    pop side.popName now args s = answer now (interpretArgs now side.popName args) s := by
  match args with
  | [] => cases side <;> rfl
  | [key] => cases side <;> exact pop_key_refines now s _ key
  | _ :: _ :: _ => cases side <;> rfl

theorem llen_refines : llen now args s = answer now (interpretArgs now .llen args) s := by
  match args with
  | [] => rfl
  | [key] => exact withTyped_eq rfl (fun x => (commit_answer key _ _ s).symm)
  | _ :: _ :: _ => rfl

theorem lrange_refines : lrange now args s = answer now (interpretArgs now .lrange args) s := by
  match args with
  | [] => rfl
  | [_] => rfl
  | [_, _] => rfl
  | [key, first, last] =>
    simp only [lrange, interpretArgs]
    cases toInteger first with
    | none => rfl
    | some start =>
      cases toInteger last with
      | none => rfl
      | some stop => exact withTyped_eq rfl (fun x => (commit_answer key _ _ s).symm)
  | _ :: _ :: _ :: _ :: _ => rfl

theorem hset_refines : hset now args s = answer now (interpretArgs now .hset args) s := by
  match args with
  | [] => rfl
  | [_] => rfl
  | [_, _] => rfl
  | [key, field, value] =>
    simp only [hset, logCommand_eq]
    refine withWritable_eq rfl rfl ?_ (fun h => ?_) <;>
      simp only [setValue_setCell, commit, Change.apply, logged, Option.toList_some]
  | _ :: _ :: _ :: _ :: _ => rfl

theorem hget_refines : hget now args s = answer now (interpretArgs now .hget args) s := by
  match args with
  | [] => rfl
  | [_] => rfl
  | [key, field] =>
    simp only [hget]
    refine withTyped_eq rfl (fun h => ?_)
    cases h[field]? <;> simp only [commit_answer]
  | _ :: _ :: _ :: _ => rfl

theorem hdel_refines : hdel now args s = answer now (interpretArgs now .hdel args) s := by
  match args with
  | [] => rfl
  | [_] => rfl
  | [key, field] =>
    simp only [hdel, logCommand_eq]
    refine withTyped_eq rfl (fun h => ?_)
    by_cases hf : h.contains field
    · simp [hf, dropIfEmpty_setValue, commit, logged]
    · simp [hf, commit_answer]
  | _ :: _ :: _ :: _ => rfl

theorem hexists_refines : hexists now args s = answer now (interpretArgs now .hexists args) s := by
  match args with
  | [] => rfl
  | [_] => rfl
  | [key, field] => exact withTyped_eq rfl (fun x => (commit_answer key _ _ s).symm)
  | _ :: _ :: _ :: _ => rfl

theorem hlen_refines : hlen now args s = answer now (interpretArgs now .hlen args) s := by
  match args with
  | [] => rfl
  | [key] => exact withTyped_eq rfl (fun x => (commit_answer key _ _ s).symm)
  | _ :: _ :: _ => rfl

theorem sadd_refines : sadd now args s = answer now (interpretArgs now .sadd args) s := by
  match args with
  | [] => rfl
  | [_] => rfl
  | [key, member] =>
    simp only [sadd, logCommand_eq]
    refine withWritable_eq rfl rfl ?_ (fun set => ?_)
    · simp [setValue_setCell, commit, Change.apply, logged]
    · by_cases hm : set.contains member
      · simp [hm, commit_answer]
      · simp [hm, setValue_setCell, commit, Change.apply, logged]
  | _ :: _ :: _ :: _ => rfl

theorem srem_refines : srem now args s = answer now (interpretArgs now .srem args) s := by
  match args with
  | [] => rfl
  | [_] => rfl
  | [key, member] =>
    simp only [srem, logCommand_eq]
    refine withTyped_eq rfl (fun set => ?_)
    by_cases hm : set.contains member
    · simp [hm, dropIfEmpty_setValue, commit, logged]
    · simp [hm, commit_answer]
  | _ :: _ :: _ :: _ => rfl

theorem sismember_refines :
    sismember now args s = answer now (interpretArgs now .sismember args) s := by
  match args with
  | [] => rfl
  | [_] => rfl
  | [key, member] => exact withTyped_eq rfl (fun x => (commit_answer key _ _ s).symm)
  | _ :: _ :: _ :: _ => rfl

theorem scard_refines : scard now args s = answer now (interpretArgs now .scard args) s := by
  match args with
  | [] => rfl
  | [key] => exact withTyped_eq rfl (fun x => (commit_answer key _ _ s).symm)
  | _ :: _ :: _ => rfl

theorem smembers_refines : smembers now args s = answer now (interpretArgs now .smembers args) s := by
  match args with
  | [] => rfl
  | [key] => exact withTyped_eq rfl (fun x => (commit_answer key _ _ s).symm)
  | _ :: _ :: _ => rfl

theorem runCommand_refines (name : CommandName) :
    runCommand name now args s = answer now (interpretArgs now name args) s := by
  cases name with
  | ping => exact ping_refines now args s
  | del => exact del_refines now args s
  | expire => exact expire_refines now args s
  | ttl => exact ttl_refines now args s
  | set => exact set_refines now args s
  | get => exact get_refines now args s
  | lpush => exact push_refines now args s .left
  | rpush => exact push_refines now args s .right
  | lpop => exact pop_refines now args s .left
  | rpop => exact pop_refines now args s .right
  | llen => exact llen_refines now args s
  | lrange => exact lrange_refines now args s
  | hset => exact hset_refines now args s
  | hget => exact hget_refines now args s
  | hdel => exact hdel_refines now args s
  | hexists => exact hexists_refines now args s
  | hlen => exact hlen_refines now args s
  | sadd => exact sadd_refines now args s
  | srem => exact srem_refines now args s
  | sismember => exact sismember_refines now args s
  | scard => exact scard_refines now args s
  | smembers => exact smembers_refines now args s

/-- A command is its checks followed by its operation on the cell of its key. -/
theorem executeCommand_refines (request : RespValue) :
    executeCommand now request s = answer now (interpret now request) s := by
  unfold executeCommand interpret
  cases requestWords request with
  | none => rfl
  | some words =>
    cases words with
    | nil => rfl
    | cons name args =>
      cases hname : commandNamed (toUpper name) with
      | none => simp only [hname]; rfl
      | some command => simp only [hname]; exact runCommand_refines now args s command

end RedisLite.Operations
