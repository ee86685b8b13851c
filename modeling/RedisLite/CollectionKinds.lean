import RedisLite.InsertRemove

/-!
# The three kinds of collections

Lists, hashes and sets have in common what a run does to them: an operation moves the collection on,
its reply counts the elements that came or went, and the key is missing when there are none.
-/

namespace RedisLite.Accounting
open ByteStrings Resp Keyspace AppendLog Commands Operations

def integerReply (reply : RespValue) : ℤ := if reply.type = .integer then reply.integer else 0

def successfulPush : Op → RespValue → ℤ
  | .push _ _, reply => if reply.type = .integer then 1 else 0
  | _, _ => 0

def nonNullPop : Op → RespValue → ℤ
  | .pop _, reply => if reply.type = .bulkString ∧ reply.isNull = false then 1 else 0
  | _, _ => 0

def hsetReply : Op → RespValue → ℤ
  | .hset _ _, reply => integerReply reply
  | _, _ => 0

def hdelReply : Op → RespValue → ℤ
  | .hdel _, reply => integerReply reply
  | _, _ => 0

def saddReply : Op → RespValue → ℤ
  | .sadd _, reply => integerReply reply
  | _, _ => 0

def sremReply : Op → RespValue → ℤ
  | .srem _, reply => integerReply reply
  | _, _ => 0

def queued : Op → ListValue → ListValue
  | .push side x, l => side.push x l
  | .pop side, l => ((side.pop l).map Prod.snd).getD l
  | _, l => l

def written (field : Bytes) : Op → Option Bytes → Option Bytes
  | .hset field' value, v => if field' = field then some value else v
  | .hdel field', v => if field' = field then none else v
  | _, v => v

def included (member : Bytes) : Op → Bool → Bool
  | .sadd member', b => if member' = member then true else b
  | .srem member', b => if member' = member then false else b
  | _, b => b

section Values
variable {now : Readings} {key : Bytes} {v : Option Value}

def replyOn (now : Readings) (key : Bytes) (op : Op) (v : Option Value) : RespValue :=
  (op.decide now key ⟨v, none⟩).reply

theorem typedOf_kept {α : Type} {getIf : Value → Option α} {empty x : α} {value : Value}
    (hvalue : getIf value = some x) (hempty : value.isEmpty = true → x = empty) :
    typedOf getIf empty (kept value) = some x := by
  unfold kept
  split
  · rename_i h
    rw [hempty h]
    rfl
  · exact hvalue

def popReply (side : Side) (l : ListValue) : RespValue :=
  match side.pop l with
  | none => makeNullBulkString
  | some (x, _) => makeBulkString x

theorem leaves_list {op : Op} {l l' : ListValue} (hl : typedOf Value.list? [] v = some l)
    (hl' : typedOf Value.list? [] (op.leaves v) = some l') : l' = queued op l := by
  cases v with
  | none =>
    cases hl
    cases op with
    | pop side => cases side <;> cases hl' <;> rfl
    | _ => cases hl' <;> rfl
  | some w =>
    cases w <;> cases hl
    cases op with
    | pop side =>
      simp only [Op.leaves, queued] at hl' ⊢
      cases hpop : side.pop l with
      | none =>
        simp only [hpop] at hl'
        cases hl'
        rfl
      | some popped =>
        obtain ⟨x, rest⟩ := popped
        simp only [hpop] at hl'
        have hkept := @typedOf_kept _ Value.list? [] rest (.list rest) rfl List.isEmpty_iff.mp
        rw [hkept] at hl'
        cases hl'
        rfl
    | _ =>
      cases hl'
      rfl

theorem replyOn_pop {side : Side} {l : ListValue} (hl : typedOf Value.list? [] v = some l) :
    replyOn now key (.pop side) v = popReply side l := by
  rw [replyOn, Op.decide, reading_typedOf hl (by cases side <;> rfl), popReply]
  cases side.pop l <;> rfl

theorem length_queued {op : Op} {l : ListValue} (hl : typedOf Value.list? [] v = some l) :
    ((queued op l).length : ℤ) = l.length + successfulPush op (replyOn now key op v) -
      nonNullPop op (replyOn now key op v) := by
  cases op with
  | push side x =>
    have hreply : replyOn now key (.push side x) v = makeInteger (side.push x l).length := by
      rw [replyOn, Op.decide, writing_typedOf hl]
    rw [hreply]
    cases side <;> simp [queued, Side.push, successfulPush, nonNullPop, makeInteger]
  | pop side =>
    rw [replyOn_pop hl, popReply, queued]
    cases hpop : side.pop l with
    | none => simp [successfulPush, nonNullPop, makeNullBulkString]
    | some popped => simp [successfulPush, nonNullPop, makeBulkString, Side.length_of_pop hpop]
  | _ => simp [queued, successfulPush, nonNullPop]

def hashed : Op → HashValue → HashValue
  | .hset field value, h => h.insert field value
  | .hdel field, h => h.erase field
  | _, h => h

theorem erase_hash_of_not_mem {h : HashValue} {field : Bytes} (hf : field ∉ h) :
    h.erase field = h := by
  refine Std.ExtTreeMap.ext_getElem? fun field' => ?_
  rw [Std.ExtTreeMap.getElem?_erase]
  split
  · rename_i hfield
    rw [← Std.LawfulEqOrd.eq_of_compare hfield, Std.ExtTreeMap.getElem?_eq_none hf]
  · rfl

theorem leaves_hash {op : Op} {h h' : HashValue} (hh : typedOf Value.hash? ∅ v = some h)
    (hh' : typedOf Value.hash? ∅ (op.leaves v) = some h') : h' = hashed op h := by
  cases v with
  | none =>
    cases hh
    cases op with
    | hdel field =>
      cases hh'
      exact (erase_hash_of_not_mem (by simp)).symm
    | _ => cases hh' <;> rfl
  | some w =>
    cases w <;> cases hh
    cases op with
    | hdel field =>
      simp only [Op.leaves, hashed] at hh' ⊢
      split at hh'
      · have hkept := @typedOf_kept _ Value.hash? ∅ (h.erase field) (.hash (h.erase field)) rfl
          Std.ExtTreeMap.isEmpty_iff.mp
        rw [hkept] at hh'
        cases hh'
        rfl
      · rename_i hf
        cases hh'
        exact (erase_hash_of_not_mem hf).symm
    | _ =>
      cases hh'
      rfl

theorem getElem?_hashed (op : Op) (h : HashValue) (field : Bytes) :
    (hashed op h)[field]? = written field op h[field]? := by
  cases op with
  | hset field' value => simp [hashed, written, Std.ExtTreeMap.getElem?_insert]
  | hdel field' => simp [hashed, written, Std.ExtTreeMap.getElem?_erase]
  | _ => rfl

theorem replyOn_hget {field : Bytes} {h : HashValue} (hh : typedOf Value.hash? ∅ v = some h) :
    replyOn now key (.hget field) v =
      match h[field]? with
      | none => makeNullBulkString
      | some value => makeBulkString value := by
  rw [replyOn, Op.decide, reading_typedOf hh (by simp [Decision.answer])]
  cases h[field]? <;> rfl

theorem size_hashed {op : Op} {h : HashValue} (hh : typedOf Value.hash? ∅ v = some h) :
    ((hashed op h).size : ℤ) = h.size + hsetReply op (replyOn now key op v) -
      hdelReply op (replyOn now key op v) := by
  cases op with
  | hset field value =>
    have hreply : replyOn now key (.hset field value) v = makeFlag (!h.contains field) := by
      rw [replyOn, Op.decide, writing_typedOf hh]
    rw [hreply]
    by_cases hf : field ∈ h <;>
      simp [hashed, Std.ExtTreeMap.size_insert, hsetReply, hdelReply, integerReply, makeFlag,
        makeInteger, hf]
  | hdel field =>
    have hreply : replyOn now key (.hdel field) v = makeFlag (h.contains field) := by
      rw [replyOn, Op.decide, reading_typedOf hh (by simp [Decision.answer])]
      cases h.contains field <;> rfl
    rw [hreply]
    by_cases hf : field ∈ h
    · have hpos : h.size ≠ 0 := fun hsize => by
        rw [← Std.ExtTreeMap.eq_empty_iff_size_eq_zero] at hsize
        simp [hsize] at hf
      simp [hashed, Std.ExtTreeMap.size_erase, hsetReply, hdelReply, integerReply, makeFlag,
        makeInteger, hf]
      omega
    · simp [hashed, Std.ExtTreeMap.size_erase, hsetReply, hdelReply, integerReply, makeFlag,
        makeInteger, hf]
  | _ => simp [hashed, hsetReply, hdelReply]

def collected : Op → SetValue → SetValue
  | .sadd member, s => s.insert member
  | .srem member, s => s.erase member
  | _, s => s

theorem insert_set_of_mem {s : SetValue} {member : Bytes} (hm : member ∈ s) :
    s.insert member = s := by
  refine Std.ExtTreeSet.ext_mem fun member' => ?_
  rw [Std.ExtTreeSet.mem_insert]
  refine ⟨?_, .inr⟩
  rintro (heq | hmem)
  · rwa [← Std.LawfulEqOrd.eq_of_compare heq]
  · exact hmem

theorem erase_set_of_not_mem {s : SetValue} {member : Bytes} (hm : member ∉ s) :
    s.erase member = s := by
  refine Std.ExtTreeSet.ext_mem fun member' => ?_
  rw [Std.ExtTreeSet.mem_erase]
  refine ⟨And.right, fun hmem => ⟨fun heq => hm ?_, hmem⟩⟩
  rwa [Std.LawfulEqOrd.eq_of_compare heq]

theorem leaves_set {op : Op} {s s' : SetValue} (hs : typedOf Value.set? ∅ v = some s)
    (hs' : typedOf Value.set? ∅ (op.leaves v) = some s') : s' = collected op s := by
  cases v with
  | none =>
    cases hs
    cases op with
    | srem member =>
      cases hs'
      exact (erase_set_of_not_mem (by simp)).symm
    | _ => cases hs' <;> rfl
  | some w =>
    cases w <;> cases hs
    cases op with
    | sadd member =>
      simp only [Op.leaves, collected] at hs' ⊢
      split at hs'
      · rename_i hm
        cases hs'
        exact (insert_set_of_mem hm).symm
      · cases hs'
        rfl
    | srem member =>
      simp only [Op.leaves, collected] at hs' ⊢
      split at hs'
      · have hkept := @typedOf_kept _ Value.set? ∅ (s.erase member) (.set (s.erase member)) rfl
          Std.ExtTreeSet.isEmpty_iff.mp
        rw [hkept] at hs'
        cases hs'
        rfl
      · rename_i hm
        cases hs'
        exact (erase_set_of_not_mem hm).symm
    | _ =>
      cases hs'
      rfl

theorem contains_collected (op : Op) (s : SetValue) (member : Bytes) :
    (collected op s).contains member = included member op (s.contains member) := by
  cases op with
  | sadd member' =>
    simp only [collected, included, Std.ExtTreeSet.contains_insert]
    by_cases h : member' = member <;> simp [h]
  | srem member' =>
    simp only [collected, included, Std.ExtTreeSet.contains_erase]
    by_cases h : member' = member <;> simp [h, bne]
  | _ => rfl

theorem replyOn_smembers {s : SetValue} (hs : typedOf Value.set? ∅ v = some s) :
    replyOn now key .smembers v = makeArray (s.toList.map makeBulkString) :=
  reading_typedOf hs rfl

theorem replyOn_sismember {member : Bytes} {s : SetValue} (hs : typedOf Value.set? ∅ v = some s) :
    replyOn now key (.sismember member) v = makeFlag (member ∈ s.toList) := by
  have hmember : decide (member ∈ s.toList) = s.contains member := by
    simp [← Std.ExtTreeSet.contains_iff_mem]
  rw [replyOn, Op.decide, reading_typedOf hs (by simp [Decision.answer, makeFlag]), hmember]
  rfl

theorem nodup_toList (s : SetValue) : s.toList.Nodup :=
  Std.ExtTreeSet.distinct_toList.imp fun hne heq => hne (Std.LawfulEqOrd.compare_eq_iff_eq.mpr heq)

theorem size_collected {op : Op} {s : SetValue} (hs : typedOf Value.set? ∅ v = some s) :
    ((collected op s).size : ℤ) = s.size + saddReply op (replyOn now key op v) -
      sremReply op (replyOn now key op v) := by
  cases op with
  | sadd member =>
    have hreply : replyOn now key (.sadd member) v = makeFlag (!s.contains member) := by
      rw [replyOn, Op.decide, writing_typedOf hs]
      cases s.contains member <;> rfl
    rw [hreply]
    by_cases hm : member ∈ s <;>
      simp [collected, Std.ExtTreeSet.size_insert, saddReply, sremReply, integerReply, makeFlag,
        makeInteger, hm]
  | srem member =>
    have hreply : replyOn now key (.srem member) v = makeFlag (s.contains member) := by
      rw [replyOn, Op.decide, reading_typedOf hs (by simp [Decision.answer])]
      cases s.contains member <;> rfl
    rw [hreply]
    by_cases hm : member ∈ s
    · have hpos : s.size ≠ 0 := fun hsize => by
        rw [← Std.ExtTreeSet.eq_empty_iff_size_eq_zero] at hsize
        simp [hsize] at hm
      simp [collected, Std.ExtTreeSet.size_erase, saddReply, sremReply, integerReply, makeFlag,
        makeInteger, hm]
      omega
    · simp [collected, Std.ExtTreeSet.size_erase, saddReply, sremReply, integerReply, makeFlag,
        makeInteger, hm]
  | _ => simp [collected, saddReply, sremReply]

end Values

/-- A kind of collection: what the operations make of it, and which replies count its elements. -/
structure Kind (α : Type) where
  getIf : Value → Option α
  empty : α
  next : Op → α → α
  size : α → ℤ
  added : Op → RespValue → ℤ
  removed : Op → RespValue → ℤ
  lengthName : CommandName
  lengthOp : Op
  resets_lengthOp : lengthOp.resets = false
  leaves : ∀ {op v x x'}, typedOf getIf empty v = some x →
    typedOf getIf empty (op.leaves v) = some x' → x' = next op x
  gain : ∀ {now key op v x}, typedOf getIf empty v = some x →
    size (next op x) = size x + added op (replyOn now key op v) - removed op (replyOn now key op v)
  asks_length : ∀ now key, interpretArgs now lengthName [key] = .ok (.on key lengthOp)
  length_reply : ∀ {now key v x}, typedOf getIf empty v = some x →
    replyOn now key lengthOp v = makeInteger (size x)
  size_empty : size empty = 0
  size_pos : ∀ {value x}, getIf value = some x → value.isEmpty = false → size x ≠ 0

def lists : Kind ListValue where
  getIf := Value.list?
  empty := []
  next := queued
  size l := l.length
  added := successfulPush
  removed := nonNullPop
  lengthName := .llen
  lengthOp := .llen
  resets_lengthOp := rfl
  leaves := leaves_list
  gain := length_queued
  asks_length _ _ := rfl
  length_reply hl := reading_typedOf hl rfl
  size_empty := rfl
  size_pos := by
    intro value l hl hvalue
    cases value <;> cases hl
    simpa [Value.isEmpty] using hvalue

def hashes : Kind HashValue where
  getIf := Value.hash?
  empty := ∅
  next := hashed
  size h := h.size
  added := hsetReply
  removed := hdelReply
  lengthName := .hlen
  lengthOp := .hlen
  resets_lengthOp := rfl
  leaves := leaves_hash
  gain := size_hashed
  asks_length _ _ := rfl
  length_reply hh := reading_typedOf hh rfl
  size_empty := rfl
  size_pos := by
    intro value h hh hvalue
    cases value <;> cases hh
    simpa [Value.isEmpty, Std.ExtTreeMap.isEmpty_eq_size_beq_zero] using hvalue

def sets : Kind SetValue where
  getIf := Value.set?
  empty := ∅
  next := collected
  size s := s.size
  added := saddReply
  removed := sremReply
  lengthName := .scard
  lengthOp := .scard
  resets_lengthOp := rfl
  leaves := leaves_set
  gain := size_collected
  asks_length _ _ := rfl
  length_reply hs := reading_typedOf hs rfl
  size_empty := rfl
  size_pos := by
    intro value s hs hvalue
    cases value <;> cases hs
    simpa [Value.isEmpty, Std.ExtTreeSet.isEmpty_eq_size_beq_zero] using hvalue

end RedisLite.Accounting
