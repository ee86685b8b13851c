import RedisLite.ValueWrites

/-!
# Insert, then remove

What a push, an `HSET` or an `SADD` put into a collection, the removal at the same reading takes out
again. The insertion may create the key and the removal may drop it, so the key ends up as it was:
missing, or with its contents and its deadline.
-/

namespace RedisLite.Operations
open ByteStrings Resp Keyspace AppendLog Commands Replay

theorem Side.pop_push (side : Side) (x : Bytes) (l : ListValue) :
    side.pop (side.push x l) = some (x, l) := by
  cases side <;> simp [Side.push, Side.pop]

theorem Side.length_of_pop {side : Side} {l rest : ListValue} {x : Bytes}
    (h : side.pop l = some (x, rest)) : l.length = rest.length + 1 := by
  cases side <;> cases l <;> simp_all [Side.pop]
  all_goals grind

theorem kept_of_nonempty {v : Value} (h : v.isEmpty = false) : kept v = some v := by
  rw [kept, h]
  rfl

theorem erase_insert_hash {h : HashValue} {field : Bytes} (hf : field ∉ h) (value : Bytes) :
    (h.insert field value).erase field = h := by
  refine Std.ExtTreeMap.ext_getElem? fun field' => ?_
  rw [Std.ExtTreeMap.getElem?_erase, Std.ExtTreeMap.getElem?_insert]
  split
  · rename_i hfield
    rw [← Std.LawfulEqOrd.eq_of_compare hfield, Std.ExtTreeMap.getElem?_eq_none hf]
  · rfl

theorem erase_insert_set {s : SetValue} {member : Bytes} (hm : member ∉ s) :
    (s.insert member).erase member = s := by
  refine Std.ExtTreeSet.ext_mem fun member' => ?_
  rw [Std.ExtTreeSet.mem_erase, Std.ExtTreeSet.mem_insert]
  constructor
  · rintro ⟨hne, heq | hmem⟩
    · exact absurd heq hne
    · exact hmem
  · intro hmem
    refine ⟨fun heq => hm ?_, .inr hmem⟩
    rwa [Std.LawfulEqOrd.eq_of_compare heq]

section Values
variable {c : Cell} (hc : c.Sound)
include hc

theorem pop_leaves_push (side : Side) (x : Bytes) {l : ListValue}
    (hl : typedOf Value.list? [] c.value = some l) :
    (Op.push side x).leaves c.value = some (.list (side.push x l)) ∧
      (Op.pop side).leaves (some (.list (side.push x l))) = c.value := by
  cases hvalue : c.value with
  | none =>
    rw [hvalue] at hl
    cases hl
    simp [Op.leaves, side.pop_push, kept, Value.isEmpty]
  | some v =>
    rw [hvalue] at hl
    cases v <;> cases hl
    simp [Op.leaves, side.pop_push, kept_of_nonempty (hc.nonempty _ hvalue)]

theorem hdel_leaves_hset {field : Bytes} (value : Bytes) {h : HashValue}
    (hh : typedOf Value.hash? ∅ c.value = some h) (hf : field ∉ h) :
    (Op.hset field value).leaves c.value = some (.hash (h.insert field value)) ∧
      (Op.hdel field).leaves (some (.hash (h.insert field value))) = c.value := by
  cases hvalue : c.value with
  | none =>
    rw [hvalue] at hh
    cases hh
    simp [Op.leaves, erase_insert_hash hf, kept, Value.isEmpty]
  | some v =>
    rw [hvalue] at hh
    cases v <;> cases hh
    simp [Op.leaves, erase_insert_hash hf, kept_of_nonempty (hc.nonempty _ hvalue)]

theorem srem_leaves_sadd {member : Bytes} {s : SetValue}
    (hs : typedOf Value.set? ∅ c.value = some s) (hm : member ∉ s) :
    (Op.sadd member).leaves c.value = some (.set (s.insert member)) ∧
      (Op.srem member).leaves (some (.set (s.insert member))) = c.value := by
  cases hvalue : c.value with
  | none =>
    rw [hvalue] at hs
    cases hs
    simp [Op.leaves, erase_insert_set hm, kept, Value.isEmpty]
  | some v =>
    rw [hvalue] at hs
    cases v <;> cases hs
    simp [Op.leaves, hm, erase_insert_set hm, kept_of_nonempty (hc.nonempty _ hvalue)]

end Values

def both (now : Readings) (first second : RespValue) (s : Session) : Outcome :=
  executeCommand now second (executeCommand now first s).2

/-- An insertion and a removal give their replies, and together they leave the store as it is after
the deadline check of the key. -/
structure Undone (now : Readings) (key : Bytes) (insertion removal : RespValue)
    (inserted removed : RespValue) (s : Session) : Prop where
  inserted : (executeCommand now insertion s).1 = inserted
  removed : (both now insertion removal s).1 = removed
  store : (both now insertion removal s).2.store = expireIfDue now.first s.store key
  visible : (both now insertion removal s).2.store.cell key = (s.store.cell key).live now.first

theorem undone_of_leaves {now : Readings} {key : Bytes} {insertion removal : RespValue} {op op' : Op}
    {s : Session} {c : Cell} {v : Value} (hc : (s.store.cell key).live now.first = c)
    (hsound : c.Sound) (hop : asks now insertion key = some op) (hop' : asks now removal key = some op')
    (hresets : op.resets = false) (hresets' : op'.resets = false)
    (hleaves : op.leaves c.value = some v) (hback : op'.leaves (some v) = c.value) :
    Undone now key insertion removal (op.decide now key c).reply
      (op'.decide now key ⟨some v, c.deadline⟩).reply s := by
  have hchecked : op.checkedAt now = now.first := checkedAt_of_resets now hresets
  have hchecked' : op'.checkedAt now = now.first := checkedAt_of_resets now hresets'
  have hlive : c.live now.first = c := by rw [← hc, Cell.live_live le_rfl]
  -- the first request puts `v` beside the deadline of the key
  have hfirst := executeCommand_asks hop s
  have hput := decide_leaves now key hsound.deadline_none hresets
  rw [hleaves, withDeadline, Option.isSome_some, if_pos rfl] at hput
  rw [hchecked, hc, commit, hput] at hfirst
  -- the second one finds them there
  have hfound : (⟨some v, c.deadline⟩ : Cell).live now.first = ⟨some v, c.deadline⟩ :=
    live_withDeadline hlive (some v)
  have hsecond := executeCommand_asks hop' (executeCommand now insertion s).2
  have hdrop := @decide_leaves ⟨some v, c.deadline⟩ now key (fun h => by cases h) op' hresets'
  rw [hback, withDeadline_self hsound.deadline_none] at hdrop
  rw [hfirst, hchecked', Store.cell_setCell_self, hfound, commit, hdrop,
    Store.setCell_setCell] at hsecond
  refine ⟨by rw [hfirst], ?_, ?_, ?_⟩
  · rw [both, hfirst, hsecond]
  · rw [both, hfirst, hsecond, expireIfDue_eq, hc]
  · rw [both, hfirst, hsecond, Store.cell_setCell_self, hc]

/-- Where the inserted element was not there, the removal undoes the insertion, on lists at either
end, on hashes and on sets. -/
theorem insert_then_remove (now : Readings) (key : Bytes) {s : Session} (hs : s.store.Sound) :
    let found := ((s.store.cell key).live now.first).value
    (∀ (side : Side) x l, typedOf Value.list? [] found = some l →
      Undone now key (asRequest [side.pushName.upper, key, x]) (asRequest [side.popName.upper, key])
        (makeInteger (l.length + 1)) (makeBulkString x) s) ∧
    (∀ field value h, typedOf Value.hash? ∅ found = some h → field ∉ h →
      Undone now key (asRequest [CommandName.hset.upper, key, field, value])
        (asRequest [CommandName.hdel.upper, key, field]) (makeInteger 1) (makeInteger 1) s) ∧
    ∀ member members, typedOf Value.set? ∅ found = some members → member ∉ members →
      Undone now key (asRequest [CommandName.sadd.upper, key, member])
        (asRequest [CommandName.srem.upper, key, member]) (makeInteger 1) (makeInteger 1) s := by
  intro found
  have hsound := (Store.sound_iff.mp hs key).live now.first
  refine ⟨fun side x l hl => ?_, fun field value h hh hf => ?_, fun member members hm hmem => ?_⟩
  · obtain ⟨hleaves, hback⟩ := pop_leaves_push hsound side x hl
    have hundone := undone_of_leaves rfl hsound
      (asks_words now side.pushName [key, x] (by cases side <;> rfl))
      (asks_words now side.popName [key] (by cases side <;> rfl)) rfl rfl hleaves hback
    have hlength : (side.push x l).length = l.length + 1 := by
      cases side <;> simp [Side.push]
    simpa [Op.decide, writing_typedOf hl, hlength, reading, Value.list?, side.pop_push] using hundone
  · obtain ⟨hleaves, hback⟩ := hdel_leaves_hset hsound value hh hf
    have hundone := undone_of_leaves rfl hsound
      (asks_words now .hset [key, field, value] rfl) (asks_words now .hdel [key, field] rfl)
      rfl rfl hleaves hback
    have hcontains : h.contains field = false := by
      rw [← Bool.not_eq_true, Std.ExtTreeMap.contains_iff_mem]
      exact hf
    simpa [Op.decide, writing_typedOf hh, hcontains, makeFlag, reading, Value.hash?] using hundone
  · obtain ⟨hleaves, hback⟩ := srem_leaves_sadd hsound hm hmem
    have hundone := undone_of_leaves rfl hsound
      (asks_words now .sadd [key, member] rfl) (asks_words now .srem [key, member] rfl)
      rfl rfl hleaves hback
    simpa [Op.decide, writing_typedOf hm, hmem, reading, Value.set?] using hundone

def timedList : Session :=
  ⟨Store.setCell {} (text "k") ⟨some (.list [text "a"]), some 5⟩, none⟩

theorem timedList_undone :
    Undone (.once 3 0) (text "k") (asRequest [Side.right.pushName.upper, text "k", text "b"])
        (asRequest [Side.right.popName.upper, text "k"]) (makeInteger 2) (makeBulkString (text "b"))
        timedList ∧
      Undone (.once 9 0) (text "k") (asRequest [CommandName.hset.upper, text "k", text "f", text "v"])
        (asRequest [CommandName.hdel.upper, text "k", text "f"]) (makeInteger 1) (makeInteger 1)
        timedList := by
  have hsound : timedList.store.Sound :=
    Store.sound_empty.setCell _ ⟨fun _ => rfl, fun v hv => by cases hv; rfl⟩
  have hcell : timedList.store.cell (text "k") = ⟨some (.list [text "a"]), some 5⟩ :=
    Store.cell_setCell_self _ _ _
  constructor
  · refine (insert_then_remove (.once 3 0) (text "k") hsound).1 .right (text "b") [text "a"] ?_
    rw [hcell]
    rfl
  · refine (insert_then_remove (.once 9 0) (text "k") hsound).2.1 (text "f") (text "v") ∅ ?_ (by simp)
    rw [hcell]
    rfl

end RedisLite.Operations
