import RedisLite.ClientIsolation
import RedisLite.CollectionKinds

/-!
# Collections over a run

The replies to the writes of a key say how its collection grows and shrinks. Over a run that neither
sets the key nor removes it nor gives it a deadline, the lengths add up, a list is a double-ended
queue, a hash has the latest value of each field and a set the members added and not removed since,
for as long as the key stays of that type or is missing.
-/

namespace RedisLite.Accounting
open ByteStrings Resp Keyspace AppendLog Commands Operations Replay MachineRuns

def asked (key : Bytes) (call : Call) : Option Op := asks call.now call.request key

def replyTo (now : Readings) (command : CommandName) (args : List Bytes) (s : Session) : RespValue :=
  (executeCommand now (asRequest (command.upper :: args)) s).1

/-- At every point of a stretch of calls, a key is missing or holds the type that is asked for. -/
def Throughout {α : Type} (getIf : Value → Option α) (key : Bytes) (stretch : List Call)
    (s : Session) : Prop :=
  ∀ n v, (final Call.execute (stretch.take n) s).store.values[key]? = some v → (getIf v).isSome

abbrev Rounds := List (Round Call RespValue Session)

def count (key : Bytes) (counts : Op → RespValue → ℤ) (r : Round Call RespValue Session) : ℤ :=
  (asked key r.input).elim 0 fun op => counts op r.output

def total (key : Bytes) (counts : Op → RespValue → ℤ) (rounds : Rounds) : ℤ :=
  (rounds.map (count key counts)).sum

/-- What the operations on a key that a run asks for make of something, one after the other. -/
def after {υ : Type} (next : Op → υ → υ) (key : Bytes) (run : List Call) (v : υ) : υ :=
  run.foldl (fun v call => (asked key call).elim v fun op => next op v) v

def dequeAfter : Bytes → List Call → ListValue → ListValue := after queued

/-- The value of the latest `HSET` of a field that was not deleted since. -/
def latestValue (field : Bytes) : Bytes → List Call → Option Bytes → Option Bytes :=
  after (written field)

def isMember (member : Bytes) : Bytes → List Call → Bool → Bool := after (included member)

section Calls
variable {key : Bytes} {call : Call} {op : Op} {v : Option Value} {s : Session}

theorem execute_asked (hop : asked key call = some op) (hresets : op.resets = false)
    (hcell : s.store.cell key = ⟨v, none⟩) :
    (call.execute s).1 = replyOn call.now key op v ∧
      (call.execute s).2.store.cell key = ⟨op.leaves v, none⟩ := by
  have hlive : (s.store.cell key).live call.now.first = ⟨v, none⟩ := by rw [hcell]; rfl
  constructor
  · rw [Call.execute, executeCommand_asks hop, checkedAt_of_resets call.now hresets, hlive]
    rfl
  · have hleft := cell_of_asks hop hresets s hlive fun _ => rfl
    rwa [withDeadline_none] at hleft

/-- A key without a deadline that stands for a collection. -/
def Shows {α : Type} (k : Kind α) (key : Bytes) (s : Session) (x : α) : Prop :=
  ∃ v, s.store.cell key = ⟨v, none⟩ ∧ typedOf k.getIf k.empty v = some x

theorem Shows.typedOf_value {α : Type} {k : Kind α} {x : α} (hs : Shows k key s x) :
    typedOf k.getIf k.empty s.store.values[key]? = some x := by
  obtain ⟨v, hcell, hx⟩ := hs
  rwa [values_cell, hcell]

/-- A command that reads a collection. -/
theorem Shows.reply {α : Type} {k : Kind α} {x : α} (hs : Shows k key s x) {now : Readings}
    {command : CommandName} {args : List Bytes} {reply : RespValue}
    (hargs : interpretArgs now command args = .ok (.on key op)) (hresets : op.resets = false)
    (hreply : ∀ v, typedOf k.getIf k.empty v = some x → replyOn now key op v = reply) :
    replyTo now command args s = reply := by
  obtain ⟨v, hcell, hx⟩ := hs
  have hop : asked key ⟨now, asRequest (command.upper :: args)⟩ = some op :=
    asks_words now command args hargs
  exact (execute_asked hop hresets hcell).1.trans (hreply v hx)

variable {α : Type} (k : Kind α) {x : α}

/-- What the operation of a call makes of a collection, if there is one. -/
def Kind.afterCall (key : Bytes) (call : Call) (x : α) : α :=
  (asked key call).elim x fun op => k.next op x

/-- A call that leaves the key missing or of its type does to the collection what its operation does,
and its reply counts the elements. -/
theorem Shows.execute (hs : Shows k key s x)
    (hspared : ∀ op, asked key call = some op → op.resets = false)
    (hkind : ∀ w, (call.execute s).2.store.values[key]? = some w → (k.getIf w).isSome) :
    Shows k key (call.execute s).2 (k.afterCall key call x) ∧
      k.size (k.afterCall key call x) = k.size x +
        count key k.added ⟨call, (call.execute s).1, (call.execute s).2⟩ -
        count key k.removed ⟨call, (call.execute s).1, (call.execute s).2⟩ := by
  obtain ⟨v, hcell, hx⟩ := hs
  simp only [Kind.afterCall, count]
  cases hop : asked key call with
  | none =>
    have hsame := cell_of_asks_none hop s
    exact ⟨⟨v, hsame.trans hcell, hx⟩, by simp⟩
  | some op =>
    obtain ⟨hreply, hcell'⟩ := execute_asked hop (hspared op hop) hcell
    have hkind' : ∀ w, op.leaves v = some w → (k.getIf w).isSome := by
      intro w hw
      exact hkind w (by rw [values_cell, hcell', hw])
    have hx' : ∃ x', typedOf k.getIf k.empty (op.leaves v) = some x' := by
      cases hleaves : op.leaves v with
      | none => exact ⟨_, rfl⟩
      | some w => exact Option.isSome_iff_exists.mp (hkind' w hleaves)
    obtain ⟨x', hx'⟩ := hx'
    refine ⟨⟨_, hcell', ?_⟩, ?_⟩
    · rw [hx', k.leaves hx hx']
      rfl
    · simp only [Option.elim_some, hreply]
      exact k.gain hx

end Calls

/-- Calls that neither set a key nor remove it nor give it a deadline. -/
def Spared (key : Bytes) (run : List Call) : Prop :=
  ∀ call ∈ run, ∀ op, asked key call = some op → op.resets = false

section Runs
variable {key : Bytes} {run before stretch : List Call} {s start : Session}
variable {α : Type} {k : Kind α} {x : α}

theorem Throughout.left {getIf : Value → Option α}
    (h : Throughout getIf key (before ++ stretch) s) : Throughout getIf key before s := by
  intro n v hv
  refine h (min n before.length) v ?_
  rwa [List.take_append_of_le_length (Nat.min_le_right _ _), ← List.take_eq_take_min]

theorem Spared.left (h : Spared key (before ++ stretch)) : Spared key before :=
  fun call hcall => h call (List.mem_append_left stretch hcall)

theorem Spared.right (h : Spared key (before ++ stretch)) : Spared key stretch :=
  fun call hcall => h call (List.mem_append_right before hcall)

theorem after_cons {υ : Type} (next : Op → υ → υ) (key : Bytes) (call : Call) (run : List Call)
    (v : υ) : after next key (call :: run) v =
      after next key run ((asked key call).elim v fun op => next op v) := rfl

/-- Over a stretch, the collection is what the operations make of it, and the replies count its
elements. -/
theorem Shows.over (hs : Shows k key start x) (hspared : Spared key stretch)
    (hkind : Throughout k.getIf key stretch start) :
    Shows k key (final Call.execute stretch start) (after k.next key stretch x) ∧
      k.size (after k.next key stretch x) = k.size x +
        total key k.added (trace Call.execute stretch start) -
        total key k.removed (trace Call.execute stretch start) := by
  induction stretch generalizing start x with
  | nil => exact ⟨hs, by simp [after, total, trace]⟩
  | cons call stretch ih =>
    obtain ⟨hnext, hsize⟩ := hs.execute k (hspared call List.mem_cons_self) (hkind 1)
    obtain ⟨hend, htotal⟩ := ih hnext (fun c hc => hspared c (List.mem_cons_of_mem call hc))
      (fun n => hkind (n + 1))
    rw [Kind.afterCall] at hend htotal hsize
    rw [final_cons, after_cons]
    refine ⟨hend, ?_⟩
    rw [htotal, hsize]
    simp only [total, trace, List.map_cons, List.sum_cons]
    omega

/-- Without a deadline a key has what the operations leave, and gets no deadline. -/
theorem final_cell {v : Option Value} (hs : s.store.cell key = ⟨v, none⟩)
    (hspared : Spared key run) :
    (final Call.execute run s).store.cell key = ⟨after Op.leaves key run v, none⟩ := by
  induction run generalizing s v with
  | nil => exact hs
  | cons call run ih =>
    have hstep : (call.execute s).2.store.cell key =
        ⟨(asked key call).elim v fun op => op.leaves v, none⟩ := by
      cases hop : asked key call with
      | none => exact (cell_of_asks_none hop s).trans hs
      | some op => exact (execute_asked hop (hspared call List.mem_cons_self op hop) hs).2
    exact ih hstep fun c hc => hspared c (List.mem_cons_of_mem call hc)

theorem final_sound (hs : s.store.Sound) (run : List Call) :
    (final Call.execute run s).store.Sound :=
  @final_keeps _ _ _ Call.execute (fun s => s.store.Sound)
    (fun call _ hs => executeCommand_sound call.now call.request hs) _ hs run

/-- A view that the operations move on by themselves. -/
theorem view_after {υ : Type} {next : Op → α → α} {next' : Op → υ → υ} {view : α → υ}
    (h : ∀ op x, view (next op x) = next' op (view x)) (key : Bytes) (run : List Call) (x : α) :
    view (after next key run x) = after next' key run (view x) := by
  induction run generalizing x with
  | nil => rfl
  | cons call run ih =>
    rw [after_cons, after_cons, ih]
    cases asked key call with
    | none => rfl
    | some op => rw [Option.elim_some, Option.elim_some, h]

/-- No elements, no key. -/
theorem Shows.absent_iff (hs : Shows k key s x) (hsound : s.store.Sound) :
    key ∉ s.store.values ↔ k.size x = 0 := by
  obtain ⟨v, hcell, hx⟩ := hs
  have hnonempty := (Store.sound_iff.mp hsound key).nonempty
  rw [Std.ExtTreeMap.mem_iff_isSome_getElem?, values_cell, hcell]
  rw [hcell] at hnonempty
  cases v with
  | none =>
    cases hx
    simp [k.size_empty]
  | some w => simp [k.size_pos hx (hnonempty w rfl)]

end Runs

/-- The length of a collection over a stretch of calls: it starts from `n`, the replies of the calls
count what it gains and loses, and it is zero when the key is missing. -/
structure Counted (key : Bytes) (lengthName : CommandName) (added removed : Op → RespValue → ℤ)
    (n : ℤ) (stretch : List Call) (start : Session) : Prop where
  started : ∀ now, replyTo now lengthName [key] start = makeInteger n
  restarted : key ∉ start.store.values ↔ n = 0
  ended : ∀ now, replyTo now lengthName [key] (final Call.execute stretch start) =
    makeInteger (n + total key added (trace Call.execute stretch start) -
      total key removed (trace Call.execute stretch start))
  emptied : key ∉ (final Call.execute stretch start).store.values ↔
    n + total key added (trace Call.execute stretch start) -
      total key removed (trace Call.execute stretch start) = 0

/-- A list over a stretch of calls is a double-ended queue. -/
structure Queue (key : Bytes) (l : ListValue) (stretch : List Call) (start : Session) : Prop where
  started : typedOf Value.list? [] start.store.values[key]? = some l
  ended : typedOf Value.list? [] (final Call.execute stretch start).store.values[key]? =
    some (dequeAfter key stretch l)
  popped : ∀ before call later side, stretch = before ++ call :: later →
    asked key call = some (.pop side) →
    (call.execute (final Call.execute before start)).1 = popReply side (dequeAfter key before l)

structure Fields (key : Bytes) (h : HashValue) (stretch : List Call) (start : Session) : Prop where
  started : typedOf Value.hash? ∅ start.store.values[key]? = some h
  ended : ∀ now field, replyTo now .hget [key, field] (final Call.execute stretch start) =
    match latestValue field key stretch h[field]? with
    | none => makeNullBulkString
    | some value => makeBulkString value

structure Members (key : Bytes) (s : SetValue) (stretch : List Call) (start : Session) : Prop where
  started : typedOf Value.set? ∅ start.store.values[key]? = some s
  ended : ∃ members : List Bytes, members.Nodup ∧
    (∀ member, member ∈ members ↔ isMember member key stretch (s.contains member)) ∧
    (∀ now, replyTo now .smembers [key] (final Call.execute stretch start) =
      makeArray (members.map makeBulkString)) ∧
    ∀ now member, replyTo now .sismember [key, member] (final Call.execute stretch start) =
      makeFlag (member ∈ members)

section Laws
variable {key : Bytes} {stretch : List Call} {start : Session}

theorem Shows.counted {α : Type} {k : Kind α} {x : α} (hs : Shows k key start x)
    (hsound : start.store.Sound) (hspared : Spared key stretch)
    (hkind : Throughout k.getIf key stretch start) :
    Counted key k.lengthName k.added k.removed (k.size x) stretch start := by
  obtain ⟨hend, hsize⟩ := hs.over hspared hkind
  have hlength {s : Session} {x : α} (h : Shows k key s x) (now : Readings) :
      replyTo now k.lengthName [key] s = makeInteger (k.size x) :=
    h.reply (k.asks_length now key) k.resets_lengthOp fun v hv => k.length_reply hv
  refine ⟨hlength hs, hs.absent_iff hsound, fun now => ?_, ?_⟩
  · rw [hlength hend, hsize]
  · rw [hend.absent_iff (final_sound hsound stretch), hsize]

theorem Shows.queue {l : ListValue} (hs : Shows lists key start l) (hspared : Spared key stretch)
    (hkind : Throughout Value.list? key stretch start) : Queue key l stretch start := by
  refine ⟨hs.typedOf_value, (hs.over hspared hkind).1.typedOf_value, ?_⟩
  rintro before call later side rfl hpop
  obtain ⟨⟨w, hfound, hw⟩, -⟩ := hs.over hspared.left hkind.left
  exact (execute_asked hpop rfl hfound).1.trans (replyOn_pop hw)

theorem Shows.fields {h : HashValue} (hs : Shows hashes key start h) (hspared : Spared key stretch)
    (hkind : Throughout Value.hash? key stretch start) : Fields key h stretch start := by
  obtain ⟨hend, -⟩ := hs.over hspared hkind
  refine ⟨hs.typedOf_value, fun now field => ?_⟩
  have hlatest := @view_after _ _ hashed _ (fun h : HashValue => h[field]?)
    (fun op h => getElem?_hashed op h field) key stretch h
  rw [latestValue, ← hlatest]
  exact hend.reply rfl rfl fun v hv => replyOn_hget hv

theorem Shows.members {s : SetValue} (hs : Shows sets key start s) (hspared : Spared key stretch)
    (hkind : Throughout Value.set? key stretch start) : Members key s stretch start := by
  obtain ⟨hend, -⟩ := hs.over hspared hkind
  have hmembers (member : Bytes) := @view_after _ _ collected _ (fun s : SetValue => s.contains member)
    (fun op s => contains_collected op s member) key stretch s
  refine ⟨hs.typedOf_value, (after collected key stretch s).toList, ?_, fun member => ?_,
    fun now => ?_, fun now member => ?_⟩
  · exact nodup_toList _
  · rw [Std.ExtTreeSet.mem_toList, ← Std.ExtTreeSet.contains_iff_mem, isMember, ← hmembers member]
  · exact hend.reply rfl rfl fun v hv => replyOn_smembers hv
  · exact hend.reply rfl rfl fun v hv => replyOn_sismember hv

/-- The laws hold from every point of a run up to every later one, while the key is missing or of
their type. -/
theorem collections_accounted {s : Session} (hs : s.store.Sound)
    (hkey : key ∉ s.store.values ∨ s.store.expirations[key]? = none) {before : List Call}
    (hspared : Spared key (before ++ stretch)) :
    let start := final Call.execute before s
    (Throughout Value.list? key stretch start → ∃ l : ListValue,
      Counted key .llen successfulPush nonNullPop l.length stretch start ∧
        Queue key l stretch start) ∧
    (Throughout Value.hash? key stretch start → ∃ h : HashValue,
      Counted key .hlen hsetReply hdelReply h.size stretch start ∧ Fields key h stretch start) ∧
    (Throughout Value.set? key stretch start → ∃ m : SetValue,
      Counted key .scard saddReply sremReply m.size stretch start ∧
        Members key m stretch start) := by
  intro start
  have hcell : s.store.cell key = ⟨s.store.values[key]?, none⟩ := by
    refine Cell.ext rfl ?_
    rcases hkey with habsent | hforever
    · exact (Store.sound_iff.mp hs key).deadline_none (Std.ExtTreeMap.getElem?_eq_none habsent)
    · exact hforever
  have hstart := final_cell hcell hspared.left
  have hsound : start.store.Sound := final_sound hs before
  have hshows {α : Type} (k : Kind α) (hkind : Throughout k.getIf key stretch start) :
      ∃ x, Shows k key start x := by
    cases hvalue : after Op.leaves key before s.store.values[key]? with
    | none => exact ⟨k.empty, none, by rw [hstart, hvalue], rfl⟩
    | some w =>
      rw [hvalue] at hstart
      obtain ⟨x, hx⟩ := Option.isSome_iff_exists.mp (hkind 0 w (congrArg Cell.value hstart))
      exact ⟨x, some w, hstart, hx⟩
  refine ⟨fun hkind => ?_, fun hkind => ?_, fun hkind => ?_⟩
  · obtain ⟨l, hl⟩ := hshows lists hkind
    exact ⟨l, hl.counted hsound hspared.right hkind, hl.queue hspared.right hkind⟩
  · obtain ⟨h, hh⟩ := hshows hashes hkind
    exact ⟨h, hh.counted hsound hspared.right hkind, hh.fields hspared.right hkind⟩
  · obtain ⟨m, hm⟩ := hshows sets hkind
    exact ⟨m, hm.counted hsound hspared.right hkind, hm.members hspared.right hkind⟩

end Laws

def emptied : List Call := [callOf ["SADD", "k", "m"], callOf ["SREM", "k", "m"]]

def recreated : List Call :=
  [callOf ["RPUSH", "k", "a"], callOf ["HSET", "k", "f", "v"], callOf ["LPOP", "k"]]

theorem recreated_accounted : ∃ l : ListValue,
    Counted (text "k") .llen successfulPush nonNullPop l.length recreated
        (final Call.execute emptied ⟨{}, none⟩) ∧
      Queue (text "k") l recreated (final Call.execute emptied ⟨{}, none⟩) := by
  have hasked : (emptied ++ recreated).map (asked (text "k")) =
      [some (.sadd (text "m")), some (.srem (text "m")), some (.push .right (text "a")),
        some (.hset (text "f") (text "v")), some (.pop .left)] := rfl
  have hspared : Spared (text "k") (emptied ++ recreated) := by
    intro call hcall op hop
    have hmem := List.mem_map_of_mem (f := asked (text "k")) hcall
    rw [hasked, hop] at hmem
    simp only [List.mem_cons, Option.some.injEq, List.not_mem_nil, or_false] at hmem
    rcases hmem with rfl | rfl | rfl | rfl | rfl <;> rfl
  have habsent : Store.cell {} (text "k") = ⟨none, none⟩ := by simp [Store.cell]
  have hlaws := @collections_accounted (text "k") recreated ⟨{}, none⟩ Store.sound_empty
    (.inl (by simp)) emptied hspared
  refine hlaws.1 fun n v hv => ?_
  have hstart := final_cell (s := ⟨{}, none⟩) habsent hspared.left
  have hspared' : Spared (text "k") (recreated.take n) :=
    fun call hcall => hspared.right call (List.mem_of_mem_take hcall)
  have hcell := final_cell hstart hspared'
  have hleft : after Op.leaves (text "k") emptied none = none := by
    obtain ⟨hadd, hremove⟩ := srem_leaves_sadd Cell.sound_missing rfl (Std.ExtTreeSet.not_mem_empty)
    have hops : after Op.leaves (text "k") emptied none =
      (Op.srem (text "m")).leaves ((Op.sadd (text "m")).leaves none) := rfl
    exact hops.trans ((congrArg _ hadd).trans hremove)
  rw [values_cell, hcell, hleft] at hv
  rcases n with _ | _ | _ | n
  · cases hv
  · cases hv
    rfl
  · cases hv
    rfl
  · have hops : after Op.leaves (text "k") (recreated.take (n + 3)) none = none := by
      rw [List.take_of_length_le (by simp [recreated])]
      rfl
    rw [hops] at hv
    cases hv

end RedisLite.Accounting
