import RedisLite.CommandErrors
import RedisLite.MachineRuns

/-!
# Clients on disjoint keys

The requests of all clients go through one store and one log. A request reads and writes the cell of
the key that it names and writes records of that key only, so the cells of the keys that a client
names are a view of the store which no request on another key moves.
-/

namespace RedisLite.Operations
open ByteStrings Resp Keyspace AppendLog Commands MachineRuns

/-- A request with the clock readings of its execution. -/
structure Call where
  now : Readings
  request : RespValue

def Call.execute (call : Call) (s : Session) : Outcome := executeCommand call.now call.request s

/-- `elements[1]`, if it is there. -/
def Call.namedKey (call : Call) : Option Bytes := call.request.elements[1]?.map RespValue.string

variable {Client : Type}

/-- The request of a client, executed. -/
def serve (call : Client × Call) (s : Session) : Outcome :=
  executeCommand call.2.now call.2.request s

/-- The reply, the records for the log and the store after a call. -/
def Call.effect (call : Call) (store : Store) : (RespValue × List LogRecord) × Store :=
  match interpret call.now call.request with
  | .error reply => ((reply, []), store)
  | .ok .ping => ((makeSimpleString (text "PONG"), []), store)
  | .ok (.on key op) =>
    let c := (store.cell key).live (op.checkedAt call.now)
    let d := op.decide call.now key c
    ((d.reply, d.record.toList), store.setCell key (d.change.apply c))

theorem executeCommand_effect (call : Call) (s : Session) :
    executeCommand call.now call.request s = ((call.effect s.store).1.1,
      ⟨(call.effect s.store).2, appendRecords s.log (call.effect s.store).1.2⟩) := by
  rw [executeCommand_refines, Call.effect]
  cases interpret call.now call.request with
  | error reply => simp [answer]
  | ok request =>
    cases request with
    | ping => simp [answer, perform]
    | on key op => rfl

theorem interpret_key {call : Call} {key : Bytes} {op : Op}
    (h : interpret call.now call.request = .ok (.on key op)) : call.namedKey = some key := by
  have hspec := interpret_spec call.now call.request
  rw [h] at hspec
  obtain ⟨command, args, ⟨-, name, hwords, -⟩, -, -, hpassed⟩ := hspec
  have hhead := (hpassed.2 key op rfl).1
  rw [Call.namedKey, ← List.getElem?_map, hwords, List.getElem?_cons_succ, ← List.head?_eq_getElem?]
  exact hhead

section Records
variable {key : Bytes} {c : Cell} {α : Type} {getIf : Value → Option α}

def Decision.Names (key : Bytes) (d : Decision) : Prop := ∀ r ∈ d.record, r.key = some key

theorem names_answer (reply : RespValue) : (Decision.answer reply).Names key := nofun

theorem names_logged (reply : RespValue) (change : Change) (name : CommandName)
    (arguments : List Bytes) : Decision.Names key ⟨reply, change, logged name (key :: arguments)⟩ := by
  intro r hr
  obtain rfl := Option.some.inj hr
  rfl

theorem reading_names {missing : RespValue} {found : α → Decision}
    (hfound : ∀ x, (found x).Names key) : (reading getIf missing found c).Names key := by
  unfold reading
  split
  · exact names_answer missing
  · split
    · exact names_answer wrongType
    · exact hfound _

theorem writing_names {empty : α} {found : α → Decision} (hfound : ∀ x, (found x).Names key) :
    (writing getIf empty found c).Names key := by
  unfold writing
  split
  · exact hfound empty
  · split
    · exact names_answer wrongType
    · exact hfound _

end Records

theorem decide_names (now : Readings) (key : Bytes) (op : Op) (c : Cell) :
    (op.decide now key c).Names key := by
  cases op with
  | del =>
    simp only [Op.decide]
    split
    · exact names_logged _ _ _ []
    · intro r hr
      cases hr
  | expire seconds =>
    simp only [Op.decide]
    split
    · exact names_answer _
    split
    · exact names_logged _ _ _ []
    · intro r hr
      obtain rfl := Option.some.inj hr
      rfl
  | ttl =>
    simp only [Op.decide]
    split
    · exact names_answer _
    split <;> exact names_answer _
  | set value => exact names_logged _ _ _ [value]
  | get => exact reading_names fun _ => names_answer _
  | push side x => exact writing_names fun _ => names_logged _ _ _ [x]
  | pop side =>
    refine reading_names fun l => ?_
    cases side.pop l with
    | none => exact names_answer _
    | some popped => exact names_logged _ _ _ []
  | llen => exact reading_names fun _ => names_answer _
  | lrange start stop => exact reading_names fun _ => names_answer _
  | hset field value => exact writing_names fun _ => names_logged _ _ _ [field, value]
  | hget field =>
    refine reading_names fun h => ?_
    cases h[field]? <;> exact names_answer _
  | hdel field =>
    refine reading_names fun h => ?_
    split
    · exact names_logged _ _ _ [field]
    · exact names_answer _
  | hexists field => exact reading_names fun _ => names_answer _
  | hlen => exact reading_names fun _ => names_answer _
  | sadd member =>
    refine writing_names fun s => ?_
    split
    · exact names_answer _
    · exact names_logged _ _ _ [member]
  | srem member =>
    refine reading_names fun s => ?_
    split
    · exact names_logged _ _ _ [member]
    · exact names_answer _
  | sismember member => exact reading_names fun _ => names_answer _
  | scard => exact reading_names fun _ => names_answer _
  | smembers => exact reading_names fun _ => names_answer _

theorem effect_frame {call : Call} {key : Bytes} (h : key ∉ call.namedKey) (store : Store) :
    (call.effect store).2.cell key = store.cell key := by
  unfold Call.effect
  cases hrequest : interpret call.now call.request with
  | error reply => rfl
  | ok request =>
    cases request with
    | ping => rfl
    | on named op =>
      have hne : named ≠ key := by
        rintro rfl
        exact h (interpret_key hrequest)
      simp only [Store.cell_setCell, hne, if_false]

/-- The cell of the named key decides the reply, the records and the new cell. -/
theorem effect_local {call : Call} {store store' : Store}
    (h : ∀ key ∈ call.namedKey, store.cell key = store'.cell key) :
    (call.effect store).1 = (call.effect store').1 ∧
      ∀ key ∈ call.namedKey, (call.effect store).2.cell key = (call.effect store').2.cell key := by
  unfold Call.effect
  cases hrequest : interpret call.now call.request with
  | error reply => exact ⟨rfl, h⟩
  | ok request =>
    cases request with
    | ping => exact ⟨rfl, h⟩
    | on named op =>
      have hnamed := interpret_key hrequest
      have hcell := h named hnamed
      simp only [hcell, true_and]
      intro key hkey
      obtain rfl := Option.some.inj (hkey.symm.trans hnamed)
      simp only [Store.cell_setCell_self]

theorem effect_records {call : Call} {store : Store} {r : LogRecord}
    (h : r ∈ (call.effect store).1.2) : r.key = call.namedKey ∧ call.namedKey.isSome := by
  unfold Call.effect at h
  cases hrequest : interpret call.now call.request with
  | error reply => simp [hrequest] at h
  | ok request =>
    cases request with
    | ping => simp [hrequest] at h
    | on named op =>
      rw [interpret_key hrequest]
      simp only [hrequest, Option.mem_toList] at h
      exact ⟨decide_names _ _ _ _ r h, rfl⟩

def effectOf (call : Client × Call) (store : Store) : (RespValue × List LogRecord) × Store :=
  call.2.effect store

/-- The records that the calls write. -/
def recordsOf (calls : List (Client × Call)) (store : Store) : List LogRecord :=
  (trace effectOf calls store).flatMap (fun r => r.output.2)

/-- The run of the sessions is the run of the stores, with the records appended to the log. -/
theorem run_effect (calls : List (Client × Call)) (s : Session) :
    (trace serve calls s).map (fun r => (r.input, r.output)) =
        (trace effectOf calls s.store).map (fun r => (r.input, r.output.1)) ∧
      final serve calls s =
        ⟨final effectOf calls s.store, appendRecords s.log (recordsOf calls s.store)⟩ := by
  induction calls generalizing s with
  | nil => simp [trace, recordsOf]
  | cons call calls ih =>
    have hstep : serve call s = ((effectOf call s.store).1.1,
        ⟨(effectOf call s.store).2, appendRecords s.log (effectOf call s.store).1.2⟩) :=
      executeCommand_effect call.2 s
    obtain ⟨htrace, hfinal⟩ := ih (serve call s).2
    simp only [hstep] at htrace hfinal
    constructor
    · simp only [trace, List.map_cons, hstep, htrace]
    · simp only [final_cons, hstep, hfinal, recordsOf, trace, List.flatMap_cons,
        appendRecords_append]

def namedKeys (calls : List (Client × Call)) : List Bytes :=
  calls.filterMap (fun call => call.2.namedKey)

def recordsNaming (keys : List Bytes) (records : List LogRecord) : List LogRecord :=
  records.filter (fun r => r.key.any (· ∈ keys))

section Clients
variable [DecidableEq Client]

/-- What one client sends. -/
def callsOf (c : Client) (calls : List (Client × Call)) : List (Client × Call) :=
  calls.filter (fun call => call.1 = c)

/-- The replies that a client gets. -/
def repliesTo (c : Client) (calls : List (Client × Call)) (s : Session) : List RespValue :=
  ((trace serve calls s).filter (fun r => r.input.1 = c)).map Round.output

/-- Among the calls of the others, a client gets the replies, leaves the entries of its keys and writes
the records of its keys that it would alone. -/
structure Independent (c : Client) (calls : List (Client × Call)) (s : Session) : Prop where
  replies : repliesTo c calls s = (trace serve (callsOf c calls) s).map Round.output
  values : ∀ key ∈ namedKeys (callsOf c calls),
    (final serve calls s).store.values[key]? = (final serve (callsOf c calls) s).store.values[key]?
  expirations : ∀ key ∈ namedKeys (callsOf c calls),
    (final serve calls s).store.expirations[key]? =
      (final serve (callsOf c calls) s).store.expirations[key]?
  records : recordsNaming (namedKeys (callsOf c calls)) (recordsOf calls s.store) =
    recordsNaming (namedKeys (callsOf c calls)) (recordsOf (callsOf c calls) s.store)

theorem repliesTo_effect (c : Client) (calls : List (Client × Call)) (s : Session) :
    repliesTo c calls s =
      ((trace effectOf calls s.store).filter (fun r => r.input.1 = c)).map (fun r => r.output.1) := by
  have h := congrArg (fun l => (l.filter fun p => p.1.1 = c).map Prod.snd) (run_effect calls s).1
  simp only [List.filter_map, List.map_map] at h
  exact h

theorem mem_namedKeys {c : Client} {calls : List (Client × Call)} {call : Client × Call}
    (hcall : call ∈ calls) (hc : call.1 = c) {key : Bytes} (hkey : key ∈ call.2.namedKey) :
    key ∈ namedKeys (callsOf c calls) :=
  List.mem_filterMap.mpr ⟨call, List.mem_filter.mpr ⟨hcall, by simpa using hc⟩, hkey⟩

def cellsOf (keys : List Bytes) (store : Store) : {key // key ∈ keys} → Cell :=
  fun key => store.cell key

section Disjoint
variable {c : Client} {calls : List (Client × Call)}
  (hdisjoint : ∀ c', c' ≠ c →
    List.Disjoint (namedKeys (callsOf c calls)) (namedKeys (callsOf c' calls)))
include hdisjoint

theorem isolated_effect : Isolated effectOf (fun call => call.1 = c)
    (cellsOf (namedKeys (callsOf c calls))) calls where
  frame call hcall hother store := by
    funext key
    refine effect_frame (fun hkey => ?_) store
    have hne : call.1 ≠ c := by simpa using hother
    exact hdisjoint call.1 hne key.2 (mem_namedKeys hcall rfl hkey)
  answer call hcall hown store store' hcells := by
    have hlocal := @effect_local call.2 store store' fun key hkey =>
      congrFun hcells ⟨key, mem_namedKeys hcall (by simpa using hown) hkey⟩
    refine ⟨hlocal.1, ?_⟩
    funext key
    by_cases hkey : key.1 ∈ call.2.namedKey
    · exact hlocal.2 key hkey
    · exact (effect_frame hkey store).trans ((congrFun hcells key).trans
        (effect_frame hkey store').symm)

/-- The records of the keys of a client are those of its own calls. -/
theorem recordsNaming_trace {part : List (Client × Call)} (hpart : ∀ call ∈ part, call ∈ calls)
    (store : Store) : recordsNaming (namedKeys (callsOf c calls)) (recordsOf part store) =
      (((trace effectOf part store).filter (fun r => r.input.1 = c)).map Round.output).flatMap
        Prod.snd := by
  induction part generalizing store with
  | nil => rfl
  | cons call part ih =>
    have hrest := ih (fun q hq => hpart q (List.mem_cons_of_mem call hq)) (effectOf call store).2
    have hcall := hpart call List.mem_cons_self
    simp only [recordsNaming, recordsOf] at hrest ⊢
    rw [trace, List.flatMap_cons, List.filter_append, hrest]
    by_cases hc : call.1 = c
    · have hkeep : ∀ r ∈ (effectOf call store).1.2,
          r.key.any (· ∈ namedKeys (callsOf c calls)) = true := by
        intro r hr
        obtain ⟨hkey, hsome⟩ := effect_records hr
        obtain ⟨key, hnamed⟩ := Option.isSome_iff_exists.mp hsome
        simp [hkey, hnamed, mem_namedKeys hcall hc hnamed]
      rw [List.filter_eq_self.mpr hkeep, List.filter_cons_of_pos (by simpa using hc),
        List.map_cons, List.flatMap_cons]
    · have hdrop : ∀ r ∈ (effectOf call store).1.2,
          ¬ r.key.any (· ∈ namedKeys (callsOf c calls)) = true := by
        intro r hr
        obtain ⟨hkey, hsome⟩ := effect_records hr
        obtain ⟨key, hnamed⟩ := Option.isSome_iff_exists.mp hsome
        have hother := hdisjoint call.1 hc (a := key)
        simp only [hkey, hnamed, Option.any_some, decide_eq_true_eq]
        exact fun hmem => hother hmem (mem_namedKeys hcall rfl hnamed)
      rw [List.filter_eq_nil_iff.mpr hdrop, List.filter_cons_of_neg (by simpa using hc),
        List.nil_append]

theorem independent (s : Session) : Independent c calls s := by
  obtain ⟨houtputs, hcells⟩ := (isolated_effect hdisjoint).run (s := s.store) rfl
  have hstores (part : List (Client × Call)) := congrArg Session.store (run_effect part s).2
  have hentries (key : Bytes) (hkey : key ∈ namedKeys (callsOf c calls)) :
      (final serve calls s).store.cell key =
        (final serve (callsOf c calls) s).store.cell key := by
    rw [hstores, hstores]
    exact congrFun hcells ⟨key, hkey⟩
  refine ⟨?_, fun key hkey => congrArg Cell.value (hentries key hkey),
    fun key hkey => congrArg Cell.deadline (hentries key hkey), ?_⟩
  · have halone := congrArg (List.map Prod.snd) (run_effect (callsOf c calls) s).1
    simp only [List.map_map] at halone
    have hreplies := congrArg (List.map Prod.fst) houtputs
    simp only [List.map_map] at hreplies
    exact (repliesTo_effect c calls s).trans (hreplies.trans halone.symm)
  · have hown : ∀ r ∈ trace effectOf (callsOf c calls) s.store, decide (r.input.1 = c) = true := by
      intro r hr
      have hinput := List.mem_map_of_mem (f := Round.input) hr
      rw [map_input_trace] at hinput
      exact (List.mem_filter.mp hinput).2
    have hpart : ∀ call ∈ callsOf c calls, call ∈ calls := fun _ h => (List.mem_filter.mp h).1
    rw [recordsNaming_trace hdisjoint (fun _ h => h), recordsNaming_trace hdisjoint hpart,
      List.filter_eq_self.mpr hown, houtputs]
    rfl

end Disjoint

/-- Two calls in either order: each gets the reply and writes the records it does first, and the stores
they leave are the same. -/
structure Commute (a b : Call) (s : Session) : Prop where
  replies : (executeCommand a.now a.request (executeCommand b.now b.request s).2).1 =
      (executeCommand a.now a.request s).1 ∧
    (executeCommand b.now b.request (executeCommand a.now a.request s).2).1 =
      (executeCommand b.now b.request s).1
  store : (executeCommand b.now b.request (executeCommand a.now a.request s).2).2.store =
    (executeCommand a.now a.request (executeCommand b.now b.request s).2).2.store
  log : ∃ ra rb, (executeCommand a.now a.request s).2.log = appendRecords s.log ra ∧
    (executeCommand b.now b.request s).2.log = appendRecords s.log rb ∧
    (executeCommand b.now b.request (executeCommand a.now a.request s).2).2.log =
      appendRecords s.log (ra ++ rb) ∧
    (executeCommand a.now a.request (executeCommand b.now b.request s).2).2.log =
      appendRecords s.log (rb ++ ra)

theorem effect_after {a b : Call} (h : ∀ key ∈ a.namedKey, key ∉ b.namedKey) (store : Store) :
    (a.effect (b.effect store).2).1 = (a.effect store).1 ∧
      ∀ key ∈ a.namedKey, (a.effect (b.effect store).2).2.cell key = (a.effect store).2.cell key :=
  effect_local fun key hkey => effect_frame (h key hkey) store

theorem commute {a b : Call} (h : ∀ key ∈ a.namedKey, key ∉ b.namedKey) (s : Session) :
    Commute a b s := by
  have hb : ∀ key ∈ b.namedKey, key ∉ a.namedKey := fun key hkey hmem => h key hmem hkey
  obtain ⟨ha, hcella⟩ := effect_after h s.store
  obtain ⟨hb', hcellb⟩ := effect_after hb s.store
  refine ⟨⟨?_, ?_⟩, ?_, (a.effect s.store).1.2, (b.effect s.store).1.2, ?_, ?_, ?_, ?_⟩
  · simp only [executeCommand_effect, ha]
  · simp only [executeCommand_effect, hb']
  · simp only [executeCommand_effect]
    apply Store.ext_cell
    intro key
    by_cases hkey : key ∈ a.namedKey
    · rw [hcella key hkey, effect_frame (h key hkey)]
    · rw [effect_frame hkey]
      by_cases hkey' : key ∈ b.namedKey
      · exact hcellb key hkey'
      · rw [effect_frame hkey', effect_frame hkey', effect_frame hkey]
  · simp only [executeCommand_effect]
  · simp only [executeCommand_effect]
  · simp only [executeCommand_effect, hb', appendRecords_append]
  · simp only [executeCommand_effect, ha, appendRecords_append]

/-- Clients whose requests name disjoint keys do not influence each other, in whatever order their
requests arrive: a command leaves the entries of all other keys alone. -/
theorem disjoint_clients_independent :
    (∀ (calls : List (Client × Call)) (s : Session) (c : Client),
      (∀ c', c' ≠ c →
        List.Disjoint (namedKeys (callsOf c calls)) (namedKeys (callsOf c' calls))) →
      Independent c calls s) ∧
    (∀ (calls : List (Client × Call)) (s : Session),
      (final serve calls s).log = appendRecords s.log (recordsOf calls s.store)) ∧
    (∀ (call : Call) (s : Session), ∀ key, key ∉ call.namedKey →
      (executeCommand call.now call.request s).2.store.values[key]? = s.store.values[key]? ∧
      (executeCommand call.now call.request s).2.store.expirations[key]? =
        s.store.expirations[key]?) ∧
    ∀ (a b : Call) (s : Session), (∀ key ∈ a.namedKey, key ∉ b.namedKey) → Commute a b s := by
  refine ⟨fun calls s c h => independent h s,
    fun calls s => congrArg Session.log (run_effect calls s).2, fun call s key hkey => ?_,
    fun a b s h => commute h s⟩
  have hcell := effect_frame hkey s.store
  rw [executeCommand_effect]
  exact ⟨congrArg Cell.value hcell, congrArg Cell.deadline hcell⟩

end Clients

def callOf (words : List String) : Call :=
  ⟨.once 0 0, makeArray (words.map fun w => makeBulkString (text w))⟩

def mixedCalls : List (Bool × Call) :=
  [(true, callOf ["SET", "a", "1"]), (false, callOf ["RPUSH", "b", "x"]), (false, callOf ["PING"]),
    (true, callOf ["EXPIRE", "a", "5"]), (false, callOf ["GET", "b"]), (false, callOf ["LPOP", "b"]),
    (true, callOf ["TTL", "a"])]

theorem mixedCalls_independent : Independent true mixedCalls ⟨{}, some []⟩ := by
  have hkeys : ∀ key ∈ namedKeys (callsOf true mixedCalls),
      key ∉ namedKeys (callsOf false mixedCalls) := by decide
  refine disjoint_clients_independent.1 mixedCalls _ true fun c' hne => ?_
  obtain rfl : c' = false := by simpa using hne
  exact fun key hkey => hkeys key hkey

end RedisLite.Operations
