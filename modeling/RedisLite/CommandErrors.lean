import RedisLite.CommandRefinement

/-!
# Errors are exact and atomic

An error reply is given in the listed cases and in no other, and then neither map of the store has
changed and nothing is logged: the checks come before the first access to the key, and a value of
another type is only found on a key that is present and not due, where the access changes nothing.
-/

namespace RedisLite.Operations
open ByteStrings Resp Keyspace AppendLog Commands

inductive Kind where
  | string | list | hash | set
  deriving DecidableEq, Repr

def kindOf : Value → Kind
  | .string _ => .string
  | .list _ => .list
  | .hash _ => .hash
  | .set _ => .set

def arity : CommandName → ℕ
  | .ping => 0
  | .del | .ttl | .get | .lpop | .rpop | .llen | .hlen | .scard | .smembers => 1
  | .expire | .set | .lpush | .rpush | .hget | .hdel | .hexists | .sadd | .srem | .sismember => 2
  | .lrange | .hset => 3

def commandKind : CommandName → Option Kind
  | .ping | .del | .expire | .ttl | .set => none
  | .get => some .string
  | .lpush | .rpush | .lpop | .rpop | .llen | .lrange => some .list
  | .hset | .hget | .hdel | .hexists | .hlen => some .hash
  | .sadd | .srem | .sismember | .scard | .smembers => some .set

def opKind : Op → Option Kind
  | .del | .expire _ | .ttl | .set _ => none
  | .get => some .string
  | .push _ _ | .pop _ | .llen | .lrange _ _ => some .list
  | .hset _ _ | .hget _ | .hdel _ | .hexists _ | .hlen => some .hash
  | .sadd _ | .srem _ | .sismember _ | .scard | .smembers => some .set

/-- A non-empty, non-null array of non-null bulk strings. -/
def IsRequest (request : RespValue) : Prop :=
  request.type = .array ∧ request.isNull = false ∧ request.elements ≠ [] ∧
    ∀ e ∈ request.elements, e.type = .bulkString ∧ e.isNull = false

/-- A request whose first word, in upper case, is the name of a command. -/
def Names (request : RespValue) (command : CommandName) (args : List Bytes) : Prop :=
  IsRequest request ∧ ∃ name, request.elements.map RespValue.string = name :: args ∧
    toUpper name = command.upper

def IsInt64 (bs : Bytes) : Prop := ∃ n, SignedDecimal bs n ∧ InInt64 n

/-- Arguments a command does not take: too few or too many, or a number it cannot use. -/
inductive BadArgs (now : Readings) : CommandName → List Bytes → Prop where
  | arity {command args} (h : args.length ≠ arity command) : BadArgs now command args
  | expireAmount {key amount} (h : ¬ IsInt64 amount) : BadArgs now .expire [key, amount]
  | expireTooLong {key amount n} (hn : SignedDecimal amount n ∧ InInt64 n)
      (hmax : maxSeconds now.first < n) : BadArgs now .expire [key, amount]
  | rangeBound {key first last} (h : ¬ (IsInt64 first ∧ IsInt64 last)) :
      BadArgs now .lrange [key, first, last]

inductive Rejected (now : Readings) (request : RespValue) (store : Store) : Prop where
  | shape (h : ¬ IsRequest request)
  | unknown (h : IsRequest request) (hname : ∀ command args, ¬ Names request command args)
  | arguments {command args} (h : Names request command args) (hargs : BadArgs now command args)
  | wrongType {command key args kind value} (h : Names request command (key :: args))
      (hkind : commandKind command = some kind) (hvalue : store.values[key]? = some value)
      (hlive : ∀ deadline ∈ store.expirations[key]?, now.first < deadline)
      (hother : kindOf value ≠ kind)

theorem requestWords_eq_some_iff {request : RespValue} {words : List Bytes} :
    requestWords request = some words ↔
      IsRequest request ∧ request.elements.map RespValue.string = words := by
  unfold requestWords IsRequest
  split
  · rename_i h
    simp only [reduceCtorEq, false_iff]
    rintro ⟨⟨htype, hnull, hne, -⟩, -⟩
    rcases h with h | h | h
    · exact h htype
    · simp [hnull] at h
    · exact hne h
  · rename_i h
    simp only [not_or, not_not, Bool.not_eq_true] at h
    obtain ⟨htype, hnull, hne⟩ := h
    split
    · rename_i hany
      obtain ⟨e, he, hbad⟩ := List.any_eq_true.mp hany
      simp only [reduceCtorEq, false_iff]
      rintro ⟨⟨-, -, -, hall⟩, -⟩
      simp [hall e he] at hbad
    · rename_i hany
      have hall : ∀ e ∈ request.elements, e.type = .bulkString ∧ e.isNull = false := by
        intro e he
        by_contra hbad
        apply hany
        refine List.any_eq_true.mpr ⟨e, he, ?_⟩
        by_cases htype' : e.type = .bulkString <;> simp_all
      simp only [Option.some.injEq]
      exact ⟨fun hw => ⟨⟨htype, hnull, hne, hall⟩, hw⟩, fun hw => hw.2⟩

theorem commandNamed_upper (command : CommandName) : commandNamed command.upper = some command := by
  cases command <;> rfl

theorem commandNamed_eq_some_iff {name : Bytes} {command : CommandName} :
    commandNamed name = some command ↔ name = command.upper := by
  constructor
  · intro h
    have hname := List.find?_some h
    exact (of_decide_eq_true hname).symm
  · rintro rfl
    exact commandNamed_upper command

theorem names_iff {request : RespValue} {command : CommandName} {args : List Bytes} :
    Names request command args ↔ ∃ name, requestWords request = some (name :: args) ∧
      commandNamed (toUpper name) = some command := by
  simp only [Names, requestWords_eq_some_iff, commandNamed_eq_some_iff]
  constructor
  · rintro ⟨hreq, name, hwords, hname⟩
    exact ⟨name, ⟨hreq, hwords⟩, hname⟩
  · rintro ⟨name, ⟨hreq, hwords⟩, hname⟩
    exact ⟨hreq, name, hwords, hname⟩

/-- A request names at most one command. -/
theorem Names.unique {request : RespValue} {command command' : CommandName} {args args' : List Bytes}
    (h : Names request command args) (h' : Names request command' args') :
    command = command' ∧ args = args' := by
  obtain ⟨name, hwords, hname⟩ := names_iff.mp h
  obtain ⟨name', hwords', hname'⟩ := names_iff.mp h'
  rw [hwords] at hwords'
  cases hwords'
  rw [hname] at hname'
  cases hname'
  exact ⟨rfl, rfl⟩

theorem toInteger_eq_none_iff {bs : Bytes} : toInteger bs = none ↔ ¬ IsInt64 bs := by
  simp only [IsInt64, ← toInteger_eq_some_iff]
  cases toInteger bs <;> simp

/-- What a passed check says about the request: the key is the first argument, the operation works on
the type of the command and its strings are arguments. -/
def Passed (command : CommandName) (args : List Bytes) (request : Request) : Prop :=
  (request = .ping → commandKind command = none) ∧
    ∀ key op, request = .on key op → args.head? = some key ∧ opKind op = commandKind command ∧
      ∀ a ∈ op.arguments, a ∈ args

def Judged (now : Readings) (command : CommandName) (args : List Bytes) :
    Except RespValue Request → Prop
  | .error reply => reply.type = .error ∧ BadArgs now command args
  | .ok request => ¬ BadArgs now command args ∧ Passed command args request

theorem interpretArgs_expire_judged (now : Readings) (args : List Bytes) :
    Judged now .expire args (interpretArgs now .expire args) := by
  rcases args with _ | ⟨key, _ | ⟨amount, _ | ⟨extra, rest⟩⟩⟩
  · exact ⟨rfl, .arity (by simp [arity])⟩
  · exact ⟨rfl, .arity (by simp [arity])⟩
  · simp only [interpretArgs]
    cases hn : toInteger amount with
    | none => exact ⟨rfl, .expireAmount (toInteger_eq_none_iff.mp hn)⟩
    | some n =>
      by_cases hmax : maxSeconds now.first < n
      · simp only [hmax, if_true]
        exact ⟨rfl, .expireTooLong (toInteger_eq_some_iff.mp hn) hmax⟩
      · simp only [hmax, if_false]
        refine ⟨fun hbad => ?_, fun hping => ?_, fun key' op h => ?_⟩
        · cases hbad with
          | arity h => exact h rfl
          | expireAmount h => exact h ⟨n, toInteger_eq_some_iff.mp hn⟩
          | expireTooLong hn' hmax' =>
            have heq := hn.symm.trans (toInteger_eq_some_iff.mpr hn')
            cases heq
            exact hmax hmax'
        · cases hping
        · cases h
          exact ⟨rfl, rfl, fun a ha => by cases ha⟩
  · exact ⟨rfl, .arity (by simp [arity])⟩

theorem interpretArgs_lrange_judged (now : Readings) (args : List Bytes) :
    Judged now .lrange args (interpretArgs now .lrange args) := by
  rcases args with _ | ⟨key, _ | ⟨first, _ | ⟨last, _ | ⟨extra, rest⟩⟩⟩⟩
  · exact ⟨rfl, .arity (by simp [arity])⟩
  · exact ⟨rfl, .arity (by simp [arity])⟩
  · exact ⟨rfl, .arity (by simp [arity])⟩
  · simp only [interpretArgs]
    cases hfirst : toInteger first with
    | none => exact ⟨rfl, .rangeBound (fun h => toInteger_eq_none_iff.mp hfirst h.1)⟩
    | some start =>
      cases hlast : toInteger last with
      | none => exact ⟨rfl, .rangeBound (fun h => toInteger_eq_none_iff.mp hlast h.2)⟩
      | some stop =>
        refine ⟨fun hbad => ?_, fun hping => ?_, fun key' op h => ?_⟩
        · cases hbad with
          | arity h => exact h rfl
          | rangeBound h =>
            exact h ⟨⟨start, toInteger_eq_some_iff.mp hfirst⟩,
              ⟨stop, toInteger_eq_some_iff.mp hlast⟩⟩
        · cases hping
        · cases h
          exact ⟨rfl, rfl, fun a ha => by cases ha⟩
  · exact ⟨rfl, .arity (by simp [arity])⟩

theorem interpretArgs_spec (now : Readings) (command : CommandName) (args : List Bytes) :
    Judged now command args (interpretArgs now command args) := by
  have hgood {request : Request} (hlen : args.length = arity command)
      (hexpire : command ≠ .expire) (hlrange : command ≠ .lrange)
      (hpassed : Passed command args request) : Judged now command args (.ok request) := by
    refine ⟨fun hbad => ?_, hpassed⟩
    cases hbad with
    | arity h => exact h hlen
    | expireAmount h => exact hexpire rfl
    | expireTooLong hn hmax => exact hexpire rfl
    | rangeBound h => exact hlrange rfl
  cases command
  case expire => exact interpretArgs_expire_judged now args
  case lrange => exact interpretArgs_lrange_judged now args
  -- the other commands check the number of arguments only
  all_goals
    rcases args with _ | ⟨a, _ | ⟨b, _ | ⟨c, _ | ⟨d, rest⟩⟩⟩⟩
    all_goals first
      | exact hgood rfl nofun nofun ⟨nofun, fun key op h => by
          cases h
          exact ⟨rfl, rfl, by simp [Op.arguments]⟩⟩
      | exact hgood rfl nofun nofun ⟨fun _ => rfl, nofun⟩
      | exact ⟨rfl, .arity (by simp [arity])⟩

/-- A request is interpreted or refused, and a refused one is so whatever the store holds. -/
theorem interpret_spec (now : Readings) (request : RespValue) :
    match interpret now request with
    | .error reply => reply.type = .error ∧ ∀ store, Rejected now request store
    | .ok r => ∃ command args, Names request command args ∧
        interpretArgs now command args = .ok r ∧ ¬ BadArgs now command args ∧
        Passed command args r := by
  unfold interpret
  cases hwords : requestWords request with
  | none =>
    refine ⟨rfl, fun _ => .shape fun hreq => ?_⟩
    have := requestWords_eq_some_iff.mpr ⟨hreq, rfl⟩
    rw [hwords] at this
    cases this
  | some words =>
    have hreq := (requestWords_eq_some_iff.mp hwords).1
    cases words with
    | nil => exact absurd (List.map_eq_nil_iff.mp (requestWords_eq_some_iff.mp hwords).2) hreq.2.2.1
    | cons name args =>
      dsimp only
      cases hname : commandNamed (toUpper name) with
      | none =>
        refine ⟨rfl, fun _ => .unknown hreq fun command args' hnames => ?_⟩
        obtain ⟨name', hwords', hname'⟩ := names_iff.mp hnames
        rw [hwords] at hwords'
        cases hwords'
        rw [hname] at hname'
        cases hname'
      | some command =>
        have hnames : Names request command args := names_iff.mpr ⟨name, hwords, hname⟩
        have hspec := interpretArgs_spec now command args
        dsimp only
        cases hargs : interpretArgs now command args with
        | error reply =>
          rw [hargs] at hspec
          exact ⟨hspec.1, fun _ => .arguments hnames hspec.2⟩
        | ok r =>
          rw [hargs] at hspec
          exact ⟨command, args, hnames, hargs, hspec⟩

theorem isSome_string? (v : Value) : v.string?.isSome ↔ kindOf v = .string := by
  cases v <;> simp [Value.string?, kindOf]

theorem isSome_list? (v : Value) : v.list?.isSome ↔ kindOf v = .list := by
  cases v <;> simp [Value.list?, kindOf]

theorem isSome_hash? (v : Value) : v.hash?.isSome ↔ kindOf v = .hash := by
  cases v <;> simp [Value.hash?, kindOf]

theorem isSome_set? (v : Value) : v.set?.isSome ↔ kindOf v = .set := by
  cases v <;> simp [Value.set?, kindOf]

/-- A decision of an operation that works on values of one kind: it refuses a value of another kind
and gives no other error. -/
def Refuses (kind : Kind) (c : Cell) (d : Decision) : Prop :=
  (∀ v, c.value = some v → kindOf v ≠ kind → d = .answer wrongType) ∧
    (d.reply.type = .error → ∃ v, c.value = some v ∧ kindOf v ≠ kind)

section Typed
variable {α : Type} {getIf : Value → Option α} {kind : Kind} {found : α → Decision}
  (hget : ∀ v, (getIf v).isSome ↔ kindOf v = kind) (hfound : ∀ x, (found x).reply.type ≠ .error)
include hget hfound

theorem found_refuses {v : Value} {c : Cell} (hvalue : c.value = some v) :
    Refuses kind c (match getIf v with | none => .answer wrongType | some x => found x) := by
  cases hx : getIf v with
  | none =>
    have hkind : kindOf v ≠ kind := fun hkind => by simpa [hx] using (hget v).mpr hkind
    exact ⟨fun _ _ _ => rfl, fun _ => ⟨v, hvalue, hkind⟩⟩
  | some x =>
    have hkind : kindOf v = kind := by rw [← hget, hx, Option.isSome_some]
    refine ⟨fun v' hv' hne => ?_, fun herror => absurd herror (hfound x)⟩
    rw [Option.some.inj (hv'.symm.trans hvalue)] at hne
    exact absurd hkind hne

theorem reading_refuses {missing : RespValue} (hmissing : missing.type ≠ .error) (c : Cell) :
    Refuses kind c (reading getIf missing found c) := by
  unfold reading
  cases hvalue : c.value with
  | none => exact ⟨fun v hv => by simp [hvalue] at hv, fun h => absurd h hmissing⟩
  | some v => exact found_refuses hget hfound hvalue

theorem writing_refuses {empty : α} (c : Cell) :
    Refuses kind c (writing getIf empty found c) := by
  unfold writing
  cases hvalue : c.value with
  | none => exact ⟨fun v hv => by simp [hvalue] at hv, fun h => absurd h (hfound empty)⟩
  | some v => exact found_refuses hget hfound hvalue

end Typed

theorem decide_refuses (now : Readings) (key : Bytes) {op : Op} {kind : Kind}
    (hop : opKind op = some kind) (c : Cell) : Refuses kind c (op.decide now key c) := by
  cases op <;> cases hop <;> simp only [Op.decide]
  case get => exact reading_refuses isSome_string? (fun _ h => by cases h) (fun h => by cases h) c
  case push side x => exact writing_refuses isSome_list? (fun _ h => by cases h) c
  case pop side =>
    refine reading_refuses isSome_list? (fun l => ?_) (fun h => by cases h) c
    cases side.pop l <;> intro herror <;> cases herror
  case llen => exact reading_refuses isSome_list? (fun _ h => by cases h) (fun h => by cases h) c
  case lrange start stop =>
    exact reading_refuses isSome_list? (fun _ h => by cases h) (fun h => by cases h) c
  case hset field value => exact writing_refuses isSome_hash? (fun _ h => by cases h) c
  case hget field =>
    refine reading_refuses isSome_hash? (fun h => ?_) (fun h => by cases h) c
    cases h[field]? <;> intro herror <;> cases herror
  case hdel field =>
    refine reading_refuses isSome_hash? (fun h => ?_) (fun h => by cases h) c
    split <;> intro herror <;> cases herror
  case hexists field =>
    exact reading_refuses isSome_hash? (fun _ h => by cases h) (fun h => by cases h) c
  case hlen => exact reading_refuses isSome_hash? (fun _ h => by cases h) (fun h => by cases h) c
  case sadd member =>
    refine writing_refuses isSome_set? (fun set => ?_) c
    split <;> intro herror <;> cases herror
  case srem member =>
    refine reading_refuses isSome_set? (fun set => ?_) (fun h => by cases h) c
    split <;> intro herror <;> cases herror
  case sismember member =>
    exact reading_refuses isSome_set? (fun _ h => by cases h) (fun h => by cases h) c
  case scard => exact reading_refuses isSome_set? (fun _ h => by cases h) (fun h => by cases h) c
  case smembers => exact reading_refuses isSome_set? (fun _ h => by cases h) (fun h => by cases h) c

theorem decide_untyped (now : Readings) (key : Bytes) {op : Op} (hop : opKind op = none) (c : Cell) :
    (op.decide now key c).reply.type ≠ .error := by
  intro herror
  cases op <;> cases hop <;> simp only [Op.decide] at herror
  case del => cases herror
  case expire seconds =>
    split at herror
    · cases herror
    · split at herror <;> cases herror
  case ttl =>
    split at herror
    · cases herror
    · split at herror <;> cases herror
  case set value => cases herror

theorem checkedAt_typed {op : Op} {kind : Kind} (hop : opKind op = some kind) (now : Readings) :
    op.checkedAt now = now.first := by
  cases op <;> first | rfl | cases hop

/-- The key holds, and has not lost, a value of another kind than the one that is asked for. -/
def HoldsOther (now : Readings) (asked : Option Kind) (key : Bytes) (store : Store) : Prop :=
  ∃ kind v, asked = some kind ∧ store.values[key]? = some v ∧
    (∀ deadline ∈ store.expirations[key]?, now.first < deadline) ∧ kindOf v ≠ kind

/-- An operation replies with an error exactly for a live value of another kind, and leaves the
session alone then. -/
theorem perform_error (now : Readings) (key : Bytes) (op : Op) (s : Session) :
    ((perform now (.on key op) s).1.type = .error ↔ HoldsOther now (opKind op) key s.store) ∧
    ((perform now (.on key op) s).1.type = .error → (perform now (.on key op) s).2 = s) := by
  cases hop : opKind op with
  | none =>
    have hno : (perform now (.on key op) s).1.type ≠ .error := decide_untyped now key hop _
    refine ⟨⟨fun h => absurd h hno, ?_⟩, fun h => absurd h hno⟩
    rintro ⟨kind, v, hkind, -⟩
    cases hkind
  | some kind =>
    have hat := checkedAt_typed hop now
    have hrefuses := decide_refuses now key hop ((s.store.cell key).live now.first)
    have hmismatch {v : Value} (hv : ((s.store.cell key).live now.first).value = some v)
        (hne : kindOf v ≠ kind) : perform now (.on key op) s = (wrongType, s) := by
      have hd := hrefuses.1 v hv hne
      rw [Cell.live_of_value hv] at hd
      simp only [perform, hat, Cell.live_of_value hv, hd, commit, Decision.answer, Change.apply,
        Store.setCell_cell, Option.toList_none, appendRecords_nil]
    have herror : (perform now (.on key op) s).1.type = .error →
        ∃ v, ((s.store.cell key).live now.first).value = some v ∧ kindOf v ≠ kind := by
      intro h
      simp only [perform, hat] at h
      exact hrefuses.2 h
    refine ⟨⟨fun h => ?_, ?_⟩, fun h => ?_⟩
    · obtain ⟨v, hv, hne⟩ := herror h
      obtain ⟨hvalue, hdeadline⟩ := Cell.live_value_iff.mp hv
      exact ⟨kind, v, rfl, hvalue, hdeadline, hne⟩
    · rintro ⟨kind', v, hkind, hvalue, hdeadline, hne⟩
      cases hkind
      rw [hmismatch (Cell.live_value_iff.mpr ⟨hvalue, hdeadline⟩) hne]
      rfl
    · obtain ⟨v, hv, hne⟩ := herror h
      rw [hmismatch hv hne]

/-- Of the reasons to reject a request, one with good arguments leaves only the value of its key. -/
theorem rejected_iff {now : Readings} {request : RespValue} {command : CommandName}
    {args : List Bytes} (hnames : Names request command args) (hargs : ¬ BadArgs now command args)
    (store : Store) : Rejected now request store ↔
      ∃ key rest, args = key :: rest ∧ HoldsOther now (commandKind command) key store := by
  constructor
  · intro h
    cases h with
    | shape h => exact absurd hnames.1 h
    | unknown h hname => exact absurd hnames (hname command args)
    | arguments h hbad =>
      obtain ⟨rfl, rfl⟩ := hnames.unique h
      exact absurd hbad hargs
    | wrongType h hkind hvalue hlive hother =>
      obtain ⟨rfl, rfl⟩ := hnames.unique h
      exact ⟨_, _, rfl, _, _, hkind, hvalue, hlive, hother⟩
  · rintro ⟨key, rest, rfl, kind, v, hkind, hvalue, hlive, hother⟩
    exact .wrongType hnames hkind hvalue hlive hother

/-- An error is given exactly for a rejected request, and a rejected request changes nothing. -/
theorem executeCommand_errors (now : Readings) (request : RespValue) (s : Session) :
    ((executeCommand now request s).1.type = .error ↔ Rejected now request s.store) ∧
      (Rejected now request s.store → (executeCommand now request s).2 = s) := by
  rw [executeCommand_refines]
  have hspec := interpret_spec now request
  cases hrequest : interpret now request with
  | error reply =>
    rw [hrequest] at hspec
    exact ⟨⟨fun _ => hspec.2 s.store, fun _ => hspec.1⟩, fun _ => rfl⟩
  | ok r =>
    rw [hrequest] at hspec
    obtain ⟨command, args, hnames, -, hargs, hpassed⟩ := hspec
    rw [rejected_iff hnames hargs]
    cases r with
    | ping =>
      refine ⟨⟨nofun, ?_⟩, fun _ => rfl⟩
      rintro ⟨key, rest, -, kind, v, hkind, -⟩
      rw [hpassed.1 rfl] at hkind
      cases hkind
    | on key op =>
      obtain ⟨hhead, hkindOp, -⟩ := hpassed.2 key op rfl
      obtain ⟨rest, rfl⟩ : ∃ rest, args = key :: rest := List.head?_eq_some_iff.mp hhead
      obtain ⟨hiff, hatomic⟩ := perform_error now key op s
      have hholds : (∃ key' rest', key :: rest = key' :: rest' ∧
          HoldsOther now (commandKind command) key' s.store) ↔
          HoldsOther now (opKind op) key s.store := by
        rw [hkindOp]
        constructor
        · rintro ⟨key', rest', heq, h⟩
          cases heq
          exact h
        · exact fun h => ⟨key, rest, rfl, h⟩
      rw [hholds]
      exact ⟨hiff, fun h => hatomic (hiff.mpr h)⟩

end RedisLite.Operations
