import RedisLite.MachineRuns
import RedisLite.RecordEffects

/-!
# Lifetimes and restarts on one time line

The system clock and the steady clock advance together: instants are nanoseconds since the Unix epoch,
and within one lifetime of the server the steady clock shows the instant minus a constant, its boot
instant. A deadline of the store lies in one second of the Unix clock; the log keeps that second and
nothing else of it, and the replay makes the deadline out of the seconds that are left.
-/

namespace RedisLite.Restart
open ByteStrings Resp Keyspace AppendLog Commands Operations RecordFiles LogReader Replay

/-- An instant of a lifetime at which both clocks can be read. -/
structure Instant (boot : ℤ) where
  time : ℤ
  nonneg : 0 ≤ time
  unix_le : time / nanosPerSecond ≤ 4611686018427387904
  booted : boot ≤ time
  steady_le : time - boot ≤ maxTimePoint

variable {boot : ℤ}

def Instant.steady (i : Instant boot) : ℤ := i.time - boot

/-- `duration_cast<seconds>` of the system clock. -/
def Instant.unix (i : Instant boot) : ℤ := toSeconds i.time

def Instant.readings (i : Instant boot) : Readings := .once i.steady i.unix

/-- A request that arrives in a lifetime, and reads its clocks at one instant. -/
structure Arrival (boot : ℤ) where
  instant : Instant boot
  request : RespValue
  fits : ∀ e ∈ request.elements, FitsMemory e.string

def Arrival.time (a : Arrival boot) : ℤ := a.instant.time

def serve (a : Arrival boot) (s : Session) : Outcome :=
  executeCommand a.instant.readings a.request s

def Arrival.operation (a : Arrival boot) : Option (Bytes × Op) :=
  match interpret a.instant.readings a.request with
  | .ok (.on key op) => some (key, op)
  | _ => none

/-- The cell that the operation of a request finds. -/
def Arrival.finds (a : Arrival boot) (s : Session) (key : Bytes) : Cell :=
  (s.store.cell key).live a.instant.steady

def Arrival.decision (a : Arrival boot) (key : Bytes) (op : Op) (s : Session) : Decision :=
  op.decide a.instant.readings key (a.finds s key)

def Arrival.records (a : Arrival boot) (s : Session) : List LogRecord :=
  match a.operation with
  | none => []
  | some (key, op) => (a.decision key op s).record.toList

def atSecond (boot n : ℕ) (h : boot ≤ n ∧ n ≤ 1000) : Instant (boot * nanosPerSecond) where
  time := n * nanosPerSecond
  nonneg := by unfold nanosPerSecond; omega
  unix_le := by unfold nanosPerSecond; omega
  booted := by unfold nanosPerSecond; omega
  steady_le := by unfold nanosPerSecond maxTimePoint maxInt64; omega

def arrive (i : Instant boot) (words : List Bytes) (h : ∀ w ∈ words, FitsMemory w) : Arrival boot where
  instant := i
  request := asRequest words
  fits := by
    intro e he
    obtain ⟨w, hw, rfl⟩ := List.mem_map.mp he
    exact h w hw

/-- The second of the Unix clock in which a deadline of the store lies. -/
def expirySecond (boot deadline : ℤ) : ℤ := (deadline + boot) / nanosPerSecond

theorem Instant.unix_eq (i : Instant boot) : i.unix = i.time / nanosPerSecond :=
  Int.tdiv_eq_ediv_of_nonneg i.nonneg

theorem Instant.unix_bounds (i : Instant boot) : 0 ≤ i.unix ∧ i.unix ≤ 4611686018427387904 := by
  rw [i.unix_eq]
  exact ⟨Int.ediv_nonneg i.nonneg (by decide), i.unix_le⟩

theorem Instant.unix_mono {boot' : ℤ} {i : Instant boot} {i' : Instant boot'}
    (h : i.time ≤ i'.time) : i.unix ≤ i'.unix := by
  rw [i.unix_eq, i'.unix_eq]
  exact Int.ediv_le_ediv (by decide) h

/-- A deadline that is set so many seconds from now lies so many seconds after this one. -/
theorem expirySecond_set (i : Instant boot) (seconds : ℤ) :
    expirySecond boot (i.steady + seconds * nanosPerSecond) = i.unix + seconds := by
  rw [i.unix_eq, expirySecond, Instant.steady]
  unfold nanosPerSecond
  omega

theorem expirySecond_due (i : Instant boot) {deadline : ℤ} (h : deadline ≤ i.steady) :
    expirySecond boot deadline ≤ i.unix := by
  rw [i.unix_eq]
  refine Int.ediv_le_ediv (by decide) ?_
  unfold Instant.steady at h
  omega

theorem checkedAt_once (op : Op) (now unix : ℤ) : op.checkedAt (.once now unix) = now := by
  cases op <;> rfl

theorem interpretArgs_expire {now : Readings} {command : CommandName} {args : List Bytes}
    {key : Bytes} {seconds : ℤ} (h : interpretArgs now command args = .ok (.on key (.expire seconds))) :
    seconds ≤ maxSeconds now.first := by
  cases command
  case expire =>
    rcases args with _ | ⟨key', _ | ⟨amount, _ | ⟨extra, rest⟩⟩⟩
    · cases h
    · cases h
    · simp only [interpretArgs] at h
      split at h
      · cases h
      · split at h
        · cases h
        · rename_i hmax
          cases h
          exact not_lt.mp hmax
    · cases h
  case lrange =>
    rcases args with _ | ⟨key', _ | ⟨first, _ | ⟨last, _ | ⟨extra, rest⟩⟩⟩⟩
    · cases h
    · cases h
    · cases h
    · simp only [interpretArgs] at h
      split at h <;> cases h
    · cases h
  -- no other command has a time to live
  all_goals
    rcases args with _ | ⟨a, _ | ⟨b, _ | ⟨c, _ | ⟨d, rest⟩⟩⟩⟩
    all_goals cases h

theorem Instant.steady_nonneg (i : Instant boot) : 0 ≤ i.steady := by
  have := i.booted
  unfold Instant.steady
  omega

/-- A signed 64-bit number of nanoseconds holds less than 2^34 seconds. -/
theorem maxSeconds_le {now : ℤ} (h : 0 ≤ now) : maxSeconds now ≤ 9223372036 := by
  have hle : maxTimePoint - now ≤ maxTimePoint := by omega
  exact (Int.tdiv_le_tdiv (by decide) hle).trans (by decide)

/-- The strings of an operation are words of the request, and these are in memory. -/
theorem operation_fits (a : Arrival boot) {key : Bytes} {op : Op}
    (h : a.operation = some (key, op)) : FitsMemory key ∧ (∀ x ∈ op.arguments, FitsMemory x) ∧
      ∀ seconds, op = .expire seconds → seconds ≤ maxSeconds a.instant.steady := by
  unfold Arrival.operation at h
  split at h
  · rename_i key' op' hinterpret
    cases h
    have hspec := interpret_spec a.instant.readings a.request
    rw [hinterpret] at hspec
    obtain ⟨command, args, hnames, hinterpretArgs, -, hpassed⟩ := hspec
    obtain ⟨hhead, -, hargs⟩ := hpassed.2 _ _ rfl
    obtain ⟨-, name, hwords, -⟩ := hnames
    have hfits : ∀ x ∈ args, FitsMemory x := by
      intro x hx
      have hmem : x ∈ a.request.elements.map RespValue.string := by
        rw [hwords]
        exact List.mem_cons_of_mem _ hx
      obtain ⟨e, he, rfl⟩ := List.mem_map.mp hmem
      exact a.fits e he
    refine ⟨hfits _ (List.mem_of_head? hhead), fun x hx => hfits x (hargs x hx), ?_⟩
    rintro seconds rfl
    exact interpretArgs_expire hinterpretArgs
  · cases h

/-- The records a command writes can be read back. -/
theorem decision_wellFormed (a : Arrival boot) {key : Bytes} {op : Op}
    (h : a.operation = some (key, op)) {s : Session} (hs : s.store.Sound) {r : LogRecord}
    (hr : (a.decision key op s).record = some r) : WellFormed r := by
  obtain ⟨hkey, hargs, hmax⟩ := operation_fits a h
  have hc : (a.finds s key).Sound := (Store.sound_iff.mp hs key).live _
  cases decide_recorded a.instant.readings key op hc with
  | nothing hrecord hcell =>
    rw [Arrival.decision, hrecord] at hr
    cases hr
  | deadline seconds hop hpos hvalue hchange hrecord =>
    rw [Arrival.decision, hrecord] at hr
    cases hr
    have hseconds := hmax seconds hop
    have hlimit := maxSeconds_le a.instant.steady_nonneg
    have hunix := a.instant.unix_bounds
    refine ⟨hkey, ?_⟩
    simp only [Instant.readings, Readings.once]
    unfold InInt64 minInt64 maxInt64
    omega
  | command name args op' hrecord _ hshape hsub =>
    rw [Arrival.decision, hrecord] at hr
    cases hr
    refine ⟨hshape, fun x hx => ?_⟩
    rcases List.mem_cons.mp hx with rfl | hx
    · exact hkey
    · exact hargs x (hsub x hx)

/-- What a request does: nothing, or its operation replaces the cell of its key and writes its
record. -/
theorem serve_cases (a : Arrival boot) (s : Session) :
    (a.operation = none ∧ (serve a s).2 = s ∧ a.records s = []) ∨
      ∃ key op, a.operation = some (key, op) ∧ a.records s = (a.decision key op s).record.toList ∧
        serve a s = ((a.decision key op s).reply,
          ⟨s.store.setCell key ((a.decision key op s).change.apply (a.finds s key)),
            appendRecords s.log (a.records s)⟩) := by
  rw [serve, executeCommand_refines]
  cases hrequest : interpret a.instant.readings a.request with
  | error reply =>
    have hoperation : a.operation = none := by simp only [Arrival.operation, hrequest]
    exact .inl ⟨hoperation, rfl, by rw [Arrival.records, hoperation]⟩
  | ok r =>
    cases r with
    | ping =>
      have hoperation : a.operation = none := by simp only [Arrival.operation, hrequest]
      exact .inl ⟨hoperation, rfl, by rw [Arrival.records, hoperation]⟩
    | on key op =>
      have hoperation : a.operation = some (key, op) := by simp only [Arrival.operation, hrequest]
      have hrecords : a.records s = (a.decision key op s).record.toList := by
        rw [Arrival.records, hoperation]
      refine .inr ⟨key, op, hoperation, hrecords, ?_⟩
      rw [hrecords]
      simp only [answer, perform, commit, Arrival.decision, Arrival.finds, Instant.readings,
        checkedAt_once]

structure Written (s : Session) (records : List LogRecord) : Prop where
  log : s.log = some (records.flatMap LogRecord.encode)
  wellFormed : ∀ r ∈ records, WellFormed r
  sound : s.store.Sound

theorem Written.serve {s : Session} {records : List LogRecord} (h : Written s records)
    (a : Arrival boot) : Written (Restart.serve a s).2 (records ++ a.records s) := by
  refine ⟨?_, ?_, executeCommand_sound _ _ h.sound⟩
  · rcases serve_cases a s with ⟨-, hsame, hrecords⟩ | ⟨key, op, hoperation, hrecords, hserve⟩
    · rw [hsame, hrecords, List.append_nil, h.log]
    · rw [hserve, h.log, List.flatMap_append]
      rfl
  · intro r hr
    rcases List.mem_append.mp hr with hr | hr
    · exact h.wellFormed r hr
    · rcases serve_cases a s with ⟨-, -, hrecords⟩ | ⟨key, op, hoperation, hrecords, -⟩
      · rw [hrecords] at hr
        cases hr
      · rw [hrecords, Option.mem_toList] at hr
        exact decision_wellFormed a hoperation h.sound hr

/-- A relation between the live cell and the replayed cell of every key. -/
def Follows (now : Readings) (Rel : Cell → Cell → Prop) (s : Session) (records : List LogRecord) :
    Prop :=
  ∀ key, Rel (s.store.cell key) ((loaded (fun _ => now) records).cell key)

/-- The replay follows a request if the relation survives lazy expiration and the one record that
the request may write. -/
theorem Follows.serve {now : Readings} {Rel : Cell → Cell → Prop} {s : Session}
    {records : List LogRecord} (h : Follows now Rel s records) (a : Arrival boot)
    (hlive : ∀ c r, Rel c r → Rel (c.live a.instant.steady) r)
    (hsound : s.store.Sound)
    (hrecord : ∀ key op r replayed, a.operation = some (key, op) →
      (a.decision key op s).record = some r → Rel (a.finds s key) (replayed.cell key) →
      ∃ c, executeRecord now r replayed = replayed.setCell key c ∧
        Rel ((a.decision key op s).change.apply (a.finds s key)) c) :
    Follows now Rel (Restart.serve a s).2 (records ++ a.records s) := by
  intro key'
  rcases serve_cases a s with ⟨-, hsame, hrecords⟩ | ⟨key, op, hoperation, hrecords, hserve⟩
  · rw [hsame, hrecords, List.append_nil]
    exact h key'
  · rw [hserve]
    have hfound := hlive _ _ (h key)
    cases hr : (a.decision key op s).record with
    | none =>
      have hcell : (a.decision key op s).change.apply (a.finds s key) = a.finds s key := by
        have hc : (a.finds s key).Sound := (Store.sound_iff.mp hsound key).live _
        cases decide_recorded a.instant.readings key op hc with
        | nothing _ hcell => exact hcell
        | deadline _ _ _ _ _ hrecord =>
          rw [Arrival.decision, hrecord] at hr
          cases hr
        | command _ _ _ hrecord =>
          rw [Arrival.decision, hrecord] at hr
          cases hr
      rw [hrecords, hr, Option.toList_none, List.append_nil, hcell, Store.cell_setCell]
      split
      · rename_i hkey
        rw [← hkey]
        exact hfound
      · exact h key'
    | some r =>
      obtain ⟨c, hexecute, hrel⟩ := hrecord key op r _ hoperation hr hfound
      rw [hrecords, hr, Option.toList_some, loaded_append, hexecute, Store.cell_setCell,
        Store.cell_setCell]
      split
      · exact hrel
      · exact h key'

end RedisLite.Restart
