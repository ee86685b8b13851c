import RedisLite.ExpiredRecords

/-!
# Restart equivalence

The same file is served by lifetime after lifetime: each begins with the store that the replay makes
out of it and appends to it. As long as no recorded deadline is reached, a replay gives back the
values, and deadlines that stay in the second in which they were set, however many restarts there
were. This needs every request to read its clocks at one instant.
-/

namespace RedisLite.Restart
open ByteStrings Resp Keyspace AppendLog Commands Operations RecordFiles LogReader Replay

variable {boot boot' : ℤ}

/-- The deadline that a successful `EXPIRE` sets, on the common time line. -/
def Arrival.deadlineSet (a : Arrival boot) (s : Session) : Option (Bytes × ℤ) :=
  match a.operation with
  | some (key, .expire seconds) =>
    if 0 < seconds ∧ (serve a s).1.integer = 1 then
      some (key, a.time + seconds * nanosPerSecond)
    else none
  | _ => none

/-- The server and its file at some instant. `setAt` remembers, for every key, the deadline that the
last successful `EXPIRE` of the key set. -/
structure World where
  boot : ℤ
  time : ℤ
  session : Session
  setAt : Bytes → Option ℤ

def World.file (w : World) : Bytes := w.session.log.getD []

def World.serve (w : World) (a : Arrival w.boot) : World where
  boot := w.boot
  time := a.time
  session := (Restart.serve a w.session).2
  setAt key :=
    match a.deadlineSet w.session with
    | some (key', deadline) => if key = key' then some deadline else w.setAt key
    | none => w.setAt key

/-- A new lifetime: the store is what the replay leaves behind, and the file stays. -/
def World.restart (w : World) (path : Bytes) (i : Instant boot') : World where
  boot := boot'
  time := i.time
  session := ⟨(replayLog path (.contents w.file) (fun _ => i.readings) {}).2, w.session.log⟩
  setAt := w.setAt

/-- A file of written records holds a record. -/
def InFile (file : Bytes) (r : LogRecord) : Prop :=
  ∃ records : List LogRecord, (∀ r ∈ records, WellFormed r) ∧
    file = records.flatMap LogRecord.encode ∧ r ∈ records

/-- The steady clock of the lifetime that starts at an instant can count the seconds that are left of
every recorded deadline. -/
def WithinClock (file : Bytes) (i : Instant boot) : Prop :=
  ∀ key deadline, InFile file (.expire key deadline) → deadline - i.unix ≤ maxSeconds i.steady

/-- Requests and restarts in order of time, from an empty store and an empty file. -/
inductive History (path : Bytes) : World → Prop where
  | start (boot time : ℤ) : History path ⟨boot, time, fresh, fun _ => none⟩
  | request {w : World} (h : History path w) (a : Arrival w.boot) (hlater : w.time ≤ a.time) :
      History path (w.serve a)
  | restart {w : World} (h : History path w) {boot : ℤ} (i : Instant boot)
      (hlater : w.time ≤ i.time) (hclock : WithinClock w.file i) : History path (w.restart path i)

theorem inFile_iff {records : List LogRecord} (h : ∀ r ∈ records, WellFormed r) {r : LogRecord} :
    InFile (records.flatMap LogRecord.encode) r ↔ r ∈ records := by
  constructor
  · rintro ⟨records', h', heq, hr⟩
    rwa [readRecord_framing.encoding_unique 0 h h' heq]
  · exact fun hr => ⟨records, h, rfl, hr⟩

/-- Every recorded deadline lies in a later second, and the steady clock can count up to it. -/
def Ahead (records : List LogRecord) (i : Instant boot) : Prop :=
  ∀ key deadline, .expire key deadline ∈ records →
    i.unix < deadline ∧ deadline - i.unix ≤ maxSeconds i.steady

/-- Every deadline of the store lies in a second that is recorded for its key, and so does the
deadline that was set first. -/
def Timed (w : World) (records : List LogRecord) : Prop :=
  ∀ key deadline, (w.session.store.cell key).deadline = some deadline →
    .expire key (expirySecond w.boot deadline) ∈ records ∧
      ∃ first, w.setAt key = some first ∧ first / nanosPerSecond = expirySecond w.boot deadline

/-- As seen from any later instant that no recorded deadline has reached. -/
structure Restorable (w : World) (records : List LogRecord) : Prop where
  written : Written w.session records
  follows : ∀ {boot'} (i : Instant boot'), w.time ≤ i.time → Ahead records i →
    Follows i.readings (fun c r => r = mirror w.boot i c) w.session records
  timed : ∀ {boot'} (i : Instant boot'), w.time ≤ i.time → Ahead records i → Timed w records

theorem Ahead.of_append {records new : List LogRecord} {i : Instant boot}
    (h : Ahead (records ++ new) i) : Ahead records i :=
  fun key deadline hmem => h key deadline (List.mem_append_left new hmem)

theorem Timed.not_passed {w : World} {records : List LogRecord} (h : Timed w records)
    {i : Instant boot'} (hahead : Ahead records i) (key : Bytes) :
    ¬ Passed w.boot i (w.session.store.cell key) := by
  rintro ⟨deadline, hdeadline, hle⟩
  exact absurd (hahead key _ (h key deadline hdeadline).1).1 (not_lt.mpr hle)

/-- A request sets a deadline, or leaves at most the one that is there. -/
theorem deadlineSet_cases {a : Arrival boot} {s : Session} (hs : s.store.Sound) {key : Bytes}
    {op : Op} (hoperation : a.operation = some (key, op))
    (hreply : (serve a s).1 = (a.decision key op s).reply) :
    (a.deadlineSet s = none ∧ ∀ deadline,
      ((a.decision key op s).change.apply (a.finds s key)).deadline = some deadline →
        (a.finds s key).deadline = some deadline) ∨
    ∃ seconds, a.deadlineSet s = some (key, a.time + seconds * nanosPerSecond) ∧
      (a.decision key op s).change = .expireAt (a.instant.steady + seconds * nanosPerSecond) ∧
      (a.decision key op s).record = some (.expire key (a.instant.unix + seconds)) := by
  have hc : (a.finds s key).Sound := (Store.sound_iff.mp hs key).live _
  by_cases hexpire : ∃ seconds, op = .expire seconds
  · obtain ⟨seconds, rfl⟩ := hexpire
    simp only [Arrival.deadlineSet, hoperation, hreply, Arrival.decision, Op.decide]
    cases hvalue : (a.finds s key).value with
    | none =>
      refine .inl ⟨?_, fun deadline h => ?_⟩
      · simp [Decision.answer, makeInteger]
      · simpa [Decision.answer, Change.apply] using h
    | some v =>
      by_cases hpos : seconds ≤ 0
      · refine .inl ⟨?_, fun deadline h => ?_⟩
        · simp [not_lt.mpr hpos]
        · simp [hpos, Change.apply, Cell.missing] at h
      · refine .inr ⟨seconds, ?_, ?_, ?_⟩ <;>
          simp [hpos, not_le.mp hpos, makeInteger, Instant.readings, Readings.once]
  · have hnone : a.deadlineSet s = none := by
      simp only [Arrival.deadlineSet, hoperation]
      cases op <;> first | rfl | exact absurd ⟨_, rfl⟩ hexpire
    refine .inl ⟨hnone, fun deadline h => ?_⟩
    cases decide_recorded a.instant.readings key op hc with
    | nothing _ hcell => rwa [Arrival.decision, hcell] at h
    | deadline seconds hop => exact absurd ⟨seconds, hop⟩ hexpire
    | command _ _ _ _ _ _ _ hchange =>
      rw [Arrival.decision] at h
      cases hkind : (op.decide a.instant.readings key (a.finds s key)).change with
      | keep => rwa [hkind] at h
      | put v => rwa [hkind] at h
      | replace v => rw [hkind] at h; cases h
      | remove => rw [hkind] at h; cases h
      | expireAt deadline => exact absurd hkind (hchange deadline)

/-- The deadline of a key is the one it had, with what was set for it, or one that this request
sets. -/
theorem Timed.serve {w : World} {records : List LogRecord} (h : Timed w records)
    (hs : w.session.store.Sound) (a : Arrival w.boot) :
    Timed (w.serve a) (records ++ a.records w.session) := by
  have hold {key : Bytes} {deadline : ℤ} (hset : (w.serve a).setAt key = w.setAt key)
      (hdeadline : (w.session.store.cell key).deadline = some deadline) :
      .expire key (expirySecond w.boot deadline) ∈ records ++ a.records w.session ∧
        ∃ first, (w.serve a).setAt key = some first ∧
          first / nanosPerSecond = expirySecond w.boot deadline := by
    obtain ⟨hmem, hfirst⟩ := h key deadline hdeadline
    exact ⟨List.mem_append_left _ hmem, hset ▸ hfirst⟩
  intro key deadline hdeadline
  rcases serve_cases a w.session with ⟨hoperation, hsame, -⟩ |
    ⟨key', op, hoperation, hrecords, hserve⟩
  · have hset : a.deadlineSet w.session = none := by simp only [Arrival.deadlineSet, hoperation]
    refine hold (by simp only [World.serve, hset]) ?_
    rwa [World.serve, hsame] at hdeadline
  · have hcell : (w.serve a).session.store.cell key =
        if key' = key then (a.decision key' op w.session).change.apply (a.finds w.session key')
        else w.session.store.cell key := by
      rw [← Store.cell_setCell, World.serve, hserve]
    rw [hcell] at hdeadline
    rcases deadlineSet_cases hs hoperation (by rw [hserve]) with ⟨hset, hkept⟩ |
      ⟨seconds, hset, hchange, hrecord⟩
    · refine hold (by simp only [World.serve, hset]) ?_
      split at hdeadline
      · rename_i hkey
        subst hkey
        exact Cell.deadline_of_live (hkept deadline hdeadline)
      · exact hdeadline
    · split at hdeadline
      · rename_i hkey
        subst hkey
        rw [hchange] at hdeadline
        cases hdeadline
        have hsecond := expirySecond_set a.instant seconds
        have htime : a.time + seconds * nanosPerSecond =
            a.instant.steady + seconds * nanosPerSecond + w.boot := by
          unfold Arrival.time Instant.steady
          omega
        refine ⟨List.mem_append_right _ ?_, a.time + seconds * nanosPerSecond, ?_, ?_⟩
        · rw [hrecords, hrecord]
          exact List.mem_singleton.mpr (congrArg _ hsecond)
        · simp only [World.serve, hset, if_true]
        · rw [htime]
          rfl
      · rename_i hkey
        refine hold ?_ hdeadline
        simp only [World.serve, hset, if_neg (Ne.symm hkey)]

theorem maxSeconds_nonneg (i : Instant boot) : 0 ≤ maxSeconds i.steady := by
  refine Int.tdiv_nonneg ?_ (by decide)
  have := i.steady_le
  unfold Instant.steady
  omega

theorem mem_records_expire {a : Arrival boot} {s : Session} {key : Bytes} {seconds : ℤ}
    (hoperation : a.operation = some (key, .expire seconds))
    (hvalue : (a.finds s key).value.isSome) (hpos : 0 < seconds) :
    .expire key (a.instant.unix + seconds) ∈ a.records s := by
  obtain ⟨v, hv⟩ := Option.isSome_iff_exists.mp hvalue
  simp [Arrival.records, hoperation, Arrival.decision, Op.decide, hv, not_le.mpr hpos,
    Instant.readings, Readings.once]

theorem Restorable.start (boot time : ℤ) : Restorable ⟨boot, time, fresh, fun _ => none⟩ [] where
  written := written_fresh
  follows i _ _ := by
    intro key
    have hloaded : loaded (fun _ => i.readings) [] = {} := rfl
    rw [hloaded, fresh, cell_empty]
    rfl
  timed i _ _ := by
    intro key deadline hdeadline
    rw [fresh, cell_empty] at hdeadline
    cases hdeadline

theorem Restorable.serve {w : World} {records : List LogRecord} (h : Restorable w records)
    (a : Arrival w.boot) (hlater : w.time ≤ a.time) :
    Restorable (w.serve a) (records ++ a.records w.session) where
  written := h.written.serve a
  timed i hi hahead :=
    (h.timed i (hlater.trans hi) hahead.of_append).serve h.written.sound a
  follows i hi hahead := by
    have htimed := h.timed i (hlater.trans hi) hahead.of_append
    have hfinds : ∀ key, ¬ Passed w.boot i (a.finds w.session key) := by
      rintro key ⟨deadline, hdeadline, hle⟩
      exact htimed.not_passed hahead.of_append key ⟨deadline, Cell.deadline_of_live hdeadline, hle⟩
    have hwrite : ¬ WritesInto (Passed w.boot i) a w.session := by
      rintro ⟨key, op, v, -, -, -, hpassed⟩
      exact hfinds key hpassed
    have hextend : ¬ ExtendsPassed i a w.session := by
      rintro ⟨key, seconds, -, hpassed, -⟩
      exact hfinds key hpassed
    have hclock : ¬ OutlastsClock i a w.session := by
      rintro ⟨key, seconds, hoperation, hvalue, hmax⟩
      by_cases hpos : 0 < seconds
      · have hmem := mem_records_expire hoperation hvalue hpos
        exact absurd (hahead key _ (List.mem_append_right _ hmem)).2 (not_le.mpr hmax)
      · have hunix : a.instant.unix ≤ i.unix := Instant.unix_mono hi
        have hnonneg := maxSeconds_nonneg i
        omega
    refine (h.follows i (hlater.trans hi) hahead.of_append).serve a (fun c r hr => ?_)
      h.written.sound (fun key op r replayed hoperation hr hcell => ?_)
    · rw [hr, mirror_live (Instant.unix_mono hi)]
    · exact ⟨_, executeRecord_mirror h.written.sound hwrite hextend hclock hoperation hr hcell, rfl⟩

theorem Written.file {w : World} {records : List LogRecord} (h : Written w.session records) :
    w.file = records.flatMap LogRecord.encode := by
  rw [World.file, h.log, Option.getD_some]

theorem Written.replay {w : World} {records : List LogRecord} (h : Written w.session records)
    (path : Bytes) (i : Instant boot) :
    replayLog path (.contents w.file) (fun _ => i.readings) {} =
      (none, loaded (fun _ => i.readings) records) := by
  rw [h.file, replayLog_records path _ {} h.wellFormed]

theorem Restorable.restart {w : World} {records : List LogRecord} (h : Restorable w records)
    (path : Bytes) (i : Instant boot) (hlater : w.time ≤ i.time) (hclock : WithinClock w.file i) :
    Restorable (w.restart path i) records := by
  -- what a later instant has ahead of it, this one has
  have hahead_i {boot'} (j : Instant boot') (hj : i.time ≤ j.time) (hahead : Ahead records j) :
      Ahead records i := by
    intro key deadline hmem
    have hfile : InFile w.file (.expire key deadline) := by
      rw [h.written.file]
      exact (inFile_iff h.written.wellFormed).mpr hmem
    exact ⟨(Instant.unix_mono hj).trans_lt (hahead key deadline hmem).1,
      hclock key deadline hfile⟩
  have hcell {boot'} (j : Instant boot') (hj : i.time ≤ j.time) (hahead : Ahead records j)
      (key : Bytes) : (w.restart path i).session.store.cell key =
        mirror w.boot i (w.session.store.cell key) := by
    rw [World.restart, h.written.replay path i]
    exact h.follows i hlater (hahead_i j hj hahead) key
  have hnot {boot'} (j : Instant boot') (hj : i.time ≤ j.time) (hahead : Ahead records j)
      (key : Bytes) : ¬ Passed w.boot i (w.session.store.cell key) :=
    (h.timed i hlater (hahead_i j hj hahead)).not_passed (hahead_i j hj hahead) key
  refine ⟨⟨h.written.log, h.written.wellFormed, ?_⟩, fun j hj hahead key => ?_,
    fun j hj hahead key deadline hdeadline => ?_⟩
  · exact replayLog_sound path _ _ Store.sound_empty
  · rw [hcell j hj hahead]
    exact (h.follows j (hlater.trans hj) hahead key).trans
      (mirror_mirror (hnot j hj hahead key) j).symm
  · rw [hcell j hj hahead, mirror_deadline (hnot j hj hahead key)] at hdeadline
    obtain ⟨old, hold, rfl⟩ := Option.map_eq_some_iff.mp hdeadline
    have hsecond := expirySecond_set i (expirySecond w.boot old - i.unix)
    rw [add_sub_cancel] at hsecond
    rw [World.restart, hsecond]
    exact h.timed j (hlater.trans hj) hahead key old hold

theorem history_restorable {path : Bytes} {w : World} (h : History path w) :
    ∃ records, Restorable w records := by
  induction h with
  | start boot time => exact ⟨[], Restorable.start boot time⟩
  | request _ a hlater ih =>
    obtain ⟨records, hrecords⟩ := ih
    exact ⟨_, hrecords.serve a hlater⟩
  | restart _ i hlater hclock ih =>
    obtain ⟨records, hrecords⟩ := ih
    exact ⟨records, hrecords.restart path i hlater hclock⟩

/-- After any requests and restarts, a replay at an instant that no recorded deadline has reached
gives back the values and the keys that carry a deadline, and every deadline is less than a second
from the one that an `EXPIRE` set. -/
theorem restart_equivalence {path : Bytes} {w : World} (h : History path w) (i : Instant boot)
    (hlater : w.time ≤ i.time)
    (hahead : ∀ key deadline, InFile w.file (.expire key deadline) → i.unix < deadline)
    (hclock : WithinClock w.file i) :
    ∃ replayed, replayLog path (.contents w.file) (fun _ => i.readings) {} = (none, replayed) ∧
      replayed.values = w.session.store.values ∧
      (∀ key, key ∈ replayed.expirations ↔ key ∈ w.session.store.expirations) ∧
      ∀ key deadline, replayed.expirations[key]? = some deadline →
        ∃ first, w.setAt key = some first ∧ |deadline + boot - first| < nanosPerSecond := by
  obtain ⟨records, hrestorable⟩ := history_restorable h
  have hwritten := hrestorable.written
  have hrecords : Ahead records i := by
    intro key deadline hmem
    have hfile : InFile w.file (.expire key deadline) := by
      rw [hwritten.file]
      exact (inFile_iff hwritten.wellFormed).mpr hmem
    exact ⟨hahead key deadline hfile, hclock key deadline hfile⟩
  have htimed := hrestorable.timed i hlater hrecords
  have hcell := hrestorable.follows i hlater hrecords
  have hnot := htimed.not_passed hrecords
  have hvalue (key : Bytes) : (loaded (fun _ => i.readings) records).values[key]? =
      w.session.store.values[key]? :=
    (congrArg Cell.value (hcell key)).trans (mirror_value (hnot key))
  have hexpiration (key : Bytes) : (loaded (fun _ => i.readings) records).expirations[key]? = _ :=
    (congrArg Cell.deadline (hcell key)).trans (mirror_deadline (hnot key))
  refine ⟨_, hwritten.replay path i, Std.ExtTreeMap.ext_getElem? hvalue, fun key => ?_,
    fun key deadline hdeadline => ?_⟩
  · rw [Std.ExtTreeMap.mem_iff_isSome_getElem?, Std.ExtTreeMap.mem_iff_isSome_getElem?,
      hexpiration, Option.isSome_map]
    rfl
  · rw [hexpiration] at hdeadline
    obtain ⟨old, hold, rfl⟩ := Option.map_eq_some_iff.mp hdeadline
    obtain ⟨-, first, hfirst, hsecond⟩ := htimed key old hold
    refine ⟨first, hfirst, ?_⟩
    -- both deadlines lie in the recorded second
    have hset := expirySecond_set i (expirySecond w.boot old - i.unix)
    rw [add_sub_cancel, ← hsecond, expirySecond] at hset
    rw [abs_lt]
    rw [← hsecond]
    unfold nanosPerSecond at *
    constructor <;> omega

def firstLifetime : World :=
  (World.serve ⟨(0 : ℕ) * nanosPerSecond, 0, fresh, fun _ => none⟩
    (arrive (atSecond 0 0 firstSecond) [text "SET", text "k", text "v"] setKey_fits)).serve
      (arrive (atSecond 0 1 nextSecond) [text "EXPIRE", text "k", text "100"] expireKey_fits)

def secondLifetime : World :=
  (firstLifetime.restart [] (atSecond 15 20 (by decide))).serve
    (arrive (atSecond 15 21 (by decide)) [text "RPUSH", text "l", text "x"] (by decide))

theorem secondLifetime_restored : ∃ replayed,
    replayLog [] (.contents secondLifetime.file) (fun _ => (atSecond 25 30 (by decide)).readings) {} =
        (none, replayed) ∧
      replayed.values = secondLifetime.session.store.values := by
  let set : LogRecord := .command (text "SET") [text "k", text "v"]
  let push : LogRecord := .command (text "RPUSH") [text "l", text "x"]
  have hwellFormed : ∀ r ∈ [set, .expire (text "k") 101, push], WellFormed r := by
    refine List.forall_mem_cons.mpr ⟨⟨rfl, by decide⟩, List.forall_mem_cons.mpr ⟨?_, ?_⟩⟩
    · exact ⟨by decide, by decide⟩
    · exact List.forall_mem_singleton.mpr ⟨rfl, by decide⟩
  have hfirst : ∀ key deadline, InFile firstLifetime.file (.expire key deadline) →
      deadline = 101 := by
    intro key deadline hmem
    have hfile : firstLifetime.file =
      [set, .expire (text "k") 101].flatMap LogRecord.encode := rfl
    rw [hfile, inFile_iff (fun r hr => hwellFormed r (List.mem_append_left [push] hr))] at hmem
    simp only [set, List.mem_cons, reduceCtorEq, LogRecord.expire.injEq, List.not_mem_nil, false_or,
      or_false] at hmem
    exact hmem.2
  have hsecond : ∀ key deadline, InFile secondLifetime.file (.expire key deadline) →
      deadline = 101 := by
    intro key deadline hmem
    have hfile : secondLifetime.file =
      [set, .expire (text "k") 101, push].flatMap LogRecord.encode := rfl
    rw [hfile, inFile_iff hwellFormed] at hmem
    simp only [set, push, List.mem_cons, reduceCtorEq, LogRecord.expire.injEq, List.not_mem_nil,
      false_or, or_false] at hmem
    exact hmem.2
  have hstart : History [] ⟨(0 : ℕ) * nanosPerSecond, 0, fresh, fun _ => none⟩ := .start _ 0
  have hhistory : History [] secondLifetime := by
    refine (((hstart.request _ ?_).request _ ?_).restart (atSecond 15 20 (by decide)) ?_ ?_).request
      _ ?_
    · decide
    · decide
    · decide
    · intro key deadline hmem
      rw [hfirst key deadline hmem]
      decide
    · decide
  obtain ⟨replayed, hreplay, hvalues, -⟩ := restart_equivalence hhistory
    (atSecond 25 30 (by decide)) (by decide)
    (fun key deadline hmem => by rw [hsecond key deadline hmem]; decide)
    (fun key deadline hmem => by rw [hsecond key deadline hmem]; decide)
  exact ⟨replayed, hreplay, hvalues⟩

theorem acrossSecond : (999999999 : ℤ) ≤ 1000000001 := by decide

/-- An `EXPIRE` that is executed across the end of a second: its deadline counts from before, and its
record from after. A push finds the key due in the second before the recorded one. -/
def splitExpire : Session :=
  let set := (executeCommand (.once 0 0) (asRequest [text "LPUSH", text "l", text "a"]) fresh).2
  let due := (executeCommand ⟨999999999, 1000000001, 1, acrossSecond⟩
    (asRequest [text "EXPIRE", text "l", text "10"]) set).2
  (executeCommand (.once 10999999999 10) (asRequest [text "LPUSH", text "l", text "b"]) due).2

/-- No recorded deadline is reached, and still the replay brings back what the push did not find. -/
theorem split_readings_not_restored :
    (∀ key deadline, InFile (splitExpire.log.getD []) (.expire key deadline) →
      10 < deadline ∧ deadline - 10 ≤ maxSeconds 10999999999) ∧
    splitExpire.store.values[text "l"]? = some (.list [text "b"]) ∧
    splitExpire.store.expirations[text "l"]? = none ∧
    ∃ replayed, replayLog [] (.contents (splitExpire.log.getD [])) (fun _ => .once 10999999999 10) {} =
        (none, replayed) ∧
      replayed.values[text "l"]? = some (.list [text "b", text "a"]) ∧
      replayed.expirations[text "l"]? = some 11999999999 := by
  let records : List LogRecord := [.command (text "LPUSH") [text "l", text "a"],
    .expire (text "l") 11, .command (text "LPUSH") [text "l", text "b"]]
  have hwellFormed : ∀ r ∈ records, WellFormed r := by
    refine List.forall_mem_cons.mpr ⟨⟨rfl, by decide⟩, List.forall_mem_cons.mpr ⟨?_, ?_⟩⟩
    · exact ⟨by decide, by decide⟩
    · exact List.forall_mem_singleton.mpr ⟨rfl, by decide⟩
  have hfile : splitExpire.log.getD [] = records.flatMap LogRecord.encode := rfl
  refine ⟨fun key deadline hmem => ?_, rfl, rfl, _, rfl, rfl, rfl⟩
  rw [hfile, inFile_iff hwellFormed] at hmem
  simp only [records, List.mem_cons, reduceCtorEq, LogRecord.expire.injEq, List.not_mem_nil, false_or,
    or_false] at hmem
  rw [hmem.2]
  decide

end RedisLite.Restart
