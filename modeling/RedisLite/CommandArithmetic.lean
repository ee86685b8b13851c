import RedisLite.CheckedArithmetic
import RedisLite.ClientIsolation
import RedisLite.RestartTimeline
import RedisLite.ValueWrites

/-!
# The arithmetic of the commands

`EXPIRE`, `TTL` and `LRANGE` compute with signed 64-bit numbers, some of them chosen by the client.
Written with every number checked they are the commands that compute with unlimited numbers, in every
store that a server reaches: no number leaves the range and no index lies outside its list.
-/

namespace RedisLite.CommandArithmetic
open ByteStrings Resp Keyspace AppendLog Commands Operations Replay MachineRuns CheckedArithmetic

def int64 (n : ℤ) : Option ℤ := checked InInt64 n

/-- `duration_cast<seconds>` of a duration in nanoseconds. -/
def toSecondsChecked (nanos : ℤ) : Option ℤ := int64 (toSeconds nanos)

/-- `ceil<seconds>`: the truncated duration is compared in nanoseconds. -/
def ceilSecondsChecked (nanos : ℤ) : Option ℤ := do
  let t ← toSecondsChecked nanos
  let truncated ← int64 (t * nanosPerSecond)
  if truncated < nanos then int64 (t + 1) else some t

/-- The deadline is computed when there is a log. -/
def logExpireChecked (log : Log) (unixNow : ℤ) (key : Bytes) (secondsFromNow : ℤ) : Option Log :=
  match log with
  | none => some none
  | some contents => do
    let deadline ← int64 (unixNow + secondsFromNow)
    some (some (writeField (contents ++ text "EXPIRE ") key ++ text " " ++ intDecimal deadline ++
      text "\n"))

def expireChecked (now : Readings) (args : List Bytes) (s : Session) : Option Outcome :=
  match args with
  | [key, amount] =>
    match toInteger amount with
    | none => some (notAnInteger, s)
    | some seconds => do
      let margin ← int64 (maxTimePoint - now.first)
      let maxSeconds ← toSecondsChecked margin
      if maxSeconds < seconds then some (notAnInteger, s)
      else
        let store := expireIfDue now.second s.store key
        if ¬ store.values.contains key then some (makeInteger 0, { s with store := store })
        else if seconds ≤ 0 then
          some (makeInteger 1, ⟨removeKey store key, logCommand s.log CommandName.del.upper [key]⟩)
        else do
          let duration ← int64 (seconds * nanosPerSecond)
          let deadline ← int64 (now.first + duration)
          let log ← logExpireChecked s.log now.unix key seconds
          some (makeInteger 1,
            ⟨{ store with expirations := store.expirations.insert key deadline }, log⟩)
  | _ => some (wrongArity "expire", s)

def ttlChecked (now : Readings) (args : List Bytes) (s : Session) : Option Outcome :=
  match args with
  | [key] =>
    let store := expireIfDue now.first s.store key
    let s := { s with store := store }
    if ¬ store.values.contains key then some (makeInteger (-2), s)
    else
      match store.expirations[key]? with
      | none => some (makeInteger (-1), s)
      | some deadline => do
        let remaining ← int64 (deadline - now.second)
        let seconds ← ceilSecondsChecked remaining
        some (makeInteger seconds, s)
  | _ => some (wrongArity "ttl", s)

def absoluteIndexChecked (index size : ℤ) : Option ℤ :=
  if index < 0 then int64 (index + size) else some index

def lrangeFoundChecked (start stop : ℤ) (list : ListValue) (s : Session) : Option Outcome := do
  let size ← int64 list.length
  let start ← absoluteIndexChecked start size
  let last ← int64 (size - 1)
  let stop ← absoluteIndexChecked stop size
  let elements ← forLoop InInt64 (fun i => (elementAt list i).map makeBulkString) (max 0 start)
    (min last stop)
  some (makeArray elements, s)

def lrangeChecked (now : Readings) (args : List Bytes) (s : Session) : Option Outcome :=
  match args with
  | [key, first, last] =>
    match toInteger first, toInteger last with
    | some start, some stop =>
      match readTyped Value.list? now.first s.store key with
      | (.mismatch, store) => some (wrongType, { s with store := store })
      | (.missing, store) => some (makeArray [], { s with store := store })
      | (.found list, store) => lrangeFoundChecked start stop list { s with store := store }
    | _, _ => some (notAnInteger, s)
  | _ => some (wrongArity "lrange", s)

def runCommandChecked (name : CommandName) (now : Readings) (args : List Bytes) (s : Session) :
    Option Outcome :=
  match name with
  | .expire => expireChecked now args s
  | .ttl => ttlChecked now args s
  | .lrange => lrangeChecked now args s
  | name => some (runCommand name now args s)

/-- A request, executed with every number of `EXPIRE`, `TTL` and `LRANGE` checked. -/
def executeCommandChecked (now : Readings) (request : RespValue) (s : Session) : Option Outcome :=
  match requestWords request with
  | none | some [] => some (notARequest, s)
  | some (name :: args) =>
    match commandNamed (toUpper name) with
    | none => some (unknownCommand name, s)
    | some command => runCommandChecked command now args s

/-- What the clocks show: signed 64-bit nanoseconds that are not negative, and Unix seconds with room
to spare. -/
def Clocked (now : Readings) : Prop :=
  0 ≤ now.first ∧ now.second ≤ maxTimePoint ∧ 0 ≤ now.unix ∧ now.unix ≤ 4611686018427387904

instance (now : Readings) : Decidable (Clocked now) := inferInstanceAs (Decidable (_ ∧ _))

/-- Every deadline is a time that the clock can show. -/
def OnClock (store : Store) : Prop :=
  ∀ key, ∀ deadline ∈ (store.cell key).deadline, 0 ≤ deadline ∧ deadline ≤ maxTimePoint

theorem onClock_empty : OnClock {} := by
  intro key deadline hdeadline
  simp [Store.cell] at hdeadline

theorem toSeconds_mul_le {nanos seconds : ℤ} (hnanos : 0 ≤ nanos) (h : seconds ≤ toSeconds nanos) :
    seconds * nanosPerSecond ≤ nanos := by
  rw [toSeconds, Int.tdiv_eq_ediv_of_nonneg hnanos] at h
  unfold nanosPerSecond at h ⊢
  omega

theorem expireAt_onClock {now : Readings} (hnow : Clocked now) {seconds : ℤ}
    (hmax : seconds ≤ maxSeconds now.first) :
    seconds * nanosPerSecond ≤ maxTimePoint - now.first := by
  have := now.ordered
  exact toSeconds_mul_le (by have := hnow.2.1; omega) hmax

/-- How far the clock can still go is a number of the range, in nanoseconds and in seconds. -/
theorem Clocked.margin {now : Readings} (hnow : Clocked now) :
    InInt64 (maxTimePoint - now.first) ∧ InInt64 (maxSeconds now.first) := by
  obtain ⟨hstart, hend, -, -⟩ := hnow
  have hordered := now.ordered
  have hlimit := Restart.maxSeconds_le hstart
  have hnonneg : 0 ≤ maxSeconds now.first := Int.tdiv_nonneg (by omega) (by decide)
  unfold maxTimePoint InInt64 minInt64 maxInt64 at *
  omega

/-- A time to live that is not too long gives a duration, a deadline and a recorded deadline of the
range. -/
theorem Clocked.expiry {now : Readings} (hnow : Clocked now) {seconds : ℤ} (hpos : 0 < seconds)
    (hmax : seconds ≤ maxSeconds now.first) : InInt64 (seconds * nanosPerSecond) ∧
      InInt64 (now.first + seconds * nanosPerSecond) ∧ InInt64 (now.unix + seconds) := by
  have hle := expireAt_onClock hnow hmax
  have hlimit := hmax.trans (Restart.maxSeconds_le hnow.1)
  obtain ⟨hstart, hend, hunix, hunix'⟩ := hnow
  unfold maxTimePoint nanosPerSecond InInt64 minInt64 maxInt64 at *
  omega

theorem asks_expire {now : Readings} {request : RespValue} {key : Bytes} {seconds : ℤ}
    (h : asks now request key = some (.expire seconds)) : seconds ≤ maxSeconds now.first := by
  have hspec := interpret_spec now request
  rw [asks_eq_some_iff.mp h] at hspec
  obtain ⟨command, args, -, hargs, -⟩ := hspec
  exact Restart.interpretArgs_expire hargs

/-- What holds of the deadlines of a store and of those that an `EXPIRE` can set holds after a command. -/
theorem deadlines_execute {P : ℤ → Prop} {now : Readings} (request : RespValue) {s : Session}
    (hsound : s.store.Sound)
    (hnew : ∀ seconds, 0 < seconds → seconds ≤ maxSeconds now.first →
      P (now.first + seconds * nanosPerSecond))
    (h : ∀ key, ∀ deadline ∈ (s.store.cell key).deadline, P deadline) :
    ∀ key, ∀ deadline ∈ ((executeCommand now request s).2.store.cell key).deadline, P deadline := by
  intro key deadline hdeadline
  cases hasks : asks now request key with
  | none =>
    rw [cell_of_asks_none hasks] at hdeadline
    exact h key deadline hdeadline
  | some op =>
    have hcell := (Store.sound_iff.mp hsound key).live (op.checkedAt now)
    rw [executeCommand_asks hasks, commit, Store.cell_setCell_self] at hdeadline
    rcases decide_deadline now key op hcell.deadline_none hdeadline with hold | ⟨seconds, rfl, hpos, rfl⟩
    · exact h key deadline (Cell.deadline_of_live hold)
    · exact hnew seconds hpos (asks_expire hasks)

theorem onClock_execute {call : Call} (hnow : Clocked call.now) {s : Session}
    (hsound : s.store.Sound) (h : OnClock s.store) : OnClock (call.execute s).2.store := by
  refine deadlines_execute call.request hsound (fun seconds hpos hmax => ?_) h
  have hle := expireAt_onClock hnow hmax
  have hstart := hnow.1
  unfold nanosPerSecond at hle ⊢
  omega

theorem onClock_run {calls : List Call} (hclock : ∀ call ∈ calls, Clocked call.now) (log : Log) :
    OnClock (final Call.execute calls ⟨{}, log⟩).store := by
  have hstep : ∀ call ∈ calls, ∀ s : Session, Clocked call.now → s.store.Sound ∧ OnClock s.store →
      (call.execute s).2.store.Sound ∧ OnClock (call.execute s).2.store :=
    fun call _ s hcall h =>
      ⟨executeCommand_sound call.now call.request h.1, onClock_execute hcall h.1 h.2⟩
  exact (final_along hstep ⟨Store.sound_empty, onClock_empty⟩ (along_of_forall hclock _)).2

section Checked
variable {now : Readings} {args : List Bytes} {s : Session}

theorem ceilSecondsChecked_eq {nanos : ℤ} (h : InInt64 nanos) :
    ceilSecondsChecked nanos = some (ceilSeconds nanos) := by
  have habs : (nanos.tdiv nanosPerSecond).natAbs = nanos.natAbs / 1000000000 := Int.natAbs_tdiv _ _
  have hrange : InInt64 (toSeconds nanos) ∧ InInt64 (toSeconds nanos * nanosPerSecond) ∧
      InInt64 (toSeconds nanos + 1) := by
    simp only [InInt64, minInt64, maxInt64, toSeconds] at h ⊢
    unfold nanosPerSecond at habs ⊢
    omega
  obtain ⟨ht, hmul, hsucc⟩ := hrange
  simp only [ceilSecondsChecked, toSecondsChecked, int64, checked_of ht, checked_of hmul,
    checked_of hsucc, Option.bind_eq_bind, Option.bind_some, ceilSeconds]
  split <;> rfl

theorem logExpireChecked_eq {log : Log} {unixNow : ℤ} {key : Bytes} {seconds : ℤ}
    (h : InInt64 (unixNow + seconds)) :
    logExpireChecked log unixNow key seconds = some (logExpire log unixNow key seconds) := by
  cases log with
  | none => rfl
  | some contents =>
    simp only [logExpireChecked, int64, checked_of h, Option.bind_eq_bind, Option.bind_some, logExpire]

theorem expireChecked_eq (hnow : Clocked now) : expireChecked now args s = some (expire now args s) := by
  match args with
  | [] => rfl
  | [_] => rfl
  | _ :: _ :: _ :: _ => rfl
  | [key, amount] =>
    simp only [expireChecked, expire]
    cases toInteger amount with
    | none => rfl
    | some seconds =>
      obtain ⟨hmargin, hlimit⟩ := hnow.margin
      have hmaxSeconds : toSecondsChecked (maxTimePoint - now.first) = some (maxSeconds now.first) :=
        checked_of hlimit
      simp only [int64, checked_of hmargin, hmaxSeconds, Option.bind_eq_bind, Option.bind_some]
      split
      · rfl
      · rename_i hmax
        split
        · rfl
        · split
          · rfl
          · rename_i hpos
            obtain ⟨hduration, hdeadline, hlogged⟩ := hnow.expiry (not_le.mp hpos) (not_lt.mp hmax)
            simp only [checked_of hduration, checked_of hdeadline, logExpireChecked_eq hlogged,
              Option.bind_some]

theorem ttlChecked_eq (hnow : Clocked now) (hclock : OnClock s.store) :
    ttlChecked now args s = some (ttl now args s) := by
  match args with
  | [] => rfl
  | _ :: _ :: _ => rfl
  | [key] =>
    simp only [ttlChecked, ttl]
    split
    · rfl
    · cases hdeadline : (expireIfDue now.first s.store key).expirations[key]? with
      | none => rfl
      | some deadline =>
        have hrange : 0 ≤ deadline ∧ deadline ≤ maxTimePoint := by
          rw [expirations_cell, expireIfDue_eq, Store.cell_setCell_self] at hdeadline
          exact hclock key deadline (Cell.deadline_of_live hdeadline)
        have hremaining : InInt64 (deadline - now.second) := by
          obtain ⟨hstart, hend, -, -⟩ := hnow
          have hordered := now.ordered
          unfold maxTimePoint InInt64 minInt64 maxInt64 at *
          omega
        simp only [int64, checked_of hremaining, ceilSecondsChecked_eq hremaining,
          Option.bind_eq_bind, Option.bind_some]

theorem absoluteIndexChecked_eq {index : ℤ} (h : InInt64 index) (list : ListValue)
    (hlist : (list.length : ℤ) ≤ maxInt64) :
    absoluteIndexChecked index list.length = some (absoluteIndex index list.length) := by
  unfold absoluteIndexChecked absoluteIndex
  split
  · refine checked_of ?_
    unfold InInt64 minInt64 maxInt64 at *
    omega
  · rfl

/-- The bounds are clamped to the list before the loop begins, so that every index lies in it and the
counter ends at most one beyond the last. -/
theorem lrangeFoundChecked_eq {start stop : ℤ} (hstart : InInt64 start) (hstop : InInt64 stop)
    {list : ListValue} (hlist : (list.length : ℤ) ≤ maxInt64) :
    lrangeFoundChecked start stop list s =
      some (makeArray (lrangeLoop list (max 0 (absoluteIndex start list.length))
        (min (list.length - 1) (absoluteIndex stop list.length))), s) := by
  have hsize : InInt64 (list.length : ℤ) := by
    unfold InInt64 minInt64 at *
    omega
  have hlast : InInt64 ((list.length : ℤ) - 1) := by
    unfold InInt64 minInt64 maxInt64 at *
    omega
  have hloop := @forLoop_eq InInt64 _ _ (fun i => (elementAt list i).map makeBulkString)
    (fun i => makeBulkString (list.getD i.toNat [])) (max 0 (absoluteIndex start list.length))
    (min (list.length - 1) (absoluteIndex stop list.length)) (fun i hi hi' => ?_)
    (fun i hi hi' => ?_)
  · simp only [lrangeFoundChecked, int64, checked_of hsize, checked_of hlast,
      absoluteIndexChecked_eq hstart list hlist, absoluteIndexChecked_eq hstop list hlist,
      Option.bind_eq_bind, Option.bind_some, hloop, lrangeLoop]
  · rw [elementAt_eq_some (by omega) (by omega) [], Option.map_some]
  · unfold InInt64 minInt64 maxInt64 at *
    omega

/-- No list is longer than a signed 64-bit number can say. -/
def ListsFit (store : Store) : Prop :=
  ∀ (key : Bytes) (l : ListValue), store.values[key]? = some (.list l) → (l.length : ℤ) ≤ maxInt64

theorem readTyped_list {store store' : Store} {key : Bytes} {l : ListValue} {now : ℤ}
    (h : readTyped Value.list? now store key = (.found l, store')) (hlists : ListsFit store) :
    (l.length : ℤ) ≤ maxInt64 := by
  unfold readTyped at h
  simp only [expireIfDue_eq, values_cell, Store.cell_setCell_self] at h
  cases hvalue : ((store.cell key).live now).value with
  | none => simp [hvalue] at h
  | some v =>
    cases v with
    | list l' =>
      simp only [hvalue, Value.list?, Prod.mk.injEq, Typed.found.injEq] at h
      obtain ⟨rfl, -⟩ := h
      exact hlists key l' (Cell.live_value_iff.mp hvalue).1
    | string _ => simp [hvalue, Value.list?] at h
    | hash _ => simp [hvalue, Value.list?] at h
    | set _ => simp [hvalue, Value.list?] at h

theorem lrangeChecked_eq (hlists : ListsFit s.store) :
    lrangeChecked now args s = some (lrange now args s) := by
  match args with
  | [] => rfl
  | [_] => rfl
  | [_, _] => rfl
  | _ :: _ :: _ :: _ :: _ => rfl
  | [key, first, last] =>
    simp only [lrangeChecked, lrange]
    cases hstart : toInteger first with
    | none => rfl
    | some start =>
      cases hstop : toInteger last with
      | none => rfl
      | some stop =>
        simp only [withTyped]
        rcases hread : readTyped Value.list? now.first s.store key with ⟨found, store⟩
        cases found with
        | missing => rfl
        | mismatch => rfl
        | found list =>
          exact lrangeFoundChecked_eq (toInteger_eq_some_iff.mp hstart).2
            (toInteger_eq_some_iff.mp hstop).2 (readTyped_list hread hlists)

theorem executeCommandChecked_eq (hnow : Clocked now) (request : RespValue)
    (hclock : OnClock s.store) (hlists : ListsFit s.store) :
    executeCommandChecked now request s = some (executeCommand now request s) := by
  unfold executeCommandChecked executeCommand
  cases requestWords request with
  | none => rfl
  | some words =>
    cases words with
    | nil => rfl
    | cons name args =>
      cases hname : commandNamed (toUpper name) with
      | none => simp only [hname]
      | some command =>
        simp only [hname]
        cases command with
        | expire => exact expireChecked_eq hnow
        | ttl => exact ttlChecked_eq hnow hclock
        | lrange => exact lrangeChecked_eq hlists
        | _ => rfl

end Checked

/-- In every run, the next request computes with numbers of the range only. -/
theorem arithmetic_in_range {calls : List Call} (hclock : ∀ call ∈ calls, Clocked call.now)
    (log : Log) {now : Readings} (hnow : Clocked now) (request : RespValue)
    (hlists : ListsFit (final Call.execute calls ⟨{}, log⟩).store) :
    executeCommandChecked now request (final Call.execute calls ⟨{}, log⟩) =
      some (executeCommand now request (final Call.execute calls ⟨{}, log⟩)) :=
  executeCommandChecked_eq hnow request (onClock_run hclock log) hlists

/-- The longest time to live that the clock takes when it shows one second. -/
def longestExpiry : List Call :=
  [⟨.once 1000000000 0, asRequest [text "SET", text "k", text "v"]⟩,
    ⟨.once 1000000000 0, asRequest [text "EXPIRE", text "k", text "9223372035"]⟩]

theorem longestExpiry_store : (final Call.execute longestExpiry ⟨{}, none⟩).store =
    Store.setCell {} (text "k") ⟨some (.string (text "v")), some 9223372036000000000⟩ := by
  have hset : asRequest [text "SET", text "k", text "v"] =
      asRequest [CommandName.set.upper, text "k", text "v"] := rfl
  have hexpire : asRequest [text "EXPIRE", text "k", text "9223372035"] =
      asRequest [CommandName.expire.upper, text "k", text "9223372035"] := rfl
  have hamount : interpretArgs (.once 1000000000 0) .expire [text "k", text "9223372035"] =
      .ok (.on (text "k") (.expire 9223372035)) := by
    have hnumber : toInteger (text "9223372035") = some 9223372035 := by decide +kernel
    have hmax : ¬ maxSeconds (Readings.once 1000000000 0).first < 9223372035 := by decide
    simp only [interpretArgs, hnumber, hmax, if_false]
  simp only [longestExpiry, final_cons, final_nil, Call.execute, hset, hexpire,
    executeCommand_words, hamount]
  simp [interpretArgs, answer, perform, commit, Op.decide, Change.apply, Cell.live, Cell.due,
    nanosPerSecond, Readings.once]

theorem longestExpiry_in_range :
    executeCommandChecked (.once 1000000001 0) (asRequest [text "TTL", text "k"])
        (final Call.execute longestExpiry ⟨{}, none⟩) =
      some (executeCommand (.once 1000000001 0) (asRequest [text "TTL", text "k"])
        (final Call.execute longestExpiry ⟨{}, none⟩)) := by
  refine arithmetic_in_range (by decide) none (by decide) _ (fun key l hl => ?_)
  rw [longestExpiry_store, values_cell, Store.cell_setCell] at hl
  split at hl
  · cases hl
  · simp [Store.cell] at hl

end RedisLite.CommandArithmetic
