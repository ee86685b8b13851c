import RedisLite.RestartMirror

/-!
# Records whose deadline has passed at the restart

The replay turns an `EXPIRE` record whose deadline has passed into a removal at its place in the log,
while the live server kept the key for the requests that came after it. A later write into the key
brings it back at the restart, and a later `EXPIRE` comes too late for the value. Without such
requests, no expired key comes back and no visible one is lost.
-/

namespace RedisLite.Restart
open ByteStrings Resp Keyspace AppendLog Commands Operations RecordFiles LogReader Replay MachineRuns

variable {boot boot' : ℤ}

def fresh : Session := ⟨{}, some []⟩

theorem written_fresh : Written fresh [] := ⟨rfl, nofun, Store.sound_empty⟩

theorem cell_empty (key : Bytes) : Store.cell {} key = .missing := by
  simp [Store.cell, Cell.missing]

/-- A session with some records, and a relation that the replay of them keeps up. -/
def Tracked (now : Readings) (Rel : Cell → Cell → Prop) (s : Session) : Prop :=
  ∃ records, Written s records ∧ Follows now Rel s records

theorem tracked_fresh {now : Readings} {Rel : Cell → Cell → Prop} (h : Rel .missing .missing) :
    Tracked now Rel fresh := by
  refine ⟨[], written_fresh, fun key => ?_⟩
  have hloaded : loaded (fun _ => now) [] = {} := rfl
  rw [hloaded, fresh, cell_empty]
  exact h

/-- The file of a tracked session is accepted, and what is loaded is related to the store. -/
theorem Tracked.replay {now : Readings} {Rel : Cell → Cell → Prop} {s : Session}
    (h : Tracked now Rel s) (path : Bytes) :
    ∃ replayed, replayLog path (.contents (s.log.getD [])) (fun _ => now) {} = (none, replayed) ∧
      ∀ key, Rel (s.store.cell key) (replayed.cell key) := by
  obtain ⟨records, hwritten, hfollows⟩ := h
  refine ⟨loaded (fun _ => now) records, ?_, hfollows⟩
  rw [hwritten.log, Option.getD_some, replayLog_records path _ {} hwritten.wellFormed]

def Reached (boot : ℤ) (restart : Instant boot') (c : Cell) : Prop :=
  ∃ deadline, c.deadline = some deadline ∧ deadline + boot ≤ restart.time

theorem Reached.passed {restart : Instant boot'} {c : Cell} (h : Reached boot restart c) :
    Passed boot restart c := by
  obtain ⟨deadline, hdeadline, hle⟩ := h
  refine ⟨deadline, hdeadline, ?_⟩
  rw [restart.unix_eq]
  exact Int.ediv_le_ediv (by decide) hle

/-- Where the live deadline is reached at the restart, the replayed key is missing. -/
def Gone (boot : ℤ) (restart : Instant boot') (c replayed : Cell) : Prop :=
  Reached boot restart c → replayed = .missing

theorem gone_live {restart : Instant boot'} {c replayed : Cell} (h : Gone boot restart c replayed)
    (now : ℤ) : Gone boot restart (c.live now) replayed := by
  unfold Cell.live
  split
  · rintro ⟨deadline, hdeadline, -⟩
    cases hdeadline
  · exact h

theorem executeRecord_gone {restart : Instant boot'} {a : Arrival boot} {s : Session}
    (hs : s.store.Sound) (hwrite : ¬ WritesInto (Reached boot restart) a s) {key : Bytes} {op : Op}
    {r : LogRecord} {replayed : Store} (hoperation : a.operation = some (key, op))
    (hr : (a.decision key op s).record = some r)
    (hgone : Gone boot restart (a.finds s key) (replayed.cell key)) :
    ∃ c, executeRecord restart.readings r replayed = replayed.setCell key c ∧
      Gone boot restart ((a.decision key op s).change.apply (a.finds s key)) c := by
  have hc : (a.finds s key).Sound := (Store.sound_iff.mp hs key).live _
  cases decide_recorded a.instant.readings key op hc with
  | nothing hrecord _ =>
    rw [Arrival.decision, hrecord] at hr
    cases hr
  | deadline seconds hop hpos hvalue hchange hrecord =>
    rw [Arrival.decision, hrecord] at hr
    cases hr
    rw [Arrival.decision, hchange]
    by_cases hpast : a.instant.unix + seconds ≤ restart.unix
    · exact ⟨.missing, executeRecord_past hpast (inInt64_passed hpos hpast) replayed, fun _ => rfl⟩
    · obtain ⟨c, hexecute⟩ := executeRecord_expire restart.readings key
        (a.instant.unix + seconds) replayed
      refine ⟨c, hexecute, fun hreached => ?_⟩
      obtain ⟨deadline, hdeadline, hle⟩ := hreached.passed
      cases hdeadline
      exact absurd ((expirySecond_set a.instant seconds).symm.le.trans hle) hpast
  | command name args op' hrecord hargs hshape hstrings hchange hsame hmissing =>
    rw [Arrival.decision, hrecord] at hr
    cases hr
    refine ⟨_, executeRecord_command (hargs restart.readings) replayed rfl, fun hafter => ?_⟩
    -- only a change that keeps the deadline leaves one that is reached
    have hreached : Reached boot restart (a.finds s key) ∧
        (a.decision key op s).change.onMissing = .missing := by
      obtain ⟨deadline, hdeadline, hle⟩ := hafter
      rw [Arrival.decision] at hdeadline ⊢
      cases hkind : (op.decide a.instant.readings key (a.finds s key)).change with
      | keep => rw [hkind] at hdeadline; exact ⟨⟨deadline, hdeadline, hle⟩, rfl⟩
      | put v => rw [hkind] at hdeadline; exact ⟨⟨deadline, hdeadline, hle⟩, rfl⟩
      | replace v => rw [hkind] at hdeadline; cases hdeadline
      | remove => rw [hkind] at hdeadline; cases hdeadline
      | expireAt deadline => exact absurd hkind (hchange deadline)
    obtain ⟨deadline, hdeadline, -⟩ := hreached.1
    have hrecorded : (a.decision key op s).record ≠ none := by
      rw [Arrival.decision, hrecord]
      exact Option.some_ne_none _
    have hcreates := creates_of_deadline hs hoperation hrecorded hdeadline hreached.1 hwrite
    rw [hgone hreached.1, Cell.live_missing, hmissing hcreates]
    exact hreached.2

/-- Over a lifetime in which no request writes into a key whose deadline is reached at the restart,
every key whose deadline is reached at the restart is missing in the replayed store. -/
theorem no_resurrection (arrivals : List (Arrival boot)) (restart : Instant boot') (path : Bytes)
    (hsteps : Along (fun a s => ¬ WritesInto (Reached boot restart) a s) serve arrivals fresh) :
    ∃ replayed, replayLog path (.contents ((final serve arrivals fresh).log.getD []))
        (fun _ => restart.readings) {} = (none, replayed) ∧
      ∀ key deadline, (final serve arrivals fresh).store.expirations[key]? = some deadline →
        deadline + boot ≤ restart.time →
        key ∉ replayed.values ∧ key ∉ replayed.expirations := by
  have htracked : Tracked restart.readings (Gone boot restart) (final serve arrivals fresh) := by
    refine final_along (fun a _ s hok htracked => ?_) (tracked_fresh (fun _ => rfl)) hsteps
    obtain ⟨records, hwritten, hfollows⟩ := htracked
    exact ⟨_, hwritten.serve a, hfollows.serve a (fun c r h => gone_live h _) hwritten.sound
      (fun key op r replayed hoperation hr hgone =>
        executeRecord_gone hwritten.sound hok hoperation hr hgone)⟩
  obtain ⟨replayed, hreplay, hgone⟩ := htracked.replay path
  refine ⟨replayed, hreplay, fun key deadline hdeadline hreached => ?_⟩
  have hmissing := hgone key ⟨deadline, hdeadline, hreached⟩
  have hvalue := congrArg Cell.value hmissing
  have hexpiration := congrArg Cell.deadline hmissing
  simp only [Store.cell, Cell.missing] at hvalue hexpiration
  rw [Std.ExtTreeMap.mem_iff_isSome_getElem?, Std.ExtTreeMap.mem_iff_isSome_getElem?, hvalue,
    hexpiration]
  exact ⟨by simp, by simp⟩

theorem firstSecond : 0 ≤ 0 ∧ 0 ≤ 1000 := by decide

theorem nextSecond : 0 ≤ 1 ∧ 1 ≤ 1000 := by decide

theorem setKey_fits : ∀ w ∈ [text "SET", text "k", text "v"], FitsMemory w := by decide

theorem expireKey_fits : ∀ w ∈ [text "EXPIRE", text "k", text "100"], FitsMemory w := by decide

/-- The list is written before its deadline is set, and popped afterwards. -/
def poppedAfterExpire : List (Arrival ((0 : ℕ) * nanosPerSecond)) :=
  [arrive (atSecond 0 0 firstSecond) [text "LPUSH", text "k", text "a"] (by decide),
    arrive (atSecond 0 0 firstSecond) [text "LPUSH", text "k", text "b"] (by decide),
    arrive (atSecond 0 0 firstSecond) [text "EXPIRE", text "k", text "10"] (by decide),
    arrive (atSecond 0 1 nextSecond) [text "LPOP", text "k"] (by decide)]

theorem popped_key_gone : ∃ replayed, replayLog [] (.contents
      ((final serve poppedAfterExpire fresh).log.getD []))
        (fun _ => (atSecond 15 20 (by decide)).readings) {} = (none, replayed) ∧
      text "k" ∉ replayed.values := by
  have hsteps : Along (fun a s => ¬ WritesInto (Reached ((0 : ℕ) * nanosPerSecond)
      (atSecond 15 20 (by decide))) a s) serve poppedAfterExpire fresh := by
    refine ⟨?_, ?_, ?_, ?_, trivial⟩
    · rintro ⟨key, op, v, hoperation, hvalue, -⟩
      cases hoperation
      cases hvalue
    · rintro ⟨key, op, v, hoperation, -, -, deadline, hdeadline, -⟩
      cases hoperation
      cases hdeadline
    · rintro ⟨key, op, v, hoperation, -, hwrite, -⟩
      cases hoperation
      cases v <;> cases hwrite
    · rintro ⟨key, op, v, hoperation, -, hwrite, -⟩
      cases hoperation
      cases v <;> cases hwrite
  obtain ⟨replayed, hreplay, hgone⟩ := no_resurrection poppedAfterExpire
    (atSecond 15 20 (by decide)) [] hsteps
  exact ⟨replayed, hreplay, (hgone (text "k") 10000000000 rfl (by decide)).1⟩

def pushedAfterExpire : List (Arrival ((0 : ℕ) * nanosPerSecond)) :=
  [arrive (atSecond 0 0 firstSecond) [text "LPUSH", text "k", text "a"] (by decide),
    arrive (atSecond 0 0 firstSecond) [text "EXPIRE", text "k", text "10"] (by decide),
    arrive (atSecond 0 1 nextSecond) [text "LPUSH", text "k", text "b"] (by decide)]

/-- The deadline of the key is reached ten seconds before the restart, and the replay brings the key
back with what was pushed last. -/
theorem pushed_key_resurrected :
    (final serve pushedAfterExpire fresh).store.expirations[text "k"]? = some 10000000000 ∧
      10000000000 + (0 : ℕ) * nanosPerSecond ≤ (atSecond 15 20 (by decide)).time ∧
      (replayLog [] (.contents ((final serve pushedAfterExpire fresh).log.getD []))
        (fun _ => (atSecond 15 20 (by decide)).readings) {}).2.values[text "k"]? =
          some (.list [text "b"]) :=
  ⟨rfl, by decide, rfl⟩

/-- A request that the replay at the restart cannot follow. -/
def Unfollowed (restart : Instant boot') (a : Arrival boot) (s : Session) : Prop :=
  WritesInto (Passed boot restart) a s ∨ ExtendsPassed restart a s ∨ OutlastsClock restart a s

/-- Over a lifetime of requests that the replay can follow, the replayed store is the mirror of the
live one. -/
theorem tracked_mirror {arrivals : List (Arrival boot)} {restart : Instant boot'}
    (hlater : ∀ a ∈ arrivals, a.time ≤ restart.time)
    (hsteps : Along (fun a s => ¬ Unfollowed restart a s) serve arrivals fresh) :
    Tracked restart.readings (fun c r => r = mirror boot restart c)
      (final serve arrivals fresh) := by
  refine final_along (fun a ha s hok htracked => ?_) (tracked_fresh rfl) hsteps
  obtain ⟨records, hwritten, hfollows⟩ := htracked
  obtain ⟨hwrite, hrest⟩ := not_or.mp hok
  obtain ⟨hextend, hclock⟩ := not_or.mp hrest
  refine ⟨_, hwritten.serve a, hfollows.serve a (fun c r h => ?_) hwritten.sound
    (fun key op r replayed hoperation hr hcell => ?_)⟩
  · rw [h, mirror_live (Instant.unix_mono (hlater a ha))]
  · exact ⟨_, executeRecord_mirror hwritten.sound hwrite hextend hclock hoperation hr hcell, rfl⟩

/-- Over a lifetime of requests that the replay can follow, every key that is visible at the restart,
with a deadline in a later second or none, is replayed with its value, and with a deadline if it had
one. -/
theorem no_visible_key_lost (arrivals : List (Arrival boot)) (restart : Instant boot') (path : Bytes)
    (hlater : ∀ a ∈ arrivals, a.time ≤ restart.time)
    (hsteps : Along (fun a s => ¬ Unfollowed restart a s) serve arrivals fresh) :
    ∃ replayed, replayLog path (.contents ((final serve arrivals fresh).log.getD []))
        (fun _ => restart.readings) {} = (none, replayed) ∧
      ∀ key v, (final serve arrivals fresh).store.values[key]? = some v →
        (∀ deadline, (final serve arrivals fresh).store.expirations[key]? = some deadline →
          restart.time < deadline + boot ∧ expirySecond boot deadline ≠ restart.unix) →
        replayed.values[key]? = some v ∧
          (key ∈ replayed.expirations ↔ key ∈ (final serve arrivals fresh).store.expirations) := by
  obtain ⟨replayed, hreplay, hmirror⟩ := (tracked_mirror hlater hsteps).replay path
  refine ⟨replayed, hreplay, fun key v hv hvisible => ?_⟩
  have hcell := hmirror key
  have hnot : ¬ Passed boot restart ((final serve arrivals fresh).store.cell key) := by
    rintro ⟨deadline, hdeadline, hle⟩
    obtain ⟨hlt, hne⟩ := hvisible deadline hdeadline
    have hsecond : restart.unix ≤ expirySecond boot deadline := by
      rw [restart.unix_eq]
      exact Int.ediv_le_ediv (by decide) hlt.le
    omega
  have hvalue := (congrArg Cell.value hcell).trans (mirror_value hnot)
  have hdeadline := (congrArg Cell.deadline hcell).trans (mirror_deadline hnot)
  simp only [Store.cell] at hvalue hdeadline
  refine ⟨hvalue.trans hv, ?_⟩
  rw [Std.ExtTreeMap.mem_iff_isSome_getElem?, Std.ExtTreeMap.mem_iff_isSome_getElem?, hdeadline,
    Option.isSome_map]

def expiringLater : List (Arrival ((0 : ℕ) * nanosPerSecond)) :=
  [arrive (atSecond 0 0 firstSecond) [text "SET", text "k", text "v"] setKey_fits,
    arrive (atSecond 0 0 firstSecond) [text "EXPIRE", text "k", text "100"] expireKey_fits]

theorem expiring_key_kept : ∃ replayed, replayLog [] (.contents
      ((final serve expiringLater fresh).log.getD []))
        (fun _ => (atSecond 15 20 (by decide)).readings) {} = (none, replayed) ∧
      replayed.values[text "k"]? = some (.string (text "v")) := by
  have hlater : ∀ a ∈ expiringLater, a.time ≤ (atSecond 15 20 (by decide)).time := by
    intro a ha
    rcases List.mem_cons.mp ha with rfl | ha
    · decide
    · rw [List.mem_singleton.mp ha]
      decide
  have hsteps : Along (fun a s => ¬ Unfollowed (atSecond 15 20 (by decide)) a s) serve
      expiringLater fresh := by
    refine ⟨?_, ?_, trivial⟩
    · rintro (⟨key, op, v, hoperation, hvalue, -⟩ | ⟨key, seconds, hoperation, -⟩ |
        ⟨key, seconds, hoperation, -⟩)
      · cases hoperation
        cases hvalue
      · cases hoperation
      · cases hoperation
    · rintro (⟨key, op, v, hoperation, -, hwrite, -⟩ |
        ⟨key, seconds, hoperation, ⟨deadline, hdeadline, -⟩, -⟩ |
        ⟨key, seconds, hoperation, -, hmax⟩)
      · cases hoperation
        cases v <;> cases hwrite
      · cases hoperation
        cases hdeadline
      · cases hoperation
        exact absurd hmax (by decide)
  obtain ⟨replayed, hreplay, hkept⟩ := no_visible_key_lost expiringLater
    (atSecond 15 20 (by decide)) [] hlater hsteps
  refine ⟨replayed, hreplay, (hkept (text "k") _ rfl (fun deadline hdeadline => ?_)).1⟩
  cases hdeadline
  decide

/-- The first of two deadlines has passed at the restart, the second has not. -/
def expiringTwice : List (Arrival ((0 : ℕ) * nanosPerSecond)) :=
  [arrive (atSecond 0 0 firstSecond) [text "SET", text "k", text "v"] setKey_fits,
    arrive (atSecond 0 0 firstSecond) [text "EXPIRE", text "k", text "10"] (by decide),
    arrive (atSecond 0 1 nextSecond) [text "EXPIRE", text "k", text "100"] expireKey_fits]

/-- The key is visible for another 81 seconds, and the replay loses it. -/
theorem superseded_deadline_loses_key :
    (final serve expiringTwice fresh).store.values[text "k"]? = some (.string (text "v")) ∧
      (final serve expiringTwice fresh).store.expirations[text "k"]? = some 101000000000 ∧
      (atSecond 15 20 (by decide)).time < 101000000000 + (0 : ℕ) * nanosPerSecond ∧
      (replayLog [] (.contents ((final serve expiringTwice fresh).log.getD []))
        (fun _ => (atSecond 15 20 (by decide)).readings) {}).2.values[text "k"]? = none :=
  ⟨rfl, rfl, by decide, rfl⟩

end RedisLite.Restart
