import RedisLite.LazyExpiration
import RedisLite.RecordEffects
import RedisLite.RestartTimeline
import RedisLite.ValueWrites

/-!
# Deadlines over a run

A key that got a deadline is there until it is reached, with the value that the writes to it leave,
and is missing from then on. `TTL` tells the seconds that are left; it reads the clock a second time
for that, and the deadline may be reached between the two readings.
-/

namespace RedisLite.Deadlines
open ByteStrings Resp Keyspace AppendLog Commands Operations Replay MachineRuns LazyExpiration

theorem makeInteger_inj {n m : ℤ} (h : makeInteger n = makeInteger m) : n = m :=
  congrArg RespValue.integer h

def ttlRequest (key : Bytes) : RespValue := asRequest [CommandName.ttl.upper, key]

def RoundsUp (nanos n : ℤ) : Prop :=
  (n - 1) * nanosPerSecond < nanos ∧ nanos ≤ n * nanosPerSecond

theorem roundsUp_ceilSeconds {nanos : ℤ} (h : 0 ≤ nanos) : RoundsUp nanos (ceilSeconds nanos) := by
  have ht : toSeconds nanos = nanos / nanosPerSecond := Int.tdiv_eq_ediv_of_nonneg h
  simp only [RoundsUp, ceilSeconds, ht, nanosPerSecond]
  split <;> omega

theorem ceilSeconds_pos_iff {nanos : ℤ} : 0 < ceilSeconds nanos ↔ 0 < nanos := by
  by_cases h : 0 ≤ nanos
  · have hround := roundsUp_ceilSeconds h
    unfold RoundsUp nanosPerSecond at hround
    omega
  · have habs : (nanos.tdiv nanosPerSecond).natAbs = nanos.natAbs / 1000000000 :=
      Int.natAbs_tdiv _ _
    have hle : nanos.tdiv nanosPerSecond ≤ 0 := by
      have := Int.tdiv_le_tdiv (show 0 < nanosPerSecond by decide) (le_of_not_ge h)
      rwa [Int.zero_tdiv] at this
    have htruncated : ¬ nanos.tdiv nanosPerSecond * nanosPerSecond < nanos := by
      unfold nanosPerSecond at habs hle ⊢
      omega
    simp only [ceilSeconds, toSeconds, htruncated, if_false]
    omega

theorem RoundsUp.antitone {nanos nanos' n n' : ℤ} (h : RoundsUp nanos n) (h' : RoundsUp nanos' n')
    (hle : nanos' ≤ nanos) : n' ≤ n := by
  unfold RoundsUp nanosPerSecond at h h'
  omega

theorem executeCommand_ttl (now : Readings) (key : Bytes) (s : Session) :
    executeCommand now (ttlRequest key) s = commit key ((s.store.cell key).live now.first)
      (Op.ttl.decide now key ((s.store.cell key).live now.first)) s := by
  rw [ttlRequest, executeCommand_words]
  rfl

theorem ttl_missing {now : Readings} {key : Bytes} {s : Session}
    (h : ((s.store.cell key).live now.first).value = none) :
    (executeCommand now (ttlRequest key) s).1 = makeInteger (-2) := by
  simp [executeCommand_ttl, commit, Op.decide, h, Decision.answer]

theorem ttl_forever {now : Readings} {key : Bytes} {s : Session} {v : Value}
    (hvalue : (s.store.cell key).value = some v) (hdeadline : (s.store.cell key).deadline = none) :
    (executeCommand now (ttlRequest key) s).1 = makeInteger (-1) := by
  have hlive : (s.store.cell key).live now.first = s.store.cell key :=
    Cell.live_eq_self_iff.mpr (by simp [hdeadline])
  simp [executeCommand_ttl, commit, Op.decide, hlive, hvalue, hdeadline, Decision.answer]

theorem ttl_counting {now : Readings} {key : Bytes} {s : Session} {v : Value} {deadline : ℤ}
    (hvalue : (s.store.cell key).value = some v)
    (hdeadline : (s.store.cell key).deadline = some deadline) (hahead : now.first < deadline) :
    (executeCommand now (ttlRequest key) s).1 =
      makeInteger (ceilSeconds (deadline - now.second)) := by
  have hlive : (s.store.cell key).live now.first = s.store.cell key :=
    Cell.live_eq_self_iff.mpr (by simpa [hdeadline] using hahead)
  simp [executeCommand_ttl, commit, Op.decide, hlive, hvalue, hdeadline, Decision.answer]

/-- `-2` is for a key that is missing or due, `-1` for one without a deadline, and a key whose
deadline is ahead has a positive number of seconds left. -/
structure Truthful (now : Readings) (key : Bytes) (store : Store) (reply : RespValue) : Prop where
  missing : reply = makeInteger (-2) → store.values[key]? = none ∨
    ∃ deadline, store.expirations[key]? = some deadline ∧ deadline ≤ now.second
  forever : reply = makeInteger (-1) →
    store.values[key]?.isSome ∧ store.expirations[key]? = none
  counting : ∀ deadline, store.values[key]?.isSome → store.expirations[key]? = some deadline →
    now.first < deadline → ∃ n, reply = makeInteger n ∧ 0 < n

theorem truthful_missing {now : Readings} {key : Bytes} {store : Store}
    (h : store.values[key]? = none ∨
      ∃ deadline, store.expirations[key]? = some deadline ∧ deadline ≤ now.first) :
    Truthful now key store (makeInteger (-2)) := by
  refine ⟨fun _ => ?_, fun hreply => absurd (makeInteger_inj hreply) (by decide), ?_⟩
  · rcases h with hmissing | ⟨deadline, hdeadline, hdue⟩
    · exact .inl hmissing
    · exact .inr ⟨deadline, hdeadline, hdue.trans now.ordered⟩
  · intro deadline hpresent hdeadline hahead
    rcases h with hmissing | ⟨deadline', hdeadline', hdue⟩
    · rw [hmissing] at hpresent
      cases hpresent
    · rw [hdeadline] at hdeadline'
      cases hdeadline'
      exact absurd hahead (not_lt.mpr hdue)

theorem truthful_forever {now : Readings} {key : Bytes} {store : Store}
    (hpresent : store.values[key]?.isSome) (hdeadline : store.expirations[key]? = none) :
    Truthful now key store (makeInteger (-1)) := by
  refine ⟨fun hreply => absurd (makeInteger_inj hreply) (by decide), fun _ => ⟨hpresent, hdeadline⟩, ?_⟩
  intro deadline _ hd
  rw [hdeadline] at hd
  cases hd

theorem truthful_counting (now : Readings) (key : Bytes) (store : Store) {n : ℤ} (hpos : 0 < n) :
    Truthful now key store (makeInteger n) := by
  refine ⟨fun hreply => ?_, fun hreply => ?_, fun _ _ _ _ => ⟨n, rfl, hpos⟩⟩
  · rw [makeInteger_inj hreply] at hpos
    cases hpos
  · rw [makeInteger_inj hreply] at hpos
    cases hpos

/-- `TTL` tells the truth exactly if the deadline of a key that is there is not reached between the
two readings of the clock. -/
theorem ttl_truthful_iff (now : Readings) (key : Bytes) (s : Session) :
    Truthful now key s.store (executeCommand now (ttlRequest key) s).1 ↔
      ∀ deadline, s.store.values[key]?.isSome → s.store.expirations[key]? = some deadline →
        now.first < deadline → now.second < deadline := by
  constructor
  · intro h deadline hvalue hdeadline hahead
    obtain ⟨v, hv⟩ := Option.isSome_iff_exists.mp hvalue
    obtain ⟨n, hreply, hpos⟩ := h.counting deadline hvalue hdeadline hahead
    rw [ttl_counting hv hdeadline hahead] at hreply
    rw [← makeInteger_inj hreply, ceilSeconds_pos_iff] at hpos
    omega
  · intro h
    cases hvalue : (s.store.cell key).value with
    | none =>
      have hmissing : ((s.store.cell key).live now.first).value = none := by
        unfold Cell.live
        split
        · rfl
        · exact hvalue
      rw [ttl_missing hmissing]
      exact truthful_missing (.inl hvalue)
    | some v =>
      have hpresent : s.store.values[key]?.isSome := by
        rw [values_cell, hvalue]
        rfl
      cases hdeadline : (s.store.cell key).deadline with
      | none =>
        rw [ttl_forever hvalue hdeadline]
        exact truthful_forever hpresent hdeadline
      | some deadline =>
        by_cases hahead : now.first < deadline
        · rw [ttl_counting hvalue hdeadline hahead]
          refine truthful_counting now key s.store (ceilSeconds_pos_iff.mpr ?_)
          exact sub_pos.mpr (h deadline hpresent hdeadline hahead)
        · have hdue : ((s.store.cell key).live now.first).value = none := by
            simp [Cell.live, Cell.due, hdeadline, not_lt.mp hahead, Cell.missing]
          rw [ttl_missing hdue]
          exact truthful_missing (.inr ⟨deadline, hdeadline, not_lt.mp hahead⟩)

/-- The deadline of a key is reached between the two readings: the key is there, its deadline is a
second away at the first, and `TTL` says that it has none. -/
theorem deadline_between_readings :
    let s : Session := ⟨Store.setCell {} (text "k") ⟨some (.string (text "v")), some 2000000000⟩, none⟩
    s.store.Sound ∧ ¬ Truthful ⟨1000000000, 3000000000, 0, by decide⟩ (text "k") s.store
      (executeCommand ⟨1000000000, 3000000000, 0, by decide⟩ (ttlRequest (text "k")) s).1 := by
  intro s
  refine ⟨Store.sound_empty.setCell _ ⟨fun _ => rfl, fun v hv => by cases hv; rfl⟩, fun h => ?_⟩
  have hcell : s.store.cell (text "k") = ⟨some (.string (text "v")), some 2000000000⟩ :=
    Store.cell_setCell_self _ _ _
  have hreply := @ttl_counting ⟨1000000000, 3000000000, 0, by decide⟩ (text "k") s _ 2000000000
    (by rw [hcell]) (by rw [hcell]) (by decide)
  have hforever := (h.forever hreply).2
  rw [expirations_cell, hcell] at hforever
  cases hforever

def operation (i : TimedRequest) (key : Bytes) : Option Op := asks i.readings i.request key

/-- What the operations of a run leave of the value of a key, if no deadline is reached. -/
def left (key : Bytes) (run : List TimedRequest) (v : Option Value) : Option Value :=
  run.foldl (fun v i => (operation i key).elim v fun op => op.leaves v) v

/-- Requests in order of time, from a time on, that do not set the key, remove it or give it a
deadline, and that leave it with a value. -/
structure Spares (key : Bytes) (t : ℤ) (v : Option Value) (run : List TimedRequest) : Prop where
  ordered : Ordered TimedRequest.now run
  later : ∀ i ∈ run, t ≤ i.now
  spared : ∀ i ∈ run, ∀ op, operation i key = some op → op.resets = false
  nonempty : ∀ n, (left key (run.take n) v).isSome

theorem left_cons (key : Bytes) (i : TimedRequest) (run : List TimedRequest) (v : Option Value) :
    left key (i :: run) v = left key run ((operation i key).elim v fun op => op.leaves v) := rfl

/-- A request before the deadline leaves the key its deadline. -/
theorem step_spared {key : Bytes} {i : TimedRequest} {v : Value} {deadline : ℤ} {s : Session}
    (hcell : s.store.cell key = ⟨some v, some deadline⟩)
    (hspared : ∀ op, operation i key = some op → op.resets = false ∧ i.now < deadline) :
    (lazyStep i s).2.store.cell key =
      withDeadline ((operation i key).elim (some v) fun op => op.leaves (some v)) (some deadline) := by
  cases hop : operation i key with
  | none => exact (cell_of_asks_none hop s).trans hcell
  | some op =>
    obtain ⟨hresets, hahead⟩ := hspared op hop
    have hlive : (s.store.cell key).live i.readings.first = s.store.cell key := by
      rw [hcell]
      exact Cell.live_eq_self_iff.mpr fun d hd => by cases hd; exact hahead
    have hstep := cell_of_asks hop hresets s hlive (by rw [hcell]; nofun)
    rw [hcell] at hstep
    exact hstep

/-- As long as the deadline is not reached when the key is named, the key has it, and the value that
the writes leave. -/
theorem run_spared {key : Bytes} {run : List TimedRequest} {v : Value} {deadline : ℤ} {s : Session}
    (hcell : s.store.cell key = ⟨some v, some deadline⟩)
    (hspared : ∀ i ∈ run, ∀ op, operation i key = some op → op.resets = false ∧ i.now < deadline)
    (hnonempty : ∀ n, (left key (run.take n) (some v)).isSome) :
    (final lazyStep run s).store.cell key = ⟨left key run (some v), some deadline⟩ := by
  induction run generalizing v s with
  | nil => exact hcell
  | cons i run ih =>
    have hstep := step_spared hcell (hspared i List.mem_cons_self)
    obtain ⟨v', hv'⟩ := Option.isSome_iff_exists.mp (hnonempty 1)
    rw [List.take_succ_cons, List.take_zero, left_cons] at hv'
    have hv'' : (operation i key).elim (some v) (fun op => op.leaves (some v)) = some v' := hv'
    rw [hv''] at hstep
    have hrest := ih hstep (fun j hj => hspared j (List.mem_cons_of_mem i hj)) fun n => by
      have hn := hnonempty (n + 1)
      rwa [List.take_succ_cons, left_cons, hv''] at hn
    rw [final_cons, hrest, left_cons, hv'']

def expireRequest (key amount : Bytes) : RespValue :=
  asRequest [CommandName.expire.upper, key, amount]

/-- An `EXPIRE` that succeeds finds a value and gives it the deadline. -/
theorem expire_succeeds {now : Readings} {key amount : Bytes} {seconds : ℤ} {s : Session}
    (hamount : toInteger amount = some seconds) (hpos : 0 < seconds)
    (hreply : (executeCommand now (expireRequest key amount) s).1 = makeInteger 1) :
    ∃ v, s.store.values[key]? = some v ∧
      (executeCommand now (expireRequest key amount) s).2.store.cell key =
        ⟨some v, some (now.first + seconds * nanosPerSecond)⟩ := by
  rw [expireRequest, executeCommand_words] at hreply ⊢
  simp only [interpretArgs, hamount] at hreply ⊢
  split at hreply
  · cases hreply
  · rename_i hmax
    rw [if_neg hmax]
    simp only [answer, perform, Op.checkedAt, commit, Store.cell_setCell_self] at hreply ⊢
    cases hvalue : ((s.store.cell key).live now.second).value with
    | none =>
      simp only [Op.decide, hvalue] at hreply
      cases hreply
    | some v =>
      refine ⟨v, (Cell.live_value_iff.mp hvalue).1, ?_⟩
      simp [Op.decide, hvalue, not_le.mpr hpos, Change.apply]

/-- A reading after the first `n` requests of a run. -/
def Reached (t : ℤ) (run : List TimedRequest) (n : ℕ) (now : ℤ) : Prop :=
  t ≤ now ∧ ∀ i ∈ run.take n, i.now ≤ now

def secondsLeft (key : Bytes) (now unix : ℤ) (s : Session) : RespValue :=
  (lazyStep ⟨now, unix, ttlRequest key⟩ s).1

/-- The key has its value, and a number of seconds left that becomes smaller, until the deadline is
reached; the first request that names it after that finds it missing. -/
structure Honoured (key : Bytes) (t seconds : ℤ) (v : Option Value) (run : List TimedRequest)
    (s : Session) : Prop where
  present : ∀ n now, Reached t run n now → now < t + seconds * nanosPerSecond →
    (((final lazyStep (run.take n) s).store.cell key).live now).value = left key (run.take n) v
  counting : ∀ n now unix, Reached t run n now → now < t + seconds * nanosPerSecond →
    ∃ k, secondsLeft key now unix (final lazyStep (run.take n) s) = makeInteger k ∧
      RoundsUp (t + seconds * nanosPerSecond - now) k ∧ 1 ≤ k ∧ k ≤ seconds
  decreasing : ∀ n n' now now' unix unix' k k', n ≤ n' → now ≤ now' → Reached t run n now →
    Reached t run n' now' → now' < t + seconds * nanosPerSecond →
    secondsLeft key now unix (final lazyStep (run.take n) s) = makeInteger k →
    secondsLeft key now' unix' (final lazyStep (run.take n') s) = makeInteger k' → k' ≤ k
  missing : ∀ n i op, operation i key = some op → t + seconds * nanosPerSecond ≤ i.now →
    (∀ j ∈ run.take n, operation j key ≠ none → j.now < t + seconds * nanosPerSecond) →
    let found := final lazyStep (run.take n) s
    lazyStep i found = lazyStep i { found with store := removeKey found.store key } ∧
      (op = .ttl → (lazyStep i found).1 = makeInteger (-2)) ∧
      (op.resets = false → (lazyStep i found).2.store.cell key = ⟨op.leaves none, none⟩)

/-- A request that finds the deadline of its key reached does what it does without the key. -/
theorem lazyStep_due {key : Bytes} {i : TimedRequest} {op : Op} {deadline : ℤ} {s : Session}
    (hop : operation i key = some op) (hdeadline : (s.store.cell key).deadline = some deadline)
    (hdue : deadline ≤ i.now) :
    lazyStep i s = lazyStep i { s with store := removeKey s.store key } := by
  have hlive : (s.store.cell key).live i.now = .missing := by
    simp [Cell.live, Cell.due, hdeadline, hdue]
  have hremoved : ((removeKey s.store key).cell key).live i.now = .missing := by
    rw [removeKey_eq, Store.cell_setCell_self, Cell.live_missing]
  rw [lazyStep, lazyStep, executeCommand_asks hop, executeCommand_asks hop, checkedAt_readings, hlive,
    hremoved]
  simp only [commit, removeKey_eq, Store.setCell_setCell]

section Honoured
variable {key : Bytes} {seconds t : ℤ} {v : Value} {run : List TimedRequest} {s : Session}

/-- The key after the first requests, none of which names it when its deadline is reached. -/
theorem Spares.cell (hrun : Spares key t (some v) run)
    (hcell : s.store.cell key = ⟨some v, some (t + seconds * nanosPerSecond)⟩) {n : ℕ}
    (hahead : ∀ j ∈ run.take n, operation j key ≠ none → j.now < t + seconds * nanosPerSecond) :
    (final lazyStep (run.take n) s).store.cell key =
      ⟨left key (run.take n) (some v), some (t + seconds * nanosPerSecond)⟩ := by
  refine run_spared hcell (fun i hi op hop => ?_) fun m => ?_
  · exact ⟨hrun.spared i (List.mem_of_mem_take hi) op hop, hahead i hi (by rw [hop]; nofun)⟩
  · rw [List.take_take]
    exact hrun.nonempty _

theorem Spares.cell_reached (hrun : Spares key t (some v) run)
    (hcell : s.store.cell key = ⟨some v, some (t + seconds * nanosPerSecond)⟩) {n : ℕ} {now : ℤ}
    (hn : Reached t run n now) (hnow : now < t + seconds * nanosPerSecond) :
    (final lazyStep (run.take n) s).store.cell key =
      ⟨left key (run.take n) (some v), some (t + seconds * nanosPerSecond)⟩ :=
  hrun.cell hcell fun j hj _ => (hn.2 j hj).trans_lt hnow

theorem Spares.secondsLeft_eq (hrun : Spares key t (some v) run)
    (hcell : s.store.cell key = ⟨some v, some (t + seconds * nanosPerSecond)⟩) {n : ℕ} {now : ℤ}
    (unix : ℤ) (hn : Reached t run n now) (hnow : now < t + seconds * nanosPerSecond) :
    secondsLeft key now unix (final lazyStep (run.take n) s) =
      makeInteger (ceilSeconds (t + seconds * nanosPerSecond - now)) := by
  obtain ⟨w, hw⟩ := Option.isSome_iff_exists.mp (hrun.nonempty n)
  have hfound := hrun.cell_reached hcell hn hnow
  exact @ttl_counting (.once now unix) key _ w _ (by rw [hfound, hw]) (by rw [hfound]) hnow

/-- A key with a value and a deadline, over any run that spares it. -/
theorem Spares.honoured (hrun : Spares key t (some v) run)
    (hcell : s.store.cell key = ⟨some v, some (t + seconds * nanosPerSecond)⟩) :
    Honoured key t seconds (some v) run s := by
  have hround : ∀ now, now < t + seconds * nanosPerSecond →
      RoundsUp (t + seconds * nanosPerSecond - now) (ceilSeconds (t + seconds * nanosPerSecond - now)) :=
    fun now hnow => roundsUp_ceilSeconds (by omega)
  refine ⟨fun n now hn hnow => ?_, fun n now unix hn hnow => ?_, ?_, ?_⟩
  · rw [hrun.cell_reached hcell hn hnow, Cell.live_eq_self_iff.mpr fun d hd => by cases hd; exact hnow]
  · refine ⟨_, hrun.secondsLeft_eq hcell unix hn hnow, hround now hnow, ?_⟩
    have hrounded := hround now hnow
    have hstart := hn.1
    unfold RoundsUp at hrounded
    unfold nanosPerSecond at *
    omega
  · intro n n' now now' unix₁ unix₂ k k' _ hle hn hn' hnow' hk hk'
    rw [hrun.secondsLeft_eq hcell unix₁ hn (hle.trans_lt hnow')] at hk
    rw [hrun.secondsLeft_eq hcell unix₂ hn' hnow'] at hk'
    rw [← makeInteger_inj hk, ← makeInteger_inj hk']
    exact (hround now (hle.trans_lt hnow')).antitone (hround now' hnow') (by omega)
  · intro n i op hop hdue hahead found
    have hfound := hrun.cell hcell hahead
    have hmissing : (found.store.cell key).live i.now = .missing := by
      rw [hfound]
      simp [Cell.live, Cell.due, hdue]
    refine ⟨lazyStep_due hop (by rw [hfound]) hdue, ?_, fun hresets => ?_⟩
    · rintro rfl
      rw [lazyStep, executeCommand_asks hop, checkedAt_readings, hmissing]
      rfl
    · have hstep := cell_of_asks hop hresets found hmissing fun _ => rfl
      rwa [Cell.missing, withDeadline_none] at hstep

end Honoured

/-- A deadline is honoured exactly, over any run that spares the key. -/
theorem deadline_honoured {key amount : Bytes} {seconds t unix : ℤ} {s : Session}
    {run : List TimedRequest} (hamount : toInteger amount = some seconds) (hpos : 0 < seconds)
    (hreply : (lazyStep ⟨t, unix, expireRequest key amount⟩ s).1 = makeInteger 1)
    (hrun : Spares key t s.store.values[key]? run) :
    Honoured key t seconds s.store.values[key]? run
      (lazyStep ⟨t, unix, expireRequest key amount⟩ s).2 := by
  obtain ⟨v, hv, hcell⟩ := expire_succeeds hamount hpos hreply
  rw [hv] at hrun ⊢
  exact hrun.honoured hcell

def oneElement : Session :=
  ⟨Store.setCell {} (text "k") ⟨some (.list [text "a"]), none⟩, none⟩

def pushLater : List TimedRequest :=
  [⟨1000000000, 1, asRequest [CommandName.rpush.upper, text "k", text "b"]⟩]

theorem pushLater_honoured : Honoured (text "k") 0 2 (some (.list [text "a"])) pushLater
    (lazyStep ⟨0, 0, expireRequest (text "k") (text "2")⟩ oneElement).2 := by
  have hvalue : oneElement.store.values[text "k"]? = some (.list [text "a"]) := by
    rw [values_cell, oneElement, Store.cell_setCell_self]
  have hpush : ∀ i ∈ pushLater, operation i (text "k") = some (.push .right (text "b")) := by
    intro i hi
    rw [pushLater, List.mem_singleton] at hi
    rw [hi]
    rfl
  have hspares : Spares (text "k") 0 oneElement.store.values[text "k"]? pushLater := by
    refine ⟨by simp [Ordered, pushLater], by decide, fun i hi op hop => ?_, fun n => ?_⟩
    · rw [hpush i hi] at hop
      cases hop
      rfl
    · rw [hvalue]
      cases n with
      | zero => rfl
      | succ n =>
        rw [pushLater, List.take_succ_cons, List.take_nil]
        rfl
  have hnumber : toInteger (text "2") = some 2 := by decide
  have hreply : (lazyStep ⟨0, 0, expireRequest (text "k") (text "2")⟩ oneElement).1 =
      makeInteger 1 := by
    have hmax : ¬ maxSeconds (Readings.once 0 0).first < 2 := by decide
    rw [lazyStep, expireRequest, executeCommand_words, TimedRequest.readings]
    simp only [interpretArgs, hnumber, hmax, if_false]
    simp [answer, perform, commit, Op.decide, oneElement, Cell.live, Cell.due]
  have hhonoured := deadline_honoured hnumber (by decide) hreply hspares
  rwa [hvalue] at hhonoured

end RedisLite.Deadlines
