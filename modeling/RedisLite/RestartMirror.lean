import RedisLite.RestartTimeline

/-!
# The replayed store as a mirror of the live one

At a restart the replay gives a key the value it had, and a deadline as many seconds ahead as its
second of the Unix clock; a key whose second has passed is missing. The replay follows a request as
long as it neither writes into such a key nor gives it a new deadline beyond the restart.
-/

namespace RedisLite.Restart
open ByteStrings Resp Keyspace AppendLog Commands Operations RecordFiles LogReader Replay

variable {boot boot' : ℤ}

/-- The cell that a replay at `restart` makes out of the records of a live cell. -/
def mirror (boot : ℤ) (restart : Instant boot') (c : Cell) : Cell :=
  match c.deadline with
  | none => c
  | some deadline =>
    if expirySecond boot deadline ≤ restart.unix then .missing
    else ⟨c.value,
      some (restart.steady + (expirySecond boot deadline - restart.unix) * nanosPerSecond)⟩

def Passed (boot : ℤ) (restart : Instant boot') (c : Cell) : Prop :=
  ∃ deadline, c.deadline = some deadline ∧ expirySecond boot deadline ≤ restart.unix

section Mirror
variable {restart : Instant boot'} {c : Cell}

theorem mirror_passed (h : Passed boot restart c) : mirror boot restart c = .missing := by
  obtain ⟨deadline, hdeadline, hle⟩ := h
  simp only [mirror, hdeadline, hle, if_true]

theorem mirror_none (h : c.deadline = none) : mirror boot restart c = c := by
  simp only [mirror, h]

theorem mirror_ahead {deadline : ℤ} (hdeadline : c.deadline = some deadline)
    (h : restart.unix < expirySecond boot deadline) : mirror boot restart c = ⟨c.value,
      some (restart.steady + (expirySecond boot deadline - restart.unix) * nanosPerSecond)⟩ := by
  simp only [mirror, hdeadline, not_le.mpr h, if_false]

theorem mirror_value (h : ¬ Passed boot restart c) : (mirror boot restart c).value = c.value := by
  cases hdeadline : c.deadline with
  | none => rw [mirror_none hdeadline]
  | some deadline =>
    have hahead : restart.unix < expirySecond boot deadline := by
      by_contra hle
      exact h ⟨deadline, hdeadline, not_lt.mp hle⟩
    rw [mirror_ahead hdeadline hahead]

theorem mirror_deadline (h : ¬ Passed boot restart c) :
    (mirror boot restart c).deadline = c.deadline.map (fun deadline =>
      restart.steady + (expirySecond boot deadline - restart.unix) * nanosPerSecond) := by
  cases hdeadline : c.deadline with
  | none => rw [mirror_none hdeadline, hdeadline, Option.map_none]
  | some deadline =>
    have hahead : restart.unix < expirySecond boot deadline := by
      by_contra hle
      exact h ⟨deadline, hdeadline, not_lt.mp hle⟩
    rw [mirror_ahead hdeadline hahead, Option.map_some]

theorem live_mirror : (mirror boot restart c).live restart.steady = mirror boot restart c := by
  cases hdeadline : c.deadline with
  | none => rw [mirror_none hdeadline, Cell.live, Cell.due, hdeadline]; rfl
  | some deadline =>
    by_cases hle : expirySecond boot deadline ≤ restart.unix
    · rw [mirror_passed ⟨deadline, hdeadline, hle⟩]
      rfl
    · have hlater : ¬ restart.steady +
          (expirySecond boot deadline - restart.unix) * nanosPerSecond ≤ restart.steady := by
        unfold nanosPerSecond
        omega
      rw [mirror_ahead hdeadline (not_le.mp hle)]
      simp [Cell.live, Cell.due, hlater]

/-- What lazy expiration removes before the restart is missing in the mirror already. -/
theorem mirror_live {i : Instant boot} (h : i.unix ≤ restart.unix) :
    mirror boot restart (c.live i.steady) = mirror boot restart c := by
  unfold Cell.live
  split
  · rename_i hdue
    cases hdeadline : c.deadline with
    | none => simp [Cell.due, hdeadline] at hdue
    | some deadline =>
      simp only [Cell.due, hdeadline, Option.any_some, decide_eq_true_eq] at hdue
      exact (mirror_passed ⟨deadline, hdeadline, (expirySecond_due i hdue).trans h⟩).symm
  · rfl

/-- The mirror of a mirror: a deadline keeps its second through a restart. -/
theorem mirror_mirror {boot'' : ℤ} (h : ¬ Passed boot restart c) (later : Instant boot'') :
    mirror boot' later (mirror boot restart c) = mirror boot later c := by
  cases hdeadline : c.deadline with
  | none => rw [mirror_none hdeadline, mirror_none hdeadline, mirror_none hdeadline]
  | some deadline =>
    have hahead : restart.unix < expirySecond boot deadline := by
      by_contra hle
      exact h ⟨deadline, hdeadline, not_lt.mp hle⟩
    have hsecond := expirySecond_set restart (expirySecond boot deadline - restart.unix)
    rw [add_sub_cancel] at hsecond
    rw [mirror_ahead hdeadline hahead]
    simp only [mirror, hdeadline, hsecond]

/-- A change that sets no deadline looks the same in the mirror, unless the second has passed. -/
theorem mirror_apply (h : ¬ Passed boot restart c) {change : Change}
    (hchange : ∀ deadline, change ≠ .expireAt deadline) :
    mirror boot restart (change.apply c) = change.apply (mirror boot restart c) := by
  cases change with
  | keep => rfl
  | put v =>
    cases hdeadline : c.deadline with
    | none => simp only [Change.apply, mirror, hdeadline]
    | some deadline =>
      have hle : ¬ expirySecond boot deadline ≤ restart.unix := fun hle =>
        h ⟨deadline, hdeadline, hle⟩
      simp only [Change.apply, mirror, hdeadline, hle, if_false]
  | replace v => rfl
  | remove => rfl
  | expireAt deadline => exact absurd rfl (hchange deadline)

theorem mirror_apply_passed (h : Passed boot restart c) {change : Change}
    (hchange : ∀ deadline, change ≠ .expireAt deadline) :
    mirror boot restart (change.apply c) = change.onMissing := by
  obtain ⟨deadline, hdeadline, hle⟩ := h
  cases change with
  | keep => exact mirror_passed ⟨deadline, hdeadline, hle⟩
  | put v => exact mirror_passed ⟨deadline, hdeadline, hle⟩
  | replace v => rfl
  | remove => rfl
  | expireAt deadline => exact absurd rfl (hchange deadline)

end Mirror

/-- An `LPUSH`, `RPUSH`, `HSET` or `SADD` that changes a value that is there. -/
def writesInto : Op → Value → Bool
  | .push _ _, .list _ => true
  | .hset _ _, .hash _ => true
  | .sadd member, .set s => !s.contains member
  | _, _ => false

/-- A request writes into a key whose cell is of the given kind. -/
def WritesInto (P : Cell → Prop) (a : Arrival boot) (s : Session) : Prop :=
  ∃ key op v, a.operation = some (key, op) ∧ (a.finds s key).value = some v ∧
    writesInto op v = true ∧ P (a.finds s key)

/-- An `EXPIRE` moves a deadline from the second of the restart or before it to a later second. -/
def ExtendsPassed (restart : Instant boot') (a : Arrival boot) (s : Session) : Prop :=
  ∃ key seconds, a.operation = some (key, .expire seconds) ∧ Passed boot restart (a.finds s key) ∧
    restart.unix < a.instant.unix + seconds

/-- An `EXPIRE` of a key that is there leaves more seconds at the restart than the steady clock can
count. -/
def OutlastsClock (restart : Instant boot') (a : Arrival boot) (s : Session) : Prop :=
  ∃ key seconds, a.operation = some (key, .expire seconds) ∧ (a.finds s key).value.isSome ∧
    maxSeconds restart.steady < a.instant.unix + seconds - restart.unix

theorem writesInto_of_creates {now : Readings} {key : Bytes} {op : Op} {c : Cell} {v : Value}
    (hop : op.creates = true) (hvalue : c.value = some v)
    (hrecord : (op.decide now key c).record ≠ none) : writesInto op v = true := by
  cases op <;> cases hop
  case push side x =>
    cases v with
    | list l => rfl
    | string _ | hash _ | set _ =>
      simp [Op.decide, writing, hvalue, Value.list?, Decision.answer] at hrecord
  case hset field value =>
    cases v with
    | hash h => rfl
    | string _ | list _ | set _ =>
      simp [Op.decide, writing, hvalue, Value.hash?, Decision.answer] at hrecord
  case sadd member =>
    cases v with
    | set s =>
      by_cases hm : s.contains member
      · simp [Op.decide, writing, hvalue, Value.set?, hm, Decision.answer] at hrecord
      · rw [Bool.not_eq_true] at hm
        simp only [writesInto, hm, Bool.not_false]
    | string _ | list _ | hash _ =>
      simp [Op.decide, writing, hvalue, Value.set?, Decision.answer] at hrecord

/-- A key with a deadline has a value, so a write that starts from an empty collection when the key
is missing writes into that value. -/
theorem creates_of_deadline {P : Cell → Prop} {a : Arrival boot} {s : Session} (hs : s.store.Sound)
    {key : Bytes} {op : Op} (hoperation : a.operation = some (key, op))
    (hrecord : (a.decision key op s).record ≠ none) {deadline : ℤ}
    (hdeadline : (a.finds s key).deadline = some deadline) (hP : P (a.finds s key))
    (hwrite : ¬ WritesInto P a s) : op.creates = false := by
  cases hcreates : op.creates with
  | false => rfl
  | true =>
    have hc : (a.finds s key).Sound := (Store.sound_iff.mp hs key).live _
    obtain ⟨v, hv⟩ := Option.isSome_iff_exists.mp (hc.present (by rw [hdeadline]; rfl))
    exact absurd ⟨key, op, v, hoperation, hv, writesInto_of_creates hcreates hv hrecord, hP⟩ hwrite

theorem inInt64_passed {restart : Instant boot'} {i : Instant boot} {seconds : ℤ} (hpos : 0 < seconds)
    (hpast : i.unix + seconds ≤ restart.unix) : InInt64 (i.unix + seconds - restart.unix) := by
  have hset := i.unix_bounds
  have hnow := restart.unix_bounds
  unfold InInt64 minInt64 maxInt64
  omega

/-- The record of an `EXPIRE` that the replay can follow: a removal once its second has passed, and
the remaining seconds otherwise. -/
theorem executeRecord_expire_mirror {restart : Instant boot'} {i : Instant boot} {key : Bytes}
    {seconds : ℤ} {c : Cell} {replayed : Store} (hpos : 0 < seconds) (hvalue : c.value.isSome)
    (hextend : restart.unix < i.unix + seconds → ¬ Passed boot restart c)
    (hmax : i.unix + seconds - restart.unix ≤ maxSeconds restart.steady)
    (hlive : (replayed.cell key).live restart.steady = mirror boot restart c) :
    executeRecord restart.readings (.expire key (i.unix + seconds)) replayed = replayed.setCell key
      (mirror boot restart ((Change.expireAt (i.steady + seconds * nanosPerSecond)).apply c)) := by
  have hsecond : expirySecond boot (i.steady + seconds * nanosPerSecond) = i.unix + seconds :=
    expirySecond_set i seconds
  by_cases hpast : i.unix + seconds ≤ restart.unix
  · have hpassed : Passed boot restart ((Change.expireAt (i.steady +
        seconds * nanosPerSecond)).apply c) := ⟨_, rfl, hsecond.le.trans hpast⟩
    rw [mirror_passed hpassed]
    exact executeRecord_past hpast (inInt64_passed hpos hpast) replayed
  · have hahead : restart.unix < i.unix + seconds := not_le.mp hpast
    have hin : InInt64 (i.unix + seconds - restart.unix) := by
      have hlimit := maxSeconds_le restart.steady_nonneg
      unfold InInt64 minInt64 maxInt64
      omega
    have hnew : mirror boot restart ((Change.expireAt (i.steady +
        seconds * nanosPerSecond)).apply c) = ⟨c.value, some
          (restart.steady + (i.unix + seconds - restart.unix) * nanosPerSecond)⟩ := by
      rw [← hsecond]
      exact mirror_ahead rfl (hahead.trans_eq hsecond.symm)
    rw [hnew, executeRecord_ahead hahead hin hmax replayed hlive, mirror_value (hextend hahead),
      if_pos hvalue]
    rfl

/-- The record of a request that the replay can follow takes the mirror of the cell it found to the
mirror of the cell it left. -/
theorem executeRecord_mirror {restart : Instant boot'} {a : Arrival boot} {s : Session}
    (hs : s.store.Sound) (hwrite : ¬ WritesInto (Passed boot restart) a s)
    (hextend : ¬ ExtendsPassed restart a s) (hclock : ¬ OutlastsClock restart a s)
    {key : Bytes} {op : Op} {r : LogRecord} {replayed : Store}
    (hoperation : a.operation = some (key, op)) (hr : (a.decision key op s).record = some r)
    (hcell : replayed.cell key = mirror boot restart (a.finds s key)) :
    executeRecord restart.readings r replayed = replayed.setCell key
      (mirror boot restart ((a.decision key op s).change.apply (a.finds s key))) := by
  have hc : (a.finds s key).Sound := (Store.sound_iff.mp hs key).live _
  have hlive : (replayed.cell key).live restart.steady = mirror boot restart (a.finds s key) := by
    rw [hcell, live_mirror]
  cases decide_recorded a.instant.readings key op hc with
  | nothing hrecord _ =>
    rw [Arrival.decision, hrecord] at hr
    cases hr
  | deadline seconds hop hpos hvalue hchange hrecord =>
    subst hop
    rw [Arrival.decision, hrecord] at hr
    cases hr
    rw [Arrival.decision, hchange]
    refine executeRecord_expire_mirror hpos hvalue (fun hahead hpassed => ?_) ?_ hlive
    · exact hextend ⟨key, seconds, hoperation, hpassed, hahead⟩
    · by_contra hlt
      exact hclock ⟨key, seconds, hoperation, hvalue, not_le.mp hlt⟩
  | command name args op' hrecord hargs hshape hstrings hchange hsame hmissing =>
    rw [Arrival.decision, hrecord] at hr
    cases hr
    have hlive' : (replayed.cell key).live (op'.checkedAt restart.readings) =
        mirror boot restart (a.finds s key) := by
      rw [Instant.readings, checkedAt_once]
      exact hlive
    rw [executeRecord_command (hargs restart.readings) replayed hlive']
    congr 1
    by_cases hpassed : Passed boot restart (a.finds s key)
    · have hrecorded : (a.decision key op s).record ≠ none := by
        rw [Arrival.decision, hrecord]
        exact Option.some_ne_none _
      have hdue := hpassed
      obtain ⟨deadline, hdeadline, -⟩ := hdue
      have hcreates := creates_of_deadline hs hoperation hrecorded hdeadline hpassed hwrite
      rw [mirror_passed hpassed, hmissing hcreates]
      exact (mirror_apply_passed hpassed hchange).symm
    · rw [hsame _ _ (mirror_value hpassed)]
      exact (mirror_apply hpassed hchange).symm

end RedisLite.Restart
