import RedisLite.Store

/-!
# The store as a family of cells

A cell is what the store knows about one key: a value and a deadline. The two maps of the store are
a family of independent cells, and the instant at which a deadline is reached acts on every cell by
itself.
-/

namespace RedisLite.Keyspace
open ByteStrings

@[ext] structure Cell where
  value : Option Value
  deadline : Option ℤ

def Cell.missing : Cell := ⟨none, none⟩

def Cell.due (now : ℤ) (c : Cell) : Bool := c.deadline.any (· ≤ now)

/-- What is left of a cell at an instant: everything, or nothing once its deadline is reached. -/
def Cell.live (now : ℤ) (c : Cell) : Cell := if c.due now then .missing else c

def Store.cell (s : Store) (key : Bytes) : Cell := ⟨s.values[key]?, s.expirations[key]?⟩

def Store.setCell (s : Store) (key : Bytes) (c : Cell) : Store :=
  ⟨s.values.alter key (fun _ => c.value), s.expirations.alter key (fun _ => c.deadline)⟩

/-- All cells at an instant: every key whose deadline is reached is gone, value and deadline. -/
def Store.dropDue (now : ℤ) (s : Store) : Store :=
  ⟨s.values.filter (fun key _ => !(s.cell key).due now),
    s.expirations.filter (fun _ deadline => now < deadline)⟩

theorem Store.ext_cell {s s' : Store} (h : ∀ key, s.cell key = s'.cell key) : s = s' := by
  have hvalues : s.values = s'.values :=
    Std.ExtTreeMap.ext_getElem? (fun key => congrArg Cell.value (h key))
  have hexpirations : s.expirations = s'.expirations :=
    Std.ExtTreeMap.ext_getElem? (fun key => congrArg Cell.deadline (h key))
  cases s
  cases s'
  simp_all

theorem Store.cell_setCell (s : Store) (key key' : Bytes) (c : Cell) :
    (s.setCell key c).cell key' = if key = key' then c else s.cell key' := by
  simp only [Store.cell, Store.setCell, Std.ExtTreeMap.getElem?_alter, Std.compare_eq_iff_eq]
  split <;> rfl

@[simp] theorem Store.cell_setCell_self (s : Store) (key : Bytes) (c : Cell) :
    (s.setCell key c).cell key = c := by
  rw [Store.cell_setCell, if_pos rfl]

@[simp] theorem Store.setCell_setCell (s : Store) (key : Bytes) (c c' : Cell) :
    (s.setCell key c).setCell key c' = s.setCell key c' := by
  apply Store.ext_cell
  intro key'
  simp only [Store.cell_setCell]
  split <;> rfl

@[simp] theorem Store.setCell_cell (s : Store) (key : Bytes) : s.setCell key (s.cell key) = s := by
  apply Store.ext_cell
  intro key'
  rw [Store.cell_setCell]
  split
  · rename_i h
    rw [h]
  · rfl

private theorem filter_deadline (now : ℤ) (deadline : Option ℤ) :
    deadline.filter (fun d => now < d) = if deadline.any (· ≤ now) then none else deadline := by
  cases deadline with
  | none => rfl
  | some d =>
    by_cases h : d ≤ now
    · simp [h]
    · simp [h, not_le.mp h]

@[simp] theorem Store.cell_dropDue (now : ℤ) (s : Store) (key : Bytes) :
    (s.dropDue now).cell key = (s.cell key).live now := by
  have hvalue : (s.values.filter (fun key _ => !(s.cell key).due now))[key]? =
      if (s.cell key).due now then none else s.values[key]? := by
    rw [Std.ExtTreeMap.getElem?_filter']
    cases s.values[key]? <;> by_cases h : (s.cell key).due now <;> simp [h]
  have hdeadline : (s.expirations.filter (fun _ deadline => now < deadline))[key]? =
      if (s.cell key).due now then none else s.expirations[key]? := by
    rw [Std.ExtTreeMap.getElem?_filter', filter_deadline]
    rfl
  rw [Store.cell, Store.dropDue, hvalue, hdeadline, Cell.live]
  split <;> rfl

@[simp] theorem Cell.live_missing (now : ℤ) : Cell.missing.live now = .missing := rfl

theorem Cell.live_eq_self_iff {now : ℤ} {c : Cell} :
    c.live now = c ↔ ∀ d ∈ c.deadline, now < d := by
  obtain ⟨value, deadline⟩ := c
  cases deadline with
  | none => simp [Cell.live, Cell.due]
  | some d => by_cases h : d ≤ now <;> simp [Cell.live, Cell.due, Cell.missing, h, not_le.mp]

theorem Cell.live_value_iff {now : ℤ} {c : Cell} {v : Value} :
    (c.live now).value = some v ↔ c.value = some v ∧ ∀ d ∈ c.deadline, now < d := by
  obtain ⟨value, deadline⟩ := c
  cases deadline with
  | none => simp [Cell.live, Cell.due]
  | some d => by_cases h : d ≤ now <;> simp [Cell.live, Cell.due, Cell.missing, h, not_le.mp]

theorem Cell.live_of_value {now : ℤ} {c : Cell} {v : Value} (h : (c.live now).value = some v) :
    c.live now = c :=
  Cell.live_eq_self_iff.mpr (Cell.live_value_iff.mp h).2

theorem Cell.deadline_of_live {now : ℤ} {c : Cell} {d : ℤ} (h : (c.live now).deadline = some d) :
    c.deadline = some d := by
  unfold Cell.live at h
  split at h
  · cases h
  · exact h

theorem Cell.live_live {now later : ℤ} (h : now ≤ later) (c : Cell) :
    (c.live now).live later = c.live later := by
  by_cases hd : c.due now
  · have hlater : c.due later := by
      simp only [Cell.due, Option.any_eq_true, decide_eq_true_eq] at hd ⊢
      obtain ⟨d, hmem, hle⟩ := hd
      exact ⟨d, hmem, hle.trans h⟩
    simp [Cell.live, hd, hlater]
  · simp [Cell.live, hd]

theorem Store.dropDue_dropDue {now later : ℤ} (h : now ≤ later) (s : Store) :
    (s.dropDue now).dropDue later = s.dropDue later := by
  apply Store.ext_cell
  intro key
  simp only [Store.cell_dropDue, Cell.live_live h]

theorem Store.dropDue_setCell (now : ℤ) (s : Store) (key : Bytes) (c : Cell) :
    (s.setCell key c).dropDue now = (s.dropDue now).setCell key (c.live now) := by
  apply Store.ext_cell
  intro key'
  simp only [Store.cell_dropDue, Store.cell_setCell]
  split <;> rfl

end RedisLite.Keyspace
