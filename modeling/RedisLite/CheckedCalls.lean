import RedisLite.CheckedParser

/-!
# The calls of the parser

What a call that has returned says about the input it was made on: where it began and ended, what it
cost, and how the calls nested in it follow each other.
-/

namespace RedisLite.CheckedParser
open ByteStrings IncrementalDecoding Resp CheckedArithmetic LoopVariants

mutual

/-- The number of values in a value, itself among them. -/
def valueCount : RespValue → ℕ
  | ⟨_, _, _, es, _⟩ => valueCounts es + 1

def valueCounts : List RespValue → ℕ
  | [] => 0
  | e :: es => valueCount e + valueCounts es

end

theorem valueCounts_append (es es' : List RespValue) :
    valueCounts (es ++ es') = valueCounts es + valueCounts es' := by
  induction es with
  | nil => simp [valueCounts]
  | cons e es ih =>
    rw [List.cons_append, valueCounts, valueCounts, ih]
    omega

theorem length_le_valueCounts (es : List RespValue) : es.length ≤ valueCounts es := by
  induction es with
  | nil => exact le_rfl
  | cons e es ih =>
    obtain ⟨type, string, integer, elements, isNull⟩ := e
    rw [List.length_cons, valueCounts, valueCount]
    omega

/-- The call stays inside the input and the limit of the depth and gives what the parser gives; a
value has cost three bytes for each of the values in it, and so has each round of its loop. -/
structure Call.Bounded (input : Bytes) (c : Call) : Prop where
  depth_le : c.depth ≤ kMaxDepth + 1
  entry_le : c.entry ≤ c.exit
  exit_le : c.exit ≤ input.length
  result_eq : c.result = parseValue input (kMaxDepth + 1 - c.depth) c.entry
  ok : ∀ v n, c.result = .ok v n →
    n = c.exit ∧ c.entry + 3 ≤ c.exit ∧ valueCount v ≤ (c.exit - c.entry) / 3
  reserved_le : c.reserved ≤ input.length - c.entry
  rounds_le : c.rounds ≤ (c.exit - c.entry) / 3

def Call.IsOk (c : Call) : Prop := ∃ v n, c.result = .ok v n

/-- Two calls, the first one made before the second: the position does not go back, and where the
first one gives no value, the second one is nested in it. -/
def Call.Before (c c' : Call) : Prop := c.entry ≤ c'.entry ∧ (c.IsOk ∨ c.depth < c'.depth)

structure Call.Within (depth start stop : ℕ) (c : Call) : Prop where
  depth_lt : depth < c.depth
  start_le : start ≤ c.entry
  le_stop : c.exit ≤ stop

/-- The call and all those it led to: a value has taken one call for each of the values in it, and a
nested call that gives no value has the verdict of the call. -/
structure Returned.Bounded (input : Bytes) (depth entry : ℕ) (r : Returned) : Prop where
  call : (r.call depth entry).Bounded input
  inner : ∀ c ∈ r.inner, c.Bounded input
  within : ∀ c ∈ r.inner, c.Within depth entry r.exit
  sorted : r.inner.Pairwise Call.Before
  stops : ∀ c ∈ r.inner, c.IsOk ∨ c.result = r.result
  inner_le : r.inner.length ≤ (r.exit - entry) / 3
  ok_inner : ∀ v n, r.result = .ok v n → valueCount v = r.inner.length + 1

structure BodyBounded (input : Bytes) (depth start : ℕ) (result : ParseResult) (r : Returned) :
    Prop where
  result_eq : r.result = result
  start_le : start ≤ r.exit
  exit_le : r.exit ≤ input.length
  ok : ∀ v n, r.result = .ok v n →
    n = r.exit ∧ valueCount v = r.inner.length + 1 ∧ start + 3 * r.inner.length ≤ r.exit
  inner : ∀ c ∈ r.inner, c.Bounded input
  within : ∀ c ∈ r.inner, c.Within depth start r.exit
  sorted : r.inner.Pairwise Call.Before
  stops : ∀ c ∈ r.inner, c.IsOk ∨ c.result = r.result
  inner_le : start + 3 * r.inner.length ≤ r.exit + 3
  reserved_le : r.reserved ≤ input.length - start
  rounds_le : start + 3 * r.rounds ≤ r.exit + 3

section Returned
variable {input : Bytes} {depth entry : ℕ} {r : Returned} (h : r.Bounded input depth entry)
include h

theorem Returned.Bounded.entry_le : entry ≤ r.exit := h.call.entry_le

theorem Returned.Bounded.exit_le : r.exit ≤ input.length := h.call.exit_le

theorem Returned.Bounded.calls : ∀ c ∈ r.calls depth entry, c.Bounded input := by
  intro c hc
  rcases List.mem_cons.mp hc with rfl | hc
  · exact h.call
  · exact h.inner c hc

theorem Returned.Bounded.calls_stop : ∀ c ∈ r.calls depth entry, c.IsOk ∨ c.result = r.result := by
  intro c hc
  rcases List.mem_cons.mp hc with rfl | hc
  · exact Or.inr rfl
  · exact h.stops c hc

theorem Returned.Bounded.calls_sorted : (r.calls depth entry).Pairwise Call.Before := by
  refine List.pairwise_cons.mpr ⟨fun c hc => ?_, h.sorted⟩
  have hwithin := h.within c hc
  exact ⟨hwithin.start_le, Or.inr hwithin.depth_lt⟩

theorem Returned.Bounded.calls_within {outer start : ℕ} (houter : outer < depth)
    (hstart : start ≤ entry) : ∀ c ∈ r.calls depth entry, c.Within outer start r.exit := by
  intro c hc
  rcases List.mem_cons.mp hc with rfl | hc
  · exact ⟨houter, hstart, le_rfl⟩
  · have hwithin := h.within c hc
    exact ⟨houter.trans hwithin.depth_lt, hstart.trans hwithin.start_le, hwithin.le_stop⟩

end Returned

theorem bodyBounded_leaf {input : Bytes} {depth start exit : ℕ} {result : ParseResult}
    (hstart : start ≤ exit) (hexit : exit ≤ input.length)
    (hok : ∀ v n, result = .ok v n → n = exit ∧ v.elements = []) :
    BodyBounded input depth start result { exit := exit, result := result } where
  result_eq := rfl
  start_le := hstart
  exit_le := hexit
  ok := by
    intro v n h
    obtain ⟨hn, hv⟩ := hok v n h
    obtain ⟨type, string, integer, elements, isNull⟩ := v
    subst hv
    exact ⟨hn, rfl, hstart⟩
  inner := by simp
  within := by simp
  sorted := .nil
  stops := by simp
  inner_le := hstart.trans (Nat.le_add_right _ 3)
  reserved_le := Nat.zero_le _
  rounds_le := hstart.trans (Nat.le_add_right _ 3)

theorem bodyBounded_value {input : Bytes} {depth start exit : ℕ} {v : RespValue}
    (hstart : start ≤ exit) (hexit : exit ≤ input.length) (hv : v.elements = []) :
    BodyBounded input depth start (.ok v exit) { exit := exit, result := .ok v exit } := by
  refine bodyBounded_leaf hstart hexit fun w n h => ?_
  cases h
  exact ⟨rfl, hv⟩

/-- A call is bounded when the rest of it is, from behind a header line of three bytes. -/
theorem BodyBounded.returned {input : Bytes} {depth entry start : ℕ} {r : Returned}
    (h : BodyBounded input depth start (parseValue input (kMaxDepth + 1 - depth) entry) r)
    (hdepth : depth ≤ kMaxDepth) (hstart : entry + 3 ≤ start) : r.Bounded input depth entry where
  call := {
    depth_le := hdepth.trans (Nat.le_succ _)
    entry_le := by
      have := h.start_le
      change entry ≤ r.exit
      omega
    exit_le := h.exit_le
    result_eq := h.result_eq
    ok := by
      intro v n hv
      obtain ⟨hn, hcount, hle⟩ := h.ok v n hv
      refine ⟨hn, ?_, ?_⟩
      · change entry + 3 ≤ r.exit
        omega
      · rw [hcount]
        change r.inner.length + 1 ≤ (r.exit - entry) / 3
        omega
    reserved_le := h.reserved_le.trans (Nat.sub_le_sub_left (by change entry ≤ start; omega) _)
    rounds_le := by
      have := h.rounds_le
      change r.rounds ≤ (r.exit - entry) / 3
      omega }
  inner := h.inner
  within := by
    intro c hc
    have hwithin := h.within c hc
    exact ⟨hwithin.depth_lt, by have := hwithin.start_le; omega, hwithin.le_stop⟩
  sorted := h.sorted
  stops := h.stops
  inner_le := by
    have := h.inner_le
    omega
  ok_inner := fun v n hv => (h.ok v n hv).2.1

/-- A call that gives no value before it has read a header line. -/
theorem bounded_early {input : Bytes} {depth entry exit : ℕ} {result : ParseResult}
    (hdepth : depth ≤ kMaxDepth + 1) (hentry : entry ≤ exit) (hexit : exit ≤ input.length)
    (hresult : result = parseValue input (kMaxDepth + 1 - depth) entry)
    (hnone : ∀ v n, result ≠ .ok v n) :
    Returned.Bounded input depth entry { exit := exit, result := result } where
  call := {
    depth_le := hdepth
    entry_le := hentry
    exit_le := hexit
    result_eq := hresult
    ok := fun v n hv => absurd hv (hnone v n)
    reserved_le := Nat.zero_le _
    rounds_le := Nat.zero_le _ }
  inner := by simp
  within := by simp
  sorted := .nil
  stops := by simp
  inner_le := Nat.zero_le _
  ok_inner := fun v n hv => absurd hv (hnone v n)

theorem readLine_bounds {input line : Bytes} {pos next : ℕ} (h : readLine input pos = .ok line next) :
    pos + 2 ≤ next ∧ next ≤ input.length := by
  obtain ⟨-, -, hnext, rest, hrest⟩ := readLine_ok_spec h
  have hlength := congrArg List.length hrest
  simp only [List.length_drop, List.length_append, length_crlf] at hlength
  omega

section Memory
variable {input : Bytes} (hinput : FitsMemory input)
include hinput

/-- Whatever length the header carries. -/
theorem bulkChecked_spec {length : ℤ} (hlength : InInt64 length) {depth pos : ℕ}
    (hpos : pos ≤ input.length) :
    ∃ r, bulkChecked input length pos = some r ∧
      BodyBounded input depth pos (parseBulk input length pos) r := by
  unfold bulkChecked parseBulk
  by_cases hnull : length = -1
  · simp only [if_pos hnull]
    exact ⟨_, rfl, bodyBounded_value le_rfl hpos rfl⟩
  by_cases hneg : length < -1
  · simp only [if_neg hnull, if_pos hneg]
    exact ⟨_, rfl, bodyBounded_leaf le_rfl hpos nofun⟩
  have hmax : length ≤ 9223372036854775807 := hlength.2
  have hsize : sizeT length = some length.toNat := sizeT_eq (by omega) (by omega)
  have hneeded : sizeT (length.toNat + 2) = some (length.toNat + 2) :=
    sizeT_eq (by omega) (by omega)
  rw [if_neg hnull, if_neg hneg, if_neg hnull, if_neg hneg, bind_of_eq_some hsize,
    bind_of_eq_some hneeded, bind_of_eq_some (sizeT_remaining hinput hpos)]
  by_cases hfit : input.length - pos < length.toNat + 2
  · rw [if_pos hfit, if_pos hfit]
    exact ⟨_, rfl, bodyBounded_leaf le_rfl hpos nofun⟩
  have hterminated := @terminatedChecked_eq input hinput pos length.toNat (by omega)
  rw [if_neg hfit, if_neg hfit, bind_of_eq_some hterminated]
  by_cases hcrlf : input[pos + length.toNat]? = some cr ∧ input[pos + length.toNat + 1]? = some lf
  · have hdata : substrChecked input pos length.toNat = some (substr input pos length.toNat) :=
      if_pos (by omega)
    have hnext := sizeT_inside hinput (n := (pos : ℤ) + (length.toNat + 2 : ℕ))
      (m := pos + (length.toNat + 2)) (by omega) (by omega)
    have hboth : ¬ (input[pos + length.toNat]? ≠ some cr ∨
        input[pos + length.toNat + 1]? ≠ some lf) := by
      rwa [not_or, not_not, not_not]
    rw [if_neg (by simp [hcrlf]), bind_of_eq_some hdata, bind_of_eq_some hnext, if_neg hboth]
    exact ⟨_, rfl, bodyBounded_value (by omega) (by omega) rfl⟩
  · have hneither := hcrlf
    rw [not_and_or] at hneither
    rw [if_pos (by simp [hcrlf]), if_pos hneither]
    exact ⟨_, rfl, bodyBounded_leaf le_rfl hpos nofun⟩

end Memory

end RedisLite.CheckedParser
