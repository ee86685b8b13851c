import RedisLite.CheckedCalls

/-!
# The parser stays inside its input

No call reads outside the input, lets a size wrap around or runs for ever. The element loop is
bounded by a count that the input carries, up to the largest number there is; it ends with the input
at the latest, since every element that is a value has cost three bytes.
-/

namespace RedisLite.CheckedParser
open ByteStrings IncrementalDecoding Resp CheckedArithmetic LoopVariants

theorem parseElements_ok {element : ℕ → ParseResult} {pos next : ℕ} {v : RespValue}
    (h : element pos = .ok v next) (count : ℕ) :
    parseElements element (count + 1) pos = (parseElements element count next).map (v :: ·) := by
  simp only [parseElements, h]
  cases parseElements element count next <;> rfl

/-- Before each round: the elements so far with those still to come are the elements of the array,
and every element so far has cost three bytes for each of its values. -/
structure ElementLoop.Inv (input : Bytes) (element : ℕ → ParseResult) (depth start : ℕ) (count : ℤ)
    (s : ElementLoop) : Prop where
  i_eq : s.i = s.elements.length
  i_le : s.i ≤ count
  start_le : start + 3 * s.inner.length ≤ s.pos
  pos_le : s.pos ≤ input.length
  inner_eq : s.inner.length = valueCounts s.elements
  inner : ∀ c ∈ s.inner, c.Bounded input ∧ c.IsOk
  within : ∀ c ∈ s.inner, c.Within depth start s.pos
  sorted : s.inner.Pairwise Call.Before
  result_eq : parseElements element count.toNat start =
    (parseElements element (count - s.i).toNat s.pos).map (s.elements ++ ·)

section Loop
variable {input : Bytes} {element : ℕ → ParseResult} {depth start : ℕ} {count : ℤ} {s : ElementLoop}

theorem ElementLoop.Inv.rounds_le (hs : s.Inv input element depth start count) :
    start + 3 * s.i.toNat ≤ s.pos := by
  have hlength := length_le_valueCounts s.elements
  have hcalls := hs.inner_eq
  have hi := hs.i_eq
  have hstart := hs.start_le
  omega

theorem ElementLoop.Inv.finished (hs : s.Inv input element depth start count)
    (h : ¬ s.i < count) :
    BodyBounded input depth start ((parseElements element count.toNat start).map makeArray)
      { exit := s.pos, result := .ok (makeArray s.elements) s.pos, rounds := s.i.toNat,
        inner := s.inner } where
  result_eq := by
    have hzero : (count - s.i).toNat = 0 := by omega
    rw [hs.result_eq, hzero]
    simp only [parseElements, Verdict.map, List.append_nil]
  start_le := (Nat.le_add_right _ _).trans hs.start_le
  exit_le := hs.pos_le
  ok := by
    intro v n hv
    cases hv
    exact ⟨rfl, by rw [makeArray, valueCount, hs.inner_eq], hs.start_le⟩
  inner := fun c hc => (hs.inner c hc).1
  within := hs.within
  sorted := hs.sorted
  stops := fun c hc => Or.inl (hs.inner c hc).2
  inner_le := hs.start_le.trans (Nat.le_add_right _ 3)
  reserved_le := Nat.zero_le _
  rounds_le := hs.rounds_le.trans (Nat.le_add_right _ 3)

/-- The calls of an element come behind those of the elements before it. -/
theorem ElementLoop.Inv.append (hs : s.Inv input element depth start count) {r : Returned}
    (hr : r.Bounded input (depth + 1) s.pos) :
    (∀ c ∈ s.inner ++ r.calls (depth + 1) s.pos, c.Bounded input) ∧
      (∀ c ∈ s.inner ++ r.calls (depth + 1) s.pos, c.Within depth start r.exit) ∧
      (s.inner ++ r.calls (depth + 1) s.pos).Pairwise Call.Before := by
  have hstart : start ≤ s.pos := (Nat.le_add_right _ _).trans hs.start_le
  have hbehind := hr.calls_within (Nat.lt_succ_self depth) hstart
  refine ⟨?_, ?_, List.pairwise_append.mpr ⟨hs.sorted, hr.calls_sorted, ?_⟩⟩
  · intro c hc
    rcases List.mem_append.mp hc with hc | hc
    · exact (hs.inner c hc).1
    · exact hr.calls c hc
  · intro c hc
    rcases List.mem_append.mp hc with hc | hc
    · have hwithin := hs.within c hc
      exact ⟨hwithin.depth_lt, hwithin.start_le, hwithin.le_stop.trans hr.entry_le⟩
    · exact hbehind c hc
  · intro c hc c' hc'
    obtain ⟨hbounded, hok⟩ := hs.inner c hc
    have hentry := hbounded.entry_le.trans (hs.within c hc).le_stop
    exact ⟨hentry.trans (hr.calls_within (Nat.lt_succ_self depth) le_rfl c' hc').start_le, Or.inl hok⟩

theorem ElementLoop.Inv.next (hs : s.Inv input element depth start count)
    (h : s.i < count) {r : Returned} (hr : r.Bounded input (depth + 1) s.pos)
    (helement : r.result = element s.pos) {v : RespValue} {n : ℕ} (hok : r.result = .ok v n) :
    ElementLoop.Inv input element depth start count
        ⟨s.i + 1, r.exit, s.elements ++ [v], s.inner ++ r.calls (depth + 1) s.pos⟩ ∧
      s.pos + 3 ≤ r.exit := by
  obtain ⟨hn, hcost, hvalues⟩ := hr.call.ok v n hok
  change n = r.exit at hn
  change s.pos + 3 ≤ r.exit at hcost
  change valueCount v ≤ (r.exit - s.pos) / 3 at hvalues
  have hcount := hr.ok_inner v n hok
  have hlength : (s.inner ++ r.calls (depth + 1) s.pos).length = s.inner.length + valueCount v := by
    rw [List.length_append, Returned.calls, List.length_cons, hcount]
  obtain ⟨hbounded, hwithin, hsorted⟩ := hs.append hr
  refine ⟨⟨?_, ?_, ?_, hr.exit_le, ?_, fun c hc => ⟨hbounded c hc, ?_⟩, hwithin, hsorted, ?_⟩,
    hcost⟩
  · simp [hs.i_eq]
  · exact Int.add_one_le_iff.mpr h
  · have hstart := hs.start_le
    change start + 3 * (s.inner ++ r.calls (depth + 1) s.pos).length ≤ r.exit
    rw [hlength]
    omega
  · change (s.inner ++ r.calls (depth + 1) s.pos).length = _
    rw [hlength, valueCounts_append, hs.inner_eq, valueCounts, valueCounts, Nat.add_zero]
  · rcases List.mem_append.mp hc with hc | hc
    · exact (hs.inner c hc).2
    · rcases hr.calls_stop c hc with hok' | hsame
      · exact hok'
      · exact ⟨v, n, hsame.trans hok⟩
  · have hsucc : (count - s.i).toNat = (count - (s.i + 1)).toNat + 1 := by omega
    rw [hs.result_eq, hsucc, parseElements_ok (helement ▸ hok), hn]
    cases parseElements element (count - (s.i + 1)).toNat r.exit <;>
      simp [Verdict.map, List.append_assoc]

/-- A round whose element is not complete leaves the loop with the verdict of the element. -/
theorem ElementLoop.Inv.stopped (hs : s.Inv input element depth start count)
    (h : s.i < count) {r : Returned} (hr : r.Bounded input (depth + 1) s.pos)
    (helement : r.result = element s.pos) (hnone : ∀ v n, r.result ≠ .ok v n) :
    BodyBounded input depth start ((parseElements element count.toNat start).map makeArray)
      { exit := r.exit, result := r.result, rounds := s.i.toNat + 1,
        inner := s.inner ++ r.calls (depth + 1) s.pos } where
  result_eq := by
    have hsucc : (count - s.i).toNat = (count - (s.i + 1)).toNat + 1 := by omega
    rw [hs.result_eq, hsucc, parseElements, ← helement]
    cases hresult : r.result with
    | ok v n => exact absurd hresult (hnone v n)
    | incomplete => rfl
    | malformed e => rfl
  start_le := ((Nat.le_add_right _ _).trans hs.start_le).trans hr.entry_le
  exit_le := hr.exit_le
  ok := fun v n hv => absurd hv (hnone v n)
  inner := (hs.append hr).1
  within := (hs.append hr).2.1
  sorted := (hs.append hr).2.2
  stops := by
    intro c hc
    rcases List.mem_append.mp hc with hc | hc
    · exact Or.inl (hs.inner c hc).2
    · exact hr.calls_stop c hc
  inner_le := by
    have hstart := hs.start_le
    have hinner := hr.inner_le
    have hentry := hr.entry_le
    simp only [List.length_append, Returned.calls, List.length_cons]
    omega
  reserved_le := Nat.zero_le _
  rounds_le := by
    have hrounds := hs.rounds_le
    have hentry := hr.entry_le
    change start + 3 * (s.i.toNat + 1) ≤ r.exit + 3
    omega

/-- One round, where every element is parsed inside the input. -/
theorem elementRound_spec {run : ℕ → Option Returned} (hcount : count ≤ maxInt64)
    (hrun : ∀ pos, start ≤ pos → pos ≤ input.length →
      ∃ r, run pos = some r ∧ r.Bounded input (depth + 1) pos ∧ r.result = element pos)
    (hs : s.Inv input element depth start count) :
    ∃ o, elementRound run depth count s = some o ∧
      o.Meets (ElementLoop.Inv input element depth start count) (fun s => input.length - s.pos)
        (input.length - s.pos)
        (BodyBounded input depth start ((parseElements element count.toNat start).map makeArray)) := by
  have hstart : start ≤ s.pos := (Nat.le_add_right _ _).trans hs.start_le
  obtain ⟨r, hr, hbounded, helement⟩ := hrun s.pos hstart hs.pos_le
  by_cases hlt : s.i < count
  · rw [elementRound, if_pos hlt, bind_of_eq_some hr]
    cases hresult : r.result with
    | ok v n =>
      have hnext : checked InInt64 (s.i + 1) = some (s.i + 1) := by
        have := hs.i_eq
        exact checked_of ⟨by unfold minInt64; omega, by omega⟩
      obtain ⟨hinv, hcost⟩ := hs.next hlt hbounded helement hresult
      have hexit := hbounded.exit_le
      refine ⟨_, bind_of_eq_some hnext _, hinv, ?_⟩
      change input.length - r.exit < input.length - s.pos
      omega
    | incomplete => exact ⟨_, rfl, hresult ▸ hs.stopped hlt hbounded helement (by simp [hresult])⟩
    | malformed e => exact ⟨_, rfl, hresult ▸ hs.stopped hlt hbounded helement (by simp [hresult])⟩
  · rw [elementRound, if_neg hlt]
    exact ⟨_, rfl, hs.finished hlt⟩

/-- Whatever count the header carries. -/
theorem arrayChecked_spec {run : ℕ → Option Returned} (hinput : FitsMemory input)
    (hcount : InInt64 count) (hstart : start ≤ input.length) {fuel : ℕ}
    (hfuel : input.length - start < fuel)
    (hrun : ∀ pos, start ≤ pos → pos ≤ input.length →
      ∃ r, run pos = some r ∧ r.Bounded input (depth + 1) pos ∧ r.result = element pos) :
    ∃ r, arrayChecked input run fuel depth count start = some r ∧
      BodyBounded input depth start (parseArray element count start) r := by
  unfold arrayChecked parseArray
  by_cases hnull : count = -1
  · rw [if_pos hnull, if_pos hnull]
    exact ⟨_, rfl, bodyBounded_value le_rfl hstart rfl⟩
  by_cases hneg : count < -1
  · rw [if_neg hnull, if_pos hneg, if_neg hnull, if_pos hneg]
    exact ⟨_, rfl, bodyBounded_leaf le_rfl hstart nofun⟩
  have hmax : count ≤ 9223372036854775807 := hcount.2
  have hwanted : sizeT count = some count.toNat := sizeT_eq (by omega) (by omega)
  have hinit : ElementLoop.Inv input element depth start count ⟨0, start, [], []⟩ := by
    refine ⟨rfl, by change 0 ≤ count; omega, le_rfl, hstart, rfl, by simp, by simp, .nil, ?_⟩
    rw [Int.sub_zero]
    cases parseElements element count.toNat start <;> rfl
  obtain ⟨r, hr, hbody⟩ := runLoop_spec (fun s : ElementLoop => input.length - s.pos)
    (fun s hs => elementRound_spec hcount.2 hrun hs) hinit hfuel
  rw [if_neg hnull, if_neg hneg, if_neg hnull, if_neg hneg, bind_of_eq_some hwanted,
    bind_of_eq_some (sizeT_remaining hinput hstart), bind_of_eq_some hr]
  exact ⟨_, rfl, { hbody with reserved_le := min_le_right _ _ }⟩

end Loop

section Calls
variable {input : Bytes} (hinput : FitsMemory input)
include hinput

theorem bodyChecked_spec {run : ℕ → Option Returned} {element : ℕ → ParseResult} {fuel depth : ℕ}
    (type : RespType) (line : Bytes) {start : ℕ} (hstart : start ≤ input.length)
    (hfuel : input.length - start < fuel)
    (hrun : ∀ pos, start ≤ pos → pos ≤ input.length →
      ∃ r, run pos = some r ∧ r.Bounded input (depth + 1) pos ∧ r.result = element pos) :
    ∃ r, bodyChecked input run fuel depth type line start = some r ∧
      BodyBounded input depth start (parseBody input element type line start) r := by
  have hvalue {v : RespValue} (hv : v.elements = []) :
      ∃ r : Returned, some { exit := start, result := .ok v start } = some r ∧
        BodyBounded input depth start (.ok v start) r :=
    ⟨_, rfl, bodyBounded_value le_rfl hstart hv⟩
  have herror (e : Bytes) :
      ∃ r : Returned, some { exit := start, result := .malformed e } = some r ∧
        BodyBounded input depth start (.malformed e) r :=
    ⟨_, rfl, bodyBounded_leaf le_rfl hstart (by simp)⟩
  unfold bodyChecked parseBody
  cases type with
  | simpleString => exact hvalue rfl
  | error => exact hvalue rfl
  | integer =>
    cases toInteger line with
    | none => exact herror _
    | some number => exact hvalue rfl
  | bulkString =>
    cases hlength : toInteger line with
    | none => exact herror _
    | some length => exact bulkChecked_spec hinput (toInteger_eq_some_iff.mp hlength).2 hstart
  | array =>
    cases hcount : toInteger line with
    | none => exact herror _
    | some count =>
      exact arrayChecked_spec hinput (toInteger_eq_some_iff.mp hcount).2 hstart hfuel hrun

/-- Every call is defined and bounded. The fuel it needs is the rest of the input and the levels of
nesting that are left: a nested call has a level less, a round of the loop has less input. -/
theorem parseValueChecked_spec {fuel depth pos : ℕ} (hdepth : depth ≤ kMaxDepth + 1)
    (hpos : pos ≤ input.length) (hfuel : input.length - pos + (kMaxDepth + 1 - depth) < fuel) :
    ∃ r, parseValueChecked input fuel depth pos = some r ∧ r.Bounded input depth pos := by
  induction fuel generalizing depth pos with
  | zero => omega
  | succ fuel ih =>
    rw [parseValueChecked]
    by_cases hdeep : depth > kMaxDepth
    · have hlevels : kMaxDepth + 1 - depth = 0 := by omega
      rw [if_pos hdeep]
      exact ⟨_, rfl, bounded_early hdepth le_rfl hpos (by rw [hlevels, parseValue]) (by simp)⟩
    have hlevels : kMaxDepth + 1 - depth = kMaxDepth - depth + 1 := by omega
    by_cases hend : pos ≥ input.length
    · have hget : input[pos]? = none := List.getElem?_eq_none hend
      rw [if_neg hdeep, if_pos hend]
      exact ⟨_, rfl, bounded_early hdepth le_rfl hpos (by simp only [hlevels, parseValue, hget])
        (by simp)⟩
    obtain ⟨b, hget⟩ : ∃ b, input[pos]? = some b := ⟨_, List.getElem?_eq_getElem (by omega)⟩
    have hnext := sizeT_inside hinput (n := (pos : ℤ) + 1) (m := pos + 1) (by omega) (by omega)
    rw [if_neg hdeep, if_neg hend, bind_of_eq_some hget, bind_of_eq_some hnext]
    -- a return without a header line leaves the position behind the prefix
    have hearly {result : ParseResult}
        (hresult : parseValue input (kMaxDepth + 1 - depth) pos = result)
        (hnone : ∀ v n, result ≠ .ok v n) :
        ∃ r : Returned, some { exit := pos + 1, result := result } = some r ∧
          r.Bounded input depth pos :=
      ⟨_, rfl, bounded_early hdepth (Nat.le_succ pos) (by omega) hresult.symm hnone⟩
    cases htype : typeOfPrefix b with
    | none => exact hearly (by simp only [hlevels, parseValue, hget, htype]) (by simp)
    | some type =>
      simp only [readLineChecked_eq hinput, Option.bind_eq_bind, Option.bind_some]
      cases hline : readLine input (pos + 1) with
      | incomplete => exact hearly (by simp only [hlevels, parseValue, hget, htype, hline]) (by simp)
      | malformed => exact hearly (by simp only [hlevels, parseValue, hget, htype, hline]) (by simp)
      | ok line start =>
        obtain ⟨hstart, hinside⟩ := readLine_bounds hline
        have hinner : kMaxDepth + 1 - (depth + 1) = kMaxDepth - depth := by omega
        have hrun : ∀ next, start ≤ next → next ≤ input.length →
            ∃ r, parseValueChecked input fuel (depth + 1) next = some r ∧
              r.Bounded input (depth + 1) next ∧
              r.result = parseValue input (kMaxDepth - depth) next := by
          intro next hle hnextPos
          have hless : input.length - next + (kMaxDepth + 1 - (depth + 1)) < fuel := by omega
          obtain ⟨r, hr, hbounded⟩ := ih (by omega) hnextPos hless
          exact ⟨r, hr, hbounded, hinner ▸ hbounded.call.result_eq⟩
        have hrounds : input.length - start < fuel := by omega
        obtain ⟨r, hr, hbody⟩ := bodyChecked_spec hinput type line hinside hrounds hrun
        refine ⟨r, hr, BodyBounded.returned ?_ (by omega) (by omega : pos + 3 ≤ start)⟩
        simpa only [hlevels, parseValue, hget, htype, hline] using hbody

end Calls

/-- The parser reads inside the input, no size wraps around, and it returns: its fuel is the length of
the input and the limit of the depth, not what a header announces. Every call it makes stays inside
the input, at most 129 deep, and costs three bytes of it, except for those that end the parse. -/
theorem parseChecked_bounded {input : Bytes} (h : FitsMemory input) :
    ∃ r : Returned, (∀ fuel, input.length + kMaxDepth < fuel → parseChecked fuel input = some r) ∧
      r.result = parse input ∧
      (∀ c ∈ r.calls 1 0, c.Bounded input ∧ (c.IsOk ∨ c.result = parse input)) ∧
      (r.calls 1 0).Pairwise Call.Before ∧
      (∀ v n, parse input = .ok v n → valueCount v = (r.calls 1 0).length) ∧
      (r.calls 1 0).length ≤ r.exit / 3 + 1 := by
  have hfuel : input.length - 0 + (kMaxDepth + 1 - 1) < input.length + kMaxDepth + 1 := by omega
  obtain ⟨r, hr, hbounded⟩ := parseValueChecked_spec h (by decide) (Nat.zero_le _) hfuel
  have hresult : r.result = parse input := hbounded.call.result_eq
  refine ⟨r, fun fuel hle => parseValueChecked_mono hle hr, hresult, ?_, hbounded.calls_sorted, ?_, ?_⟩
  · intro c hc
    exact ⟨hbounded.calls c hc, hresult ▸ hbounded.calls_stop c hc⟩
  · intro v n hok
    exact hbounded.ok_inner v n (hresult.trans hok)
  · have hinner := hbounded.inner_le
    change r.inner.length + 1 ≤ r.exit / 3 + 1
    omega

/-- A count and a length at the top of the range: the loop ends with the element that does not fit. -/
theorem parseChecked_bounded_huge :
    ∃ r : Returned,
      (∀ fuel, 176 < fuel →
        parseChecked fuel (text "*9223372036854775807\r\n:1\r\n$9223372036854775807\r\n") = some r) ∧
      r.result = .incomplete ∧ r.rounds = 2 ∧ (r.calls 1 0).length = 3 ∧
      ∀ c ∈ r.calls 1 0,
        c.Bounded (text "*9223372036854775807\r\n:1\r\n$9223372036854775807\r\n") := by
  obtain ⟨r, hfuel, hresult, hcalls, -⟩ := @parseChecked_bounded
    (text "*9223372036854775807\r\n:1\r\n$9223372036854775807\r\n") (by decide)
  have hrun : (parseChecked 177 (text "*9223372036854775807\r\n:1\r\n$9223372036854775807\r\n")).map
      (fun r => (r.rounds, (r.calls 1 0).length)) = some (2, 3) := by rfl
  rw [hfuel 177 (by decide)] at hrun
  obtain ⟨hrounds, hlength⟩ := Prod.mk.inj (Option.some.inj hrun)
  exact ⟨r, hfuel, hresult, hrounds, hlength, fun c hc => (hcalls c hc).1⟩

end RedisLite.CheckedParser
