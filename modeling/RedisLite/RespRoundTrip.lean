import RedisLite.RespGrammar

/-!
# Decoding undoes encoding

A value that can be put on the wire is serialized to a sentence of the grammar, so the parser finds
it; a value that nests too deep is found out at the first header that is too deep, whatever the
elements before it.
-/

namespace RedisLite.Resp
open ByteStrings IncrementalDecoding

/-- The values a program can build with the `make_` functions and put on the wire: a line holds no
CR or LF, and sizes and numbers are 64-bit. -/
inductive Canonical : RespValue → Prop where
  | simpleString {s : Bytes} (hcr : cr ∉ s) (hlf : lf ∉ s) : Canonical (makeSimpleString s)
  | error {s : Bytes} (hcr : cr ∉ s) (hlf : lf ∉ s) : Canonical (makeError s)
  | integer {n : ℤ} (hn : InInt64 n) : Canonical (makeInteger n)
  | bulkString {s : Bytes} (hlen : (s.length : ℤ) ≤ maxInt64) : Canonical (makeBulkString s)
  | nullBulkString : Canonical makeNullBulkString
  | array {es : List RespValue} (hlen : (es.length : ℤ) ≤ maxInt64)
      (hes : ∀ e ∈ es, Canonical e) : Canonical (makeArray es)
  | nullArray : Canonical { makeArray [] with isNull := true }

mutual

/-- Nesting levels of a value: one for itself and those of its deepest element. -/
def RespValue.depth : RespValue → ℕ
  | ⟨_, _, _, es, _⟩ => 1 + depthElements es

def depthElements : List RespValue → ℕ
  | [] => 0
  | e :: es => max e.depth (depthElements es)

end

theorem depth_makeArray (es : List RespValue) : (makeArray es).depth = 1 + depthElements es := rfl

theorem depth_pos (v : RespValue) : 0 < v.depth := by
  cases v
  simp only [RespValue.depth]
  omega

theorem numeral_length {n : ℕ} (h : (n : ℤ) ≤ maxInt64) : Numeral (natDecimal n) n :=
  numeral_natDecimal ⟨by simp only [minInt64]; omega, h⟩

theorem depth_le_of_mem {es : List RespValue} {e : RespValue} (h : e ∈ es) :
    e.depth ≤ depthElements es := by
  induction es with
  | nil => simp at h
  | cons e' es ih =>
    rw [depthElements]
    rcases List.mem_cons.mp h with rfl | hmem
    · exact le_max_left _ _
    · exact (ih hmem).trans (le_max_right _ _)

theorem spelled_of_forall {Element : RespValue → Bytes → Prop} {es : List RespValue}
    (h : ∀ e ∈ es, Element e (serialize e)) : Spelled Element es (serializeElements es) := by
  induction es with
  | nil => exact .nil
  | cons e es ih =>
    rw [serializeElements]
    exact .cons (h e List.mem_cons_self) (ih fun e' he' => h e' (List.mem_cons_of_mem e he'))

theorem Canonical.derives {levels : ℕ} {v : RespValue} (hv : Canonical v) (hd : v.depth ≤ levels) :
    Derives levels v (serialize v) := by
  induction levels generalizing v with
  | zero => exact absurd hd (Nat.not_le_of_lt (depth_pos v))
  | succ levels ih =>
    cases hv with
    | simpleString hcr hlf => exact .simpleString hcr hlf
    | error hcr hlf => exact .error hcr hlf
    | integer hn => exact .integer (numeral_intDecimal hn)
    | nullBulkString =>
      rw [serialize_makeNullBulkString]
      exact .nullBulkString (numeral_intDecimal (by decide))
    | nullArray =>
      rw [serialize_nullArray]
      exact .nullArray (numeral_intDecimal (by decide))
    | bulkString hlen =>
      rw [serialize_makeBulkString]
      exact .bulkString (numeral_length hlen)
    | array hlen hes =>
      rw [depth_makeArray] at hd
      rw [serialize_makeArray]
      exact .array (numeral_length hlen) (spelled_of_forall fun e he =>
        ih (hes e he) ((depth_le_of_mem he).trans (by omega)))

/-- Elements before the first one that is too deep parse; that one stops the loop. -/
theorem parseElements_deep {input : Bytes} {levels : ℕ} {es : List RespValue}
    (hes : ∀ e ∈ es, Canonical e) (hd : levels < depthElements es)
    (hdeep : ∀ e ∈ es, levels < e.depth → ∀ pos t, input.drop pos = serialize e ++ t →
      parseValue input levels pos = .malformed nestingError)
    {pos : ℕ} {t : Bytes} (h : input.drop pos = serializeElements es ++ t) :
    parseElements (parseValue input levels) es.length pos = .malformed nestingError := by
  induction es generalizing pos with
  | nil => simp [depthElements] at hd
  | cons e es ih =>
    rw [serializeElements, List.append_assoc] at h
    simp only [List.length_cons, parseElements]
    by_cases he : levels < e.depth
    · rw [hdeep e List.mem_cons_self he pos _ h]
    · have hhead := parseValue_derives ((hes e List.mem_cons_self).derives (Nat.le_of_not_lt he)) h
      have hrest : levels < depthElements es := by
        rw [depthElements] at hd
        omega
      have htail := ih (fun e' he' => hes e' (List.mem_cons_of_mem e he')) hrest
        (fun e' he' => hdeep e' (List.mem_cons_of_mem e he')) (drop_add_of_drop h)
      rw [hhead]
      simp only [htail]

theorem parseValue_deep {levels : ℕ} {v : RespValue} (hv : Canonical v) (hd : levels < v.depth)
    {input t : Bytes} {pos : ℕ} (h : input.drop pos = serialize v ++ t) :
    parseValue input levels pos = .malformed nestingError := by
  induction levels generalizing v pos t with
  | zero => rfl
  | succ levels ih =>
    cases hv with
    | @array es hlen hes =>
      rw [depth_makeArray] at hd
      rw [serialize_makeArray, List.cons_append, List.append_assoc] at h
      obtain ⟨hvalue, hpayload⟩ := parseValue_array levels (numeral_length hlen) h
      have helements := parseElements_deep hes (by omega)
        (fun e he hdeep pos' t' h' => ih (hes e he) hdeep h') hpayload
      rw [hvalue, helements, Verdict.map]
    -- every other value is one level deep
    | _ => simp [makeSimpleString, makeError, makeInteger, makeBulkString, makeNullBulkString,
        makeArray, RespValue.depth, depthElements] at hd

theorem parse_canonical {v : RespValue} (hv : Canonical v) (hd : v.depth ≤ kMaxDepth) (t : Bytes) :
    parse (serialize v ++ t) = .ok v (serialize v).length := by
  have hdrop : (serialize v ++ t).drop 0 = serialize v ++ t := rfl
  have h := parseValue_derives (hv.derives hd) hdrop
  rwa [Nat.zero_add] at h

/-- `parse` gives back a serialized value and its length, and rejects a value that nests too
deep, whatever bytes follow. -/
theorem parse_serialize {v : RespValue} (hv : Canonical v) (t : Bytes) :
    (v.depth ≤ kMaxDepth → parse (serialize v ++ t) = .ok v (serialize v).length) ∧
      (kMaxDepth < v.depth → parse (serialize v ++ t) = .malformed nestingError) := by
  have hdrop : (serialize v ++ t).drop 0 = serialize v ++ t := rfl
  exact ⟨fun hd => parse_canonical hv hd t, fun hd => parseValue_deep hv hd hdrop⟩

/-- A payload that looks like RESP text, a negative number and a null come back as they were. -/
theorem parse_serialize_binary :
    parse (serialize (makeArray [makeBulkString (text "$1\r\n"), makeInteger (-7),
        makeNullBulkString]) ++ text "+OK") =
      .ok (makeArray [makeBulkString (text "$1\r\n"), makeInteger (-7), makeNullBulkString]) 24 := by
  have hcanonical : Canonical (makeArray [makeBulkString (text "$1\r\n"), makeInteger (-7),
      makeNullBulkString]) := by
    refine .array (by decide) (fun e he => ?_)
    rcases List.mem_cons.mp he with rfl | he
    · exact .bulkString (by decide)
    · rcases List.mem_cons.mp he with rfl | he
      · exact .integer (by decide)
      · rw [List.mem_singleton.mp he]
        exact .nullBulkString
  exact (parse_serialize hcanonical _).1 (by decide)

end RedisLite.Resp
