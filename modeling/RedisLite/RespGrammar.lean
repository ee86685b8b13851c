import RedisLite.Resp

/-!
# The grammar of RESP2

Which bytes spell which value, said without a position, an end of the input or an order of checks.
A grammar is one production over the values that may stand inside an array; the levels of nesting
count how often the production is applied. The parser finds exactly the derivable front of an
input, so a front that is derivable is the only one.
-/

namespace RedisLite.Resp
open ByteStrings IncrementalDecoding

inductive Spelled (Element : RespValue → Bytes → Prop) : List RespValue → Bytes → Prop
  | nil : Spelled Element [] []
  | cons {v vs w ws} (head : Element v w) (tail : Spelled Element vs ws) :
      Spelled Element (v :: vs) (w ++ ws)

/-- A header line that stands for a number: decimal digits after an optional `-`, in range. -/
def Numeral (line : Bytes) (n : ℤ) : Prop := SignedDecimal line n ∧ InInt64 n

inductive Production (Element : RespValue → Bytes → Prop) : RespValue → Bytes → Prop
  | simpleString {line} (hcr : cr ∉ line) (hlf : lf ∉ line) :
      Production Element (makeSimpleString line) (byte '+' :: (line ++ crlf))
  | error {line} (hcr : cr ∉ line) (hlf : lf ∉ line) :
      Production Element (makeError line) (byte '-' :: (line ++ crlf))
  | integer {line n} (hn : Numeral line n) :
      Production Element (makeInteger n) (byte ':' :: (line ++ crlf))
  | bulkString {line s} (hn : Numeral line (s.length : ℤ)) :
      Production Element (makeBulkString s) (byte '$' :: (line ++ crlf ++ (s ++ crlf)))
  | nullBulkString {line} (hn : Numeral line (-1)) :
      Production Element makeNullBulkString (byte '$' :: (line ++ crlf))
  | array {line es w} (hn : Numeral line (es.length : ℤ)) (hes : Spelled Element es w) :
      Production Element (makeArray es) (byte '*' :: (line ++ crlf ++ w))
  | nullArray {line} (hn : Numeral line (-1)) :
      Production Element { makeArray [] with isNull := true } (byte '*' :: (line ++ crlf))

/-- The bytes spell the value, which nests at most so many levels deep. -/
def Derives : ℕ → RespValue → Bytes → Prop
  | 0, _, _ => False
  | levels + 1, v, w => Production (Derives levels) v w

theorem toInteger_numeral {line : Bytes} {n : ℤ} (h : Numeral line n) : toInteger line = some n :=
  toInteger_eq_some_iff.mpr h

theorem drop_add_of_drop {input w t : Bytes} {pos : ℕ} (h : input.drop pos = w ++ t) :
    input.drop (pos + w.length) = t := by
  rw [← List.drop_drop, h, List.drop_left]

theorem readLine_of_drop {input line rest : Bytes} {pos : ℕ} (hcr : cr ∉ line) (hlf : lf ∉ line)
    (h : input.drop pos = line ++ crlf ++ rest) :
    readLine input pos = .ok line (pos + line.length + 2) := by
  have hfind : findFrom input pos = some (line.length + pos) := by
    rw [findFrom, h, findCrlf_line hcr]
    rfl
  have hline : substr input pos (line.length + pos - pos) = line := by
    rw [substr, h, Nat.add_sub_cancel, List.append_assoc, List.take_left]
  simp only [readLine, hfind, hline, hcr, hlf, or_self, if_false]
  congr 1
  omega

/-- The prefix byte and the header line of a value. -/
theorem parseValue_of_drop (levels : ℕ) {input line rest : Bytes} {pos : ℕ} {b : UInt8}
    {type : RespType} (hb : typeOfPrefix b = some type) (hcr : cr ∉ line) (hlf : lf ∉ line)
    (h : input.drop pos = b :: (line ++ crlf ++ rest)) :
    parseValue input (levels + 1) pos =
        parseBody input (parseValue input levels) type line (pos + 1 + line.length + 2) ∧
      input.drop (pos + 1 + line.length + 2) = rest := by
  have hget : input[pos]? = some b := by
    rw [← List.head?_drop, h]
    rfl
  have hline : input.drop (pos + 1) = line ++ crlf ++ rest := by
    rw [← List.drop_drop, h]
    rfl
  constructor
  · simp only [parseValue, hget, hb, readLine_of_drop hcr hlf hline]
  · have hrest := drop_add_of_drop (w := line ++ crlf) hline
    simpa [Nat.add_assoc] using hrest

theorem parseValue_numeral (levels : ℕ) {input line rest : Bytes} {pos : ℕ} {b : UInt8}
    {type : RespType} {n : ℤ} (hb : typeOfPrefix b = some type) (hn : Numeral line n)
    (h : input.drop pos = b :: (line ++ crlf ++ rest)) :
    parseValue input (levels + 1) pos =
        parseBody input (parseValue input levels) type line (pos + 1 + line.length + 2) ∧
      input.drop (pos + 1 + line.length + 2) = rest :=
  parseValue_of_drop levels hb hn.1.cr_notMem hn.1.lf_notMem h

theorem parseBulk_of_drop {input s rest : Bytes} {pos : ℕ}
    (h : input.drop pos = s ++ crlf ++ rest) :
    parseBulk input s.length pos = .ok (makeBulkString s) (pos + (s.length + 2)) := by
  have hlen : input.length - pos = s.length + 2 + rest.length := by
    rw [← List.length_drop, h]
    simp [Nat.add_assoc]
  have hcr : input[pos + s.length]? = some cr := by
    rw [← List.getElem?_drop, h]
    simp [crlf]
  have hlf : input[pos + s.length + 1]? = some lf := by
    rw [Nat.add_assoc, ← List.getElem?_drop, h]
    simp [crlf]
  have hsub : substr input pos s.length = s := by
    rw [substr, h, List.append_assoc, List.take_left]
  have hneg : ¬ (s.length : ℤ) = -1 := by omega
  have hlt : ¬ (s.length : ℤ) < -1 := by omega
  have hneeded : ¬ input.length - pos < s.length + 2 := by omega
  simp only [parseBulk, hneg, hlt, if_false, Int.toNat_natCast, hneeded, hcr, hlf, hsub,
    ne_eq, not_true_eq_false, or_self]

/-- The header of an array leads to its element loop. -/
theorem parseValue_array (levels : ℕ) {input line rest : Bytes} {pos count : ℕ}
    (hn : Numeral line (count : ℤ)) (h : input.drop pos = byte '*' :: (line ++ crlf ++ rest)) :
    parseValue input (levels + 1) pos = (parseElements (parseValue input levels) count
        (pos + 1 + line.length + 2)).map makeArray ∧
      input.drop (pos + 1 + line.length + 2) = rest := by
  have hneg : ¬ (count : ℤ) = -1 := by omega
  have hlt : ¬ (count : ℤ) < -1 := by omega
  have htype : typeOfPrefix (byte '*') = some .array := rfl
  obtain ⟨hvalue, hrest⟩ := parseValue_numeral levels htype hn h
  refine ⟨?_, hrest⟩
  rw [hvalue]
  simp only [parseBody, toInteger_numeral hn, parseArray, hneg, hlt, if_false, Int.toNat_natCast]

theorem parseValue_bulk (levels : ℕ) {input line rest : Bytes} {pos : ℕ} {n : ℤ}
    (hn : Numeral line n) (h : input.drop pos = byte '$' :: (line ++ crlf ++ rest)) :
    parseValue input (levels + 1) pos = parseBulk input n (pos + 1 + line.length + 2) ∧
      input.drop (pos + 1 + line.length + 2) = rest := by
  have htype : typeOfPrefix (byte '$') = some .bulkString := rfl
  obtain ⟨hvalue, hrest⟩ := parseValue_numeral levels htype hn h
  exact ⟨by rw [hvalue]; simp only [parseBody, toInteger_numeral hn], hrest⟩

theorem parseElements_spelled {input : Bytes} {element : ℕ → ParseResult}
    {Element : RespValue → Bytes → Prop} (helement : ∀ {v w} pos t, Element v w →
      input.drop pos = w ++ t → element pos = .ok v (pos + w.length))
    {es : List RespValue} {w : Bytes} (h : Spelled Element es w) {pos : ℕ} {t : Bytes}
    (hdrop : input.drop pos = w ++ t) :
    parseElements element es.length pos = .ok es (pos + w.length) := by
  induction h generalizing pos with
  | nil => simp [parseElements]
  | cons head tail ih =>
    rw [List.append_assoc] at hdrop
    have hhead := helement pos _ head hdrop
    have htail := ih (drop_add_of_drop hdrop)
    simp only [List.length_cons, parseElements, hhead, htail, List.length_append, Nat.add_assoc]

/-- A derivable value is found wherever its bytes stand. -/
theorem parseValue_derives {levels : ℕ} {v : RespValue} {w : Bytes} (h : Derives levels v w)
    {input t : Bytes} {pos : ℕ} (hdrop : input.drop pos = w ++ t) :
    parseValue input levels pos = .ok v (pos + w.length) := by
  induction levels generalizing v w pos t with
  | zero => exact h.elim
  | succ levels ih =>
    cases h with
    | simpleString hcr hlf =>
      rw [List.cons_append] at hdrop
      rw [(parseValue_of_drop levels rfl hcr hlf hdrop).1]
      simp [parseBody, Nat.add_assoc, Nat.add_comm 1]
    | error hcr hlf =>
      rw [List.cons_append] at hdrop
      rw [(parseValue_of_drop levels rfl hcr hlf hdrop).1]
      simp [parseBody, Nat.add_assoc, Nat.add_comm 1]
    | integer hn =>
      rw [List.cons_append] at hdrop
      rw [(parseValue_numeral levels rfl hn hdrop).1]
      simp [parseBody, toInteger_numeral hn, Nat.add_assoc, Nat.add_comm 1]
    | nullBulkString hn =>
      rw [List.cons_append] at hdrop
      rw [(parseValue_numeral levels rfl hn hdrop).1]
      simp [parseBody, toInteger_numeral hn, parseBulk, Nat.add_assoc, Nat.add_comm 1]
    | nullArray hn =>
      rw [List.cons_append] at hdrop
      rw [(parseValue_numeral levels rfl hn hdrop).1]
      simp [parseBody, toInteger_numeral hn, parseArray, Nat.add_assoc, Nat.add_comm 1]
    | @bulkString line s hn =>
      rw [List.cons_append, List.append_assoc] at hdrop
      obtain ⟨hvalue, hpayload⟩ := parseValue_bulk levels hn hdrop
      rw [hvalue, parseBulk_of_drop hpayload]
      congr 1
      simp only [List.length_cons, List.length_append, length_crlf]
      omega
    | @array line es w hn hes =>
      rw [List.cons_append, List.append_assoc] at hdrop
      obtain ⟨hvalue, hpayload⟩ := parseValue_array levels hn hdrop
      rw [hvalue, parseElements_spelled (fun _ _ he hpos => ih he hpos) hes hpayload, Verdict.map]
      congr 1
      simp only [List.length_cons, List.length_append, length_crlf]
      omega

theorem readLine_ok_spec {input line : Bytes} {pos next : ℕ}
    (h : readLine input pos = .ok line next) :
    cr ∉ line ∧ lf ∉ line ∧ next = pos + line.length + 2 ∧
      ∃ rest, input.drop pos = line ++ crlf ++ rest := by
  simp only [readLine, findFrom] at h
  cases hfind : findCrlf (input.drop pos) with
  | none => simp [hfind] at h
  | some i =>
    simp only [hfind, Option.map_some] at h
    split at h
    · cases h
    · rename_i hclean
      obtain ⟨rest, hrest, hlen⟩ := findCrlf_some_spec hfind
      have hline : substr input pos (i + pos - pos) = (input.drop pos).take i := by
        rw [substr, Nat.add_sub_cancel]
      rw [hline] at h hclean
      cases h
      rw [not_or] at hclean
      exact ⟨hclean.1, hclean.2, by omega, rest, hrest⟩

/-- The bytes that were read for a value: they stand at its position and end where it ends. -/
def ReadAs (input : Bytes) (pos next : ℕ) (Spells : Bytes → Prop) : Prop :=
  ∃ w t, Spells w ∧ input.drop pos = w ++ t ∧ next = pos + w.length

theorem map_eq_ok {β γ ε : Type*} {f : β → γ} {r : Verdict β ε} {w : γ} {n : ℕ}
    (h : r.map f = .ok w n) : ∃ v, r = .ok v n ∧ f v = w := by
  cases r <;> cases h
  exact ⟨_, rfl, rfl⟩

theorem parseElements_sound {input : Bytes} {element : ℕ → ParseResult}
    {Element : RespValue → Bytes → Prop}
    (helement : ∀ {pos v next}, element pos = .ok v next → ReadAs input pos next (Element v))
    {count pos next : ℕ} {es : List RespValue} (h : parseElements element count pos = .ok es next) :
    es.length = count ∧ ReadAs input pos next (Spelled Element es) := by
  induction count generalizing pos next es with
  | zero =>
    cases h
    exact ⟨rfl, [], input.drop pos, .nil, rfl, rfl⟩
  | succ count ih =>
    simp only [parseElements] at h
    cases hv : element pos with
    | incomplete => simp [hv] at h
    | malformed e => simp [hv] at h
    | ok v mid =>
      cases hvs : parseElements element count mid with
      | incomplete => simp [hv, hvs] at h
      | malformed e => simp [hv, hvs] at h
      | ok vs last =>
        simp only [hv, hvs] at h
        cases h
        obtain ⟨w, t, hw, hdrop, rfl⟩ := helement hv
        obtain ⟨hlen, ws, t', hws, hdrop', rfl⟩ := ih hvs
        rw [drop_add_of_drop hdrop] at hdrop'
        refine ⟨by rw [List.length_cons, hlen], w ++ ws, t', .cons hw hws, ?_, ?_⟩
        · rw [hdrop, hdrop', List.append_assoc]
        · rw [List.length_append, Nat.add_assoc]

theorem parseBulk_sound {input : Bytes} {length : ℤ} {pos next : ℕ} {v : RespValue}
    (h : parseBulk input length pos = .ok v next) :
    (length = -1 ∧ v = makeNullBulkString ∧ next = pos) ∨
      ∃ s t, length = (s.length : ℤ) ∧ v = makeBulkString s ∧
        input.drop pos = s ++ crlf ++ t ∧ next = pos + (s.length + 2) := by
  simp only [parseBulk] at h
  split at h
  · rename_i hnull
    cases h
    exact Or.inl ⟨hnull, rfl, rfl⟩
  split at h
  · cases h
  split at h
  · cases h
  split at h
  · cases h
  rename_i hnull hneg hfit hcrlf
  cases h
  rw [not_or, not_not, not_not] at hcrlf
  obtain ⟨hcr, hlf⟩ := hcrlf
  have hlen : (substr input pos length.toNat).length = length.toNat := by
    rw [substr, List.length_take, List.length_drop]
    omega
  refine Or.inr ⟨substr input pos length.toNat, input.drop (pos + length.toNat + 2), ?_, rfl, ?_, ?_⟩
  · rw [hlen]
    omega
  · have hpair : input.drop (pos + length.toNat) =
        crlf ++ input.drop (pos + length.toNat + 2) := by
      rw [List.drop_eq_getElem?_toList_append, hcr, List.drop_eq_getElem?_toList_append, hlf]
      rfl
    rw [List.append_assoc, ← hpair, substr, ← List.drop_drop, List.take_append_drop]
  · rw [hlen]

def RespType.marker : RespType → UInt8
  | .simpleString => byte '+'
  | .error => byte '-'
  | .integer => byte ':'
  | .bulkString => byte '$'
  | .array => byte '*'

theorem typeOfPrefix_eq_some_iff {b : UInt8} {type : RespType} :
    typeOfPrefix b = some type ↔ b = type.marker := by
  constructor
  · intro h
    unfold typeOfPrefix at h
    split_ifs at h <;> cases h <;> assumption
  · rintro rfl
    cases type <;> rfl

@[simp] theorem typeOfPrefix_marker (type : RespType) : typeOfPrefix type.marker = some type :=
  typeOfPrefix_eq_some_iff.mpr rfl

theorem parseBody_sound {input : Bytes} {levels : ℕ} {type : RespType} {line : Bytes}
    {pos start next : ℕ} {v : RespValue} (hcr : cr ∉ line) (hlf : lf ∉ line)
    (hstart : start = pos + 1 + line.length + 2)
    (hdrop : input.drop pos = type.marker :: (line ++ crlf ++ input.drop start))
    (helement : ∀ {pos v next}, parseValue input levels pos = .ok v next →
      ReadAs input pos next (Derives levels v))
    (h : parseBody input (parseValue input levels) type line start = .ok v next) :
    ReadAs input pos next (Derives (levels + 1) v) := by
  -- a header line alone
  have hline (hprod : Production (Derives levels) v (type.marker :: (line ++ crlf)))
      (hnext : next = start) : ReadAs input pos next (Derives (levels + 1) v) := by
    refine ⟨_, input.drop start, hprod, hdrop, ?_⟩
    rw [hnext, hstart, List.length_cons, List.length_append, length_crlf]
    omega
  -- a header line and the bytes it announces
  have hcounted {w t : Bytes} (hprod : Production (Derives levels) v
      (type.marker :: (line ++ crlf ++ w))) (hrest : input.drop start = w ++ t)
      (hnext : next = start + w.length) : ReadAs input pos next (Derives (levels + 1) v) := by
    refine ⟨_, t, hprod, ?_, ?_⟩
    · rw [hdrop, hrest, List.cons_append, List.append_assoc (line ++ crlf)]
    · rw [hnext, hstart, List.length_cons, List.length_append, List.length_append, length_crlf]
      omega
  cases type with
  | simpleString =>
    cases h
    exact hline (.simpleString hcr hlf) rfl
  | error =>
    cases h
    exact hline (.error hcr hlf) rfl
  | integer =>
    cases hn : toInteger line <;> simp only [parseBody, hn] at h <;> cases h
    exact hline (.integer (toInteger_eq_some_iff.mp hn)) rfl
  | bulkString =>
    cases hn : toInteger line <;> simp only [parseBody, hn] at h
    · cases h
    have hnumeral := toInteger_eq_some_iff.mp hn
    rcases parseBulk_sound h with ⟨rfl, rfl, hnext⟩ | ⟨s, t, rfl, rfl, hrest, hnext⟩
    · exact hline (.nullBulkString hnumeral) hnext
    · exact hcounted (.bulkString hnumeral) hrest (by simpa using hnext)
  | array =>
    cases hn : toInteger line with
    | none =>
      simp only [parseBody, hn] at h
      cases h
    | some count =>
      simp only [parseBody, hn, parseArray] at h
      have hnumeral := toInteger_eq_some_iff.mp hn
      split at h
      · rename_i hnull
        cases h
        exact hline (.nullArray (hnull ▸ hnumeral)) rfl
      split at h
      · cases h
      rename_i hnull hneg
      obtain ⟨es, hes, rfl⟩ := map_eq_ok h
      obtain ⟨hlen, w, t, hw, hrest, hnext⟩ := parseElements_sound helement hes
      refine hcounted (.array ?_ hw) hrest hnext
      have hcount : (es.length : ℤ) = count := by
        rw [hlen]
        omega
      rwa [hcount]

/-- A value that is found is derivable from the bytes it was found in. -/
theorem parseValue_sound {input : Bytes} {levels pos next : ℕ} {v : RespValue}
    (h : parseValue input levels pos = .ok v next) :
    ReadAs input pos next (Derives levels v) := by
  induction levels generalizing pos next v with
  | zero => cases h
  | succ levels ih =>
    simp only [parseValue] at h
    cases hb : input[pos]? with
    | none => simp [hb] at h
    | some b =>
      cases htype : typeOfPrefix b with
      | none => simp [hb, htype] at h
      | some type =>
        cases hline : readLine input (pos + 1) with
        | incomplete => simp [hb, htype, hline] at h
        | malformed => simp [hb, htype, hline] at h
        | ok line start =>
          simp only [hb, htype, hline] at h
          obtain ⟨hcr, hlf, hstart, rest, hrest⟩ := readLine_ok_spec hline
          have hstart' : input.drop start = rest := by
            rw [hstart, Nat.add_assoc, ← length_crlf, ← List.length_append]
            exact drop_add_of_drop hrest
          refine parseBody_sound hcr hlf hstart ?_ ih h
          rw [List.drop_eq_getElem?_toList_append, hb, hrest, hstart',
            typeOfPrefix_eq_some_iff.mp htype]
          rfl

theorem serialize_makeBulkString (s : Bytes) :
    serialize (makeBulkString s) = byte '$' :: (natDecimal s.length ++ crlf ++ (s ++ crlf)) := by
  simp [makeBulkString, serialize]

theorem serialize_makeNullBulkString :
    serialize makeNullBulkString = byte '$' :: (intDecimal (-1) ++ crlf) := rfl

theorem serialize_nullArray :
    serialize { makeArray [] with isNull := true } = byte '*' :: (intDecimal (-1) ++ crlf) := rfl

theorem serialize_makeArray (es : List RespValue) :
    serialize (makeArray es) =
      byte '*' :: (natDecimal es.length ++ crlf ++ serializeElements es) := by
  simp [makeArray, serialize]

theorem numeral_intDecimal {n : ℤ} (h : InInt64 n) : Numeral (intDecimal n) n :=
  ⟨signedDecimal_intDecimal n, h⟩

theorem numeral_natDecimal {n : ℕ} (h : InInt64 n) : Numeral (natDecimal n) n :=
  numeral_intDecimal h

/-- Every value of the elements has a spelling by `serialize` that is no longer than this one. -/
theorem spelled_serializeElements {Element : RespValue → Bytes → Prop}
    (helement : ∀ {v w}, Element v w →
      Element v (serialize v) ∧ (serialize v).length ≤ w.length)
    {es : List RespValue} {w : Bytes} (h : Spelled Element es w) :
    Spelled Element es (serializeElements es) ∧ (serializeElements es).length ≤ w.length := by
  induction h with
  | nil => exact ⟨.nil, le_refl _⟩
  | cons head tail ih =>
    obtain ⟨hhead, hlen⟩ := helement head
    rw [serializeElements, List.length_append, List.length_append]
    exact ⟨.cons hhead ih.1, Nat.add_le_add hlen ih.2⟩

/-- Of all the spellings of a value, the one of `serialize` is the shortest. -/
theorem derives_serialize {levels : ℕ} {v : RespValue} {w : Bytes} (h : Derives levels v w) :
    Derives levels v (serialize v) ∧ (serialize v).length ≤ w.length := by
  induction levels generalizing v w with
  | zero => exact h.elim
  | succ levels ih =>
    cases h with
    | simpleString hcr hlf => exact ⟨.simpleString hcr hlf, le_refl _⟩
    | error hcr hlf => exact ⟨.error hcr hlf, le_refl _⟩
    | @integer line n hn =>
      refine ⟨.integer (numeral_intDecimal hn.2), ?_⟩
      change (byte ':' :: (intDecimal n ++ crlf)).length ≤ _
      simpa using hn.1.length_le
    | nullBulkString hn =>
      rw [serialize_makeNullBulkString]
      refine ⟨.nullBulkString (numeral_intDecimal hn.2), ?_⟩
      simpa using hn.1.length_le
    | nullArray hn =>
      rw [serialize_nullArray]
      refine ⟨.nullArray (numeral_intDecimal hn.2), ?_⟩
      simpa using hn.1.length_le
    | @bulkString line s hn =>
      rw [serialize_makeBulkString]
      refine ⟨.bulkString (numeral_natDecimal hn.2), ?_⟩
      have hlength := hn.1.length_le
      rw [intDecimal_natCast] at hlength
      simpa using hlength
    | @array line es w hn hes =>
      obtain ⟨hspelled, hle⟩ := spelled_serializeElements ih hes
      rw [serialize_makeArray]
      refine ⟨.array (numeral_natDecimal hn.2) hspelled, ?_⟩
      have hlength := hn.1.length_le
      rw [intDecimal_natCast] at hlength
      simp only [List.length_cons, List.length_append]
      omega

/-- A value is parsed exactly where a front of the input spells it. -/
theorem parse_eq_ok_iff {x : Bytes} {v : RespValue} {n : ℕ} :
    parse x = .ok v n ↔ n ≤ x.length ∧ Derives kMaxDepth v (x.take n) := by
  constructor
  · intro h
    obtain ⟨w, t, hw, hdrop, hnext⟩ := parseValue_sound h
    rw [Nat.zero_add] at hnext
    rw [List.drop_zero] at hdrop
    subst hnext hdrop
    exact ⟨by simp, by rwa [List.take_left]⟩
  · rintro ⟨hle, hw⟩
    have hparse := @parseValue_derives _ _ _ hw x (x.drop n) 0 (List.take_append_drop n x).symm
    rwa [List.length_take, Nat.min_eq_left hle, Nat.zero_add] at hparse

/-- `parse` accepts exactly the grammar: the derivable front of an input is the only one, and the
value it stands for is serialized to a spelling that is no longer. -/
theorem parse_grammar (x : Bytes) :
    (∀ v n, parse x = .ok v n ↔ n ≤ x.length ∧ Derives kMaxDepth v (x.take n)) ∧
      (∀ v n v' n', n ≤ x.length → Derives kMaxDepth v (x.take n) →
        n' ≤ x.length → Derives kMaxDepth v' (x.take n') → v = v' ∧ n = n') ∧
      ∀ v n, parse x = .ok v n →
        parse (serialize v) = .ok v (serialize v).length ∧ (serialize v).length ≤ n := by
  refine ⟨fun v n => parse_eq_ok_iff, fun v n v' n' hn hv hn' hv' => ?_, fun v n h => ?_⟩
  · have hparse := parse_eq_ok_iff.mpr ⟨hn, hv⟩
    have hparse' := parse_eq_ok_iff.mpr ⟨hn', hv'⟩
    rw [hparse] at hparse'
    exact Verdict.ok.inj hparse'
  · obtain ⟨hle, hw⟩ := parse_eq_ok_iff.mp h
    obtain ⟨hserialized, hlength⟩ := derives_serialize hw
    rw [List.length_take, Nat.min_eq_left hle] at hlength
    exact ⟨parse_eq_ok_iff.mpr ⟨le_refl _, by rwa [List.take_length]⟩, hlength⟩

/-- A count with a leading zero and a negative zero are accepted, and shortened by `serialize`. -/
theorem parse_grammar_long_numerals :
    Derives kMaxDepth (makeArray [makeInteger 0, makeBulkString (text "a")])
        ((text "*02\r\n:-0\r\n$1\r\na\r\n+rest").take 17) ∧
      parse (serialize (makeArray [makeInteger 0, makeBulkString (text "a")])) =
        .ok (makeArray [makeInteger 0, makeBulkString (text "a")]) 15 := by
  have hparse : parse (text "*02\r\n:-0\r\n$1\r\na\r\n+rest") =
      .ok (makeArray [makeInteger 0, makeBulkString (text "a")]) 17 := by rfl
  have h := parse_grammar (text "*02\r\n:-0\r\n$1\r\na\r\n+rest")
  exact ⟨((h.1 _ _).mp hparse).2, (h.2.2 _ _ hparse).1⟩

end RedisLite.Resp
