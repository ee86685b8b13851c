import RedisLite.RespStability

/-!
# Which unfinished inputs can be completed

`parse` answers `incomplete` as long as it has not found an error, and it looks for errors only in
a header line that has reached its CR LF and in a payload that has all its bytes. So there are
inputs that it waits on and that no bytes complete: a header line that cannot become one, a payload
with a wrong byte where its CR belongs, and an array whose pending element is such an input.
-/

namespace RedisLite.Resp
open ByteStrings IncrementalDecoding

/-- The lines that can follow the byte of a type, with so many levels left for array elements. -/
def HeaderLine (levels : ℕ) : RespType → Bytes → Prop
  | .simpleString, line | .error, line => cr ∉ line ∧ lf ∉ line
  | .integer, line => ∃ n, Numeral line n
  | .bulkString, line => ∃ n, Numeral line n ∧ -1 ≤ n
  | .array, line => ∃ n, Numeral line n ∧ -1 ≤ n ∧ (levels = 0 → n ≤ 0)

/-- The beginnings of header lines: nothing, a sign, a whole line, or a line and its CR. -/
def LineBegun (levels : ℕ) (type : RespType) (line : Bytes) : Prop :=
  line = [] ∨ line = [byte '-'] ∨ HeaderLine levels type line ∨
    ∃ start, line = start ++ [cr] ∧ HeaderLine levels type start

inductive StuckAt (levels : ℕ) (StuckElement : Bytes → Prop) : Bytes → Prop
  | line {type line} (hopen : findCrlf line = none) (hline : ¬ LineBegun levels type line) :
      StuckAt levels StuckElement (type.marker :: line)
  | payload {line s b} (hn : Numeral line (s.length : ℤ)) (hb : b ≠ cr) :
      StuckAt levels StuckElement (byte '$' :: (line ++ crlf ++ (s ++ [b])))
  | element {line es w rest} {count : ℕ} (hn : Numeral line (count : ℤ))
      (hes : Spelled (Derives levels) es w) (hcount : es.length < count)
      (hrest : StuckElement rest) :
      StuckAt levels StuckElement (byte '*' :: (line ++ crlf ++ (w ++ rest)))

/-- An input that breaks the grammar where the parser does not look yet: after complete elements of
the pending arrays, an open line that begins no header line, or a payload with a wrong byte. -/
def Stuck : ℕ → Bytes → Prop
  | 0, _ => False
  | levels + 1, w => StuckAt levels (Stuck levels) w

theorem HeaderLine.clean {levels : ℕ} {type : RespType} {line : Bytes}
    (h : HeaderLine levels type line) : cr ∉ line ∧ lf ∉ line := by
  cases type with
  | simpleString => exact h
  | error => exact h
  | integer =>
    obtain ⟨n, hn⟩ := h
    exact ⟨hn.1.cr_notMem, hn.1.lf_notMem⟩
  | bulkString =>
    obtain ⟨n, hn, -⟩ := h
    exact ⟨hn.1.cr_notMem, hn.1.lf_notMem⟩
  | array =>
    obtain ⟨n, hn, -⟩ := h
    exact ⟨hn.1.cr_notMem, hn.1.lf_notMem⟩

theorem Numeral.cut {a b : Bytes} {n : ℤ} (h : Numeral (a ++ b) n) (hne : a ≠ [])
    (hminus : a ≠ [byte '-']) : ∃ m, Numeral a m ∧ (0 ≤ m ∧ m ≤ n ∨ n ≤ m ∧ m ≤ 0) := by
  obtain ⟨hdecimal, hmin, hmax⟩ := h
  obtain ⟨m, hm, hbetween⟩ := hdecimal.cut hne hminus
  simp only [minInt64, maxInt64] at hmin hmax
  refine ⟨m, ⟨hm, ?_⟩, hbetween⟩
  simp only [InInt64, minInt64, maxInt64]
  omega

/-- The front of a header line is nothing, a sign or a header line. -/
theorem HeaderLine.cut {levels : ℕ} {type : RespType} {a b : Bytes}
    (h : HeaderLine levels type (a ++ b)) :
    a = [] ∨ a = [byte '-'] ∨ HeaderLine levels type a := by
  by_cases hne : a = []
  · exact Or.inl hne
  by_cases hminus : a = [byte '-']
  · exact Or.inr (Or.inl hminus)
  refine Or.inr (Or.inr ?_)
  have hclean := h.clean
  simp only [List.mem_append, not_or] at hclean
  cases type with
  | simpleString => exact ⟨hclean.1.1, hclean.2.1⟩
  | error => exact ⟨hclean.1.1, hclean.2.1⟩
  | integer =>
    obtain ⟨n, hn⟩ := h
    obtain ⟨m, hm, -⟩ := hn.cut hne hminus
    exact ⟨m, hm⟩
  | bulkString =>
    obtain ⟨n, hn, hle⟩ := h
    obtain ⟨m, hm, hbetween⟩ := hn.cut hne hminus
    exact ⟨m, hm, by omega⟩
  | array =>
    obtain ⟨n, hn, hle, hzero⟩ := h
    obtain ⟨m, hm, hbetween⟩ := hn.cut hne hminus
    exact ⟨m, hm, by omega, fun hlevels => by have := hzero hlevels; omega⟩

theorem headerLine_minusOne (levels : ℕ) (type : RespType) :
    HeaderLine levels type (intDecimal (-1)) := by
  have hn : Numeral (intDecimal (-1)) (-1) := numeral_intDecimal (by decide)
  cases type with
  | simpleString => exact ⟨hn.1.cr_notMem, hn.1.lf_notMem⟩
  | error => exact ⟨hn.1.cr_notMem, hn.1.lf_notMem⟩
  | integer => exact ⟨-1, hn⟩
  | bulkString => exact ⟨-1, hn, le_refl _⟩
  | array => exact ⟨-1, hn, le_refl _, fun _ => by decide⟩

/-- What begins a header line can be completed to one. -/
theorem LineBegun.complete {levels : ℕ} {type : RespType} {line : Bytes}
    (h : LineBegun levels type line) :
    ∃ full more, line ++ more = full ++ crlf ∧ HeaderLine levels type full := by
  have hminusOne := headerLine_minusOne levels type
  rcases h with rfl | rfl | hline | ⟨start, rfl, hstart⟩
  · exact ⟨intDecimal (-1), intDecimal (-1) ++ crlf, rfl, hminusOne⟩
  · exact ⟨_, natDecimal 1 ++ crlf, rfl, hminusOne⟩
  · exact ⟨line, crlf, rfl, hline⟩
  · exact ⟨start, [lf], by rw [List.append_assoc]; rfl, hstart⟩

theorem findCrlf_ne_none (a rest : Bytes) : findCrlf (a ++ crlf ++ rest) ≠ none := by
  induction a with
  | nil => simp [crlf, findCrlf]
  | cons b a ih =>
    rw [List.cons_append, List.cons_append, findCrlf_cons]
    split
    · exact Option.some_ne_none 0
    · simpa using ih

/-- A front of a header line and its CR LF, without the CR LF, begins a header line. -/
theorem HeaderLine.begun {levels : ℕ} {type : RespType} {full line rest z : Bytes}
    (h : HeaderLine levels type full) (hopen : findCrlf line = none)
    (heq : line ++ z = full ++ crlf ++ rest) : LineBegun levels type line := by
  rw [List.append_assoc] at heq
  rcases List.append_eq_append_iff.mp heq with ⟨a, rfl, -⟩ | ⟨c, rfl, hc⟩
  · rcases h.cut with hnil | hminus | hline
    · exact Or.inl hnil
    · exact Or.inr (Or.inl hminus)
    · exact Or.inr (Or.inr (Or.inl hline))
  · match c, hc with
    | [], _ => exact Or.inr (Or.inr (Or.inl (by rwa [List.append_nil])))
    | [b], hc =>
      obtain rfl : cr = b := (List.cons.inj hc).1
      exact Or.inr (Or.inr (Or.inr ⟨full, rfl, h⟩))
    | b :: b' :: c, hc =>
      obtain ⟨hb, htail⟩ := List.cons.inj hc
      obtain ⟨hb', -⟩ := List.cons.inj htail
      subst hb hb'
      have hfound := findCrlf_ne_none full c
      rw [List.append_assoc] at hfound
      exact absurd hopen hfound

theorem Production.header {levels : ℕ} {v : RespValue} {w : Bytes}
    (h : Production (Derives levels) v w) :
    ∃ type full rest, w = RespType.marker type :: (full ++ crlf ++ rest) ∧
      HeaderLine levels type full := by
  cases h with
  | @simpleString line hcr hlf => exact ⟨.simpleString, line, [], by simp; rfl, hcr, hlf⟩
  | @error line hcr hlf => exact ⟨.error, line, [], by simp; rfl, hcr, hlf⟩
  | @integer line n hn => exact ⟨.integer, line, [], by simp; rfl, n, hn⟩
  | @nullBulkString line hn => exact ⟨.bulkString, line, [], by simp; rfl, -1, hn, le_refl _⟩
  | @nullArray line hn =>
    exact ⟨.array, line, [], by simp; rfl, -1, hn, le_refl _, fun _ => by decide⟩
  | @bulkString line s hn => exact ⟨.bulkString, line, _, rfl, _, hn, by omega⟩
  | @array line es w hn hes =>
    refine ⟨.array, line, _, rfl, _, hn, by omega, ?_⟩
    rintro rfl
    cases hes with
    | nil => exact le_refl _
    | cons head tail => exact head.elim

theorem Spelled.append {Element : RespValue → Bytes → Prop} {es es' : List RespValue}
    {w w' : Bytes} (h : Spelled Element es w) (h' : Spelled Element es' w') :
    Spelled Element (es ++ es') (w ++ w') := by
  induction h with
  | nil => exact h'
  | cons head tail ih =>
    rw [List.append_assoc]
    exact .cons head ih

/-- Where elements may stand, there are any number of them. -/
theorem exists_spelled {levels : ℕ} (h : levels ≠ 0) (count : ℕ) :
    ∃ es w, es.length = count ∧ Spelled (Derives levels) es w := by
  obtain ⟨levels, rfl⟩ := Nat.exists_eq_succ_of_ne_zero h
  induction count with
  | zero => exact ⟨[], [], rfl, .nil⟩
  | succ count ih =>
    obtain ⟨es, w, hlength, hes⟩ := ih
    have hempty : Derives (levels + 1) (makeSimpleString []) (byte '+' :: ([] ++ crlf)) :=
      .simpleString List.not_mem_nil List.not_mem_nil
    exact ⟨_ :: es, _, by rw [List.length_cons, hlength], .cons hempty hes⟩

theorem HeaderLine.value {levels : ℕ} {type : RespType} {full : Bytes}
    (h : HeaderLine levels type full) :
    ∃ v rest, Production (Derives levels) v (type.marker :: (full ++ crlf ++ rest)) := by
  have hline {v : RespValue} (hv : Production (Derives levels) v (type.marker :: (full ++ crlf))) :
      ∃ v rest, Production (Derives levels) v (type.marker :: (full ++ crlf ++ rest)) :=
    ⟨v, [], by rwa [List.append_nil]⟩
  cases type with
  | simpleString => exact hline (.simpleString h.1 h.2)
  | error => exact hline (.error h.1 h.2)
  | integer =>
    obtain ⟨n, hn⟩ := h
    exact hline (.integer hn)
  | bulkString =>
    obtain ⟨n, hn, hle⟩ := h
    by_cases hnull : n = -1
    · exact hline (.nullBulkString (hnull ▸ hn))
    · have hlength : (((List.replicate n.toNat cr : Bytes).length : ℕ) : ℤ) = n := by
        rw [List.length_replicate]
        omega
      exact ⟨_, _, .bulkString (hlength ▸ hn)⟩
  | array =>
    obtain ⟨n, hn, hle, hzero⟩ := h
    by_cases hnull : n = -1
    · exact hline (.nullArray (hnull ▸ hn))
    by_cases hnone : n = 0
    · subst hnone
      exact ⟨makeArray [], [], .array hn .nil⟩
    · obtain ⟨es, w, hlength, hes⟩ :=
        exists_spelled (fun hlevels => by have := hzero hlevels; omega) n.toNat
      have hcount : ((es.length : ℕ) : ℤ) = n := by omega
      exact ⟨_, w, .array (hcount ▸ hn) hes⟩

/-- After the elements that are there, the loop goes on with the rest. -/
theorem parseElements_front {input : Bytes} {element : ℕ → ParseResult}
    {Element : RespValue → Bytes → Prop} (helement : ∀ {v w} pos t, Element v w →
      input.drop pos = w ++ t → element pos = .ok v (pos + w.length))
    {es : List RespValue} {w : Bytes} (h : Spelled Element es w) {pos more : ℕ} {t : Bytes}
    (hdrop : input.drop pos = w ++ t) :
    parseElements element (es.length + more) pos =
      (parseElements element more (pos + w.length)).map (es ++ ·) := by
  induction h generalizing pos with
  | nil =>
    simp only [List.length_nil, Nat.zero_add, Nat.add_zero]
    cases parseElements element more pos <;> rfl
  | @cons v vs w ws head tail ih =>
    rw [List.append_assoc] at hdrop
    have hhead := helement pos _ head hdrop
    have htail := ih (drop_add_of_drop hdrop)
    rw [List.length_cons, Nat.add_right_comm, List.length_append, ← Nat.add_assoc]
    simp only [parseElements, hhead, htail]
    cases parseElements element more (pos + w.length + ws.length) <;> rfl

theorem parseValue_open (levels : ℕ) {input line : Bytes} {pos : ℕ} {type : RespType}
    (hopen : findCrlf line = none) (h : input.drop pos = type.marker :: line) :
    parseValue input (levels + 1) pos = .incomplete := by
  have hget : input[pos]? = some type.marker := by
    rw [← List.head?_drop, h]
    rfl
  have hline : readLine input (pos + 1) = .incomplete := by
    rw [readLine, findFrom, ← List.drop_drop, h, List.drop_one, List.tail_cons, hopen]
    rfl
  simp only [parseValue, hget, typeOfPrefix_marker, hline]

/-- What stands at a position is not a whole value, whatever follows, and the parser waits for more
when nothing follows. -/
structure Undecided (input : Bytes) (levels pos : ℕ) (y : Bytes) : Prop where
  waits : y = [] → parseValue input levels pos = .incomplete
  fails : ∀ v next, parseValue input levels pos ≠ .ok v next

theorem undecided_line {levels : ℕ} {type : RespType} {line : Bytes} (hopen : findCrlf line = none)
    (hline : ¬ LineBegun levels type line) {input y : Bytes} {pos : ℕ}
    (h : input.drop pos = type.marker :: line ++ y) : Undecided input (levels + 1) pos y where
  waits hy := parseValue_open levels hopen (by rw [h, hy, List.append_nil])
  fails v next hok := by
    obtain ⟨u, t, hu, hdrop, -⟩ := parseValue_sound hok
    obtain ⟨type', full, rest, rfl, hfull⟩ := Production.header hu
    rw [hdrop, List.cons_append, List.cons_append] at h
    obtain ⟨hmarker, htail⟩ := List.cons.inj h
    have htype := congrArg typeOfPrefix hmarker
    rw [typeOfPrefix_marker, typeOfPrefix_marker] at htype
    rw [Option.some.inj htype] at hfull
    rw [List.append_assoc] at htail
    exact hline (hfull.begun hopen htail.symm)

theorem undecided_payload (levels : ℕ) {line s : Bytes} {b : UInt8}
    (hn : Numeral line (s.length : ℤ)) (hb : b ≠ cr) {input y : Bytes} {pos : ℕ}
    (h : input.drop pos = byte '$' :: (line ++ crlf ++ (s ++ [b])) ++ y) :
    Undecided input (levels + 1) pos y := by
  rw [List.cons_append, List.append_assoc] at h
  obtain ⟨hvalue, hrest⟩ := parseValue_bulk levels hn h
  refine ⟨fun hy => ?_, fun v next hok => ?_⟩
  · have hlength := congrArg List.length hrest
    simp only [List.length_drop, hy, List.length_append, List.length_nil, List.length_cons]
      at hlength
    have hneg : ¬ (s.length : ℤ) = -1 := by omega
    have hlt : ¬ (s.length : ℤ) < -1 := by omega
    have hneeded : input.length - (pos + 1 + line.length + 2) < s.length + 2 := by omega
    simp only [hvalue, parseBulk, hneg, hlt, if_false, Int.toNat_natCast, hneeded, if_true]
  · rw [hvalue] at hok
    rcases parseBulk_sound hok with ⟨hnull, -⟩ | ⟨s', t, hlength, -, hdrop, -⟩
    · omega
    · rw [hrest, List.append_assoc, List.append_assoc] at hdrop
      obtain ⟨-, htail⟩ := List.append_inj hdrop (by omega)
      exact hb (List.cons.inj htail).1

theorem undecided_element {levels : ℕ} {line w rest : Bytes} {es : List RespValue} {count : ℕ}
    (hn : Numeral line (count : ℤ)) (hes : Spelled (Derives levels) es w)
    (hcount : es.length < count) {input y : Bytes} {pos : ℕ}
    (h : input.drop pos = byte '*' :: (line ++ crlf ++ (w ++ rest)) ++ y)
    (hrest : ∀ {pos}, input.drop pos = rest ++ y → Undecided input levels pos y) :
    Undecided input (levels + 1) pos y := by
  rw [List.cons_append, List.append_assoc, List.append_assoc w] at h
  obtain ⟨hvalue, hdrop⟩ := parseValue_array levels hn h
  obtain ⟨more, rfl⟩ := Nat.exists_eq_add_of_lt hcount
  have hpending := hrest (drop_add_of_drop hdrop)
  rw [Nat.add_assoc, parseElements_front (fun _ _ he => parseValue_derives he) hes hdrop] at hvalue
  refine ⟨fun hy => ?_, fun v next hok => ?_⟩
  · simp only [hvalue, parseElements, hpending.waits hy, Verdict.map]
  · rw [hvalue] at hok
    obtain ⟨vs, hvs, -⟩ := map_eq_ok hok
    obtain ⟨vs, hvs, -⟩ := map_eq_ok hvs
    simp only [parseElements] at hvs
    split at hvs
    · cases hvs
    · cases hvs
    · rename_i hv
      exact hpending.fails _ _ hv

theorem Stuck.undecided {levels : ℕ} {w : Bytes} (hw : Stuck levels w) {input y : Bytes} {pos : ℕ}
    (h : input.drop pos = w ++ y) : Undecided input levels pos y := by
  induction levels generalizing w pos with
  | zero => exact hw.elim
  | succ levels ih =>
    cases hw with
    | line hopen hline => exact undecided_line hopen hline h
    | payload hn hb => exact undecided_payload levels hn hb h
    | element hn hes hcount hrest =>
      exact undecided_element hn hes hcount h fun hpos => ih hrest hpos

/-- The element the loop stopped at, after those that are complete. -/
theorem parseElements_incomplete {input : Bytes} {element : ℕ → ParseResult}
    {Element : RespValue → Bytes → Prop}
    (helement : ∀ {pos v next}, element pos = .ok v next → ReadAs input pos next (Element v))
    {count pos : ℕ} (h : parseElements element count pos = .incomplete) :
    ∃ es w t, Spelled Element es w ∧ input.drop pos = w ++ t ∧ es.length < count ∧
      element (pos + w.length) = .incomplete := by
  induction count generalizing pos with
  | zero => cases h
  | succ count ih =>
    simp only [parseElements] at h
    cases hv : element pos with
    | incomplete => exact ⟨[], [], _, .nil, rfl, Nat.succ_pos _, by simpa using hv⟩
    | malformed e => simp [hv] at h
    | ok v mid =>
      cases hvs : parseElements element count mid with
      | malformed e => simp [hv, hvs] at h
      | ok vs last => simp [hv, hvs] at h
      | incomplete =>
        obtain ⟨w, t, hw, hdrop, rfl⟩ := helement hv
        obtain ⟨es, ws, t', hes, hdrop', hcount, hinc⟩ := ih hvs
        rw [drop_add_of_drop hdrop] at hdrop'
        refine ⟨v :: es, w ++ ws, t', .cons hw hes, ?_, Nat.succ_lt_succ hcount, ?_⟩
        · rw [hdrop, hdrop', List.append_assoc]
        · rwa [List.length_append, ← Nat.add_assoc]

/-- Bytes can be appended so that what stands at a position becomes a value. -/
def Completable (levels : ℕ) (w : Bytes) : Prop := ∃ y v, Derives levels v (w ++ y)

theorem completable_line {levels : ℕ} {type : RespType} {line : Bytes}
    (h : LineBegun levels type line) : Completable (levels + 1) (type.marker :: line) := by
  obtain ⟨full, more, hmore, hfull⟩ := h.complete
  obtain ⟨v, rest, hv⟩ := hfull.value
  refine ⟨more ++ rest, v, ?_⟩
  rw [List.cons_append, ← List.append_assoc, hmore]
  exact hv

theorem completable_payload (levels : ℕ) {line rest : Bytes} {n : ℕ} (hn : Numeral line (n : ℤ))
    (hfit : rest.length < n + 2)
    (hok : ¬ StuckAt levels (Stuck levels) (byte '$' :: (line ++ crlf ++ rest))) :
    Completable (levels + 1) (byte '$' :: (line ++ crlf ++ rest)) := by
  suffices hsplit : ∃ s y, s.length = n ∧ rest ++ y = s ++ crlf by
    obtain ⟨s, y, rfl, hy⟩ := hsplit
    refine ⟨y, makeBulkString s, ?_⟩
    rw [List.cons_append, List.append_assoc, hy]
    exact Production.bulkString hn
  by_cases hshort : rest.length ≤ n
  · refine ⟨rest ++ List.replicate (n - rest.length) cr, List.replicate (n - rest.length) cr ++ crlf,
      ?_, by rw [List.append_assoc]⟩
    rw [List.length_append, List.length_replicate]
    omega
  · rcases List.eq_nil_or_concat rest with rfl | ⟨s, b, hconcat⟩
    · simp at hshort
    · rw [List.concat_eq_append] at hconcat
      subst hconcat
      rw [List.length_append, List.length_singleton] at hfit hshort
      have hlength : s.length = n := by omega
      have hb : b = cr := by
        by_contra hb
        exact hok (.payload (hlength ▸ hn) hb)
      exact ⟨s, [lf], hlength, by rw [hb, List.append_assoc]; rfl⟩

theorem completable_element {levels : ℕ} {line w rest : Bytes} {es : List RespValue} {count : ℕ}
    (hn : Numeral line (count : ℤ)) (hes : Spelled (Derives levels) es w)
    (hcount : es.length < count) (hlevels : levels ≠ 0) (hrest : Completable levels rest) :
    Completable (levels + 1) (byte '*' :: (line ++ crlf ++ (w ++ rest))) := by
  obtain ⟨y, v, hv⟩ := hrest
  obtain ⟨more, rfl⟩ := Nat.exists_eq_add_of_lt hcount
  obtain ⟨es', w', hlength, hes'⟩ := exists_spelled hlevels more
  have hall : Spelled (Derives levels) (es ++ v :: es') (w ++ ((rest ++ y) ++ w')) :=
    hes.append (.cons hv hes')
  refine ⟨y ++ w', makeArray (es ++ v :: es'), ?_⟩
  have hbytes : byte '*' :: (line ++ crlf ++ (w ++ rest)) ++ (y ++ w') =
      byte '*' :: (line ++ crlf ++ (w ++ ((rest ++ y) ++ w'))) := by simp
  rw [hbytes]
  refine .array ?_ hall
  have hlen : (es ++ v :: es').length = es.length + more + 1 := by
    rw [List.length_append, List.length_cons, hlength, Nat.add_assoc]
  rwa [hlen]

theorem parseBulk_incomplete {input : Bytes} {n : ℤ} {pos : ℕ}
    (h : parseBulk input n pos = .incomplete) :
    n = (n.toNat : ℤ) ∧ (input.drop pos).length < n.toNat + 2 := by
  simp only [parseBulk] at h
  split at h
  · cases h
  split at h
  · cases h
  split at h
  · rename_i hnull hneg hfit
    rw [List.length_drop]
    omega
  · split at h <;> cases h

theorem parseArray_incomplete {element : ℕ → ParseResult} {n : ℤ} {pos : ℕ}
    (h : parseArray element n pos = .incomplete) :
    n = (n.toNat : ℤ) ∧ parseElements element n.toNat pos = .incomplete := by
  simp only [parseArray] at h
  split at h
  · cases h
  split at h
  · cases h
  · rename_i hnull hneg
    refine ⟨by omega, ?_⟩
    cases helements : parseElements element n.toNat pos with
    | incomplete => rfl
    | malformed e => simp [helements, Verdict.map] at h
    | ok vs next => simp [helements, Verdict.map] at h

theorem readLine_incomplete {input : Bytes} {pos : ℕ} (h : readLine input pos = .incomplete) :
    findCrlf (input.drop pos) = none := by
  simp only [readLine, findFrom] at h
  cases hfind : findCrlf (input.drop pos) with
  | none => rfl
  | some i =>
    simp only [hfind, Option.map_some] at h
    split at h <;> cases h

/-- What the parser waits on can be completed, unless it is stuck. -/
theorem completable_of_incomplete {input : Bytes} {levels pos : ℕ}
    (h : parseValue input levels pos = .incomplete) (hstuck : ¬ Stuck levels (input.drop pos)) :
    Completable levels (input.drop pos) := by
  induction levels generalizing pos with
  | zero => cases h
  | succ levels ih =>
    simp only [parseValue] at h
    cases hb : input[pos]? with
    | none =>
      rw [List.drop_eq_nil_of_le (List.getElem?_eq_none_iff.mp hb)]
      exact ⟨_, _, Production.simpleString List.not_mem_nil List.not_mem_nil⟩
    | some b =>
      cases htype : typeOfPrefix b with
      | none => simp [hb, htype] at h
      | some type =>
        obtain rfl := typeOfPrefix_eq_some_iff.mp htype
        have hdrop : input.drop pos = type.marker :: input.drop (pos + 1) := by
          rw [List.drop_eq_getElem?_toList_append, hb]
          rfl
        rw [hdrop] at hstuck ⊢
        cases hline : readLine input (pos + 1) with
        | malformed => simp [hb, hline] at h
        | incomplete =>
          have hopen := readLine_incomplete hline
          exact completable_line (not_not.mp fun hbegun => hstuck (.line hopen hbegun))
        | ok line start =>
          obtain ⟨hcr, hlf, rfl, rest, hrest⟩ := readLine_ok_spec hline
          simp only [hb, typeOfPrefix_marker, hline] at h
          have hstart : input.drop (pos + 1 + line.length + 2) = rest := by
            rw [Nat.add_assoc, ← length_crlf, ← List.length_append]
            exact drop_add_of_drop hrest
          rw [hrest] at hstuck ⊢
          cases type with
          | simpleString => cases h
          | error => cases h
          | integer => cases hn : toInteger line <;> simp only [parseBody, hn] at h <;> cases h
          | bulkString =>
            cases hn : toInteger line <;> simp only [parseBody, hn] at h
            · cases h
            obtain ⟨hnat, hfit⟩ := parseBulk_incomplete h
            rw [hstart] at hfit
            exact completable_payload levels (hnat ▸ toInteger_eq_some_iff.mp hn) hfit hstuck
          | array =>
            cases hn : toInteger line with
            | none => simp [parseBody, hn] at h
            | some n =>
              simp only [parseBody, hn] at h
              obtain ⟨hnat, helements⟩ := parseArray_incomplete h
              obtain ⟨es, w, t, hes, hdrop, hcount, hinc⟩ :=
                parseElements_incomplete parseValue_sound helements
              obtain rfl : rest = w ++ t := hstart.symm.trans hdrop
              have hnumeral : Numeral line (n.toNat : ℤ) := hnat ▸ toInteger_eq_some_iff.mp hn
              have hpending := drop_add_of_drop hdrop
              have hlevels : levels ≠ 0 := by
                rintro rfl
                cases hinc
              refine completable_element hnumeral hes hcount hlevels ?_
              rw [← hpending]
              exact ih hinc fun hrest => hstuck (.element hnumeral hes hcount (hpending ▸ hrest))

/-- An incomplete input can be completed to a value, exactly unless it is stuck. -/
theorem incomplete_completable_iff (x : Bytes) :
    (parse x = .incomplete → ∃ y v n, parse (x ++ y) = .ok v n) ↔ ¬ Stuck kMaxDepth x := by
  constructor
  · intro h hstuck
    have hundecided : Undecided x kMaxDepth 0 [] := hstuck.undecided (List.append_nil x).symm
    have hwaits := hundecided.waits rfl
    obtain ⟨y, v, n, hok⟩ := h hwaits
    have hundecided : Undecided (x ++ y) kMaxDepth 0 y := hstuck.undecided rfl
    exact hundecided.fails v n hok
  · intro hstuck h
    obtain ⟨y, v, hv⟩ : Completable kMaxDepth (x.drop 0) := completable_of_incomplete h hstuck
    exact ⟨y, v, _, parse_eq_ok_iff.mpr ⟨le_refl _, by rwa [List.take_length]⟩⟩

/-- The byte after the three of the payload cannot be the CR: the parser waits for one more. -/
theorem incomplete_not_completable :
    parse (text "$3\r\nabcX") = .incomplete ∧
      ¬ ∃ y v n, parse (text "$3\r\nabcX" ++ y) = .ok v n := by
  have hn : Numeral (text "3") ((text "abc").length : ℤ) := numeral_natDecimal (n := 3) (by decide)
  have hstuck : Stuck kMaxDepth (text "$3\r\nabcX") := StuckAt.payload hn (by decide)
  refine ⟨rfl, ?_⟩
  rintro ⟨y, v, n, hok⟩
  have hundecided : Undecided (text "$3\r\nabcX" ++ y) kMaxDepth 0 y := hstuck.undecided rfl
  exact hundecided.fails v n hok

end RedisLite.Resp
