import RedisLite.RespGrammar

/-!
# Verdicts of the parser are final

More input never changes a verdict other than `incomplete`, and a parsed value ends inside the
input, at least three bytes after it began. So `parse` is a stable incremental decoder.
-/

namespace RedisLite.Resp
open ByteStrings IncrementalDecoding

theorem Derives.length_ge {levels : ℕ} {v : RespValue} {w : Bytes} (h : Derives levels v w) :
    3 ≤ w.length := by
  cases levels with
  | zero => exact h.elim
  | succ levels => cases h <;> simp only [List.length_cons, List.length_append, length_crlf] <;> omega

/-- A parsed value ends inside the input, at least three bytes after its first one. -/
theorem parse_ok_bounds {x : Bytes} {v : RespValue} {n : ℕ} (h : parse x = .ok v n) :
    3 ≤ n ∧ n ≤ x.length := by
  obtain ⟨hle, hw⟩ := parse_eq_ok_iff.mp h
  have hlength := hw.length_ge
  rw [List.length_take] at hlength
  exact ⟨hlength.trans (min_le_left _ _), hle⟩

theorem findFrom_bounds {input : Bytes} {pos i : ℕ} (h : findFrom input pos = some i) :
    pos ≤ i ∧ i + 2 ≤ input.length := by
  obtain ⟨j, hj, rfl⟩ := Option.map_eq_some_iff.mp h
  obtain ⟨rest, hrest, hlen⟩ := findCrlf_some_spec hj
  have hdrop := congrArg List.length hrest
  simp only [List.length_drop, List.length_append, hlen, length_crlf] at hdrop
  omega

theorem findFrom_append {input : Bytes} {pos i : ℕ} (h : findFrom input pos = some i) (y : Bytes) :
    findFrom (input ++ y) pos = some i := by
  have hpos : pos ≤ input.length := by
    have := findFrom_bounds h
    omega
  obtain ⟨j, hj, rfl⟩ := Option.map_eq_some_iff.mp h
  rw [findFrom, List.drop_append_of_le_length hpos, findCrlf_append hj]
  rfl

theorem substr_append {input : Bytes} {pos count : ℕ} (h : pos + count ≤ input.length)
    (y : Bytes) : substr (input ++ y) pos count = substr input pos count := by
  rw [substr, substr, List.drop_append_of_le_length (by omega), List.take_append_of_le_length]
  rw [List.length_drop]
  omega

theorem readLine_append (input y : Bytes) (pos : ℕ) :
    readLine input pos = .incomplete ∨ readLine (input ++ y) pos = readLine input pos := by
  cases hfind : findFrom input pos with
  | none => exact Or.inl (by simp [readLine, hfind])
  | some i =>
    have hbound : pos + (i - pos) ≤ input.length := by
      have := findFrom_bounds hfind
      omega
    refine Or.inr ?_
    simp only [readLine, findFrom_append hfind, hfind, substr_append hbound]

theorem parseElements_append {element element' : ℕ → ParseResult}
    (helement : ∀ pos, element pos = .incomplete ∨ element' pos = element pos) (count pos : ℕ) :
    parseElements element count pos = .incomplete ∨
      parseElements element' count pos = parseElements element count pos := by
  induction count generalizing pos with
  | zero => exact Or.inr rfl
  | succ count ih =>
    rcases helement pos with hinc | hsame
    · exact Or.inl (by simp [parseElements, hinc])
    · cases hv : element pos with
      | incomplete => exact Or.inl (by simp [parseElements, hv])
      | malformed e => exact Or.inr (by simp [parseElements, hsame, hv])
      | ok v mid =>
        rcases ih mid with hrest | hrest
        · exact Or.inl (by simp [parseElements, hv, hrest])
        · exact Or.inr (by simp [parseElements, hsame, hv, hrest])

theorem parseBulk_append (input y : Bytes) (length : ℤ) (pos : ℕ) :
    parseBulk input length pos = .incomplete ∨
      parseBulk (input ++ y) length pos = parseBulk input length pos := by
  by_cases hnull : length = -1
  · exact Or.inr (by simp [parseBulk, hnull])
  by_cases hneg : length < -1
  · exact Or.inr (by simp [parseBulk, hnull, hneg])
  by_cases hfit : input.length - pos < length.toNat + 2
  · exact Or.inl (by simp [parseBulk, hnull, hneg, hfit])
  refine Or.inr ?_
  have hfit' : ¬ (input ++ y).length - pos < length.toNat + 2 := by
    rw [List.length_append]
    omega
  have hcr : (input ++ y)[pos + length.toNat]? = input[pos + length.toNat]? :=
    List.getElem?_append_left (by omega)
  have hlf : (input ++ y)[pos + length.toNat + 1]? = input[pos + length.toNat + 1]? :=
    List.getElem?_append_left (by omega)
  simp only [parseBulk, hnull, hneg, hfit, hfit', hcr, hlf, if_false,
    substr_append (show pos + length.toNat ≤ input.length by omega) y]

/-- Appending input keeps every verdict but `incomplete`. -/
theorem parseValue_append (input y : Bytes) (levels pos : ℕ) :
    parseValue input levels pos = .incomplete ∨
      parseValue (input ++ y) levels pos = parseValue input levels pos := by
  induction levels generalizing pos with
  | zero => exact Or.inr rfl
  | succ levels ih =>
    cases hb : input[pos]? with
    | none => exact Or.inl (by simp [parseValue, hb])
    | some b =>
      obtain ⟨hlt, -⟩ := List.getElem?_eq_some_iff.mp hb
      have hb' : (input ++ y)[pos]? = some b := by
        rw [List.getElem?_append_left hlt, hb]
      cases htype : typeOfPrefix b with
      | none => exact Or.inr (by simp [parseValue, hb, hb', htype])
      | some type =>
        rcases readLine_append input y (pos + 1) with hinc | hsame
        · exact Or.inl (by simp [parseValue, hb, htype, hinc])
        · cases hline : readLine input (pos + 1) with
          | incomplete => exact Or.inl (by simp [parseValue, hb, htype, hline])
          | malformed => exact Or.inr (by simp [parseValue, hb, hb', htype, hsame, hline])
          | ok line start =>
            simp only [parseValue, hb, hb', htype, hsame, hline]
            cases type with
            | simpleString => exact Or.inr rfl
            | error => exact Or.inr rfl
            | integer => exact Or.inr rfl
            | bulkString =>
              cases hn : toInteger line with
              | none => exact Or.inr (by simp [parseBody, hn])
              | some length => simpa [parseBody, hn] using parseBulk_append input y length start
            | array =>
              cases hn : toInteger line with
              | none => exact Or.inr (by simp [parseBody, hn])
              | some count =>
                simp only [parseBody, hn, parseArray]
                by_cases hnull : count = -1
                · exact Or.inr (by simp [hnull])
                by_cases hneg : count < -1
                · exact Or.inr (by simp [hnull, hneg])
                simp only [hnull, hneg, if_false]
                rcases parseElements_append ih count.toNat start with hrest | hrest
                · exact Or.inl (by rw [hrest]; rfl)
                · exact Or.inr (by rw [hrest])

theorem parse_stable : Stable parse where
  ok_append := by
    intro x v n h y
    rcases parseValue_append x y kMaxDepth 0 with hinc | hsame
    · rw [parse, hinc] at h; cases h
    · exact hsame.trans h
  malformed_append := by
    intro x e h y
    rcases parseValue_append x y kMaxDepth 0 with hinc | hsame
    · rw [parse, hinc] at h; cases h
    · exact hsame.trans h
  consumed_pos := by
    intro x v n h
    exact lt_of_lt_of_le (by decide) (parse_ok_bounds h).1
  consumed_le := by
    intro x v n h
    exact (parse_ok_bounds h).2

theorem parse_nil : parse [] = .incomplete := rfl

theorem parse_cut {x y : Bytes} (hp : x <+: y) :
    (parse y = .incomplete → parse x = .incomplete) ∧
      (∀ v, parse y = .ok v y.length → x.length < y.length → parse x = .incomplete) := by
  obtain ⟨z, rfl⟩ := hp
  cases hparse : parse x with
  | incomplete => exact ⟨fun _ => rfl, fun _ _ _ => rfl⟩
  | malformed e =>
    rw [parse_stable.malformed_append hparse z]
    exact ⟨nofun, nofun⟩
  | ok v n =>
    have hle := parse_stable.consumed_le hparse
    rw [parse_stable.ok_append hparse z]
    refine ⟨nofun, fun w hw hlt => ?_⟩
    obtain ⟨-, rfl⟩ := Verdict.ok.inj hw
    omega

/-- Verdicts are final: more input changes neither a value nor an error, and every cut of the bytes of
a value is incomplete. -/
theorem parse_final (x y : Bytes) :
    (∀ v n, parse x = .ok v n → parse (x ++ y) = .ok v n) ∧
      (∀ e, parse x = .malformed e → parse (x ++ y) = .malformed e) ∧
      ∀ v n, parse x = .ok v n → ∀ m < n, parse (x.take m) = .incomplete := by
  refine ⟨fun v n h => parse_stable.ok_append h y, fun e h => parse_stable.malformed_append h y,
    fun v n h m hm => ?_⟩
  obtain ⟨hle, hw⟩ := parse_eq_ok_iff.mp h
  have hlength : (x.take n).length = n := by rw [List.length_take, Nat.min_eq_left hle]
  have hfront : parse (x.take n) = .ok v (x.take n).length :=
    parse_eq_ok_iff.mpr ⟨le_refl _, by rwa [List.take_length]⟩
  refine (parse_cut (List.take_prefix_take_left hm.le)).2 v hfront ?_
  rw [hlength, List.length_take]
  exact (min_le_left _ _).trans_lt hm

/-- A nested request is incomplete when it is cut inside the CR LF of its last element. -/
theorem parse_final_nested :
    parse (text "*2\r\n$1\r\na\r\n*1\r\n:7\r\n" ++ text "x") =
        .ok (makeArray [makeBulkString (text "a"), makeArray [makeInteger 7]]) 19 ∧
      parse ((text "*2\r\n$1\r\na\r\n*1\r\n:7\r\n").take 18) = .incomplete ∧
      parse (text "$-2\r\n" ++ text "x") = .malformed (text "negative bulk string length") := by
  have hparse : parse (text "*2\r\n$1\r\na\r\n*1\r\n:7\r\n") =
      .ok (makeArray [makeBulkString (text "a"), makeArray [makeInteger 7]]) 19 := by rfl
  have h := parse_final (text "*2\r\n$1\r\na\r\n*1\r\n:7\r\n") (text "x")
  exact ⟨h.1 _ _ hparse, h.2.2 _ _ hparse 18 (by decide),
    (parse_final (text "$-2\r\n") (text "x")).2.1 _ rfl⟩

end RedisLite.Resp
