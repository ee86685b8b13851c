import RedisLite.CheckedArithmetic
import RedisLite.LoopVariants
import RedisLite.RespStability

/-!
# The parser with checked reads

The parser once more, with its one position threaded through every call, early returns included.
What the input or a header line decides is checked where it is computed: sizes are unsigned 64-bit
numbers that must not wrap around, and a byte or a part of the input must lie inside it. A call has
so much fuel for the calls nested in it and for the rounds of its loop. Without a result are the
calls that read outside the input, that leave the range of a number, and that use up their fuel.
-/

namespace RedisLite.CheckedParser
open ByteStrings IncrementalDecoding Resp CheckedArithmetic LoopVariants

/-- A `std::size_t` of 64 bits. -/
def InSize (n : ℤ) : Prop := 0 ≤ n ∧ n < 18446744073709551616

instance (n : ℤ) : Decidable (InSize n) := inferInstanceAs (Decidable (_ ∧ _))

def sizeT (n : ℤ) : Option ℕ := (checked InSize n).map Int.toNat

theorem sizeT_eq {n : ℤ} {m : ℕ} (h : n = m) (hm : m < 18446744073709551616) :
    sizeT n = some m := by
  have hn : InSize n := ⟨by omega, by omega⟩
  rw [sizeT, checked_of hn, h]
  rfl

/-- `input.substr(pos, count)`, where all of it lies inside the input. -/
def substrChecked (input : Bytes) (pos count : ℕ) : Option Bytes :=
  if pos + count ≤ input.length then some (substr input pos count) else none

def readLineChecked (input : Bytes) (pos : ℕ) : Option LineStatus :=
  match findFrom input pos with
  | none => some .incomplete
  | some crlfPos => do
    let count ← sizeT (crlfPos - pos)
    let line ← substrChecked input pos count
    if cr ∈ line ∨ lf ∈ line then some .malformed
    else
      let next ← sizeT (crlfPos + 2)
      some (.ok line next)

structure Call where
  depth : ℕ
  /-- The position it was called at. -/
  entry : ℕ
  /-- The position it returned at. -/
  exit : ℕ
  result : ParseResult
  /-- The number of elements it made room for. -/
  reserved : ℕ
  /-- The rounds of its element loop. -/
  rounds : ℕ

/-- What a call leaves: the fields of its record, and the records of the calls it made. -/
structure Returned where
  exit : ℕ
  result : ParseResult
  reserved : ℕ := 0
  rounds : ℕ := 0
  inner : List Call := []

def Returned.call (r : Returned) (depth entry : ℕ) : Call :=
  ⟨depth, entry, r.exit, r.result, r.reserved, r.rounds⟩

def Returned.calls (r : Returned) (depth entry : ℕ) : List Call := r.call depth entry :: r.inner

/-- The two bytes after a bulk string: the second one is read if the first is a CR. -/
def terminatedChecked (input : Bytes) (pos size : ℕ) : Option Bool := do
  let first ← sizeT (pos + size)
  let b ← input[first]?
  if b ≠ cr then some false
  else
    let second ← sizeT (first + 1)
    let b ← input[second]?
    some (b = lf)

def bulkChecked (input : Bytes) (length : ℤ) (pos : ℕ) : Option Returned :=
  if length = -1 then some { exit := pos, result := .ok makeNullBulkString pos }
  else if length < -1 then
    some { exit := pos, result := .malformed (text "negative bulk string length") }
  else do
    let size ← sizeT length
    let needed ← sizeT (size + 2)
    let remaining ← sizeT (input.length - pos)
    if remaining < needed then some { exit := pos, result := .incomplete }
    else
      let terminated ← terminatedChecked input pos size
      if ¬ terminated then
        some { exit := pos, result := .malformed (text "bulk string is not terminated by CRLF") }
      else
        let data ← substrChecked input pos size
        let next ← sizeT (pos + needed)
        some { exit := next, result := .ok (makeBulkString data) next }

/-- The element loop between two rounds. -/
structure ElementLoop where
  i : ℤ
  pos : ℕ
  elements : List RespValue
  inner : List Call

/-- `for (long long i = 0; i < count; ++i)`: the first element that is not complete ends the call. -/
def elementRound (element : ℕ → Option Returned) (depth : ℕ) (count : ℤ) (s : ElementLoop) :
    Option (Round ElementLoop Returned) :=
  if s.i < count then do
    let r ← element s.pos
    let inner := s.inner ++ r.calls (depth + 1) s.pos
    match r.result with
    | .ok v _ =>
      -- the element has moved the shared position
      let next ← checked InInt64 (s.i + 1)
      some (.next ⟨next, r.exit, s.elements ++ [v], inner⟩)
    | status =>
      some (.leave { exit := r.exit, result := status, rounds := s.i.toNat + 1, inner := inner })
  else
    some (.leave { exit := s.pos, result := .ok (makeArray s.elements) s.pos, rounds := s.i.toNat,
                   inner := s.inner })

def arrayChecked (input : Bytes) (element : ℕ → Option Returned) (fuel depth : ℕ) (count : ℤ)
    (pos : ℕ) : Option Returned :=
  if count = -1 then some { exit := pos, result := .ok { makeArray [] with isNull := true } pos }
  else if count < -1 then
    some { exit := pos, result := .malformed (text "negative array length") }
  else do
    -- room for the elements is made before the first of them is parsed
    let wanted ← sizeT count
    let remaining ← sizeT (input.length - pos)
    let r ← runLoop (elementRound element depth count) fuel ⟨0, pos, [], []⟩
    some { r with reserved := min wanted remaining }

def bodyChecked (input : Bytes) (element : ℕ → Option Returned) (fuel depth : ℕ) (type : RespType)
    (line : Bytes) (pos : ℕ) : Option Returned :=
  match type with
  | .simpleString => some { exit := pos, result := .ok (makeSimpleString line) pos }
  | .error => some { exit := pos, result := .ok (makeError line) pos }
  | .integer =>
    match toInteger line with
    | none => some { exit := pos, result := .malformed (text "integer is not a valid number") }
    | some number => some { exit := pos, result := .ok (makeInteger number) pos }
  | .bulkString =>
    match toInteger line with
    | none =>
      some { exit := pos, result := .malformed (text "bulk string length is not a valid number") }
    | some length => bulkChecked input length pos
  | .array =>
    match toInteger line with
    | none => some { exit := pos, result := .malformed (text "array length is not a valid number") }
    | some count => arrayChecked input element fuel depth count pos

/-- A call at a position, with the fuel for what is nested in it; the depth counts the open calls. -/
def parseValueChecked (input : Bytes) : ℕ → ℕ → ℕ → Option Returned
  | 0, _, _ => none
  | fuel + 1, depth, pos =>
    if depth > kMaxDepth then some { exit := pos, result := .malformed nestingError }
    else if pos ≥ input.length then some { exit := pos, result := .incomplete }
    else do
      let b ← input[pos]?
      let start ← sizeT (pos + 1)
      match typeOfPrefix b with
      | none => some { exit := start, result := .malformed (text "unknown RESP type byte") }
      | some type =>
        match ← readLineChecked input start with
        | .incomplete => some { exit := start, result := .incomplete }
        | .malformed =>
          some { exit := start, result := .malformed (text "line contains a stray CR or LF") }
        | .ok line next =>
          bodyChecked input (parseValueChecked input fuel (depth + 1)) fuel depth type line next

def parseChecked (fuel : ℕ) (input : Bytes) : Option Returned := parseValueChecked input fuel 1 0

section Memory
variable {input : Bytes} (hinput : FitsMemory input)
include hinput

theorem sizeT_inside {n : ℤ} {m : ℕ} (h : n = m) (hm : m ≤ input.length + 2) : sizeT n = some m := by
  unfold FitsMemory maxInt64 at hinput
  exact sizeT_eq h (by omega)

/-- `input.size() - pos` does not wrap around at a position inside the input. -/
theorem sizeT_remaining {pos : ℕ} (hpos : pos ≤ input.length) :
    sizeT (input.length - pos) = some (input.length - pos) :=
  sizeT_inside hinput (by omega) (by omega)

theorem readLineChecked_eq (pos : ℕ) : readLineChecked input pos = some (readLine input pos) := by
  unfold readLineChecked readLine
  cases hfind : findFrom input pos with
  | none => rfl
  | some i =>
    obtain ⟨hle, hi⟩ := findFrom_bounds hfind
    have hcount := sizeT_inside hinput (n := (i : ℤ) - pos) (m := i - pos) (by omega) (by omega)
    have hnext := sizeT_inside hinput (n := (i : ℤ) + 2) (m := i + 2) (by omega) (by omega)
    have hline : substrChecked input pos (i - pos) = some (substr input pos (i - pos)) :=
      if_pos (by omega)
    simp only [hcount, hline, hnext, Option.bind_eq_bind, Option.bind_some]
    split <;> rfl

/-- The two bytes after a bulk string that the input has room for. -/
theorem terminatedChecked_eq {pos size : ℕ} (hroom : pos + (size + 2) ≤ input.length) :
    terminatedChecked input pos size =
      some (decide (input[pos + size]? = some cr ∧ input[pos + size + 1]? = some lf)) := by
  have hfirst := sizeT_inside hinput (n := (pos : ℤ) + size) (m := pos + size) (by omega) (by omega)
  have hsecond := sizeT_inside hinput (n := ((pos + size : ℕ) : ℤ) + 1) (m := pos + size + 1)
    (by omega) (by omega)
  have hget := List.getElem?_eq_getElem (l := input) (i := pos + size) (by omega)
  have hget' := List.getElem?_eq_getElem (l := input) (i := pos + size + 1) (by omega)
  simp only [terminatedChecked, hfirst, Option.bind_eq_bind, Option.bind_some, hget]
  split
  · rename_i hcr
    simp [hcr]
  · rename_i hcr
    rw [not_not] at hcr
    simp only [hsecond, Option.bind_some, hget', hcr, Option.some.injEq, true_and]

end Memory

theorem elementRound_mono {run run' : ℕ → Option Returned}
    (hrun : ∀ pos r, run pos = some r → run' pos = some r) {depth : ℕ} {count : ℤ}
    (s : ElementLoop) (o : Round ElementLoop Returned)
    (h : elementRound run depth count s = some o) : elementRound run' depth count s = some o := by
  unfold elementRound at h ⊢
  by_cases hlt : s.i < count
  · rw [if_pos hlt] at h ⊢
    obtain ⟨r, hr, hrest⟩ := Option.bind_eq_some_iff.mp h
    rw [bind_of_eq_some (hrun _ _ hr)]
    exact hrest
  · rwa [if_neg hlt] at h ⊢

theorem arrayChecked_mono {run run' : ℕ → Option Returned}
    (hrun : ∀ pos r, run pos = some r → run' pos = some r) {fuel fuel' : ℕ} (hle : fuel ≤ fuel')
    {input : Bytes} {depth pos : ℕ} {count : ℤ} {r : Returned}
    (h : arrayChecked input run fuel depth count pos = some r) :
    arrayChecked input run' fuel' depth count pos = some r := by
  unfold arrayChecked at h ⊢
  by_cases hnull : count = -1
  · rwa [if_pos hnull] at h ⊢
  by_cases hneg : count < -1
  · rwa [if_neg hnull, if_pos hneg] at h ⊢
  rw [if_neg hnull, if_neg hneg] at h ⊢
  obtain ⟨wanted, hwanted, h⟩ := Option.bind_eq_some_iff.mp h
  obtain ⟨remaining, hremaining, h⟩ := Option.bind_eq_some_iff.mp h
  obtain ⟨r', hloop, h⟩ := Option.bind_eq_some_iff.mp h
  rw [bind_of_eq_some hwanted, bind_of_eq_some hremaining,
    bind_of_eq_some (runLoop_mono (elementRound_mono hrun) hle hloop)]
  exact h

theorem bodyChecked_mono {run run' : ℕ → Option Returned}
    (hrun : ∀ pos r, run pos = some r → run' pos = some r) {fuel fuel' : ℕ} (hle : fuel ≤ fuel')
    {input : Bytes} {depth pos : ℕ} {type : RespType} {line : Bytes} {r : Returned}
    (h : bodyChecked input run fuel depth type line pos = some r) :
    bodyChecked input run' fuel' depth type line pos = some r := by
  cases type with
  | simpleString => exact h
  | error => exact h
  | integer => exact h
  | bulkString => exact h
  | array =>
    unfold bodyChecked at h ⊢
    cases hcount : toInteger line with
    | none => simpa only [hcount] using h
    | some count =>
      simp only [hcount] at h ⊢
      exact arrayChecked_mono hrun hle h

/-- A call that has a result has it with more fuel. -/
theorem parseValueChecked_mono {input : Bytes} {fuel fuel' : ℕ} (hle : fuel ≤ fuel') {depth pos : ℕ}
    {r : Returned} (h : parseValueChecked input fuel depth pos = some r) :
    parseValueChecked input fuel' depth pos = some r := by
  induction fuel generalizing fuel' depth pos r with
  | zero => simp [parseValueChecked] at h
  | succ fuel ih =>
    obtain ⟨fuel', rfl⟩ : ∃ k, fuel' = k + 1 := ⟨fuel' - 1, by omega⟩
    rw [parseValueChecked] at h ⊢
    by_cases hdeep : depth > kMaxDepth
    · rwa [if_pos hdeep] at h ⊢
    by_cases hend : pos ≥ input.length
    · rwa [if_neg hdeep, if_pos hend] at h ⊢
    rw [if_neg hdeep, if_neg hend] at h ⊢
    obtain ⟨b, hb, h⟩ := Option.bind_eq_some_iff.mp h
    obtain ⟨start, hstart, h⟩ := Option.bind_eq_some_iff.mp h
    rw [bind_of_eq_some hb, bind_of_eq_some hstart]
    cases htype : typeOfPrefix b with
    | none => simpa only [htype] using h
    | some type =>
      simp only [htype] at h ⊢
      obtain ⟨status, hstatus, h⟩ := Option.bind_eq_some_iff.mp h
      rw [bind_of_eq_some hstatus]
      cases status with
      | incomplete => exact h
      | malformed => exact h
      | ok line next => exact bodyChecked_mono (fun pos r hr => ih (by omega) hr) (by omega) h

end RedisLite.CheckedParser
