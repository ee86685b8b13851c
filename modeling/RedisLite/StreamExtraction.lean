import RedisLite.ByteStrings

/-!
# Extraction from an input stream

A stream is the bytes that are left of it. Reaching the end sets a flag after which every extraction
fails; with nothing left it fails anyway, so the model keeps no flag. An extraction that fails gives
`none`.
-/

namespace RedisLite.StreamExtraction
open ByteStrings

/-- `std::isspace` in the classic locale. -/
def isSpace (b : UInt8) : Bool := b = 32 || (9 ≤ b && b ≤ 13)

def skipSpace (input : Bytes) : Bytes := input.dropWhile isSpace

/-- `in >> word`. -/
def readWord (input : Bytes) : Option (Bytes × Bytes) :=
  let input := skipSpace input
  if input = [] then none
  else some (input.takeWhile (fun b => !isSpace b), input.dropWhile (fun b => !isSpace b))

/-- `in >> number` for a signed 64-bit number: a number out of range is a failure. -/
def readNumber (input : Bytes) : Option (ℤ × Bytes) :=
  match readSigned true (skipSpace input) with
  | none => none
  | some (n, rest) => if InInt64 n then some (n, rest) else none

/-- `in.get()`, when it has to return the byte `b`. -/
def expect (b : UInt8) : Bytes → Option Bytes
  | [] => none
  | c :: rest => if c = b then some rest else none

/-- `in.read(out, length)`. -/
def readExactly (length : ℕ) (input : Bytes) : Option (Bytes × Bytes) :=
  if input.length < length then none else some (input.take length, input.drop length)

@[simp] theorem expect_cons (b : UInt8) (rest : Bytes) : expect b (b :: rest) = some rest := by
  simp [expect]

@[simp] theorem readExactly_append (s rest : Bytes) :
    readExactly s.length (s ++ rest) = some (s, rest) := by
  simp [readExactly]

def isWord (word : Bytes) : Bool := !word.isEmpty && word.all (fun c => !isSpace c)

theorem readWord_append {word rest : Bytes} {b : UInt8} (hword : isWord word = true)
    (hb : isSpace b = true) : readWord (word ++ b :: rest) = some (word, b :: rest) := by
  obtain ⟨hne, hall⟩ := Bool.and_eq_true_iff.mp hword
  have hall : ∀ c ∈ word, (!isSpace c) = true := List.all_eq_true.mp hall
  have hskip : skipSpace (word ++ b :: rest) = word ++ b :: rest := by
    cases word with
    | nil => cases hne
    | cons c word =>
      have hc := hall c List.mem_cons_self
      rw [Bool.not_eq_true'] at hc
      simp [skipSpace, hc]
  simp [readWord, hskip, List.takeWhile_append_of_pos hall, List.dropWhile_append_of_pos hall, hb]

theorem isSpace_of_isDigit {b : UInt8} (h : isDigit b = true) : isSpace b = false := by
  simp only [isDigit, Bool.and_eq_true, decide_eq_true_eq, UInt8.le_iff_toNat_le] at h
  simp only [isSpace, Bool.or_eq_false_iff, decide_eq_false_iff_not, Bool.and_eq_false_imp,
    decide_eq_true_eq]
  refine ⟨?_, fun _ hle => ?_⟩
  · rintro rfl
    simp at h
  · have hlow : b.toNat ≤ 13 := UInt8.le_iff_toNat_le.mp hle
    have hhigh : 48 ≤ b.toNat := h.1
    omega

theorem readNumber_intDecimal {n : ℤ} (hn : InInt64 n) {rest : Bytes}
    (h : ∀ b ∈ rest.head?, isDigit b = false) :
    readNumber (intDecimal n ++ rest) = some (n, rest) := by
  have hskip : skipSpace (intDecimal n ++ rest) = intDecimal n ++ rest := by
    cases hd : intDecimal n with
    | nil => exact absurd hd (intDecimal_ne_nil n)
    | cons b bs =>
      have hb : isDigit b = true ∨ b = byte '-' :=
        intDecimal_byte (n := n) (by rw [hd]; exact List.mem_cons_self)
      have hspace : isSpace b = false := by
        rcases hb with hb | rfl
        · exact isSpace_of_isDigit hb
        · rfl
      simp [skipSpace, hspace]
  simp [readNumber, hskip, readSigned_intDecimal true n h, hn]

theorem length_dropWhile_le {α : Type*} (p : α → Bool) (xs : List α) :
    (xs.dropWhile p).length ≤ xs.length :=
  (List.dropWhile_suffix p).length_le

theorem expect_length {b : UInt8} {input rest : Bytes} (h : expect b input = some rest) :
    rest.length < input.length := by
  cases input with
  | nil => cases h
  | cons c input =>
    simp only [expect] at h
    split at h
    · cases h
      exact Nat.lt_succ_self _
    · cases h

theorem readExactly_length {length : ℕ} {input out rest : Bytes}
    (h : readExactly length input = some (out, rest)) : rest.length ≤ input.length := by
  unfold readExactly at h
  split at h
  · cases h
  · cases h
    simp

theorem readWord_length {input word rest : Bytes} (h : readWord input = some (word, rest)) :
    rest.length ≤ input.length := by
  simp only [readWord] at h
  split at h
  · cases h
  · cases h
    exact (length_dropWhile_le _ _).trans (length_dropWhile_le _ _)

theorem readNumber_length {input rest : Bytes} {n : ℤ} (h : readNumber input = some (n, rest)) :
    rest.length ≤ input.length := by
  simp only [readNumber] at h
  split at h
  · cases h
  · rename_i m rest' hread
    split at h
    · cases h
      exact (readSigned_length hread).trans (length_dropWhile_le _ _)
    · cases h

section Extend
variable {input rest : Bytes} (more : Bytes)

theorem expect_extend {b : UInt8} (h : expect b input = some rest) :
    expect b (input ++ more) = some (rest ++ more) := by
  cases input with
  | nil => cases h
  | cons c input =>
    simp only [List.cons_append, expect] at h ⊢
    split at h
    · rename_i hc
      cases h
      rw [if_pos hc]
    · cases h

theorem readExactly_extend {length : ℕ} {out : Bytes}
    (h : readExactly length input = some (out, rest)) :
    readExactly length (input ++ more) = some (out, rest ++ more) := by
  unfold readExactly at h ⊢
  split at h
  · cases h
  · rename_i hle
    cases h
    have hle' : length ≤ input.length := not_lt.mp hle
    have hmore : ¬ (input ++ more).length < length := by
      rw [List.length_append]
      omega
    rw [if_neg hmore, List.take_append_of_le_length hle', List.drop_append_of_le_length hle']

theorem skipSpace_extend (h : skipSpace input ≠ []) :
    skipSpace (input ++ more) = skipSpace input ++ more :=
  (takeWhile_dropWhile_extend h more).2

theorem readWord_extend {word : Bytes} (h : readWord input = some (word, rest)) (hrest : rest ≠ []) :
    readWord (input ++ more) = some (word, rest ++ more) := by
  simp only [readWord] at h ⊢
  split at h
  · cases h
  · rename_i hne
    cases h
    obtain ⟨htake, hdrop⟩ := takeWhile_dropWhile_extend hrest more
    rw [skipSpace_extend more hne, if_neg (List.append_ne_nil_of_left_ne_nil hne more), htake, hdrop]

theorem readNumber_extend {n : ℤ} (h : readNumber input = some (n, rest)) (hrest : rest ≠ []) :
    readNumber (input ++ more) = some (n, rest ++ more) := by
  simp only [readNumber] at h ⊢
  split at h
  · cases h
  · rename_i m rest' hread
    split at h
    · rename_i hin
      cases h
      have hne : skipSpace input ≠ [] := by
        intro hnil
        rw [hnil] at hread
        cases hread
      simp only [skipSpace_extend more hne, readSigned_extend hread hrest more, hin, if_true]
    · cases h

end Extend

theorem ne_nil_of_expect {b : UInt8} {input rest : Bytes} (h : expect b input = some rest) :
    input ≠ [] := by
  rintro rfl
  cases h

end RedisLite.StreamExtraction
