import Mathlib.Tactic.Linarith

/-!
# Byte strings and decimal numerals

Strings are lists of bytes. A numeral is printed without leading zeros; a reader takes an optional
sign and the longest run of digits, so it returns the number together with the bytes after it.
-/

namespace RedisLite.ByteStrings

abbrev Bytes := List UInt8

def byte (c : Char) : UInt8 := UInt8.ofNat c.toNat

/-- The bytes of a string literal. -/
def text (s : String) : Bytes := s.toList.map byte

def cr : UInt8 := 13
def lf : UInt8 := 10
def crlf : Bytes := [cr, lf]

@[simp] theorem length_crlf : crlf.length = 2 := rfl

/-- The position of the first CR LF pair. -/
def findCrlf : Bytes → Option ℕ
  | [] => none
  | [_] => none
  | a :: b :: rest =>
    if a = cr ∧ b = lf then some 0 else (findCrlf (b :: rest)).map (· + 1)

theorem findCrlf_cons (a : UInt8) (rest : Bytes) :
    findCrlf (a :: rest) =
      if a = cr ∧ rest.head? = some lf then some 0 else (findCrlf rest).map (· + 1) := by
  cases rest with
  | nil => simp [findCrlf]
  | cons b rest => simp [findCrlf]

/-- A found pair is there, and nothing after it changes which pair is the first. -/
theorem findCrlf_some_spec {x : Bytes} {i : ℕ} (h : findCrlf x = some i) :
    ∃ rest, x = x.take i ++ crlf ++ rest ∧ (x.take i).length = i := by
  induction x generalizing i with
  | nil => simp [findCrlf] at h
  | cons a x ih =>
    rw [findCrlf_cons] at h
    split at h
    · rename_i hpair
      obtain ⟨rfl, hlf⟩ := hpair
      obtain ⟨rest, rfl⟩ := List.head?_eq_some_iff.mp hlf
      cases h
      exact ⟨rest, by simp [crlf], rfl⟩
    · obtain ⟨j, hj, rfl⟩ := Option.map_eq_some_iff.mp h
      obtain ⟨rest, hrest, hlen⟩ := ih hj
      refine ⟨rest, ?_, by simp [hlen]⟩
      simpa using hrest

theorem findCrlf_append {x : Bytes} {i : ℕ} (h : findCrlf x = some i) (y : Bytes) :
    findCrlf (x ++ y) = some i := by
  induction x generalizing i with
  | nil => simp [findCrlf] at h
  | cons a x ih =>
    rw [findCrlf_cons] at h
    rw [List.cons_append, findCrlf_cons]
    split at h
    · rename_i hpair
      have hhead : (x ++ y).head? = some lf := by simp [List.head?_append, hpair.2]
      rw [if_pos ⟨hpair.1, hhead⟩, h]
    · rename_i hpair
      obtain ⟨j, hj, rfl⟩ := Option.map_eq_some_iff.mp h
      have hne : x ≠ [] := by rintro rfl; simp [findCrlf] at hj
      have hhead : (x ++ y).head? = x.head? := by
        cases x with
        | nil => exact absurd rfl hne
        | cons b x => rfl
      rw [hhead, if_neg hpair, ih hj]
      rfl

theorem findCrlf_line {line : Bytes} (h : cr ∉ line) (rest : Bytes) :
    findCrlf (line ++ crlf ++ rest) = some line.length := by
  induction line with
  | nil => simp [crlf, findCrlf]
  | cons a line ih =>
    have ha : a ≠ cr := fun he => h (he ▸ List.mem_cons_self)
    have hline : cr ∉ line := fun hm => h (List.mem_cons_of_mem a hm)
    rw [List.cons_append, List.cons_append, findCrlf_cons, if_neg (fun hp => ha hp.1), ih hline]
    rfl

def isDigit (b : UInt8) : Bool := 48 ≤ b && b ≤ 57

def natDecimal (n : ℕ) : Bytes := (Nat.toDigits 10 n).map byte

def intDecimal : ℤ → Bytes
  | .ofNat n => natDecimal n
  | .negSucc n => byte '-' :: natDecimal (n + 1)

def digitsValue (digits : Bytes) : ℕ :=
  digits.foldl (fun value d => 10 * value + (d.toNat - 48)) 0

private theorem byte_digit {c : Char} (h : c.isDigit = true) :
    isDigit (byte c) = true ∧ (byte c).toNat = c.toNat := by
  simp only [Char.isDigit, Bool.and_eq_true, decide_eq_true_eq] at h
  have hlo : 48 ≤ c.toNat := h.1
  have hhi : c.toNat ≤ 57 := h.2
  have hval : (byte c).toNat = c.toNat := by
    simp only [byte, UInt8.toNat_ofNat']
    omega
  refine ⟨?_, hval⟩
  simp only [isDigit, Bool.and_eq_true, decide_eq_true_eq, UInt8.le_iff_toNat_le, hval]
  exact ⟨hlo, hhi⟩

theorem isDigit_of_mem_natDecimal {n : ℕ} {b : UInt8} (h : b ∈ natDecimal n) :
    isDigit b = true := by
  obtain ⟨c, hc, rfl⟩ := List.mem_map.mp h
  exact (byte_digit (Nat.isDigit_of_mem_toDigits (by decide) (by decide) hc)).1

theorem natDecimal_ne_nil (n : ℕ) : natDecimal n ≠ [] := by
  simp [natDecimal, Nat.toDigits_ne_nil]

private theorem foldl_byte_digits (cs : List Char) (h : ∀ c ∈ cs, c.isDigit = true) (init : ℕ) :
    (cs.map byte).foldl (fun value d => 10 * value + (d.toNat - 48)) init =
      Nat.ofDigitChars 10 cs init := by
  induction cs generalizing init with
  | nil => simp
  | cons c cs ih =>
    have hc := (byte_digit (h c List.mem_cons_self)).2
    have hcs : ∀ d ∈ cs, d.isDigit = true := fun d hd => h d (List.mem_cons_of_mem c hd)
    rw [List.map_cons, List.foldl_cons, ih hcs, Nat.ofDigitChars_cons, hc]
    rfl

@[simp] theorem digitsValue_natDecimal (n : ℕ) : digitsValue (natDecimal n) = n := by
  rw [digitsValue, natDecimal, foldl_byte_digits _ (fun c hc =>
    Nat.isDigit_of_mem_toDigits (by decide) (by decide) hc), Nat.ofDigitChars_ten_toDigits]

theorem takeWhile_digits_append {digits rest : Bytes} (hd : ∀ b ∈ digits, isDigit b = true)
    (hr : ∀ b ∈ rest.head?, isDigit b = false) :
    (digits ++ rest).takeWhile isDigit = digits ∧ (digits ++ rest).dropWhile isDigit = rest := by
  have htake : rest.takeWhile isDigit = [] := by
    cases rest with
    | nil => rfl
    | cons b rest => simp [hr b rfl]
  have hdrop : rest.dropWhile isDigit = rest := by
    cases rest with
    | nil => rfl
    | cons b rest => simp [hr b rfl]
  exact ⟨by rw [List.takeWhile_append_of_pos hd, htake, List.append_nil],
    by rw [List.dropWhile_append_of_pos hd, hdrop]⟩

/-- An optional `-`, or `+` where the reader allows it, and what follows. -/
def splitSign (plus : Bool) : Bytes → Bool × Bytes
  | [] => (false, [])
  | b :: rest =>
    if b = byte '-' then (true, rest)
    else if plus = true ∧ b = byte '+' then (false, rest)
    else (false, b :: rest)

/-- The longest numeral at the front, or `none` when there is no digit. -/
def readSigned (plus : Bool) (bs : Bytes) : Option (ℤ × Bytes) :=
  let sign := splitSign plus bs
  let digits := sign.2.takeWhile isDigit
  if digits = [] then none
  else some (if sign.1 then -(digitsValue digits : ℤ) else digitsValue digits,
    sign.2.dropWhile isDigit)

theorem splitSign_digit {plus : Bool} {b : UInt8} {rest : Bytes} (h : isDigit b = true) :
    splitSign plus (b :: rest) = (false, b :: rest) := by
  have hminus : b ≠ byte '-' := by rintro rfl; exact absurd h (by decide)
  have hplus : b ≠ byte '+' := by rintro rfl; exact absurd h (by decide)
  simp [splitSign, hminus, hplus]

private theorem readSigned_natDecimal (plus : Bool) (n : ℕ) {rest : Bytes}
    (h : ∀ b ∈ rest.head?, isDigit b = false) :
    readSigned plus (natDecimal n ++ rest) = some ((n : ℤ), rest) := by
  have hsign : splitSign plus (natDecimal n ++ rest) = (false, natDecimal n ++ rest) := by
    cases hd : natDecimal n with
    | nil => exact absurd hd (natDecimal_ne_nil n)
    | cons b bs =>
      exact splitSign_digit (isDigit_of_mem_natDecimal (n := n) (by rw [hd]; exact List.mem_cons_self))
  obtain ⟨htake, hdrop⟩ := takeWhile_digits_append (fun _ hb => isDigit_of_mem_natDecimal (n := n) hb) h
  simp [readSigned, hsign, htake, hdrop, natDecimal_ne_nil]

/-- Reading undoes printing, and stops at the first byte that is no digit. -/
theorem readSigned_intDecimal (plus : Bool) (n : ℤ) {rest : Bytes}
    (h : ∀ b ∈ rest.head?, isDigit b = false) :
    readSigned plus (intDecimal n ++ rest) = some (n, rest) := by
  cases n with
  | ofNat n => exact readSigned_natDecimal plus n h
  | negSucc n =>
    obtain ⟨htake, hdrop⟩ :=
      takeWhile_digits_append (fun _ hb => isDigit_of_mem_natDecimal (n := n + 1) hb) h
    simp only [readSigned, intDecimal, List.cons_append, splitSign, if_true, htake, hdrop,
      natDecimal_ne_nil, if_false, digitsValue_natDecimal]
    rw [Int.negSucc_eq]
    push_cast
    rfl

theorem intDecimal_natCast (n : ℕ) : intDecimal (n : ℤ) = natDecimal n := rfl

/-- A printed number is digits and at most a sign, so no byte of it ends a line. -/
theorem intDecimal_byte {n : ℤ} {b : UInt8} (h : b ∈ intDecimal n) :
    isDigit b = true ∨ b = byte '-' := by
  cases n with
  | ofNat n => exact Or.inl (isDigit_of_mem_natDecimal h)
  | negSucc n =>
    rcases List.mem_cons.mp h with rfl | hb
    · exact Or.inr rfl
    · exact Or.inl (isDigit_of_mem_natDecimal hb)

theorem intDecimal_ne_nil (n : ℤ) : intDecimal n ≠ [] := by
  cases n with
  | ofNat n => exact natDecimal_ne_nil n
  | negSucc n => exact List.cons_ne_nil _ _

theorem readSigned_length {plus : Bool} {bs rest : Bytes} {n : ℤ}
    (h : readSigned plus bs = some (n, rest)) : rest.length ≤ bs.length := by
  have hsign : (splitSign plus bs).2.length ≤ bs.length := by
    cases bs with
    | nil => exact le_refl _
    | cons b bs =>
      simp only [splitSign]
      split
      · exact Nat.le_succ _
      · split
        · exact Nat.le_succ _
        · exact le_refl _
  simp only [readSigned] at h
  split at h
  · cases h
  · cases h
    exact (List.dropWhile_suffix _).length_le.trans hsign

/-- Where a run of elements ends inside a list, it ends there in every longer list. -/
theorem takeWhile_dropWhile_extend {α : Type*} {p : α → Bool} {xs : List α} (h : xs.dropWhile p ≠ [])
    (ys : List α) : (xs ++ ys).takeWhile p = xs.takeWhile p ∧
      (xs ++ ys).dropWhile p = xs.dropWhile p ++ ys := by
  induction xs with
  | nil => exact absurd rfl h
  | cons x xs ih =>
    by_cases hx : p x
    · have hrest : xs.dropWhile p ≠ [] := by simpa [hx] using h
      obtain ⟨htake, hdrop⟩ := ih hrest
      simp [hx, htake, hdrop]
    · simp [hx]

/-- A numeral that ends before the end of the input ends there in every longer input. -/
theorem readSigned_extend {plus : Bool} {bs rest : Bytes} {n : ℤ}
    (h : readSigned plus bs = some (n, rest)) (hrest : rest ≠ []) (more : Bytes) :
    readSigned plus (bs ++ more) = some (n, rest ++ more) := by
  have hsign : bs ≠ [] → splitSign plus (bs ++ more) =
      ((splitSign plus bs).1, (splitSign plus bs).2 ++ more) := by
    intro hne
    cases bs with
    | nil => exact absurd rfl hne
    | cons b bs =>
      simp only [List.cons_append, splitSign]
      split
      · rfl
      · split <;> rfl
  simp only [readSigned] at h
  split at h
  · cases h
  · rename_i hdigits
    cases h
    have hne : bs ≠ [] := by
      rintro rfl
      exact hdigits rfl
    obtain ⟨htake, hdrop⟩ := takeWhile_dropWhile_extend hrest more
    simp only [readSigned, hsign hne, htake, hdrop, hdigits, if_false]

def minInt64 : ℤ := -9223372036854775808
def maxInt64 : ℤ := 9223372036854775807

/-- The values of a signed 64-bit integer. -/
def InInt64 (n : ℤ) : Prop := minInt64 ≤ n ∧ n ≤ maxInt64

instance (n : ℤ) : Decidable (InInt64 n) := inferInstanceAs (Decidable (_ ∧ _))

/-- What a signed 64-bit operation leaves of a result that is out of range. -/
def wrapInt64 (n : ℤ) : ℤ := n.bmod (2 ^ 64)

theorem inInt64_wrapInt64 (n : ℤ) : InInt64 (wrapInt64 n) := by
  have hmin : -(((2 ^ 64 : ℕ) : ℤ) / 2) ≤ n.bmod (2 ^ 64) := Int.le_bmod (by decide)
  have hmax : n.bmod (2 ^ 64) < (((2 ^ 64 : ℕ) : ℤ) + 1) / 2 := Int.bmod_lt (by decide)
  unfold InInt64 minInt64 maxInt64 wrapInt64
  omega

theorem wrapInt64_of_inInt64 {n : ℤ} (h : InInt64 n) : wrapInt64 n = n := by
  obtain ⟨hmin, hmax⟩ := h
  unfold minInt64 at hmin
  unfold maxInt64 at hmax
  apply Int.bmod_eq_of_le
  · omega
  · omega

/-- A string whose length is a signed 64-bit number, as that of every string in memory. -/
def FitsMemory (s : Bytes) : Prop := (s.length : ℤ) ≤ maxInt64

instance (s : Bytes) : Decidable (FitsMemory s) := inferInstanceAs (Decidable (_ ≤ _))

/-- `std::from_chars` for a signed 64-bit integer: a `+` or blanks are not taken, and a number out
of range is an error. -/
def fromChars (bs : Bytes) : Option (ℤ × Bytes) :=
  match readSigned false bs with
  | none => none
  | some (n, rest) => if InInt64 n then some (n, rest) else none

def toInteger (bs : Bytes) : Option ℤ :=
  match fromChars bs with
  | some (n, []) => some n
  | _ => none

@[simp] theorem toInteger_intDecimal {n : ℤ} (h : InInt64 n) : toInteger (intDecimal n) = some n := by
  have hread : readSigned false (intDecimal n ++ []) = _ := readSigned_intDecimal false n (by simp)
  rw [List.append_nil] at hread
  simp [toInteger, fromChars, hread, h]

def SignedDecimal (bs : Bytes) (n : ℤ) : Prop :=
  ∃ digits : Bytes, digits ≠ [] ∧ (∀ d ∈ digits, isDigit d = true) ∧
    ((bs = digits ∧ n = digitsValue digits) ∨
      (bs = byte '-' :: digits ∧ n = -(digitsValue digits : ℤ)))

private theorem readSigned_digits {digits : Bytes} (hne : digits ≠ [])
    (hd : ∀ d ∈ digits, isDigit d = true) :
    readSigned false digits = some ((digitsValue digits : ℤ), []) ∧
      readSigned false (byte '-' :: digits) = some (-(digitsValue digits : ℤ), []) := by
  have hend : ∀ b ∈ ([] : Bytes).head?, isDigit b = false := nofun
  obtain ⟨htake, hdrop⟩ := takeWhile_digits_append hd hend
  rw [List.append_nil] at htake hdrop
  have hsign : splitSign false digits = (false, digits) := by
    cases digits with
    | nil => exact absurd rfl hne
    | cons b rest => exact splitSign_digit (hd b List.mem_cons_self)
  exact ⟨by simp [readSigned, hsign, htake, hdrop, hne],
    by simp [readSigned, splitSign, htake, hdrop, hne]⟩

theorem readSigned_eq_iff {bs : Bytes} {n : ℤ} :
    readSigned false bs = some (n, []) ↔ SignedDecimal bs n := by
  constructor
  · intro h
    simp only [readSigned] at h
    split at h
    · cases h
    rename_i hne
    obtain ⟨hn, hrest⟩ := Prod.mk.inj (Option.some.inj h)
    have hbody : (splitSign false bs).2 = (splitSign false bs).2.takeWhile isDigit := by
      have hsplit := List.takeWhile_append_dropWhile (p := isDigit) (l := (splitSign false bs).2)
      rw [hrest, List.append_nil] at hsplit
      exact hsplit.symm
    refine ⟨_, hne, fun d hd => List.all_eq_true.mp List.all_takeWhile d hd, ?_⟩
    rw [← hbody] at hn ⊢
    cases bs with
    | nil => exact Or.inl ⟨rfl, by simpa [splitSign] using hn.symm⟩
    | cons b rest =>
      by_cases hb : b = byte '-'
      · subst hb
        exact Or.inr ⟨rfl, by simpa [splitSign] using hn.symm⟩
      · have hsign : splitSign false (b :: rest) = (false, b :: rest) := by simp [splitSign, hb]
        rw [hsign] at hn ⊢
        exact Or.inl ⟨rfl, by simpa using hn.symm⟩
  · rintro ⟨digits, hne, hd, ⟨rfl, rfl⟩ | ⟨rfl, rfl⟩⟩
    · exact (readSigned_digits hne hd).1
    · exact (readSigned_digits hne hd).2

/-- Exactly the signed decimals in range are taken. -/
theorem toInteger_eq_some_iff {bs : Bytes} {n : ℤ} :
    toInteger bs = some n ↔ SignedDecimal bs n ∧ InInt64 n := by
  rw [← readSigned_eq_iff]
  simp only [toInteger, fromChars]
  cases hread : readSigned false bs with
  | none => simp
  | some p =>
    obtain ⟨m, rest⟩ := p
    by_cases hm : InInt64 m
    · cases rest with
      | nil =>
        simp only [hm, if_true, Option.some.injEq, Prod.mk.injEq, and_true]
        exact ⟨fun h => ⟨h, h ▸ hm⟩, fun h => h.1⟩
      | cons b rest => simp [hm]
    · simp only [hm, if_false, Option.some.injEq, Prod.mk.injEq, reduceCtorEq, false_iff]
      rintro ⟨⟨rfl, -⟩, hn⟩
      exact hm hn

theorem signedDecimal_intDecimal (n : ℤ) : SignedDecimal (intDecimal n) n := by
  have hread : readSigned false (intDecimal n ++ []) = _ := readSigned_intDecimal false n (by simp)
  rw [List.append_nil] at hread
  exact readSigned_eq_iff.mp hread

theorem SignedDecimal.mem {bs : Bytes} {n : ℤ} (h : SignedDecimal bs n) {b : UInt8}
    (hb : b ∈ bs) : isDigit b = true ∨ b = byte '-' := by
  obtain ⟨digits, -, hdigits, ⟨rfl, -⟩ | ⟨rfl, -⟩⟩ := h
  · exact Or.inl (hdigits b hb)
  · rcases List.mem_cons.mp hb with rfl | hb
    · exact Or.inr rfl
    · exact Or.inl (hdigits b hb)

theorem SignedDecimal.cr_notMem {bs : Bytes} {n : ℤ} (h : SignedDecimal bs n) : cr ∉ bs := by
  intro hcr
  rcases h.mem hcr with hd | hd <;> exact absurd hd (by decide)

theorem SignedDecimal.lf_notMem {bs : Bytes} {n : ℤ} (h : SignedDecimal bs n) : lf ∉ bs := by
  intro hlf
  rcases h.mem hlf with hd | hd <;> exact absurd hd (by decide)

private theorem foldl_digits_lt {digits : Bytes} (hd : ∀ d ∈ digits, isDigit d = true) (init : ℕ) :
    digits.foldl (fun value d => 10 * value + (d.toNat - 48)) init <
      (init + 1) * 10 ^ digits.length := by
  induction digits generalizing init with
  | nil => simp
  | cons d digits ih =>
    have hdigit := hd d List.mem_cons_self
    simp only [isDigit, Bool.and_eq_true, decide_eq_true_eq, UInt8.le_iff_toNat_le] at hdigit
    have hvalue : d.toNat ≤ 57 := hdigit.2
    have hrest := ih (fun e he => hd e (List.mem_cons_of_mem d he)) (10 * init + (d.toNat - 48))
    rw [List.foldl_cons, List.length_cons, pow_succ']
    refine hrest.trans_le ?_
    rw [← mul_assoc]
    exact Nat.mul_le_mul_right _ (by omega)

/-- No numeral of a number is shorter than the printed one. -/
theorem length_natDecimal_le {digits : Bytes} (hne : digits ≠ [])
    (hd : ∀ d ∈ digits, isDigit d = true) :
    (natDecimal (digitsValue digits)).length ≤ digits.length := by
  have hlt := foldl_digits_lt hd 0
  rw [Nat.zero_add, Nat.one_mul] at hlt
  rw [natDecimal, List.length_map]
  exact (Nat.length_toDigits_le_iff (by decide) (List.length_pos_iff.mpr hne)).mpr hlt

theorem SignedDecimal.length_le {bs : Bytes} {n : ℤ} (h : SignedDecimal bs n) :
    (intDecimal n).length ≤ bs.length := by
  obtain ⟨digits, hne, hdigits, ⟨rfl, rfl⟩ | ⟨rfl, rfl⟩⟩ := h
  · exact length_natDecimal_le hne hdigits
  · have hlength := length_natDecimal_le hne hdigits
    cases hvalue : digitsValue digits with
    | zero =>
      rw [hvalue] at hlength
      exact hlength.trans (Nat.le_succ _)
    | succ k =>
      rw [hvalue] at hlength
      exact Nat.succ_le_succ hlength

private theorem le_foldl_digits (digits : Bytes) (init : ℕ) :
    init ≤ digits.foldl (fun value d => 10 * value + (d.toNat - 48)) init := by
  induction digits generalizing init with
  | nil => exact le_refl _
  | cons d digits ih =>
    have hrest := ih (10 * init + (d.toNat - 48))
    rw [List.foldl_cons]
    omega

theorem digitsValue_append_ge (a b : Bytes) : digitsValue a ≤ digitsValue (a ++ b) := by
  rw [digitsValue, digitsValue, List.foldl_append]
  exact le_foldl_digits b _

/-- The front of a numeral is nothing, a sign, or a numeral of a number that is nearer to zero. -/
theorem SignedDecimal.cut {a b : Bytes} {n : ℤ} (h : SignedDecimal (a ++ b) n) (hne : a ≠ [])
    (hminus : a ≠ [byte '-']) :
    ∃ m, SignedDecimal a m ∧ (0 ≤ m ∧ m ≤ n ∨ n ≤ m ∧ m ≤ 0) := by
  obtain ⟨digits, -, hdigits, ⟨rfl, rfl⟩ | ⟨hsplit, rfl⟩⟩ := h
  · have hle := digitsValue_append_ge a b
    refine ⟨digitsValue a, ⟨a, hne, fun d hd => hdigits d (List.mem_append_left b hd),
      Or.inl ⟨rfl, rfl⟩⟩, Or.inl (by omega)⟩
  · cases a with
    | nil => exact absurd rfl hne
    | cons sign a =>
      rw [List.cons_append] at hsplit
      obtain ⟨rfl, rfl⟩ := List.cons.inj hsplit
      have hle := digitsValue_append_ge a b
      refine ⟨-(digitsValue a : ℤ), ⟨a, fun ha => hminus (by rw [ha]),
        fun d hd => hdigits d (List.mem_append_left b hd), Or.inr ⟨rfl, rfl⟩⟩, Or.inr (by omega)⟩

end RedisLite.ByteStrings
