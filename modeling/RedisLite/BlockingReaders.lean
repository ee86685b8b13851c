import RedisLite.IncrementalDecoding

/-!
# Blocking readers

A blocking reader wants a number of values. It decodes what its buffer holds, and asks for more symbols
only as long as that is not enough. However the stream is cut into pieces, it gets the first values of
the stream and leaves the symbols after them alone.
-/

namespace RedisLite.IncrementalDecoding

universe u v w

variable {α : Type u} {β : Type v} {ε : Type w}

/-- The values taken from a buffer, the symbols left in it, how many values are still wanted, and the
error at which the reader gave up. -/
structure Taken (α : Type u) (β : Type v) (ε : Type w) where
  values : List β
  rest : List α
  wanted : ℕ
  error : Option ε

def Taken.after (values : List β) (t : Taken α β ε) : Taken α β ε :=
  { t with values := values ++ t.values }

/-- Take so many values from the front of a buffer, as long as it holds complete ones. -/
def takeValues (decode : List α → Verdict β ε) : ℕ → List α → Taken α β ε
  | 0, x => ⟨[], x, 0, none⟩
  | wanted + 1, x =>
    match decode x with
    | .incomplete => ⟨[], x, wanted + 1, none⟩
    | .malformed e => ⟨[], x, wanted + 1, some e⟩
    | .ok v n => (takeValues decode wanted (x.drop n)).after [v]

/-- The reader has to wait for more symbols. -/
def Taken.Blocked (t : Taken α β ε) : Prop := t.error = none ∧ 0 < t.wanted

instance (t : Taken α β ε) : Decidable t.Blocked :=
  inferInstanceAs (Decidable (t.error = none ∧ 0 < t.wanted))

variable {decode : List α → Verdict β ε}

theorem takeValues_zero (x : List α) : takeValues decode 0 x = ⟨[], x, 0, none⟩ := rfl

theorem takeValues_incomplete {x : List α} (h : decode x = .incomplete) (wanted : ℕ) :
    takeValues decode wanted x = ⟨[], x, wanted, none⟩ := by
  cases wanted with
  | zero => rfl
  | succ wanted => simp [takeValues, h]

theorem takeValues_malformed {x : List α} {e : ε} (h : decode x = .malformed e) (wanted : ℕ) :
    takeValues decode (wanted + 1) x = ⟨[], x, wanted + 1, some e⟩ := by
  simp [takeValues, h]

theorem takeValues_ok {x : List α} {v : β} {n : ℕ} (h : decode x = .ok v n) (wanted : ℕ) :
    takeValues decode (wanted + 1) x = (takeValues decode wanted (x.drop n)).after [v] := by
  simp [takeValues, h]

theorem takeValues_count (wanted : ℕ) (x : List α) :
    (takeValues decode wanted x).values.length + (takeValues decode wanted x).wanted = wanted := by
  induction wanted generalizing x with
  | zero => rfl
  | succ wanted ih =>
    cases hd : decode x with
    | incomplete => simp [takeValues_incomplete hd]
    | malformed e => simp [takeValues_malformed hd]
    | ok v n =>
      have hcount := ih (x.drop n)
      simp only [takeValues_ok hd, Taken.after, List.length_append, List.length_singleton]
      omega

/-- A reader that gave up still wants the value at which it did. -/
theorem takeValues_satisfied {wanted : ℕ} {x : List α}
    (h : (takeValues decode wanted x).wanted = 0) : (takeValues decode wanted x).error = none := by
  induction wanted generalizing x with
  | zero => rfl
  | succ wanted ih =>
    cases hd : decode x with
    | incomplete => rw [takeValues_incomplete hd]
    | malformed e =>
      rw [takeValues_malformed hd] at h
      exact absurd h (Nat.succ_ne_zero wanted)
    | ok v n =>
      rw [takeValues_ok hd] at h ⊢
      exact ih h

/-- A reader that has to wait holds the beginning of one value. -/
theorem takeValues_blocked {wanted : ℕ} {x : List α} (h : (takeValues decode wanted x).Blocked) :
    decode (takeValues decode wanted x).rest = .incomplete := by
  induction wanted generalizing x with
  | zero => exact absurd h.2 (Nat.lt_irrefl 0)
  | succ wanted ih =>
    cases hd : decode x with
    | incomplete => rw [takeValues_incomplete hd]; exact hd
    | malformed e =>
      rw [takeValues_malformed hd] at h
      exact absurd h.1 (Option.some_ne_none e)
    | ok v n =>
      rw [takeValues_ok hd] at h ⊢
      exact ih h

/-- A decoder that goes on as long as it can is a reader that wants more than there is. -/
theorem drainWith_eq_takeValues (fuel : ℕ) (x : List α) :
    drainWith decode fuel x = ⟨(takeValues decode fuel x).values, (takeValues decode fuel x).rest,
      (takeValues decode fuel x).error⟩ := by
  induction fuel generalizing x with
  | zero => rfl
  | succ fuel ih =>
    cases hd : decode x with
    | incomplete => simp [drainWith, takeValues, hd]
    | malformed e => simp [drainWith, takeValues, hd]
    | ok v n => simp [drainWith, takeValues, hd, ih, Drained.push, Taken.after]

section Stable
variable (hs : Stable decode)
include hs

/-- Symbols that arrive later are decoded with the ones that are left. -/
theorem takeValues_append {wanted : ℕ} {x : List α} (h : (takeValues decode wanted x).error = none)
    (y : List α) :
    takeValues decode wanted (x ++ y) =
      (takeValues decode (takeValues decode wanted x).wanted
        ((takeValues decode wanted x).rest ++ y)).after (takeValues decode wanted x).values := by
  induction wanted generalizing x with
  | zero => rfl
  | succ wanted ih =>
    cases hd : decode x with
    | incomplete =>
      rw [takeValues_incomplete hd]
      rfl
    | malformed e =>
      rw [takeValues_malformed hd] at h
      exact absurd h (Option.some_ne_none e)
    | ok v n =>
      rw [takeValues_ok hd] at h ⊢
      rw [takeValues_ok (hs.ok_append hd y), List.drop_append_of_le_length (hs.consumed_le hd), ih h]
      simp [Taken.after]

/-- From a part of a stream of encodings a reader takes the first values, and what it leaves is the
same part of the encodings of the others. -/
theorem takeValues_prefix {encode : β → List α} {vs : List β} {x y : List α}
    (henc : ∀ v ∈ vs, ∀ t, decode (encode v ++ t) = .ok v (encode v).length)
    (hempty : decode [] = .incomplete) (h : x ++ y = vs.flatMap encode) (wanted : ℕ) :
    let t := takeValues decode wanted x
    t.error = none ∧ t.values = vs.take t.values.length ∧
      t.rest ++ y = (vs.drop t.values.length).flatMap encode := by
  induction wanted generalizing vs x with
  | zero => exact ⟨rfl, rfl, h⟩
  | succ wanted ih =>
    cases hd : decode x with
    | incomplete =>
      rw [takeValues_incomplete hd]
      exact ⟨rfl, rfl, h⟩
    | malformed e =>
      have hall := hs.malformed_append hd y
      rw [h] at hall
      cases vs with
      | nil => rw [List.flatMap_nil, hempty] at hall; cases hall
      | cons v vs => rw [List.flatMap_cons, henc v List.mem_cons_self] at hall; cases hall
    | ok v' n =>
      have hall := hs.ok_append hd y
      rw [h] at hall
      cases vs with
      | nil => rw [List.flatMap_nil, hempty] at hall; cases hall
      | cons v vs =>
        rw [List.flatMap_cons, henc v List.mem_cons_self] at hall
        obtain ⟨rfl, rfl⟩ : v = v' ∧ (encode v).length = n := by simpa using hall
        have hrest : x.drop (encode v).length ++ y = vs.flatMap encode := by
          rw [← List.drop_append_of_le_length (hs.consumed_le hd), h, List.flatMap_cons,
            List.drop_left]
        obtain ⟨herror, hvalues, hleft⟩ :=
          ih (fun w hw => henc w (List.mem_cons_of_mem v hw)) hrest
        rw [takeValues_ok hd]
        exact ⟨herror, congrArg (v :: ·) hvalues, hleft⟩

omit hs in
/-- Of the encodings of the values that it wants a reader leaves nothing. -/
theorem takeValues_all {encode : β → List α} {vs : List β}
    (henc : ∀ v ∈ vs, ∀ t, decode (encode v ++ t) = .ok v (encode v).length) :
    takeValues decode vs.length (vs.flatMap encode) = ⟨vs, [], 0, none⟩ := by
  induction vs with
  | nil => rfl
  | cons v vs ih =>
    rw [List.flatMap_cons, List.length_cons, takeValues_ok (henc v List.mem_cons_self _),
      List.drop_left, ih fun v' hv' => henc v' (List.mem_cons_of_mem v hv')]
    rfl

/-- From a part of a stream of encodings a decoder takes the first values, and what it leaves is the
same part of the encodings of the others. -/
theorem drain_prefix {encode : β → List α} {vs : List β} {x y : List α}
    (henc : ∀ v ∈ vs, ∀ t, decode (encode v ++ t) = .ok v (encode v).length)
    (hempty : decode [] = .incomplete) (h : x ++ y = vs.flatMap encode) :
    let d := drain decode x
    d.error = none ∧ d.values = vs.take d.values.length ∧
      d.rest ++ y = (vs.drop d.values.length).flatMap encode := by
  rw [drain, drainWith_eq_takeValues]
  exact takeValues_prefix hs henc hempty h (x.length + 1)

end Stable

end RedisLite.IncrementalDecoding
