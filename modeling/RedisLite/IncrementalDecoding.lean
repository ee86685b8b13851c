import Mathlib.Tactic.Linarith

/-!
# Incremental decoders

A decoder looks at the symbols received so far and reports a value with the number of symbols it
used, asks for more, or rejects. If later symbols never change a verdict that was given, then
decoding a stream piece by piece, keeping the unused symbols in a buffer, gives the values of the
whole stream decoded at once.
-/

namespace RedisLite.IncrementalDecoding

universe u v w

inductive Verdict (β : Type v) (ε : Type w) where
  | ok (value : β) (consumed : ℕ)
  | incomplete
  | malformed (error : ε)
  deriving DecidableEq, Repr

variable {α : Type u} {β : Type v} {ε : Type w}

def Verdict.map {γ : Type*} (f : β → γ) : Verdict β ε → Verdict γ ε
  | .ok value consumed => .ok (f value) consumed
  | .incomplete => .incomplete
  | .malformed error => .malformed error

/-- Verdicts are final, and a value costs at least one symbol. -/
structure Stable (decode : List α → Verdict β ε) : Prop where
  ok_append : ∀ {x v n}, decode x = .ok v n → ∀ y, decode (x ++ y) = .ok v n
  malformed_append : ∀ {x e}, decode x = .malformed e → ∀ y, decode (x ++ y) = .malformed e
  consumed_pos : ∀ {x v n}, decode x = .ok v n → 0 < n
  consumed_le : ∀ {x v n}, decode x = .ok v n → n ≤ x.length

structure Drained (α : Type u) (β : Type v) (ε : Type w) where
  values : List β
  rest : List α
  error : Option ε

def Drained.push (v : β) (d : Drained α β ε) : Drained α β ε :=
  { d with values := v :: d.values }

/-- Decode value after value until the decoder asks for more or rejects. -/
def drainWith (decode : List α → Verdict β ε) : ℕ → List α → Drained α β ε
  | 0, x => ⟨[], x, none⟩
  | fuel + 1, x =>
    match decode x with
    | .incomplete => ⟨[], x, none⟩
    | .malformed e => ⟨[], x, some e⟩
    | .ok v n => (drainWith decode fuel (x.drop n)).push v

/-- Every value costs a symbol, so the number of symbols bounds the number of rounds. -/
def drain (decode : List α → Verdict β ε) (x : List α) : Drained α β ε :=
  drainWith decode (x.length + 1) x

section Stable
variable {decode : List α → Verdict β ε} (hs : Stable decode)
include hs

theorem drainWith_eq_drain {fuel : ℕ} {x : List α} (h : x.length < fuel) :
    drainWith decode fuel x = drain decode x := by
  suffices hfuel : ∀ k m x, x.length < k → x.length < m →
      drainWith decode k x = drainWith decode m x from
    hfuel fuel (x.length + 1) x h (Nat.lt_succ_self _)
  intro k
  induction k with
  | zero => intro m x hk; omega
  | succ k ih =>
    intro m x hk hm
    cases m with
    | zero => omega
    | succ m =>
      cases hd : decode x with
      | incomplete => simp [drainWith, hd]
      | malformed e => simp [drainWith, hd]
      | ok v n =>
        have hn := hs.consumed_pos hd
        have hle := hs.consumed_le hd
        have hlen : (x.drop n).length < x.length := by rw [List.length_drop]; omega
        simp only [drainWith, hd]
        rw [ih m (x.drop n) (by omega) (by omega)]

theorem drain_ok {x : List α} {v : β} {n : ℕ} (h : decode x = .ok v n) :
    drain decode x = (drain decode (x.drop n)).push v := by
  have hn := hs.consumed_pos h
  have hle := hs.consumed_le h
  have hlen : (x.drop n).length < x.length := by rw [List.length_drop]; omega
  rw [drain, drainWith, h]
  exact congrArg (Drained.push v) (drainWith_eq_drain hs hlen)

omit hs in
theorem drain_incomplete {x : List α} (h : decode x = .incomplete) :
    drain decode x = ⟨[], x, none⟩ := by
  simp [drain, drainWith, h]

omit hs in
theorem drain_malformed {x : List α} {e : ε} (h : decode x = .malformed e) :
    drain decode x = ⟨[], x, some e⟩ := by
  simp [drain, drainWith, h]

/-- Induction over the values at the front of a stream. -/
theorem drain_induction {motive : List α → Prop}
    (incomplete : ∀ x, decode x = .incomplete → motive x)
    (malformed : ∀ x e, decode x = .malformed e → motive x)
    (ok : ∀ x v n, decode x = .ok v n → motive (x.drop n) → motive x) (x : List α) : motive x := by
  induction hlen : x.length using Nat.strong_induction_on generalizing x with
  | _ k ih =>
    cases hd : decode x with
    | incomplete => exact incomplete x hd
    | malformed e => exact malformed x e hd
    | ok v n =>
      have hn := hs.consumed_pos hd
      have hle := hs.consumed_le hd
      exact ok x v n hd (ih _ (by rw [List.length_drop]; omega) _ rfl)

theorem drain_rest_incomplete {x : List α} (h : (drain decode x).error = none) :
    decode (drain decode x).rest = .incomplete := by
  induction x using drain_induction hs with
  | incomplete x hd => rw [drain_incomplete hd]; exact hd
  | malformed x e hd => rw [drain_malformed hd] at h; simp at h
  | ok x v n hd ih =>
    rw [drain_ok hs hd] at h ⊢
    exact ih h

theorem drain_rest_length (x : List α) : (drain decode x).rest.length ≤ x.length := by
  induction x using drain_induction hs with
  | incomplete x hd => rw [drain_incomplete hd]
  | malformed x e hd => rw [drain_malformed hd]
  | ok x v n hd ih =>
    rw [drain_ok hs hd]
    exact ih.trans (by rw [List.length_drop]; omega)

/-- What holds of every value the decoder gives holds of the values of a stream. -/
theorem drain_values {P : β → Prop} (hP : ∀ {x v n}, decode x = .ok v n → P v) (x : List α) :
    ∀ v ∈ (drain decode x).values, P v := by
  induction x using drain_induction hs with
  | incomplete x hd => rw [drain_incomplete hd]; nofun
  | malformed x e hd => rw [drain_malformed hd]; nofun
  | ok x v n hd ih =>
    rw [drain_ok hs hd]
    intro w hw
    rcases List.mem_cons.mp hw with rfl | hw
    · exact hP hd
    · exact ih w hw

/-- What holds of every value that a short buffer gives holds of the values of a short stream. -/
theorem drain_values_within {P : β → Prop} {limit : ℕ}
    (hP : ∀ {x v n}, x.length ≤ limit → decode x = .ok v n → P v) {x : List α}
    (hx : x.length ≤ limit) : ∀ v ∈ (drain decode x).values, P v := by
  induction x using drain_induction hs with
  | incomplete x hd => rw [drain_incomplete hd]; nofun
  | malformed x e hd => rw [drain_malformed hd]; nofun
  | ok x v n hd ih =>
    rw [drain_ok hs hd]
    intro w hw
    rcases List.mem_cons.mp hw with rfl | hw
    · exact hP hx hd
    · exact ih (by rw [List.length_drop]; omega) w hw

/-- Symbols that arrive while the decoder asks for more are decoded with the buffered ones. -/
theorem drain_append {x : List α} (h : (drain decode x).error = none) (y : List α) :
    drain decode (x ++ y) =
      ⟨(drain decode x).values ++ (drain decode ((drain decode x).rest ++ y)).values,
        (drain decode ((drain decode x).rest ++ y)).rest,
        (drain decode ((drain decode x).rest ++ y)).error⟩ := by
  induction x using drain_induction hs with
  | incomplete x hd => rw [drain_incomplete hd]; rfl
  | malformed x e hd => rw [drain_malformed hd] at h; simp at h
  | ok x v n hd ih =>
    rw [drain_ok hs hd] at h ⊢
    rw [drain_ok hs (hs.ok_append hd y), List.drop_append_of_le_length (hs.consumed_le hd), ih h]
    rfl

/-- A stream of encodings decodes to the encoded values. -/
theorem drain_flatMap {encode : β → List α} {vs : List β} {tail : List α}
    (henc : ∀ v ∈ vs, ∀ t, decode (encode v ++ t) = .ok v (encode v).length) :
    drain decode (vs.flatMap encode ++ tail) =
      ⟨vs ++ (drain decode tail).values, (drain decode tail).rest, (drain decode tail).error⟩ := by
  induction vs with
  | nil => rfl
  | cons v vs ih =>
    have hv := henc v List.mem_cons_self (vs.flatMap encode ++ tail)
    have hvs := ih (fun w hw => henc w (List.mem_cons_of_mem v hw))
    rw [List.flatMap_cons, List.append_assoc, drain_ok hs hv, List.drop_left, hvs]
    rfl

end Stable

end RedisLite.IncrementalDecoding
