import Mathlib.Tactic.Linarith

/-!
# Arithmetic with numbers of a limited range

A computation is undefined as soon as one of its numbers leaves the range that the machine can hold;
where all of them stay within it, it gives what it gives with unlimited numbers.
-/

namespace RedisLite.CheckedArithmetic

universe u

variable {InRange : ℤ → Prop} [DecidablePred InRange] {α : Type u}

def checked (InRange : ℤ → Prop) [DecidablePred InRange] (n : ℤ) : Option ℤ :=
  if InRange n then some n else none

@[simp] theorem checked_eq_some_iff {n m : ℤ} :
    checked InRange n = some m ↔ InRange n ∧ n = m := by
  unfold checked
  split
  · rename_i h
    simp [h]
  · rename_i h
    simp [h]

theorem checked_of {n : ℤ} (h : InRange n) : checked InRange n = some n :=
  checked_eq_some_iff.mpr ⟨h, rfl⟩

theorem bind_of_eq_some {β : Type u} {x : Option α} {a : α} (h : x = some a) (f : α → Option β) :
    (x >>= f) = f a := by
  rw [h, Option.bind_eq_bind, Option.bind_some]

def elementAt (l : List α) (i : ℤ) : Option α := if 0 ≤ i then l[i.toNat]? else none

theorem elementAt_eq_some {l : List α} {i : ℤ} (h : 0 ≤ i) (hlt : i < l.length) (default : α) :
    elementAt l i = some (l.getD i.toNat default) := by
  have hindex : i.toNat < l.length := by omega
  rw [elementAt, if_pos h, List.getElem?_eq_getElem hindex, List.getD_eq_getElem?_getD,
    List.getElem?_eq_getElem hindex, Option.getD_some]

/-- The loop `for (i = start; i <= stop; ++i)`, collecting what its body gives. -/
def forLoop (InRange : ℤ → Prop) [DecidablePred InRange] (body : ℤ → Option α) (start stop : ℤ) :
    Option (List α) :=
  if start ≤ stop then
    match body start with
    | none => none
    | some x =>
      if InRange (start + 1) then (forLoop InRange body (start + 1) stop).map (x :: ·) else none
  else some []
termination_by (stop + 1 - start).toNat
decreasing_by omega

theorem forLoop_eq {body : ℤ → Option α} {f : ℤ → α} {start stop : ℤ}
    (hbody : ∀ i, start ≤ i → i ≤ stop → body i = some (f i))
    (hcounter : ∀ i, start ≤ i → i ≤ stop → InRange (i + 1)) :
    forLoop InRange body start stop =
      some ((List.range (stop + 1 - start).toNat).map fun (i : ℕ) => f (start + i)) := by
  obtain ⟨n, hn⟩ : ∃ n, (stop + 1 - start).toNat = n := ⟨_, rfl⟩
  rw [hn]
  induction n generalizing start with
  | zero =>
    rw [forLoop, if_neg (by omega)]
    rfl
  | succ n ih =>
    have hle : start ≤ stop := by omega
    have hrest := @ih (start + 1) (fun i hi => hbody i (by omega)) (fun i hi => hcounter i (by omega))
      (by omega)
    rw [forLoop, if_pos hle, hbody start le_rfl hle]
    simp only [if_pos (hcounter start le_rfl hle), hrest, Option.map_some, List.range_succ_eq_map,
      List.map_cons, List.map_map]
    congr 2
    · simp
    · refine List.map_congr_left fun i _ => ?_
      simp only [Function.comp_apply, Nat.cast_succ]
      congr 1
      omega

end RedisLite.CheckedArithmetic
