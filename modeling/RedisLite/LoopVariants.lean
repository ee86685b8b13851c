import Mathlib.Tactic.Linarith

/-!
# Loops that leave early

A loop runs its body until a round leaves it. Where every round keeps an invariant and lowers a
variant, the loop leaves after no more rounds than the variant of its first state, however many its
own condition would allow.
-/

namespace RedisLite.LoopVariants

universe u v

/-- A round of a loop goes on from a new state, or leaves with a result. -/
inductive Round (σ : Type u) (ρ : Type v) where
  | next (s : σ)
  | leave (r : ρ)

variable {σ : Type u} {ρ : Type v} {body body' : σ → Option (Round σ ρ)}

/-- The loop, for at most `fuel` rounds; a round may be undefined. -/
def runLoop (body : σ → Option (Round σ ρ)) : ℕ → σ → Option ρ
  | 0, _ => none
  | fuel + 1, s =>
    match body s with
    | none => none
    | some (.next s) => runLoop body fuel s
    | some (.leave r) => some r

/-- Going on keeps the invariant with a variant below the bound; leaving gives the postcondition. -/
def Round.Meets (Inv : σ → Prop) (variant : σ → ℕ) (bound : ℕ) (Post : ρ → Prop) :
    Round σ ρ → Prop
  | .next s => Inv s ∧ variant s < bound
  | .leave r => Post r

/-- More rounds and a body that is defined more often change no result. -/
theorem runLoop_mono (hbody : ∀ s o, body s = some o → body' s = some o) {fuel fuel' : ℕ}
    (hle : fuel ≤ fuel') {s : σ} {r : ρ} (h : runLoop body fuel s = some r) :
    runLoop body' fuel' s = some r := by
  induction fuel generalizing fuel' s with
  | zero => simp [runLoop] at h
  | succ fuel ih =>
    obtain ⟨fuel', rfl⟩ : ∃ k, fuel' = k + 1 := ⟨fuel' - 1, by omega⟩
    rw [runLoop] at h ⊢
    cases ho : body s with
    | none => simp [ho] at h
    | some o =>
      rw [ho] at h
      rw [hbody s o ho]
      cases o with
      | next s => exact ih (by omega) h
      | leave r => exact h

/-- Total correctness: a round from the invariant is defined and meets its conditions. -/
theorem runLoop_spec {Inv : σ → Prop} {Post : ρ → Prop} (variant : σ → ℕ)
    (hbody : ∀ s, Inv s → ∃ o, body s = some o ∧ o.Meets Inv variant (variant s) Post) {fuel : ℕ}
    {s : σ} (hs : Inv s) (hfuel : variant s < fuel) : ∃ r, runLoop body fuel s = some r ∧ Post r := by
  induction fuel generalizing s with
  | zero => omega
  | succ fuel ih =>
    obtain ⟨o, ho, hmeets⟩ := hbody s hs
    rw [runLoop, ho]
    cases o with
    | next s =>
      obtain ⟨hs', hlt⟩ := hmeets
      exact ih hs' (by omega)
    | leave r => exact ⟨r, rfl, hmeets⟩

end RedisLite.LoopVariants
