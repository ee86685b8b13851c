import Mathlib.Data.List.Basic
import Mathlib.Tactic.Linarith

/-!
# Files of self-delimiting records

A reader takes one record from the front of what is left of a file, or finds the end, or rejects
what it sees. Loading a file applies record after record to a state; a file that was written record
by record is loaded as the fold of its records.
-/

namespace RedisLite.RecordFiles

universe u v w x

inductive Next (α : Type u) (ρ : Type v) (ε : Type w) where
  | done
  | record (r : ρ) (rest : List α)
  | bad (error : ε)

variable {α : Type u} {ρ : Type v} {ε : Type w} {σ : Type x}

/-- Read and apply records until the end or the first bad one. The reader and the state see how
many records came before. -/
def loadWith (next : ℕ → List α → Next α ρ ε) (apply : ℕ → ρ → σ → σ) :
    ℕ → ℕ → List α → σ → Except ε σ
  | 0, _, _, s => .ok s
  | fuel + 1, n, xs, s =>
    match next n xs with
    | .done => .ok s
    | .bad error => .error error
    | .record r rest => loadWith next apply fuel (n + 1) rest (apply n r s)

/-- A record is at least one symbol, so the length of the file bounds the number of rounds. -/
def load (next : ℕ → List α → Next α ρ ε) (apply : ℕ → ρ → σ → σ) (n : ℕ) (xs : List α) (s : σ) :
    Except ε σ :=
  loadWith next apply (xs.length + 1) n xs s

/-- Apply records in order, counting from `n`. -/
def applyAll (apply : ℕ → ρ → σ → σ) : ℕ → List ρ → σ → σ
  | _, [], s => s
  | n, r :: rs, s => applyAll apply (n + 1) rs (apply n r s)

theorem applyAll_append (apply : ℕ → ρ → σ → σ) (n : ℕ) (rs rs' : List ρ) (s : σ) :
    applyAll apply n (rs ++ rs') s = applyAll apply (n + rs.length) rs' (applyAll apply n rs s) := by
  induction rs generalizing n s with
  | nil => rfl
  | cons r rs ih =>
    rw [List.cons_append, applyAll, applyAll, ih, List.length_cons]
    congr 1
    omega

/-- The records of a file, or the error of the first bad one. -/
def recordsWith (next : ℕ → List α → Next α ρ ε) : ℕ → ℕ → List α → Except ε (List ρ)
  | 0, _, _ => .ok []
  | fuel + 1, n, xs =>
    match next n xs with
    | .done => .ok []
    | .bad error => .error error
    | .record r rest => (recordsWith next fuel (n + 1) rest).map (r :: ·)

def records (next : ℕ → List α → Next α ρ ε) (n : ℕ) (xs : List α) : Except ε (List ρ) :=
  recordsWith next (xs.length + 1) n xs

/-- Reading a record leaves less of the file. -/
def Consuming (next : ℕ → List α → Next α ρ ε) : Prop :=
  ∀ n xs r rest, next n xs = .record r rest → rest.length < xs.length

section Load
variable {next : ℕ → List α → Next α ρ ε} {apply : ℕ → ρ → σ → σ}

theorem loadWith_eq_load (hc : Consuming next) {fuel n : ℕ} {xs : List α} (h : xs.length < fuel)
    (s : σ) : loadWith next apply fuel n xs s = load next apply n xs s := by
  suffices hfuel : ∀ k m n xs s, xs.length < k → xs.length < m →
      loadWith next apply k n xs s = loadWith next apply m n xs s from
    hfuel fuel (xs.length + 1) n xs s h (Nat.lt_succ_self _)
  intro k
  induction k with
  | zero => intro m n xs s hk; omega
  | succ k ih =>
    intro m n xs s hk hm
    cases m with
    | zero => omega
    | succ m =>
      cases hnext : next n xs with
      | done => simp only [loadWith, hnext]
      | bad error => simp only [loadWith, hnext]
      | record r rest =>
        have hlt := hc n xs r rest hnext
        simp only [loadWith, hnext]
        exact ih m (n + 1) rest (apply n r s) (by omega) (by omega)

theorem load_record (hc : Consuming next) {n : ℕ} {xs rest : List α} {r : ρ}
    (h : next n xs = .record r rest) (s : σ) :
    load next apply n xs s = load next apply (n + 1) rest (apply n r s) := by
  have hlt := hc n xs r rest h
  rw [load, loadWith, h]
  exact loadWith_eq_load hc hlt _

theorem load_done {n : ℕ} {xs : List α} (h : next n xs = .done) (s : σ) :
    load next apply n xs s = .ok s := by
  rw [load, loadWith, h]

theorem load_bad {n : ℕ} {xs : List α} {error : ε} (h : next n xs = .bad error) (s : σ) :
    load next apply n xs s = .error error := by
  rw [load, loadWith, h]

/-- Loading a file applies its records in order. -/
theorem load_eq_applyAll (n : ℕ) (xs : List α) (s : σ) :
    load next apply n xs s = (records next n xs).map fun rs => applyAll apply n rs s := by
  suffices hfuel : ∀ fuel n xs s, loadWith next apply fuel n xs s =
      (recordsWith next fuel n xs).map fun rs => applyAll apply n rs s from hfuel _ n xs s
  intro fuel
  induction fuel with
  | zero => intro n xs s; rfl
  | succ fuel ih =>
    intro n xs s
    cases hnext : next n xs with
    | done => simp only [loadWith, recordsWith, hnext]; rfl
    | bad error => simp only [loadWith, recordsWith, hnext]; rfl
    | record r rest =>
      simp only [loadWith, recordsWith, hnext, ih]
      cases recordsWith next fuel (n + 1) rest <;> rfl

/-- What holds of every record that is read holds of the records of a file. -/
theorem forall_mem_records {P : ρ → Prop} (hread : ∀ n xs r rest, next n xs = .record r rest → P r)
    {n : ℕ} {xs : List α} {rs : List ρ} (h : records next n xs = .ok rs) : ∀ r ∈ rs, P r := by
  suffices hfuel : ∀ fuel n xs rs, recordsWith next fuel n xs = .ok rs → ∀ r ∈ rs, P r from
    hfuel _ n xs rs h
  intro fuel
  induction fuel with
  | zero => intro n xs rs h; cases h; nofun
  | succ fuel ih =>
    intro n xs rs h
    cases hnext : next n xs with
    | done => simp only [recordsWith, hnext] at h; cases h; nofun
    | bad error => simp only [recordsWith, hnext] at h; cases h
    | record r rest =>
      simp only [recordsWith, hnext] at h
      cases hrest : recordsWith next fuel (n + 1) rest with
      | error error => rw [hrest] at h; cases h
      | ok rs' =>
        rw [hrest] at h
        cases h
        intro r' hr'
        rcases List.mem_cons.mp hr' with rfl | hr'
        · exact hread _ _ _ _ hnext
        · exact ih _ _ _ hrest r' hr'

/-- What every record keeps, a successful load keeps. -/
theorem load_invariant {P : σ → Prop} (hstep : ∀ n r s, P s → P (apply n r s)) {n : ℕ}
    {xs : List α} {s s' : σ} (h : load next apply n xs s = .ok s') (hs : P s) : P s' := by
  suffices hfuel : ∀ fuel n xs s, loadWith next apply fuel n xs s = .ok s' → P s → P s' from
    hfuel _ n xs s h hs
  intro fuel
  induction fuel with
  | zero => intro n xs s h hs; cases h; exact hs
  | succ fuel ih =>
    intro n xs s h hs
    cases hnext : next n xs with
    | done => simp only [loadWith, hnext] at h; cases h; exact hs
    | bad error => simp only [loadWith, hnext] at h; cases h
    | record r rest =>
      simp only [loadWith, hnext] at h
      exact ih (n + 1) rest (apply n r s) h (hstep n r s hs)

/-- From round `n` on, the reader takes these records off the front of a file and leaves the rest. -/
inductive Reads (next : ℕ → List α → Next α ρ ε) : ℕ → List α → List ρ → List α → Prop
  | nil (n : ℕ) (xs : List α) : Reads next n xs [] xs
  | cons {n : ℕ} {xs mid rest : List α} {r : ρ} {rs : List ρ} (hfirst : next n xs = .record r mid)
      (hrest : Reads next (n + 1) mid rs rest) : Reads next n xs (r :: rs) rest

theorem Reads.load (hc : Consuming next) {n : ℕ} {xs rest : List α} {rs : List ρ}
    (h : Reads next n xs rs rest) (s : σ) :
    RecordFiles.load next apply n xs s =
      RecordFiles.load next apply (n + rs.length) rest (applyAll apply n rs s) := by
  induction h generalizing s with
  | nil => rfl
  | @cons n xs mid rest r rs hfirst hrest ih =>
    rw [load_record hc hfirst, ih, applyAll, List.length_cons]
    congr 1
    omega

theorem applyAll_snoc (n : ℕ) (rs read : List ρ) :
    applyAll (fun _ r read => read ++ [r]) n rs read = read ++ rs := by
  induction rs generalizing n read with
  | nil => simp [applyAll]
  | cons r rs ih => simp [applyAll, ih]

theorem Reads.records (hc : Consuming next) {n : ℕ} {xs rest : List α} {rs : List ρ}
    (h : Reads next n xs rs rest) (hdone : next (n + rs.length) rest = .done) :
    RecordFiles.records next n xs = .ok rs := by
  have hload : RecordFiles.load next (fun _ r read => read ++ [r]) n xs [] = .ok rs := by
    rw [h.load hc, load_done hdone, applyAll_snoc, List.nil_append]
  rw [load_eq_applyAll] at hload
  cases hrecords : RecordFiles.records next n xs with
  | error error =>
    rw [hrecords] at hload
    cases hload
  | ok rs' =>
    rw [hrecords] at hload
    simpa only [Except.map, applyAll_snoc, List.nil_append] using hload

structure Framing (next : ℕ → List α → Next α ρ ε) (encode : ρ → List α) (Valid : ρ → Prop) :
    Prop where
  consuming : Consuming next
  done : ∀ n, next n [] = .done
  record : ∀ n r, Valid r → ∀ rest, next n (encode r ++ rest) = .record r rest

variable {encode : ρ → List α} {Valid : ρ → Prop}

theorem Framing.reads (hf : Framing next encode Valid) (n : ℕ) {rs : List ρ}
    (hv : ∀ r ∈ rs, Valid r) (rest : List α) : Reads next n (rs.flatMap encode ++ rest) rs rest := by
  induction rs generalizing n with
  | nil => exact .nil n rest
  | cons r rs ih =>
    rw [List.flatMap_cons, List.append_assoc]
    exact .cons (hf.record n r (hv r List.mem_cons_self) _)
      (ih (n + 1) fun r hr => hv r (List.mem_cons_of_mem _ hr))

theorem load_encoded_append (hf : Framing next encode Valid) (n : ℕ) {rs : List ρ}
    (hv : ∀ r ∈ rs, Valid r) (rest : List α) (s : σ) :
    load next apply n (rs.flatMap encode ++ rest) s =
      load next apply (n + rs.length) rest (applyAll apply n rs s) :=
  (hf.reads n hv rest).load hf.consuming s

/-- A file of written records loads as the fold of the records. -/
theorem load_encoded (hf : Framing next encode Valid) (n : ℕ) {rs : List ρ}
    (hv : ∀ r ∈ rs, Valid r) (s : σ) :
    load next apply n (rs.flatMap encode) s = .ok (applyAll apply n rs s) := by
  have h : load next apply n (rs.flatMap encode ++ []) s = _ := load_encoded_append hf n hv [] s
  rw [List.append_nil] at h
  rw [h, load_done (hf.done _)]

/-- A cut between two records leaves a shorter list of records, and a cut anywhere else leaves a file
that is refused, provided that a reader rejects a record that was cut. -/
theorem load_cut (hf : Framing next encode Valid)
    (htorn : ∀ n r, Valid r → ∀ xs ys, xs ≠ [] → ys ≠ [] → encode r = xs ++ ys →
      ∃ error, next n xs = .bad error)
    (n : ℕ) {rs : List ρ} (hv : ∀ r ∈ rs, Valid r) {xs : List α} (hxs : xs <+: rs.flatMap encode)
    (s : σ) : (∃ k, xs = (rs.take k).flatMap encode) ∨ ∃ error, load next apply n xs s = .error error := by
  induction rs generalizing n xs s with
  | nil => exact .inl ⟨0, List.prefix_nil.mp hxs⟩
  | cons r rs ih =>
    obtain ⟨ys, hys⟩ := hxs
    have hr := hv r List.mem_cons_self
    rw [List.flatMap_cons] at hys
    rcases List.append_eq_append_iff.mp hys with ⟨zs, hzs, -⟩ | ⟨zs, rfl, hzs⟩
    · -- the cut is inside the first record, or at one of its ends
      by_cases hempty : xs = []
      · exact .inl ⟨0, hempty⟩
      by_cases hwhole : zs = []
      · refine .inl ⟨1, ?_⟩
        rw [hwhole, List.append_nil] at hzs
        simp [hzs]
      · obtain ⟨error, hbad⟩ := htorn n r hr xs zs hempty hwhole hzs
        exact .inr ⟨error, load_bad hbad s⟩
    · have hrs : ∀ r ∈ rs, Valid r := fun r hr => hv r (List.mem_cons_of_mem _ hr)
      have hload : load next apply n (encode r ++ zs) s = load next apply (n + 1) zs (apply n r s) :=
        load_record hf.consuming (hf.record n r hr zs) s
      rcases ih (n + 1) hrs ⟨ys, hzs.symm⟩ (apply n r s) with ⟨k, hk⟩ | ⟨error, herror⟩
      · exact .inl ⟨k + 1, by rw [List.take_succ_cons, List.flatMap_cons, hk]⟩
      · exact .inr ⟨error, hload.trans herror⟩

/-- A file is written by one list of records only. -/
theorem Framing.encoding_unique (hf : Framing next encode Valid) (n : ℕ) {rs rs' : List ρ}
    (hv : ∀ r ∈ rs, Valid r) (hv' : ∀ r ∈ rs', Valid r)
    (h : rs.flatMap encode = rs'.flatMap encode) : rs = rs' := by
  -- an empty file has no first record
  have hnil : ∀ r, Valid r → ∀ rest, [] ≠ encode r ++ rest := by
    intro r hr rest heq
    have hread := hf.record n r hr rest
    rw [← heq, hf.done] at hread
    cases hread
  induction rs generalizing rs' with
  | nil =>
    cases rs' with
    | nil => rfl
    | cons r' rs' => exact absurd h (hnil r' (hv' r' List.mem_cons_self) _)
  | cons r rs ih =>
    have hr := hv r List.mem_cons_self
    cases rs' with
    | nil => exact absurd h.symm (hnil r hr _)
    | cons r' rs' =>
      have hr' := hv' r' List.mem_cons_self
      rw [List.flatMap_cons, List.flatMap_cons] at h
      have hread := hf.record n r hr (rs.flatMap encode)
      rw [h, hf.record n r' hr'] at hread
      injection hread with hrecord hrest
      rw [hrecord, ih (fun r hr => hv r (List.mem_cons_of_mem _ hr))
        (fun r hr => hv' r (List.mem_cons_of_mem _ hr)) hrest.symm]

/-- A cut that keeps the file of the first records keeps these records. -/
theorem Framing.take_of_prefix (hf : Framing next encode Valid) (n : ℕ) {rs new : List ρ}
    (hv : ∀ r ∈ rs, Valid r) {k : ℕ}
    (h : rs.flatMap encode <+: ((rs ++ new).take k).flatMap encode) :
    ∃ m, (rs ++ new).take k = rs ++ new.take m := by
  by_cases hall : rs.length ≤ k
  · refine ⟨k - rs.length, ?_⟩
    rw [List.take_append, List.take_of_length_le hall]
  · have htake : (rs ++ new).take k = rs.take k := List.take_append_of_le_length (by omega)
    rw [htake] at h
    have hback : (rs.take k).flatMap encode <+: rs.flatMap encode := by
      conv_rhs => rw [← List.take_append_drop k rs, List.flatMap_append]
      exact List.prefix_append _ _
    have heq := h.eq_of_length_le hback.length_le
    have hsame : rs = rs.take k :=
      hf.encoding_unique n hv (fun r hr => hv r (List.mem_of_mem_take hr)) heq
    exact ⟨0, by rw [htake, ← hsame, List.take_zero, List.append_nil]⟩

end Load

end RedisLite.RecordFiles
