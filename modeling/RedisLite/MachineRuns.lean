import Mathlib.Data.List.Forall2
import Mathlib.Order.Basic

/-!
# Runs of a machine with timed inputs

A machine answers each input and moves to a new state; inputs carry the time at which they arrive.
What a single step keeps, a run over inputs in order of time keeps, and two machines whose single
steps agree give related traces.
-/

namespace RedisLite.MachineRuns

universe u v w x

variable {ι : Type u} {ω : Type v} {σ : Type w} {ω' : Type v} {σ' : Type w} {τ : Type x}

structure Round (ι : Type u) (ω : Type v) (σ : Type w) where
  input : ι
  output : ω
  state : σ

def trace (step : ι → σ → ω × σ) : List ι → σ → List (Round ι ω σ)
  | [], _ => []
  | i :: is, s => ⟨i, (step i s).1, (step i s).2⟩ :: trace step is (step i s).2

def final (step : ι → σ → ω × σ) (is : List ι) (s : σ) : σ :=
  is.foldl (fun s i => (step i s).2) s

@[simp] theorem final_nil (step : ι → σ → ω × σ) (s : σ) : final step [] s = s := rfl

@[simp] theorem final_cons (step : ι → σ → ω × σ) (i : ι) (is : List ι) (s : σ) :
    final step (i :: is) s = final step is (step i s).2 := rfl

theorem trace_append (step : ι → σ → ω × σ) (is js : List ι) (s : σ) :
    trace step (is ++ js) s = trace step is s ++ trace step js (final step is s) := by
  induction is generalizing s with
  | nil => rfl
  | cons i is ih => exact congrArg (_ :: ·) (ih _)

theorem final_append (step : ι → σ → ω × σ) (is js : List ι) (s : σ) :
    final step (is ++ js) s = final step js (final step is s) :=
  List.foldl_append

theorem map_input_trace (step : ι → σ → ω × σ) (is : List ι) (s : σ) :
    (trace step is s).map Round.input = is := by
  induction is generalizing s with
  | nil => rfl
  | cons i is ih => rw [trace, List.map_cons, ih]

/-- Every input of a run meets a condition on it and on the state it finds. -/
def Along (ok : ι → σ → Prop) (step : ι → σ → ω × σ) : List ι → σ → Prop
  | [], _ => True
  | i :: is, s => ok i s ∧ Along ok step is (step i s).2

instance decidableAlong {ok : ι → σ → Prop} [∀ i s, Decidable (ok i s)] (step : ι → σ → ω × σ) :
    (is : List ι) → (s : σ) → Decidable (Along ok step is s)
  | [], _ => .isTrue trivial
  | i :: is, s => @instDecidableAnd _ _ _ (decidableAlong step is (step i s).2)

theorem Along.imp {p q : ι → σ → Prop} {step : ι → σ → ω × σ} {is : List ι} {s : σ}
    (hp : Along p step is s) (h : ∀ i s, p i s → q i s) : Along q step is s := by
  induction is generalizing s with
  | nil => trivial
  | cons i is ih => exact ⟨h i s hp.1, ih hp.2⟩

theorem Along.and {p q : ι → σ → Prop} {step : ι → σ → ω × σ} {is : List ι} {s : σ}
    (hp : Along p step is s) (hq : Along q step is s) : Along (fun i s => p i s ∧ q i s) step is s := by
  induction is generalizing s with
  | nil => trivial
  | cons i is ih => exact ⟨⟨hp.1, hq.1⟩, ih hp.2 hq.2⟩

theorem along_of_forall {p : ι → Prop} {step : ι → σ → ω × σ} {is : List ι} (h : ∀ i ∈ is, p i)
    (s : σ) : Along (fun i _ => p i) step is s := by
  induction is generalizing s with
  | nil => trivial
  | cons i is ih =>
    exact ⟨h i List.mem_cons_self, ih (fun j hj => h j (List.mem_cons_of_mem i hj)) _⟩

theorem Along.last {ok : ι → σ → Prop} {step : ι → σ → ω × σ} {is : List ι} {i : ι} {s : σ}
    (h : Along ok step (is ++ [i]) s) : ok i (final step is s) := by
  induction is generalizing s with
  | nil => exact h.1
  | cons j is ih => exact ih h.2

/-- Every round of such a run starts from a state that meets the condition. -/
theorem Along.round {ok : ι → σ → Prop} {step : ι → σ → ω × σ} {is : List ι} {s : σ}
    (h : Along ok step is s) {r : Round ι ω σ} (hr : r ∈ trace step is s) :
    ∃ s', ok r.input s' ∧ r = ⟨r.input, (step r.input s').1, (step r.input s').2⟩ := by
  induction is generalizing s with
  | nil => cases hr
  | cons i is ih =>
    rcases List.mem_cons.mp hr with rfl | hr
    · exact ⟨s, h.1, rfl⟩
    · exact ih h.2 hr

/-- What the inputs that meet a condition keep holds at the end of a run of such inputs. -/
theorem final_along {ok : ι → σ → Prop} {step : ι → σ → ω × σ} {Inv : σ → Prop} {is : List ι}
    (hstep : ∀ i ∈ is, ∀ s, ok i s → Inv s → Inv (step i s).2) {s : σ} (hs : Inv s)
    (hok : Along ok step is s) : Inv (final step is s) := by
  induction is generalizing s with
  | nil => exact hs
  | cons i is ih =>
    exact ih (fun j hj => hstep j (List.mem_cons_of_mem _ hj))
      (hstep i List.mem_cons_self s hok.1 hs) hok.2

/-- What every step keeps holds at the end of a run. -/
theorem final_keeps {step : ι → σ → ω × σ} {Inv : σ → Prop}
    (hstep : ∀ i s, Inv s → Inv (step i s).2) {s : σ} (hs : Inv s) (is : List ι) :
    Inv (final step is s) := by
  induction is generalizing s with
  | nil => exact hs
  | cons i is ih => exact ih (hstep i s hs)

/-- Where an invariant of all steps makes two conditions on the inputs the same, all inputs of a run
meet the one exactly if all meet the other. -/
theorem along_congr {p q : ι → σ → Prop} {step : ι → σ → ω × σ} {Inv : σ → Prop}
    (hiff : ∀ i s, Inv s → (p i s ↔ q i s)) (hstep : ∀ i s, Inv s → Inv (step i s).2) {s : σ}
    (hs : Inv s) (is : List ι) : Along p step is s ↔ Along q step is s := by
  induction is generalizing s with
  | nil => exact Iff.rfl
  | cons i is ih => exact and_congr (hiff i s hs) (ih (hstep i s hs))

/-- Where an invariant makes two conditions on the inputs the same, and the second keeps the
invariant, all inputs of a run meet the one exactly if all meet the other. -/
theorem along_iff_along {pre good ok : ι → σ → Prop} {step : ι → σ → ω × σ} {Inv : σ → Prop}
    (hiff : ∀ i s, pre i s → Inv s → (good i s ↔ ok i s))
    (hkeep : ∀ i s, pre i s → Inv s → ok i s → Inv (step i s).2) {is : List ι} {s : σ}
    (hs : Inv s) (hpre : Along pre step is s) : Along good step is s ↔ Along ok step is s := by
  induction is generalizing s with
  | nil => exact Iff.rfl
  | cons i is ih =>
    rw [Along, Along, hiff i s hpre.1 hs]
    exact and_congr_right fun hok => ih (hkeep i s hpre.1 hs hok) hpre.2

/-- A machine that only watches another one meets the conditions that this one meets. -/
theorem along_watching {p : ι → σ → Prop} {step : ι → σ → ω × σ} {watch : ι → σ' → ω' × σ'}
    {view : σ' → σ} (h : ∀ i s, view (watch i s).2 = (step i (view s)).2) (is : List ι) (s : σ') :
    Along (fun i s => p i (view s)) watch is s ↔ Along p step is (view s) := by
  induction is generalizing s with
  | nil => exact Iff.rfl
  | cons i is ih =>
    refine and_congr_right fun _ => (ih (watch i s).2).trans ?_
    rw [h]

/-- Where a property is never regained and an input keeps it exactly if it meets a condition, a run ends
with the property exactly if all its inputs meet the condition. -/
theorem along_iff_final {ok : ι → σ → Prop} {step : ι → σ → ω × σ} {Good : σ → Prop}
    (hiff : ∀ i s, Good s → (ok i s ↔ Good (step i s).2))
    (hlost : ∀ i s, Good (step i s).2 → Good s) {s : σ} (hs : Good s) (is : List ι) :
    Along ok step is s ↔ Good (final step is s) := by
  induction is generalizing s with
  | nil => exact iff_of_true trivial hs
  | cons i is ih =>
    by_cases hnext : Good (step i s).2
    · exact (and_iff_right ((hiff i s hs).mpr hnext)).trans (ih hnext)
    · refine iff_of_false (fun h => hnext ((hiff i s hs).mp h.1)) ?_
      exact @final_keeps _ _ _ step (fun s => ¬ Good s) (fun i s => mt (hlost i s)) _ hnext is

/-- How many inputs of a run are of a kind that the state they find decides. -/
def occurrences (kind : ι → σ → Bool) (step : ι → σ → ω × σ) : List ι → σ → ℕ
  | [], _ => 0
  | i :: is, s => (kind i s).toNat + occurrences kind step is (step i s).2

theorem occurrences_eq_zero {kind : ι → σ → Bool} {step : ι → σ → ω × σ} {Dead : σ → Prop}
    (hdead : ∀ i s, Dead s → kind i s = false ∧ Dead (step i s).2) {s : σ} (hs : Dead s)
    (is : List ι) : occurrences kind step is s = 0 := by
  induction is generalizing s with
  | nil => rfl
  | cons i is ih =>
    obtain ⟨hkind, hnext⟩ := hdead i s hs
    rw [occurrences, hkind, ih hnext]
    rfl

/-- A countdown: as long as the goal is not reached, every input of a kind lowers a measure, and no
input raises it. So the goal is reached within as many inputs of that kind, unless the machine has come
to its end before. -/
theorem countdown {kind : ι → σ → Bool} {ok : ι → σ → Prop} {step : ι → σ → ω × σ}
    {Inv Goal Dead : σ → Prop} {measure : σ → ℕ} (hpos : ∀ s, Inv s → 0 < measure s)
    (hstep : ∀ i s, ok i s → Inv s → Goal (step i s).2 ∨
      Dead (step i s).2 ∧ (kind i s).toNat < measure s ∨
      Inv (step i s).2 ∧ measure (step i s).2 + (kind i s).toNat ≤ measure s)
    (hdead : ∀ i s, Dead s → kind i s = false ∧ Dead (step i s).2) {is : List ι} {s : σ}
    (hs : Inv s) (hok : Along ok step is s) (henough : measure s ≤ occurrences kind step is s) :
    ∃ k, Goal (final step (is.take k) s) := by
  induction is generalizing s with
  | nil => exact absurd (hpos s hs) (Nat.not_lt.mpr henough)
  | cons i is ih =>
    rw [occurrences] at henough
    rcases hstep i s hok.1 hs with hgoal | ⟨hend, hless⟩ | ⟨hnext, hless⟩
    · exact ⟨1, by simpa using hgoal⟩
    · have hnothing := occurrences_eq_zero hdead hend is
      omega
    · obtain ⟨k, hgoal⟩ := ih hnext hok.2 (by omega)
      exact ⟨k + 1, hgoal⟩

section Shared
variable {υ : Type*} {step : ι → σ → ω × σ} {own : ι → Bool} {view : σ → υ}

/-- The own inputs of a run are answered from a view of the state and move the view on by itself; the
other inputs leave it alone. -/
structure Isolated (step : ι → σ → ω × σ) (own : ι → Bool) (view : σ → υ) (is : List ι) : Prop where
  frame : ∀ i ∈ is, own i = false → ∀ s, view (step i s).2 = view s
  answer : ∀ i ∈ is, own i = true → ∀ s s', view s = view s' →
    (step i s).1 = (step i s').1 ∧ view (step i s).2 = view (step i s').2

/-- Among the inputs of others, the own inputs get the answers and reach the view that they get and
reach alone. -/
theorem Isolated.run {is : List ι} (h : Isolated step own view is) {s s' : σ}
    (hs : view s = view s') :
    ((trace step is s).filter (fun r => own r.input)).map Round.output =
        (trace step (is.filter own) s').map Round.output ∧
      view (final step is s) = view (final step (is.filter own) s') := by
  induction is generalizing s s' with
  | nil => exact ⟨rfl, hs⟩
  | cons i is ih =>
    have hrest : Isolated step own view is :=
      ⟨fun j hj => h.frame j (List.mem_cons_of_mem i hj),
        fun j hj => h.answer j (List.mem_cons_of_mem i hj)⟩
    cases hi : own i with
    | false =>
      have hframe := h.frame i List.mem_cons_self hi s
      simp only [trace, List.filter_cons, hi, final_cons, Bool.false_eq_true, if_false]
      exact ih hrest (hframe.trans hs)
    | true =>
      obtain ⟨hanswer, hview⟩ := h.answer i List.mem_cons_self hi s s' hs
      obtain ⟨houtputs, hfinal⟩ := ih hrest hview
      simp only [trace, List.filter_cons, hi, final_cons, if_true, List.map_cons]
      exact ⟨by rw [hanswer, houtputs], hfinal⟩

end Shared

section Scripts
variable {α : Type*} {step : ι → σ → ω × σ} {fits : α → ι → Prop} {good : α → ω → Prop}
variable {items items' : List α} {P P' Q Q' R : σ → Prop}

/-- From every state of a kind, whichever inputs fit the items of a script are answered well and lead
to a state of another kind. -/
def Script (step : ι → σ → ω × σ) (fits : α → ι → Prop) (good : α → ω → Prop) (items : List α)
    (P Q : σ → Prop) : Prop :=
  ∀ is s, List.Forall₂ fits items is → P s →
    List.Forall₂ (fun a r => good a r.output) items (trace step is s) ∧ Q (final step is s)

theorem Script.nil : Script step fits good [] P P := by
  intro is s hfits hs
  cases hfits
  exact ⟨.nil, hs⟩

theorem Script.single {a : α}
    (h : ∀ i s, fits a i → P s → good a (step i s).1 ∧ Q (step i s).2) :
    Script step fits good [a] P Q := by
  intro is s hfits hs
  obtain ⟨i, is, hfit, hrest, rfl⟩ := List.forall₂_cons_left_iff.mp hfits
  cases hrest
  obtain ⟨hgood, hnext⟩ := h i s hfit hs
  exact ⟨.cons hgood .nil, hnext⟩

theorem Script.append (h : Script step fits good items P Q)
    (h' : Script step fits good items' Q R) : Script step fits good (items ++ items') P R := by
  intro is s hfits hs
  have hfirst := (List.forall₂_take_append is items items' hfits.flip).flip
  have hrest := (List.forall₂_drop_append is items items' hfits.flip).flip
  obtain ⟨hgood, hmid⟩ := h _ s hfirst hs
  obtain ⟨hgood', hend⟩ := h' _ _ hrest hmid
  rw [← List.take_append_drop items.length is, trace_append, final_append]
  exact ⟨List.rel_append hgood hgood', hend⟩

theorem Script.mono (h : Script step fits good items P Q) (hP : ∀ s, P' s → P s)
    (hQ : ∀ s, Q s → Q' s) : Script step fits good items P' Q' := by
  intro is s hfits hs
  obtain ⟨hgood, hend⟩ := h is s hfits (hP s hs)
  exact ⟨hgood, hQ _ hend⟩

/-- A counting loop, with an invariant for each number. -/
theorem Script.loop {item : ℕ → α} {I : ℕ → σ → Prop} (n : ℕ)
    (h : ∀ m < n, Script step fits good [item m] (I m) (I (m + 1))) :
    Script step fits good ((List.range n).map item) (I 0) (I n) := by
  induction n with
  | zero => exact .nil
  | succ n ih =>
    rw [List.range_succ, List.map_append]
    exact (ih fun m hm => h m (Nat.lt_succ_of_lt hm)).append (h n (Nat.lt_succ_self n))

theorem Script.flatMap {β : Type*} {f : β → List α} {xs : List β}
    (h : ∀ x ∈ xs, Script step fits good (f x) P P) :
    Script step fits good (xs.flatMap f) P P := by
  induction xs with
  | nil => exact .nil
  | cons x xs ih =>
    rw [List.flatMap_cons]
    exact (h x List.mem_cons_self).append (ih fun y hy => h y (List.mem_cons_of_mem x hy))

/-- A run that breaks off has been answered well so far. -/
theorem Script.brokenOff (h : Script step fits good items P Q) (hfit : ∀ a, ∃ i, fits a i)
    {front : List α} (hfront : front <+: items) {is : List ι} {s : σ}
    (hfits : List.Forall₂ fits front is) (hs : P s) :
    List.Forall₂ (fun a r => good a r.output) front (trace step is s) := by
  obtain ⟨rest, rfl⟩ := hfront
  choose input hinput using hfit
  have hrest : List.Forall₂ fits rest (rest.map input) :=
    List.forall₂_map_right_iff.mpr (List.forall₂_same.mpr fun a _ => hinput a)
  have hall := (h (is ++ rest.map input) s (List.rel_append hfits hrest) hs).1
  have hlength : (trace step is s).length = front.length := by
    rw [hfits.length_eq]
    simpa using congrArg List.length (map_input_trace step is s)
  rw [trace_append] at hall
  have hfirst := List.forall₂_take_append _ _ _ hall
  rwa [hlength, List.take_left] at hfirst

end Scripts

def Ordered [LE τ] (time : ι → τ) (is : List ι) : Prop := is.Pairwise (fun i j => time i ≤ time j)

section Timed
variable [Preorder τ] {time : ι → τ} {step : ι → σ → ω × σ} {step' : ι → σ' → ω' × σ'}

/-- Two machines that stay related step by step have related traces. -/
theorem trace_simulation {Rel : τ → σ → σ' → Prop} {Same : Round ι ω σ → Round ι ω' σ' → Prop}
    (hlater : ∀ t t' s s', t ≤ t' → Rel t s s' → Rel t' s s')
    (hstep : ∀ i s s', Rel (time i) s s' →
      Same ⟨i, (step i s).1, (step i s).2⟩ ⟨i, (step' i s').1, (step' i s').2⟩ ∧
        Rel (time i) (step i s).2 (step' i s').2)
    {is : List ι} {s : σ} {s' : σ'} (hs : ∀ i ∈ is, Rel (time i) s s') (horder : Ordered time is) :
    List.Forall₂ Same (trace step is s) (trace step' is s') := by
  induction is generalizing s s' with
  | nil => exact .nil
  | cons i is ih =>
    obtain ⟨hfirst, horder⟩ := List.pairwise_cons.mp horder
    obtain ⟨hsame, hrel⟩ := hstep i s s' (hs i List.mem_cons_self)
    exact .cons hsame (ih (fun j hj => hlater _ _ _ _ (hfirst j hj) hrel) horder)

end Timed

end RedisLite.MachineRuns
