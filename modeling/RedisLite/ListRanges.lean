import RedisLite.RecordEffects

/-!
# The range of a list between two bounds

A bound that is negative counts from the end of the list. `LRANGE` replies the elements whose
positions lie between the bounds, wherever the bounds are.
-/

namespace RedisLite.ListRanges

variable {α β : Type*}

/-- The position that a bound stands for in a list of `n` elements. -/
def position (n : ℕ) (bound : ℤ) : ℤ := if bound < 0 then bound + n else bound

/-- The elements at the positions from `start` to `stop`, in order. -/
def between (start stop : ℤ) (l : List α) : List α :=
  (l.zipIdx.filter fun p => start ≤ (p.2 : ℤ) ∧ (p.2 : ℤ) ≤ stop).map Prod.fst

/-- The elements between two bounds. -/
def slice (start stop : ℤ) (l : List α) : List α :=
  between (position l.length start) (position l.length stop) l

theorem between_eq (start stop : ℤ) (l : List α) :
    between start stop l = (l.drop start.toNat).take (stop + 1 - max start 0).toNat := by
  suffices hfrom : ∀ (l : List α) (m : ℕ),
      ((l.zipIdx m).filter fun p => start ≤ (p.2 : ℤ) ∧ (p.2 : ℤ) ≤ stop).map Prod.fst =
        (l.drop (start - m).toNat).take (stop + 1 - max start m).toNat by
    have hzero := hfrom l 0
    rwa [Nat.cast_zero, Int.sub_zero] at hzero
  intro l
  induction l with
  | nil => simp
  | cons x l ih =>
    intro m
    have hrest := ih (m + 1)
    push_cast at hrest
    rw [List.zipIdx_cons, List.filter_cons]
    by_cases hstart : start ≤ m
    · have hmax : max start (m : ℤ) = m := max_eq_right hstart
      have hmax' : max start (m + 1 : ℤ) = m + 1 := max_eq_right (by omega)
      rw [Int.toNat_of_nonpos (show start - (m + 1 : ℤ) ≤ 0 by omega), hmax', List.drop_zero] at hrest
      rw [Int.toNat_of_nonpos (show start - (m : ℤ) ≤ 0 by omega), hmax, List.drop_zero]
      by_cases hstop : (m : ℤ) ≤ stop
      · have htake : (stop + 1 - m).toNat = (stop + 1 - (m + 1)).toNat + 1 := by omega
        rw [if_pos (decide_eq_true ⟨hstart, hstop⟩), List.map_cons, hrest, htake,
          List.take_succ_cons]
      · have htake : (stop + 1 - m).toNat = 0 := by omega
        have htake' : (stop + 1 - (m + 1)).toNat = 0 := by omega
        rw [if_neg (by simp [hstop]), hrest, htake, htake', List.take_zero, List.take_zero]
    · have hdrop : (start - m).toNat = (start - (m + 1)).toNat + 1 := by omega
      have hmax : max start (m : ℤ) = max start (m + 1) := by omega
      rw [if_neg (by simp [hstart]), hrest, hdrop, hmax, List.drop_succ_cons]

theorem position_natCast (n m : ℕ) : position n (m : ℤ) = m := if_neg (by omega)

theorem slice_append {l : List α} {m : ℕ} (h : m < l.length) :
    slice 0 m l ++ slice (m + 1) (-1) l = l := by
  have hzero : position l.length 0 = 0 := rfl
  have hnext : position l.length ((m : ℤ) + 1) = (m + 1 : ℕ) := position_natCast l.length (m + 1)
  have hlast : position l.length (-1) = -1 + l.length := rfl
  rw [slice, slice, hzero, position_natCast, hnext, hlast, between_eq, between_eq]
  have hfront : ((m : ℤ) + 1 - max 0 0).toNat = m + 1 := by omega
  have hback : (-1 + (l.length : ℤ) + 1 - max ((m + 1 : ℕ) : ℤ) 0).toNat =
      (l.drop (m + 1)).length := by
    rw [List.length_drop]
    omega
  rw [hfront, Int.toNat_zero, List.drop_zero, Int.toNat_natCast, hback, List.take_length,
    List.take_append_drop]

theorem slice_whole (l : List α) : slice 0 (-1) l = l := by
  have hzero : position l.length 0 = 0 := rfl
  have hlast : position l.length (-1) = -1 + l.length := rfl
  have hlength : (-1 + (l.length : ℤ) + 1 - max 0 0).toNat = l.length := by omega
  rw [slice, hzero, hlast, between_eq, hlength, Int.toNat_zero, List.drop_zero, List.take_length]

end RedisLite.ListRanges

namespace RedisLite.Operations
open ByteStrings Resp Keyspace AppendLog Commands ListRanges Replay

def bulkStrings (xs : List Bytes) : RespValue := makeArray (xs.map makeBulkString)

/-- The list that a key stands for: a missing key is an empty list. -/
def listAt (now : ℤ) (key : Bytes) (store : Store) : Option ListValue :=
  match ((store.cell key).live now).value with
  | none => some []
  | some value => value.list?

/-- Both bounds are clamped to the list, and what is left between them is a slice of it. -/
theorem lrangeReply_eq (start stop : ℤ) (l : ListValue) :
    lrangeReply start stop l = bulkStrings (slice start stop l) := by
  have habsolute (bound : ℤ) : absoluteIndex bound l.length = position l.length bound := rfl
  rw [lrangeReply, bulkStrings, habsolute, habsolute, slice, between_eq, lrangeLoop]
  congr 1
  refine List.ext_getElem ?_ (fun i hi hi' => ?_)
  · simp only [List.length_map, List.length_range, List.length_take, List.length_drop]
    omega
  · simp only [List.length_map, List.length_range] at hi
    have hindex : (max 0 (position l.length start) + (i : ℤ)).toNat =
        (position l.length start).toNat + i := by omega
    have hlt : (position l.length start).toNat + i < l.length := by omega
    simp only [List.getElem_map, List.getElem_range, List.getElem_take, List.getElem_drop, hindex,
      List.getD_eq_getElem?_getD, List.getElem?_eq_getElem hlt, Option.getD_some]

def lrangeRequest (key first last : Bytes) : RespValue :=
  asRequest [CommandName.lrange.upper, key, first, last]

theorem executeCommand_lrange {now : Readings} {key first last : Bytes} {start stop : ℤ}
    {l : ListValue} {s : Session} (hfirst : toInteger first = some start)
    (hlast : toInteger last = some stop) (hl : listAt now.first key s.store = some l) :
    executeCommand now (lrangeRequest key first last) s =
      (bulkStrings (slice start stop l),
        ⟨s.store.setCell key ((s.store.cell key).live now.first), s.log⟩) := by
  have hargs : interpretArgs now .lrange [key, first, last] = .ok (.on key (.lrange start stop)) := by
    simp only [interpretArgs, hfirst, hlast]
  rw [lrangeRequest, executeCommand_words, hargs]
  simp only [answer, perform, Op.checkedAt, Op.decide]
  unfold listAt at hl
  generalize (s.store.cell key).live now.first = c at hl
  cases hvalue : c.value with
  | none =>
    simp only [hvalue] at hl
    cases hl
    simp only [reading, hvalue, commit_answer]
    rfl
  | some value =>
    simp only [hvalue] at hl
    simp only [reading, hvalue, hl, commit_answer, lrangeReply_eq]

def lrangeBetween (now : Readings) (key : Bytes) (s : Session) (start stop : ℤ) : RespValue :=
  (executeCommand now (lrangeRequest key (intDecimal start) (intDecimal stop)) s).1

/-- `LRANGE` replies the slice of the list between its bounds, the parts before and after a position
make up the list, and the list stays what it is. -/
theorem lrange_reference_slice {now : Readings} {key : Bytes} {l : ListValue} {s : Session}
    (hl : listAt now.first key s.store = some l) :
    (∀ first last start stop, toInteger first = some start → toInteger last = some stop →
      (executeCommand now (lrangeRequest key first last) s).1 = bulkStrings (slice start stop l) ∧
        listAt now.first key (executeCommand now (lrangeRequest key first last) s).2.store = some l) ∧
    ∀ m : ℕ, m < l.length → InInt64 ((m : ℤ) + 1) → ∃ front back, front ++ back = l ∧
      lrangeBetween now key s 0 m = bulkStrings front ∧
      lrangeBetween now key s (m + 1) (-1) = bulkStrings back ∧
      lrangeBetween now key s 0 (-1) = bulkStrings l := by
  constructor
  · intro first last start stop hfirst hlast
    rw [executeCommand_lrange hfirst hlast hl]
    refine ⟨rfl, ?_⟩
    rw [listAt, Store.cell_setCell_self, Cell.live_live le_rfl]
    exact hl
  · intro m hm hnext
    have hbetween {start stop : ℤ} (hstart : InInt64 start) (hstop : InInt64 stop) :
        lrangeBetween now key s start stop = bulkStrings (slice start stop l) := by
      rw [lrangeBetween, executeCommand_lrange (toInteger_intDecimal hstart)
        (toInteger_intDecimal hstop) hl]
    have hm' : InInt64 (m : ℤ) := ⟨by unfold minInt64; omega, by have := hnext.2; omega⟩
    refine ⟨slice 0 m l, slice (m + 1) (-1) l, slice_append hm, ?_, ?_, ?_⟩
    · exact hbetween (by decide) hm'
    · exact hbetween hnext (by decide)
    · rw [hbetween (by decide) (by decide), slice_whole]

def letters : Session :=
  ⟨Store.setCell {} (text "k") ⟨some (.list [text "a", text "b", text "c"]), none⟩, none⟩

theorem letters_between :
    (executeCommand (.once 0 0) (lrangeRequest (text "k") (text "-02") (text "9")) letters).1 =
        bulkStrings [text "b", text "c"] ∧
      lrangeBetween (.once 0 0) (text "k") letters 0 (-1) =
        bulkStrings [text "a", text "b", text "c"] := by
  have hl : listAt 0 (text "k") letters.store = some [text "a", text "b", text "c"] := by
    simp [letters, listAt, Cell.live, Cell.due, Value.list?]
  have htail : slice (-2) 9 [text "a", text "b", text "c"] = [text "b", text "c"] := by decide
  obtain ⟨hslice, hparts⟩ := @lrange_reference_slice (.once 0 0) (text "k") _ letters hl
  obtain ⟨-, -, -, -, -, hwhole⟩ := hparts 0 (by decide) (by decide)
  refine ⟨?_, hwhole⟩
  rw [(hslice (text "-02") (text "9") (-2) 9 (by decide) (by decide)).1, htail]

end RedisLite.Operations
