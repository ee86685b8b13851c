import RedisLite.MachineRuns
import RedisLite.StoreInvariant

/-!
# Lazy expiration is unobservable

The reference server loses a key, value and deadline together, at the instant its deadline is
reached, and its commands never look for deadlines that have passed. The lazy one gives the same
replies and writes the same log, and its store without the due keys is the reference store.
-/

namespace RedisLite.LazyExpiration
open ByteStrings Resp Keyspace AppendLog Commands Operations MachineRuns

structure TimedRequest where
  now : ℤ
  unix : ℤ
  request : RespValue

def TimedRequest.readings (i : TimedRequest) : Readings := .once i.now i.unix

def lazyStep (i : TimedRequest) (s : Session) : Outcome := executeCommand i.readings i.request s

/-- An operation on a store without due keys, with no look at deadlines that have passed. -/
def performEagerly (now : Readings) (request : Except RespValue Request) (s : Session) : Outcome :=
  match request with
  | .error reply => (reply, s)
  | .ok .ping => (makeSimpleString (text "PONG"), s)
  | .ok (.on key op) => commit key (s.store.cell key) (op.decide now key (s.store.cell key)) s

/-- The due keys are gone by the time a request is answered. -/
def eagerStep (i : TimedRequest) (s : Session) : Outcome :=
  performEagerly i.readings (interpret i.readings i.request)
    { s with store := s.store.dropDue i.now }

/-- Equal logs, and equal stores once the keys that are due at `t` are gone. -/
def Agree (t : ℤ) (lazy eager : Session) : Prop :=
  lazy.store.dropDue t = eager.store.dropDue t ∧ lazy.log = eager.log

theorem Agree.later {t t' : ℤ} {lazy eager : Session} (h : t ≤ t') (hagree : Agree t lazy eager) :
    Agree t' lazy eager := by
  refine ⟨?_, hagree.2⟩
  rw [← Store.dropDue_dropDue h lazy.store, hagree.1, Store.dropDue_dropDue h]

/-- What an operation leaves behind on a live cell is live. -/
theorem change_live {now : ℤ} {c : Cell} {change : Change} (h : change.Allowed now c)
    (hc : c.live now = c) : (change.apply c).live now = change.apply c := by
  cases change with
  | keep => exact hc
  | put v =>
    have hdeadline := Cell.live_eq_self_iff.mp hc
    exact Cell.live_eq_self_iff.mpr hdeadline
  | replace v => rfl
  | remove => rfl
  | expireAt deadline => exact Cell.live_eq_self_iff.mpr (fun d hd => by cases hd; exact h.1)

theorem checkedAt_readings (op : Op) (i : TimedRequest) : op.checkedAt i.readings = i.now := by
  cases op <;> rfl

/-- One command: the same reply, the same log, and the lazy store without its due keys is the
reference store. -/
theorem step_agree (i : TimedRequest) {lazy eager : Session} (h : Agree i.now lazy eager) :
    (lazyStep i lazy).1 = (eagerStep i eager).1 ∧
      (lazyStep i lazy).2.log = (eagerStep i eager).2.log ∧
      (lazyStep i lazy).2.store.dropDue i.now = (eagerStep i eager).2.store := by
  obtain ⟨hstore, hlog⟩ := h
  rw [lazyStep, executeCommand_refines, eagerStep, ← hstore, ← hlog]
  cases interpret i.readings i.request with
  | error reply => exact ⟨rfl, rfl, rfl⟩
  | ok r =>
    cases r with
    | ping => exact ⟨rfl, rfl, rfl⟩
    | on key op =>
      simp only [answer, perform, performEagerly, checkedAt_readings, Store.cell_dropDue]
      have hidem : ((lazy.store.cell key).live i.now).live i.now = (lazy.store.cell key).live i.now :=
        Cell.live_live le_rfl _
      have hlive := change_live (decide_allowed i.readings key op _) hidem
      refine ⟨rfl, rfl, ?_⟩
      simp only [commit, Store.dropDue_setCell]
      exact congrArg _ hlive

structure SameRound (lazy eager : Round TimedRequest RespValue Session) : Prop where
  input : lazy.input = eager.input
  reply : lazy.output = eager.output
  log : lazy.state.log = eager.state.log
  store : lazy.state.store.dropDue lazy.input.now = eager.state.store

/-- Over any requests in order of time and from any store, the lazy server and the reference server
go through the same rounds. -/
theorem lazy_eq_eager (requests : List TimedRequest) (h : Ordered TimedRequest.now requests)
    (s : Session) :
    List.Forall₂ SameRound (trace lazyStep requests s) (trace eagerStep requests s) := by
  have hlater : ∀ t t' lazy eager, t ≤ t' → Agree t lazy eager → Agree t' lazy eager :=
    fun _ _ _ _ => Agree.later
  have hround : ∀ (i : TimedRequest) lazy eager, Agree i.now lazy eager →
      SameRound ⟨i, (lazyStep i lazy).1, (lazyStep i lazy).2⟩
          ⟨i, (eagerStep i eager).1, (eagerStep i eager).2⟩ ∧
        Agree i.now (lazyStep i lazy).2 (eagerStep i eager).2 := by
    intro i lazy eager hagree
    obtain ⟨hreply, hlog, hstore⟩ := step_agree i hagree
    refine ⟨⟨rfl, hreply, hlog, hstore⟩, ?_, hlog⟩
    rw [← hstore, Store.dropDue_dropDue le_rfl]
  exact trace_simulation hlater hround (fun _ _ => ⟨rfl, rfl⟩) h

def overwritten : List TimedRequest :=
  [⟨0, 0, makeArray [makeBulkString (text "SET"), makeBulkString (text "k"),
      makeBulkString (text "v")]⟩,
    ⟨0, 0, makeArray [makeBulkString (text "EXPIRE"), makeBulkString (text "k"),
      makeBulkString (text "1")]⟩,
    ⟨2000000000, 2, makeArray [makeBulkString (text "RPUSH"), makeBulkString (text "k"),
      makeBulkString (text "x")]⟩]

theorem overwritten_unobservable :
    List.Forall₂ SameRound (trace lazyStep overwritten ⟨{}, some []⟩)
      (trace eagerStep overwritten ⟨{}, some []⟩) :=
  lazy_eq_eager overwritten (by simp [Ordered, overwritten]) _

end RedisLite.LazyExpiration
