import VsHttpServer.DoubleChecked
import VsHttpServer.MysqlPool
import VsHttpServer.Pool.Main
import VsHttpServer.Pool.Worker
import Mathlib.Data.Fin.VecNotation

/-!
# The objects of `CThreadManage` and of `CMysqlPool`

`CThreadManage::init` and `CMysqlPool::Init` test a static variable, lock a mutex, and
test again before they construct. The mutex is a local variable, so each call locks one
of its own (`id`). The calls are numbered; a thread that calls twice makes two of them,
one after the other.

The construction is one step, from the constructor to the assignment of `pInstance`. An
object is given by its number in the order of construction. Where an `assert` of a
constructor fails, the process is aborted: the call has no further step.

* `instances_iff`: there are at most `MAX_OBJECT` objects of `CThreadManage`, and one of
  `CMysqlPool`, if and only if no call passes its inner test where the calls that are
  between this test and the construction leave no room for it.
-/

namespace VsHttpServer

open Transition DoubleChecked

/-- The fields of `CThreadManage`; a pool that the constructor does not set is `none`. -/
structure CThreadManage where
  pool : Option MainPool
  workerPool : Option WorkerPool
  numOfThread : Nat

namespace CThreadManage

/-- `MAX_OBJECT`. -/
def maxObject : Nat := 2

/-- `CThreadManage::CThreadManage()`. -/
def newWorker : CThreadManage := ⟨none, some (.init .default), 10⟩

/-- `CThreadManage::CThreadManage(int, void*)`; `none` where the `assert` of `CThreadPool`
    fails. -/
def newMain (num : Nat) : Option CThreadManage :=
  if 0 < num ∧ num ≤ 30 then some ⟨some (.init num), none, num⟩ else none

/-- The static variables, and the objects constructed. -/
structure Statics where
  numObjects : Int
  pInstance : Option Nat
  objects : List CThreadManage

inductive Outcome
  | returned (p : Option Nat)
  | myException
  deriving DecidableEq

variable {n : Nat}

/-- `init`, each call with its `thread_num`. -/
def init (threadNum : Fin n → Nat) : Code (Fin n) CThreadManage Statics Outcome where
  test d := d.numObjects < maxObject
  object t := if threadNum t = 0 then some newWorker else newMain (threadNum t)
  store o d := ⟨d.numObjects + 1, some d.objects.length, d.objects ++ [o]⟩
  refuse := some .myException
  result d := .returned d.pInstance

/-- Before the first call. -/
def start : State (Fin n) (Fin n) Statics Outcome := .init ⟨0, none, []⟩

/-- How many objects were constructed. -/
def made (d : Statics) : Nat := d.objects.length

theorem counts_init (threadNum : Fin n → Nat) :
    Counts (init threadNum) made (fun d => d.numObjects = made d) maxObject where
  test_iff {d} hd := by
    simp only [init, hd, decide_eq_true_eq, Int.ofNat_lt]
  store {d} o hd := by
    simp only [init, made, List.length_append, List.length_singleton]
    rw [hd, made, Int.natCast_succ]
  made_store o _ := List.length_append

end CThreadManage

/-- The fields of `CMysqlPool` that the constructor sets. -/
structure CMysqlPool where
  connNum : Int
  pool : CManagePool

namespace CMysqlPool

/-- `CMysqlPool::CMysqlPool`; `none` where an `assert` of `CManagePool` fails. -/
def construct (db : Mysql) (memory : NodeId → ConnNode) (num : Int) : Option CMysqlPool :=
  (CManagePool.construct db memory num.toNat).map fun p => ⟨num, p⟩

/-- The static variable, and the objects constructed. -/
structure Statics where
  pInstance : Option Nat
  objects : List CMysqlPool

variable {n : Nat}

/-- `Init`, each call with its `num`, and what its construction finds. -/
def init (num : Fin n → Int) (db : Fin n → Mysql) (memory : Fin n → NodeId → ConnNode) :
    Code (Fin n) CMysqlPool Statics (Option Nat) where
  test d := d.pInstance.isNone
  object t := construct (db t) (memory t) (num t)
  store o d := ⟨some d.objects.length, d.objects ++ [o]⟩
  refuse := none
  result d := d.pInstance

/-- Before the first call. -/
def start : State (Fin n) (Fin n) Statics (Option Nat) := .init ⟨none, []⟩

/-- How many objects were constructed. -/
def made (d : Statics) : Nat := d.objects.length

/-- `pInstance` is the last object, if there is one. -/
def Good (d : Statics) : Prop := ∀ p, d.pInstance = some p ↔ p + 1 = made d

theorem Good.isNone_iff {d : Statics} (hd : Good d) : d.pInstance.isNone = true ↔ made d < 1 := by
  rw [Option.isNone_iff_eq_none, Option.eq_none_iff_forall_ne_some, Nat.lt_one_iff]
  constructor
  · intro hnone
    by_contra hmade
    exact hnone (made d - 1) ((hd _).2 (Nat.succ_pred hmade))
  · intro hmade p hp
    have hsucc := (hd p).1 hp
    rw [hmade] at hsucc
    cases hsucc

theorem counts_init (num : Fin n → Int) (db : Fin n → Mysql) (memory : Fin n → NodeId → ConnNode) :
    Counts (init num db memory) made Good 1 where
  test_iff hd := hd.isNone_iff
  store {d} o _ p := by
    simp only [init, made, Option.some.injEq, List.length_append, List.length_singleton,
      Nat.add_right_cancel_iff]
    exact eq_comm
  made_store o _ := List.length_append

end CMysqlPool

/-- The objects stay within their number, also when the calls that have passed the inner
    test go on, and all calls of `CMysqlPool::Init` return the first object of
    `CMysqlPool`, if and only if no call passes its inner test without room for the object
    that it makes. And each call of `CMysqlPool::Init` returns, after six steps at most,
    unless its construction fails. -/
theorem instances_iff {n : Nat} (threadNum : Fin n → Nat) (num : Fin n → Int) (db : Fin n → Mysql)
    (memory : Fin n → NodeId → ConnNode) (ts : List (Fin n)) :
    (Along (step (CThreadManage.init threadNum) id)
        (Room (CThreadManage.init threadNum) CThreadManage.made CThreadManage.maxObject)
        CThreadManage.start ts ↔
      Throughout (step (CThreadManage.init threadNum) id)
        (Kept (CThreadManage.init threadNum) id CThreadManage.made CThreadManage.maxObject)
        CThreadManage.start ts) ∧
    (Along (step (CMysqlPool.init num db memory) id)
        (Room (CMysqlPool.init num db memory) CMysqlPool.made 1) CMysqlPool.start ts ↔
      Throughout (step (CMysqlPool.init num db memory) id)
        (fun s => Kept (CMysqlPool.init num db memory) id CMysqlPool.made 1 s ∧
          ∀ t p, s.place t = .done p → p = some 0)
        CMysqlPool.start ts) ∧
    ∀ t s, ((CMysqlPool.init num db memory).object t).isSome = true →
      exec (step (CMysqlPool.init num db memory) id) CMysqlPool.start ts = some s →
      ts.count t ≤ 6 ∧
        (step (CMysqlPool.init num db memory) id s t = none → ∃ p, s.place t = .done p) := by
  refine ⟨?_, ?_, fun t s ho hexec => ?_⟩
  · exact (CThreadManage.counts_init threadNum).along_iff_kept (.init rfl (Nat.zero_le _))
  · have hresult (d : CMysqlPool.Statics) (hd : CMysqlPool.Good d) (hmade : CMysqlPool.made d = 1) :
        d.pInstance = some 0 := (hd 0).2 hmade.symm
    have hgood : CMysqlPool.Good ⟨none, []⟩ := fun p => iff_of_false (by simp) (Nat.succ_ne_zero p)
    exact (CMysqlPool.counts_init num db memory).along_iff_same rfl hresult
      (.init hgood (Nat.zero_le _)) fun _ => trivial
  · exact returns_of_exec Function.injective_id (held_init _) ho hexec

/-- Three calls of `CThreadManage::init` test before the first of them constructs: there
    are three objects then. Of two such calls of `CMysqlPool::Init` each returns an object
    of its own. -/
theorem not_instances :
    ¬Throughout (step (CThreadManage.init ![2, 0, 0]) id)
        (fun s => CThreadManage.made s.data ≤ CThreadManage.maxObject) CThreadManage.start
        [0, 0, 0, 1, 1, 1, 2, 2, 2, 0, 1, 2] ∧
      ¬Throughout (step (CMysqlPool.init ![1, 1] (fun _ => ⟨fun _ => true, fun _ => true⟩) default) id)
        (fun s => CMysqlPool.made s.data ≤ 1) CMysqlPool.start
        [0, 0, 0, 1, 1, 1, 0, 1] ∧
      ¬Throughout (step (CMysqlPool.init ![1, 1] (fun _ => ⟨fun _ => true, fun _ => true⟩) default) id)
        (fun s => ∀ p q, s.place 0 = .done p → s.place 1 = .done q → p = q) CMysqlPool.start
        [0, 0, 0, 1, 1, 1, 0, 0, 0, 1, 1, 1] := by
  refine ⟨fun h => ?_, fun h => ?_, fun h => ?_⟩
  · have hle := h.of_exec rfl
    exact absurd hle (by decide)
  · have hle := h.of_exec rfl
    exact absurd hle (by decide)
  · have heq := h.of_exec rfl
    have hp := heq (some 0) (some 1) rfl rfl
    cases hp

end VsHttpServer
