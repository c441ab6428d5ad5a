import Mathlib.Data.List.Perm.Lattice
import Mathlib.Data.List.Range
import Mathlib.Tactic.Common

/-!
# Thread pools

`CThreadPool`, the class of both pools of the server: the event-loop threads
(`MainPool`) and the workers (`WorkerPool`). A thread is a number, given by the
order of the `new CWorkerThread` (`created`); what a thread holds, its connections
or its job, is in the states of the two pools.

The counts stay far below 2^31 as long as the process can hold its threads, so
`m_AvailNum` is an integer, which may also become negative here.

* `Partition`: every thread of `m_ThreadList` is in exactly one of `m_IdleList`
  and `m_BusyList`, once, and `m_AvailNum` is the size of `m_IdleList`;
* `Partition.moveToBusyList`, `Partition.moveToIdleList`,
  `Partition.createIdleThread`, `Partition.deleteIdleThread`: the operations that
  keep it, and when.
-/

namespace VsHttpServer

open scoped List

/-- A thread, numbered in the order of creation. -/
abbrev ThreadId := Nat

/-- The fields of `CThreadPool`, and the number of threads made for it. -/
structure CThreadPool where
  maxNum : Nat
  availLow : Nat
  availHigh : Nat
  initNum : Nat
  availNum : Int
  threadList : List ThreadId
  busyList : List ThreadId
  idleList : List ThreadId
  created : Nat
  deriving DecidableEq

namespace CThreadPool

/-! ## The operations on the lists -/

/-- `AppendToIdleList`. -/
def appendToIdleList (p : CThreadPool) (t : ThreadId) : CThreadPool :=
  { p with
    idleList := p.idleList ++ [t]
    threadList := p.threadList ++ [t] }

/-- `MoveToBusyList`. -/
def moveToBusyList (p : CThreadPool) (t : ThreadId) : CThreadPool :=
  { p with
    busyList := p.busyList ++ [t]
    availNum := p.availNum - 1
    idleList := p.idleList.erase t }

/-- `MoveToIdleList`. -/
def moveToIdleList (p : CThreadPool) (t : ThreadId) : CThreadPool :=
  { p with
    idleList := p.idleList ++ [t]
    availNum := p.availNum + 1
    busyList := p.busyList.erase t }

/-- `new CWorkerThread`, appended to the idle list. -/
def newThread (p : CThreadPool) : CThreadPool :=
  { p with created := p.created + 1 }.appendToIdleList p.created

/-- The loop of the constructors: `m_AvailNum` was set before. -/
def newThreads : Nat → CThreadPool → CThreadPool
  | 0, p => p
  | n + 1, p => newThreads n p.newThread

/-- The loop of `CreateIdleThread` and of `CreateMainIdleThread`: a thread is
    appended and counted before it is started, whether or not it then starts. -/
def createLoop : Nat → CThreadPool → CThreadPool
  | 0, p => p
  | n + 1, p =>
    let p := p.newThread
    createLoop n { p with availNum := p.availNum + 1 }

/-- `CreateIdleThread(num)`, and `CreateMainIdleThread(num)`. -/
def createIdleThread (p : CThreadPool) (num : Int) : CThreadPool := createLoop num.toNat p

/-- The loop of `DeleteIdleThread`; `none` is an iteration on an empty idle list,
    where `thr` is uninitialised. -/
def deleteLoop : Nat → CThreadPool → Option CThreadPool
  | 0, p => some p
  | n + 1, p =>
    match p.idleList with
    | [] => none
    | thr :: idle =>
      deleteLoop n { p with
        idleList := idle
        threadList := p.threadList.erase thr
        availNum := p.availNum - 1 }

/-- `DeleteIdleThread(num)`. -/
def deleteIdleThread (p : CThreadPool) (num : Int) : Option CThreadPool := deleteLoop num.toNat p

/-! ## The partition of the threads -/

/-- Every thread of the pool is in one of the two lists, once. -/
structure Partition (p : CThreadPool) : Prop where
  perm : p.idleList ++ p.busyList ~ p.threadList
  nodup : p.threadList.Nodup
  lt_created : ∀ t ∈ p.threadList, t < p.created
  availNum : p.availNum = p.idleList.length

variable {p : CThreadPool} {t : ThreadId}

theorem Partition.mem_iff (h : p.Partition) : t ∈ p.threadList ↔ t ∈ p.idleList ∨ t ∈ p.busyList := by
  rw [← h.perm.mem_iff, List.mem_append]

theorem Partition.disjoint (h : p.Partition) (hi : t ∈ p.idleList) : t ∉ p.busyList := fun hb =>
  (List.nodup_append.1 (h.perm.nodup_iff.2 h.nodup)).2.2 t hi t hb rfl

theorem Partition.nodup_idleList (h : p.Partition) : p.idleList.Nodup :=
  (List.nodup_append.1 (h.perm.nodup_iff.2 h.nodup)).1

theorem Partition.nodup_busyList (h : p.Partition) : p.busyList.Nodup :=
  (List.nodup_append.1 (h.perm.nodup_iff.2 h.nodup)).2.1

theorem Partition.length (h : p.Partition) :
    p.threadList.length = p.idleList.length + p.busyList.length := by
  rw [← h.perm.length_eq, List.length_append]

/-- The number of times a thread of the pool is in the two lists. -/
theorem Partition.count (h : p.Partition) (ht : t ∈ p.threadList) :
    p.idleList.count t + p.busyList.count t = 1 := by
  rw [← List.count_append, h.perm.count_eq, List.count_eq_one_of_mem h.nodup ht]

theorem Partition.moveToBusyList (h : p.Partition) (ht : t ∈ p.idleList) :
    (p.moveToBusyList t).Partition where
  perm := by
    refine List.Perm.trans ?_ h.perm
    calc
      p.idleList.erase t ++ (p.busyList ++ [t])
      _ = p.idleList.erase t ++ p.busyList ++ [t] := (List.append_assoc _ _ _).symm
      _ ~ t :: (p.idleList.erase t ++ p.busyList) := List.perm_append_singleton t _
      _ ~ p.idleList ++ p.busyList := ((List.perm_cons_erase ht).append_right _).symm
  nodup := h.nodup
  lt_created := h.lt_created
  availNum := by
    have hpos := List.length_pos_of_mem ht
    simp only [CThreadPool.moveToBusyList, h.availNum, List.length_erase_of_mem ht]
    omega

theorem Partition.moveToIdleList (h : p.Partition) (ht : t ∈ p.busyList) :
    (p.moveToIdleList t).Partition where
  perm := by
    refine List.Perm.trans ?_ h.perm
    calc
      p.idleList ++ [t] ++ p.busyList.erase t
      _ = p.idleList ++ t :: p.busyList.erase t := by rw [List.append_assoc]; rfl
      _ ~ p.idleList ++ p.busyList := (List.perm_cons_erase ht).symm.append_left _
  nodup := h.nodup
  lt_created := h.lt_created
  availNum := by
    simp only [CThreadPool.moveToIdleList, h.availNum, List.length_append]
    rfl

/-! ## Threads made and removed -/

theorem newThreads_eq (n : Nat) (p : CThreadPool) :
    newThreads n p =
      { p with
        idleList := p.idleList ++ List.range' p.created n
        threadList := p.threadList ++ List.range' p.created n
        created := p.created + n } := by
  induction n generalizing p with
  | zero => simp [newThreads]
  | succ n ih =>
    rw [newThreads, ih]
    simp [newThread, appendToIdleList, List.range'_succ, Nat.add_assoc, Nat.add_comm 1 n]

theorem createLoop_eq (n : Nat) (p : CThreadPool) :
    createLoop n p =
      { p with
        idleList := p.idleList ++ List.range' p.created n
        threadList := p.threadList ++ List.range' p.created n
        availNum := p.availNum + n
        created := p.created + n } := by
  induction n generalizing p with
  | zero => simp [createLoop]
  | succ n ih =>
    rw [createLoop, ih]
    simp [newThread, appendToIdleList, List.range'_succ, Nat.add_assoc, Nat.add_comm 1 n]
    omega

/-- New threads keep the partition, as long as they are counted. -/
theorem Partition.append (h : p.Partition) (n : Nat) :
    ({ p with
        idleList := p.idleList ++ List.range' p.created n
        threadList := p.threadList ++ List.range' p.created n
        availNum := p.availNum + n
        created := p.created + n } : CThreadPool).Partition where
  perm := by
    calc
      p.idleList ++ List.range' p.created n ++ p.busyList
      _ ~ p.idleList ++ p.busyList ++ List.range' p.created n := by
        rw [List.append_assoc, List.append_assoc]
        exact List.perm_append_comm.append_left _
      _ ~ p.threadList ++ List.range' p.created n := h.perm.append_right _
  nodup := by
    refine List.nodup_append.2 ⟨h.nodup, List.nodup_range', fun a ha b hb he => ?_⟩
    have hlt := h.lt_created a ha
    have hge := (List.mem_range'_1.1 hb).1
    exact absurd (he ▸ hlt) (not_lt.2 hge)
  lt_created t ht := by
    rcases List.mem_append.1 ht with ht | ht
    · exact (h.lt_created t ht).trans_le (Nat.le_add_right _ _)
    · exact (List.mem_range'_1.1 ht).2
  availNum := by
    simp [h.availNum]

theorem Partition.createIdleThread (h : p.Partition) (num : Int) :
    (p.createIdleThread num).Partition := by
  rw [CThreadPool.createIdleThread, createLoop_eq]
  exact h.append num.toNat

/-- `DeleteIdleThread` removes the threads at the front of the idle list. -/
theorem deleteLoop_eq {n : Nat} {p : CThreadPool} (hn : n ≤ p.idleList.length) :
    deleteLoop n p =
      some { p with
        idleList := p.idleList.drop n
        threadList := p.threadList.diff (p.idleList.take n)
        availNum := p.availNum - n } := by
  induction n generalizing p with
  | zero => simp [deleteLoop]
  | succ n ih =>
    cases hidle : p.idleList with
    | nil => simp [hidle] at hn
    | cons thr idle =>
      rw [hidle, List.length_cons] at hn
      rw [deleteLoop, hidle]
      simp only
      rw [ih (Nat.le_of_succ_le_succ hn)]
      simp only [List.drop_succ_cons, List.take_succ_cons, List.diff_cons, Option.some.injEq,
        CThreadPool.mk.injEq, true_and, and_true]
      omega

theorem busyList_deleteLoop {n : Nat} {p p' : CThreadPool} (hd : deleteLoop n p = some p') :
    p'.busyList = p.busyList := by
  induction n generalizing p with
  | zero =>
    cases hd
    rfl
  | succ n ih =>
    rw [CThreadPool.deleteLoop] at hd
    cases hidle : p.idleList with
    | nil => simp [hidle] at hd
    | cons thr idle =>
      rw [hidle] at hd
      rw [ih hd]

/-- The numbers of a pool, which no operation changes. -/
def SameNums (p p' : CThreadPool) : Prop :=
  p'.maxNum = p.maxNum ∧ p'.availLow = p.availLow ∧ p'.availHigh = p.availHigh ∧ p'.initNum = p.initNum

theorem SameNums.refl (p : CThreadPool) : p.SameNums p := ⟨rfl, rfl, rfl, rfl⟩

/-- `DeleteIdleThread` takes threads from the front of the idle list, and off the list of
    all threads. -/
theorem deleteLoop_spec {n : Nat} {p p' : CThreadPool} (h : deleteLoop n p = some p') :
    p.SameNums p' ∧ p'.busyList = p.busyList ∧ p'.created = p.created ∧
      p'.idleList <:+ p.idleList ∧ p'.threadList.Sublist p.threadList := by
  induction n generalizing p with
  | zero =>
    cases h
    exact ⟨.refl _, rfl, rfl, List.suffix_rfl, List.Sublist.refl _⟩
  | succ n ih =>
    rw [deleteLoop] at h
    cases hidle : p.idleList with
    | nil => simp [hidle] at h
    | cons thr idle =>
      rw [hidle] at h
      obtain ⟨hnums, hbusy, hcreated, hsuffix, hsub⟩ := ih h
      exact ⟨hnums, hbusy, hcreated, hsuffix.trans (List.suffix_cons thr idle),
        hsub.trans List.erase_sublist⟩

theorem Partition.deleteLoop {n : Nat} {p p' : CThreadPool} (h : p.Partition)
    (hd : deleteLoop n p = some p') : p'.Partition := by
  induction n generalizing p with
  | zero =>
    cases hd
    exact h
  | succ n ih =>
    rw [CThreadPool.deleteLoop] at hd
    cases hidle : p.idleList with
    | nil => simp [hidle] at hd
    | cons thr idle =>
      rw [hidle] at hd
      refine ih ?_ hd
      have hperm := h.perm
      rw [hidle, List.cons_append] at hperm
      refine ⟨?_, h.nodup.erase thr, fun t ht => h.lt_created t (List.mem_of_mem_erase ht), ?_⟩
      · have := hperm.erase thr
        rwa [List.erase_cons_head] at this
      · simp only [h.availNum, hidle, List.length_cons]
        omega

end CThreadPool

end VsHttpServer
