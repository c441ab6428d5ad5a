import VsHttpServer.Pool.Basic
import VsHttpServer.Transition
import Mathlib.Algebra.Order.Group.Int

/-!
# The event-loop pool

The threads that own connections. `InsertConn` links a connection in the queue of
a thread, moves the thread to the busy list when that fills it, and creates a
thread when the only idle one left is about to be full. `CheckIfInBusyList` brings
a full thread back before it removes a connection.

A queue is the list of the connections linked between its sentinels, in the order
of `m_Next`.

* `Core`: the lists and the counts agree;
* `Inv`: moreover a lone idle thread never has `MAX_OPEN_FD - 1` connections, so
  that the idle list is not emptied by the next one;
* `Inv.insertConn`, `Inv.checkIfInBusyList`: the steps keep it;
* `threads_partition`: what holds after any number of them.
-/

namespace VsHttpServer

open Transition

/-- `MAX_OPEN_FD`. -/
def maxOpenFd : Nat := 2000

/-- A `Conn`, numbered in the order of creation, and its `m_fd`. -/
structure Conn where
  id : Nat
  fd : Int
  deriving DecidableEq, Repr

/-- `ConnQueue`: the connections linked, and `m_CurrentConnNum`. -/
structure ConnQueue where
  conns : List Conn
  currentConnNum : Int
  deriving DecidableEq, Repr

namespace ConnQueue

/-- The constructor. -/
def empty : ConnQueue := ⟨[], 0⟩

/-- The part of `InsertConn` that links a new `Conn` after `m_head`. -/
def link (q : ConnQueue) (c : Conn) : ConnQueue := ⟨c :: q.conns, q.currentConnNum + 1⟩

/-- `DeleteConn`. -/
def deleteConn (q : ConnQueue) (c : Conn) : ConnQueue := ⟨q.conns.erase c, q.currentConnNum - 1⟩

end ConnQueue

/-- The pool of event-loop threads, and the queue of each; a thread that is not made
    yet has the queue its constructor gives it. -/
structure MainPool where
  pool : CThreadPool
  connectQueue : ThreadId → ConnQueue
  /-- The number of `Conn`s made. -/
  conns : Nat

namespace MainPool

/-- `CThreadPool::CThreadPool(int, void*)`; its `assert` lets `1` to `30` pass. -/
def init (initnum : Nat) : MainPool where
  pool := CThreadPool.newThreads initnum
    { maxNum := 30
      availLow := if 0 < (initnum : Int) - 10 then initnum - 10 else 3
      availHigh := initnum + 10
      initNum := initnum
      availNum := initnum
      threadList := []
      busyList := []
      idleList := []
      created := 0 }
  connectQueue _ := .empty
  conns := 0

/-- `m_CurrentConnNum` of the queue of a thread. -/
def connNum (s : MainPool) (t : ThreadId) : Int := (s.connectQueue t).currentConnNum

/-- `CreateMainIdleThread`. -/
def createMainIdleThread (s : MainPool) (num : Int) : MainPool :=
  { s with pool := s.pool.createIdleThread num }

/-- A new `Conn` for `fd`, linked in the queue of `t` and counted there. -/
def link (s : MainPool) (t : ThreadId) (fd : Int) : MainPool :=
  { s with
    connectQueue :=
      Function.update s.connectQueue t ((s.connectQueue t).link ⟨s.conns, fd⟩)
    conns := s.conns + 1 }

/-- `MoveToBusyList`, if the queue of `t` is full. -/
def moveIfFull (s : MainPool) (t : ThreadId) : MainPool :=
  if maxOpenFd < s.connNum t + 1 then { s with pool := s.pool.moveToBusyList t } else s

/-- The only idle thread is one connection short of full. -/
def NearlyFull (s : MainPool) : Prop :=
  ∃ t, s.pool.idleList = [t] ∧ s.connNum t = maxOpenFd - 1

instance (s : MainPool) : Decidable s.NearlyFull :=
  match h : s.pool.idleList with
  | [t] => decidable_of_iff (s.connNum t = maxOpenFd - 1) (by simp [NearlyFull, h])
  | [] => .isFalse (by simp [NearlyFull, h])
  | _ :: _ :: _ => .isFalse (by simp [NearlyFull, h])

/-- `CreateMainIdleThread(1)`, if the only idle thread is one connection short of full. -/
def createIfNearlyFull (s : MainPool) : MainPool :=
  if s.NearlyFull then s.createMainIdleThread 1 else s

/-- `ConnQueue::InsertConn` on the queue of `t`; the result `none` is `NULL`. -/
def insertConn (s : MainPool) (t : ThreadId) (fd : Int) : Option Conn × MainPool :=
  if s.connNum t < maxOpenFd then
    (some ⟨s.conns, fd⟩, ((s.link t fd).moveIfFull t).createIfNearlyFull)
  else (none, s)

/-- `CheckIfInBusyList(t, c)`, with its `DeleteConn`. -/
def checkIfInBusyList (s : MainPool) (t : ThreadId) (c : Conn) : MainPool :=
  let s := if t ∈ s.pool.busyList then { s with pool := s.pool.moveToIdleList t } else s
  { s with connectQueue := Function.update s.connectQueue t ((s.connectQueue t).deleteConn c) }

/-! ## Lists and counts -/

/-- The lists of the pool agree with the counts of the queues. -/
structure Core (s : MainPool) : Prop where
  partition : s.pool.Partition
  connNum_eq : ∀ t ∈ s.pool.threadList, s.connNum t = (s.connectQueue t).conns.length
  connNum_le : ∀ t ∈ s.pool.threadList, s.connNum t ≤ maxOpenFd
  busy_iff : ∀ t ∈ s.pool.threadList, t ∈ s.pool.busyList ↔ s.connNum t = maxOpenFd
  empty : ∀ t, t ∉ s.pool.threadList → s.connectQueue t = .empty

variable {s : MainPool} {t : ThreadId}

theorem connectQueue_link (fd : Int) (u : ThreadId) :
    (s.link t fd).connectQueue u =
      if u = t then (s.connectQueue t).link ⟨s.conns, fd⟩ else s.connectQueue u := by
  simp only [link, Function.update_apply]

theorem connNum_link (fd : Int) (u : ThreadId) :
    (s.link t fd).connNum u = if u = t then s.connNum t + 1 else s.connNum u := by
  rw [connNum, connectQueue_link]
  split_ifs <;> rfl

theorem moveIfFull_connectQueue : (s.moveIfFull t).connectQueue = s.connectQueue := by
  rw [moveIfFull]
  split_ifs <;> rfl

theorem moveIfFull_threadList : (s.moveIfFull t).pool.threadList = s.pool.threadList := by
  rw [moveIfFull]
  split_ifs <;> rfl

/-- The thread whose queue has room is idle. -/
theorem Core.mem_idleList (h : s.Core) (ht : t ∈ s.pool.threadList) (hlt : s.connNum t < maxOpenFd) :
    t ∈ s.pool.idleList :=
  (h.partition.mem_iff.1 ht).resolve_right fun hb => hlt.ne ((h.busy_iff t ht).1 hb)

/-- Linking a connection, with the move of a thread that it fills. -/
theorem Core.link (h : s.Core) (ht : t ∈ s.pool.threadList) (hlt : s.connNum t < maxOpenFd)
    (fd : Int) : ((s.link t fd).moveIfFull t).Core where
  partition := by
    rw [moveIfFull]
    split_ifs
    · exact h.partition.moveToBusyList (h.mem_idleList ht hlt)
    · exact h.partition
  connNum_eq u hu := by
    rw [moveIfFull_threadList] at hu
    rw [connNum, moveIfFull_connectQueue, ← connNum, connNum_link, connectQueue_link]
    split_ifs with hut
    · rw [h.connNum_eq t ht, ConnQueue.link, List.length_cons]
      rfl
    · exact h.connNum_eq u hu
  connNum_le u hu := by
    rw [moveIfFull_threadList] at hu
    rw [connNum, moveIfFull_connectQueue, ← connNum, connNum_link]
    split_ifs with hut
    · exact hlt
    · exact h.connNum_le u hu
  busy_iff u hu := by
    rw [moveIfFull_threadList] at hu
    rw [connNum, moveIfFull_connectQueue, ← connNum, connNum_link, moveIfFull, connNum_link,
      if_pos rfl]
    have hbusy : t ∉ s.pool.busyList := fun hb => hlt.ne ((h.busy_iff t ht).1 hb)
    -- `t` becomes busy just if it is full now; the others keep their place and count
    split_ifs with hfull hut hut
    · refine iff_of_true ?_ (by omega)
      rw [hut]
      exact List.mem_append_right _ (List.mem_singleton_self t)
    · have : u ∈ s.pool.busyList ++ [t] ↔ u ∈ s.pool.busyList := by simp [hut]
      exact this.trans (h.busy_iff u hu)
    · exact iff_of_false (hut ▸ hbusy) (by omega)
    · exact h.busy_iff u hu
  empty u hu := by
    rw [moveIfFull_threadList] at hu
    have hne : u ≠ t := by
      rintro rfl
      exact hu ht
    rw [moveIfFull_connectQueue, connectQueue_link, if_neg hne]
    exact h.empty u hu

theorem createMainIdleThread_eq (s : MainPool) :
    s.createMainIdleThread 1 =
      { s with
        pool := { s.pool with
          idleList := s.pool.idleList ++ [s.pool.created]
          threadList := s.pool.threadList ++ [s.pool.created]
          availNum := s.pool.availNum + 1
          created := s.pool.created + 1 } } := rfl

/-- A new thread. -/
theorem Core.createMainIdleThread (h : s.Core) : (s.createMainIdleThread 1).Core := by
  have hfresh : s.pool.created ∉ s.pool.threadList := fun hc => (h.partition.lt_created _ hc).ne rfl
  have hnew : s.connectQueue s.pool.created = .empty := h.empty _ hfresh
  have hmem : ∀ t ∈ (s.createMainIdleThread 1).pool.threadList,
      t ∈ s.pool.threadList ∨ t = s.pool.created := by
    intro t ht
    rwa [createMainIdleThread_eq, List.mem_append, List.mem_singleton] at ht
  refine ⟨h.partition.createIdleThread 1, fun t ht => ?_, fun t ht => ?_, fun t ht => ?_,
    fun t ht => h.empty t fun hold => ht (List.mem_append_left _ hold)⟩
  · rcases hmem t ht with ht | rfl
    · exact h.connNum_eq t ht
    · rw [createMainIdleThread_eq, connNum, hnew]
      rfl
  · rcases hmem t ht with ht | rfl
    · exact h.connNum_le t ht
    · rw [createMainIdleThread_eq, connNum, hnew]
      decide
  · rcases hmem t ht with ht | rfl
    · exact h.busy_iff t ht
    · rw [createMainIdleThread_eq, connNum, hnew]
      refine iff_of_false (fun hb => ?_) (by decide)
      exact hfresh (h.partition.mem_iff.2 (.inr hb))

theorem threadList_checkIfInBusyList (c : Conn) :
    (s.checkIfInBusyList t c).pool.threadList = s.pool.threadList := by
  rw [checkIfInBusyList]
  split_ifs <;> rfl

theorem connectQueue_checkIfInBusyList (c : Conn) (u : ThreadId) :
    (s.checkIfInBusyList t c).connectQueue u =
      if u = t then (s.connectQueue t).deleteConn c else s.connectQueue u := by
  have hq : (s.checkIfInBusyList t c).connectQueue =
      Function.update s.connectQueue t ((s.connectQueue t).deleteConn c) := by
    rw [checkIfInBusyList]
    split_ifs <;> rfl
  rw [hq, Function.update_apply]

theorem connNum_checkIfInBusyList (c : Conn) (u : ThreadId) :
    (s.checkIfInBusyList t c).connNum u = if u = t then s.connNum t - 1 else s.connNum u := by
  rw [connNum, connectQueue_checkIfInBusyList]
  split_ifs <;> rfl

/-- A connection is removed; a full thread is idle again. -/
theorem Core.checkIfInBusyList (h : s.Core) (ht : t ∈ s.pool.threadList) {c : Conn}
    (hc : c ∈ (s.connectQueue t).conns) : (s.checkIfInBusyList t c).Core := by
  have hpos : 0 < s.connNum t := by
    rw [h.connNum_eq t ht]
    exact_mod_cast List.length_pos_of_mem hc
  refine ⟨?_, fun u hu => ?_, fun u hu => ?_, fun u hu => ?_, fun u hu => ?_⟩
  · rw [MainPool.checkIfInBusyList]
    split_ifs with hb
    · exact h.partition.moveToIdleList hb
    · exact h.partition
  · rw [threadList_checkIfInBusyList] at hu
    rw [connNum_checkIfInBusyList, connectQueue_checkIfInBusyList]
    split_ifs with hut
    · rw [h.connNum_eq t ht, ConnQueue.deleteConn, List.length_erase_of_mem hc]
      have := List.length_pos_of_mem hc
      omega
    · exact h.connNum_eq u hu
  · rw [threadList_checkIfInBusyList] at hu
    rw [connNum_checkIfInBusyList]
    split_ifs with hut
    · exact (Int.sub_le_self _ (by decide)).trans (h.connNum_le t ht)
    · exact h.connNum_le u hu
  · rw [threadList_checkIfInBusyList] at hu
    rw [connNum_checkIfInBusyList, MainPool.checkIfInBusyList]
    have hle := h.connNum_le t ht
    -- one connection fewer: `t` is not full any more, whether it was or not
    split_ifs with hb hut hut
    · refine iff_of_false (fun hu' => ?_) (by omega)
      exact (List.Nodup.mem_erase_iff h.partition.nodup_busyList).1 hu' |>.1 hut
    · exact (List.mem_erase_of_ne hut).trans (h.busy_iff u hu)
    · exact iff_of_false (hut ▸ hb) (by omega)
    · exact h.busy_iff u hu
  · rw [threadList_checkIfInBusyList] at hu
    have hne : u ≠ t := by
      rintro rfl
      exact hu ht
    rw [connectQueue_checkIfInBusyList, if_neg hne]
    exact h.empty u hu

/-! ## A lone idle thread -/

/-- The invariant of the pool. -/
structure Inv (s : MainPool) : Prop extends s.Core where
  idleList_ne_nil : s.pool.idleList ≠ []
  not_nearlyFull : ¬s.NearlyFull

/-- What `InsertConn` does last re-establishes the invariant. -/
theorem Core.createIfNearlyFull (h : s.Core) (hidle : s.pool.idleList ≠ []) :
    s.createIfNearlyFull.Inv := by
  rw [MainPool.createIfNearlyFull]
  split_ifs with hn
  · refine ⟨h.createMainIdleThread, ?_, ?_⟩
    · rw [createMainIdleThread_eq]
      simp
    · -- there are two idle threads now
      rintro ⟨t, ht, -⟩
      rw [createMainIdleThread_eq] at ht
      have := congrArg List.length ht
      rw [List.length_append, List.length_singleton, List.length_singleton, Nat.add_eq_right,
        List.length_eq_zero_iff] at this
      exact hidle this
  · exact ⟨h, hidle, hn⟩

/-- A delivery on a thread that has room. -/
theorem Inv.link (h : s.Inv) (ht : t ∈ s.pool.threadList) (hlt : s.connNum t < maxOpenFd) (fd : Int) :
    (((s.link t fd).moveIfFull t).createIfNearlyFull).Inv := by
  refine (h.toCore.link ht hlt fd).createIfNearlyFull ?_
  rw [moveIfFull, connNum_link, if_pos rfl]
  split_ifs with hfull
  · -- `t` is full now: it was not the only idle thread
    intro hnil
    have hidle := h.toCore.mem_idleList ht hlt
    have hlen := List.length_erase_of_mem hidle
    rw [show s.pool.idleList.erase t = [] from hnil, List.length_nil] at hlen
    obtain ⟨u, hu⟩ := List.length_eq_one_iff.1
      (show s.pool.idleList.length = 1 by have := List.length_pos_of_mem hidle; omega)
    obtain rfl : t = u := by simpa [hu] using hidle
    exact h.not_nearlyFull ⟨t, hu, by omega⟩
  · exact h.idleList_ne_nil

theorem Inv.insertConn (h : s.Inv) (ht : t ∈ s.pool.threadList) (fd : Int) :
    (s.insertConn t fd).2.Inv := by
  rw [MainPool.insertConn]
  split_ifs with hlt
  · exact h.link ht hlt fd
  · exact h

theorem Inv.checkIfInBusyList (h : s.Inv) (ht : t ∈ s.pool.threadList) {c : Conn}
    (hc : c ∈ (s.connectQueue t).conns) : (s.checkIfInBusyList t c).Inv := by
  refine ⟨h.toCore.checkIfInBusyList ht hc, ?_, ?_⟩
  · rw [MainPool.checkIfInBusyList]
    split_ifs with hb
    · simp [CThreadPool.moveToIdleList]
    · exact h.idleList_ne_nil
  · rintro ⟨u, hu, hnum⟩
    rw [connNum_checkIfInBusyList] at hnum
    rw [MainPool.checkIfInBusyList] at hu
    split_ifs at hu with hb
    · -- `t` came back to a list that was not empty
      have := congrArg List.length (show s.pool.idleList ++ [t] = [u] from hu)
      rw [List.length_append, List.length_singleton, List.length_singleton, Nat.add_eq_right,
        List.length_eq_zero_iff] at this
      exact h.idleList_ne_nil this
    · split_ifs at hnum with hut
      · have hle := h.connNum_le t ht
        have hne := (h.busy_iff t ht).not.1 hb
        omega
      · exact h.not_nearlyFull ⟨u, hu, hnum⟩

/-- A delivery on a thread that has room links the connection there. -/
theorem insertConn_of_lt (hlt : s.connNum t < maxOpenFd) (fd : Int) :
    (s.insertConn t fd).1 = some ⟨s.conns, fd⟩ ∧ (s.insertConn t fd).2.conns = s.conns + 1 ∧
      (s.insertConn t fd).2.connectQueue =
        Function.update s.connectQueue t ((s.connectQueue t).link ⟨s.conns, fd⟩) := by
  rw [insertConn, if_pos hlt, createIfNearlyFull, moveIfFull]
  split_ifs <;> exact ⟨rfl, rfl, rfl⟩

theorem insertConn_of_not_lt (h : ¬s.connNum t < maxOpenFd) (fd : Int) :
    s.insertConn t fd = (none, s) :=
  if_neg h

theorem connNum_insertConn (hlt : s.connNum t < maxOpenFd) (fd : Int) (u : ThreadId) :
    (s.insertConn t fd).2.connNum u = if u = t then s.connNum t + 1 else s.connNum u := by
  obtain ⟨-, -, hqueue⟩ := insertConn_of_lt hlt fd
  rw [connNum, hqueue, Function.update_apply]
  split_ifs <;> rfl

/-- A connection that does not fill its thread, nor leaves the only idle one with room for
    a single one. -/
theorem pool_insertConn_of_room (hroom : s.connNum t + 1 < maxOpenFd)
    (hidle : ∀ u, s.pool.idleList = [u] → u = t ∧ s.connNum t + 2 < maxOpenFd) (fd : Int) :
    (s.insertConn t fd).2.pool = s.pool := by
  rw [insertConn, if_pos (by omega), moveIfFull, connNum_link, if_pos rfl, if_neg (by omega),
    createIfNearlyFull, if_neg]
  · rfl
  · rintro ⟨u, hu, hnum⟩
    obtain ⟨rfl, hlt⟩ := hidle u hu
    rw [connNum_link, if_pos rfl] at hnum
    omega

/-- The only idle thread is left with room for a single one: a thread is created. -/
theorem pool_insertConn_of_nearlyFull (hnum : s.connNum t + 2 = maxOpenFd)
    (hidle : s.pool.idleList = [t]) (fd : Int) :
    (s.insertConn t fd).2.pool = (s.createMainIdleThread 1).pool := by
  have hmax : maxOpenFd = 2000 := rfl
  rw [insertConn, if_pos (by omega), moveIfFull, connNum_link, if_pos rfl, if_neg (by omega),
    createIfNearlyFull, if_pos]
  · rfl
  · refine ⟨t, hidle, ?_⟩
    rw [connNum_link, if_pos rfl]
    omega

/-- A connection that fills its thread, with more than one left in the others. -/
theorem pool_insertConn_of_fill (hfill : s.connNum t + 1 = maxOpenFd)
    (hidle : ∀ u, s.pool.idleList.erase t = [u] → u ≠ t ∧ s.connNum u + 1 ≠ maxOpenFd) (fd : Int) :
    (s.insertConn t fd).2.pool = s.pool.moveToBusyList t := by
  rw [insertConn, if_pos (by omega), moveIfFull, connNum_link, if_pos rfl, if_pos (by omega),
    createIfNearlyFull, if_neg]
  · rfl
  · rintro ⟨u, hu, hnum⟩
    obtain ⟨hut, hne⟩ := hidle u hu
    have hnum : (s.link t fd).connNum u = maxOpenFd - 1 := hnum
    rw [connNum_link, if_neg hut] at hnum
    omega

/-- A delivery that does not fill its thread takes no thread from the idle list. -/
theorem length_idleList_of_room (hlt : s.connNum t + 1 < maxOpenFd) (fd : Int) :
    s.pool.idleList.length ≤ (s.insertConn t fd).2.pool.idleList.length := by
  rw [insertConn, if_pos (by omega), moveIfFull, connNum_link, if_pos rfl, if_neg (by omega),
    createIfNearlyFull]
  split_ifs
  · rw [createMainIdleThread_eq, List.length_append]
    exact Nat.le_add_right _ _
  · exact le_rfl

/-- A delivery that fills its thread takes it from the idle list; a new thread takes
    its place when the only other one is about to be full. -/
theorem length_idleList_of_fill (h : s.Inv) (ht : t ∈ s.pool.threadList)
    (hfill : s.connNum t = maxOpenFd - 1) (fd : Int) :
    (s.insertConn t fd).2.pool.idleList.length =
      if s.pool.idleList.length = 2 ∧ ∀ u ∈ s.pool.idleList, u ≠ t → s.connNum u = maxOpenFd - 1 then 2
      else s.pool.idleList.length - 1 := by
  have hidle : t ∈ s.pool.idleList := h.toCore.mem_idleList ht (by omega)
  have herase := List.length_erase_of_mem hidle
  have hnodup := h.partition.nodup_idleList
  rw [insertConn, if_pos (by omega), moveIfFull, connNum_link, if_pos rfl, if_pos (by omega),
    createIfNearlyFull]
  have hmem : ∀ u, u ∈ s.pool.idleList.erase t ↔ u ≠ t ∧ u ∈ s.pool.idleList := fun u =>
    List.Nodup.mem_erase_iff hnodup
  have hnearly : NearlyFull { s.link t fd with pool := (s.link t fd).pool.moveToBusyList t } ↔
      s.pool.idleList.length = 2 ∧
        ∀ u ∈ s.pool.idleList, u ≠ t → s.connNum u = maxOpenFd - 1 := by
    -- the only other idle thread is the one that is left when `t` is gone
    constructor
    · rintro ⟨u, hu, hnum⟩
      have hu : s.pool.idleList.erase t = [u] := hu
      have hut : u ≠ t := ((hmem u).1 (hu ▸ List.mem_cons_self)).1
      have hnum : (s.link t fd).connNum u = maxOpenFd - 1 := hnum
      rw [connNum_link, if_neg hut] at hnum
      rw [hu, List.length_singleton] at herase
      refine ⟨by omega, fun v hv hvt => ?_⟩
      have : v ∈ s.pool.idleList.erase t := (hmem v).2 ⟨hvt, hv⟩
      rw [hu, List.mem_singleton] at this
      rwa [this]
    · rintro ⟨htwo, hall⟩
      rw [htwo] at herase
      obtain ⟨u, hu⟩ := List.length_eq_one_iff.1 herase
      obtain ⟨hut, hui⟩ := (hmem u).1 (hu ▸ List.mem_cons_self)
      refine ⟨u, hu, ?_⟩
      have : (s.link t fd).connNum u = maxOpenFd - 1 := by
        rw [connNum_link, if_neg hut]
        exact hall u hui hut
      exact this
  simp only [hnearly]
  split_ifs with htwo
  · -- the new thread takes the place of `t`
    rw [createMainIdleThread_eq]
    simp only [CThreadPool.moveToBusyList, List.length_append, List.length_singleton]
    have : (s.link t fd).pool.idleList = s.pool.idleList := rfl
    rw [this, herase, htwo.1]
  · exact herase

/-- With no busy thread, a delivery makes none busy and creates none if and only if it
    leaves room for another connection, two if `t` is the only idle thread. -/
theorem Inv.pool_insertConn_iff (h : s.Inv) (ht : t ∈ s.pool.threadList) (hlt : s.connNum t < maxOpenFd)
    (hbusy : s.pool.busyList = []) (fd : Int) :
    (s.insertConn t fd).2.pool.busyList = [] ∧
        (s.insertConn t fd).2.pool.threadList.length = s.pool.threadList.length ↔
      s.connNum t + 1 < maxOpenFd ∧ (s.pool.idleList = [t] → s.connNum t + 2 < maxOpenFd) := by
  have hidle : ∀ u, s.pool.idleList = [u] → u = t := fun u hu => by
    simpa [hu, eq_comm] using h.toCore.mem_idleList ht hlt
  by_cases hroom : s.connNum t + 1 < maxOpenFd
  · by_cases hnearly : s.pool.idleList = [t] ∧ s.connNum t + 2 = maxOpenFd
    · -- a thread is created
      rw [pool_insertConn_of_nearlyFull hnearly.2 hnearly.1, createMainIdleThread_eq,
        List.length_append]
      refine iff_of_false (fun hpool => Nat.succ_ne_self _ hpool.2) fun hlast => ?_
      have := hlast.2 hnearly.1
      omega
    · have hlast : s.pool.idleList = [t] → s.connNum t + 2 < maxOpenFd := fun hu => by
        have : s.connNum t + 2 ≠ maxOpenFd := fun he => hnearly ⟨hu, he⟩
        omega
      rw [pool_insertConn_of_room hroom fun u hu => ⟨hidle u hu, hlast (hidle u hu ▸ hu)⟩]
      exact iff_of_true ⟨hbusy, rfl⟩ ⟨hroom, hlast⟩
  · -- `t` becomes busy
    refine iff_of_false (fun hpool => ?_) fun hlast => hroom hlast.1
    have hmem : t ∈ (s.insertConn t fd).2.pool.busyList := by
      rw [MainPool.insertConn, if_pos hlt, moveIfFull, connNum_link, if_pos rfl,
        if_pos (by omega), createIfNearlyFull]
      split_ifs <;> exact List.mem_append_right _ (List.mem_singleton_self t)
    exact List.not_mem_nil (hpool.1 ▸ hmem)

/-! ## Runs -/

/-- A step: `InsertConn` on a thread, or `CheckIfInBusyList` for a connection of a thread. -/
inductive Action
  | insert (t : ThreadId) (fd : Int)
  | close (t : ThreadId) (c : Conn)

/-- A step of the pool, on a thread of the pool and a connection linked there. -/
def step (s : MainPool) : Action → Option MainPool
  | .insert t fd => if t ∈ s.pool.threadList then some (s.insertConn t fd).2 else none
  | .close t c =>
    if t ∈ s.pool.threadList ∧ c ∈ (s.connectQueue t).conns then some (s.checkIfInBusyList t c)
    else none

theorem Inv.step {s' : MainPool} {a : Action} (h : s.Inv) (hs : s.step a = some s') : s'.Inv := by
  cases a with
  | insert t fd =>
    rw [MainPool.step] at hs
    split_ifs at hs with ht
    cases hs
    exact h.insertConn ht fd
  | close t c =>
    rw [MainPool.step] at hs
    split_ifs at hs with hc
    cases hs
    exact h.checkIfInBusyList hc.1 hc.2

theorem init_inv {initnum : Nat} (hpos : 0 < initnum) : (init initnum).Inv := by
  have hthreads : (init initnum).pool.threadList = List.range' 0 initnum := by
    simp [init, CThreadPool.newThreads_eq]
  have hidle : (init initnum).pool.idleList = List.range' 0 initnum := by
    simp [init, CThreadPool.newThreads_eq]
  have hbusy : (init initnum).pool.busyList = [] := by
    simp [init, CThreadPool.newThreads_eq]
  have hzero : ∀ t, (init initnum).connNum t = 0 := fun _ => rfl
  refine ⟨⟨⟨?_, ?_, ?_, ?_⟩, fun t _ => rfl, fun t _ => ?_, fun t _ => ?_, fun t _ => rfl⟩, ?_, ?_⟩
  · rw [hidle, hbusy, hthreads, List.append_nil]
  · rw [hthreads]
    exact List.nodup_range'
  · intro t ht
    rw [hthreads] at ht
    have hcreated : (init initnum).pool.created = initnum := by
      simp [init, CThreadPool.newThreads_eq]
    rw [hcreated]
    simpa using (List.mem_range'_1.1 ht).2
  · rw [hidle, List.length_range']
    simp [init, CThreadPool.newThreads_eq]
  · rw [hzero]
    decide
  · rw [hzero, hbusy]
    exact iff_of_false (by simp) (by decide)
  · rw [hidle]
    simpa using hpos.ne'
  · rintro ⟨t, -, ht⟩
    rw [hzero] at ht
    exact absurd ht (by decide)

/-- Connections of the only idle thread, which leave room for two more. -/
theorem exec_inserts {n : Nat} (ht : t ∈ s.pool.threadList)
    (hroom : s.connNum t + n + 1 < maxOpenFd) (hidle : s.pool.idleList = [t]) (fd : Int) :
    ∃ s', exec step s (List.replicate n (.insert t fd)) = some s' ∧ s'.pool = s.pool ∧
      s'.connNum t = s.connNum t + n ∧ s'.conns = s.conns + n ∧
      ∀ u, u ≠ t → s'.connNum u = s.connNum u := by
  induction n generalizing s with
  | zero => exact ⟨s, rfl, rfl, (Int.add_zero _).symm, rfl, fun _ _ => rfl⟩
  | succ n ih =>
    have hlt : s.connNum t < maxOpenFd := by omega
    obtain ⟨-, hconns, -⟩ := insertConn_of_lt hlt fd
    have hnum := connNum_insertConn hlt fd
    have hpool : (s.insertConn t fd).2.pool = s.pool := by
      refine pool_insertConn_of_room (by omega) (fun u hu => ⟨?_, by omega⟩) fd
      simpa [hu] using hidle
    obtain ⟨s', hs', hpool', hnum', hconns', hother'⟩ := ih (s := (s.insertConn t fd).2)
      (hpool ▸ ht) (by rw [hnum, if_pos rfl]; omega) (hpool ▸ hidle)
    refine ⟨s', ?_, hpool'.trans hpool, ?_, ?_, fun u hu => ?_⟩
    · rw [List.replicate_succ, exec, step, if_pos ht]
      exact hs'
    · rw [hnum', hnum, if_pos rfl]
      omega
    · rw [hconns', hconns]
      omega
    · rw [hother' u hu, hnum, if_neg hu]

/-- The only thread is filled: a second one was created before. -/
theorem exec_fill :
    ∃ s, exec step (init 1) (List.replicate maxOpenFd (.insert 0 5)) = some s ∧
      s.pool.threadList = [0, 1] ∧ s.connNum 0 = maxOpenFd ∧
      (⟨maxOpenFd - 1, 5⟩ : Conn) ∈ (s.connectQueue 0).conns := by
  have hmax : maxOpenFd = 2000 := rfl
  have hzero : ∀ u, (init 1).connNum u = 0 := fun _ => rfl
  obtain ⟨s₁, hs₁, hpool₁, hnum₁, hconns₁, hother₁⟩ :=
    exec_inserts (s := init 1) (t := 0) (n := maxOpenFd - 2) (by decide)
      (by rw [hzero]; omega) rfl 5
  rw [hzero] at hnum₁
  have hthreads₁ : s₁.pool.threadList = [0] := by
    rw [hpool₁]
    rfl
  -- the thread `1` is created
  have hlt₁ : s₁.connNum 0 < maxOpenFd := by omega
  have hpool₂ := pool_insertConn_of_nearlyFull (s := s₁) (t := 0) (by omega) (by rw [hpool₁]; rfl) 5
  obtain ⟨-, hconns₂, -⟩ := insertConn_of_lt hlt₁ 5
  have hnum₂ := connNum_insertConn hlt₁ 5
  set s₂ := (s₁.insertConn 0 5).2
  rw [createMainIdleThread_eq, hpool₁] at hpool₂
  have hthreads₂ : s₂.pool.threadList = [0, 1] := by
    rw [hpool₂]
    rfl
  have hidle₂ : s₂.pool.idleList = [0, 1] := by
    rw [hpool₂]
    rfl
  have hfull₂ : s₂.connNum 0 + 1 = maxOpenFd := by
    rw [hnum₂, if_pos rfl]
    omega
  -- the thread `0` is full
  have hlt₂ : s₂.connNum 0 < maxOpenFd := by omega
  have hpool₃ := pool_insertConn_of_fill hfull₂ (fun u hu => by
    rw [hidle₂] at hu
    obtain rfl : 1 = u := by simpa using hu
    rw [hnum₂, if_neg (by decide), hother₁ 1 (by decide), hzero]
    exact ⟨by decide, by decide⟩) 5
  obtain ⟨-, -, hqueue₃⟩ := insertConn_of_lt hlt₂ 5
  refine ⟨(s₂.insertConn 0 5).2, ?_, ?_, ?_, ?_⟩
  · have hsplit : maxOpenFd = maxOpenFd - 2 + 2 := by omega
    rw [hsplit, ← List.replicate_append_replicate]
    refine exec_trans hs₁ ?_
    have hstep₁ : s₁.step (.insert 0 5) = some s₂ := by
      rw [step, if_pos (by rw [hthreads₁]; decide)]
    have hstep₂ : s₂.step (.insert 0 5) = some (s₂.insertConn 0 5).2 := by
      rw [step, if_pos (by rw [hthreads₂]; decide)]
    exact (exec_cons hstep₁ _).trans (exec_cons hstep₂ _)
  · rw [hpool₃]
    exact hthreads₂
  · rw [connNum_insertConn hlt₂, if_pos rfl, hfull₂]
  · have hconns : s₂.conns = maxOpenFd - 1 := by
      rw [hconns₂, hconns₁]
      rfl
    rw [hqueue₃, Function.update_self, hconns]
    exact List.mem_cons_self

/-- In every state the pool can reach, each thread is in exactly one of the lists,
    once, busy if and only if its queue is full, `m_AvailNum` counts the idle ones,
    and there is an idle one. -/
theorem threads_partition {initnum : Nat} (hpos : 0 < initnum) {as : List Action} {s : MainPool}
    (hs : exec step (init initnum) as = some s) :
    s.pool.threadList.Nodup ∧
    (∀ t ∈ s.pool.threadList,
      s.pool.idleList.count t + s.pool.busyList.count t = 1 ∧
      (t ∈ s.pool.busyList ↔ s.connNum t = maxOpenFd)) ∧
    (∀ t, t ∈ s.pool.idleList ∨ t ∈ s.pool.busyList → t ∈ s.pool.threadList) ∧
    s.pool.availNum = s.pool.idleList.length ∧ s.pool.idleList ≠ [] := by
  have h : s.Inv := exec_inv (I := Inv) (fun _ _ _ => Inv.step) (init_inv hpos) hs
  exact ⟨h.partition.nodup, fun t ht => ⟨h.partition.count ht, h.busy_iff t ht⟩,
    fun t => h.partition.mem_iff.2, h.partition.availNum, h.idleList_ne_nil⟩

/-- A pool of one thread: the connection before the last that it has room for makes a second
    thread, and the last makes it busy. -/
theorem threads_partition_fill :
    ∃ s, exec step (init 1) (List.replicate maxOpenFd (.insert 0 5)) = some s ∧
      s.pool.threadList = [0, 1] ∧ 0 ∈ s.pool.busyList ∧
      s.pool.idleList.count 0 + s.pool.busyList.count 0 = 1 ∧ s.pool.idleList ≠ [] := by
  obtain ⟨s, hs, hthreads, hfull, -⟩ := exec_fill
  obtain ⟨-, hpart, -, -, hne⟩ := threads_partition (by decide) hs
  obtain ⟨hcount, hbusy⟩ := hpart 0 (by rw [hthreads]; decide)
  exact ⟨s, hs, hthreads, hbusy.2 hfull, hcount, hne⟩

end MainPool

end VsHttpServer
