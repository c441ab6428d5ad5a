import VsHttpServer.Pool.Main
import Mathlib.Algebra.Order.BigOperators.Group.Finset

/-!
# How many event-loop threads there are

`InsertConn` creates a thread when the only idle one is one connection short of full,
the others being full. No thread is ever removed, so that their number depends on the
largest number of connections there have been, and on nothing else: not on the thread
that each was delivered to, nor on the order in which they were closed. The calls are
complete steps, as in `MainPool`.

* `Inv.live_add_two_le`: the threads have room for two more connections;
* `NearlyFull.live_eq`: there is room for one when a thread is created;
* `threads_eq`: the number of threads, from the peak of the connections.
-/

namespace VsHttpServer

open Transition

namespace MainPool

/-- The number of connections in the queue of a thread. -/
def load (s : MainPool) (t : ThreadId) : Nat := (s.connectQueue t).conns.length

/-- The number of connections in the queues of the pool. -/
def live (s : MainPool) : Nat := ∑ t ∈ s.pool.threadList.toFinset, s.load t

variable {s s' : MainPool} {t : ThreadId}

theorem Core.load_le (h : s.Core) (ht : t ∈ s.pool.threadList) : s.load t ≤ maxOpenFd := by
  have hle := h.connNum_le t ht
  rw [h.connNum_eq t ht] at hle
  exact_mod_cast hle

theorem Core.load_eq_iff (h : s.Core) (ht : t ∈ s.pool.threadList) (n : Nat) :
    s.connNum t = n ↔ s.load t = n := by
  rw [h.connNum_eq t ht]
  exact Int.natCast_inj

/-- The connections of the other threads. -/
theorem Core.sum_le (h : s.Core) (ts : Finset ThreadId) (hts : ∀ t ∈ ts, t ∈ s.pool.threadList) :
    ∑ t ∈ ts, s.load t ≤ maxOpenFd * ts.card := by
  rw [Nat.mul_comm]
  exact Finset.sum_le_card_nsmul ts s.load maxOpenFd fun t ht => h.load_le (hts t ht)

theorem Core.card (h : s.Core) : s.pool.threadList.toFinset.card = s.pool.threadList.length :=
  List.toFinset_card_of_nodup h.partition.nodup

theorem Core.live_eq (h : s.Core) (ht : t ∈ s.pool.threadList) :
    s.live = s.load t + ∑ u ∈ s.pool.threadList.toFinset.erase t, s.load u ∧
      (s.pool.threadList.toFinset.erase t).card + 1 = s.pool.threadList.length := by
  have hmem := List.mem_toFinset.2 ht
  refine ⟨(Finset.add_sum_erase _ _ hmem).symm, ?_⟩
  rw [Finset.card_erase_add_one hmem, h.card]

/-- The threads have room for two more connections. -/
theorem Inv.live_add_two_le (h : s.Inv) : s.live + 2 ≤ maxOpenFd * s.pool.threadList.length := by
  have hmax : maxOpenFd = 2000 := rfl
  obtain ⟨t, ht⟩ := List.exists_mem_of_ne_nil _ h.idleList_ne_nil
  have hidle : ∀ u ∈ s.pool.idleList, u ∈ s.pool.threadList ∧ s.load u < maxOpenFd := by
    intro u hu
    have hmem := h.partition.mem_iff.2 (.inl hu)
    refine ⟨hmem, lt_of_le_of_ne (h.load_le hmem) fun hfull => ?_⟩
    exact h.partition.disjoint hu
      ((h.busy_iff u hmem).2 ((h.toCore.load_eq_iff hmem _).2 hfull))
  obtain ⟨hmem, hroom⟩ := hidle t ht
  obtain ⟨hlive, hcard⟩ := h.toCore.live_eq hmem
  have hothers : ∀ u ∈ s.pool.threadList.toFinset.erase t, u ∈ s.pool.threadList := fun u hu =>
    List.mem_toFinset.1 (Finset.mem_of_mem_erase hu)
  by_cases hlone : s.pool.idleList = [t]
  · -- the only idle thread is not nearly full
    have hnot : s.load t ≠ maxOpenFd - 1 := fun hnum =>
      h.not_nearlyFull ⟨t, hlone, by
        rw [(h.toCore.load_eq_iff hmem (maxOpenFd - 1)).2 hnum]
        rfl⟩
    have hsum := h.toCore.sum_le _ hothers
    rw [← hcard, hlive, Nat.mul_succ]
    omega
  · -- there is another idle thread
    obtain ⟨u, hu, hut⟩ : ∃ u ∈ s.pool.idleList, u ≠ t := by
      by_contra hnone
      push Not at hnone
      have hrep := List.eq_replicate_of_mem hnone
      have hle := List.nodup_replicate.1 (hrep ▸ h.partition.nodup_idleList)
      have hpos := List.length_pos_of_mem ht
      rw [show s.pool.idleList.length = 1 by omega] at hrep
      exact hlone hrep
    obtain ⟨hmem', hroom'⟩ := hidle u hu
    have huerase := Finset.mem_erase.2 ⟨hut, List.mem_toFinset.2 hmem'⟩
    have hsum := h.toCore.sum_le ((s.pool.threadList.toFinset.erase t).erase u) fun v hv =>
      hothers v (Finset.mem_of_mem_erase hv)
    have hsplit := Finset.add_sum_erase _ s.load huerase
    have hcard' := Finset.card_erase_add_one huerase
    rw [← hcard, hlive, ← hsplit, ← hcard', Nat.mul_succ, Nat.mul_succ]
    omega

/-- When a thread is created, the others have room for one more connection. -/
theorem NearlyFull.live_eq (hn : s.NearlyFull) (h : s.Core) :
    s.live + 1 = maxOpenFd * s.pool.threadList.length := by
  obtain ⟨t, hidle, hnum⟩ := hn
  have hmem := h.partition.mem_iff.2 (.inl (hidle ▸ List.mem_singleton_self t))
  have hload : s.load t = maxOpenFd - 1 :=
    (h.load_eq_iff hmem (maxOpenFd - 1)).1 (by rw [hnum]; rfl)
  obtain ⟨hlive, hcard⟩ := h.live_eq hmem
  -- the others are busy, and so full
  have hfull : ∀ u ∈ s.pool.threadList.toFinset.erase t, s.load u = maxOpenFd := by
    intro u hu
    obtain ⟨hut, hu⟩ := Finset.mem_erase.1 hu
    have hu := List.mem_toFinset.1 hu
    have hbusy : u ∈ s.pool.busyList :=
      (h.partition.mem_iff.1 hu).resolve_left fun hi => hut (List.mem_singleton.1 (hidle ▸ hi))
    exact (h.load_eq_iff hu _).1 ((h.busy_iff u hu).1 hbusy)
  have hmax : maxOpenFd = 2000 := rfl
  rw [hlive, Finset.sum_congr rfl hfull, Finset.sum_const, hload, ← hcard, Nat.nsmul_eq_mul,
    Nat.mul_succ, Nat.mul_comm]
  omega

/-! ## What a step does -/

/-- A new thread has no connections. -/
theorem live_createMainIdleThread (h : s.Core) : (s.createMainIdleThread 1).live = s.live ∧
    (s.createMainIdleThread 1).pool.threadList.length = s.pool.threadList.length + 1 := by
  have hfresh : s.pool.created ∉ s.pool.threadList := fun hc => (h.partition.lt_created _ hc).ne rfl
  have hnew : s.load s.pool.created = 0 := by
    rw [load, h.empty _ hfresh]
    rfl
  rw [live, createMainIdleThread_eq]
  simp only [List.length_append, List.length_singleton, and_true]
  rw [List.toFinset_append, Finset.sum_union]
  · have hzero : ∑ u ∈ [s.pool.created].toFinset, s.load u = 0 := by
      rw [List.toFinset_cons, List.toFinset_nil, insert_empty_eq, Finset.sum_singleton, hnew]
    exact (congrArg (s.live + ·) hzero).trans (Nat.add_zero _)
  · rw [Finset.disjoint_left]
    intro u hu hu'
    rw [List.mem_toFinset] at hu hu'
    exact hfresh (List.mem_singleton.1 hu' ▸ hu)

/-- A thread is created when there are as many connections as the threads can have, but for
    one; otherwise their number stays. -/
theorem Inv.step_threads {a : Action} (h : s.Inv) (hs : s.step a = some s') :
    s'.pool.threadList.length = s.pool.threadList.length ∨
      s'.pool.threadList.length = s.pool.threadList.length + 1 ∧
        s'.live + 1 = maxOpenFd * s.pool.threadList.length := by
  cases a with
  | insert t fd =>
    rw [MainPool.step] at hs
    split_ifs at hs with ht
    cases hs
    rw [MainPool.insertConn]
    split_ifs with hlt
    · have hcore := h.toCore.link ht hlt fd
      have hthreads : ((s.link t fd).moveIfFull t).pool.threadList = s.pool.threadList :=
        moveIfFull_threadList
      simp only [createIfNearlyFull]
      split_ifs with hn
      · obtain ⟨hlive, hlen⟩ := live_createMainIdleThread hcore
        have hfull := hn.live_eq hcore
        rw [hthreads] at hlen hfull
        exact .inr ⟨hlen, hlive ▸ hfull⟩
      · exact .inl (by rw [hthreads])
    · exact .inl rfl
  | close t c =>
    rw [MainPool.step] at hs
    split_ifs at hs with hc
    cases hs
    exact .inl (by rw [threadList_checkIfInBusyList])

/-! ## Runs -/

/-- The number of threads that `n` connections need, where `initnum` are made at the start. -/
def threadsFor (initnum n : Nat) : Nat := max initnum ((n + 1) / maxOpenFd + 1)

/-- The threads are still enough. -/
theorem threadsFor_max_of_lt {initnum n p k : Nat} (hn : n + 2 ≤ maxOpenFd * k)
    (hk : k = threadsFor initnum p) : k = threadsFor initnum (max p n) := by
  rw [threadsFor, maxOpenFd] at *
  omega

/-- The threads were full, but for one connection. -/
theorem threadsFor_max_of_eq {initnum n p k : Nat} (hn : n + 1 = maxOpenFd * k)
    (hk : k = threadsFor initnum p) : k + 1 = threadsFor initnum (max p n) := by
  rw [threadsFor, maxOpenFd] at *
  omega

/-- In every state the pool can reach, the number of its threads is that of the largest
    number of connections it has had so far. -/
theorem threads_eq {initnum : Nat} (hpos : 0 < initnum) {as : List Action}
    (hs : exec step (init initnum) as = some s) :
    s.pool.threadList.length = threadsFor initnum (peak step live (init initnum) as) := by
  refine (exec_peak (μ := live)
    (I := fun s p => s.Inv ∧ s.pool.threadList.length = threadsFor initnum p)
    (fun s p a s' h hs => ⟨h.1.step hs, ?_⟩) ⟨init_inv hpos, ?_⟩ hs).2
  · rcases h.1.step_threads hs with hlen | ⟨hlen, hlive⟩
    · have hroom := (h.1.step hs).live_add_two_le
      rw [hlen] at hroom ⊢
      exact threadsFor_max_of_lt hroom h.2
    · rw [hlen]
      exact threadsFor_max_of_eq hlive h.2
  · have hlen : (init initnum).pool.threadList.length = initnum := by
      simp [init, CThreadPool.newThreads_eq]
    have hlive : (init initnum).live = 0 := Finset.sum_eq_zero fun _ _ => rfl
    rw [hlen, hlive, threadsFor, maxOpenFd]
    omega

/-- A pool of one thread, which is filled and has a connection closed again: the second thread
    that was made stays. -/
theorem threads_eq_fill :
    ∃ s, exec step (init 1) (List.replicate maxOpenFd (.insert 0 5) ++
        [.close 0 ⟨maxOpenFd - 1, 5⟩]) = some s ∧
      s.pool.threadList = [0, 1] ∧ s.pool.threadList.length =
        threadsFor 1 (peak step live (init 1) (List.replicate maxOpenFd (.insert 0 5) ++
          [.close 0 ⟨maxOpenFd - 1, 5⟩])) := by
  obtain ⟨s, hs, hthreads, -, hmem⟩ := exec_fill
  have hclose : s.step (.close 0 ⟨maxOpenFd - 1, 5⟩) =
      some (s.checkIfInBusyList 0 ⟨maxOpenFd - 1, 5⟩) := by
    rw [step, if_pos ⟨by rw [hthreads]; decide, hmem⟩]
  have hrun := exec_trans hs ((exec_cons hclose []).trans rfl)
  exact ⟨_, hrun, by rw [threadList_checkIfInBusyList, hthreads], threads_eq (by decide) hrun⟩

end MainPool

end VsHttpServer
