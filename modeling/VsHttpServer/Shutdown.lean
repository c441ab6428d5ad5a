import VsHttpServer.Server
import Mathlib.Data.List.Perm.Subperm

/-!
# The end of the event loops

`StopRun` writes `EXIT_CODE` to the pipes of the first `m_ThreadCount` threads of
the idle list. `m_ThreadCount` is the number of threads the server began with, and
is never changed.

* `stopRun_eq_some`: what it writes, and when it stays in the list;
* `ends_of_exit`: a message that is in the pipe of a thread is there until its loop
  ends;
* `stopsAll_iff`: in a state that can be reached, every loop is told to end if and
  only if no thread is busy and none was created; so it is in all the states of a run
  if and only if no delivery fills a thread, or leaves the only idle one about to be
  full.
-/

namespace VsHttpServer

open Transition
open scoped List

namespace Server

variable {s s' : Server} {n : Nat}

/-- `EXIT_CODE`, written to the pipe of `t`. -/
def writeExit (s : Server) (t : ThreadId) : Server :=
  { s with pipe := Function.update s.pipe t (s.pipe t ++ [exitCode]) }

/-- The loop of `StopRun`, for `n` indices from `i` on; `none` where it takes an
    element beyond the end of the idle list. -/
def stopLoop : Nat → Nat → Server → Option Server
  | _, 0, s => some s
  | i, n + 1, s => s.main.pool.idleList[i]?.bind fun t => stopLoop (i + 1) n (s.writeExit t)

/-- `StopRun`, with the value of `m_ThreadCount`. The end of the listener's own loop
    is not in the state. -/
def stopRun (threadCount : Nat) (s : Server) : Option Server := stopLoop 0 threadCount s

/-! ## What is written -/

theorem foldl_writeExit (l : List ThreadId) (s : Server) :
    l.foldl writeExit s =
      { s with pipe := fun t => s.pipe t ++ List.replicate (l.count t) exitCode } := by
  induction l generalizing s with
  | nil => simp
  | cons u l ih =>
    rw [List.foldl_cons, ih, writeExit]
    congr 1
    funext t
    simp only [Function.update_apply, List.count_cons, beq_iff_eq]
    split_ifs with htu hut hut
    · rw [htu, Nat.add_comm, List.replicate_add, List.replicate_one, List.append_assoc]
    · exact absurd htu.symm hut
    · exact absurd hut.symm htu
    · rfl

theorem stopLoop_eq_some {i : Nat} (hi : i ≤ s.main.pool.idleList.length) :
    stopLoop i n s = some s' ↔
      i + n ≤ s.main.pool.idleList.length ∧
        s' = ((s.main.pool.idleList.drop i).take n).foldl writeExit s := by
  induction n generalizing s i with
  | zero => simp [stopLoop, hi, eq_comm]
  | succ n ih =>
    rw [stopLoop]
    rcases hi.lt_or_eq with hlt | heq
    · rw [List.getElem?_eq_getElem hlt, Option.bind_some, ih (s := s.writeExit _) (Nat.succ_le_of_lt hlt),
        List.drop_eq_getElem_cons hlt, List.take_succ_cons, List.foldl_cons, Nat.succ_add_eq_add_succ]
      rfl
    · -- the index is past the end
      rw [List.getElem?_eq_none heq.ge, Option.bind_none]
      refine iff_of_false (by simp) fun h => ?_
      omega

/-- `StopRun` does not leave the idle list if it is long enough, and writes to its
    first threads. -/
theorem stopRun_eq_some :
    s.stopRun n = some s' ↔
      n ≤ s.main.pool.idleList.length ∧
        s' = { s with
          pipe := fun t =>
            s.pipe t ++ List.replicate ((s.main.pool.idleList.take n).count t) exitCode } := by
  rw [stopRun, stopLoop_eq_some (Nat.zero_le _), Nat.zero_add, List.drop_zero, foldl_writeExit]

/-! ## What becomes of the message -/

/-- The loop of the thread has ended, or its pipe holds the message to end it. -/
def Ends (s : Server) (t : ThreadId) : Prop := s.stopped t = true ∨ exitCode ∈ s.pipe t

theorem Ends.threadProcess {t u : ThreadId} (h : s.Ends t) (hs : s.threadProcess u = some s') :
    s'.Ends t := by
  rw [Server.threadProcess] at hs
  rcases hp : s.pipe u with - | ⟨fd, rest⟩
  · rw [hp] at hs
    cases hs
  · rw [hp] at hs
    -- the message is the one that is read, or is still behind it
    have hrest : s.stopped t = true ∨ (t = u ∧ fd = exitCode) ∨
        exitCode ∈ Function.update s.pipe u rest t := by
      refine h.imp_right fun hmem => ?_
      rw [Function.update_apply]
      split_ifs with htu
      · rw [htu, hp, List.mem_cons] at hmem
        exact hmem.imp (fun he => ⟨htu, he.symm⟩) id
      · exact .inr hmem
    simp only at hs
    split_ifs at hs with hfd
    · cases hs
      simp only [Ends, Function.update_apply] at hrest ⊢
      split_ifs with htu
      · exact .inl rfl
      · rw [if_neg htu] at hrest
        exact hrest.imp_right fun hm => hm.resolve_left fun he => htu he.1
    · have hkept : s.stopped t = true ∨ exitCode ∈ Function.update s.pipe u rest t :=
        hrest.imp_right fun hm => hm.resolve_left fun he => hfd he.2
      rcases hi : s.main.insertConn u fd with ⟨_ | c, m⟩
      · rw [hi] at hs
        cases hs
        exact hkept
      · rw [hi] at hs
        cases hs
        exact hkept

theorem Ends.step {t : ThreadId} {a : Action} (h : s.Ends t) (hs : s.step a = some s') : s'.Ends t := by
  rw [Server.step.eq_def] at hs
  split_ifs at hs
  cases a with
  | accept fd =>
    obtain ⟨u, -, rfl⟩ := listenerEventCb_eq_some hs
    refine h.imp_right fun hmem => ?_
    simp only [Function.update_apply]
    split_ifs with htu
    · exact List.mem_append_left _ (htu ▸ hmem)
    · exact hmem
  | deliver u =>
    simp only at hs
    split_ifs at hs
    exact h.threadProcess hs
  | close u c =>
    simp only at hs
    split_ifs at hs
    cases hs
    exact h

/-- Whatever comes after it, the message is in the pipe until the loop of the thread
    ends. -/
theorem ends_of_exit {t : ThreadId} (h : exitCode ∈ s.pipe t) {as : List Action}
    (hs : exec Server.step s as = some s') : s'.Ends t :=
  exec_inv (I := fun s => s.Ends t) (fun _ _ _ h hs => h.step hs) (.inr h) hs

/-! ## Every loop -/

/-- `StopRun` takes only elements of the idle list, and writes `EXIT_CODE` once to the
    pipe of every thread of the pool, which ends its loop. -/
def StopsAll (threadCount : Nat) (s : Server) : Prop :=
  ∃ s', s.stopRun threadCount = some s' ∧
    ∀ t ∈ s.main.pool.threadList, s'.pipe t = s.pipe t ++ [exitCode] ∧
      ∀ as s'', exec step s' as = some s'' → s''.Ends t

/-- For lists that agree: the first `n` idle threads are all the threads. -/
theorem Inv.stopsAll_iff_lists (h : s.Inv) :
    s.StopsAll n ↔ s.main.pool.busyList = [] ∧ s.main.pool.threadList.length = n := by
  have hpart := h.main.partition
  have hlen := hpart.length
  constructor
  · rintro ⟨s', hstop, hall⟩
    obtain ⟨hn, rfl⟩ := stopRun_eq_some.1 hstop
    have hmem : ∀ t ∈ s.main.pool.threadList, t ∈ s.main.pool.idleList.take n := by
      intro t ht
      have hone := (List.append_cancel_left (hall t ht).1 : _ = [exitCode])
      rw [← List.replicate_one, List.replicate_inj] at hone
      exact List.count_pos_iff.1 (by omega)
    have hbusy : s.main.pool.busyList = [] := by
      refine List.eq_nil_iff_forall_not_mem.2 fun t ht => ?_
      have hidle := List.mem_of_mem_take (hmem t (hpart.mem_iff.2 (.inr ht)))
      exact hpart.disjoint hidle ht
    refine ⟨hbusy, le_antisymm ?_ ?_⟩
    · -- the threads are among `n` of them
      have hle := (hpart.nodup.subperm hmem).length_le
      rw [List.length_take] at hle
      omega
    · omega
  · rintro ⟨hbusy, hn⟩
    rw [hbusy, List.length_nil, Nat.add_zero] at hlen
    have htake : s.main.pool.idleList.take n = s.main.pool.idleList :=
      List.take_of_length_le (by omega)
    refine ⟨_, stopRun_eq_some.2 ⟨by omega, rfl⟩, fun t ht => ?_⟩
    have hidle : t ∈ s.main.pool.idleList := by
      have := hpart.mem_iff.1 ht
      rwa [hbusy, or_iff_left List.not_mem_nil] at this
    have hpipe : s.pipe t ++
        List.replicate ((s.main.pool.idleList.take n).count t) exitCode = s.pipe t ++ [exitCode] := by
      rw [htake, List.count_eq_one_of_mem hpart.nodup_idleList hidle, List.replicate_one]
    exact ⟨hpipe, fun as s'' hs => ends_of_exit (by simp [hpipe]) hs⟩

/-! ## Runs -/

/-- A delivery leaves its thread room for one connection more; for two, when that is
    the only idle thread. -/
def LeavesRoom (s : Server) (a : Action) : Prop :=
  ∀ t, a = .deliver t → s.main.connNum t + 1 < maxOpenFd ∧
    (s.main.pool.idleList = [t] → s.main.connNum t + 2 < maxOpenFd)

/-- A close changes no list when no thread is busy. -/
theorem pool_closeConn {t : ThreadId} {c : Conn} (hbusy : s.main.pool.busyList = []) :
    (s.closeConn t c).main.pool = s.main.pool := by
  rw [closeConn, MainPool.checkIfInBusyList, hbusy]
  simp

/-- With no busy thread, a step leaves the pool as it is if and only if it leaves room. -/
theorem Inv.leavesRoom_iff (h : s.Inv) (hbusy : s.main.pool.busyList = []) {a : Action}
    (hs : s.step a = some s') :
    s.LeavesRoom a ↔ s'.main.pool.busyList = [] ∧
      s'.main.pool.threadList.length = s.main.pool.threadList.length := by
  obtain ⟨-, hcases⟩ := step_cases h.noExit hs
  rcases hcases with ⟨fd, t, rfl, -, rfl⟩ | ⟨t, fd, rest, rfl, ht, hp, rfl⟩ | ⟨t, c, rfl, ht, hc, rfl⟩
  · exact iff_of_true (by simp [LeavesRoom]) ⟨hbusy, rfl⟩
  · have hroom : s.main.connNum t < maxOpenFd := by
      have hne := (h.main.busy_iff t ht).not.1 (by simp [hbusy])
      have hle := h.main.connNum_le t ht
      omega
    -- no thread is full: the connection is inserted
    rw [delivered, if_pos hroom]
    simp only
    rw [h.main.pool_insertConn_iff ht hroom hbusy fd]
    constructor
    · exact fun hok => hok t rfl
    · rintro hok u hu
      cases hu
      exact hok
  · rw [pool_closeConn hbusy]
    exact iff_of_true (by simp [LeavesRoom]) ⟨hbusy, rfl⟩

theorem init_pool (n : Nat) :
    (init n).main.pool.busyList = [] ∧ (init n).main.pool.threadList.length = n := by
  simp [init, MainPool.init, CThreadPool.newThreads_eq]

/-- In every state that can be reached, `StopRun` tells every loop to end if and only if
    no thread is busy and there are as many as at the start; it does in all the states of
    a run if and only if every delivery leaves room. -/
theorem stopsAll_iff (hpos : 0 < n) :
    (∀ as s, exec step (init n) as = some s →
      (s.StopsAll n ↔ s.main.pool.busyList = [] ∧ s.main.pool.threadList.length = n)) ∧
    ∀ as, Along step LeavesRoom (init n) as ↔ Throughout step (StopsAll n) (init n) as := by
  refine ⟨fun as s hs => ?_, fun as => ?_⟩
  · exact (inv_of_exec hpos hs).stopsAll_iff_lists
  · refine along_iff_throughout
      (I := fun s => s.Inv ∧ s.main.pool.busyList = [] ∧ s.main.pool.threadList.length = n)
      (fun s a s' hI hok hs => ?_) (fun s hI => hI.1.stopsAll_iff_lists.2 hI.2)
      (fun s a s' hI hok hs hall => ?_) ⟨init_inv hpos, init_pool n⟩
    · obtain ⟨hbusy, hlen⟩ := (hI.1.leavesRoom_iff hI.2.1 hs).1 hok
      exact ⟨hI.1.step hs, hbusy, hlen.trans hI.2.2⟩
    · obtain ⟨hbusy, hlen⟩ := (hI.1.step hs).stopsAll_iff_lists.1 hall
      exact hok ((hI.1.leavesRoom_iff hI.2.1 hs).2 ⟨hbusy, hlen.trans hI.2.2.symm⟩)

/-- Two threads, with a connection delivered to the first. -/
theorem stopsAll_iff_two :
    Throughout step (StopsAll 2) (init 2) [.accept 5, .deliver 0] := by
  refine ((stopsAll_iff (by decide)).2 _).1 fun s₁ h₁ => ⟨nofun, fun s₂ _ => ⟨?_, trivial⟩⟩
  rintro t ⟨⟩
  cases h₁
  decide

/-- The first of two threads is full: the idle list is shorter than `m_ThreadCount`. -/
theorem not_stopsAll :
    ∃ s, exec step (init 2) (fillFirst (maxOpenFd - 1)) = some s ∧ s.stopRun 2 = none ∧
      ¬s.StopsAll 2 := by
  obtain ⟨s, hs, -, -, -, hidle, -⟩ := exec_fillFirst le_rfl
  have hnone : s.stopRun 2 = none := by
    refine Option.eq_none_iff_forall_ne_some.2 fun s' hstop => ?_
    have hle := (stopRun_eq_some.1 hstop).1
    rw [hidle] at hle
    exact absurd hle (by decide)
  refine ⟨s, hs, hnone, ?_⟩
  rintro ⟨s', hstop, -⟩
  rw [hnone] at hstop
  cases hstop

end Server

end VsHttpServer
