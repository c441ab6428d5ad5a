import VsHttpServer.Dispatch

/-!
# One event loop

What the workers are exposed to depends on how many event-loop threads call
`CThreadPool::Run`: each is given a worker, and takes it afterwards. With one of them, a
worker that is idle stays so until it is taken.

* `run_spec`, `work_spec`: what one section does with the lists of the pool;
* `Bounded`: the threads, and those that the loop has decided to create;
* `single_allKept`: with one event loop, no worker is taken while it is busy, so that no
  call is replaced or lost after it has returned with a worker.
-/

namespace VsHttpServer

open Transition

/-- The threads that a call of `Run` has still to create. -/
def LoopPhase.toCreate : LoopPhase → Nat
  | .creating _ n => n
  | .atRest | .called _ | .maxWait _ | .growing _ | .fetching _ | .holding _ _ => 0

namespace CThreadPool

variable {p : CThreadPool}

/-- The growth step asks for at most `m_InitNum` threads, and for none beyond `m_MaxNum`, even
    if there are more threads than these already. -/
theorem growNum_le (hmax : p.maxNum < 2 ^ 30) (hinit : p.initNum < 2 ^ 30)
    (hlow : p.availLow ≤ p.initNum) (hall : p.threadList.length < 2 ^ 31) :
    p.growNum ≤ p.initNum ∧ (p.growNum = 0 ∨ p.threadList.length + p.growNum ≤ p.maxNum) := by
  have hget : p.getAllNum = p.threadList.length := by
    rw [getAllNum, CString.toInt32]
    omega
  rw [growNum]
  split_ifs with hidle
  · have hsum : CString.toUInt32 (p.getAllNum + p.initNum) = p.threadList.length + p.initNum := by
      rw [CString.toUInt32, hget]
      omega
    have htarget :
        CString.toSizeT (CString.toUInt32 (p.getAllNum + p.initNum) - p.idleList.length) =
          p.threadList.length + p.initNum - p.idleList.length := by
      rw [hsum, CString.toSizeT]
      omega
    have hmissing : CString.toInt32 (CString.toSizeT (p.initNum - p.idleList.length)) =
        p.initNum - p.idleList.length := by
      rw [CString.toSizeT, CString.toInt32]
      omega
    have hroom : CString.toInt32 (CString.toUInt32 (p.maxNum - p.getAllNum)) =
        p.maxNum - p.threadList.length := by
      rw [CString.toUInt32, CString.toInt32, hget]
      omega
    rw [growth, htarget, hmissing, hroom]
    split_ifs with hlt
    · omega
    · omega
  · exact ⟨Nat.zero_le _, .inl rfl⟩

end CThreadPool

namespace Dispatch

variable {owner : ConnId → LoopId} {s s' : Dispatch} {d : LoopId} {t : ThreadId}

/-! ## The lists of the pool -/

/-- What a section of `Run` does: it moves the loop, creates a thread, or gives the worker
    its job. -/
theorem run_spec (h : s.run d = some s') :
    (∃ l, s' = s.setLoop d l ∧
        (∀ j u, l = .holding j u → s.loop d = .fetching j ∧ u ∈ s.pool.idleList) ∧
        (l.toCreate = 0 ∨ (s.loop d).toCreate = 0 ∧ l.toCreate = s.pool.growNum)) ∨
      (∃ j n, s.loop d = .creating j (n + 1) ∧
        s' = { s with pool := CThreadPool.createLoop 1 s.pool }.setLoop d (.creating j n)) ∨
      ∃ j u, s.loop d = .holding j u ∧ s.worker u = .blocked ∧ s' = s.assign d j u := by
  rw [run] at h
  split at h
  case h_1 => cases h
  case h_2 j hl =>
    cases h
    refine .inl ⟨_, rfl, fun k u he => ?_, .inl ?_⟩
    · split_ifs at he
    · split_ifs <;> rfl
  case h_3 j hl =>
    cases h
    exact .inl ⟨_, rfl, fun k u he => (by cases he), .inl rfl⟩
  case h_4 j hl =>
    cases h
    exact .inl ⟨_, rfl, fun k u he => (by cases he), .inr ⟨by rw [hl]; rfl, rfl⟩⟩
  case h_5 j n hl =>
    cases h
    exact .inr (.inl ⟨j, n, hl, rfl⟩)
  case h_6 j hl =>
    split_ifs at h
    cases h
    exact .inl ⟨_, rfl, fun k u he => (by cases he), .inl rfl⟩
  case h_7 j hl =>
    split at h
    · cases h
      exact .inl ⟨_, rfl, fun k u he => (by cases he), .inl rfl⟩
    · rename_i u idle hidle
      cases h
      refine .inl ⟨_, rfl, fun k v he => ?_, .inl rfl⟩
      cases he
      exact ⟨hl, hidle ▸ List.mem_cons_self⟩
  case h_8 j u hl =>
    obtain ⟨hw, he⟩ := Option.ite_none_right_eq_some.1 h
    exact .inr (.inr ⟨j, u, hl, hw, (Option.some.inj he).symm⟩)

/-- What a section of a worker does: it moves the worker, ends its job, puts it in the idle
    list, or removes idle threads. -/
theorem work_spec (h : s.work t = some s') :
    (∃ w, s' = s.setWorker t w ∧ w ≠ .cleared ∧ (w = .running → (s.job t).isSome)) ∨
      (s.worker t = .running ∧ s' = s.complete t) ∨
      (s.worker t = .cleared ∧ s' = s.release t) ∨
      ∃ n p, CThreadPool.deleteLoop n s.pool = some p ∧
        s' = { s with pool := p }.setWorker t .blocked := by
  rw [work] at h
  split at h
  case h_1 hw =>
    split_ifs at h with hj
    cases h
    exact .inl ⟨_, rfl, by simp, fun _ => hj⟩
  case h_2 hw =>
    cases h
    exact .inr (.inl ⟨hw, rfl⟩)
  case h_3 hw =>
    cases h
    exact .inr (.inr (.inl ⟨hw, rfl⟩))
  case h_4 hw =>
    cases h
    refine .inl ⟨_, rfl, ?_, ?_⟩
    · split_ifs <;> simp
    · split_ifs <;> simp
  case h_5 num hw =>
    obtain ⟨p, hp, rfl⟩ := Option.map_eq_some_iff.1 h
    exact .inr (.inr (.inr ⟨num.toNat, p, hp, rfl⟩))

/-- Only the loop `d₀` is ever in a call of `Run`. -/
theorem Inv.loop_eq {d₀ : LoopId} (h : s.Inv fun _ => d₀) (hs : s.run d = some s') : d = d₀ := by
  rw [Dispatch.run] at hs
  cases hl : s.loop d with
  | atRest =>
    rw [hl] at hs
    cases hs
  | _ => exact (h.loop_call d _ (by rw [hl]; rfl)).1.symm

/-! ## The number of threads -/

/-- With those that the loop has decided to create, there are at most `m_MaxNum` threads. -/
structure Bounded (c : PoolNums) (d₀ : LoopId) (s : Dispatch) : Prop where
  nums : s.pool.maxNum = c.maxNum ∧ s.pool.availLow = c.availLow ∧ s.pool.initNum = c.initNum
  threads_le : s.pool.threadList.length + (s.loop d₀).toCreate ≤ c.maxNum

variable {c : PoolNums} {d₀ : LoopId}

/-- A step that creates no thread and leaves the loop as few to create as it had. -/
theorem Bounded.mono (h : s.Bounded c d₀)
    (hnums : s'.pool.maxNum = s.pool.maxNum ∧ s'.pool.availLow = s.pool.availLow ∧
      s'.pool.initNum = s.pool.initNum)
    (hthreads : s'.pool.threadList.length ≤ s.pool.threadList.length)
    (hloop : (s'.loop d₀).toCreate ≤ (s.loop d₀).toCreate) : s'.Bounded c d₀ where
  nums := by
    rw [hnums.1, hnums.2.1, hnums.2.2]
    exact h.nums
  threads_le := (Nat.add_le_add hthreads hloop).trans h.threads_le

theorem Bounded.setLoop (h : s.Bounded c d₀) {l : LoopPhase}
    (hl : s.pool.threadList.length + l.toCreate ≤ c.maxNum) : (s.setLoop d₀ l).Bounded c d₀ :=
  ⟨h.nums, by rwa [loop_setLoop, if_pos rfl]⟩

/-- The growth step: what the loop asks for is within `m_MaxNum`. -/
theorem Bounded.growing (h : s.Bounded c d₀) :
    s.pool.threadList.length + s.pool.growNum ≤ c.maxNum := by
  obtain ⟨hmax, hlow, hinit⟩ := h.nums
  have hle := h.threads_le
  have hlt := c.maxNum_lt
  obtain ⟨-, hnone | hroom⟩ := CThreadPool.growNum_le (p := s.pool) (hmax ▸ hlt)
    (hinit ▸ c.initNum_le_maxNum.trans_lt hlt) (by rw [hlow, hinit]; exact c.availLow_le)
    (by omega)
  · omega
  · exact hmax ▸ hroom

/-- A thread is created that was counted before. -/
theorem Bounded.creating (h : s.Bounded c d₀) {j : Call} {n : Nat}
    (hl : s.loop d₀ = .creating j (n + 1)) :
    ({ s with pool := CThreadPool.createLoop 1 s.pool }.setLoop d₀
      (.creating j n)).Bounded c d₀ := by
  have hle := h.threads_le
  rw [hl, LoopPhase.toCreate] at hle
  have hthreads : (CThreadPool.createLoop 1 s.pool).threadList.length =
      s.pool.threadList.length + 1 := by
    rw [CThreadPool.createLoop_eq]
    simp
  refine ⟨h.nums, ?_⟩
  rw [loop_setLoop, if_pos rfl]
  change (CThreadPool.createLoop 1 s.pool).threadList.length + n ≤ c.maxNum
  omega

theorem Bounded.run (h : s.Bounded c d₀) (hs : s.run d₀ = some s') : s'.Bounded c d₀ := by
  have hle := h.threads_le
  rcases run_spec hs with ⟨l, rfl, -, hzero | ⟨-, hl⟩⟩ | ⟨j, n, hl, rfl⟩ | ⟨j, u, hl, -, rfl⟩
  · exact h.setLoop (by omega)
  · exact h.setLoop (hl ▸ h.growing)
  · exact h.creating hl
  · refine h.mono ⟨rfl, rfl, rfl⟩ le_rfl ?_
    rw [loop_assign, if_pos rfl]
    exact Nat.zero_le _

theorem Bounded.work (h : s.Bounded c d₀) (hs : s.work t = some s') : s'.Bounded c d₀ := by
  rcases work_spec hs with ⟨w, rfl, -⟩ | ⟨-, rfl⟩ | ⟨-, rfl⟩ | ⟨n, p, hp, rfl⟩
  · exact h.mono ⟨rfl, rfl, rfl⟩ le_rfl le_rfl
  · exact h.mono ⟨rfl, rfl, rfl⟩ le_rfl le_rfl
  · exact h.mono ⟨rfl, rfl, rfl⟩ le_rfl le_rfl
  · obtain ⟨⟨hmax, hlow, -, hinit⟩, -, -, -, hsub⟩ := CThreadPool.deleteLoop_spec hp
    exact h.mono ⟨hmax, hlow, hinit⟩ hsub.length_le le_rfl

theorem Bounded.step (h : s.Bounded c d₀) (hinv : s.Inv fun _ => d₀) {a : Action}
    (hs : s.step (fun _ => d₀) a = some s') : s'.Bounded c d₀ := by
  cases a with
  | readEvent e len =>
    rcases readEventCb_cases (fun _ => d₀) hs with ⟨-, rfl | ⟨-, rfl⟩⟩
    · exact h
    · refine h.mono ⟨rfl, rfl, rfl⟩ le_rfl ?_
      rw [loop_submit, if_pos rfl]
      exact Nat.zero_le _
  | run d =>
    obtain rfl := hinv.loop_eq hs
    exact h.run hs
  | work t => exact h.work hs

theorem init_bounded (c : PoolNums) (d₀ : LoopId) : (init c).Bounded c d₀ where
  nums := by simp [init, WorkerPool.init, CThreadPool.newThreads_eq]
  threads_le := by
    have hlen : (init c).pool.threadList.length = c.initNum := by
      simp [init, WorkerPool.init, CThreadPool.newThreads_eq]
    rw [hlen]
    exact c.initNum_le_maxNum

/-! ## The workers that are taken -/

/-- What holds where the loop `d₀` makes all calls: the worker it has been given is not
    busy, though it may have been removed from the pool meanwhile. -/
structure Single (d₀ : LoopId) (s : Dispatch) : Prop where
  nodup : (s.pool.idleList ++ s.pool.busyList).Nodup
  lt_created : ∀ u ∈ s.pool.idleList ++ s.pool.busyList, u < s.pool.created
  mem_busyList : ∀ u, s.worker u = .running ∨ s.worker u = .cleared → u ∈ s.pool.busyList
  holding : ∀ d j u, s.loop d = .holding j u → d = d₀ ∧ u ∉ s.pool.busyList ∧ u < s.pool.created

theorem Single.not_mem_busyList (h : s.Single d₀) (ht : t ∈ s.pool.idleList) :
    t ∉ s.pool.busyList := fun hb => (List.nodup_append.1 h.nodup).2.2 t ht t hb rfl

/-- A section that moves a loop. -/
theorem Single.setLoop (h : s.Single d₀) (hd : d = d₀) {l : LoopPhase}
    (hl : ∀ j u, l = .holding j u → u ∈ s.pool.idleList) : (s.setLoop d l).Single d₀ := by
  refine ⟨h.nodup, h.lt_created, h.mem_busyList, fun e j u he => ?_⟩
  rw [loop_setLoop] at he
  split_ifs at he with hed
  · have hidle := hl j u he
    exact ⟨hed.trans hd, h.not_mem_busyList hidle, h.lt_created u (List.mem_append_left _ hidle)⟩
  · exact h.holding e j u he

/-- A section that moves a worker. -/
theorem Single.setWorker (h : s.Single d₀) {w : WorkerPhase}
    (hw : w = .running ∨ w = .cleared → t ∈ s.pool.busyList) : (s.setWorker t w).Single d₀ := by
  refine ⟨h.nodup, h.lt_created, fun u hu => ?_, h.holding⟩
  have hworker : (s.setWorker t w).worker u = if u = t then w else s.worker u :=
    Function.update_apply _ _ _ _
  rw [hworker] at hu
  split_ifs at hu with hut
  · exact hut ▸ hw hu
  · exact h.mem_busyList u hu

theorem Single.create (h : s.Single d₀) :
    ({ s with pool := CThreadPool.createLoop 1 s.pool } : Dispatch).Single d₀ := by
  have hpool : CThreadPool.createLoop 1 s.pool = { s.pool with
      idleList := s.pool.idleList ++ [s.pool.created]
      threadList := s.pool.threadList ++ [s.pool.created]
      availNum := s.pool.availNum + 1
      created := s.pool.created + 1 } := rfl
  have hnew : s.pool.created ∉ s.pool.idleList ++ s.pool.busyList := fun hmem =>
    (h.lt_created _ hmem).false
  have hperm : (s.pool.idleList ++ [s.pool.created] ++ s.pool.busyList).Perm
      (s.pool.created :: (s.pool.idleList ++ s.pool.busyList)) := by
    rw [List.append_assoc]
    exact List.perm_middle
  rw [hpool]
  refine ⟨?_, fun u hu => ?_, h.mem_busyList, fun d j u hd => ?_⟩
  · exact hperm.nodup_iff.2 (List.nodup_cons.2 ⟨hnew, h.nodup⟩)
  · rcases List.mem_cons.1 (hperm.mem_iff.1 hu) with rfl | hu
    · exact Nat.lt_succ_self _
    · exact (h.lt_created u hu).trans (Nat.lt_succ_self _)
  · obtain ⟨hd₀, hfree, hlt⟩ := h.holding d j u hd
    exact ⟨hd₀, hfree, hlt.trans (Nat.lt_succ_self _)⟩

theorem Single.assign (h : s.Single d₀) {j : Call} (hl : s.loop d = .holding j t) :
    (s.assign d j t).Single d₀ := by
  obtain ⟨hd, hfree, hlt⟩ := h.holding d j t hl
  refine ⟨?_, fun u hu => ?_, fun u hu => List.mem_append_left _ (h.mem_busyList u hu),
    fun e k u he => ?_⟩
  · -- the worker may have been removed from the idle list before
    have hnot : t ∉ s.pool.idleList.erase t ++ s.pool.busyList := by
      refine List.mem_append.not.2 (not_or.2 ⟨?_, hfree⟩)
      exact ((List.nodup_append.1 h.nodup).1).not_mem_erase
    have hsub : (s.pool.idleList.erase t ++ s.pool.busyList).Nodup :=
      h.nodup.sublist (List.erase_sublist.append_right _)
    have hperm : (s.pool.idleList.erase t ++ (s.pool.busyList ++ [t])).Perm
        (t :: (s.pool.idleList.erase t ++ s.pool.busyList)) := by
      rw [← List.append_assoc]
      exact List.perm_append_singleton _ _
    exact hperm.nodup_iff.2 (List.nodup_cons.2 ⟨hnot, hsub⟩)
  · have hmem : u ∈ s.pool.idleList ++ s.pool.busyList ∨ u = t := by
      rcases List.mem_append.1 hu with hu | hu
      · exact .inl (List.mem_append_left _ (List.mem_of_mem_erase hu))
      · rcases List.mem_append.1 hu with hu | hu
        · exact .inl (List.mem_append_right _ hu)
        · exact .inr (List.mem_singleton.1 hu)
    rcases hmem with hmem | rfl
    · exact h.lt_created u hmem
    · exact hlt
  · rw [loop_assign] at he
    split_ifs at he with hed
    · exact absurd ((h.holding e k u he).1.trans hd.symm) hed

theorem Single.release (h : s.Single d₀) (hw : s.worker t = .cleared) :
    (s.release t).Single d₀ := by
  have ht := h.mem_busyList t (.inr hw)
  have hperm : (s.pool.idleList ++ [t] ++ s.pool.busyList.erase t).Perm
      (s.pool.idleList ++ s.pool.busyList) := by
    rw [List.append_assoc]
    exact (List.perm_cons_erase ht).symm.append_left _
  refine ⟨hperm.nodup_iff.2 h.nodup, fun u hu => h.lt_created u (hperm.mem_iff.1 hu),
    fun u hu => ?_, fun d j u hd => ?_⟩
  · rw [worker_release] at hu
    split_ifs at hu with hut
    · rcases hu with hu | hu <;> cases hu
    · exact (List.mem_erase_of_ne hut).2 (h.mem_busyList u hu)
  · obtain ⟨hd₀, hfree, hlt⟩ := h.holding d j u hd
    exact ⟨hd₀, fun hmem => hfree (List.mem_of_mem_erase hmem), hlt⟩

theorem Single.delete (h : s.Single d₀) {n : Nat} {p : CThreadPool}
    (hp : CThreadPool.deleteLoop n s.pool = some p) :
    ({ s with pool := p } : Dispatch).Single d₀ := by
  obtain ⟨-, hbusy, hcreated, hsuffix, -⟩ := CThreadPool.deleteLoop_spec hp
  have hsub : (p.idleList ++ p.busyList).Sublist (s.pool.idleList ++ s.pool.busyList) := by
    rw [hbusy]
    exact hsuffix.sublist.append_right _
  refine ⟨h.nodup.sublist hsub, fun u hu => ?_, fun u hu => ?_, fun d j u hd => ?_⟩
  · exact hcreated ▸ h.lt_created u (hsub.subset hu)
  · exact hbusy ▸ h.mem_busyList u hu
  · have hhold := h.holding d j u hd
    rw [hbusy, hcreated]
    exact hhold

theorem Single.step (h : s.Single d₀) (hinv : s.Inv fun _ => d₀) {a : Action}
    (hs : s.step (fun _ => d₀) a = some s') : s'.Single d₀ := by
  cases a with
  | readEvent e len =>
    rcases readEventCb_cases (fun _ => d₀) hs with ⟨-, rfl | ⟨-, rfl⟩⟩
    · exact h
    · refine ⟨h.nodup, h.lt_created, h.mem_busyList, fun d j u hd => h.holding d j u ?_⟩
      rw [loop_submit] at hd
      split_ifs at hd
      exact hd
  | run d =>
    have hd := hinv.loop_eq hs
    rcases run_spec hs with ⟨l, rfl, hl, -⟩ | ⟨j, n, -, rfl⟩ | ⟨j, u, hl, -, rfl⟩
    · exact h.setLoop hd fun j u he => (hl j u he).2
    · exact h.create.setLoop hd (by simp)
    · exact h.assign hl
  | work t =>
    rcases work_spec hs with ⟨w, rfl, hne, hjob⟩ | ⟨hw, rfl⟩ | ⟨hw, rfl⟩ | ⟨n, p, hp, rfl⟩
    · refine h.setWorker fun hw => ?_
      obtain ⟨j, hj⟩ := Option.isSome_iff_exists.1 (hjob (hw.resolve_right hne))
      exact hinv.mem_busyList t j hj
    · refine ⟨h.nodup, h.lt_created, fun u hu => ?_, h.holding⟩
      rw [worker_complete] at hu
      split_ifs at hu with hut
      · exact hut ▸ h.mem_busyList t (.inl hw)
      · exact h.mem_busyList u hu
    · exact h.release hw
    · exact h.delete hp |>.setWorker (by simp)

theorem init_single (c : PoolNums) (d₀ : LoopId) : (init c).Single d₀ where
  nodup := by simpa [init, WorkerPool.init, CThreadPool.newThreads_eq] using List.nodup_range'
  lt_created u hu := by
    simpa [init, WorkerPool.init, CThreadPool.newThreads_eq, List.mem_range'_1] using hu
  mem_busyList u hu := by rcases hu with hu | hu <;> cases hu
  holding d j u hd := by cases hd

/-- With one event loop, in every state of every run, no job has been replaced, no worker
    is twice in the busy list, and every call that returned with a worker has been executed
    once, or is the job of exactly one worker, which can go on: whatever the workers do
    between the sections of `Run`. -/
theorem single_allKept (d₀ : LoopId) (c : PoolNums) (as : List Action) :
    Throughout (step fun _ => d₀) AllKept (init c) as := by
  have hall : Along (step fun _ => d₀) (fun _ _ => True) (init c) as := by
    generalize init c = s
    induction as generalizing s with
    | nil => trivial
    | cons a as ih => exact fun s' _ => ⟨trivial, ih s'⟩
  refine throughout_of_along
    (I := fun s => s.Inv (fun _ => d₀) ∧ s.Single d₀ ∧ s.replaced = [] ∧ s.pool.busyList.Nodup)
    (fun s a s' h _ hs => ?_) (fun s h => ⟨h.2.2.1, h.2.2.2, fun j hj => h.1.kept h.2.2.1 hj⟩)
    ⟨init_inv c, init_single c d₀, rfl, ?_⟩ hall
  · have hfree : s.TakesFree a := by
      rintro d j t rfl hl
      exact (h.2.1.holding d j t hl).2.1
    exact ⟨h.1.step hs, h.2.1.step h.1 hs, h.1.free_step h.2.2.1 h.2.2.2 hfree hs⟩
  · simp [init, WorkerPool.init, CThreadPool.newThreads_eq]

end Dispatch

end VsHttpServer
