import VsHttpServer.Pool.Worker

/-!
# Threads that are removed

`DeleteIdleThread` takes threads off the lists of the pool, but does not end them: its
call of `Join` is commented out, and a removed thread waits for a job that nobody can
give it. Later calls of `Run` create others. The calls, and the ends of jobs, are complete
steps, as in `WorkerPool`.

* `removed_forever`: a thread that was removed is never used again;
* `created_bounded_iff`: the number of threads that are ever created is bounded if and only if
  `m_MaxNum` is at most `m_AvailHigh`, so that no thread is ever removed.
-/

namespace VsHttpServer

open Transition

namespace WorkerPool

variable {c : PoolNums} {s s' : WorkerPool} {t : ThreadId} {j : JobId}

/-! ## What a step does to the numbers of threads -/

/-- A call of `Run` makes one more thread busy, and removes none. -/
theorem run_lengths (hs : s.run j = some s') :
    s'.pool.busyList.length = s.pool.busyList.length + 1 ∧
      s'.pool.created + s.pool.threadList.length = s.pool.created + s'.pool.threadList.length := by
  have hgrow := CThreadPool.createLoop_eq s.pool.growNum s.pool
  rw [← CThreadPool.grow] at hgrow
  rw [run] at hs
  split at hs
  · cases hs
  · cases hs
    simp only [CThreadPool.moveToBusyList, hgrow, List.length_append, List.length_range',
      List.length_singleton, true_and]
    omega

/-- The end of a job makes one fewer thread busy; the idle ones become one more, unless they
    become too many: then `m_InitNum` are left. -/
theorem Inv.finish_lengths (h : s.Inv c) (ht : t ∈ s.pool.busyList) (hs : s.finish t = some s') :
    s'.pool.busyList.length + 1 = s.pool.busyList.length ∧ s'.pool.created = s.pool.created ∧
      s'.pool.idleList.length =
        if s.pool.idleList.length < c.availHigh then s.pool.idleList.length + 1 else c.initNum := by
  have herase := List.length_erase_add_one ht
  obtain ⟨p, hp, rfl⟩ := Option.map_eq_some_iff.1 hs
  rw [CThreadPool.trim] at hp
  have hcrowd := h.isCrowded_iff (t := t)
  split_ifs at hp with hmany
  · have hinit := c.initNum_le_availHigh
    have hmany' := hcrowd.1 hmany
    rw [if_neg (by omega)]
    obtain ⟨n, hn⟩ : ∃ n : Nat, s.pool.idleList.length + 1 = c.initNum + n :=
      Nat.exists_eq_add_of_le (by omega)
    have hsurplus := h.surplus_eq (t := t) (by omega)
    have hnum : (s.pool.moveToIdleList t).surplus.toNat = n := by
      rw [hsurplus]
      omega
    have hlen : (s.pool.moveToIdleList t).idleList.length = s.pool.idleList.length + 1 := by
      simp [CThreadPool.moveToIdleList]
    rw [CThreadPool.deleteIdleThread, hnum, CThreadPool.deleteLoop_eq (by omega)] at hp
    cases hp
    refine ⟨herase, rfl, ?_⟩
    rw [List.length_drop, hlen]
    omega
  · cases hp
    rw [if_pos (by have := hcrowd.not.1 hmany; omega)]
    exact ⟨herase, rfl, by simp [CThreadPool.moveToIdleList]⟩

/-! ## Removal -/

/-- A thread that exists, but is not in the pool. -/
def Removed (s : WorkerPool) (t : ThreadId) : Prop := t < s.pool.created ∧ t ∉ s.pool.threadList

instance (s : WorkerPool) (t : ThreadId) : Decidable (s.Removed t) :=
  inferInstanceAs (Decidable (_ ∧ _))

theorem Inv.removed (h : s.Inv c) (ht : s.Removed t) :
    t ∉ s.pool.idleList ∧ t ∉ s.pool.busyList ∧ s.job t = none := by
  have hnot := h.partition.mem_iff.not.1 ht.2
  rw [not_or] at hnot
  refine ⟨hnot.1, hnot.2, ?_⟩
  simpa using (h.job_iff t).not.2 hnot.2

theorem Removed.step {a : Action} (ht : s.Removed t) (hs : s.step a = some s') : s'.Removed t := by
  cases a with
  | run j =>
    rw [WorkerPool.step] at hs
    split_ifs at hs
    rw [WorkerPool.run] at hs
    split at hs
    · cases hs
    · cases hs
      have hgrow := CThreadPool.createLoop_eq s.pool.growNum s.pool
      rw [← CThreadPool.grow] at hgrow
      rw [Removed]
      simp only [CThreadPool.moveToBusyList, hgrow, List.mem_append, List.mem_range'_1]
      refine ⟨ht.1.trans_le (Nat.le_add_right _ _), not_or.2 ⟨ht.2, fun hnew => ?_⟩⟩
      exact absurd ht.1 (not_lt.2 hnew.1)
  | finish u =>
    rw [WorkerPool.step] at hs
    split_ifs at hs
    obtain ⟨p, hp, rfl⟩ := Option.map_eq_some_iff.1 hs
    rw [CThreadPool.trim] at hp
    split_ifs at hp
    · obtain ⟨-, -, hcreated, -, hsub⟩ := CThreadPool.deleteLoop_spec hp
      exact ⟨ht.1.trans_eq hcreated.symm, fun hmem => ht.2 (hsub.subset hmem)⟩
    · cases hp
      exact ht

/-- A thread that has been removed is never again in the lists of the pool, where
    `TerminateAll` would find it, and never gets a job. -/
theorem removed_forever (c : PoolNums) {as bs : List Action} (hs : exec step (init c) as = some s)
    (ht : s.Removed t) (hs' : exec step s bs = some s') :
    t ∉ s'.pool.threadList ∧ t ∉ s'.pool.idleList ∧ t ∉ s'.pool.busyList ∧ s'.job t = none := by
  have hinv : s.Inv c := exec_inv (I := Inv c) (fun _ _ _ => Inv.step) (init_inv c) hs
  have hlater : s'.Inv c ∧ s'.Removed t := exec_inv (I := fun s => s.Inv c ∧ s.Removed t)
    (fun _ _ _ h hs => ⟨h.1.step hs, h.2.step hs⟩) ⟨hinv, ht⟩ hs'
  exact ⟨hlater.2.2, hlater.1.removed hlater.2⟩

/-- Twenty jobs at a time, sixteen of which end: thread 0 is removed, and the next job is
    given to another. -/
theorem removed_forever_default :
    ∃ s s', exec step (init .default)
        ((List.range 20).map .run ++ (List.range 16).map .finish) = some s ∧ s.Removed 0 ∧
      exec step s [.run 20] = some s' ∧ s'.job 0 = none := by
  obtain ⟨s, hs, ht⟩ := Option.map_eq_some_iff.1 (show
    (exec step (init .default) ((List.range 20).map .run ++ (List.range 16).map .finish)).map
      (fun s => decide (s.Removed 0)) = some true by decide +kernel)
  obtain ⟨s', hs'⟩ : ∃ s', (exec step (init .default)
      ((List.range 20).map .run ++ (List.range 16).map .finish)).bind (exec step · [.run 20]) =
      some s' := Option.isSome_iff_exists.1 (by decide +kernel)
  rw [hs, Option.bind_some] at hs'
  exact ⟨s, s', hs, of_decide_eq_true ht, hs',
    (removed_forever .default hs (of_decide_eq_true ht) hs').2.2.2⟩

/-! ## How many threads are created -/

/-- A state in which `r` threads have been removed. -/
structure Removing (c : PoolNums) (r : Nat) (s : WorkerPool) : Prop where
  inv : s.Inv c
  created : s.pool.created = s.pool.threadList.length + r

theorem Removing.step_run {r : Nat} (h : s.Removing c r)
    (hbusy : s.pool.busyList.length < c.maxNum) :
    ∃ a s', s.step a = some s' ∧ s'.Removing c r ∧
      s'.pool.busyList.length = s.pool.busyList.length + 1 := by
  obtain ⟨s', hs, hinv⟩ := h.inv.run hbusy 0
  obtain ⟨hlen, hsame⟩ := run_lengths hs
  refine ⟨.run 0, s', ?_, ⟨hinv, ?_⟩, hlen⟩
  · rw [step, if_pos (h.inv.nums.1 ▸ hbusy), hs]
  · have := h.created
    omega

/-- The end of a job, with room in the idle list or without. -/
theorem Removing.step_finish {r : Nat} (h : s.Removing c r) (hbusy : s.pool.busyList ≠ []) :
    ∃ a s', s.step a = some s' ∧
      if s.pool.idleList.length < c.availHigh then
        s'.Removing c r ∧ s'.pool.threadList.length = s.pool.threadList.length ∧
          s'.pool.idleList.length = s.pool.idleList.length + 1
      else ∃ r' > r, s'.Removing c r' := by
  obtain ⟨t, ht⟩ := List.exists_mem_of_ne_nil _ hbusy
  obtain ⟨s', hs, hinv, -⟩ := h.inv.finish ht
  obtain ⟨hless, hcreated, hidle⟩ := h.inv.finish_lengths ht hs
  have hlen := h.inv.partition.length
  have hlen' := hinv.partition.length
  have hcount := h.created
  have hinit := c.initNum_le_availHigh
  refine ⟨.finish t, s', by rw [step, if_pos ht, hs], ?_⟩
  split_ifs at hidle ⊢ with hroom
  · exact ⟨⟨hinv, by omega⟩, by omega, hidle⟩
  · refine ⟨s'.pool.created - s'.pool.threadList.length, ?_, hinv, ?_⟩
    · omega
    · omega

/-- All threads get busy. -/
theorem Removing.fill {r : Nat} (h : s.Removing c r) :
    ∃ as s', exec step s as = some s' ∧ s'.Removing c r ∧ s'.pool.busyList.length = c.maxNum := by
  have hstep : ∀ s : WorkerPool, s.Removing c r → c.maxNum - s.pool.busyList.length ≠ 0 →
      ∃ a s', s.step a = some s' ∧ s'.Removing c r ∧
        c.maxNum - s'.pool.busyList.length < c.maxNum - s.pool.busyList.length := by
    intro s h hne
    obtain ⟨a, s', hs, hr, hlen⟩ := h.step_run (by omega)
    exact ⟨a, s', hs, hr, by omega⟩
  obtain ⟨as, s', hs, hr, hzero⟩ := exists_exec_zero hstep h
  have hle := hr.inv.threadList_le
  have hlen := hr.inv.partition.length
  exact ⟨as, s', hs, hr, by omega⟩

/-- The threads become idle, up to `m_AvailHigh`. -/
theorem Removing.drain {r n : Nat} (h : s.Removing c r) (hhigh : c.availHigh < n)
    (hn : s.pool.threadList.length = n) :
    ∃ as s', exec step s as = some s' ∧ (s'.Removing c r ∧ s'.pool.threadList.length = n) ∧
      c.availHigh - s'.pool.idleList.length = 0 := by
  refine exists_exec_zero
    (I := fun s : WorkerPool => s.Removing c r ∧ s.pool.threadList.length = n)
    (ν := fun s => c.availHigh - s.pool.idleList.length) (fun s h hne => ?_) ⟨h, hn⟩
  have hlen := h.1.inv.partition.length
  have hbusy : s.pool.busyList ≠ [] := by
    intro hnil
    rw [hnil, List.length_nil] at hlen
    omega
  obtain ⟨a, s', hs, hr⟩ := h.1.step_finish hbusy
  rw [if_pos (by omega)] at hr
  exact ⟨a, s', hs, ⟨hr.1, hr.2.1.trans h.2⟩, by omega⟩

/-- If all threads have been busy, and as many as possible have become idle, the end of
    one more job removes some. -/
theorem Removing.cycle {r : Nat} (h : s.Removing c r) (hhigh : c.availHigh < c.maxNum) :
    ∃ as s', exec step s as = some s' ∧ ∃ r' > r, s'.Removing c r' := by
  obtain ⟨as, s₁, h₁, hr₁, hfull⟩ := h.fill
  have hall : s₁.pool.threadList.length = c.maxNum := by
    have hle := hr₁.inv.threadList_le
    have hlen := hr₁.inv.partition.length
    omega
  obtain ⟨bs, s₂, h₂, ⟨hr₂, hall₂⟩, hidle⟩ := hr₁.drain hhigh hall
  have hlen := hr₂.inv.partition.length
  have hle := hr₂.inv.idleList_le
  have hbusy : s₂.pool.busyList ≠ [] := by
    intro hnil
    rw [hnil, List.length_nil] at hlen
    omega
  obtain ⟨a, s₃, h₃, hr₃⟩ := hr₂.step_finish hbusy
  rw [if_neg (by omega)] at hr₃
  refine ⟨as ++ (bs ++ [a]), s₃, ?_, hr₃⟩
  rw [exec_append, h₁, Option.bind_some, exec_append, h₂, Option.bind_some, exec, h₃]
  rfl

theorem init_removing (c : PoolNums) : (init c).Removing c 0 where
  inv := init_inv c
  created := by simp [init, CThreadPool.newThreads_eq]

/-- There is a bound on the number of threads that are created, over all runs of the pool, if
    and only if `m_MaxNum` is at most `m_AvailHigh`. -/
theorem created_bounded_iff (c : PoolNums) :
    (∃ n, ∀ as s, exec step (init c) as = some s → s.pool.created ≤ n) ↔
      c.maxNum ≤ c.availHigh := by
  constructor
  · rintro ⟨n, hn⟩
    by_contra hhigh
    -- the cycle can be repeated as often as one likes
    have hcycle : ∀ s : WorkerPool, (∃ r, s.Removing c r) →
        ∃ as s', exec step s as = some s' ∧ (∃ r, s'.Removing c r) ∧
        s.pool.created - s.pool.threadList.length <
          s'.pool.created - s'.pool.threadList.length := by
      rintro s ⟨r, h⟩
      obtain ⟨as, s', hs, r', hlt, hr'⟩ := h.cycle (not_le.1 hhigh)
      have hcreated := h.created
      have hcreated' := hr'.created
      exact ⟨as, s', hs, ⟨r', hr'⟩, by omega⟩
    obtain ⟨as, s, hs, -, hmany⟩ := exists_exec_le hcycle ⟨0, init_removing c⟩ (n + 1)
    have := hn as s hs
    omega
  · intro hhigh
    refine ⟨c.maxNum, fun as s hs => ?_⟩
    -- there is always room in the idle list
    have hnone : s.Removing c 0 := by
      refine exec_inv (I := Removing c 0) (fun s a s' h hs => ⟨h.inv.step hs, ?_⟩)
        (init_removing c) hs
      have hcount := h.created
      cases a with
      | run j =>
        rw [step] at hs
        split_ifs at hs
        have hsame := (run_lengths hs).2
        omega
      | finish t =>
        have hinv' := h.inv.step hs
        rw [step] at hs
        split_ifs at hs with ht
        obtain ⟨hless, hcreated, hidle⟩ := h.inv.finish_lengths ht hs
        have hlen := h.inv.partition.length
        have hlen' := hinv'.partition.length
        have hle := h.inv.threadList_le
        have hpos := List.length_pos_of_mem ht
        rw [if_pos (by omega)] at hidle
        omega
    rw [hnone.created]
    exact hnone.inv.threadList_le

end WorkerPool

end VsHttpServer
