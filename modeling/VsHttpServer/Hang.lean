import VsHttpServer.Progress

/-!
# The server hangs

A loop tests `GetBusyNum` and then waits, with no mutex held in between: the workers can all
end their jobs meanwhile, and signal to nobody.

* `exists_filling`: calls that come before any worker moves keep as many workers busy;
* `exists_hung`: so `m_MaxNum` calls, and one more, can be made before the workers end;
* `hangs`: whatever the numbers of the pool are, some run leads to a state from which no
  call is ever made or executed, with all workers idle.
-/

namespace VsHttpServer

open Transition

namespace PoolWaits

variable {c : PoolNums} {d₀ : LoopId} {s : PoolWaits} {t : ThreadId} {n : Nat}

/-- So far no worker has moved: `n` calls have been made, and the loop has found no reason to
    wait. -/
structure Filling (c : PoolNums) (d₀ : LoopId) (n : Nat) (s : PoolWaits) : Prop where
  inv : s.Inv c d₀
  worker : ∀ t, s.dispatch.worker t = .blocked
  phase : ∀ t, s.wakeup.phase t = .testing
  waits : ¬s.Waits d₀
  calls : s.dispatch.pool.busyList.length + (s.dispatch.loop d₀).call.toList.length = n

theorem Filling.exists_step (h : s.Filling c d₀ n) (hn : n ≤ c.maxNum)
    (hne : s.callWeight c.initNum d₀ ≠ 0) :
    ∃ a s', s.step (fun _ => d₀) a = some s' ∧ s'.Filling c d₀ n ∧
      s'.callWeight c.initNum d₀ < s.callWeight c.initNum d₀ := by
  have hcalled : ∀ j, s.dispatch.loop d₀ = .called j →
      s.dispatch.pool.busyList.length ≠ s.dispatch.pool.maxNum := by
    intro j hl
    have hcalls := h.calls
    have hmax := h.inv.lossless.bounded.nums.1
    rw [hl] at hcalls
    change _ + 1 = n at hcalls
    omega
  obtain ⟨s', hs, hadv⟩ := h.inv.exists_run hne h.waits hcalled (fun _ t _ => h.worker t)
    fun t _ => by simp [h.phase t]
  have hinv := h.inv.step (a := .run d₀) trivial hs
  refine ⟨_, s', hs, ⟨hinv, fun t => ?_, fun t => ?_, fun hwait => ?_, ?_⟩, ?_⟩
  · rw [hadv.worker]
    exact h.worker t
  · exact (hadv.phase t).elim (fun he => he.trans (h.phase t)) id
  · obtain ⟨-, j, hj⟩ := hinv.waits d₀ hwait
    exact hadv.maxWait j hj
  · exact hadv.busy.trans h.calls
  · have := hadv.callWeight
    omega

/-- A read event, after the calls before. -/
theorem Filling.exists_submit (h : s.Filling c d₀ n) (hzero : s.callWeight c.initNum d₀ = 0) :
    ∃ s', s.step (fun _ => d₀) (.readEvent 0 1) = some s' ∧ s'.Filling c d₀ (n + 1) ∧
      (∃ j, s'.dispatch.loop d₀ = .called j) ∧
      s'.dispatch.pool.busyList.length = n := by
  have hrest : s.dispatch.loop d₀ = .atRest ∧ s.wakeup.setJob d₀ = none := by
    rw [PoolWaits.callWeight] at hzero
    split at hzero
    case h_7 hl =>
      refine ⟨hl, ?_⟩
      by_contra hset
      rw [if_pos (Option.isSome_iff_ne_none.2 hset)] at hzero
      exact absurd hzero (by simp)
    all_goals omega
  obtain ⟨hl, hset⟩ := hrest
  have hs : s.step (fun _ => d₀) (.readEvent 0 1) =
      some { s with
        wakeup := { s.wakeup with dispatch := s.dispatch.submit (fun _ => d₀) 0 } } := by
    rw [PoolWaits.step, Wakeup.step, if_pos hset, Dispatch.readEventCb, if_pos hl,
      if_neg Nat.one_ne_zero]
    rfl
  have hloop : (s.dispatch.submit (fun _ => d₀) 0).loop d₀ = .called ⟨s.dispatch.nextCall, 0⟩ := by
    rw [Dispatch.loop_submit, if_pos rfl]
  have hcalls := h.calls
  rw [hl] at hcalls
  refine ⟨_, hs, ⟨h.inv.readEvent hs, h.worker, h.phase, h.waits, ?_⟩, ⟨_, hloop⟩, hcalls⟩
  change s.dispatch.pool.busyList.length +
    ((s.dispatch.submit (fun _ => d₀) 0).loop d₀).call.toList.length = n + 1
  rw [hloop]
  exact congrArg Nat.succ hcalls

theorem init_filling (c : PoolNums) (d₀ : LoopId) : (init c).Filling c d₀ 0 where
  inv := init_inv c d₀
  worker _ := rfl
  phase _ := rfl
  waits h := by rcases h with h | h <;> cases h
  calls := by
    simp [init, dispatch, Wakeup.init, Dispatch.init, WorkerPool.init, CThreadPool.newThreads_eq,
      LoopPhase.call]

/-- As many calls as there may be workers, all of which are busy then. -/
theorem exists_filling (d₀ : LoopId) (c : PoolNums) (hn : n ≤ c.maxNum) :
    ∃ as s, exec (step fun _ => d₀) (init c) as = some s ∧ s.Filling c d₀ n ∧
      s.callWeight c.initNum d₀ = 0 := by
  induction n with
  | zero => exact ⟨[], init c, rfl, init_filling c d₀, rfl⟩
  | succ n ih =>
    obtain ⟨as, s, hs, h, hzero⟩ := ih (Nat.le_of_succ_le hn)
    obtain ⟨s₁, h₁, hfill, -, -⟩ := h.exists_submit hzero
    obtain ⟨bs, s₂, h₂, hfill₂, hzero₂⟩ := exists_exec_zero (I := Filling c d₀ (n + 1))
      (fun _ h hne => h.exists_step hn hne) hfill
    exact ⟨as ++ .readEvent 0 1 :: bs, s₂, exec_trans hs ((exec_cons h₁ bs).trans h₂), hfill₂,
      hzero₂⟩

/-- The loop has found that all workers were busy, and is about to wait, and no worker has
    missed a signal. -/
structure Draining (c : PoolNums) (d₀ : LoopId) (s : PoolWaits) : Prop where
  inv : s.Inv c d₀
  entering : s.entering d₀
  missedJob : ∀ t, ¬s.wakeup.MissedJob t

/-- One more call. -/
theorem exists_draining (d₀ : LoopId) (c : PoolNums) :
    ∃ as s, exec (step fun _ => d₀) (init c) as = some s ∧ s.Draining c d₀ := by
  obtain ⟨as, s, hs, h, hzero⟩ := exists_filling d₀ c (le_refl c.maxNum)
  obtain ⟨s₁, h₁, hfill, ⟨j, hj⟩, hbusy⟩ := h.exists_submit hzero
  have hinv := hfill.inv
  have hfull : s₁.dispatch.pool.busyList.length = s₁.dispatch.pool.maxNum :=
    hbusy.trans hinv.lossless.bounded.nums.1.symm
  have hwait : d₀ ∉ s₁.waiters .idle ++ s₁.waiters .maxNum := by
    rw [hinv.idle, List.nil_append]
    exact fun hmem => hfill.waits (.inr hmem)
  have h₂ : s₁.step (fun _ => d₀) (.run d₀) = some (s₁.go d₀ true
      { s₁.wakeup with dispatch := s₁.dispatch.setLoop d₀ (.maxWait j) }) := by
    rw [PoolWaits.step, PoolWaits.run, if_neg hwait, if_neg fun he => hfill.waits (.inl he), hj]
    dsimp only
    rw [Wakeup.run, hinv.setJob_eq_none (by simp [hj]), hj]
    simp [Dispatch.run, hj, hfull]
  refine ⟨as ++ [.readEvent 0 1, .run d₀], _, exec_trans hs ((exec_cons h₁ _).trans
    ((exec_cons h₂ []).trans rfl)), hinv.step (a := .run d₀) trivial h₂, by simp,
    fun t ht => ?_⟩
  have hphase : s₁.wakeup.phase t = .entering ∨ s₁.wakeup.phase t = .waiting := ht.1
  rcases hphase with he | he <;> exact absurd ((hfill.phase t).symm.trans he) (by simp)

theorem Draining.setJob_eq_none (h : s.Draining c d₀) (d : LoopId) : s.wakeup.setJob d = none := by
  obtain ⟨-, j, hj⟩ := h.inv.waits d₀ (.inl h.entering)
  exact h.inv.setJob_eq_none (by simp [hj]) d

/-- A worker that has a job, or a signal to send, can go on meanwhile. -/
theorem Draining.exists_step (h : s.Draining c d₀) (hlt : 1 < s.weight t) :
    ∃ s', s.step (fun _ => d₀) (.work t 0) = some s' ∧ s'.Draining c d₀ ∧ Lowers d₀ t s s' := by
  have hnot : s.dispatch.worker t = .blocked → s.wakeup.phase t ≠ .waiting := fun hw hp => by
    have hjob : (s.dispatch.job t).isSome := by
      by_contra hjob
      exact absurd hlt (by simp [weight, hw, hjob])
    exact h.missedJob t ⟨.inr hp, hjob, fun d => by simp [h.setJob_eq_none d]⟩
  obtain ⟨s', hs, hlow⟩ := h.inv.exists_work (Nat.ne_zero_of_lt hlt)
    (fun hw => ⟨hnot hw, fun _ => h.inv.workMutex_eq_none h.setJob_eq_none t⟩)
    fun hone => absurd hone hlt.ne'
  refine ⟨s', hs, ⟨h.inv.step (a := .work t 0) (fun hsig hw => ?_) hs, hlow.entering ▸ h.entering,
    fun u => mt (hlow.missedJob u) (h.missedJob u)⟩, hlow⟩
  -- the worker does not look at the idle list yet
  exact absurd hlt (by simp [weight, hw, hsig])

theorem Draining.hung (h : s.Draining c d₀)
    (hle : ∀ t < s.dispatch.pool.created, s.weight t ≤ 1) : s.Hung d₀ := by
  obtain ⟨-, hbusy, hsig⟩ := h.inv.quiet hle
  exact ⟨(h.inv.waits d₀ (.inl h.entering)).2, .inl h.entering, hbusy, fun t => by simp [hsig t]⟩

/-- The workers end their jobs between the test of the loop and its wait. -/
theorem exists_hung (d₀ : LoopId) (c : PoolNums) :
    ∃ as s, exec (step fun _ => d₀) (init c) as = some s ∧ s.Inv c d₀ ∧ s.Hung d₀ := by
  obtain ⟨as, s, hs, h⟩ := exists_draining d₀ c
  -- what a worker has before it, up to the test of the idle list
  have hend : ∃ bs s', exec (step fun _ => d₀) s bs = some s' ∧ s'.Draining c d₀ ∧
      ∑ t ∈ Finset.range s'.dispatch.pool.created, (s'.weight t - 1) = 0 := by
    refine exists_exec_zero
      (ν := fun s => ∑ t ∈ Finset.range s.dispatch.pool.created, (s.weight t - 1))
      (fun s h hne => ?_) h
    obtain ⟨t, ht, hne⟩ := Finset.exists_ne_zero_of_sum_ne_zero hne
    obtain ⟨s', hs, h', hlow⟩ := h.exists_step (t := t) (by omega)
    refine ⟨_, s', hs, h', ?_⟩
    rw [hlow.created]
    have hself := hlow.self
    refine Finset.sum_lt_sum (fun u _ => ?_) ⟨t, ht, by omega⟩
    by_cases hu : u = t
    · rw [hu]
      omega
    · rw [hlow.other u hu]
  obtain ⟨bs, s', hs', h', hzero⟩ := hend
  refine ⟨as ++ bs, s', exec_trans hs hs', h'.inv, h'.hung fun t ht => ?_⟩
  have := Finset.sum_eq_zero_iff.1 hzero t (Finset.mem_range.2 ht)
  omega

/-- With one event loop, whatever the numbers of the pool are, there is a run after which the
    loop is in a call of `Run` for ever: no further call is made or executed, though all
    workers are idle. -/
theorem hangs (d₀ : LoopId) (c : PoolNums) :
    ∃ as s, exec (step fun _ => d₀) (init c) as = some s ∧ s.Hung d₀ ∧
      ∀ bs s', exec (step fun _ => d₀) s bs = some s' →
        s'.Hung d₀ ∧ s'.dispatch.nextCall = s.dispatch.nextCall ∧
          s'.dispatch.executed = s.dispatch.executed := by
  obtain ⟨as, s, hs, h, hhung⟩ := exists_hung d₀ c
  refine ⟨as, s, hs, hhung, fun bs s' hs' => ?_⟩
  refine (exec_inv (I := fun x => x.OneLoop d₀ ∧ x.Hung d₀ ∧
    x.dispatch.nextCall = s.dispatch.nextCall ∧ x.dispatch.executed = s.dispatch.executed)
    (fun x a x' hx hstep => ?_) ⟨h.oneLoop, hhung, rfl, rfl⟩ hs').2
  obtain ⟨hone, hx, hnext, hexec⟩ := hx
  obtain ⟨hx', hnext', hexec'⟩ := hx.step hone hstep
  exact ⟨hone.step hstep, hx', hnext'.trans hnext, hexec'.trans hexec⟩

end PoolWaits

end VsHttpServer
