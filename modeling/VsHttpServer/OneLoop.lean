import VsHttpServer.PoolWaits
import VsHttpServer.Sections

/-!
# One event loop

What holds with one event loop as long as no thread is removed: nothing that `Run` tests
goes wrong before the loop acts on it.

* `Dispatch.Whole`: every thread is idle or busy, and every busy worker has a job, or has just
  had one;
* `Dispatch.Sure`: a call that does not wait has made sure that not all workers are busy, and
  then that one is idle;
* `PoolWaits.Inv.step`: these are kept, and the loop never waits on `m_IdleCond`, until a
  worker finds more than `m_AvailHigh` idle threads.
-/

namespace VsHttpServer

open Transition

namespace Dispatch

variable {c : PoolNums} {d₀ : LoopId} {s s' : Dispatch} {t : ThreadId}

/-- Where no thread has been removed, every one is idle or busy, and a busy worker has a job,
    or has just had one. A worker is idle while the loop holds it, and until it has unlocked
    `m_WorkMutex` after a job. -/
structure Whole (d₀ : LoopId) (s : Dispatch) : Prop where
  length : s.pool.idleList.length + s.pool.busyList.length = s.pool.created
  busy : ∀ t ∈ s.pool.busyList, (s.job t).isSome ∨ s.worker t = .cleared
  holding : ∀ j t, s.loop d₀ = .holding j t → t ∈ s.pool.idleList
  released : ∀ t, s.worker t = .released → t ∈ s.pool.idleList
  replaced : s.replaced = []

theorem init_whole (c : PoolNums) (d₀ : LoopId) : (init c).Whole d₀ where
  length := by simp [init, WorkerPool.init, CThreadPool.newThreads_eq]
  busy t ht := by simp [init, WorkerPool.init, CThreadPool.newThreads_eq] at ht
  holding _ _ h := by cases h
  released _ h := by cases h
  replaced := rfl

/-- A worker that the loop holds has no job. -/
theorem Lossless.job_eq_none (h : s.Lossless c d₀) {j : Call}
    (hj : s.loop d₀ = .holding j t) : s.job t = none := by
  cases hk : s.job t with
  | none => rfl
  | some k => exact absurd (h.inv.mem_busyList t k hk) (h.single.holding d₀ j t hj).2.1

theorem Whole.run {d : LoopId} (h : s.Whole d₀) (hl : s.Lossless c d₀)
    (hs : s.run d = some s') : s'.Whole d₀ := by
  have hd := hl.inv.loop_eq hs
  subst hd
  rcases run_spec hs with ⟨l, rfl, hhold, -⟩ | ⟨j, n, -, rfl⟩ | ⟨j, u, hj, hw, rfl⟩
  · refine ⟨h.length, h.busy, fun j t ht => ?_, h.released, h.replaced⟩
    rw [loop_setLoop, if_pos rfl] at ht
    exact (hhold j t ht).2
  · have hcreate := CThreadPool.createLoop_eq 1 s.pool
    refine ⟨?_, fun t ht => ?_, fun k t ht => ?_, fun t ht => ?_, h.replaced⟩
    · have := h.length
      simp only [setLoop, hcreate, List.length_append, List.length_range']
      omega
    · simp only [setLoop, hcreate] at ht
      exact h.busy t ht
    · rw [loop_setLoop, if_pos rfl] at ht
      cases ht
    · simp only [setLoop, hcreate]
      exact List.mem_append_left _ (h.released t ht)
  · have hidle := h.holding j u hj
    have hpos := List.length_pos_of_mem hidle
    refine ⟨?_, fun t ht => ?_, fun k t ht => ?_, fun t ht => ?_, ?_⟩
    · have := h.length
      simp only [assign, CThreadPool.moveToBusyList, List.length_append, List.length_singleton,
        List.length_erase_of_mem hidle]
      omega
    · rw [job_assign]
      split_ifs with htu
      · exact .inl rfl
      · refine h.busy t ((List.mem_append.1 ht).resolve_right fun hmem => ?_)
        exact htu (List.mem_singleton.1 hmem)
    · rw [loop_assign, if_pos rfl] at ht
      cases ht
    · have htu : t ≠ u := by
        rintro rfl
        exact absurd (hw.symm.trans ht) (by simp)
      exact (List.mem_erase_of_ne htu).2 (h.released t ht)
    · change s.replaced ++ (s.job u).toList = []
      rw [h.replaced, hl.job_eq_none hj]
      rfl

theorem Whole.work (h : s.Whole d₀) (hl : s.Lossless c d₀)
    (hcrowd : s.worker t = .released → ¬s.pool.isCrowded) (hs : s.work t = some s') :
    s'.Whole d₀ := by
  rcases hl.noneRemoved.work_cases hcrowd hs with
    ⟨hw, hjob, rfl⟩ | ⟨hw, rfl⟩ | ⟨hw, rfl⟩ | ⟨hw, rfl⟩
  · refine ⟨h.length, fun u hu => ?_, h.holding, fun u hu => ?_, h.replaced⟩
    · rw [worker_setWorker]
      split_ifs with hut
      · exact .inl (hut ▸ hjob)
      · exact h.busy u hu
    · rw [worker_setWorker] at hu
      split_ifs at hu
      exact h.released u hu
  · refine ⟨h.length, fun u hu => ?_, h.holding, fun u hu => ?_, h.replaced⟩
    · rw [worker_complete, job_complete]
      split_ifs
      · exact .inr rfl
      · exact h.busy u hu
    · rw [worker_complete] at hu
      split_ifs at hu
      exact h.released u hu
  · have hmem := hl.single.mem_busyList t (.inr hw)
    have hpos := List.length_pos_of_mem hmem
    have hnodup := (List.nodup_append.1 hl.single.nodup).2.1
    refine ⟨?_, fun u hu => ?_, fun j u hu => ?_, fun u hu => ?_, h.replaced⟩
    · have := h.length
      simp only [release, CThreadPool.moveToIdleList, List.length_append, List.length_singleton,
        List.length_erase_of_mem hmem]
      omega
    · obtain ⟨hne, hu⟩ := hnodup.mem_erase_iff.1 hu
      rw [worker_release, if_neg hne]
      exact h.busy u hu
    · exact List.mem_append_left _ (h.holding j u hu)
    · rw [worker_release] at hu
      split_ifs at hu with hut
      · exact List.mem_append_right _ (List.mem_singleton.2 hut)
      · exact List.mem_append_left _ (h.released u hu)
  · have hjob : s.job t = none := by
      cases hj : s.job t with
      | none => rfl
      | some j =>
        have := hl.inv.hasJob t j hj
        rw [hw] at this
        exact this.elim
    refine ⟨h.length, fun u hu => ?_, h.holding, fun u hu => ?_, h.replaced⟩
    · rw [worker_setWorker]
      split_ifs with hut
      · subst hut
        rcases h.busy u hu with hsome | hc
        · exact .inl hsome
        · rw [hw] at hc
          cases hc
      · exact h.busy u hu
    · rw [worker_setWorker] at hu
      split_ifs at hu
      exact h.released u hu

theorem Whole.step (h : s.Whole d₀) (hl : s.Lossless c d₀) {a : Action}
    (hcrowd : ∀ t, a = .work t → s.worker t = .released → ¬s.pool.isCrowded)
    (hs : s.step (fun _ => d₀) a = some s') : s'.Whole d₀ := by
  cases a with
  | readEvent i len =>
    rcases readEventCb_cases (fun _ => d₀) hs with ⟨-, rfl | ⟨-, rfl⟩⟩
    · exact h
    · refine ⟨h.length, h.busy, fun j t ht => ?_, h.released, h.replaced⟩
      rw [loop_submit, if_pos rfl] at ht
      cases ht
  | run d => exact h.run hl hs
  | work t => exact h.work hl (hcrowd t rfl) hs

/-- There are at most `m_MaxNum` threads. -/
theorem Whole.length_le (h : s.Whole d₀) (hl : s.Lossless c d₀) :
    s.pool.idleList.length + s.pool.busyList.length + (s.loop d₀).toCreate ≤ c.maxNum := by
  have hle := hl.bounded.threads_le
  rw [← hl.noneRemoved.created, ← h.length] at hle
  exact hle

/-- The growth step of a call that has not found all workers busy leaves one idle. -/
theorem Whole.grow (h : s.Whole d₀) (hl : s.Lossless c d₀)
    (hbusy : s.pool.busyList.length < c.maxNum) : 0 < s.pool.idleList.length + s.pool.growNum := by
  obtain ⟨hmax, hlow, hinit⟩ := hl.bounded.nums
  have hlen := h.length
  have hle := h.length_le hl
  rw [hl.noneRemoved.created] at hlen
  refine (CThreadPool.grow_spec hlen.symm ?_ ?_ ?_ ?_ ?_ ?_).1
  · exact hlow ▸ c.one_le_availLow
  · rw [hlow, hinit]
    exact c.availLow_le
  · exact hinit ▸ c.initNum_le_maxNum.trans_lt c.maxNum_lt
  · exact hmax ▸ c.maxNum_lt
  · omega
  · omega

/-- There are as many idle threads as are too many. -/
theorem Whole.surplus_le (h : s.Whole d₀) (hl : s.Lossless c d₀) :
    s.pool.surplus.toNat ≤ s.pool.idleList.length := by
  have hle := h.length_le hl
  have hmax := c.maxNum_lt
  have hinit := c.initNum_le_maxNum
  rw [CThreadPool.surplus, hl.bounded.nums.2.2, CString.toInt32, CString.toSizeT, CString.toInt32]
  omega

/-- What a call has made sure of: that not all workers are busy, unless it waits, and later
    that one is idle. -/
def Sure (s : Dispatch) (waits : Prop) (d : LoopId) : Prop :=
  match s.loop d with
  | .maxWait _ => waits ∨ s.pool.busyList.length < s.pool.maxNum
  | .growing _ => s.pool.busyList.length < s.pool.maxNum
  | .creating _ n => 0 < s.pool.idleList.length + n
  | .atRest | .called _ | .fetching _ | .holding _ _ => True

theorem Sure.mono {p q : Prop} {d : LoopId} (h : s.Sure p d) (hl : s'.loop d = s.loop d)
    (hmax : s'.pool.maxNum = s.pool.maxNum)
    (hbusy : s'.pool.busyList.length ≤ s.pool.busyList.length)
    (hidle : s.pool.idleList.length ≤ s'.pool.idleList.length)
    (hpq : p → q ∨ s'.pool.busyList.length < s'.pool.maxNum) : s'.Sure q d := by
  rw [Sure] at h ⊢
  rw [hl]
  cases hd : s.loop d with
  | maxWait j =>
    rw [hd] at h
    rcases h with hp | hlt
    · exact hpq hp
    · exact .inr (hmax ▸ hbusy.trans_lt hlt)
  | growing j =>
    rw [hd] at h
    exact hmax ▸ hbusy.trans_lt h
  | creating j n =>
    rw [hd] at h
    exact h.trans_le (Nat.add_le_add_right hidle n)
  | _ => trivial

theorem Whole.sure_run (h : s.Whole d₀) (hl : s.Lossless c d₀) (hsure : s.Sure False d₀)
    (hs : s.run d₀ = some s') :
    s'.Sure ((∃ j, s.loop d₀ = .called j) ∧ s.pool.busyList.length = s.pool.maxNum) d₀ := by
  have hself : ∀ l p, ({ s with pool := p }.setLoop d₀ l).loop d₀ = l := fun l p => by
    rw [loop_setLoop, if_pos rfl]
  rw [Sure] at hsure
  rw [Dispatch.run] at hs
  split at hs
  case h_1 => cases hs
  case h_2 j hj =>
    cases hs
    rw [Sure, hself _ s.pool]
    split_ifs with hfull
    · exact .inl ⟨⟨j, hj⟩, hfull⟩
    · have := h.length_le hl
      have hmax := hl.bounded.nums.1
      change s.pool.busyList.length < s.pool.maxNum
      omega
  case h_3 j hj =>
    cases hs
    rw [hj] at hsure
    rw [Sure, hself _ s.pool]
    exact hsure.resolve_left id
  case h_4 j hj =>
    cases hs
    rw [hj] at hsure
    rw [Sure, hself _ s.pool]
    exact h.grow hl (hl.bounded.nums.1 ▸ hsure)
  case h_5 j n hj =>
    cases hs
    rw [hj] at hsure
    rw [Sure, hself, setLoop, CThreadPool.createLoop_eq]
    simp only [List.length_append, List.length_range']
    omega
  case h_6 j hj =>
    split_ifs at hs
    cases hs
    rw [Sure, hself _ s.pool]
    trivial
  case h_7 j hj =>
    split at hs
    · cases hs
      rw [Sure, hself _ s.pool]
      trivial
    · cases hs
      rw [Sure, hself _ s.pool]
      trivial
  case h_8 j t hj =>
    obtain ⟨-, he⟩ := Option.ite_none_right_eq_some.1 hs
    cases he
    rw [Sure, loop_assign, if_pos rfl]
    trivial

/-- A worker leaves the loops alone, and takes no thread from the idle list. -/
theorem Lossless.work_frame (hl : s.Lossless c d₀)
    (hcrowd : s.worker t = .released → ¬s.pool.isCrowded) (hs : s.work t = some s') :
    s'.loop = s.loop ∧ s'.pool.maxNum = s.pool.maxNum ∧ s'.pool.created = s.pool.created ∧
      s'.pool.busyList.length ≤ s.pool.busyList.length ∧
      s.pool.idleList.length ≤ s'.pool.idleList.length := by
  rcases hl.noneRemoved.work_cases hcrowd hs with
    ⟨-, -, rfl⟩ | ⟨-, rfl⟩ | ⟨-, rfl⟩ | ⟨-, rfl⟩
  · exact ⟨rfl, rfl, rfl, le_rfl, le_rfl⟩
  · exact ⟨rfl, rfl, rfl, le_rfl, le_rfl⟩
  · refine ⟨rfl, rfl, rfl, (List.erase_sublist).length_le, ?_⟩
    simp [release, CThreadPool.moveToIdleList]
  · exact ⟨rfl, rfl, rfl, le_rfl, le_rfl⟩

end Dispatch

namespace PoolWaits

variable {c : PoolNums} {d₀ : LoopId} {s s' : PoolWaits} {t : ThreadId}

/-- What holds with one event loop as long as no thread is removed. -/
structure Inv (c : PoolNums) (d₀ : LoopId) (s : PoolWaits) : Prop where
  calls : s.wakeup.Inv fun _ => d₀
  lossless : s.dispatch.Lossless c d₀
  whole : s.dispatch.Whole d₀
  setJob : ∀ d t, s.wakeup.setJob d = some t → d = d₀ ∧ s.dispatch.loop d₀ = .atRest
  idle : s.waiters .idle = []
  maxNum : s.waiters .maxNum = [] ∨ s.waiters .maxNum = [d₀] ∧ ¬s.entering d₀
  waits : ∀ d, s.Waits d → d = d₀ ∧ ∃ j, s.dispatch.loop d₀ = .maxWait j
  sure : s.dispatch.Sure (s.Waits d₀) d₀
  toSignal : ∀ t, s.toSignal t = [] ∨
    (s.toSignal t = [.maxNum] ∨ s.toSignal t = [.idle, .maxNum]) ∧ s.dispatch.worker t = .released

theorem init_inv (c : PoolNums) (d₀ : LoopId) : (init c).Inv c d₀ where
  calls := Wakeup.init_inv c
  lossless := Dispatch.init_lossless c d₀
  whole := Dispatch.init_whole c d₀
  setJob _ _ h := by cases h
  idle := rfl
  maxNum := .inl rfl
  waits _ h := by rcases h with h | h <;> cases h
  sure := trivial
  toSignal _ := .inl rfl

/-- No worker finds more than `m_AvailHigh` idle threads. -/
def KeepsAll (s : PoolWaits) : Action → Prop
  | .work t _ =>
    s.toSignal t = [] → s.dispatch.worker t = .released → ¬s.dispatch.pool.isCrowded
  | .readEvent _ _ | .run _ => True

instance (s : PoolWaits) (a : Action) : Decidable (s.KeepsAll a) := by
  cases a with
  | work t n => exact inferInstanceAs (Decidable (_ → _ → _))
  | readEvent c len => exact inferInstanceAs (Decidable True)
  | run d => exact inferInstanceAs (Decidable True)

/-- What holds of the calls and the workers. -/
theorem Inv.base (h : s.Inv c d₀) {a : Action} (hall : s.KeepsAll a)
    (hs : s.step (fun _ => d₀) a = some s') :
    s'.wakeup.Inv (fun _ => d₀) ∧ s'.dispatch.Lossless c d₀ ∧ s'.dispatch.Whole d₀ := by
  rcases step_wakeup (fun _ => d₀) hs with he | ⟨hw, hsig⟩
  · rw [dispatch, he]
    exact ⟨h.calls, h.lossless, h.whole⟩
  refine ⟨h.calls.step hw, ?_⟩
  rcases h.calls.step_dispatch hw with he | hd
  · rw [dispatch, he]
    exact ⟨h.lossless, h.whole⟩
  have hcrowd : ∀ t, a.base = .work t → s.dispatch.worker t = .released →
      ¬s.dispatch.pool.isCrowded := by
    intro t ht
    cases a with
    | work u n =>
      cases ht
      exact hall (hsig t n rfl)
    | _ => cases ht
  exact ⟨h.lossless.step hcrowd hd, h.whole.step h.lossless hcrowd hd⟩

/-- A loop that does not rest does not wait for the end of `SetJob` of another call. -/
theorem Inv.setJob_eq_none (h : s.Inv c d₀) (hl : s.dispatch.loop d₀ ≠ .atRest) (d : LoopId) :
    s.wakeup.setJob d = none := by
  cases hd : s.wakeup.setJob d with
  | none => rfl
  | some t => exact absurd (h.setJob d t hd).2 hl

theorem Inv.readEvent (h : s.Inv c d₀) {i : ConnId} {len : Nat}
    (hs : s.step (fun _ => d₀) (.readEvent i len) = some s') : s'.Inv c d₀ := by
  obtain ⟨hcalls, hlossless, hwhole⟩ := h.base (a := .readEvent i len) trivial hs
  obtain ⟨w, hw, rfl⟩ := Option.map_eq_some_iff.1 hs
  obtain ⟨hnone, hw⟩ := Option.ite_none_right_eq_some.1 hw
  obtain ⟨p, hp, rfl⟩ := Option.map_eq_some_iff.1 hw
  obtain ⟨hl, rfl | ⟨-, rfl⟩⟩ := Dispatch.readEventCb_cases (fun _ => d₀) hp
  · exact ⟨hcalls, hlossless, hwhole, h.setJob, h.idle, h.maxNum, h.waits, h.sure, h.toSignal⟩
  · refine ⟨hcalls, hlossless, hwhole, fun d t hd => ?_, h.idle, h.maxNum, fun d hd => ?_, ?_,
      h.toSignal⟩
    · obtain rfl := (h.setJob d t hd).1
      exact absurd (hnone.symm.trans hd) (by simp)
    · obtain ⟨-, j, hj⟩ := h.waits d hd
      exact absurd (hl.symm.trans hj) (by simp)
    · rw [Dispatch.Sure, Dispatch.loop_submit, if_pos rfl]
      trivial

theorem Inv.wait (h : s.Inv c d₀) (hent : s.entering d₀) : (s.wait d₀).Inv c d₀ := by
  obtain ⟨-, j, hj⟩ := h.waits d₀ (.inl hent)
  have hidle : (s.wait d₀).waiters .idle = [] := by
    rw [PoolWaits.wait]
    simp [hj, LoopPhase.cond, h.idle]
  have hmax : (s.wait d₀).waiters .maxNum = [d₀] := by
    have hnil := h.maxNum.resolve_right fun hw => hw.2 hent
    rw [PoolWaits.wait]
    simp [hj, LoopPhase.cond, hnil]
  refine ⟨h.calls, h.lossless, h.whole, h.setJob, hidle, .inr ⟨hmax, by simp⟩, fun d hd => ?_, ?_,
    h.toSignal⟩
  · rcases hd with hd | hd
    · rw [entering_wait] at hd
      split_ifs at hd
      exact h.waits d (.inl hd)
    · rw [hmax] at hd
      exact ⟨List.mem_singleton.1 hd, j, hj⟩
  · exact h.sure.mono rfl rfl le_rfl le_rfl fun _ =>
      .inl (.inr (hmax ▸ List.mem_singleton_self d₀))

theorem Inv.go (h : s.Inv c d₀) {d : LoopId} {must : Bool} {w : Wakeup}
    (hs : s.step (fun _ => d₀) (.run d) = some (s.go d must w)) (hent : ¬s.entering d)
    (hwait : d ∉ s.waiters .idle ++ s.waiters .maxNum) (hw : s.wakeup.run d = some w)
    (hmust : must ↔ (∃ j, s.dispatch.loop d = .called j) ∧
      s.dispatch.pool.busyList.length = s.dispatch.pool.maxNum) : (s.go d must w).Inv c d₀ := by
  obtain ⟨hcalls, hlossless, hwhole⟩ := h.base (a := .run d) trivial hs
  have hnot : ¬s.Waits d := not_or.2 ⟨hent, fun hmem => hwait (List.mem_append_right _ hmem)⟩
  -- no loop waits: only `d₀` could, and it is in no call, or in this one
  have hd : d = d₀ := by
    rcases Wakeup.run_cases hw with ⟨t, hset, -⟩ | ⟨j, t, -, hl, -⟩ | ⟨-, hd⟩
    · exact (h.setJob d t hset).1
    · exact (h.calls.calls.loop_call d j (by rw [hl]; rfl)).1.symm
    · exact h.calls.calls.loop_eq hd
  subst hd
  have hnone : ∀ e, ¬s.Waits e := fun e he => hnot ((h.waits e he).1 ▸ he)
  have hmaxNum : s.waiters .maxNum = [] :=
    h.maxNum.resolve_right fun he => hnot (.inr (he.1 ▸ List.mem_singleton_self d))
  have hwaits : ∀ e, (s.go d must w).Waits e → e = d ∧ must := by
    intro e he
    have hent' := he.resolve_right fun hmem => hnone e (.inr hmem)
    rw [entering_go] at hent'
    split_ifs at hent' with hed
    · exact ⟨hed, hent'⟩
    · exact absurd (.inl hent') (hnone e)
  have hsure : s.dispatch.Sure False d :=
    h.sure.mono rfl rfl le_rfl le_rfl fun hd => absurd hd hnot
  have hworker : w.dispatch.worker = s.dispatch.worker := by
    rcases Wakeup.run_cases hw with ⟨t, -, rfl⟩ | ⟨j, t, -, -, -, -, rfl⟩ | ⟨-, hd⟩
    · rfl
    · rfl
    · exact Dispatch.worker_run hd
  have hsig : ∀ t, s.toSignal t = [] ∨ (s.toSignal t = [.maxNum] ∨
      s.toSignal t = [.idle, .maxNum]) ∧ w.dispatch.worker t = .released := by
    rw [hworker]
    exact h.toSignal
  rcases Wakeup.run_cases hw with ⟨t, hset, rfl⟩ | ⟨j, t, hset, hl, -, -, rfl⟩ | ⟨ho, hd⟩
  · have hrest := (h.setJob d t hset).2
    have hno : ¬must := fun hm => by
      obtain ⟨⟨j, hj⟩, -⟩ := hmust.1 hm
      exact absurd (hrest.symm.trans hj) (by simp)
    refine ⟨hcalls, hlossless, hwhole, fun e u he => ?_, h.idle, .inl hmaxNum,
      fun e he => absurd (hwaits e he).2 hno, ?_, hsig⟩
    · rw [PoolWaits.go, Wakeup.setJob_signal] at he
      split_ifs at he
      exact ⟨(h.setJob e u he).1, hrest⟩
    · exact hsure.mono rfl rfl le_rfl le_rfl False.elim
  · have hno : ¬must := fun hm => by
      obtain ⟨⟨k, hk⟩, -⟩ := hmust.1 hm
      exact absurd (hl.symm.trans hk) (by simp)
    have hrest : (s.dispatch.assign d j t).loop d = .atRest := by
      rw [Dispatch.loop_assign, if_pos rfl]
    refine ⟨hcalls, hlossless, hwhole, fun e u he => ?_, h.idle, .inl hmaxNum,
      fun e he => absurd (hwaits e he).2 hno, ?_, hsig⟩
    · rw [PoolWaits.go, Wakeup.setJob_store] at he
      split_ifs at he with hed
      · exact ⟨hed, hrest⟩
      · exact ⟨(h.setJob e u he).1, hrest⟩
    · change (s.dispatch.assign d j t).Sure _ d
      rw [Dispatch.Sure, hrest]
      trivial
  · obtain ⟨p, rfl, -⟩ := ho
    have hrest : s.dispatch.loop d ≠ .atRest := fun hl => by
      rw [Dispatch.run, hl] at hd
      cases hd
    refine ⟨hcalls, hlossless, hwhole, fun e u he => ?_, h.idle, .inl hmaxNum, fun e he => ?_, ?_,
      hsig⟩
    · exact absurd ((h.setJob_eq_none hrest e).symm.trans he) (by simp)
    · obtain ⟨rfl, hm⟩ := hwaits e he
      obtain ⟨⟨j, hj⟩, hfull⟩ := hmust.1 hm
      refine ⟨rfl, j, ?_⟩
      rw [Dispatch.run, hj] at hd
      simp only [hfull, if_pos] at hd
      cases hd
      exact (Dispatch.loop_setLoop _ _ _).trans (if_pos rfl)
    · refine (h.whole.sure_run h.lossless hsure hd).mono rfl rfl le_rfl le_rfl fun hfull => ?_
      exact .inl (.inl (by rw [entering_go, if_pos rfl]; exact hmust.2 hfull))

/-- A worker that has still to signal is idle. -/
theorem Inv.mem_idleList (h : s.Inv c d₀) (ht : s.toSignal t ≠ []) :
    t ∈ s.dispatch.pool.idleList :=
  h.whole.released t ((h.toSignal t).resolve_left ht).2

/-- Not all workers are busy then. -/
theorem Inv.busy_lt (h : s.Inv c d₀) (ht : t ∈ s.dispatch.pool.idleList) :
    s.dispatch.pool.busyList.length < s.dispatch.pool.maxNum := by
  have hpos := List.length_pos_of_mem ht
  have hle := h.whole.length_le h.lossless
  have hmax := h.lossless.bounded.nums.1
  omega

theorem Inv.signal (h : s.Inv c d₀) {k : PoolCond} {ks : List PoolCond} {n : Nat}
    (ht : s.toSignal t = k :: ks) : (s.signal t k ks n).Inv c d₀ := by
  have hne : s.toSignal t ≠ [] := ht ▸ List.cons_ne_nil k ks
  obtain ⟨hshape, hw⟩ := (h.toSignal t).resolve_left hne
  have hsub : ∀ i, (s.signal t k ks n).waiters i ⊆ s.waiters i := by
    intro i
    rw [waiters_signal]
    split_ifs with hi
    · exact hi ▸ (List.eraseIdx_sublist _ _).subset
    · exact List.Subset.refl _
  refine ⟨h.calls, h.lossless, h.whole, h.setJob, ?_, ?_, fun d hd => ?_, ?_, fun u => ?_⟩
  · exact List.subset_nil.1 (h.idle ▸ hsub .idle)
  · rw [waiters_signal]
    split_ifs with hk
    · rcases h.maxNum with hnil | ⟨hone, -⟩
      · exact .inl (by rw [← hk, hnil, List.eraseIdx_nil])
      · exact .inl (by rw [← hk, hone, List.length_singleton, Nat.mod_one, List.eraseIdx_cons_zero])
    · exact h.maxNum
  · exact h.waits d (hd.imp_right fun hmem => hsub _ hmem)
  · -- the worker that signals is idle
    exact h.sure.mono rfl rfl le_rfl le_rfl fun _ => .inr (h.busy_lt (h.mem_idleList hne))
  · rw [toSignal_signal]
    split_ifs with hu
    · subst hu
      rcases hshape with he | he
      · rw [ht] at he
        cases he
        exact .inl rfl
      · rw [ht] at he
        cases he
        exact .inr ⟨.inl rfl, hw⟩
    · exact h.toSignal u

theorem Inv.work (h : s.Inv c d₀) {n : Nat} {w : Wakeup} (hall : s.KeepsAll (.work t n))
    (hs : s.step (fun _ => d₀) (.work t n) = some (s.proceed t w)) (ht : s.toSignal t = [])
    (hw : s.wakeup.work t = some w) : (s.proceed t w).Inv c d₀ := by
  obtain ⟨hcalls, hlossless, hwhole⟩ := h.base hall hs
  have hcrowd := hall ht
  have hframe : w.setJob = s.wakeup.setJob ∧ w.dispatch.loop = s.dispatch.loop ∧
      w.dispatch.pool.maxNum = s.dispatch.pool.maxNum ∧
      w.dispatch.pool.busyList.length ≤ s.dispatch.pool.busyList.length ∧
      s.dispatch.pool.idleList.length ≤ w.dispatch.pool.idleList.length := by
    have hset : w.setJob = s.wakeup.setJob := by
      rcases Wakeup.work_cases hw with ⟨-, ⟨-, rfl⟩ | ⟨-, rfl⟩ | ⟨-, -, rfl⟩⟩ | ⟨-, rfl⟩ |
        ⟨⟨p, rfl, -⟩, -⟩
      all_goals rfl
    refine ⟨hset, ?_⟩
    rcases h.calls.step_dispatch (a := .work t) hw with hd | hd
    · rw [hd]
      exact ⟨rfl, rfl, le_rfl, le_rfl⟩
    · obtain ⟨hl, hm, -, hb, hi⟩ := h.lossless.work_frame hcrowd hd
      exact ⟨hl, hm, hb, hi⟩
  obtain ⟨hset, hl, hm, hb, hi⟩ := hframe
  refine ⟨hcalls, hlossless, hwhole, fun d u hd => ?_, h.idle, h.maxNum, fun d hd => ?_, ?_,
    fun u => ?_⟩
  · change w.setJob d = some u at hd
    rw [hset] at hd
    change d = d₀ ∧ w.dispatch.loop d₀ = .atRest
    rw [hl]
    exact h.setJob d u hd
  · change d = d₀ ∧ ∃ j, w.dispatch.loop d₀ = .maxWait j
    rw [hl]
    exact h.waits d hd
  · exact h.sure.mono (congrFun hl d₀) hm hb hi .inl
  · rw [toSignal_proceed]
    by_cases hu : u = t
    · subst hu
      split_ifs with hc
      · -- the worker is in `MoveToIdleList`
        refine .inr ⟨.inr rfl, ?_⟩
        have hwork : s.wakeup.work u =
            (s.dispatch.work u).map fun p => { s.wakeup with dispatch := p } := by
          rw [Wakeup.work, hc.2]
        rw [hwork, Dispatch.work, hc.2] at hw
        cases hw
        exact (Dispatch.worker_release _ _).trans (if_pos rfl)
      · exact .inl ht
    · have hother : w.dispatch.worker u = s.dispatch.worker u := by
        rcases h.calls.step_dispatch (a := .work t) hw with hd | hd
        · rw [hd]
        · exact Dispatch.worker_work hu hd
      rw [if_neg fun he => hu he.1]
      change _ ∨ _ ∧ w.dispatch.worker u = _
      rw [hother]
      exact h.toSignal u

theorem Inv.step (h : s.Inv c d₀) {a : Action} (hall : s.KeepsAll a)
    (hs : s.step (fun _ => d₀) a = some s') : s'.Inv c d₀ := by
  cases a with
  | readEvent i len => exact h.readEvent hs
  | run d =>
    obtain ⟨hwait, ⟨hent, rfl⟩ | ⟨-, ⟨j, hj⟩, hidle, -⟩ | ⟨must, w, hent, hw, rfl, hmust⟩⟩ :=
      run_cases hs
    · obtain rfl := (h.waits d (.inl hent)).1
      exact h.wait hent
    · -- there is an idle thread where `GetIdleThread` begins
      obtain rfl := (h.calls.calls.loop_call d j (by rw [hj]; rfl)).1
      have hsure := h.sure
      rw [Dispatch.Sure, hj, hidle] at hsure
      exact absurd hsure (lt_irrefl 0)
    · exact h.go hs hent hwait hw hmust
  | work t n =>
    rcases work_cases hs with ⟨k, ks, ht, rfl⟩ | ⟨w, ht, hw, rfl⟩
    · exact h.signal ht
    · exact h.work hall hs ht hw

theorem inv_of_exec (d₀ : LoopId) (c : PoolNums) {as : List Action}
    (hall : Along (step fun _ => d₀) KeepsAll (init c) as)
    (hs : exec (step fun _ => d₀) (init c) as = some s) : s.Inv c d₀ :=
  (throughout_of_along (I := Inv c d₀) (fun _ _ _ h hok hs => h.step hok hs) (fun _ h => h)
    (init_inv c d₀) hall).of_exec hs

theorem Inv.oneLoop (h : s.Inv c d₀) : s.OneLoop d₀ where
  calls := h.calls
  single := h.lossless.single
  ordered := by rw [h.lossless.numbered]

end PoolWaits

end VsHttpServer
