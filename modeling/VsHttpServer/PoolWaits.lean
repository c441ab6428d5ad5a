import VsHttpServer.Wakeup
import VsHttpServer.Loops

/-!
# Waiting for the pool

A call of `CThreadPool::Run` waits on `m_MaxNumCond` where `GetBusyNum` is `m_MaxNum`, and
`GetIdleThread` on `m_IdleCond` where `m_IdleList` is empty. The test, the wait, and the two
signals at the end of `MoveToIdleList` are here steps of their own, next to those around
`m_JobCond`. No mutex is held from a test to the wait. A loop that waits goes on when it is
woken by a signal, and only then.

* `Wakeup.Inv.missedJob_step`: a worker with a job that waits on `m_JobCond` with no signal to
  come does so for ever;
* `step_wakeup`: the calls and the workers go on as without the other places;
* `Hung.step`: a loop that waits on `m_MaxNumCond`, or is about to, while no worker has
  anything to do, does so for ever.
-/

namespace VsHttpServer

open Transition

/-! ## A missed signal -/

namespace Wakeup

variable {owner : ConnId → LoopId} {s s' : Wakeup} {t : ThreadId}

@[simp]
theorem setJob_signal (d e : LoopId) (u : ThreadId) :
    (s.signal d u).setJob e = if e = d then none else s.setJob e :=
  Function.update_apply _ _ _ _

/-- A worker with a job waits on `m_JobCond`, or is about to, and no `SetJob` that has stored
    it is going to signal. -/
def MissedJob (s : Wakeup) (t : ThreadId) : Prop :=
  (s.phase t = .entering ∨ s.phase t = .waiting) ∧ (s.dispatch.job t).isSome ∧
    ∀ d, s.setJob d ≠ some t

/-- It waits for ever, where no loop is given a worker that is busy. -/
theorem Inv.missedJob_step (h : s.Inv owner) (hm : s.MissedJob t)
    (hfree : ∀ d j u, s.dispatch.loop d = .holding j u → u ∉ s.dispatch.pool.busyList)
    {a : Dispatch.Action} (hs : s.step owner a = some s') :
    s'.MissedJob t ∧ s'.dispatch.job t = s.dispatch.job t := by
  obtain ⟨hphase, hjob, hno⟩ := hm
  have hblocked := h.blocked t (by rcases hphase with hp | hp <;> simp [hp])
  have hbusy : t ∈ s.dispatch.pool.busyList := by
    obtain ⟨j, hj⟩ := Option.isSome_iff_exists.1 hjob
    exact h.calls.mem_busyList t j hj
  rcases step_cases owner hs with ⟨d, u, hset, rfl⟩ | ⟨d, j, u, -, hset, hl, -, -, rfl⟩ |
    ⟨u, -, -, ⟨hp, rfl⟩ | ⟨-, rfl⟩ | ⟨hp, -, rfl⟩⟩ | ⟨u, -, hw, rfl⟩ | ⟨⟨p, rfl, hp, -⟩, -⟩
  · -- the signal is for another worker
    have htu : t ≠ u := fun he => hno d (he ▸ hset)
    refine ⟨⟨?_, hjob, fun e => ?_⟩, rfl⟩
    · rw [phase_signal, if_neg fun he => htu he.1]
      exact hphase
    · rw [setJob_signal]
      split_ifs
      · simp
      · exact hno e
  · -- and so is the job
    have htu : t ≠ u := fun he => hfree d j u hl (he ▸ hbusy)
    have hsame : (s.store d j u).dispatch.job t = s.dispatch.job t :=
      (Dispatch.job_assign d j u t).trans (if_neg htu)
    refine ⟨⟨hphase, hsame ▸ hjob, fun e => ?_⟩, hsame⟩
    rw [setJob_store]
    split_ifs
    · exact fun he => htu (Option.some.inj he).symm
    · exact hno e
  · have htu : t ≠ u := by
      rintro rfl
      rcases hphase with he | he <;> simp [hp] at he
    refine ⟨⟨?_, hjob, hno⟩, rfl⟩
    rw [phase_test, if_neg htu]
    exact hphase
  · refine ⟨⟨?_, hjob, hno⟩, rfl⟩
    rw [phase_setPhase]
    split_ifs
    · exact .inr rfl
    · exact hphase
  · have htu : t ≠ u := by
      rintro rfl
      rcases hphase with he | he <;> simp [hp] at he
    refine ⟨⟨?_, hjob, hno⟩, rfl⟩
    rw [phase_take, if_neg htu]
    exact hphase
  · have htu : t ≠ u := by
      rintro rfl
      rw [hblocked] at hw
      cases hw
    have hsame : (s.dispatch.complete u).job t = s.dispatch.job t :=
      (Dispatch.job_complete u t).trans (if_neg htu)
    exact ⟨⟨hphase, hsame ▸ hjob, hno⟩, hsame⟩
  · exact ⟨⟨hphase, hp ▸ hjob, hno⟩, congrFun hp t⟩

end Wakeup

/-! ## The event loops -/

/-- A condition variable of the pool. -/
inductive PoolCond
  /-- `m_IdleCond`. -/
  | idle
  /-- `m_MaxNumCond`. -/
  | maxNum
  deriving DecidableEq

/-- The dispatch of the calls, with the waits of the event loops. -/
structure PoolWaits where
  wakeup : Wakeup
  /-- The test before a wait has found that the loop must wait. -/
  entering : LoopId → Bool
  /-- The loops in the wait. -/
  waiters : PoolCond → List LoopId
  /-- What a worker has still to signal in `MoveToIdleList`. -/
  toSignal : ThreadId → List PoolCond

/-- The condition variable on which `Run` waits at a place. -/
def LoopPhase.cond : LoopPhase → Option PoolCond
  | .maxWait _ => some .maxNum
  | .creating _ 0 => some .idle
  | .atRest | .called _ | .growing _ | .creating _ (_ + 1) | .fetching _ | .holding _ _ => none

namespace PoolWaits

def init (c : PoolNums) : PoolWaits where
  wakeup := .init c
  entering _ := false
  waiters _ := []
  toSignal _ := []

variable (owner : ConnId → LoopId)

/-- The calls and the workers. -/
abbrev dispatch (s : PoolWaits) : Dispatch := s.wakeup.dispatch

/-- The loop begins to wait. -/
def wait (s : PoolWaits) (d : LoopId) : PoolWaits :=
  { s with
    entering := Function.update s.entering d false
    waiters := fun k =>
      if (s.dispatch.loop d).cond = some k then s.waiters k ++ [d] else s.waiters k }

/-- A signal wakes one of the loops that wait, if there are some. -/
def signal (s : PoolWaits) (t : ThreadId) (k : PoolCond) (ks : List PoolCond) (n : Nat) :
    PoolWaits :=
  { s with
    waiters := Function.update s.waiters k ((s.waiters k).eraseIdx (n % (s.waiters k).length))
    toSignal := Function.update s.toSignal t ks }

/-- The loop goes on with the call; `must` is what a test says, if it has made one. -/
def go (s : PoolWaits) (d : LoopId) (must : Bool) (w : Wakeup) : PoolWaits :=
  { s with
    wakeup := w
    entering := Function.update s.entering d must }

/-- The next step of `CThreadPool::Run` in the event loop `d`. -/
def run (s : PoolWaits) (d : LoopId) : Option PoolWaits :=
  if d ∈ s.waiters .idle ++ s.waiters .maxNum then none
  else if s.entering d then some (s.wait d)
  else
    match s.dispatch.loop d with
    | .called _ =>
      (s.wakeup.run d).map (s.go d (s.dispatch.pool.busyList.length = s.dispatch.pool.maxNum))
    | .creating _ 0 =>
      if s.dispatch.pool.idleList = [] then some (s.go d true s.wakeup)
      else (s.wakeup.run d).map (s.go d false)
    | _ => (s.wakeup.run d).map (s.go d false)

/-- The worker goes on; after the two lists `MoveToIdleList` has two signals to send. -/
def proceed (s : PoolWaits) (t : ThreadId) (w : Wakeup) : PoolWaits :=
  { s with
    wakeup := w
    toSignal :=
      if s.dispatch.worker t = .cleared then Function.update s.toSignal t [.idle, .maxNum]
      else s.toSignal }

/-- The next step of `CWorkerThread::Run` in the worker `t`; a signal wakes the `n`-th of
    the loops that wait. -/
def work (s : PoolWaits) (t : ThreadId) (n : Nat) : Option PoolWaits :=
  match s.toSignal t with
  | k :: ks => some (s.signal t k ks n)
  | [] => (s.wakeup.work t).map (s.proceed t)

inductive Action
  | readEvent (c : ConnId) (len : Nat)
  | run (d : LoopId)
  | work (t : ThreadId) (n : Nat)

/-- The action of `Dispatch`. -/
def Action.base : Action → Dispatch.Action
  | .readEvent c len => .readEvent c len
  | .run d => .run d
  | .work t _ => .work t

def step (s : PoolWaits) : Action → Option PoolWaits
  | .readEvent c len => (s.wakeup.step owner (.readEvent c len)).map fun w => { s with wakeup := w }
  | .run d => s.run d
  | .work t n => s.work t n

/-! ## What a step does -/

variable {s s' : PoolWaits} {d d₀ : LoopId} {t : ThreadId}

@[simp]
theorem entering_wait (d e : LoopId) :
    (s.wait d).entering e = if e = d then false else s.entering e :=
  Function.update_apply _ _ _ _

@[simp]
theorem waiters_signal (t : ThreadId) (k k' : PoolCond) (ks : List PoolCond) (n : Nat) :
    (s.signal t k ks n).waiters k' =
      if k' = k then (s.waiters k).eraseIdx (n % (s.waiters k).length) else s.waiters k' :=
  Function.update_apply _ _ _ _

@[simp]
theorem toSignal_signal (t u : ThreadId) (k : PoolCond) (ks : List PoolCond) (n : Nat) :
    (s.signal t k ks n).toSignal u = if u = t then ks else s.toSignal u :=
  Function.update_apply _ _ _ _

@[simp]
theorem entering_go (d e : LoopId) (must : Bool) (w : Wakeup) :
    (s.go d must w).entering e = if e = d then must else s.entering e :=
  Function.update_apply _ _ _ _

@[simp]
theorem toSignal_proceed (t u : ThreadId) (w : Wakeup) : (s.proceed t w).toSignal u =
    if u = t ∧ s.dispatch.worker t = .cleared then [.idle, .maxNum] else s.toSignal u := by
  by_cases hc : s.dispatch.worker t = .cleared
  · simp [proceed, hc, Function.update_apply]
  · simp [proceed, hc]

/-- What a step of an event loop does: it begins to wait, or goes on. -/
theorem run_cases (h : s.run d = some s') :
    d ∉ s.waiters .idle ++ s.waiters .maxNum ∧
      ((s.entering d ∧ s' = s.wait d) ∨
        (¬s.entering d ∧ (∃ j, s.dispatch.loop d = .creating j 0) ∧ s.dispatch.pool.idleList = [] ∧
          s' = s.go d true s.wakeup) ∨
        ∃ must w, ¬s.entering d ∧ s.wakeup.run d = some w ∧ s' = s.go d must w ∧
          (must ↔ (∃ j, s.dispatch.loop d = .called j) ∧
            s.dispatch.pool.busyList.length = s.dispatch.pool.maxNum)) := by
  rw [run] at h
  by_cases hwait : d ∈ s.waiters .idle ++ s.waiters .maxNum
  · rw [if_pos hwait] at h
    cases h
  rw [if_neg hwait] at h
  refine ⟨hwait, ?_⟩
  by_cases hent : s.entering d
  · rw [if_pos hent] at h
    cases h
    exact .inl ⟨hent, rfl⟩
  rw [if_neg hent] at h
  refine .inr ?_
  split at h
  case h_1 j hl =>
    obtain ⟨w, hw, rfl⟩ := Option.map_eq_some_iff.1 h
    exact .inr ⟨_, w, hent, hw, rfl, by simp [hl]⟩
  case h_2 j hl =>
    split_ifs at h with hidle
    · cases h
      exact .inl ⟨hent, ⟨j, hl⟩, hidle, rfl⟩
    · obtain ⟨w, hw, rfl⟩ := Option.map_eq_some_iff.1 h
      exact .inr ⟨_, w, hent, hw, rfl, by simp [hl]⟩
  case h_3 hl _ =>
    obtain ⟨w, hw, rfl⟩ := Option.map_eq_some_iff.1 h
    exact .inr ⟨_, w, hent, hw, rfl, by simp, fun ⟨⟨j, hj⟩, _⟩ => (hl j hj).elim⟩

theorem work_cases {n : Nat} (h : s.work t n = some s') :
    (∃ k ks, s.toSignal t = k :: ks ∧ s' = s.signal t k ks n) ∨
      ∃ w, s.toSignal t = [] ∧ s.wakeup.work t = some w ∧ s' = s.proceed t w := by
  rw [work] at h
  split at h
  case h_1 k ks hsig =>
    cases h
    exact .inl ⟨k, ks, hsig, rfl⟩
  case h_2 hsig =>
    obtain ⟨w, hw, rfl⟩ := Option.map_eq_some_iff.1 h
    exact .inr ⟨w, hsig, hw, rfl⟩

/-- The calls and the workers take the same step, or none. -/
theorem step_wakeup {a : Action} (h : s.step owner a = some s') :
    s'.wakeup = s.wakeup ∨ s.wakeup.step owner a.base = some s'.wakeup ∧
      ∀ t n, a = .work t n → s.toSignal t = [] := by
  cases a with
  | readEvent c len =>
    obtain ⟨w, hw, rfl⟩ := Option.map_eq_some_iff.1 h
    exact .inr ⟨hw, by simp⟩
  | run d =>
    rcases (run_cases h).2 with ⟨-, rfl⟩ | ⟨-, -, -, rfl⟩ | ⟨must, w, -, hw, rfl, -⟩
    · exact .inl rfl
    · exact .inl rfl
    · exact .inr ⟨hw, by simp⟩
  | work t n =>
    rcases work_cases h with ⟨k, ks, -, rfl⟩ | ⟨w, hsig, hw, rfl⟩
    · exact .inl rfl
    · refine .inr ⟨hw, fun u m he => ?_⟩
      cases he
      exact hsig

/-! ## One event loop -/

/-- What holds where the loop `d₀` makes all calls: their numbers are in the order of the
    calls, though some may be missing. -/
structure OneLoop (d₀ : LoopId) (s : PoolWaits) : Prop where
  calls : s.wakeup.Inv fun _ => d₀
  single : s.dispatch.Single d₀
  ordered : ((s.dispatch.assigned ++ (s.dispatch.loop d₀).call.toList).map Call.id).Sublist
    (List.range s.dispatch.nextCall)

theorem ordered_step {d₀ : LoopId} {x x' : Dispatch} (h : x.Inv fun _ => d₀)
    (hsub : ((x.assigned ++ (x.loop d₀).call.toList).map Call.id).Sublist (List.range x.nextCall))
    {a : Dispatch.Action} (hs : x.step (fun _ => d₀) a = some x') :
    ((x'.assigned ++ (x'.loop d₀).call.toList).map Call.id).Sublist (List.range x'.nextCall) := by
  rcases Dispatch.step_cases (fun _ => d₀) hs with ⟨p, l, w, rfl, -, hl, -⟩ |
    ⟨c, len, -, -, hl, rfl⟩ | ⟨d, j, t, -, hl, -, rfl⟩ | ⟨t, -, rfl⟩ | ⟨t, -, rfl⟩
  · refine .trans (List.Sublist.map _ (List.Sublist.append_left ?_ _)) hsub
    change (l d₀).call.toList.Sublist _
    rcases hl d₀ with he | he
    · rw [he]
    · rw [he]
      exact List.nil_sublist _
  · rw [hl] at hsub
    rw [Dispatch.loop_submit, if_pos rfl]
    change ((x.assigned ++ [(⟨x.nextCall, c⟩ : Call)]).map Call.id).Sublist
      (List.range (x.nextCall + 1))
    rw [List.map_append, List.range_succ]
    refine .append ?_ (List.Sublist.refl _)
    simpa [LoopPhase.call] using hsub
  · obtain rfl := (h.loop_call d j (by rw [hl]; rfl)).1
    rw [hl] at hsub
    rw [Dispatch.loop_assign, if_pos rfl]
    simpa [Dispatch.assign, LoopPhase.call] using hsub
  · exact hsub
  · exact hsub

theorem OneLoop.step (h : s.OneLoop d₀) {a : Action} (hs : s.step (fun _ => d₀) a = some s') :
    s'.OneLoop d₀ := by
  rcases step_wakeup (fun _ => d₀) hs with he | ⟨hw, -⟩
  · obtain ⟨hcalls, hsingle, hordered⟩ := h
    rw [dispatch, ← he] at hsingle hordered
    exact ⟨he ▸ hcalls, hsingle, hordered⟩
  rcases h.calls.step_dispatch hw with he | hd
  · obtain ⟨hcalls, hsingle, hordered⟩ := h
    rw [dispatch, ← he] at hsingle hordered
    exact ⟨hcalls.step hw, hsingle, hordered⟩
  · exact ⟨h.calls.step hw, h.single.step h.calls.calls hd,
      ordered_step h.calls.calls h.ordered hd⟩

/-- Every call so far has been executed. -/
def AllExecuted (s : PoolWaits) : Prop :=
  ∀ n < s.dispatch.nextCall, ∃ j ∈ s.dispatch.executed, j.id = n

/-- A call that a worker has, or the loop is in, has not been executed. -/
theorem OneLoop.not_allExecuted (h : s.OneLoop d₀) {j : Call}
    (hj : j ∈ s.dispatch.assigned ++ (s.dispatch.loop d₀).call.toList)
    (hnot : j ∉ s.dispatch.executed) : ¬s.AllExecuted := by
  intro hall
  have hlt := List.mem_range.1 (h.ordered.subset (List.mem_map_of_mem hj))
  obtain ⟨k, hk, he⟩ := hall j.id hlt
  have hk' : k ∈ s.dispatch.assigned :=
    h.calls.calls.custody.ended_subset (List.mem_append_left _ hk)
  have hinj := List.inj_on_of_nodup_map (List.nodup_range.sublist h.ordered)
  exact hnot (hinj (List.mem_append_left _ hk') hj he ▸ hk)

/-! ## Waiting for ever -/

/-- The loop waits on `m_MaxNumCond`, or is about to. -/
def Waits (s : PoolWaits) (d : LoopId) : Prop := s.entering d ∨ d ∈ s.waiters .maxNum

/-- The loop `d₀` waits on `m_MaxNumCond`, or is about to, no worker is busy, and none has
    still to signal it. -/
structure Hung (d₀ : LoopId) (s : PoolWaits) : Prop where
  loop : ∃ j, s.dispatch.loop d₀ = .maxWait j
  waits : s.Waits d₀
  busyList : s.dispatch.pool.busyList = []
  toSignal : ∀ t, .maxNum ∉ s.toSignal t

/-- What the calls and the workers do then. -/
theorem Hung.dispatch_eq (h : s.Hung d₀) (hone : s.OneLoop d₀) {w : Wakeup}
    {a : Dispatch.Action} (hs : s.wakeup.step (fun _ => d₀) a = some w) (ha : a ≠ .run d₀) :
    w.dispatch.loop = s.dispatch.loop ∧ w.dispatch.pool.busyList = [] ∧
      w.dispatch.nextCall = s.dispatch.nextCall ∧ w.dispatch.executed = s.dispatch.executed := by
  rcases hone.calls.step_dispatch hs with he | hd
  · rw [he]
    exact ⟨rfl, h.busyList, rfl, rfl⟩
  obtain ⟨j, hl⟩ := h.loop
  cases a with
  | readEvent c len =>
    obtain ⟨hrest, -⟩ := Dispatch.readEventCb_cases (fun _ => d₀) hd
    rw [hl] at hrest
    cases hrest
  | run d => exact absurd (congrArg Dispatch.Action.run (hone.calls.calls.loop_eq hd)) ha
  | work t =>
    have hnot : ∀ u, u ∉ s.dispatch.pool.busyList := by simp [h.busyList]
    rcases Dispatch.work_spec hd with ⟨p, he, -⟩ | ⟨hw, -⟩ | ⟨hw, -⟩ | ⟨n, p, hp, he⟩
    · rw [he]
      exact ⟨rfl, h.busyList, rfl, rfl⟩
    · exact absurd (hone.single.mem_busyList t (.inl hw)) (hnot t)
    · exact absurd (hone.single.mem_busyList t (.inr hw)) (hnot t)
    · rw [he]
      exact ⟨rfl, (CThreadPool.busyList_deleteLoop hp).trans h.busyList, rfl, rfl⟩

/-- A loop that hangs does so for ever, and with one event loop no call is made or executed
    meanwhile. -/
theorem Hung.step (h : s.Hung d₀) (hone : s.OneLoop d₀) {a : Action}
    (hs : s.step (fun _ => d₀) a = some s') :
    s'.Hung d₀ ∧ s'.dispatch.nextCall = s.dispatch.nextCall ∧
      s'.dispatch.executed = s.dispatch.executed := by
  obtain ⟨j, hl⟩ := h.loop
  cases a with
  | readEvent c len =>
    obtain ⟨w, hw, rfl⟩ := Option.map_eq_some_iff.1 hs
    obtain ⟨hloop, hbusy, hnext, hexec⟩ := h.dispatch_eq hone hw (by simp)
    exact ⟨⟨⟨j, hloop ▸ hl⟩, h.waits, hbusy, h.toSignal⟩, hnext, hexec⟩
  | run d =>
    obtain ⟨hwait, ⟨-, rfl⟩ | ⟨-, ⟨k, hk⟩, -, rfl⟩ | ⟨must, w, hent, hw, rfl, -⟩⟩ := run_cases hs
    · refine ⟨⟨⟨j, hl⟩, ?_, h.busyList, h.toSignal⟩, rfl, rfl⟩
      by_cases hd : d₀ = d
      · subst hd
        exact .inr (by simp [wait, hl, LoopPhase.cond])
      · rw [Waits, entering_wait, if_neg hd]
        refine h.waits.imp_right fun hmem => ?_
        rw [wait]
        dsimp only
        split_ifs
        exacts [List.mem_append_left _ hmem, hmem]
    · have hd : d₀ ≠ d := by
        rintro rfl
        rw [hl] at hk
        cases hk
      refine ⟨⟨⟨j, hl⟩, ?_, h.busyList, h.toSignal⟩, rfl, rfl⟩
      exact h.waits.imp_left fun he => by rwa [entering_go, if_neg hd]
    · -- the loop that goes on is another one
      have hd : d₀ ≠ d := by
        rintro rfl
        rcases h.waits with he | hmem
        · exact hent he
        · exact hwait (List.mem_append_right _ hmem)
      obtain ⟨hloop, hbusy, hnext, hexec⟩ :=
        h.dispatch_eq hone (a := .run d) hw (by simpa using hd.symm)
      refine ⟨⟨⟨j, hloop ▸ hl⟩, ?_, hbusy, h.toSignal⟩, hnext, hexec⟩
      exact h.waits.imp_left fun he => by rwa [entering_go, if_neg hd]
  | work t n =>
    rcases work_cases hs with ⟨k, ks, hsig, rfl⟩ | ⟨w, hsig, hw, rfl⟩
    · -- the signal is one of `m_IdleCond`
      have hks : ∀ i ∈ k :: ks, i ≠ .maxNum := fun i hi he => h.toSignal t (hsig ▸ he ▸ hi)
      have hk : PoolCond.maxNum ≠ k := (hks k List.mem_cons_self).symm
      refine ⟨⟨⟨j, hl⟩, ?_, h.busyList, fun u => ?_⟩, rfl, rfl⟩
      · rw [Waits, waiters_signal, if_neg hk]
        exact h.waits
      · rw [toSignal_signal]
        split_ifs
        · exact fun hmem => hks _ (List.mem_cons_of_mem _ hmem) rfl
        · exact h.toSignal u
    · obtain ⟨hloop, hbusy, hnext, hexec⟩ :=
        h.dispatch_eq hone (a := .work t) hw (by simp)
      have hcleared : s.dispatch.worker t ≠ .cleared := fun hc => by
        have := hone.single.mem_busyList t (.inr hc)
        rw [h.busyList] at this
        cases this
      refine ⟨⟨⟨j, hloop ▸ hl⟩, h.waits, hbusy, fun u => ?_⟩, hnext, hexec⟩
      rw [toSignal_proceed, if_neg fun hu => hcleared hu.2]
      exact h.toSignal u

/-- A signal has been missed: a worker waits on `m_JobCond`, or the loop on `m_MaxNumCond`,
    or is about to, and what it waits for has happened. -/
def Missed (d₀ : LoopId) (s : PoolWaits) : Prop := (∃ t, s.wakeup.MissedJob t) ∨ s.Hung d₀

theorem OneLoop.missed_step (h : s.OneLoop d₀) (hm : s.Missed d₀) {a : Action}
    (hs : s.step (fun _ => d₀) a = some s') : s'.Missed d₀ := by
  rcases hm with ⟨t, hm⟩ | hh
  · refine .inl ⟨t, ?_⟩
    rcases step_wakeup (fun _ => d₀) hs with he | ⟨hw, -⟩
    · rwa [he]
    · exact (h.calls.missedJob_step hm (fun d j u hl => (h.single.holding d j u hl).2.1) hw).1
  · exact .inr (hh.step h hs).1

/-- What has been missed is missed for ever: some call is not executed. -/
theorem OneLoop.not_allExecuted_of_missed (h : s.OneLoop d₀) (hm : s.Missed d₀) :
    ¬s.AllExecuted := by
  have hcustody := h.calls.calls.custody
  rcases hm with ⟨t, -, hjob, -⟩ | hh
  · obtain ⟨j, hj⟩ := Option.isSome_iff_exists.1 hjob
    refine h.not_allExecuted (List.mem_append_left _ (hcustody.mem_given t j hj)) fun hmem => ?_
    exact hcustody.not_mem_ended t j hj (List.mem_append_left _ hmem)
  · obtain ⟨j, hl⟩ := hh.loop
    have hcall : (s.dispatch.loop d₀).call = some j := by rw [hl]; rfl
    refine h.not_allExecuted (j := j) (List.mem_append_right _ ?_) fun hmem => ?_
    · rw [hcall]
      exact List.mem_singleton_self j
    · exact (h.calls.calls.loop_call d₀ j hcall).2.2
        (hcustody.ended_subset (List.mem_append_left _ hmem))

end PoolWaits

end VsHttpServer
