import VsHttpServer.Dispatch

/-!
# Waking the workers

Between two jobs a worker is in the loop `while(m_Job == NULL)`, where it waits on its
`m_JobCond`. The test of `m_Job`, the wait, and in `SetJob` the store and the signal are
here steps of their own. The test holds no mutex, the wait the one that belongs to
`m_JobCond`, the store `m_VarMutex` and the signal none: only `m_WorkMutex`, which the
event loop holds all through `SetJob`, keeps two calls of `SetJob` for a worker apart.

* `Inv.step_dispatch`: the dispatch of the calls goes on as without these places;
* `Inv`: a worker that is about to wait has a job if and only if a signal has come
  since its test, or one is still to come;
* `noneLost_iff`: in a run, no worker waits with a job and no signal to come, if and only
  if none begins to wait after such a signal, unless there is another one to come;
* `Inv.takes`: a worker with a job can take it, unless it waits or is about to wait with
  no signal to come.
-/

namespace VsHttpServer

open Transition

/-- The place of a worker in the loop `while(m_Job == NULL)` of `CWorkerThread::Run`. -/
inductive WaitPhase
  /-- Before the test of `m_Job`. -/
  | testing
  /-- The test has found `NULL`: before `m_JobCond.wait` waits. -/
  | entering
  /-- In `m_JobCond.wait`, until a signal. -/
  | waiting
  /-- The test has found a job: before `m_WorkMutex.lock`. -/
  | leaving
  deriving DecidableEq

/-- The dispatch of the calls, with what goes on inside `SetJob` and the loop around
    `m_JobCond.wait`. -/
structure Wakeup where
  dispatch : Dispatch
  phase : ThreadId → WaitPhase
  /-- The worker in whose `SetJob` an event loop is, after `m_Job = job` and before
      `m_JobCond.signal`. -/
  setJob : LoopId → Option ThreadId
  /-- The event loop that holds `m_WorkMutex` of a worker in `SetJob`. -/
  workMutex : ThreadId → Option LoopId
  /-- `m_JobCond` of a worker was signalled since its last test of `m_Job`, and the
      worker was not waiting. -/
  missed : ThreadId → Bool

namespace Wakeup

/-- All workers before their first test. -/
def init (c : PoolNums) : Wakeup where
  dispatch := .init c
  phase _ := .testing
  setJob _ := none
  workMutex _ := none
  missed _ := false

variable (owner : ConnId → LoopId)

def setPhase (s : Wakeup) (t : ThreadId) (p : WaitPhase) : Wakeup :=
  { s with phase := Function.update s.phase t p }

/-- The test of `m_Job`. -/
def test (s : Wakeup) (t : ThreadId) : Wakeup :=
  { s with
    phase := Function.update s.phase t (if (s.dispatch.job t).isNone then .entering else .leaving)
    missed := Function.update s.missed t false }

/-- The section of `m_WorkMutex` of `t` in `CThreadPool::Run`, up to `m_Job = job`. -/
def store (s : Wakeup) (d : LoopId) (j : Call) (t : ThreadId) : Wakeup :=
  { s with
    dispatch := s.dispatch.assign d j t
    setJob := Function.update s.setJob d (some t)
    workMutex := Function.update s.workMutex t (some d) }

/-- `m_JobCond.signal` wakes the worker if it waits, and does nothing otherwise; then
    `m_WorkMutex` is unlocked. -/
def signal (s : Wakeup) (d : LoopId) (t : ThreadId) : Wakeup :=
  { s with
    phase := if s.phase t = .waiting then Function.update s.phase t .testing else s.phase
    setJob := Function.update s.setJob d none
    workMutex := Function.update s.workMutex t none
    missed := Function.update s.missed t (s.missed t || s.phase t ≠ .waiting) }

/-- The worker locks `m_WorkMutex` and runs its job. -/
def take (s : Wakeup) (t : ThreadId) : Wakeup :=
  { s with
    dispatch := s.dispatch.setWorker t .running
    phase := Function.update s.phase t .testing }

/-- The next step of `CThreadPool::Run` in the event loop `d`. -/
def run (s : Wakeup) (d : LoopId) : Option Wakeup :=
  match s.setJob d, s.dispatch.loop d with
  | some t, _ => some (s.signal d t)
  | none, .holding j t =>
    if s.dispatch.worker t = .blocked ∧ s.workMutex t = none then some (s.store d j t) else none
  | none, _ => (s.dispatch.run d).map fun p => { s with dispatch := p }

/-- The next step of `CWorkerThread::Run` in the worker `t`. -/
def work (s : Wakeup) (t : ThreadId) : Option Wakeup :=
  match s.dispatch.worker t, s.phase t with
  | .blocked, .testing => some (s.test t)
  | .blocked, .entering => some (s.setPhase t .waiting)
  | .blocked, .waiting => none
  | .blocked, .leaving => if s.workMutex t = none then some (s.take t) else none
  | _, _ => (s.dispatch.work t).map fun p => { s with dispatch := p }

/-- The actions are those of `Dispatch`. -/
def step (s : Wakeup) : Dispatch.Action → Option Wakeup
  | .readEvent c len =>
    if s.setJob (owner c) = none then
      (s.dispatch.readEventCb owner c len).map fun p => { s with dispatch := p }
    else none
  | .run d => s.run d
  | .work t => s.work t

/-! ## What a step does -/

variable {s s' : Wakeup}

@[simp]
theorem phase_test (t u : ThreadId) : (s.test t).phase u =
    if u = t then if (s.dispatch.job t).isNone then .entering else .leaving else s.phase u :=
  Function.update_apply _ _ _ _

@[simp]
theorem missed_test (t u : ThreadId) : (s.test t).missed u = if u = t then false else s.missed u :=
  Function.update_apply _ _ _ _

@[simp]
theorem phase_setPhase (t u : ThreadId) (p : WaitPhase) :
    (s.setPhase t p).phase u = if u = t then p else s.phase u :=
  Function.update_apply _ _ _ _

@[simp]
theorem setJob_store (d e : LoopId) (j : Call) (t : ThreadId) :
    (s.store d j t).setJob e = if e = d then some t else s.setJob e :=
  Function.update_apply _ _ _ _

@[simp]
theorem workMutex_store (d : LoopId) (j : Call) (t u : ThreadId) :
    (s.store d j t).workMutex u = if u = t then some d else s.workMutex u :=
  Function.update_apply _ _ _ _

@[simp]
theorem phase_signal (d : LoopId) (t u : ThreadId) : (s.signal d t).phase u =
    if u = t ∧ s.phase t = .waiting then .testing else s.phase u := by
  by_cases hw : s.phase t = .waiting
  · simp [signal, hw, Function.update_apply]
  · simp [signal, hw]

@[simp]
theorem workMutex_signal (d : LoopId) (t u : ThreadId) :
    (s.signal d t).workMutex u = if u = t then none else s.workMutex u :=
  Function.update_apply _ _ _ _

@[simp]
theorem missed_signal (d : LoopId) (t u : ThreadId) : (s.signal d t).missed u =
    if u = t then s.missed t || s.phase t ≠ .waiting else s.missed u :=
  Function.update_apply _ _ _ _

@[simp]
theorem phase_take (t u : ThreadId) :
    (s.take t).phase u = if u = t then .testing else s.phase u :=
  Function.update_apply _ _ _ _

@[simp]
theorem worker_take (t u : ThreadId) :
    (s.take t).dispatch.worker u = if u = t then .running else s.dispatch.worker u :=
  Function.update_apply _ _ _ _

/-- A step outside the two loops: the dispatch goes on, no job changes and no worker
    leaves the loop around its wait. -/
def Outside (s s' : Wakeup) : Prop :=
  ∃ p, s' = { s with dispatch := p } ∧ p.job = s.dispatch.job ∧
    ∀ t, s.dispatch.worker t = .blocked → p.worker t = .blocked

theorem run_cases {d : LoopId} (h : s.run d = some s') :
    (∃ t, s.setJob d = some t ∧ s' = s.signal d t) ∨
    (∃ j t, s.setJob d = none ∧ s.dispatch.loop d = .holding j t ∧
      s.dispatch.worker t = .blocked ∧ s.workMutex t = none ∧ s' = s.store d j t) ∨
    s.Outside s' ∧ s.dispatch.run d = some s'.dispatch := by
  rw [run] at h
  split at h
  case h_1 t hset =>
    cases h
    exact .inl ⟨t, hset, rfl⟩
  case h_2 j t hset hl =>
    obtain ⟨⟨hw, hm⟩, he⟩ := Option.ite_none_right_eq_some.1 h
    exact .inr (.inl ⟨j, t, hset, hl, hw, hm, (Option.some.inj he).symm⟩)
  case h_3 hset hl =>
    obtain ⟨p, hp, rfl⟩ := Option.map_eq_some_iff.1 h
    refine .inr (.inr ⟨⟨p, rfl, Dispatch.job_run hl hp, fun t ht => ?_⟩, hp⟩)
    rw [Dispatch.worker_run hp]
    exact ht

theorem work_cases {t : ThreadId} (h : s.work t = some s') :
    (s.dispatch.worker t = .blocked ∧
      (s.phase t = .testing ∧ s' = s.test t ∨
        s.phase t = .entering ∧ s' = s.setPhase t .waiting ∨
        s.phase t = .leaving ∧ s.workMutex t = none ∧ s' = s.take t)) ∨
    (s.dispatch.worker t = .running ∧ s' = { s with dispatch := s.dispatch.complete t }) ∨
    s.Outside s' ∧ s.dispatch.work t = some s'.dispatch := by
  rw [work] at h
  split at h
  case h_1 hw hp =>
    cases h
    exact .inl ⟨hw, .inl ⟨hp, rfl⟩⟩
  case h_2 hw hp =>
    cases h
    exact .inl ⟨hw, .inr (.inl ⟨hp, rfl⟩)⟩
  case h_3 => cases h
  case h_4 hw hp =>
    obtain ⟨hm, he⟩ := Option.ite_none_right_eq_some.1 h
    exact .inl ⟨hw, .inr (.inr ⟨hp, hm, (Option.some.inj he).symm⟩)⟩
  case h_5 hw _ _ _ =>
    obtain ⟨p, hp, rfl⟩ := Option.map_eq_some_iff.1 h
    by_cases hrun : s.dispatch.worker t = .running
    · rw [Dispatch.work, hrun] at hp
      cases hp
      exact .inr (.inl ⟨hrun, rfl⟩)
    · refine .inr (.inr ⟨⟨p, rfl, Dispatch.job_work hrun hp, fun u hu => ?_⟩, hp⟩)
      have hne : u ≠ t := by
        rintro rfl
        cases hphase : s.phase u <;> simp_all
      rw [Dispatch.worker_work hne hp]
      exact hu

theorem step_cases {a : Dispatch.Action} (h : s.step owner a = some s') :
    (∃ d t, s.setJob d = some t ∧ s' = s.signal d t) ∨
    (∃ d j t, a = .run d ∧ s.setJob d = none ∧ s.dispatch.loop d = .holding j t ∧
      s.dispatch.worker t = .blocked ∧ s.workMutex t = none ∧ s' = s.store d j t) ∨
    (∃ t, a = .work t ∧ s.dispatch.worker t = .blocked ∧
      (s.phase t = .testing ∧ s' = s.test t ∨
        s.phase t = .entering ∧ s' = s.setPhase t .waiting ∨
        s.phase t = .leaving ∧ s.workMutex t = none ∧ s' = s.take t)) ∨
    (∃ t, a = .work t ∧ s.dispatch.worker t = .running ∧
      s' = { s with dispatch := s.dispatch.complete t }) ∨
    s.Outside s' ∧ s.dispatch.step owner a = some s'.dispatch := by
  cases a with
  | readEvent c len =>
    obtain ⟨-, he⟩ := Option.ite_none_right_eq_some.1 h
    obtain ⟨p, hp, rfl⟩ := Option.map_eq_some_iff.1 he
    refine .inr (.inr (.inr (.inr ⟨?_, hp⟩)))
    obtain ⟨-, rfl | ⟨-, rfl⟩⟩ := Dispatch.readEventCb_cases owner hp
    · exact ⟨_, rfl, rfl, fun _ => id⟩
    · exact ⟨_, rfl, rfl, fun _ => id⟩
  | run d =>
    rcases run_cases h with ⟨t, ht⟩ | ⟨j, t, ht⟩ | ho
    · exact .inl ⟨d, t, ht⟩
    · exact .inr (.inl ⟨d, j, t, rfl, ht⟩)
    · exact .inr (.inr (.inr (.inr ho)))
  | work t =>
    rcases work_cases h with ht | ht | ho
    · exact .inr (.inr (.inl ⟨t, rfl, ht⟩))
    · exact .inr (.inr (.inr (.inl ⟨t, rfl, ht⟩)))
    · exact .inr (.inr (.inr (.inr ho)))

/-! ## The invariant -/

/-- Who holds `m_WorkMutex`, and what a worker has missed. -/
structure Inv (s : Wakeup) : Prop where
  calls : s.dispatch.Inv owner
  paired : Paired s.setJob s.workMutex
  locked : ∀ t, (s.workMutex t).isSome → s.dispatch.worker t = .blocked ∧ (s.dispatch.job t).isSome
  blocked : ∀ t, s.phase t ≠ .testing → s.dispatch.worker t = .blocked
  entering : ∀ t, s.phase t = .entering →
    ((s.dispatch.job t).isSome ↔ s.missed t ∨ (s.workMutex t).isSome)
  leaving : ∀ t, s.phase t = .leaving → (s.dispatch.job t).isSome

variable {owner}

theorem init_inv (c : PoolNums) : (init c).Inv owner where
  calls := Dispatch.init_inv c
  paired _ _ := ⟨nofun, nofun⟩
  locked _ := nofun
  blocked _ h := absurd rfl h
  entering _ := nofun
  leaving _ := nofun

theorem Inv.outside (h : s.Inv owner) (hs : s.Outside s') (hcalls : s'.dispatch.Inv owner) :
    s'.Inv owner := by
  obtain ⟨p, rfl, hjob, hw⟩ := hs
  refine ⟨hcalls, h.paired, fun t ht => ?_, fun t ht => hw t (h.blocked t ht), fun t ht => ?_,
    fun t ht => ?_⟩
  · exact ⟨hw t (h.locked t ht).1, hjob ▸ (h.locked t ht).2⟩
  · exact hjob ▸ h.entering t ht
  · exact hjob ▸ h.leaving t ht

theorem Inv.store (h : s.Inv owner) {d : LoopId} {j : Call} {t : ThreadId}
    (hset : s.setJob d = none) (hl : s.dispatch.loop d = .holding j t)
    (hw : s.dispatch.worker t = .blocked) (hm : s.workMutex t = none) :
    (s.store d j t).Inv owner := by
  have hjob : ∀ u, (s.dispatch.job u).isSome → ((s.store d j t).dispatch.job u).isSome := by
    intro u hu
    change ((s.dispatch.assign d j t).job u).isSome
    rw [Dispatch.job_assign]
    split_ifs
    exacts [rfl, hu]
  have hother : ∀ u, u ≠ t → (s.store d j t).dispatch.job u = s.dispatch.job u := fun u hu =>
    (Dispatch.job_assign d j t u).trans (if_neg hu)
  have hself : (s.store d j t).dispatch.job t = some j :=
    (Dispatch.job_assign d j t t).trans (if_pos rfl)
  refine ⟨h.calls.assign hl hw, h.paired.join hset hm, fun u hu => ?_, h.blocked, fun u hu => ?_,
    fun u hu => hjob u (h.leaving u hu)⟩
  · rw [workMutex_store] at hu
    split_ifs at hu with hut
    · rw [hut, hself]
      exact ⟨hw, rfl⟩
    · exact ⟨(h.locked u hu).1, hjob u (h.locked u hu).2⟩
  · rw [workMutex_store]
    split_ifs with hut
    · rw [hut, hself]
      simp
    · rw [hother u hut]
      exact h.entering u hu

theorem Inv.signal (h : s.Inv owner) {d : LoopId} {t : ThreadId} (hset : s.setJob d = some t) :
    (s.signal d t).Inv owner := by
  have hm : s.workMutex t = some d := (h.paired d t).1 hset
  have hjob : (s.dispatch.job t).isSome := (h.locked t (by rw [hm]; rfl)).2
  have hphase : ∀ u p, p ≠ .testing → (s.signal d t).phase u = p → s.phase u = p := by
    intro u p hp hu
    rw [phase_signal] at hu
    split_ifs at hu
    · exact absurd hu.symm hp
    · exact hu
  refine ⟨h.calls, h.paired.part hset, fun u hu => ?_, fun u hu => ?_, fun u hu => ?_,
    fun u hu => ?_⟩
  · rw [workMutex_signal] at hu
    split_ifs at hu
    · cases hu
    · exact h.locked u hu
  · exact h.blocked u (hphase u _ hu rfl ▸ hu)
  · have hent := hphase u .entering nofun hu
    rw [missed_signal, workMutex_signal]
    split_ifs with hut
    · -- a worker that has not begun to wait misses the signal
      subst hut
      simp [hent, hjob, Wakeup.signal]
    · exact h.entering u hent
  · exact h.leaving u (hphase u .leaving nofun hu)

theorem Inv.test (h : s.Inv owner) {t : ThreadId} (hw : s.dispatch.worker t = .blocked) :
    (s.test t).Inv owner := by
  refine ⟨h.calls, h.paired, h.locked, fun u hu => ?_, fun u hu => ?_, fun u hu => ?_⟩
  · by_cases hut : u = t
    · exact hut ▸ hw
    · rw [phase_test, if_neg hut] at hu
      exact h.blocked u hu
  · rw [missed_test]
    by_cases hut : u = t
    · -- no signal is to come when the test finds `NULL`
      subst hut
      have hnone : s.dispatch.job u = none := by
        rw [phase_test, if_pos rfl] at hu
        split_ifs at hu with hn
        exact Option.isNone_iff_eq_none.1 hn
      have hm := mt (h.locked u) (by rw [hnone]; simp)
      simp [Wakeup.test, hnone, hm]
    · rw [phase_test, if_neg hut] at hu
      rw [if_neg hut]
      exact h.entering u hu
  · rw [phase_test] at hu
    split_ifs at hu with hut hn
    · rw [hut]
      exact Option.ne_none_iff_isSome.1 (Option.isNone_iff_eq_none.not.1 hn)
    · exact h.leaving u hu

theorem Inv.wait (h : s.Inv owner) {t : ThreadId} (hw : s.dispatch.worker t = .blocked) :
    (s.setPhase t .waiting).Inv owner := by
  refine ⟨h.calls, h.paired, h.locked, fun u hu => ?_, fun u hu => ?_, fun u hu => ?_⟩
  all_goals rw [phase_setPhase] at hu; split_ifs at hu with hut
  · exact hut ▸ hw
  · exact h.blocked u hu
  · exact h.entering u hu
  · exact h.leaving u hu

theorem Inv.work_take (h : s.Inv owner) {t : ThreadId} (hw : s.dispatch.worker t = .blocked)
    (hp : s.phase t = .leaving) : s.dispatch.work t = some (s.take t).dispatch := by
  rw [Dispatch.work, hw]
  exact if_pos (h.leaving t hp)

theorem Inv.take (h : s.Inv owner) {t : ThreadId} (hw : s.dispatch.worker t = .blocked)
    (hp : s.phase t = .leaving) (hm : s.workMutex t = none) : (s.take t).Inv owner := by
  refine ⟨h.calls.step (a := .work t) (h.work_take hw hp), h.paired, fun u hu => ?_,
    fun u hu => ?_, fun u hu => ?_, fun u hu => ?_⟩
  · have hut : u ≠ t := by
      rintro rfl
      rw [Wakeup.take, hm] at hu
      cases hu
    rw [worker_take, if_neg hut]
    exact h.locked u hu
  all_goals rw [phase_take] at hu; split_ifs at hu with hut
  · exact absurd rfl hu
  · rw [worker_take, if_neg hut]
    exact h.blocked u hu
  · exact h.entering u hu
  · exact h.leaving u hu

theorem Inv.complete (h : s.Inv owner) {t : ThreadId} (hw : s.dispatch.worker t = .running) :
    Inv owner { s with dispatch := s.dispatch.complete t } := by
  have hne : ∀ u, s.dispatch.worker u = .blocked → u ≠ t := by
    rintro u hu rfl
    rw [hw] at hu
    cases hu
  refine ⟨h.calls.complete t, h.paired, fun u hu => ?_, fun u hu => ?_, fun u hu => ?_,
    fun u hu => ?_⟩
  · have hut := hne u (h.locked u hu).1
    rw [Dispatch.worker_complete, Dispatch.job_complete, if_neg hut, if_neg hut]
    exact h.locked u hu
  · have hut := hne u (h.blocked u hu)
    rw [Dispatch.worker_complete, if_neg hut]
    exact h.blocked u hu
  · have hut := hne u (h.blocked u (by rw [hu]; nofun))
    rw [Dispatch.job_complete, if_neg hut]
    exact h.entering u hu
  · have hut := hne u (h.blocked u (by rw [hu]; nofun))
    rw [Dispatch.job_complete, if_neg hut]
    exact h.leaving u hu

/-- The dispatch of the calls takes the same step, or none. -/
theorem Inv.step_dispatch (h : s.Inv owner) {a : Dispatch.Action} (hs : s.step owner a = some s') :
    s'.dispatch = s.dispatch ∨ s.dispatch.step owner a = some s'.dispatch := by
  rcases step_cases owner hs with ⟨d, t, -, rfl⟩ | ⟨d, j, t, rfl, -, hl, hw, -, rfl⟩ |
    ⟨t, rfl, hw, ⟨-, rfl⟩ | ⟨-, rfl⟩ | ⟨hp, -, rfl⟩⟩ | ⟨t, rfl, hw, rfl⟩ | ⟨-, hd⟩
  · exact .inl rfl
  · refine .inr ?_
    rw [Dispatch.step, Dispatch.run_holding hl, if_pos hw]
    rfl
  · exact .inl rfl
  · exact .inl rfl
  · exact .inr (h.work_take hw hp)
  · refine .inr ?_
    rw [Dispatch.step, Dispatch.work, hw]
  · exact .inr hd

theorem Inv.step (h : s.Inv owner) {a : Dispatch.Action} (hs : s.step owner a = some s') :
    s'.Inv owner := by
  rcases step_cases owner hs with ⟨d, t, hset, rfl⟩ | ⟨d, j, t, -, hset, hl, hw, hm, rfl⟩ |
    ⟨t, -, hw, ⟨-, rfl⟩ | ⟨-, rfl⟩ | ⟨hp, hm, rfl⟩⟩ | ⟨t, -, hw, rfl⟩ | ⟨ho, hd⟩
  exacts [h.signal hset, h.store hset hl hw hm, h.test hw, h.wait hw, h.take hw hp hm,
    h.complete hw, h.outside ho (h.calls.step hd)]

/-! ## Lost wake-ups -/

/-- The worker waits with a job, and no `SetJob` that has stored it is going to signal. -/
def Lost (s : Wakeup) (t : ThreadId) : Prop :=
  s.phase t = .waiting ∧ (s.dispatch.job t).isSome ∧ ∀ d, s.setJob d ≠ some t

def NoneLost (s : Wakeup) : Prop := ∀ t, ¬s.Lost t

/-- A worker begins to wait only if no signal has come since its test of `m_Job`, or
    another one is still to come. -/
def WaitsInTime (s : Wakeup) (a : Dispatch.Action) : Prop :=
  ∀ t, a = .work t → s.phase t = .entering → s.missed t = false ∨ ∃ d, s.setJob d = some t

/-- A loop that was in no `SetJob` of `u` before the step was not going to signal `u`. -/
theorem setJob_ne {d : LoopId} {u : ThreadId} {x : Option ThreadId}
    (hs' : s'.setJob = Function.update s.setJob d x) (hd : s.setJob d ≠ some u)
    (hno : ∀ e, s'.setJob e ≠ some u) (e : LoopId) : s.setJob e ≠ some u := by
  by_cases he : e = d
  · exact he ▸ hd
  · have := hno e
    rwa [hs', Function.update_of_ne he] at this

/-- The signal wakes its worker, and is none of another's. -/
theorem NoneLost.signal (h : s.NoneLost) {d : LoopId} {t : ThreadId} (hset : s.setJob d = some t) :
    (s.signal d t).NoneLost := by
  rintro u ⟨hwait, hsome, hno⟩
  rw [phase_signal] at hwait
  split_ifs at hwait with hu
  have hut : u ≠ t := fun he => hu ⟨he, he ▸ hwait⟩
  refine h u ⟨hwait, hsome, setJob_ne rfl ?_ hno⟩
  rw [hset]
  exact fun he => hut (Option.some.inj he).symm

/-- The signal of the job that is stored is still to come. -/
theorem NoneLost.store (h : s.NoneLost) {d : LoopId} (hset : s.setJob d = none) (j : Call)
    (t : ThreadId) : (s.store d j t).NoneLost := by
  rintro u ⟨hwait, hsome, hno⟩
  have hut : u ≠ t := by
    rintro rfl
    exact hno d (by rw [setJob_store, if_pos rfl])
  rw [Wakeup.store, Dispatch.job_assign, if_neg hut] at hsome
  refine h u ⟨hwait, hsome, setJob_ne rfl ?_ hno⟩
  rw [hset]
  nofun

/-- A worker that begins to wait in time has a job only with a signal to come. -/
theorem Inv.noneLost_wait (h : s.Inv owner) (hlost : s.NoneLost) {t : ThreadId}
    (hp : s.phase t = .entering) (hok : s.missed t = false ∨ ∃ d, s.setJob d = some t) :
    (s.setPhase t .waiting).NoneLost := by
  rintro u ⟨hwait, hsome, hno⟩
  rw [phase_setPhase] at hwait
  split_ifs at hwait with hut
  · subst hut
    rcases hok with hnot | ⟨d, hd⟩
    · rcases (h.entering u hp).1 hsome with hmiss | hm
      · rw [hnot] at hmiss
        cases hmiss
      · obtain ⟨d, hd⟩ := Option.isSome_iff_exists.1 hm
        exact hno d ((h.paired d u).2 hd)
    · exact hno d hd
  · exact hlost u ⟨hwait, hsome, hno⟩

theorem Inv.noneLost_step (h : s.Inv owner) (hlost : s.NoneLost) {a : Dispatch.Action}
    (hok : s.WaitsInTime a) (hs : s.step owner a = some s') : s'.NoneLost := by
  rcases step_cases owner hs with ⟨d, t, hset, rfl⟩ | ⟨d, j, t, -, hset, -, -, -, rfl⟩ |
    ⟨t, rfl, -, ⟨-, rfl⟩ | ⟨hp, rfl⟩ | ⟨-, -, rfl⟩⟩ | ⟨t, -, -, rfl⟩ | ⟨⟨p, rfl, hjob, -⟩, -⟩
  · exact hlost.signal hset
  · exact hlost.store hset j t
  · rintro u ⟨hwait, hsome, hno⟩
    rw [phase_test] at hwait
    split_ifs at hwait
    exact hlost u ⟨hwait, hsome, hno⟩
  · exact h.noneLost_wait hlost hp (hok t rfl hp)
  · rintro u ⟨hwait, hsome, hno⟩
    rw [phase_take] at hwait
    split_ifs at hwait
    exact hlost u ⟨hwait, hsome, hno⟩
  · rintro u ⟨hwait, hsome, hno⟩
    rw [Dispatch.job_complete] at hsome
    split_ifs at hsome
    · cases hsome
    · exact hlost u ⟨hwait, hsome, hno⟩
  · rintro u ⟨hwait, hsome, hno⟩
    exact hlost u ⟨hwait, hjob ▸ hsome, hno⟩

/-- In a run, no worker waits on `m_JobCond` with a job and no signal to come, in every
    state, if and only if none begins to wait after a signal has come since its test of
    `m_Job`, unless another one is still to come. -/
theorem noneLost_iff (owner : ConnId → LoopId) (c : PoolNums) (as : List Dispatch.Action) :
    Along (step owner) WaitsInTime (init c) as ↔ Throughout (step owner) NoneLost (init c) as := by
  refine along_iff_throughout (I := fun s => s.Inv owner ∧ s.NoneLost)
    (fun s a s' h hok hs => ⟨h.1.step hs, h.1.noneLost_step h.2 hok hs⟩) (fun s h => h.2)
    (fun s a s' h hnot hs hlost => ?_) ⟨init_inv c, fun t => nofun⟩
  -- a worker that begins to wait after the signal is lost at once
  simp only [WaitsInTime, not_forall, not_or, not_exists] at hnot
  obtain ⟨t, rfl, hp, hmiss, hno⟩ := hnot
  have hw := h.1.blocked t (by rw [hp]; nofun)
  have hjob := (h.1.entering t hp).2 (.inl (Bool.not_eq_false _ ▸ hmiss))
  rw [step, work, hw, hp] at hs
  cases hs
  exact hlost t ⟨by simp, hjob, hno⟩

/-- The worker tests `m_Job` before the job is stored, and waits after the signal. -/
theorem not_noneLost :
    ∃ s, exec (step id) (init .default) ([.work 0, .readEvent 0 1] ++ List.replicate 6 (.run 0) ++
        [.work 0]) = some s ∧
      s.Lost 0 ∧ 0 ∈ s.dispatch.pool.busyList ∧ s.work 0 = none := by
  obtain ⟨s, hs, he⟩ := Option.map_eq_some_iff.1 (show
    (exec (step id) (init .default) ([.work 0, .readEvent 0 1] ++ List.replicate 6 (.run 0) ++
      [.work 0])).map (fun s => (s.phase 0, s.dispatch.job 0, s.workMutex 0,
        s.dispatch.pool.busyList, (s.work 0).isNone)) =
      some (.waiting, some ⟨0, 0⟩, none, [0], true) by decide)
  simp only [Prod.mk.injEq] at he
  obtain ⟨hp, hj, hm, hb, hw⟩ := he
  have hinv : s.Inv id := exec_inv (fun _ _ _ h => h.step) (init_inv _) hs
  refine ⟨s, hs, ⟨hp, by rw [hj]; rfl, fun d hd => ?_⟩, by simp [hb], Option.isNone_iff_eq_none.1 hw⟩
  rw [hinv.paired d 0, hm] at hd
  cases hd

/-! ## The others -/

/-- Some steps lead to a state where the worker runs the job it now has. -/
def Takes (owner : ConnId → LoopId) (s : Wakeup) (t : ThreadId) : Prop :=
  ∃ as s', exec (step owner) s as = some s' ∧ s'.dispatch.worker t = .running ∧
    s'.dispatch.job t = s.dispatch.job t

variable {t : ThreadId}

theorem Takes.cons {a : Dispatch.Action} (hs : s.step owner a = some s')
    (hjob : s'.dispatch.job t = s.dispatch.job t) (h : Takes owner s' t) : Takes owner s t := by
  obtain ⟨as, s'', he, hw, hj⟩ := h
  exact ⟨a :: as, s'', by rw [exec, hs]; exact he, hw, hj.trans hjob⟩

theorem takes_of_leaving (hw : s.dispatch.worker t = .blocked) (hm : s.workMutex t = none)
    (hp : s.phase t = .leaving) : Takes owner s t := by
  refine ⟨[.work t], s.take t, ?_, by simp, rfl⟩
  rw [exec, step, work, hw, hp]
  simp [hm, exec]

theorem takes_of_testing (hw : s.dispatch.worker t = .blocked) (hm : s.workMutex t = none)
    (hjob : (s.dispatch.job t).isSome) (hp : s.phase t = .testing) : Takes owner s t := by
  have hs : s.step owner (.work t) = some (s.test t) := by
    rw [step, work, hw, hp]
  refine .cons hs rfl (takes_of_leaving hw hm ?_)
  rw [phase_test, if_pos rfl, if_neg]
  simpa [Option.isNone_iff_eq_none, Option.isSome_iff_ne_none] using hjob

/-- The signal to come lets every worker that is not about to wait take its job. -/
theorem takes_of_setJob {d : LoopId} (hw : s.dispatch.worker t = .blocked)
    (hset : s.setJob d = some t) (hjob : (s.dispatch.job t).isSome) (hp : s.phase t ≠ .entering) :
    Takes owner s t := by
  have hs : s.step owner (.run d) = some (s.signal d t) := by
    rw [step, run, hset]
  have hm : (s.signal d t).workMutex t = none := by simp
  refine .cons hs rfl ?_
  cases hphase : s.phase t with
  | testing => exact takes_of_testing hw hm hjob (by simp [hphase])
  | entering => exact absurd hphase hp
  | waiting => exact takes_of_testing hw hm hjob (by simp [hphase])
  | leaving => exact takes_of_leaving hw hm (by simp [hphase])

/-- A worker with a job can take it, unless it waits or is about to wait with no signal
    to come. -/
theorem Inv.takes (h : s.Inv owner) (hw : s.dispatch.worker t = .blocked)
    (hjob : (s.dispatch.job t).isSome)
    (hsignal : s.phase t = .waiting ∨ s.phase t = .entering → ∃ d, s.setJob d = some t) :
    Takes owner s t := by
  have hfree : (∀ d, s.setJob d ≠ some t) → s.workMutex t = none := by
    intro hno
    by_contra hm
    obtain ⟨d, hd⟩ := Option.ne_none_iff_exists'.1 hm
    exact hno d ((h.paired d t).2 hd)
  by_cases hset : ∃ d, s.setJob d = some t
  · obtain ⟨d, hd⟩ := hset
    by_cases hp : s.phase t = .entering
    · -- it begins to wait before the signal
      have hs : s.step owner (.work t) = some (s.setPhase t .waiting) := by
        rw [Wakeup.step, work, hw, hp]
      exact .cons hs rfl (takes_of_setJob hw hd hjob (by simp))
    · exact takes_of_setJob hw hd hjob hp
  · have hm := hfree (not_exists.1 hset)
    cases hp : s.phase t with
    | testing => exact takes_of_testing hw hm hjob hp
    | entering => exact absurd (hsignal (.inr hp)) hset
    | waiting => exact absurd (hsignal (.inl hp)) hset
    | leaving => exact takes_of_leaving hw hm hp

end Wakeup

end VsHttpServer
