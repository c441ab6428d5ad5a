import VsHttpServer.Custody
import VsHttpServer.Pool.Worker

/-!
# Read events and the workers

Several event-loop threads submit connections to the pool of workers at the same
time. A step is one section of the code between two operations on mutexes: of
`ReadEventCb` and `CThreadPool::Run` in a loop, or of `CWorkerThread::Run` in a
worker. `GetIdleThread` returns the worker at the front of the idle list, which it
leaves there, and `Run` takes it from the list in a later section, under the
worker's `m_WorkMutex`.

A call of `Run` has a number, and is at most once given to a worker. The lists
`assigned`, `executed` and `replaced` record what has become of the calls.

* `Inv`: every call that was given to a worker was executed, or replaced before
  that, or is the job of exactly one worker;
* `allKept_iff`: none is replaced in a run, and no worker is twice in the busy list, if
  and only if `Run` never takes a worker that is busy by then;
* `exclusive_iff`: no two workers have the same connection in a run, and no bytes
  arrive in the buffer of one that a worker has, if and only if all earlier calls
  for a connection are over whenever bytes arrive for it.
-/

namespace VsHttpServer

open Transition

/-- A `Conn`, which is a `CJob`. -/
abbrev ConnId := Nat

/-- An event-loop thread. -/
abbrev LoopId := Nat

/-- A call of `CThreadPool::Run`, numbered, with the connection it submits. -/
structure Call where
  id : Nat
  conn : ConnId
  deriving DecidableEq

/-- The place of an event-loop thread in `ReadEventCb`. -/
inductive LoopPhase
  | atRest
  /-- Before the test of `GetBusyNum`. -/
  | called (j : Call)
  /-- In `m_MaxNumCond.wait()`. -/
  | maxWait (j : Call)
  /-- Before the growth step, whose reads of the sizes, without a lock, are taken as of one
      moment. -/
  | growing (j : Call)
  /-- In `CreateIdleThread`, with `n` more threads to make, or before the loop of
      `GetIdleThread`. -/
  | creating (j : Call) (n : Nat)
  /-- Before the section of `m_IdleMutex` in `GetIdleThread`. -/
  | fetching (j : Call)
  /-- Before the section of `m_WorkMutex`, with the worker that `GetIdleThread` returned. -/
  | holding (j : Call) (t : ThreadId)
  deriving DecidableEq

/-- The call in progress. -/
def LoopPhase.call : LoopPhase → Option Call
  | .atRest => none
  | .called j => some j
  | .maxWait j => some j
  | .growing j => some j
  | .creating j _ => some j
  | .fetching j => some j
  | .holding j _ => some j

/-- The place of a worker in the loop of `CWorkerThread::Run`. It has locked its
    `m_WorkMutex` everywhere but at `blocked`. -/
inductive WorkerPhase
  /-- Before it has locked `m_WorkMutex`. -/
  | blocked
  /-- In `m_Job->Run`. -/
  | running
  /-- After `m_Job = NULL`. -/
  | cleared
  /-- After `MoveToIdleList`. -/
  | released
  /-- Before the section of `DeleteIdleThread(num)`. -/
  | deleting (num : Int)
  deriving DecidableEq

/-- The places where a worker may have a job. -/
def WorkerPhase.HasJob : WorkerPhase → Prop
  | .blocked | .running => True
  | .cleared | .released | .deleting _ => False

structure Dispatch where
  pool : CThreadPool
  /-- `m_Job` of a worker. -/
  job : ThreadId → Option Call
  worker : ThreadId → WorkerPhase
  loop : LoopId → LoopPhase
  /-- The number of the next call of `Run`. -/
  nextCall : Nat
  /-- The calls that have returned with a worker. -/
  assigned : List Call
  /-- Those whose job has run. -/
  executed : List Call
  /-- Those whose job was `m_Job` of a worker when `SetJob` installed another. -/
  replaced : List Call
  /-- Bytes arrived for a connection while it was the job of a worker. -/
  overwritten : Bool

namespace Dispatch

/-- The event loops at rest, and the pool with the numbers `c`. -/
def init (c : PoolNums) : Dispatch where
  pool := (WorkerPool.init c).pool
  job _ := none
  worker _ := .blocked
  loop _ := .atRest
  nextCall := 0
  assigned := []
  executed := []
  replaced := []
  overwritten := false

variable (owner : ConnId → LoopId)

/-- A busy worker has the connection `c`. -/
def isHeld (s : Dispatch) (c : ConnId) : Bool :=
  s.pool.busyList.any fun t => (s.job t).any fun j => j.conn = c

def setLoop (s : Dispatch) (d : LoopId) (l : LoopPhase) : Dispatch :=
  { s with loop := Function.update s.loop d l }

def setWorker (s : Dispatch) (t : ThreadId) (w : WorkerPhase) : Dispatch :=
  { s with worker := Function.update s.worker t w }

/-- `ReadEventCb` of `c` when bytes have arrived, up to the call of `Run`: they are
    now in `m_read_buf`. -/
def submit (s : Dispatch) (c : ConnId) : Dispatch :=
  { s with
    loop := Function.update s.loop (owner c) (.called ⟨s.nextCall, c⟩)
    nextCall := s.nextCall + 1
    overwritten := s.overwritten || s.isHeld c }

/-- `ReadEventCb` of `c` in its event-loop thread, with `len` bytes. -/
def readEventCb (s : Dispatch) (c : ConnId) (len : Nat) : Option Dispatch :=
  if s.loop (owner c) = .atRest then if len = 0 then some s else some (s.submit owner c) else none

/-- The section of `m_WorkMutex` of `t` in `CThreadPool::Run`: `MoveToBusyList` and
    `SetJob`. -/
def assign (s : Dispatch) (d : LoopId) (j : Call) (t : ThreadId) : Dispatch :=
  { s with
    pool := s.pool.moveToBusyList t
    job := Function.update s.job t (some j)
    loop := Function.update s.loop d .atRest
    assigned := s.assigned ++ [j]
    replaced := s.replaced ++ (s.job t).toList }

/-- The next section of `CThreadPool::Run` in the event-loop thread `d`; `none` where
    it waits. -/
def run (s : Dispatch) (d : LoopId) : Option Dispatch :=
  match s.loop d with
  | .atRest => none
  | .called j =>
    some (s.setLoop d (if s.pool.busyList.length = s.pool.maxNum then .maxWait j else .growing j))
  | .maxWait j => some (s.setLoop d (.growing j))
  | .growing j => some (s.setLoop d (.creating j s.pool.growNum))
  | .creating j (n + 1) =>
    some ({ s with pool := CThreadPool.createLoop 1 s.pool }.setLoop d (.creating j n))
  | .creating j 0 => if s.pool.idleList = [] then none else some (s.setLoop d (.fetching j))
  | .fetching j =>
    match s.pool.idleList with
    -- `GetIdleThread` returns `NULL`, and `Run` gives up the job
    | [] => some (s.setLoop d .atRest)
    | t :: _ => some (s.setLoop d (.holding j t))
  | .holding j t => if s.worker t = .blocked then some (s.assign d j t) else none

/-- The end of `m_Job->Run`, and `m_Job = NULL`. -/
def complete (s : Dispatch) (t : ThreadId) : Dispatch :=
  { s with
    job := Function.update s.job t none
    worker := Function.update s.worker t .cleared
    executed := s.executed ++ (s.job t).toList }

/-- `MoveToIdleList` in `CWorkerThread::Run`. -/
def release (s : Dispatch) (t : ThreadId) : Dispatch :=
  { s with
    pool := s.pool.moveToIdleList t
    worker := Function.update s.worker t .released }

/-- The next section of `CWorkerThread::Run` in the worker `t`; `none` where it waits,
    and where `DeleteIdleThread` uses a thread of an empty idle list. -/
def work (s : Dispatch) (t : ThreadId) : Option Dispatch :=
  match s.worker t with
  | .blocked => if (s.job t).isSome then some (s.setWorker t .running) else none
  | .running => some (s.complete t)
  | .cleared => some (s.release t)
  | .released =>
    some (s.setWorker t (if s.pool.isCrowded then .deleting s.pool.surplus else .blocked))
  | .deleting num =>
    (s.pool.deleteIdleThread num).map fun p => { s with pool := p }.setWorker t .blocked

inductive Action
  | readEvent (c : ConnId) (len : Nat)
  | run (d : LoopId)
  | work (t : ThreadId)

def step (s : Dispatch) : Action → Option Dispatch
  | .readEvent c len => s.readEventCb owner c len
  | .run d => s.run d
  | .work t => s.work t

/-! ## What a step does -/

variable {s s' : Dispatch}

@[simp]
theorem loop_setLoop (d e : LoopId) (l : LoopPhase) : (s.setLoop d l).loop e =
    if e = d then l else s.loop e :=
  Function.update_apply _ _ _ _

@[simp]
theorem loop_submit (c : ConnId) (d : LoopId) : (s.submit owner c).loop d =
    if d = owner c then .called ⟨s.nextCall, c⟩ else s.loop d :=
  Function.update_apply _ _ _ _

@[simp]
theorem loop_assign (d e : LoopId) (j : Call) (t : ThreadId) : (s.assign d j t).loop e =
    if e = d then .atRest else s.loop e :=
  Function.update_apply _ _ _ _

@[simp]
theorem job_assign (d : LoopId) (j : Call) (t u : ThreadId) : (s.assign d j t).job u =
    if u = t then some j else s.job u :=
  Function.update_apply _ _ _ _

@[simp]
theorem job_complete (t u : ThreadId) : (s.complete t).job u = if u = t then none else s.job u :=
  Function.update_apply _ _ _ _

@[simp]
theorem worker_complete (t u : ThreadId) :
    (s.complete t).worker u = if u = t then .cleared else s.worker u :=
  Function.update_apply _ _ _ _

@[simp]
theorem worker_release (t u : ThreadId) :
    (s.release t).worker u = if u = t then .released else s.worker u :=
  Function.update_apply _ _ _ _

/-- A step that gives no job to a worker, takes none from one, and starts no call. -/
def Internal (s s' : Dispatch) : Prop :=
  ∃ p l w, s' = { s with pool := p, loop := l, worker := w } ∧ p.busyList = s.pool.busyList ∧
    (∀ d, (l d).call = (s.loop d).call ∨ (l d).call = none) ∧
    ∀ t, (s.worker t).HasJob → (w t).HasJob

theorem Internal.refl (s : Dispatch) : s.Internal s :=
  ⟨s.pool, s.loop, s.worker, rfl, rfl, fun _ => .inl rfl, fun _ => id⟩

theorem internal_setLoop {d : LoopId} {l : LoopPhase} {p : CThreadPool}
    (hp : p.busyList = s.pool.busyList) (hl : l.call = (s.loop d).call ∨ l.call = none) :
    s.Internal ({ s with pool := p }.setLoop d l) := by
  refine ⟨p, Function.update s.loop d l, s.worker, rfl, hp, fun e => ?_, fun _ => id⟩
  rw [Function.update_apply]
  split_ifs with he
  · exact he ▸ hl
  · exact .inl rfl

theorem internal_setWorker {t : ThreadId} {w : WorkerPhase} {p : CThreadPool}
    (hp : p.busyList = s.pool.busyList) (hw : (s.worker t).HasJob → w.HasJob) :
    s.Internal ({ s with pool := p }.setWorker t w) := by
  refine ⟨p, s.loop, Function.update s.worker t w, rfl, hp, fun _ => .inl rfl, fun u => ?_⟩
  rw [Function.update_apply]
  split_ifs with hu
  · exact hu ▸ hw
  · exact id

theorem run_holding {d : LoopId} {j : Call} {t : ThreadId} (hl : s.loop d = .holding j t) :
    s.run d = if s.worker t = .blocked then some (s.assign d j t) else none := by
  rw [run, hl]

theorem run_cases {d : LoopId} (h : s.run d = some s') :
    s.Internal s' ∨ ∃ j t, s.loop d = .holding j t ∧ s.worker t = .blocked ∧ s' = s.assign d j t := by
  rw [run] at h
  split at h
  case h_1 => cases h
  case h_2 j hl =>
    cases h
    refine .inl (internal_setLoop (p := s.pool) rfl (.inl ?_))
    rw [hl]
    split_ifs <;> rfl
  case h_3 j hl =>
    cases h
    exact .inl (internal_setLoop (p := s.pool) rfl (.inl (by rw [hl]; rfl)))
  case h_4 j hl =>
    cases h
    exact .inl (internal_setLoop (p := s.pool) rfl (.inl (by rw [hl]; rfl)))
  case h_5 j n hl =>
    cases h
    exact .inl (internal_setLoop rfl (.inl (by rw [hl]; rfl)))
  case h_6 j hl =>
    split_ifs at h
    cases h
    exact .inl (internal_setLoop (p := s.pool) rfl (.inl (by rw [hl]; rfl)))
  case h_7 j hl =>
    split at h
    · cases h
      exact .inl (internal_setLoop (p := s.pool) rfl (.inr rfl))
    · cases h
      exact .inl (internal_setLoop (p := s.pool) rfl (.inl (by rw [hl]; rfl)))
  case h_8 j t hl =>
    obtain ⟨hw, he⟩ := Option.ite_none_right_eq_some.1 h
    exact .inr ⟨j, t, hl, hw, (Option.some.inj he).symm⟩

theorem work_cases {t : ThreadId} (h : s.work t = some s') :
    s.Internal s' ∨ (s.worker t = .running ∧ s' = s.complete t) ∨
      (s.worker t = .cleared ∧ s' = s.release t) := by
  rw [work] at h
  split at h
  case h_1 hw =>
    split_ifs at h
    cases h
    exact .inl (internal_setWorker (p := s.pool) rfl fun _ => trivial)
  case h_2 hw =>
    cases h
    exact .inr (.inl ⟨hw, rfl⟩)
  case h_3 hw =>
    cases h
    exact .inr (.inr ⟨hw, rfl⟩)
  case h_4 hw =>
    have hnot : ¬(s.worker t).HasJob := by
      rw [hw]
      exact id
    cases h
    exact .inl (internal_setWorker (p := s.pool) rfl hnot.elim)
  case h_5 num hw =>
    obtain ⟨p, hp, rfl⟩ := Option.map_eq_some_iff.1 h
    exact .inl (internal_setWorker (CThreadPool.busyList_deleteLoop hp) fun _ => trivial)

theorem readEventCb_cases {c : ConnId} {len : Nat} (h : s.readEventCb owner c len = some s') :
    s.loop (owner c) = .atRest ∧ (s' = s ∨ len ≠ 0 ∧ s' = s.submit owner c) := by
  rw [readEventCb] at h
  split_ifs at h with hl hlen
  · cases h
    exact ⟨hl, .inl rfl⟩
  · cases h
    exact ⟨hl, .inr ⟨hlen, rfl⟩⟩

/-- `Run` moves no worker. -/
theorem worker_run {d : LoopId} (h : s.run d = some s') : s'.worker = s.worker := by
  rw [run] at h
  split at h
  case h_1 => cases h
  case h_6 =>
    split_ifs at h
    cases h
    rfl
  case h_7 => split at h <;> cases h <;> rfl
  case h_8 =>
    obtain ⟨-, he⟩ := Option.ite_none_right_eq_some.1 h
    cases he
    rfl
  all_goals
    cases h
    rfl

/-- `Run` gives a job to a worker in its last section only. -/
theorem job_run {d : LoopId} (hl : ∀ j t, s.loop d ≠ .holding j t) (h : s.run d = some s') :
    s'.job = s.job := by
  rcases run_cases h with ⟨p, l, w, rfl, -⟩ | ⟨j, t, hhold, -⟩
  · rfl
  · exact absurd hhold (hl j t)

/-- A worker does nothing to the others. -/
theorem worker_work {t u : ThreadId} (hu : u ≠ t) (h : s.work t = some s') :
    s'.worker u = s.worker u := by
  rw [work] at h
  split at h
  case h_1 =>
    split_ifs at h
    cases h
    exact Function.update_of_ne hu _ _
  case h_5 =>
    obtain ⟨p, -, rfl⟩ := Option.map_eq_some_iff.1 h
    exact Function.update_of_ne hu _ _
  all_goals
    cases h
    exact Function.update_of_ne hu _ _

/-- A worker gives up its job at the end of `m_Job->Run`. -/
theorem job_work {t : ThreadId} (hw : s.worker t ≠ .running) (h : s.work t = some s') :
    s'.job = s.job := by
  rcases work_cases h with ⟨p, l, w, rfl, -⟩ | ⟨hrun, -⟩ | ⟨-, rfl⟩
  · rfl
  · exact absurd hrun hw
  · rfl

/-- The steps that change the jobs or start a call. -/
theorem step_cases {a : Action} (h : s.step owner a = some s') :
    s.Internal s' ∨
    (∃ c len, a = .readEvent c len ∧ len ≠ 0 ∧ s.loop (owner c) = .atRest ∧ s' = s.submit owner c) ∨
    (∃ d j t, a = .run d ∧ s.loop d = .holding j t ∧ s.worker t = .blocked ∧ s' = s.assign d j t) ∨
    (∃ t, s.worker t = .running ∧ s' = s.complete t) ∨
    ∃ t, s.worker t = .cleared ∧ s' = s.release t := by
  cases a with
  | readEvent c len =>
    obtain ⟨hl, rfl | ⟨hlen, rfl⟩⟩ := readEventCb_cases owner h
    · exact .inl (.refl _)
    · exact .inr (.inl ⟨c, len, rfl, hlen, hl, rfl⟩)
  | run d =>
    rcases run_cases h with hi | ⟨j, t, hl, hw, rfl⟩
    · exact .inl hi
    · exact .inr (.inr (.inl ⟨d, j, t, rfl, hl, hw, rfl⟩))
  | work t =>
    rcases work_cases h with hi | ⟨hw, rfl⟩ | ⟨hw, rfl⟩
    · exact .inl hi
    · exact .inr (.inr (.inr (.inl ⟨t, hw, rfl⟩)))
    · exact .inr (.inr (.inr (.inr ⟨t, hw, rfl⟩)))

/-! ## The calls -/

/-- The invariant of the calls and the jobs. -/
structure Inv (s : Dispatch) : Prop where
  custody : Custody s.assigned (s.executed ++ s.replaced) s.job
  lt_nextCall : ∀ j ∈ s.assigned, j.id < s.nextCall
  loop_call : ∀ d j, (s.loop d).call = some j →
    owner j.conn = d ∧ j.id < s.nextCall ∧ j ∉ s.assigned
  mem_busyList : ∀ t j, s.job t = some j → t ∈ s.pool.busyList
  hasJob : ∀ t j, s.job t = some j → (s.worker t).HasJob

variable {owner}

theorem init_inv (c : PoolNums) : (init c).Inv owner where
  custody := .nil
  lt_nextCall _ := nofun
  loop_call _ _ := nofun
  mem_busyList _ _ := nofun
  hasJob _ _ := nofun

theorem Inv.internal (h : s.Inv owner) (hs : s.Internal s') : s'.Inv owner := by
  obtain ⟨p, l, w, rfl, hp, hl, hw⟩ := hs
  refine ⟨h.custody, h.lt_nextCall, fun d j hj => ?_, fun t j hj => ?_, fun t j hj => ?_⟩
  · rcases hl d with he | he
    · exact h.loop_call d j (he ▸ hj)
    · exact absurd (he.symm.trans hj) nofun
  · exact hp ▸ h.mem_busyList t j hj
  · exact hw t (h.hasJob t j hj)

theorem Inv.submit (h : s.Inv owner) (c : ConnId) : (s.submit owner c).Inv owner where
  custody := h.custody
  lt_nextCall j hj := (h.lt_nextCall j hj).trans (Nat.lt_succ_self _)
  loop_call d j hj := by
    rw [loop_submit] at hj
    split_ifs at hj with hd
    · cases hj
      exact ⟨hd.symm, Nat.lt_succ_self _, fun hmem => (h.lt_nextCall _ hmem).false⟩
    · obtain ⟨howner, hlt, hnot⟩ := h.loop_call d j hj
      exact ⟨howner, hlt.trans (Nat.lt_succ_self _), hnot⟩
  mem_busyList := h.mem_busyList
  hasJob := h.hasJob

theorem Inv.assign (h : s.Inv owner) {d : LoopId} {j : Call} {t : ThreadId}
    (hl : s.loop d = .holding j t) (hw : s.worker t = .blocked) : (s.assign d j t).Inv owner := by
  obtain ⟨howner, hlt, hnot⟩ := h.loop_call d j (by rw [hl]; rfl)
  refine ⟨?_, fun k hk => ?_, fun e k hk => ?_, fun u k hk => ?_, fun u k hk => ?_⟩
  · -- `SetJob` does not look at `m_Job`: a job that is there is replaced
    rw [Dispatch.assign, ← List.append_assoc]
    exact h.custody.exchange hnot t
  · rcases List.mem_append.1 hk with hk | hk
    · exact h.lt_nextCall k hk
    · exact List.mem_singleton.1 hk ▸ hlt
  · rw [loop_assign] at hk
    split_ifs at hk with he
    · cases hk
    · obtain ⟨howner', hlt', hnot'⟩ := h.loop_call e k hk
      refine ⟨howner', hlt', fun hmem => ?_⟩
      rcases List.mem_append.1 hmem with hmem | hmem
      · exact hnot' hmem
      · -- each call is made in one loop
        rw [← howner', List.mem_singleton.1 hmem] at he
        exact he howner
  · rw [job_assign] at hk
    split_ifs at hk with hu
    · exact List.mem_append_right _ (List.mem_singleton.2 hu)
    · exact List.mem_append_left _ (h.mem_busyList u k hk)
  · rw [job_assign] at hk
    split_ifs at hk with hu
    · rw [Dispatch.assign, hu, hw]
      trivial
    · exact h.hasJob u k hk

theorem Inv.complete (h : s.Inv owner) (t : ThreadId) : (s.complete t).Inv owner := by
  have hother : ∀ u k, (s.complete t).job u = some k → u ≠ t ∧ s.job u = some k := by
    intro u k hk
    rw [job_complete] at hk
    split_ifs at hk with hu
    exact ⟨hu, hk⟩
  refine ⟨?_, h.lt_nextCall, h.loop_call, fun u k hk => h.mem_busyList u k (hother u k hk).2,
    fun u k hk => ?_⟩
  · refine (h.custody.drop t).perm ?_
    rw [Dispatch.complete, List.append_assoc, List.append_assoc]
    exact List.perm_append_comm.append_left _
  · obtain ⟨hu, hk⟩ := hother u k hk
    rw [worker_complete, if_neg hu]
    exact h.hasJob u k hk

theorem Inv.release (h : s.Inv owner) {t : ThreadId} (hw : s.worker t = .cleared) :
    (s.release t).Inv owner := by
  have hne : ∀ u k, s.job u = some k → u ≠ t := by
    rintro u k hk rfl
    have := h.hasJob u k hk
    rw [hw] at this
    exact this
  refine ⟨h.custody, h.lt_nextCall, h.loop_call, fun u k hk => ?_, fun u k hk => ?_⟩
  · exact (List.mem_erase_of_ne (hne u k hk)).2 (h.mem_busyList u k hk)
  · rw [worker_release, if_neg (hne u k hk)]
    exact h.hasJob u k hk

theorem Inv.step (h : s.Inv owner) {a : Action} (hs : s.step owner a = some s') : s'.Inv owner := by
  rcases step_cases owner hs with hi | ⟨c, len, -, -, -, rfl⟩ | ⟨d, j, t, -, hl, hw, rfl⟩ |
    ⟨t, -, rfl⟩ | ⟨t, hw, rfl⟩
  exacts [h.internal hi, h.submit c, h.assign hl hw, h.complete t, h.release hw]

/-- A worker that has a job can go on. -/
theorem Inv.isSome_work (h : s.Inv owner) {t : ThreadId} {j : Call} (hj : s.job t = some j) :
    (s.work t).isSome := by
  have hjob := h.hasJob t j hj
  rw [work]
  cases hw : s.worker t with
  | blocked => simp [hj]
  | running => rfl
  | cleared | released | deleting => simp [hw, WorkerPhase.HasJob] at hjob

/-! ## No call is lost -/

/-- The call has been executed, once, and is the job of no worker; or it has not, and
    is the job of exactly one worker, which can go on. -/
def Kept (s : Dispatch) (j : Call) : Prop :=
  (s.executed.count j = 1 ∧ ∀ t, s.job t ≠ some j) ∨
    (s.executed.count j = 0 ∧
      ∃ t, s.job t = some j ∧ (s.work t).isSome ∧ ∀ u, s.job u = some j → u = t)

/-- `SetJob` has replaced no job, no worker is in the busy list twice, and each call
    that returned with a worker is kept. -/
def AllKept (s : Dispatch) : Prop :=
  s.replaced = [] ∧ s.pool.busyList.Nodup ∧ ∀ j ∈ s.assigned, s.Kept j

/-- A section of `m_WorkMutex` in `Run` begins with a worker that is not busy. -/
def TakesFree (s : Dispatch) (a : Action) : Prop :=
  ∀ d j t, a = .run d → s.loop d = .holding j t → t ∉ s.pool.busyList

theorem Inv.kept (h : s.Inv owner) (hrep : s.replaced = []) {j : Call} (hj : j ∈ s.assigned) :
    s.Kept j := by
  have hcustody := h.custody
  rw [hrep, List.append_nil] at hcustody
  rcases hcustody.count_ended hj with hover | ⟨hcount, t, ht, hone⟩
  · exact .inl hover
  · exact .inr ⟨hcount, t, ht, h.isSome_work ht, hone⟩

theorem Inv.free_step (h : s.Inv owner) (hrep : s.replaced = []) (hbusy : s.pool.busyList.Nodup)
    {a : Action} (hok : s.TakesFree a) (hs : s.step owner a = some s') :
    s'.replaced = [] ∧ s'.pool.busyList.Nodup := by
  rcases step_cases owner hs with ⟨p, l, w, rfl, hp, -⟩ | ⟨c, len, -, -, -, rfl⟩ |
    ⟨d, j, t, rfl, hl, -, rfl⟩ | ⟨t, -, rfl⟩ | ⟨t, -, rfl⟩
  · exact ⟨hrep, hp ▸ hbusy⟩
  · exact ⟨hrep, hbusy⟩
  · -- a worker that is not busy has no job
    have ht := hok d j t rfl hl
    have hjob : s.job t = none := by
      cases hj : s.job t with
      | none => rfl
      | some k => exact absurd (h.mem_busyList t k hj) ht
    refine ⟨?_, ?_⟩
    · rw [Dispatch.assign, hrep, hjob]
      rfl
    · exact List.nodup_append.2 ⟨hbusy, List.nodup_singleton t, fun u hu v hv he =>
        ht (List.mem_singleton.1 hv ▸ he ▸ hu)⟩
  · exact ⟨hrep, hbusy⟩
  · exact ⟨hrep, hbusy.erase t⟩

/-- In a run, no call is lost or replaced, and no worker is twice in the busy list, in
    every state, if and only if `Run` never takes a worker that is busy by then. -/
theorem allKept_iff (owner : ConnId → LoopId) (c : PoolNums) (as : List Action) :
    Along (step owner) TakesFree (init c) as ↔ Throughout (step owner) AllKept (init c) as := by
  refine along_iff_throughout
    (I := fun s => s.Inv owner ∧ s.replaced = [] ∧ s.pool.busyList.Nodup)
    (fun s a s' h hok hs => ⟨h.1.step hs, h.1.free_step h.2.1 h.2.2 hok hs⟩)
    (fun s h => ⟨h.2.1, h.2.2, fun j hj => h.1.kept h.2.1 hj⟩) (fun s a s' h hnot hs hkept => ?_)
    ⟨init_inv c, rfl, ?_⟩
  · -- a worker taken while it is busy is in the list a second time
    simp only [TakesFree, not_forall, not_not] at hnot
    obtain ⟨d, j, t, rfl, hl, ht⟩ := hnot
    rw [step, run_holding hl] at hs
    obtain ⟨-, he⟩ := Option.ite_none_right_eq_some.1 hs
    cases he
    exact (List.nodup_append.1 hkept.2.1).2.2 t ht t (List.mem_singleton_self t) rfl
  · simp [init, WorkerPool.init, CThreadPool.newThreads_eq]

/-! ## One worker for a connection -/

/-- No bytes arrived for a connection while a worker had it, and no two workers have
    the same connection. -/
def Exclusive (s : Dispatch) : Prop :=
  s.overwritten = false ∧
    ∀ t u j k, s.job t = some j → s.job u = some k → j.conn = k.conn → t = u

/-- When bytes arrive for a connection, the calls for it that returned with a worker
    are over. -/
def ArrivesAlone (s : Dispatch) (a : Action) : Prop :=
  ∀ c len, a = .readEvent c len → len ≠ 0 →
    ∀ j ∈ s.assigned, j.conn = c → j ∈ s.executed ∨ j ∈ s.replaced

/-- A call in progress is for a connection that no worker has. -/
def LoopsAlone (s : Dispatch) : Prop :=
  ∀ d j, (s.loop d).call = some j → ∀ t k, s.job t = some k → k.conn ≠ j.conn

/-- Some worker has the connection if and only if a call for it is not over. -/
theorem Inv.isHeld_iff (h : s.Inv owner) {c : ConnId} :
    s.isHeld c ↔ ∃ t j, s.job t = some j ∧ j.conn = c := by
  rw [isHeld, List.any_eq_true]
  constructor
  · rintro ⟨t, -, ht⟩
    obtain ⟨j, hj, hc⟩ := (Option.any_eq_true _ _).1 ht
    exact ⟨t, j, hj, of_decide_eq_true hc⟩
  · rintro ⟨t, j, hj, rfl⟩
    exact ⟨t, h.mem_busyList t j hj, by simp [hj]⟩

theorem Inv.arrivesAlone_iff (h : s.Inv owner) {c : ConnId} :
    (∀ j ∈ s.assigned, j.conn = c → j ∈ s.executed ∨ j ∈ s.replaced) ↔ s.isHeld c = false := by
  rw [← Bool.not_eq_true, h.isHeld_iff]
  constructor
  · rintro hover ⟨t, j, hj, hc⟩
    have := hover j (h.custody.mem_given t j hj) hc
    exact h.custody.not_mem_ended t j hj (List.mem_append.2 this)
  · intro hfree j hj hc
    by_contra hnot
    obtain ⟨t, ht⟩ := h.custody.exists_held j hj (List.mem_append.not.2 hnot)
    exact hfree ⟨t, j, ht, hc⟩

theorem Inv.alone_step (h : s.Inv owner) (hloops : s.LoopsAlone) (hex : s.Exclusive) {a : Action}
    (hok : s.ArrivesAlone a) (hs : s.step owner a = some s') : s'.LoopsAlone ∧ s'.Exclusive := by
  rcases step_cases owner hs with ⟨p, l, w, rfl, -, hl, -⟩ | ⟨c, len, rfl, hlen, -, rfl⟩ |
    ⟨d, j, t, -, hl, -, rfl⟩ | ⟨t, -, rfl⟩ | ⟨t, -, rfl⟩
  · refine ⟨fun d j hj => ?_, hex⟩
    rcases hl d with he | he
    · exact hloops d j (he ▸ hj)
    · exact absurd (he.symm.trans hj) nofun
  · -- the call that begins is for a connection that no worker has
    have hfree := h.arrivesAlone_iff.1 (hok c len rfl hlen)
    refine ⟨fun d j hj t k hk hc => ?_, ?_, hex.2⟩
    · rw [loop_submit] at hj
      split_ifs at hj
      · cases hj
        rw [← Bool.not_eq_true, h.isHeld_iff] at hfree
        exact hfree ⟨t, k, hk, hc⟩
      · exact hloops d j hj t k hk hc
    · rw [Dispatch.submit, hex.1, hfree]
      rfl
  · -- a worker takes the call: no other has one for the connection
    have hcall : (s.loop d).call = some j := by
      rw [hl]
      rfl
    refine ⟨fun e k hk u i hi hc => ?_, hex.1, fun u v i k hi hk hc => ?_⟩
    · rw [loop_assign] at hk
      split_ifs at hk with he
      · cases hk
      · rw [job_assign] at hi
        split_ifs at hi with hu
        · -- the two calls are in progress in the loop of the connection
          cases hi
          rw [← (h.loop_call e k hk).1, ← hc] at he
          exact he (h.loop_call d j hcall).1
        · exact hloops e k hk u i hi hc
    · rw [job_assign] at hi hk
      split_ifs at hi hk with hu hv hv
      · exact hu.trans hv.symm
      · cases hi
        exact absurd hc.symm (hloops d j hcall v k hk)
      · cases hk
        exact absurd hc (hloops d j hcall u i hi)
      · exact hex.2 u v i k hi hk hc
  · -- a call ends: there is one fewer
    have hother : ∀ u k, (s.complete t).job u = some k → s.job u = some k := by
      intro u k hk
      rw [job_complete] at hk
      split_ifs at hk
      exact hk
    exact ⟨fun d j hj u k hk => hloops d j hj u k (hother u k hk), hex.1,
      fun u v i k hi hk => hex.2 u v i k (hother u i hi) (hother v k hk)⟩
  · exact ⟨hloops, hex⟩

/-- In a run, no two workers have the same connection, and no bytes arrive for one that
    a worker has, if and only if all earlier calls for a connection are over whenever
    bytes arrive for it. -/
theorem exclusive_iff (owner : ConnId → LoopId) (c : PoolNums) (as : List Action) :
    Along (step owner) ArrivesAlone (init c) as ↔ Throughout (step owner) Exclusive (init c) as := by
  refine along_iff_throughout (I := fun s => s.Inv owner ∧ s.LoopsAlone ∧ s.Exclusive)
    (fun s a s' h hok hs => ⟨h.1.step hs, h.1.alone_step h.2.1 h.2.2 hok hs⟩) (fun s h => h.2.2)
    (fun s a s' h hnot hs hex => hnot ?_) ⟨init_inv c, fun _ _ => nofun, rfl, fun _ _ _ _ => nofun⟩
  rintro c len rfl hlen
  rw [step, readEventCb] at hs
  split_ifs at hs
  cases hs
  have hover := hex.1
  rw [submit, Bool.or_eq_false_iff] at hover
  exact h.1.arrivesAlone_iff.2 hover.2

/-! ## Two calls, two workers -/

/-- Two loops are given the same worker before one of them takes it. -/
theorem not_allKept :
    ∃ s, exec (step id) (init .default) ([.readEvent 0 1, .readEvent 1 1] ++
        List.replicate 4 (.run 0) ++ List.replicate 4 (.run 1) ++ [.run 0, .run 1]) = some s ∧
      s.assigned = [⟨0, 0⟩, ⟨1, 1⟩] ∧ s.replaced = [⟨0, 0⟩] ∧ s.pool.busyList = [0, 0] := by
  obtain ⟨s, hs, he⟩ := Option.map_eq_some_iff.1 (show
    (exec (step id) (init .default) ([.readEvent 0 1, .readEvent 1 1] ++
      List.replicate 4 (.run 0) ++ List.replicate 4 (.run 1) ++ [.run 0, .run 1])).map
      (fun s => (s.assigned, s.replaced, s.pool.busyList)) =
      some ([⟨0, 0⟩, ⟨1, 1⟩], [⟨0, 0⟩], [0, 0]) by decide)
  simp only [Prod.mk.injEq] at he
  exact ⟨s, hs, he⟩

/-- Bytes arrive for a connection that a worker has, and it is given to a second one. -/
theorem not_exclusive :
    ∃ s, exec (step id) (init .default) ([.readEvent 0 1] ++ List.replicate 5 (.run 0) ++
        [.readEvent 0 1] ++ List.replicate 5 (.run 0)) = some s ∧
      s.overwritten = true ∧ s.job 0 = some ⟨0, 0⟩ ∧ s.job 1 = some ⟨1, 0⟩ := by
  obtain ⟨s, hs, he⟩ := Option.map_eq_some_iff.1 (show
    (exec (step id) (init .default) ([.readEvent 0 1] ++ List.replicate 5 (.run 0) ++
      [.readEvent 0 1] ++ List.replicate 5 (.run 0))).map
      (fun s => (s.overwritten, s.job 0, s.job 1)) = some (true, some ⟨0, 0⟩, some ⟨1, 0⟩) by decide)
  simp only [Prod.mk.injEq] at he
  exact ⟨s, hs, he⟩

end Dispatch

end VsHttpServer
