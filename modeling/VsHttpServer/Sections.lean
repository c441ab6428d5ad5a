import VsHttpServer.Loops
import VsHttpServer.Pool.Leak

/-!
# The pool, section by section

`WorkerPool` takes a call of `CThreadPool::Run`, and the end of a job, as one step;
`Dispatch` takes them section by section, with other loops and workers in between.

* `exists_matches`: the sections can do all that the steps can;
* `exhausted_iff`: they can do more, even with one event loop: a worker can remove threads
  from an empty idle list, if and only if `m_AvailHigh` is less than `m_MaxNum`;
* `givenUp_iff`: and so it is with a call of `Run` that returns without a worker.
-/

namespace VsHttpServer

open Transition

namespace WorkerPool

/-- The job that a step submits. -/
def Action.submits : Action → Option JobId
  | .run i => some i
  | .finish _ => none

/-- A step that has nothing to do with the threads in `T`. -/
def Spares (T : List ThreadId) (s : WorkerPool) : Action → Prop
  | .run _ => ∀ t ∈ T, s.pool.grow.idleList.head? ≠ some t
  | .finish t => t ∉ T

variable {c : PoolNums} {s s' : WorkerPool} {t : ThreadId} {T : List ThreadId}

theorem busyList_finish (hs : s.finish t = some s') :
    s'.pool.busyList = s.pool.busyList.erase t := by
  obtain ⟨p, hp, rfl⟩ := Option.map_eq_some_iff.1 hs
  rw [CThreadPool.trim] at hp
  split_ifs at hp
  · exact (CThreadPool.deleteLoop_spec hp).2.1
  · cases hp
    rfl

/-- The end of jobs of other threads. -/
theorem along_finish (hT : ∀ t ∈ T, t ∉ s.pool.busyList) (ts : List ThreadId) :
    Along step (Spares T) s (ts.map .finish) := by
  induction ts generalizing s with
  | nil => trivial
  | cons t ts ih =>
    intro s' hs
    rw [step] at hs
    split_ifs at hs with ht
    refine ⟨fun hmem => hT t hmem ht, ih fun u hu hbusy => ?_⟩
    rw [busyList_finish hs] at hbusy
    exact hT u hu (List.mem_of_mem_erase hbusy)

/-- A thread that `Run` finds at the front was idle, or is new. -/
theorem Inv.front_not_mem (h : s.Inv c) (ht : t ∈ s.pool.grow.idleList) :
    t ∉ s.pool.busyList ∧ ¬s.Removed t := by
  rw [CThreadPool.idleList_grow, List.mem_append, List.mem_range'_1] at ht
  rcases ht with hidle | hnew
  · exact ⟨h.partition.disjoint hidle, fun hr => (h.removed hr).1 hidle⟩
  · refine ⟨fun hbusy => ?_, fun hr => absurd hr.1 (not_lt.2 hnew.1)⟩
    exact absurd (h.partition.lt_created t (h.partition.mem_iff.2 (.inr hbusy)))
      (not_lt.2 hnew.1)

/-- Threads that were removed are spared for ever. -/
theorem along_removed (h : s.Inv c) (hT : ∀ t ∈ T, s.Removed t) (as : List Action) :
    Along step (Spares T) s as := by
  induction as generalizing s with
  | nil => trivial
  | cons a as ih =>
    intro s' hs
    refine ⟨?_, ih (h.step hs) fun t ht => (hT t ht).step hs⟩
    cases a with
    | run i => exact fun t ht he => (h.front_not_mem (List.mem_of_mem_head? he)).2 (hT t ht)
    | finish t =>
      rw [step] at hs
      split_ifs at hs with hbusy
      exact fun ht => (h.removed (hT t ht)).2.1 hbusy

/-- With room in the idle list, the end of a job removes no thread. -/
theorem Inv.finish_room (h : s.Inv c) (ht : t ∈ s.pool.busyList)
    (hroom : s.pool.idleList.length < c.availHigh) :
    s.finish t = some ⟨s.pool.moveToIdleList t, Function.update s.job t none⟩ ∧
      Inv c ⟨s.pool.moveToIdleList t, Function.update s.job t none⟩ := by
  have hmany : ¬(s.pool.moveToIdleList t).isCrowded := fun hcrowd => by
    have := h.isCrowded_iff.1 hcrowd
    omega
  have hs : s.finish t = some ⟨s.pool.moveToIdleList t, Function.update s.job t none⟩ := by
    rw [WorkerPool.finish, CThreadPool.trim, if_neg hmany]
    rfl
  obtain ⟨s', hs', hinv, -⟩ := h.finish ht
  rw [hs] at hs'
  exact ⟨hs, Option.some.inj hs' ▸ hinv⟩

/-- The end of `n` jobs, for which there is room. -/
theorem Inv.exists_finish (h : s.Inv c) {n : Nat} (hn : s.pool.idleList.length + n ≤ c.availHigh)
    (hbusy : n ≤ s.pool.busyList.length) :
    ∃ (ts : List ThreadId) (s' : WorkerPool),
      exec WorkerPool.step s (ts.map .finish) = some s' ∧ s'.Inv c ∧
      s.pool.idleList <+: s'.pool.idleList ∧
      s'.pool.idleList.length = s.pool.idleList.length + n ∧
      s'.pool.threadList = s.pool.threadList ∧ s'.pool.created = s.pool.created := by
  induction n generalizing s with
  | zero => exact ⟨[], s, rfl, h, List.prefix_rfl, rfl, rfl, rfl⟩
  | succ n ih =>
    obtain ⟨t, ht⟩ := List.exists_mem_of_length_pos (Nat.lt_of_lt_of_le n.succ_pos hbusy)
    obtain ⟨hs, hinv⟩ := h.finish_room ht (by omega)
    have hlen : (s.pool.moveToIdleList t).idleList.length = s.pool.idleList.length + 1 := by
      simp [CThreadPool.moveToIdleList]
    have hbusy' : n ≤ (s.pool.moveToIdleList t).busyList.length := by
      rw [CThreadPool.moveToIdleList, List.length_erase_of_mem ht]
      omega
    obtain ⟨ts, s', hs', hinv', hpre, hidle, hthreads, hcreated⟩ :=
      ih hinv (by rw [hlen]; omega) hbusy'
    refine ⟨t :: ts, s', ?_, hinv', (List.prefix_append _ _).trans hpre, ?_, hthreads, hcreated⟩
    · have hstep : s.step (.finish t) = _ := (if_pos ht).trans hs
      rw [List.map_cons, exec_cons hstep, hs']
    · rw [hidle, hlen, Nat.add_assoc, Nat.add_comm 1 n]

end WorkerPool

namespace CThreadPool

variable {p p' : CThreadPool} {t : ThreadId}

/-- The thread at the front is removed first. -/
theorem not_mem_deleteLoop {n : Nat} (h : deleteLoop n p = some p') (hpos : 0 < n)
    (hfront : [t] <+: p.idleList) (hnodup : p.threadList.Nodup) : t ∉ p'.threadList := by
  obtain ⟨idle, hidle⟩ := hfront
  cases n with
  | zero => exact absurd hpos (lt_irrefl 0)
  | succ n =>
    rw [deleteLoop, ← hidle] at h
    exact fun hmem => hnodup.not_mem_erase ((deleteLoop_spec h).2.2.2.2.subset hmem)

/-- There is nothing to remove from an empty list. -/
theorem deleteLoop_nil {n : Nat} (hpos : 0 < n) (hidle : p.idleList = []) :
    deleteLoop n p = none := by
  cases n with
  | zero => exact absurd hpos (lt_irrefl 0)
  | succ n => rw [deleteLoop, hidle]

end CThreadPool

namespace Dispatch

/-! ## The steps of the pool -/

/-- The pool and the jobs are those of `s`, the calls for the jobs `js` have returned, no
    other is in progress, and the workers that are not in `T` wait, or have not begun with
    their jobs. -/
structure Matches (d : Dispatch) (s : WorkerPool) (js : List JobId) (T : List ThreadId) : Prop where
  pool : d.pool = s.pool
  job : ∀ t, (d.job t).map Call.conn = s.job t
  assigned : d.assigned.map Call.conn = js
  replaced : d.replaced = []
  atRest : ∀ e, d.loop e = .atRest
  blocked : ∀ t ∉ T, d.worker t = .blocked

/-- The event loop `e` is in a call of `Run`, at the place `l`, and the pool is `p`. -/
def inRun (d : Dispatch) (e : LoopId) (l : LoopPhase) (p : CThreadPool) : Dispatch :=
  { d with
    pool := p
    loop := Function.update d.loop e l }

variable (owner : ConnId → LoopId) {d d' : Dispatch} {s s' : WorkerPool} {js : List JobId}
  {T : List ThreadId} {c : PoolNums} {t : ThreadId} {p : CThreadPool}

@[simp]
theorem loop_inRun (d : Dispatch) (e e' : LoopId) (l : LoopPhase) (p : CThreadPool) :
    (d.inRun e l p).loop e' = if e' = e then l else d.loop e' :=
  Function.update_apply _ _ _ _

@[simp]
theorem pool_inRun (d : Dispatch) (e : LoopId) (l : LoopPhase) (p : CThreadPool) :
    (d.inRun e l p).pool = p :=
  rfl

@[simp]
theorem setLoop_inRun (d : Dispatch) (e : LoopId) (l l' : LoopPhase) (p : CThreadPool) :
    (d.inRun e l p).setLoop e l' = d.inRun e l' p := by
  simp [inRun, setLoop]

theorem worker_setWorker (d : Dispatch) (t u : ThreadId) (w : WorkerPhase) :
    (d.setWorker t w).worker u = if u = t then w else d.worker u :=
  Function.update_apply _ _ _ _

/-- The loop of `CreateIdleThread`. -/
theorem exec_creating (d : Dispatch) (e : LoopId) (j : Call) (n : Nat) (p : CThreadPool) :
    exec (step owner) (d.inRun e (.creating j n) p) (List.replicate n (.run e)) =
      some (d.inRun e (.creating j 0) (CThreadPool.createLoop n p)) := by
  induction n generalizing p with
  | zero => rfl
  | succ n ih =>
    have hrun : step owner (d.inRun e (.creating j (n + 1)) p) (.run e) =
        some (d.inRun e (.creating j n) (CThreadPool.createLoop 1 p)) := by
      rw [step, run, loop_inRun, if_pos rfl]
      exact congrArg some (setLoop_inRun d e _ (.creating j n) (CThreadPool.createLoop 1 p))
    rw [List.replicate_succ, exec_cons hrun, ih]
    rfl

/-- The sections of a call of `Run` up to the one of `m_IdleMutex` in `GetIdleThread`, after
    `ReadEventCb` has begun it. -/
theorem exec_called (d : Dispatch) (e : LoopId) (j : Call) (hbusy : p.busyList.length ≠ p.maxNum)
    (hidle : p.grow.idleList ≠ []) :
    exec (step owner) (d.inRun e (.called j) p)
        (.run e :: .run e :: List.replicate p.growNum (.run e) ++ [.run e]) =
      some (d.inRun e (.fetching j) p.grow) := by
  have hcalled : step owner (d.inRun e (.called j) p) (.run e) =
      some (d.inRun e (.growing j) p) := by
    have hne : ¬(d.inRun e (.called j) p).pool.busyList.length =
        (d.inRun e (.called j) p).pool.maxNum := hbusy
    rw [step, run, loop_inRun, if_pos rfl]
    simp only [if_neg hne, setLoop_inRun]
  have hgrowing : step owner (d.inRun e (.growing j) p) (.run e) =
      some (d.inRun e (.creating j p.growNum) p) := by
    rw [step, run, loop_inRun, if_pos rfl]
    exact congrArg some (setLoop_inRun _ _ _ _ _)
  have hcreated : step owner (d.inRun e (.creating j 0) p.grow) (.run e) =
      some (d.inRun e (.fetching j) p.grow) := by
    have hne : (d.inRun e (.creating j 0) p.grow).pool.idleList ≠ [] := hidle
    rw [step, run, loop_inRun, if_pos rfl]
    simp only [if_neg hne, setLoop_inRun]
  rw [List.cons_append, List.cons_append, exec_cons hcalled, exec_cons hgrowing, exec_append,
    exec_creating, Option.bind_some, ← CThreadPool.grow, exec_cons hcreated, exec]

/-- The other two, which give the worker at the front its job. -/
theorem exec_fetching (d : Dispatch) (e : LoopId) (j : Call) {idle : List ThreadId}
    (hidle : p.idleList = t :: idle) (ht : d.worker t = .blocked) :
    exec (step owner) (d.inRun e (.fetching j) p) [.run e, .run e] =
      some ((d.inRun e (.holding j t) p).assign e j t) := by
  have hfetching : step owner (d.inRun e (.fetching j) p) (.run e) =
      some (d.inRun e (.holding j t) p) := by
    rw [step, run, loop_inRun, if_pos rfl]
    simp only [setLoop_inRun, pool_inRun]
    rw [hidle]
  have hholding : step owner (d.inRun e (.holding j t) p) (.run e) =
      some ((d.inRun e (.holding j t) p).assign e j t) := by
    rw [step, run_holding ((loop_inRun _ _ _ _ _).trans (if_pos rfl))]
    exact if_pos ht
  rw [exec_cons hfetching, exec_cons hholding, exec]

/-- A read event of the connection `i`, and the call of `Run` up to there. -/
theorem Matches.fetching (h : d.Matches s js T) (i : ConnId)
    (hbusy : s.pool.busyList.length < s.pool.maxNum) (hidle : s.pool.grow.idleList ≠ []) :
    ∃ as, exec (step owner) d as =
      some ((d.submit owner i).inRun (owner i) (.fetching ⟨d.nextCall, i⟩) s.pool.grow) := by
  have hread : step owner d (.readEvent i 1) =
      some ((d.submit owner i).inRun (owner i) (.called ⟨d.nextCall, i⟩) s.pool) := by
    rw [step, readEventCb, if_pos (h.atRest _), if_neg Nat.one_ne_zero, ← h.pool]
    simp [submit, inRun]
  exact ⟨_, (exec_cons hread _).trans (exec_called owner _ _ _ hbusy.ne hidle)⟩

/-- A call of `Run` for the connection `i`, from its read event on. -/
theorem Matches.run (h : d.Matches s js T) (hinv : s.Inv c) {i : JobId}
    (hs : s.step (.run i) = some s') (hfront : s.Spares T (.run i)) :
    ∃ as d', exec (step owner) d as = some d' ∧ d'.Matches s' (js ++ [i]) T ∧
      d'.worker = d.worker := by
  rw [WorkerPool.step] at hs
  split_ifs at hs with hbusy
  rw [WorkerPool.run] at hs
  split at hs
  case h_1 => cases hs
  case h_2 t idle hidle =>
    cases hs
    have ht : t ∉ T := fun hmem => hfront t hmem (by rw [hidle, List.head?_cons])
    have hjob : d.job t = none := by
      have hnot := (hinv.front_not_mem (hidle ▸ List.mem_cons_self)).1
      rw [← Option.map_eq_none_iff (f := Call.conn), h.job]
      simpa using (hinv.job_iff t).not.2 hnot
    obtain ⟨as, has⟩ := h.fetching owner i hbusy (hidle ▸ List.cons_ne_nil t idle)
    have hexec := exec_fetching owner (d.submit owner i) (owner i)
      ⟨d.nextCall, i⟩ hidle (h.blocked t ht)
    refine ⟨as ++ [.run (owner i), .run (owner i)], ((d.submit owner i).inRun (owner i)
      (.holding ⟨d.nextCall, i⟩ t) s.pool.grow).assign (owner i) ⟨d.nextCall, i⟩ t, ?_,
      ⟨rfl, fun u => ?_, ?_, ?_, fun e => ?_, h.blocked⟩, ?_⟩
    · exact exec_trans has hexec
    · change _ = Function.update s.job t (some i) u
      rw [job_assign, Function.update_apply]
      split_ifs
      · rfl
      · exact h.job u
    · change (d.assigned ++ [(⟨d.nextCall, i⟩ : Call)]).map Call.conn = _
      rw [List.map_append, h.assigned]
      rfl
    · change d.replaced ++ (d.job t).toList = []
      rw [h.replaced, hjob]
      rfl
    · rw [loop_assign]
      split_ifs with he
      · rfl
      · rw [loop_inRun, if_neg he, loop_submit, if_neg he, h.atRest]
    · rfl

/-- A worker ends its job, and goes to the idle list. -/
theorem Matches.release (h : d.Matches s js T) (ht : t ∉ T) (hjob : (s.job t).isSome) :
    ∃ d', exec (step owner) d [.work t, .work t, .work t] = some d' ∧
      d'.Matches ⟨s.pool.moveToIdleList t, Function.update s.job t none⟩ js (t :: T) ∧
      d'.worker t = .released ∧ ∀ u ≠ t, d'.worker u = d.worker u := by
  have hsome : (d.job t).isSome := by
    rw [← h.job t, Option.isSome_map] at hjob
    exact hjob
  refine ⟨((d.setWorker t .running).complete t).release t, ?_,
    ⟨?_, fun u => ?_, h.assigned, h.replaced, h.atRest, fun u hu => ?_⟩, ?_, fun u hu => ?_⟩
  · have hstart : step owner d (.work t) = some (d.setWorker t .running) := by
      rw [step, work, h.blocked t ht]
      exact if_pos hsome
    have hrunning : step owner (d.setWorker t .running) (.work t) =
        some ((d.setWorker t .running).complete t) := by
      rw [step, work, worker_setWorker, if_pos rfl]
    have hcleared : step owner ((d.setWorker t .running).complete t) (.work t) =
        some (((d.setWorker t .running).complete t).release t) := by
      rw [step, work, worker_complete, if_pos rfl]
    rw [exec_cons hstart, exec_cons hrunning, exec_cons hcleared, exec]
  · exact congrArg (CThreadPool.moveToIdleList · t) h.pool
  · change (((d.setWorker t .running).complete t).job u).map Call.conn =
      Function.update s.job t none u
    rw [job_complete, Function.update_apply]
    split_ifs
    · rfl
    · exact h.job u
  · rw [List.mem_cons, not_or] at hu
    rw [worker_release, if_neg hu.1, worker_complete, if_neg hu.1, worker_setWorker, if_neg hu.1,
      h.blocked u hu.2]
  · rw [worker_release, if_pos rfl]
  · rw [worker_release, if_neg hu, worker_complete, if_neg hu, worker_setWorker, if_neg hu]

/-- The workers in `T` may be anywhere. -/
theorem Matches.setWorker (h : d.Matches s js T) (ht : t ∈ T) (w : WorkerPhase) :
    (d.setWorker t w).Matches s js T := by
  refine ⟨h.pool, h.job, h.assigned, h.replaced, h.atRest, fun u hu => ?_⟩
  have hne : u ≠ t := fun he => hu (he ▸ ht)
  rw [worker_setWorker, if_neg hne, h.blocked u hu]

/-- One of them waits again. -/
theorem Matches.wait (h : d.Matches s js (t :: T)) : (d.setWorker t .blocked).Matches s js T := by
  refine ⟨h.pool, h.job, h.assigned, h.replaced, h.atRest, fun u hu => ?_⟩
  rw [worker_setWorker]
  split_ifs with hut
  · rfl
  · exact h.blocked u (by simp [hut, hu])

/-- A worker tests whether too many are idle, and removes them. -/
theorem Matches.trim (h : d.Matches s js (t :: T)) (ht : d.worker t = .released)
    (hp : s.pool.trim = some p) :
    ∃ as d', exec (step owner) d as = some d' ∧ d'.Matches { s with pool := p } js T ∧
      ∀ u ≠ t, d'.worker u = d.worker u := by
  rw [CThreadPool.trim] at hp
  split_ifs at hp with hmany
  · rw [← h.pool] at hmany hp
    have htest : step owner d (.work t) = some (d.setWorker t (.deleting d.pool.surplus)) := by
      rw [step, work, ht]
      simp only [hmany, if_true]
    generalize hd₁ : d.setWorker t (.deleting d.pool.surplus) = d₁ at htest
    have hdelete : step owner d₁ (.work t) = some ({ d₁ with pool := p }.setWorker t .blocked) := by
      rw [step, work, ← hd₁, worker_setWorker, if_pos rfl]
      change (d.pool.deleteIdleThread d.pool.surplus).map _ = _
      rw [hp]
      rfl
    have h₁ : d₁.Matches s js (t :: T) := hd₁ ▸ h.setWorker List.mem_cons_self _
    have h₂ : { d₁ with pool := p }.Matches { s with pool := p } js (t :: T) :=
      ⟨rfl, h₁.job, h₁.assigned, h₁.replaced, h₁.atRest, h₁.blocked⟩
    refine ⟨[.work t, .work t], _, ?_, h₂.wait, fun u hu => ?_⟩
    · rw [exec_cons htest, exec_cons hdelete, exec]
    · rw [worker_setWorker, if_neg hu, ← hd₁]
      exact (worker_setWorker _ _ _ _).trans (if_neg hu)
  · cases hp
    have htest : step owner d (.work t) = some (d.setWorker t .blocked) := by
      rw [step, work, ht]
      simp only [h.pool, if_neg hmany]
    refine ⟨[.work t], _, ?_, h.wait, fun u hu => ?_⟩
    · rw [exec_cons htest, exec]
    · rw [worker_setWorker, if_neg hu]

/-- The end of a job. -/
theorem Matches.finish (h : d.Matches s js T) (hinv : s.Inv c)
    (hs : s.step (.finish t) = some s') (ht : t ∉ T) :
    ∃ as d', exec (step owner) d as = some d' ∧ d'.Matches s' js T ∧
      ∀ u ≠ t, d'.worker u = d.worker u := by
  rw [WorkerPool.step] at hs
  split_ifs at hs with hbusy
  obtain ⟨p, hp, rfl⟩ := Option.map_eq_some_iff.1 hs
  obtain ⟨d₁, h₁, hm₁, hreleased, hsame⟩ :=
    h.release owner ht ((hinv.job_iff t).2 hbusy)
  obtain ⟨as, d', h₂, hm', hsame'⟩ := hm₁.trim owner hreleased hp
  refine ⟨[.work t, .work t, .work t] ++ as, d', ?_, hm',
    fun u hu => (hsame' u hu).trans (hsame u hu)⟩
  exact exec_trans h₁ h₂

/-- A step of the pool. -/
theorem Matches.step (h : d.Matches s js T) (hinv : s.Inv c) {a : WorkerPool.Action}
    (hs : s.step a = some s') (hok : s.Spares T a) :
    ∃ as d', exec (step owner) d as = some d' ∧ d'.Matches s' (js ++ a.submits.toList) T ∧
      ∀ t ∈ T, d'.worker t = d.worker t := by
  cases a with
  | run i =>
    obtain ⟨as, d', hexec, hm, hsame⟩ := h.run owner hinv hs hok
    exact ⟨as, d', hexec, hm, fun t _ => congrFun hsame t⟩
  | finish t =>
    obtain ⟨as, d', hexec, hm, hsame⟩ := h.finish owner hinv hs hok
    refine ⟨as, d', hexec, ?_, fun u hu => hsame u fun he => hok (he ▸ hu)⟩
    rwa [WorkerPool.Action.submits, Option.toList_none, List.append_nil]

/-- A run of the pool. -/
theorem Matches.exec (h : d.Matches s js T) (hinv : s.Inv c) {as : List WorkerPool.Action}
    (hok : Along WorkerPool.step (WorkerPool.Spares T) s as)
    (hs : Transition.exec WorkerPool.step s as = some s') :
    ∃ bs d', Transition.exec (Dispatch.step owner) d bs = some d' ∧
      d'.Matches s' (js ++ as.filterMap WorkerPool.Action.submits) T ∧
      ∀ t ∈ T, d'.worker t = d.worker t := by
  induction as generalizing s d js with
  | nil =>
    cases hs
    exact ⟨[], d, rfl, by rwa [List.filterMap_nil, List.append_nil], fun _ _ => rfl⟩
  | cons a as ih =>
    obtain ⟨s₁, hstep, hrest⟩ := Option.bind_eq_some_iff.1 hs
    obtain ⟨hspares, hok⟩ := hok s₁ hstep
    obtain ⟨bs₁, d₁, h₁, hm₁, hsame₁⟩ := h.step owner hinv hstep hspares
    obtain ⟨bs₂, d₂, h₂, hm₂, hsame₂⟩ := ih hm₁ (hinv.step hstep) hok hrest
    refine ⟨bs₁ ++ bs₂, d₂, ?_, ?_, fun t ht => (hsame₂ t ht).trans (hsame₁ t ht)⟩
    · exact exec_trans h₁ h₂
    · rw [List.append_assoc] at hm₂
      cases a <;> exact hm₂

theorem init_matches (c : PoolNums) : (init c).Matches (.init c) [] [] where
  pool := rfl
  job _ := rfl
  assigned := rfl
  replaced := rfl
  atRest _ := rfl
  blocked _ _ := rfl

/-- For every run of the pool, in which a call of `Run` and the end of a job are single
    steps, there is one of the event loops and the workers, section by section, that ends
    with the same lists and the same jobs, has submitted the same jobs in the same order,
    and has replaced none. -/
theorem exists_matches (c : PoolNums) {as : List WorkerPool.Action}
    (hs : exec WorkerPool.step (WorkerPool.init c) as = some s) :
    ∃ bs d, exec (step owner) (init c) bs = some d ∧
      d.Matches s (as.filterMap WorkerPool.Action.submits) [] := by
  have hinv := WorkerPool.init_inv c
  have hok := WorkerPool.along_removed hinv (T := []) (by simp) as
  obtain ⟨bs, d, hexec, hm, -⟩ := (init_matches c).exec owner hinv hok hs
  exact ⟨bs, d, hexec, hm⟩

/-- Two jobs, the first of which is over before the second is submitted. -/
theorem exists_matches_two : ∃ s bs d,
    exec WorkerPool.step (WorkerPool.init .default) [.run 7, .finish 0, .run 8] = some s ∧
      exec (step (· % 2)) (init .default) bs = some d ∧ d.Matches s [7, 8] [] := by
  obtain ⟨s, hs⟩ := Option.isSome_iff_exists.1 (show
    (exec WorkerPool.step (WorkerPool.init .default) [.run 7, .finish 0, .run 8]).isSome by
      decide +kernel)
  obtain ⟨bs, d, hexec, hm⟩ := exists_matches (· % 2) .default hs
  exact ⟨s, bs, d, hs, hexec, hm⟩

/-! ## Removal without idle threads -/

/-- A worker is about to remove more threads than are idle: it goes on with a pointer that
    was not set. -/
def Exhausted (s : Dispatch) : Prop :=
  ∃ t num, s.worker t = .deleting num ∧ s.pool.deleteIdleThread num = none

/-- All threads get busy; one of them becomes idle, but does not go on; and others become
    idle after it. -/
theorem exists_released (c : PoolNums) (hhigh : c.availHigh < c.maxNum) :
    ∃ bs d s js t, exec (step owner) (init c) bs = some d ∧ d.Matches s js [t] ∧ s.Inv c ∧
      [t] <+: s.pool.idleList ∧ s.pool.idleList.length = c.availHigh ∧
      s.pool.threadList.length = c.maxNum ∧ s.pool.created = c.maxNum ∧
      d.worker t = .released := by
  have hone := c.one_le_availLow.trans (c.availLow_le.trans c.initNum_le_availHigh)
  obtain ⟨as, s₁, h₁, hr, hfull⟩ := (WorkerPool.init_removing c).fill
  obtain ⟨bs₁, d₁, hb₁, hm₁⟩ := exists_matches owner c h₁
  have hlen := hr.inv.partition.length
  have hle := hr.inv.threadList_le
  have hcreated := hr.created
  have hnil : s₁.pool.idleList = [] := List.eq_nil_of_length_eq_zero (by omega)
  obtain ⟨t, ht⟩ : ∃ t, t ∈ s₁.pool.busyList := List.exists_mem_of_length_pos (by omega)
  obtain ⟨-, hinv₂⟩ := hr.inv.finish_room ht (by rw [hnil]; exact hone)
  obtain ⟨d₂, hb₂, hm₂, hreleased, -⟩ :=
    hm₁.release owner List.not_mem_nil ((hr.inv.job_iff t).2 ht)
  have hidle₂ : (s₁.pool.moveToIdleList t).idleList = [t] := by
    rw [CThreadPool.moveToIdleList, hnil]
    rfl
  have hbusy₂ : c.availHigh - 1 ≤ (s₁.pool.moveToIdleList t).busyList.length := by
    rw [CThreadPool.moveToIdleList, List.length_erase_of_mem ht]
    omega
  obtain ⟨ts, s₃, h₃, hinv₃, hpre, hidle₃, hthreads, hcreated₃⟩ :=
    hinv₂.exists_finish (n := c.availHigh - 1) (by rw [hidle₂, List.length_singleton]; omega) hbusy₂
  have hspared : ∀ u ∈ [t], u ∉ (s₁.pool.moveToIdleList t).busyList := by
    intro u hu hmem
    rw [List.mem_singleton.1 hu] at hmem
    exact hr.inv.partition.nodup_busyList.not_mem_erase hmem
  obtain ⟨bs₃, d₃, hb₃, hm₃, hsame⟩ :=
    hm₂.exec owner hinv₂ (WorkerPool.along_finish hspared ts) h₃
  refine ⟨bs₁ ++ ([.work t, .work t, .work t] ++ bs₃), d₃, s₃, _, t, ?_, hm₃, hinv₃,
    hidle₂ ▸ hpre, ?_, ?_, ?_, ?_⟩
  · exact exec_trans hb₁ (exec_trans hb₂ hb₃)
  · rw [hidle₃, hidle₂, List.length_singleton]
    omega
  · rw [hthreads]
    change s₁.pool.threadList.length = _
    omega
  · rw [hcreated₃]
    change s₁.pool.created = _
    omega
  · rw [hsame t List.mem_cons_self, hreleased]

/-- A worker is about to remove threads, and is removed itself by another one. -/
theorem exists_removed (c : PoolNums) (hhigh : c.availHigh < c.maxNum) :
    ∃ bs d s js t num r, exec (step owner) (init c) bs = some d ∧ d.Matches s js [t] ∧
      s.Removing c r ∧ s.Removed t ∧ d.worker t = .deleting num ∧ 0 < num.toNat ∧
      num.toNat ≤ c.availHigh := by
  have hinit := c.initNum_le_availHigh
  obtain ⟨bs, d, s, js, t, hexec, hm, hinv, hfront, hidle, hthreads, hcreated, hreleased⟩ :=
    exists_released owner c hhigh
  have hlen := hinv.partition.length
  have htidle : t ∈ s.pool.idleList := hfront.subset List.mem_cons_self
  obtain ⟨u, hu⟩ : ∃ u, u ∈ s.pool.busyList := List.exists_mem_of_length_pos (by omega)
  have hne : t ≠ u := fun he => hinv.partition.disjoint htidle (he ▸ hu)
  -- `u` becomes idle, and both find that too many are idle
  obtain ⟨d₁, h₁, hm₁, hreleased₁, hsame₁⟩ := hm.release owner
    (fun hmem => hne (List.mem_singleton.1 hmem).symm) ((hinv.job_iff u).2 hu)
  have hmany : (s.pool.moveToIdleList u).isCrowded := hinv.isCrowded_iff.2 (by omega)
  have hsurplus := hinv.surplus_eq (t := u) (by omega)
  have htest : step owner d₁ (.work t) =
      some (d₁.setWorker t (.deleting (s.pool.moveToIdleList u).surplus)) := by
    rw [step, work, hsame₁ t hne, hreleased]
    simp only [hm₁.pool, hmany, if_true]
  have hpos : 0 < (s.pool.moveToIdleList u).surplus.toNat := by
    rw [hsurplus]
    omega
  have hle : (s.pool.moveToIdleList u).surplus.toNat ≤ c.availHigh := by
    have := c.one_le_availLow.trans c.availLow_le
    rw [hsurplus]
    omega
  -- `u` removes `t`
  obtain ⟨s', hs', hinv', -⟩ := hinv.finish hu
  obtain ⟨p, hp, rfl⟩ := Option.map_eq_some_iff.1 hs'
  have hm₂ := hm₁.setWorker (List.mem_cons_of_mem u List.mem_cons_self)
    (.deleting (s.pool.moveToIdleList u).surplus)
  obtain ⟨bs₃, d₃, h₃, hm₃, hsame₃⟩ := hm₂.trim owner
    (by rw [worker_setWorker, if_neg hne.symm, hreleased₁]) hp
  rw [CThreadPool.trim, if_pos hmany] at hp
  obtain ⟨-, -, hcreated', -, hsub⟩ := CThreadPool.deleteLoop_spec hp
  have hcount : p.threadList.length ≤ p.created := by
    rw [hcreated']
    exact hsub.length_le.trans (hthreads.trans hcreated.symm).le
  have hgone : t ∉ p.threadList := CThreadPool.not_mem_deleteLoop hp hpos
    (hfront.trans (List.prefix_append _ _)) hinv.partition.nodup
  have hold : t < p.created := by
    rw [hcreated']
    exact hinv.partition.lt_created t (hinv.partition.mem_iff.2 (.inl htidle))
  refine ⟨bs ++ ([.work u, .work u, .work u] ++ (.work t :: bs₃)), d₃, _, _, t, _,
    p.created - p.threadList.length, ?_, hm₃, ⟨hinv', ?_⟩, ⟨hold, hgone⟩, ?_, hpos, hle⟩
  · exact exec_trans hexec (exec_trans h₁ ((exec_cons htest bs₃).trans h₃))
  · exact (Nat.add_sub_of_le hcount).symm
  · rw [hsame₃ t hne, worker_setWorker, if_pos rfl]

theorem exists_exhausted (c : PoolNums) (hhigh : c.availHigh < c.maxNum) :
    ∃ bs d, exec (step owner) (init c) bs = some d ∧ d.Exhausted := by
  obtain ⟨bs, d, s, js, t, num, r, hexec, hm, hr, hremoved, hdeleting, hpos, -⟩ :=
    exists_removed owner c hhigh
  obtain ⟨as, s', hs', hr', hfull⟩ := hr.fill
  have hspared := WorkerPool.along_removed hr.inv (T := [t])
    (fun u hu => List.mem_singleton.1 hu ▸ hremoved) as
  obtain ⟨bs', d', hexec', hm', hsame⟩ := hm.exec owner hr.inv hspared hs'
  refine ⟨bs ++ bs', d', ?_, t, num, ?_, ?_⟩
  · exact exec_trans hexec hexec'
  · rw [hsame t List.mem_cons_self, hdeleting]
  · have hlen := hr'.inv.partition.length
    have hle := hr'.inv.threadList_le
    rw [hm'.pool]
    exact CThreadPool.deleteLoop_nil hpos (List.eq_nil_of_length_eq_zero (by omega))

/-- A call of `Run` has returned without a worker. -/
def GivenUp (s : Dispatch) : Prop :=
  ∃ n < s.nextCall, (∀ j ∈ s.assigned, j.id ≠ n) ∧ ∀ e j, (s.loop e).call = some j → j.id ≠ n

/-- A worker is about to remove all idle threads. -/
theorem exists_deleting (c : PoolNums) (hhigh : c.availHigh < c.maxNum) :
    ∃ bs d s js t num, exec (step owner) (init c) bs = some d ∧ d.Matches s js [t] ∧ s.Inv c ∧
      d.worker t = .deleting num ∧ s.pool.idleList.length = num.toNat ∧ 0 < num.toNat ∧
      s.pool.threadList.length = c.maxNum := by
  obtain ⟨bs₁, d₁, s₁, js, t, num, r, h₁, hm₁, hr, hremoved, hdeleting, hpos, hnum⟩ :=
    exists_removed owner c hhigh
  obtain ⟨as, s₂, hs₂, hr₂, hfull⟩ := hr.fill
  have hlen := hr₂.inv.partition.length
  have hle := hr₂.inv.threadList_le
  obtain ⟨ts, s, hs₃, hinv, -, hidle, hthreads, -⟩ :=
    hr₂.inv.exists_finish (n := num.toNat) (by omega) (by omega)
  have hs : exec WorkerPool.step s₁ (as ++ ts.map .finish) = some s := exec_trans hs₂ hs₃
  have hspared := WorkerPool.along_removed hr.inv (T := [t])
    (fun u hu => List.mem_singleton.1 hu ▸ hremoved) (as ++ ts.map .finish)
  obtain ⟨bs₂, d, h₂, hm, hsame⟩ := hm₁.exec owner hr.inv hspared hs
  refine ⟨bs₁ ++ bs₂, d, s, _, t, num, ?_, hm, hinv, ?_, ?_, hpos, ?_⟩
  · exact exec_trans h₁ h₂
  · rw [hsame t List.mem_cons_self, hdeleting]
  · rw [hidle]
    omega
  · rw [hthreads]
    omega

/-- All idle threads are removed after `GetIdleThread` has found that there are some, and
    before it takes one. -/
theorem exec_race {x : Dispatch} {num : Int} {e : LoopId} {j : Call}
    (hw : x.worker t = .deleting num) (hl : x.loop e = .fetching j)
    (hp : x.pool.deleteIdleThread num = some p) (hnil : p.idleList = []) :
    exec (step owner) x [.work t, .run e] =
      some (({ x with pool := p }.setWorker t .blocked).setLoop e .atRest) := by
  have hdelete : step owner x (.work t) = some ({ x with pool := p }.setWorker t .blocked) := by
    rw [step, work, hw]
    simp only [hp, Option.map_some]
  have hreturn : step owner ({ x with pool := p }.setWorker t .blocked) (.run e) =
      some (({ x with pool := p }.setWorker t .blocked).setLoop e .atRest) := by
    have hl' : ({ x with pool := p }.setWorker t .blocked).loop e = .fetching j := hl
    have hempty : ({ x with pool := p }.setWorker t .blocked).pool.idleList = [] := hnil
    rw [step, run, hl']
    simp only [hempty]
  rw [exec_cons hdelete, exec_cons hreturn, exec]

theorem exists_givenUp (c : PoolNums) (hhigh : c.availHigh < c.maxNum) :
    ∃ bs d, exec (step owner) (init c) bs = some d ∧ d.GivenUp := by
  obtain ⟨bs, d, s, js, t, num, hexec, hm, hinv, hdeleting, hidle, hpos, hthreads⟩ :=
    exists_deleting owner c hhigh
  have hlen := hinv.partition.length
  obtain ⟨hmax, hlow, -, hinit⟩ := hinv.nums
  have hbusy : s.pool.busyList.length < s.pool.maxNum := by omega
  -- `Run` creates no thread, since there are `m_MaxNum`
  have hgrow : s.pool.grow = s.pool := by
    obtain ⟨-, hall, -⟩ := CThreadPool.grow_spec hlen (hlow ▸ c.one_le_availLow)
      (by rw [hlow, hinit]; exact c.availLow_le)
      (by rw [hinit]; exact c.initNum_le_maxNum.trans_lt c.maxNum_lt) (hmax ▸ c.maxNum_lt)
      (hmax ▸ hinv.threadList_le) hbusy
    have hzero : s.pool.growNum = 0 := by omega
    rw [CThreadPool.grow, hzero]
    rfl
  have hne : s.pool.idleList ≠ [] := List.ne_nil_of_length_pos (hidle ▸ hpos)
  obtain ⟨as, has⟩ := hm.fetching owner 0 hbusy (by rwa [hgrow])
  rw [hgrow] at has
  generalize hx : (d.submit owner 0).inRun (owner 0) (.fetching ⟨d.nextCall, 0⟩) s.pool = x at has
  obtain ⟨p, hp, hnil⟩ : ∃ p, s.pool.deleteIdleThread num = some p ∧ p.idleList = [] :=
    ⟨_, CThreadPool.deleteLoop_eq hidle.ge, List.drop_of_length_le hidle.le⟩
  have hw : x.worker t = .deleting num := by rw [← hx]; exact hdeleting
  have hl : x.loop (owner 0) = .fetching ⟨d.nextCall, 0⟩ := by rw [← hx, loop_inRun, if_pos rfl]
  have hp' : x.pool.deleteIdleThread num = some p := by rw [← hx]; exact hp
  have hrace := exec_race owner hw hl hp' hnil
  refine ⟨_, _, exec_trans hexec (exec_trans has hrace), d.nextCall, ?_, fun j hj => ?_,
    fun e j hj => ?_⟩
  · change d.nextCall < x.nextCall
    rw [← hx]
    exact Nat.lt_succ_self d.nextCall
  · have hd : d.Inv owner :=
      exec_inv (I := Inv owner) (fun _ _ _ h hs => h.step hs) (init_inv c) hexec
    have hassigned : x.assigned = d.assigned := by rw [← hx]; rfl
    exact (hd.lt_nextCall j (hassigned ▸ hj)).ne
  · rw [loop_setLoop] at hj
    split_ifs at hj with he
    · cases hj
    · have hrest : x.loop e = .atRest := by
        rw [← hx, loop_inRun, if_neg he, loop_submit, if_neg he, hm.atRest]
      change (x.loop e).call = some j at hj
      rw [hrest] at hj
      cases hj

/-- No thread has been removed, or is to be. -/
structure NoneRemoved (c : PoolNums) (s : Dispatch) : Prop where
  availHigh : s.pool.availHigh = c.availHigh
  created : s.pool.created = s.pool.threadList.length
  worker : ∀ t num, s.worker t ≠ .deleting num

variable {x x' : Dispatch} {d₀ : LoopId}

/-- With one event loop, no more threads are idle than there are. -/
theorem NoneRemoved.not_isCrowded (h : x.NoneRemoved c) (hsingle : x.Single d₀)
    (hbounded : x.Bounded c d₀) (hhigh : c.maxNum ≤ c.availHigh) : ¬x.pool.isCrowded := by
  have hsub : x.pool.idleList ⊆ List.range x.pool.created := fun u hu =>
    List.mem_range.2 (hsingle.lt_created u (List.mem_append_left _ hu))
  have hidle := (List.subperm_of_subset (List.nodup_append.1 hsingle.nodup).1 hsub).length_le
  have hthreads := hbounded.threads_le
  have hlt := c.availHigh_lt
  rw [List.length_range, h.created] at hidle
  rw [CThreadPool.isCrowded, decide_eq_true_iff, h.availHigh, CString.toInt32, CString.toSizeT]
  omega

/-- What a section of a worker does then. -/
theorem NoneRemoved.work_cases (h : x.NoneRemoved c)
    (hcrowd : x.worker t = .released → ¬x.pool.isCrowded) (hs : x.work t = some x') :
    (x.worker t = .blocked ∧ (x.job t).isSome ∧ x' = x.setWorker t .running) ∨
      (x.worker t = .running ∧ x' = x.complete t) ∨
      (x.worker t = .cleared ∧ x' = x.release t) ∨
      (x.worker t = .released ∧ x' = x.setWorker t .blocked) := by
  rw [Dispatch.work] at hs
  split at hs
  case h_1 hw =>
    split_ifs at hs with hjob
    cases hs
    exact .inl ⟨hw, hjob, rfl⟩
  case h_2 hw =>
    cases hs
    exact .inr (.inl ⟨hw, rfl⟩)
  case h_3 hw =>
    cases hs
    exact .inr (.inr (.inl ⟨hw, rfl⟩))
  case h_4 hw =>
    rw [if_neg (hcrowd hw)] at hs
    cases hs
    exact .inr (.inr (.inr ⟨hw, rfl⟩))
  case h_5 num hw => exact absurd hw (h.worker t num)

theorem NoneRemoved.work (h : x.NoneRemoved c)
    (hcrowd : x.worker t = .released → ¬x.pool.isCrowded) (hs : x.work t = some x') :
    x'.NoneRemoved c := by
  have hset : ∀ w, (∀ num, w ≠ .deleting num) → ∀ u num,
      Function.update x.worker t w u ≠ .deleting num := by
    intro w hw u num
    rw [Function.update_apply]
    split_ifs
    · exact hw num
    · exact h.worker u num
  rcases h.work_cases hcrowd hs with ⟨-, -, rfl⟩ | ⟨-, rfl⟩ | ⟨-, rfl⟩ | ⟨-, rfl⟩
  all_goals exact ⟨h.availHigh, h.created, hset _ (by simp)⟩

theorem NoneRemoved.run {d : LoopId} (h : x.NoneRemoved c) (hs : x.run d = some x') :
    x'.NoneRemoved c := by
  rcases run_spec hs with ⟨l, rfl, -, -⟩ | ⟨j, n, -, rfl⟩ | ⟨j, u, -, -, rfl⟩
  · exact ⟨h.availHigh, h.created, h.worker⟩
  · refine ⟨h.availHigh, ?_, h.worker⟩
    have hcreated := h.created
    change (CThreadPool.createLoop 1 x.pool).created =
      (CThreadPool.createLoop 1 x.pool).threadList.length
    rw [CThreadPool.createLoop_eq]
    simp [hcreated]
  · exact ⟨h.availHigh, h.created, h.worker⟩

theorem init_noneRemoved (c : PoolNums) : (init c).NoneRemoved c where
  availHigh := by simp [init, WorkerPool.init, CThreadPool.newThreads_eq]
  created := by simp [init, WorkerPool.init, CThreadPool.newThreads_eq]
  worker _ _ := nofun

/-- A section of `Run` that does not find the idle list empty ends the call with a worker, or
    goes on with it. -/
theorem run_call {d : LoopId} (hs : x.run d = some x')
    (hidle : ∀ j, x.loop d = .fetching j → x.pool.idleList ≠ []) :
    (x'.assigned = x.assigned ∧ x'.nextCall = x.nextCall ∧
        (x'.loop d).call = (x.loop d).call ∧
        ∀ j, x'.loop d = .fetching j → x'.pool.idleList ≠ []) ∨
      ∃ j t, x.loop d = .holding j t ∧ x' = x.assign d j t := by
  have hset : ∀ l p, l.call = (x.loop d).call → (∀ j, l = .fetching j → p.idleList ≠ []) →
      ({ x with pool := p }.setLoop d l).assigned = x.assigned ∧
        ({ x with pool := p }.setLoop d l).nextCall = x.nextCall ∧
        (({ x with pool := p }.setLoop d l).loop d).call = (x.loop d).call ∧
        ∀ j, ({ x with pool := p }.setLoop d l).loop d = .fetching j →
          ({ x with pool := p }.setLoop d l).pool.idleList ≠ [] := by
    intro l p hcall hl
    refine ⟨rfl, rfl, ?_, fun j hj => ?_⟩
    · rw [loop_setLoop, if_pos rfl, hcall]
    · rw [loop_setLoop, if_pos rfl] at hj
      exact hl j hj
  rw [run] at hs
  split at hs
  case h_1 => cases hs
  case h_2 j hl =>
    cases hs
    refine .inl (hset _ x.pool ?_ fun k hk => ?_)
    · rw [hl]
      split_ifs <;> rfl
    · split_ifs at hk
  case h_3 j hl =>
    cases hs
    exact .inl (hset _ x.pool (by rw [hl]; rfl) (by simp))
  case h_4 j hl =>
    cases hs
    exact .inl (hset _ x.pool (by rw [hl]; rfl) (by simp))
  case h_5 j n hl =>
    cases hs
    exact .inl (hset _ _ (by rw [hl]; rfl) (by simp))
  case h_6 j hl =>
    split_ifs at hs with hnil
    cases hs
    exact .inl (hset _ x.pool (by rw [hl]; rfl) fun _ _ => hnil)
  case h_7 j hl =>
    split at hs
    · next hnil => exact absurd hnil (hidle j hl)
    · cases hs
      exact .inl (hset _ x.pool (by rw [hl]; rfl) (by simp))
  case h_8 j u hl =>
    split_ifs at hs
    cases hs
    exact .inr ⟨j, u, hl, rfl⟩

/-- What holds with one event loop where no thread is ever removed: when the loop takes the
    worker at the front, there is one, and no call has been given up: the calls are given to
    workers in their order. -/
structure Lossless (c : PoolNums) (d₀ : LoopId) (s : Dispatch) : Prop where
  inv : s.Inv fun _ => d₀
  single : s.Single d₀
  bounded : s.Bounded c d₀
  noneRemoved : s.NoneRemoved c
  fetching : ∀ j, s.loop d₀ = .fetching j → s.pool.idleList ≠ []
  numbered : (s.assigned ++ (s.loop d₀).call.toList).map Call.id = List.range s.nextCall

/-- Every call so far has been given to a worker, or is in progress. -/
theorem Lossless.pending (h : x.Lossless c d₀) {n : Nat} (hn : n < x.nextCall) :
    (∃ j ∈ x.assigned, j.id = n) ∨ ∃ j, (x.loop d₀).call = some j ∧ j.id = n := by
  rw [← List.mem_range, ← h.numbered] at hn
  obtain ⟨j, hj, he⟩ := List.mem_map.1 hn
  rcases List.mem_append.1 hj with hj | hj
  · exact .inl ⟨j, hj, he⟩
  · exact .inr ⟨j, Option.mem_toList.1 hj, he⟩

theorem Lossless.run {d : LoopId} (h : x.Lossless c d₀) (hs : x.run d = some x') :
    (∀ j, x'.loop d₀ = .fetching j → x'.pool.idleList ≠ []) ∧
      (x'.assigned ++ (x'.loop d₀).call.toList).map Call.id = List.range x'.nextCall := by
  have hd := h.inv.loop_eq hs
  subst hd
  have hnumbered := h.numbered
  rcases run_call hs h.fetching with ⟨hassigned, hnext, hcall, hidle⟩ | ⟨j, t, hl, rfl⟩
  · rw [hassigned, hnext, hcall]
    exact ⟨hidle, hnumbered⟩
  · rw [loop_assign, if_pos rfl]
    rw [hl] at hnumbered
    refine ⟨fun k hk => (by cases hk), ?_⟩
    simpa [assign, LoopPhase.call] using hnumbered

theorem Lossless.readEventCb (h : x.Lossless c d₀) {i : ConnId} {len : Nat}
    (hs : x.readEventCb (fun _ => d₀) i len = some x') :
    x'.NoneRemoved c ∧ (∀ j, x'.loop d₀ = .fetching j → x'.pool.idleList ≠ []) ∧
      (x'.assigned ++ (x'.loop d₀).call.toList).map Call.id = List.range x'.nextCall := by
  rcases readEventCb_cases (fun _ => d₀) hs with ⟨hl, rfl | ⟨-, rfl⟩⟩
  · exact ⟨h.noneRemoved, h.fetching, h.numbered⟩
  · have hnone := h.noneRemoved
    have hnumbered := h.numbered
    rw [hl] at hnumbered
    rw [loop_submit, if_pos rfl]
    refine ⟨⟨hnone.availHigh, hnone.created, hnone.worker⟩, fun j hj => (by cases hj), ?_⟩
    simpa [submit, LoopPhase.call, List.range_succ] using hnumbered

/-- It is kept, if no worker finds that more than `m_AvailHigh` threads are idle. -/
theorem Lossless.step (h : x.Lossless c d₀) {a : Action}
    (hcrowd : ∀ t, a = .work t → x.worker t = .released → ¬x.pool.isCrowded)
    (hs : x.step (fun _ => d₀) a = some x') : x'.Lossless c d₀ := by
  have hinv := h.inv.step hs
  have hsingle := h.single.step h.inv hs
  have hbounded := h.bounded.step h.inv hs
  cases a with
  | readEvent i len =>
    obtain ⟨hnone, hfetching, hnumbered⟩ := h.readEventCb hs
    exact ⟨hinv, hsingle, hbounded, hnone, hfetching, hnumbered⟩
  | run d =>
    obtain ⟨hfetching, hnumbered⟩ := h.run hs
    exact ⟨hinv, hsingle, hbounded, h.noneRemoved.run hs, hfetching, hnumbered⟩
  | work t =>
    have hnone := h.noneRemoved.work (hcrowd t rfl) hs
    rcases h.noneRemoved.work_cases (hcrowd t rfl) hs with
      ⟨-, -, rfl⟩ | ⟨-, rfl⟩ | ⟨-, rfl⟩ | ⟨-, rfl⟩
    · exact ⟨hinv, hsingle, hbounded, hnone, h.fetching, h.numbered⟩
    · exact ⟨hinv, hsingle, hbounded, hnone, h.fetching, h.numbered⟩
    · exact ⟨hinv, hsingle, hbounded, hnone,
        fun _ _ => List.append_ne_nil_of_right_ne_nil _ (List.cons_ne_nil t []), h.numbered⟩
    · exact ⟨hinv, hsingle, hbounded, hnone, h.fetching, h.numbered⟩

theorem Lossless.not_isCrowded (h : x.Lossless c d₀) (hhigh : c.maxNum ≤ c.availHigh) :
    ¬x.pool.isCrowded :=
  h.noneRemoved.not_isCrowded h.single h.bounded hhigh

theorem init_lossless (c : PoolNums) (d₀ : LoopId) : (init c).Lossless c d₀ where
  inv := init_inv c
  single := init_single c d₀
  bounded := init_bounded c d₀
  noneRemoved := init_noneRemoved c
  fetching _ := nofun
  numbered := rfl

theorem lossless_of_exec (d₀ : LoopId) (c : PoolNums) (hhigh : c.maxNum ≤ c.availHigh)
    {as : List Action} (hs : exec (step fun _ => d₀) (init c) as = some x) : x.Lossless c d₀ :=
  exec_inv (I := Lossless c d₀)
    (fun _ _ _ h hs => h.step (fun _ _ _ => h.not_isCrowded hhigh) hs) (init_lossless c d₀) hs

/-- With one event loop, there is a run that gets a worker to use a thread of an empty idle
    list if and only if `m_AvailHigh` is less than `m_MaxNum`, as it is by default. -/
theorem exhausted_iff (d₀ : LoopId) (c : PoolNums) :
    (∃ as s, exec (step fun _ => d₀) (init c) as = some s ∧ s.Exhausted) ↔
      c.availHigh < c.maxNum := by
  refine ⟨fun ⟨as, s, hs, t, num, hdeleting, _⟩ => ?_, exists_exhausted _ c⟩
  by_contra hhigh
  exact (lossless_of_exec d₀ c (not_lt.1 hhigh) hs).noneRemoved.worker t num hdeleting

/-- With one event loop, there is a run in which a call of `Run` returns without a worker, so
    that nothing processes what the connection has received, if and only if `m_AvailHigh` is
    less than `m_MaxNum`. -/
theorem givenUp_iff (d₀ : LoopId) (c : PoolNums) :
    (∃ as s, exec (step fun _ => d₀) (init c) as = some s ∧ s.GivenUp) ↔
      c.availHigh < c.maxNum := by
  refine ⟨fun ⟨as, s, hs, n, hn, hassigned, hcalls⟩ => ?_, exists_givenUp _ c⟩
  by_contra hhigh
  rcases (lossless_of_exec d₀ c (not_lt.1 hhigh) hs).pending hn with ⟨j, hj, he⟩ | ⟨j, hj, he⟩
  · exact hassigned j hj he
  · exact hcalls d₀ j hj he

end Dispatch

end VsHttpServer
