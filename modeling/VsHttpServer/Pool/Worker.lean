import VsHttpServer.CString
import VsHttpServer.Pool.Basic
import VsHttpServer.Transition
import Mathlib.Algebra.Group.Nat.Defs
import Mathlib.Algebra.Order.Group.Int

/-!
# The worker pool

The threads that process requests, one `CThreadPool::Run` and one completed job
at a time. `Run` creates threads when fewer than `m_AvailLow` are idle, up to
`m_MaxNum` in all, and gives the job to the first idle thread; a thread that has
finished goes to the back of the idle list, and when more than `m_AvailHigh` are
idle, those at the front are removed until `m_InitNum` are left.

* `GrowthExact`: the arithmetic of the growth step, which mixes `int`, `unsigned
  int` and `size_t`, has the values of the integers;
* `grow_leaves_idle`: this is so in any pool that is not all busy, a thread is idle
  afterwards, and there are at most `m_MaxNum`;
* `Inv`: the invariant of the pool, kept by `Inv.run` and `Inv.finish`;
* `workers_partition`: what holds after any number of them.
-/

namespace VsHttpServer

open CString Transition

open scoped List

/-- A submitted `CJob`. -/
abbrev JobId := Nat

namespace CThreadPool

/-! ## Growth -/

/-- `GetAllNum`. -/
def getAllNum (p : CThreadPool) : Int := toInt32 p.threadList.length

/-- The number of threads `Run` asks `CreateIdleThread` for. -/
def growth (p : CThreadPool) : Int :=
  if toSizeT (toUInt32 (p.getAllNum + p.initNum) - p.idleList.length) < p.maxNum then
    toInt32 (toSizeT (p.initNum - p.idleList.length))
  else toInt32 (toUInt32 (p.maxNum - p.getAllNum))

/-- The number of iterations of `CreateIdleThread` in the growth step of `Run`. -/
def growNum (p : CThreadPool) : Nat :=
  if p.idleList.length < p.availLow then p.growth.toNat else 0

/-- The growth step of `Run`. -/
def grow (p : CThreadPool) : CThreadPool := createLoop p.growNum p

/-- `GetBusyNum`. -/
def getBusyNum (p : CThreadPool) : Int := toInt32 p.busyList.length

/-- What becomes of a call of `GetIdleThread`: it waits for `m_IdleCond`, or returns `NULL`
    or a thread. -/
inductive IdleThread
  | wait
  | null
  | thread (t : ThreadId)
  deriving DecidableEq

/-- `GetIdleThread`, with no other change of the idle list meanwhile. -/
def getIdleThread (p : CThreadPool) : IdleThread :=
  if p.idleList.length = 0 then .wait
  else
    match p.idleList with
    | t :: _ => .thread t
    | [] => .null

/-- The test after `MoveToIdleList` in `CWorkerThread::Run`. -/
def isCrowded (p : CThreadPool) : Bool := toSizeT (toInt32 p.availHigh) < p.idleList.length

/-- The number of threads that `CWorkerThread::Run` then asks `DeleteIdleThread` to remove. -/
def surplus (p : CThreadPool) : Int := toInt32 (toSizeT (p.idleList.length - toInt32 p.initNum))

/-- The test, with the call of `DeleteIdleThread`. -/
def trim (p : CThreadPool) : Option CThreadPool :=
  if p.isCrowded then p.deleteIdleThread p.surplus else some p

variable {p : CThreadPool}

/-- The arithmetic of the growth step is that of the integers: the operands that are
    converted, and each sum and difference, keep their values. -/
structure GrowthExact (p : CThreadPool) : Prop where
  /-- `GetBusyNum()`, and as compared with `m_MaxNum`. -/
  busyNum : p.getBusyNum = p.busyList.length ∧ toUInt32 p.getBusyNum = p.busyList.length
  /-- `GetAllNum()`, and as an operand of an `unsigned int`. -/
  allNum : p.getAllNum = p.threadList.length ∧ toUInt32 p.getAllNum = p.threadList.length
  /-- `GetAllNum()+m_InitNum`. -/
  sum : toUInt32 (p.getAllNum + p.initNum) = p.threadList.length + p.initNum
  /-- `GetAllNum()+m_InitNum-m_IdleList.size()`. -/
  target : toSizeT (toUInt32 (p.getAllNum + p.initNum) - p.idleList.length) =
    p.threadList.length + p.initNum - p.idleList.length
  /-- `m_InitNum-m_IdleList.size()`, and as the argument of `CreateIdleThread`. -/
  missing : p.idleList.length < p.availLow →
    toSizeT (p.initNum - p.idleList.length) = p.initNum - p.idleList.length ∧
      toInt32 (toSizeT (p.initNum - p.idleList.length)) = p.initNum - p.idleList.length
  /-- `m_MaxNum-GetAllNum()`, and as the argument of `CreateIdleThread`. -/
  room : toUInt32 (p.maxNum - p.getAllNum) = p.maxNum - p.threadList.length ∧
    toInt32 (toUInt32 (p.maxNum - p.getAllNum)) = p.maxNum - p.threadList.length

theorem growthExact (hlen : p.threadList.length = p.idleList.length + p.busyList.length)
    (hall : p.threadList.length ≤ p.maxNum) (hmax : p.maxNum < 2 ^ 30) (hinit : p.initNum < 2 ^ 30)
    (hlow : p.availLow ≤ p.initNum) : p.GrowthExact := by
  have hget : p.getAllNum = p.threadList.length := by
    rw [getAllNum, toInt32]
    omega
  have hbusy : p.getBusyNum = p.busyList.length := by
    rw [getBusyNum, toInt32]
    omega
  have hsum : toUInt32 (p.getAllNum + p.initNum) = p.threadList.length + p.initNum := by
    rw [toUInt32, hget]
    omega
  have hroom : toUInt32 (p.maxNum - p.getAllNum) = p.maxNum - p.threadList.length := by
    rw [toUInt32, hget]
    omega
  refine ⟨⟨hbusy, ?_⟩, ⟨hget, ?_⟩, hsum, ?_, fun hidle => ?_, hroom, ?_⟩
  · rw [hbusy, toUInt32]
    omega
  · rw [hget, toUInt32]
    omega
  · rw [hsum, toSizeT]
    omega
  · have hmissing : toSizeT (p.initNum - p.idleList.length) = p.initNum - p.idleList.length := by
      rw [toSizeT]
      omega
    refine ⟨hmissing, ?_⟩
    rw [hmissing, toInt32]
    omega
  · rw [hroom, toInt32]
    omega

/-- What the growth step asks `CreateIdleThread` for, in integers. -/
theorem GrowthExact.growth_eq (h : p.GrowthExact) (hidle : p.idleList.length < p.availLow) :
    p.growth =
      if (p.threadList.length + p.initNum - p.idleList.length : Int) < p.maxNum then
        (p.initNum - p.idleList.length : Int)
      else p.maxNum - p.threadList.length := by
  rw [growth, h.target, (h.missing hidle).2, h.room.2]

/-- The growth step makes so many threads that one is idle, and that there are at
    most `m_MaxNum`. -/
theorem grow_spec (hlen : p.threadList.length = p.idleList.length + p.busyList.length)
    (hlow : 1 ≤ p.availLow) (hinit : p.availLow ≤ p.initNum) (hinit' : p.initNum < 2 ^ 30)
    (hmax : p.maxNum < 2 ^ 30) (hall : p.threadList.length ≤ p.maxNum)
    (hbusy : p.busyList.length < p.maxNum) :
    0 < p.idleList.length + p.growNum ∧ p.threadList.length + p.growNum ≤ p.maxNum ∧
      p.idleList.length + p.growNum ≤ max p.idleList.length p.initNum := by
  rw [growNum]
  split_ifs with hidle
  · rw [(growthExact hlen hall hmax hinit' hinit).growth_eq hidle]
    split_ifs with hroom
    · exact ⟨by omega, by omega, by omega⟩
    · exact ⟨by omega, by omega, by omega⟩
  · exact ⟨by omega, by omega, by omega⟩

theorem idleList_grow (p : CThreadPool) :
    p.grow.idleList = p.idleList ++ List.range' p.created p.growNum := by
  rw [grow, createLoop_eq]

theorem threadList_grow (p : CThreadPool) :
    p.grow.threadList = p.threadList ++ List.range' p.created p.growNum := by
  rw [grow, createLoop_eq]

/-- In a pool that is not all busy, whatever its numbers and its lists are, the growth
    step asks for the number of threads that the integers give, and at least for none. It
    leaves at most `m_MaxNum` threads, and one for `GetIdleThread` to return at once. -/
theorem grow_leaves_idle (hmax : p.maxNum < 2 ^ 30) (hinit : p.initNum < 2 ^ 30)
    (hlow : 1 ≤ p.availLow) (hle : p.availLow ≤ p.initNum)
    (hperm : p.idleList ++ p.busyList ~ p.threadList) (hall : p.threadList.length ≤ p.maxNum)
    (hbusy : p.getBusyNum < p.maxNum) :
    p.GrowthExact ∧ (p.idleList.length < p.availLow → 0 ≤ p.growth) ∧
      p.grow.threadList.length ≤ p.maxNum ∧ p.grow.idleList ≠ [] ∧
      ∃ t ∈ p.grow.idleList, p.grow.getIdleThread = .thread t := by
  have hlen : p.threadList.length = p.idleList.length + p.busyList.length := by
    rw [← hperm.length_eq, List.length_append]
  have hexact := growthExact hlen hall hmax hinit hle
  have hbusy' : p.busyList.length < p.maxNum := by
    rw [hexact.busyNum.1] at hbusy
    omega
  obtain ⟨hpos, hthreads, -⟩ := grow_spec hlen hlow hle hinit hmax hall hbusy'
  refine ⟨hexact, fun hidle => ?_, ?_, ?_⟩
  · rw [hexact.growth_eq hidle]
    split_ifs with hroom
    · omega
    · omega
  · rwa [threadList_grow, List.length_append, List.length_range']
  · rw [← List.length_range' (s := p.created) (n := p.growNum), ← List.length_append,
      ← idleList_grow] at hpos
    cases hfront : p.grow.idleList with
    | nil =>
      rw [hfront] at hpos
      exact absurd hpos (lt_irrefl 0)
    | cons t idle =>
      refine ⟨List.cons_ne_nil _ _, t, List.mem_cons_self, ?_⟩
      simp [getIdleThread, hfront]

/-- A pool without an idle thread, one thread short of `m_MaxNum`. -/
theorem grow_leaves_idle_full :
    (⟨20, 5, 15, 10, 0, List.range 19, List.range 19, [], 19⟩ :
      CThreadPool).grow.threadList.length ≤ 20 :=
  (grow_leaves_idle (by decide) (by decide) (by decide) (by decide) (List.Perm.refl _) (by decide)
    (by decide)).2.2.1

end CThreadPool

/-! ## The pool -/

/-- The pool of workers, and `m_Job` of each, which is `NULL` in a new thread. -/
structure WorkerPool where
  pool : CThreadPool
  job : ThreadId → Option JobId

/-- The numbers of a pool: those of the default constructor, or others set with
    `SetMaxNum`, `SetAvailLowNum`, `SetAvailHighNum` and `SetInitNum`. -/
structure PoolNums where
  maxNum : Nat
  availLow : Nat
  availHigh : Nat
  initNum : Nat
  one_le_availLow : 1 ≤ availLow
  availLow_le : availLow ≤ initNum
  initNum_le_availHigh : initNum ≤ availHigh
  initNum_le_maxNum : initNum ≤ maxNum
  maxNum_lt : maxNum < 2 ^ 30
  availHigh_lt : availHigh < 2 ^ 30

/-- The numbers of `CThreadPool::CThreadPool()`. -/
def PoolNums.default : PoolNums where
  maxNum := 20
  availLow := 5
  availHigh := 15
  initNum := 10
  one_le_availLow := by decide
  availLow_le := by decide
  initNum_le_availHigh := by decide
  initNum_le_maxNum := by decide
  maxNum_lt := by decide
  availHigh_lt := by decide

namespace WorkerPool

/-- `CThreadPool::CThreadPool()`, with the numbers `c`. -/
def init (c : PoolNums) : WorkerPool where
  pool := CThreadPool.newThreads c.initNum
    { maxNum := c.maxNum
      availLow := c.availLow
      availHigh := c.availHigh
      initNum := c.initNum
      availNum := c.initNum
      threadList := []
      busyList := []
      idleList := []
      created := 0 }
  job _ := none

/-- `CThreadPool::Run` when fewer than `m_MaxNum` threads are busy; `none` where
    `GetIdleThread` waits. -/
def run (s : WorkerPool) (j : JobId) : Option WorkerPool :=
  match s.pool.grow.idleList with
  | [] => none
  | t :: _ => some
    { pool := s.pool.grow.moveToBusyList t
      job := Function.update s.job t (some j) }

/-- The tail of `CWorkerThread::Run`, after the job of `t`; `none` where
    `DeleteIdleThread` uses a thread of an empty idle list. -/
def finish (s : WorkerPool) (t : ThreadId) : Option WorkerPool :=
  (s.pool.moveToIdleList t).trim.map fun p => { pool := p, job := Function.update s.job t none }

/-- The invariant of the pool with the numbers `c`. -/
structure Inv (c : PoolNums) (s : WorkerPool) : Prop where
  partition : s.pool.Partition
  nums : s.pool.maxNum = c.maxNum ∧ s.pool.availLow = c.availLow ∧
    s.pool.availHigh = c.availHigh ∧ s.pool.initNum = c.initNum
  threadList_le : s.pool.threadList.length ≤ c.maxNum
  idleList_le : s.pool.idleList.length ≤ c.availHigh
  job_iff : ∀ t, (s.job t).isSome ↔ t ∈ s.pool.busyList

variable {c : PoolNums} {s : WorkerPool} {t : ThreadId}

/-- A call of `Run` finds an idle thread. -/
theorem Inv.run (h : s.Inv c) (hbusy : s.pool.busyList.length < c.maxNum) (j : JobId) :
    ∃ s', s.run j = some s' ∧ s'.Inv c := by
  obtain ⟨hmax, hlow, hhigh, hinit⟩ := h.nums
  obtain ⟨hpos, hall, hidle⟩ := CThreadPool.grow_spec h.partition.length
    (hlow ▸ c.one_le_availLow) (by rw [hlow, hinit]; exact c.availLow_le)
    (by rw [hinit]; exact c.initNum_le_maxNum.trans_lt c.maxNum_lt) (hmax ▸ c.maxNum_lt)
    (hmax ▸ h.threadList_le) (hmax ▸ hbusy)
  have hgrow := CThreadPool.createLoop_eq s.pool.growNum s.pool
  rw [← CThreadPool.grow] at hgrow
  have hpart := h.partition.append s.pool.growNum
  cases hfront : s.pool.grow.idleList with
  | nil =>
    -- the growth step does not leave the list empty
    have := congrArg List.length hfront
    rw [hgrow, List.length_append, List.length_range', List.length_nil] at this
    exact absurd this hpos.ne'
  | cons t idle =>
    -- the thread at the front gets the job
    rw [WorkerPool.run, hfront]
    refine ⟨_, rfl, ?_⟩
    have ht : t ∈ s.pool.grow.idleList := hfront ▸ List.mem_cons_self
    rw [hgrow] at ht ⊢
    refine ⟨hpart.moveToBusyList ht, ⟨hmax, hlow, hhigh, hinit⟩, ?_, ?_, fun u => ?_⟩
    · simp only [CThreadPool.moveToBusyList, List.length_append, List.length_range']
      exact hmax ▸ hall
    · have hle := List.length_erase_le (a := t)
        (l := s.pool.idleList ++ List.range' s.pool.created s.pool.growNum)
      rw [List.length_append, List.length_range'] at hle
      have := c.initNum_le_availHigh
      have := h.idleList_le
      simp only [CThreadPool.moveToBusyList]
      omega
    · simp only [CThreadPool.moveToBusyList, Function.update_apply, List.mem_append,
        List.mem_singleton]
      split_ifs with hut
      · exact iff_of_true rfl (.inr hut)
      · rw [h.job_iff u]
        exact ⟨.inl, fun hu => hu.resolve_right hut⟩

theorem Inv.isCrowded_iff (h : s.Inv c) :
    (s.pool.moveToIdleList t).isCrowded ↔ c.availHigh < s.pool.idleList.length + 1 := by
  have hlt := c.availHigh_lt
  rw [CThreadPool.isCrowded, CThreadPool.moveToIdleList, List.length_append, h.nums.2.2.1, toSizeT,
    toInt32, decide_eq_true_iff, List.length_singleton]
  omega

/-- With one more idle thread, the threads that are removed are all idle ones but
    `m_InitNum`. -/
theorem Inv.surplus_eq (h : s.Inv c) (hmany : c.initNum ≤ s.pool.idleList.length + 1) :
    (s.pool.moveToIdleList t).surplus = s.pool.idleList.length + 1 - c.initNum := by
  have hle := h.idleList_le
  have hhigh := c.availHigh_lt
  have hinit := c.initNum_le_availHigh
  rw [CThreadPool.surplus, CThreadPool.moveToIdleList, List.length_append, h.nums.2.2.2, toInt32,
    toSizeT, toInt32]
  simp only [List.length_singleton]
  omega

/-- The completion of a job: the thread has become idle, and none of the threads
    that are removed is this one, or has a job. -/
theorem Inv.finish (h : s.Inv c) (ht : t ∈ s.pool.busyList) :
    ∃ s', s.finish t = some s' ∧ s'.Inv c ∧
      ∀ u ∈ s.pool.threadList, u ∉ s'.pool.threadList → u ≠ t ∧ s.job u = none := by
  have hmove := h.partition.moveToIdleList ht
  have hidle : (s.pool.moveToIdleList t).idleList = s.pool.idleList ++ [t] := rfl
  have hlen : (s.pool.moveToIdleList t).idleList.length = s.pool.idleList.length + 1 := by
    rw [hidle, List.length_append]
    rfl
  have hjob : ∀ u, (Function.update s.job t none u).isSome ↔ u ∈ s.pool.busyList.erase t := by
    intro u
    rw [Function.update_apply]
    split_ifs with hut
    · refine iff_of_false (by simp) fun hu => ?_
      exact ((List.Nodup.mem_erase_iff h.partition.nodup_busyList).1 hu).1 hut
    · rw [h.job_iff u, List.mem_erase_of_ne hut]
  rw [WorkerPool.finish, CThreadPool.trim]
  split_ifs with hmany
  · -- more than `m_AvailHigh` are idle: some at the front are removed
    rw [h.isCrowded_iff] at hmany
    have hinit := c.initNum_le_availHigh
    have hone := c.one_le_availLow.trans c.availLow_le
    have hsurplus := h.surplus_eq (t := t) (by omega)
    obtain ⟨n, hn⟩ : ∃ n : Nat, s.pool.idleList.length + 1 = c.initNum + n :=
      Nat.exists_eq_add_of_le (by omega)
    have hnum : (s.pool.moveToIdleList t).surplus.toNat = n := by
      rw [hsurplus]
      omega
    have hdel := CThreadPool.deleteLoop_eq (n := n) (p := s.pool.moveToIdleList t) (by omega)
    have htake : (s.pool.idleList ++ [t]).take n = s.pool.idleList.take n :=
      List.take_append_of_le_length (by omega)
    rw [CThreadPool.deleteIdleThread, hnum, hdel]
    refine ⟨_, rfl, ⟨hmove.deleteLoop hdel, h.nums, ?_, ?_, hjob⟩, fun u hu hgone => ?_⟩
    · exact (List.diff_sublist _ _).length_le.trans h.threadList_le
    · simp only [List.length_drop, hlen]
      omega
    · rw [hidle, htake] at hgone
      have hmem : u ∈ s.pool.idleList := by
        by_contra hnot
        refine hgone (List.mem_diff_of_mem hu fun hu' => hnot (List.mem_of_mem_take hu'))
      have hfree := h.partition.disjoint hmem
      refine ⟨fun hut => hfree (hut ▸ ht), ?_⟩
      simpa using (h.job_iff u).not.2 hfree
  · -- no thread is removed
    refine ⟨_, rfl, ⟨hmove, h.nums, h.threadList_le, ?_, hjob⟩, fun u hu hgone => absurd hu hgone⟩
    rw [hlen]
    exact not_lt.1 (h.isCrowded_iff.not.1 hmany)

/-! ## Runs -/

/-- A step: a complete call of `Run`, or the completion of a thread's job. -/
inductive Action
  | run (j : JobId)
  | finish (t : ThreadId)

/-- A step of the pool: `Run` is called when fewer than `m_MaxNum` threads are busy. -/
def step (s : WorkerPool) : Action → Option WorkerPool
  | .run j => if s.pool.busyList.length < s.pool.maxNum then s.run j else none
  | .finish t => if t ∈ s.pool.busyList then s.finish t else none

theorem Inv.step {s' : WorkerPool} {a : Action} (h : s.Inv c) (hs : s.step a = some s') :
    s'.Inv c := by
  cases a with
  | run j =>
    rw [WorkerPool.step] at hs
    split_ifs at hs with hbusy
    obtain ⟨s₁, hrun, hinv⟩ := h.run (h.nums.1 ▸ hbusy) j
    rw [hrun] at hs
    cases hs
    exact hinv
  | finish t =>
    rw [WorkerPool.step] at hs
    split_ifs at hs with ht
    obtain ⟨s₁, hfinish, hinv, -⟩ := h.finish ht
    rw [hfinish] at hs
    cases hs
    exact hinv

theorem init_inv (c : PoolNums) : (init c).Inv c where
  partition := by
    have hempty : (init c).pool = CThreadPool.newThreads c.initNum _ := rfl
    rw [hempty, CThreadPool.newThreads_eq]
    refine ⟨by simp, by simpa using List.nodup_range', fun t ht => ?_, by simp⟩
    simpa [List.mem_range'_1] using ht
  nums := by simp [init, CThreadPool.newThreads_eq]
  threadList_le := by simpa [init, CThreadPool.newThreads_eq] using c.initNum_le_maxNum
  idleList_le := by simpa [init, CThreadPool.newThreads_eq] using c.initNum_le_availHigh
  job_iff t := by simp [init, CThreadPool.newThreads_eq]

/-- In every state the pool can reach, no thread is twice in the two lists, which
    together hold the threads of the pool, within the bounds, the threads with a job
    are the busy ones, and the completion of a job removes none of these, nor the
    thread itself, and no thread of an empty list. -/
theorem workers_partition (c : PoolNums) {as : List Action} {s : WorkerPool}
    (hs : exec step (init c) as = some s) :
    (s.pool.idleList ++ s.pool.busyList).Nodup ∧
    (s.pool.idleList ++ s.pool.busyList).Perm s.pool.threadList ∧
    s.pool.availNum = s.pool.idleList.length ∧
    s.pool.threadList.length ≤ c.maxNum ∧
    s.pool.idleList.length ≤ c.availHigh ∧
    (∀ t, (s.job t).isSome ↔ t ∈ s.pool.busyList) ∧
    ∀ t ∈ s.pool.busyList, ∃ s', s.finish t = some s' ∧
      ∀ u ∈ s.pool.threadList, u ∉ s'.pool.threadList → u ≠ t ∧ s.job u = none := by
  have h : s.Inv c := exec_inv (I := Inv c) (fun _ _ _ => Inv.step) (init_inv c) hs
  refine ⟨h.partition.perm.nodup_iff.2 h.partition.nodup, h.partition.perm, h.partition.availNum,
    h.threadList_le, h.idleList_le, h.job_iff, fun t ht => ?_⟩
  obtain ⟨s', hfinish, -, hgone⟩ := h.finish ht
  exact ⟨s', hfinish, hgone⟩

/-- The pool of the default constructor: sixteen jobs make it grow to twenty threads, and when
    twelve of them are done, the first six idle threads have been removed. -/
theorem workers_partition_grown :
    ∃ s, exec step (init .default)
        ((List.range 16).map .run ++ (List.range 12).map .finish) = some s ∧
      s.pool.created = 20 ∧ s.pool.threadList.length = 14 ∧
      (s.pool.idleList ++ s.pool.busyList).Perm s.pool.threadList ∧
      ∀ t, (s.job t).isSome ↔ t ∈ s.pool.busyList := by
  have hrun : (exec step (init .default)
      ((List.range 16).map .run ++ (List.range 12).map .finish)).map
        (fun s => (s.pool.created, s.pool.threadList.length)) = some (20, 14) := by decide +kernel
  obtain ⟨s, hs, hnums⟩ := Option.map_eq_some_iff.1 hrun
  obtain ⟨hcreated, hlen⟩ := Prod.mk.inj hnums
  obtain ⟨-, hperm, -, -, -, hjob, -⟩ := workers_partition .default hs
  exact ⟨s, hs, hcreated, hlen, hperm, hjob⟩

end WorkerPool

end VsHttpServer
