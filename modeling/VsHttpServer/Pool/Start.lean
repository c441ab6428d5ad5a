import VsHttpServer.Pool.Basic
import Mathlib.Data.List.Basic
import Mathlib.Logic.Function.Basic

/-!
# Threads that do not start

`CreateIdleThread` and `CreateMainIdleThread` append the thread they make to the
lists of the pool, and count it, before they start it. Where `pthread_create`
fails, `Start` and `StartWorkerThread` free `m_ThreadID` and throw, and the
`catch(...)` of the loop drops the exception.

What `pthread_create` returns in each iteration is a function `rt`.

* `pool_createIdleThread`, `pool_createMainIdleThread`: the lists and the count
  do not depend on it;
* `runs_createLoop`: which threads exist afterwards;
* `startsKept_iff`: the pool has gained the threads that started, and no other, if and
  only if all of them did.
-/

namespace VsHttpServer

/-- What `pthread_create` is to run. -/
inductive Routine
  | threadFunction
  | workerThreadFunction
  deriving DecidableEq

/-- The fields of a `CWorkerThread` that its start reads and writes, and the routine that
    runs in a thread of its own, if there is one. -/
structure CThread where
  /-- `m_ThreadID` is allocated. -/
  threadID : Bool
  /-- `m_ThreadPool` is the pool. -/
  threadPool : Bool
  /-- `m_WorkerThreadPool` is the pool. -/
  workerThreadPool : Bool
  routine : Option Routine
  deriving DecidableEq

namespace CThread

/-- `new CWorkerThread((void*)this)`. -/
def newMain : CThread := ⟨true, true, false, none⟩

/-- `new CWorkerThread(0,0)`. -/
def newWorker : CThread := ⟨true, false, false, none⟩

/-- `SetThreadPool(this)`. -/
def setThreadPool (thr : CThread) : CThread := { thr with threadPool := true }

/-- `SetWorkerThreadPool(this)`. -/
def setWorkerThreadPool (thr : CThread) : CThread := { thr with workerThreadPool := true }

/-- A start where `pthread_create` returns `rt`: the thread afterwards, and the result, or
    the exception. -/
def create (r : Routine) (rt : Int) (thr : CThread) : CThread × Except Unit Bool :=
  if rt ≠ 0 then ({ thr with threadID := false }, .error ())
  else ({ thr with routine := some r }, .ok true)

/-- `Start`. -/
def start (rt : Int) (thr : CThread) : CThread × Except Unit Bool := thr.create .threadFunction rt

/-- `StartWorkerThread`. -/
def startWorkerThread (rt : Int) (thr : CThread) : CThread × Except Unit Bool :=
  thr.create .workerThreadFunction rt

theorem isSome_create {r : Routine} {rt : Int} {thr : CThread} (hnew : thr.routine = none) :
    (thr.create r rt).1.routine.isSome ↔ rt = 0 := by
  rw [create]
  split_ifs with hrt
  · exact iff_of_false (by simp [hnew]) hrt
  · exact iff_of_true rfl (not_not.1 hrt)

end CThread

/-- A pool, and the threads made for it. -/
structure ThreadTable where
  pool : CThreadPool
  thread : ThreadId → CThread

namespace ThreadTable

/-- The `try` block of both loops, for the thread `thr`, which is new and has its pool set,
    and the method that starts it. -/
def tryBlock (thr : CThread) (start : CThread → CThread × Except Unit Bool) (s : ThreadTable) :
    ThreadTable × Except Unit Bool :=
  let p := s.pool.newThread
  let p := { p with availNum := p.availNum + 1 }
  let started := start thr
  ({ pool := p, thread := Function.update s.thread s.pool.created started.1 }, started.2)

/-- The `try` block of `CreateMainIdleThread`, where `pthread_create` returns `rt`. -/
def tryMain (rt : Int) : ThreadTable → ThreadTable × Except Unit Bool :=
  tryBlock CThread.newMain.setThreadPool (CThread.start rt)

/-- The `try` block of `CreateIdleThread`, where `pthread_create` returns `rt`. -/
def tryWorker (rt : Int) : ThreadTable → ThreadTable × Except Unit Bool :=
  tryBlock CThread.newWorker.setWorkerThreadPool (CThread.startWorkerThread rt)

/-- The loops, from the iteration `i` on. -/
def createLoop (block : Int → ThreadTable → ThreadTable × Except Unit Bool) (rt : Nat → Int) :
    Nat → Nat → ThreadTable → ThreadTable
  | 0, _, s => s
  | n + 1, i, s =>
    match block (rt i) s with
    | (s, .ok _) => createLoop block rt n (i + 1) s
    -- `catch(...)`
    | (s, .error _) => createLoop block rt n (i + 1) s

/-- `CreateMainIdleThread(num)`. -/
def createMainIdleThread (s : ThreadTable) (rt : Nat → Int) (num : Int) : ThreadTable :=
  createLoop tryMain rt num.toNat 0 s

/-- `CreateIdleThread(num)`. -/
def createIdleThread (s : ThreadTable) (rt : Nat → Int) (num : Int) : ThreadTable :=
  createLoop tryWorker rt num.toNat 0 s

/-- The thread exists: a routine runs in it. -/
def Runs (s : ThreadTable) (t : ThreadId) : Prop := (s.thread t).routine.isSome

instance (s : ThreadTable) (t : ThreadId) : Decidable (s.Runs t) :=
  inferInstanceAs (Decidable ((s.thread t).routine.isSome = true))

/-! ## What an iteration does -/

variable {s : ThreadTable} {rt : Nat → Int}

/-- A block of one of the two loops: it appends and counts a new thread, which then exists if
    and only if `pthread_create` returned 0. -/
structure IsTryBlock (block : Int → ThreadTable → ThreadTable × Except Unit Bool) : Prop where
  pool : ∀ rt s, (block rt s).1.pool = CThreadPool.createLoop 1 s.pool
  runs_new : ∀ rt s, (block rt s).1.Runs s.pool.created ↔ rt = 0
  runs_other : ∀ rt s t, t ≠ s.pool.created → ((block rt s).1.Runs t ↔ s.Runs t)

theorem isTryBlock_tryBlock {thr : CThread} (hnew : thr.routine = none) (r : Routine) :
    IsTryBlock fun rt => tryBlock thr (CThread.create r rt) where
  pool _ _ := rfl
  runs_new rt s := by
    simp only [tryBlock, Runs, Function.update_self]
    exact CThread.isSome_create hnew
  runs_other rt s t ht := by
    simp only [tryBlock, Runs, Function.update_of_ne ht]

theorem isTryBlock_tryMain : IsTryBlock tryMain := isTryBlock_tryBlock rfl .threadFunction

theorem isTryBlock_tryWorker : IsTryBlock tryWorker := isTryBlock_tryBlock rfl .workerThreadFunction

variable {block : Int → ThreadTable → ThreadTable × Except Unit Bool}

/-- The exception makes no difference to the loop. -/
theorem createLoop_succ (n i : Nat) :
    createLoop block rt (n + 1) i s = createLoop block rt n (i + 1) (block (rt i) s).1 := by
  rw [createLoop]
  rcases block (rt i) s with ⟨s', - | -⟩
  · rfl
  · rfl

/-- The lists and the count grow by every thread, whether or not it starts. -/
theorem pool_createLoop (hb : IsTryBlock block) (n i : Nat) :
    (createLoop block rt n i s).pool = CThreadPool.createLoop n s.pool := by
  induction n generalizing i s with
  | zero => rfl
  | succ n ih =>
    rw [createLoop_succ, ih, hb.pool]
    rfl

/-- The threads that the loop does not make are as they were. -/
theorem runs_createLoop_other (hb : IsTryBlock block) {n i t : Nat}
    (ht : t < s.pool.created ∨ s.pool.created + n ≤ t) :
    (createLoop block rt n i s).Runs t ↔ s.Runs t := by
  induction n generalizing i s with
  | zero => exact Iff.rfl
  | succ n ih =>
    have hcreated : (block (rt i) s).1.pool.created = s.pool.created + 1 := by
      rw [hb.pool]
      rfl
    have hlater : t < (block (rt i) s).1.pool.created ∨ (block (rt i) s).1.pool.created + n ≤ t := by
      omega
    have hne : t ≠ s.pool.created := by omega
    rw [createLoop_succ, ih hlater, hb.runs_other _ _ _ hne]

/-- The thread of the iteration `k` exists afterwards if and only if it started. -/
theorem runs_createLoop (hb : IsTryBlock block) {n i k : Nat} (hk : k < n) :
    (createLoop block rt n i s).Runs (s.pool.created + k) ↔ rt (i + k) = 0 := by
  induction n generalizing i k s with
  | zero => exact absurd hk (Nat.not_lt_zero k)
  | succ n ih =>
    have hcreated : (block (rt i) s).1.pool.created = s.pool.created + 1 := by
      rw [hb.pool]
      rfl
    rw [createLoop_succ]
    cases k with
    | zero =>
      -- the later iterations make other threads
      rw [runs_createLoop_other hb (.inl (hcreated ▸ Nat.lt_succ_self _))]
      exact hb.runs_new _ _
    | succ k =>
      have hthr : s.pool.created + (k + 1) = (block (rt i) s).1.pool.created + k := by
        rw [hcreated, Nat.add_right_comm, Nat.add_assoc]
      rw [hthr, ih (Nat.lt_of_succ_lt_succ hk), Nat.add_right_comm, Nat.add_assoc]

theorem pool_createMainIdleThread (s : ThreadTable) (rt : Nat → Int) (num : Int) :
    (s.createMainIdleThread rt num).pool = s.pool.createIdleThread num :=
  pool_createLoop isTryBlock_tryMain _ _

theorem pool_createIdleThread (s : ThreadTable) (rt : Nat → Int) (num : Int) :
    (s.createIdleThread rt num).pool = s.pool.createIdleThread num :=
  pool_createLoop isTryBlock_tryWorker _ _

/-! ## The threads that are kept -/

/-- Of the threads made in `n` iterations, from the thread `first` on, those that started. -/
def started (rt : Nat → Int) (first n : Nat) : List ThreadId :=
  ((List.range n).filter fun i => rt i = 0).map (first + ·)

theorem started_eq_range' {first n : Nat} (hrt : ∀ i < n, rt i = 0) :
    started rt first n = List.range' first n := by
  rw [started, List.filter_eq_self.2 fun i hi => decide_eq_true (hrt i (List.mem_range.1 hi)),
    ← List.range'_eq_map_range]

/-- Fewer threads start than are made, where one start fails. -/
theorem length_started_lt {first n i : Nat} (hi : i < n) (hrt : rt i ≠ 0) :
    (started rt first n).length < n := by
  rw [started, List.length_map]
  calc
    ((List.range n).filter fun i => rt i = 0).length
    _ < (List.range n).length :=
      List.length_filter_lt_length_iff_exists.2 ⟨i, List.mem_range.2 hi, by simp [hrt]⟩
    _ = n := List.length_range

/-- A call that makes `n` threads, and leaves `s'`, keeps those that started, and no other. -/
structure StartsKept (s s' : ThreadTable) (rt : Nat → Int) (n : Nat) : Prop where
  idleList : s'.pool.idleList = s.pool.idleList ++ started rt s.pool.created n
  threadList : s'.pool.threadList = s.pool.threadList ++ started rt s.pool.created n
  availNum : s'.pool.availNum = s.pool.availNum + (started rt s.pool.created n).length
  /-- `Run` takes the first thread of the idle list, `ListenerEventCb` the one at its cursor. -/
  runs : (∀ t ∈ s.pool.idleList, s.Runs t) → ∀ t ∈ s'.pool.idleList, s'.Runs t

/-- The loop keeps the threads that started, and no other, if and only if all of them did. -/
theorem startsKept_createLoop_iff (hb : IsTryBlock block) (s : ThreadTable) (rt : Nat → Int)
    (n : Nat) : StartsKept s (createLoop block rt n 0 s) rt n ↔ ∀ i < n, rt i = 0 := by
  refine ⟨fun h i hi => ?_, fun hrt => ?_⟩
  · -- the idle list grows by `n` threads in any case
    by_contra hne
    have hidle := congrArg List.length h.idleList
    rw [pool_createLoop hb, CThreadPool.createLoop_eq, List.length_append, List.length_append,
      List.length_range'] at hidle
    exact (length_started_lt hi hne).ne (Nat.add_left_cancel hidle).symm
  · refine ⟨?_, ?_, ?_, fun hruns t ht => ?_⟩
    · rw [pool_createLoop hb, CThreadPool.createLoop_eq, started_eq_range' hrt]
    · rw [pool_createLoop hb, CThreadPool.createLoop_eq, started_eq_range' hrt]
    · rw [pool_createLoop hb, CThreadPool.createLoop_eq, started_eq_range' hrt,
        List.length_range']
    · rw [pool_createLoop hb, CThreadPool.createLoop_eq] at ht
      by_cases hnew : s.pool.created ≤ t ∧ t < s.pool.created + n
      · obtain ⟨k, rfl⟩ := Nat.exists_eq_add_of_le hnew.1
        have hk : k < n := Nat.lt_of_add_lt_add_left hnew.2
        rw [runs_createLoop hb hk, Nat.zero_add]
        exact hrt k hk
      · have hother : t < s.pool.created ∨ s.pool.created + n ≤ t := by
          rw [not_and_or, not_le, not_lt] at hnew
          exact hnew
        rw [runs_createLoop_other hb hother]
        rcases List.mem_append.1 ht with hold | hmade
        · exact hruns t hold
        · exact absurd (List.mem_range'_1.1 hmade) hnew

/-- `CreateIdleThread` and `CreateMainIdleThread` keep exactly the threads that started if and
    only if no `pthread_create` of their iterations fails. -/
theorem startsKept_iff (s : ThreadTable) (rt : Nat → Int) (num : Int) :
    (StartsKept s (s.createIdleThread rt num) rt num.toNat ↔ ∀ i < num.toNat, rt i = 0) ∧
      (StartsKept s (s.createMainIdleThread rt num) rt num.toNat ↔ ∀ i < num.toNat, rt i = 0) :=
  ⟨startsKept_createLoop_iff isTryBlock_tryWorker s rt _,
    startsKept_createLoop_iff isTryBlock_tryMain s rt _⟩

/-- A pool of the default numbers without a thread. -/
def empty : ThreadTable where
  pool := ⟨20, 5, 15, 10, 0, [], [], [], 0⟩
  thread _ := .newWorker

/-- One thread is asked for, and `pthread_create` returns `EAGAIN`: either loop leaves a
    thread in the idle list that does not exist. -/
theorem not_startsKept_eagain :
    ¬ StartsKept empty (empty.createIdleThread (fun _ => 11) 1) (fun _ => 11) 1 ∧
      ¬ StartsKept empty (empty.createMainIdleThread (fun _ => 11) 1) (fun _ => 11) 1 := by
  refine ⟨fun h => ?_, fun h => ?_⟩
  · exact absurd h.idleList (by decide)
  · exact absurd h.idleList (by decide)

end ThreadTable

end VsHttpServer
