import VsHttpServer.Pool.Main

/-!
# The listener and the event-loop threads

`ListenerEventCb` writes each accepted descriptor to the pipe of an idle thread,
which it takes from the idle list at the cursor `idle_thread_count`.
`ThreadProcess`, in a thread, reads the oldest descriptor from its pipe and calls
`InsertConn`; it uses the result without a check, so that `NULL` is the end of the
process (`crashed`). Connections are closed in between.

The lists `written`, `linked` and `closed` record what has happened on each thread.

* `TakenUp`: what was written to the pipe of a thread has been linked, in order, in
  its queue, up to what is still in the pipe;
* `takenUp_iff`: so it is in a run, and no delivery crashes, if and only if each
  delivery finds room;
* `inRange_iff`: the cursor stays in the idle list in a run if and only if each
  delivery that fills a thread finds it before the last idle thread, or a new
  thread is created at once.
-/

namespace VsHttpServer

open Transition
open scoped List

/-- `TcpEventServer::EXIT_CODE`. -/
def exitCode : Int := -1

structure Server where
  main : MainPool
  idleThreadCount : Nat
  /-- The descriptors in the pipe of a thread, the oldest first. -/
  pipe : ThreadId → List Int
  /-- The event loop of the thread has ended. -/
  stopped : ThreadId → Bool
  crashed : Bool
  /-- The descriptors written to the pipe of a thread so far. -/
  written : ThreadId → List Int
  /-- The connections linked for the descriptors read from it. -/
  linked : ThreadId → List Conn
  /-- Those of them that were closed. -/
  closed : ThreadId → List Conn

namespace Server

/-- The server with `initnum` event-loop threads. -/
def init (initnum : Nat) : Server where
  main := .init initnum
  idleThreadCount := 0
  pipe _ := []
  stopped _ := false
  crashed := false
  written _ := []
  linked _ := []
  closed _ := []

/-- `ListenerEventCb` for the accepted descriptor `fd`. It has no next state where
    it divides by zero, or takes an element beyond the end of the idle list. -/
def listenerEventCb (s : Server) (fd : Nat) : Option Server :=
  let i := s.idleThreadCount
  let idleThreadNumber := s.main.pool.idleList.length
  -- the `do` loop leaves at once when the list is not empty, and divides by its size otherwise
  if idleThreadNumber = 0 then none
  else
    s.main.pool.idleList[i]?.map fun t =>
      { s with
        idleThreadCount := (i + 1) % idleThreadNumber
        pipe := Function.update s.pipe t (s.pipe t ++ [(fd : Int)])
        written := Function.update s.written t (s.written t ++ [(fd : Int)]) }

/-- `ThreadProcess` in the thread `t`, when its pipe can be read. -/
def threadProcess (s : Server) (t : ThreadId) : Option Server :=
  match s.pipe t with
  | [] => none
  | confd :: rest =>
    let s := { s with pipe := Function.update s.pipe t rest }
    if confd = exitCode then some { s with stopped := Function.update s.stopped t true }
    else
      match s.main.insertConn t confd with
      | (none, main) => some { s with main := main, crashed := true }
      | (some c, main) => some
        { s with
          main := main
          linked := Function.update s.linked t (s.linked t ++ [c]) }

/-- The close of a connection `c` of the thread `t`. -/
def closeConn (s : Server) (t : ThreadId) (c : Conn) : Server :=
  { s with
    main := s.main.checkIfInBusyList t c
    closed := Function.update s.closed t (s.closed t ++ [c]) }

inductive Action
  | accept (fd : Nat)
  | deliver (t : ThreadId)
  | close (t : ThreadId) (c : Conn)
  deriving DecidableEq

/-- A step of the server. -/
def step (s : Server) (a : Action) : Option Server :=
  if s.crashed then none
  else
    match a with
    | .accept fd => s.listenerEventCb fd
    | .deliver t =>
      if t ∈ s.main.pool.threadList ∧ s.stopped t = false then s.threadProcess t else none
    | .close t c =>
      if t ∈ s.main.pool.threadList ∧ c ∈ (s.main.connectQueue t).conns then some (s.closeConn t c)
      else none

/-! ## What a step does -/

variable {s s' : Server}

theorem listenerEventCb_eq_some {fd : Nat} (h : s.listenerEventCb fd = some s') :
    ∃ t, s.main.pool.idleList[s.idleThreadCount]? = some t ∧
      s' = { s with
        idleThreadCount := (s.idleThreadCount + 1) % s.main.pool.idleList.length
        pipe := Function.update s.pipe t (s.pipe t ++ [(fd : Int)])
        written := Function.update s.written t (s.written t ++ [(fd : Int)]) } := by
  rw [listenerEventCb] at h
  split_ifs at h
  obtain ⟨t, ht, he⟩ := Option.map_eq_some_iff.1 h
  exact ⟨t, ht, he.symm⟩

/-- The descriptors in the pipes come from the listener: none is `EXIT_CODE`. -/
def NoExit (s : Server) : Prop := ∀ t, ∀ fd ∈ s.pipe t, fd ≠ exitCode

/-- The server after `fd` was read from the pipe of `t`, and linked, or not. -/
def delivered (s : Server) (t : ThreadId) (fd : Int) (rest : List Int) : Server :=
  if s.main.connNum t < maxOpenFd then
    { s with
      main := (s.main.insertConn t fd).2
      pipe := Function.update s.pipe t rest
      linked := Function.update s.linked t (s.linked t ++ [⟨s.main.conns, fd⟩]) }
  else { s with pipe := Function.update s.pipe t rest, crashed := true }

/-- A delivery links a connection for the descriptor it reads, or crashes. -/
theorem threadProcess_cons {t : ThreadId} {fd : Int} {rest : List Int} (hp : s.pipe t = fd :: rest)
    (hfd : fd ≠ exitCode) : s.threadProcess t = some (s.delivered t fd rest) := by
  rw [threadProcess, hp, delivered]
  simp only [if_neg hfd]
  split_ifs with hlt
  · have hins := MainPool.insertConn_of_lt hlt fd
    rcases hi : s.main.insertConn t fd with ⟨r, m⟩
    rw [hi] at hins
    obtain ⟨rfl, -⟩ : r = some ⟨s.main.conns, fd⟩ ∧ _ := hins
    rfl
  · rw [MainPool.insertConn_of_not_lt hlt]

/-- What a step can do. -/
theorem step_cases {a : Action} (hexit : s.NoExit) (h : s.step a = some s') :
    s.crashed = false ∧
    ((∃ fd t, a = .accept fd ∧ s.main.pool.idleList[s.idleThreadCount]? = some t ∧
        s' = { s with
          idleThreadCount := (s.idleThreadCount + 1) % s.main.pool.idleList.length
          pipe := Function.update s.pipe t (s.pipe t ++ [(fd : Int)])
          written := Function.update s.written t (s.written t ++ [(fd : Int)]) }) ∨
      (∃ t fd rest, a = .deliver t ∧ t ∈ s.main.pool.threadList ∧ s.pipe t = fd :: rest ∧
        s' = s.delivered t fd rest) ∨
      ∃ t c, a = .close t c ∧ t ∈ s.main.pool.threadList ∧ c ∈ (s.main.connectQueue t).conns ∧
        s' = s.closeConn t c) := by
  rw [step.eq_def] at h
  split_ifs at h with hc
  refine ⟨by simpa using hc, ?_⟩
  cases a with
  | accept fd =>
    obtain ⟨t, ht, he⟩ := listenerEventCb_eq_some h
    exact .inl ⟨fd, t, rfl, ht, he⟩
  | deliver t =>
    simp only at h
    split_ifs at h with ht
    rcases hp : s.pipe t with - | ⟨fd, rest⟩
    · simp [threadProcess, hp] at h
    · rw [threadProcess_cons hp (hexit t fd (hp ▸ List.mem_cons_self))] at h
      exact .inr (.inl ⟨t, fd, rest, rfl, ht.1, hp, (Option.some.inj h).symm⟩)
  | close t c =>
    simp only at h
    split_ifs at h with ht
    exact .inr (.inr ⟨t, c, rfl, ht.1, ht.2, (Option.some.inj h).symm⟩)

/-! ## Two threads -/

/-- `n` pairs of descriptors, accepted while two threads are idle. -/
def acceptPairs (n : Nat) : List Action := (List.replicate n [.accept 5, .accept 6]).flatten

theorem exists_accept_of_mem {n : Nat} {a : Action} (h : a ∈ acceptPairs n) :
    ∃ fd, a = .accept fd := by
  obtain ⟨as, has, ha⟩ := List.mem_flatten.1 h
  rw [List.eq_of_mem_replicate has] at ha
  rcases List.mem_cons.1 ha with rfl | ha
  · exact ⟨5, rfl⟩
  · exact ⟨6, List.mem_singleton.1 ha⟩

theorem exec_acceptPairs (n : Nat) (hc : s.crashed = false) (hi : s.idleThreadCount = 0)
    (hidle : s.main.pool.idleList = [0, 1]) :
    ∃ s', exec step s (acceptPairs n) = some s' ∧ s'.main = s.main ∧ s'.crashed = false ∧
      s'.idleThreadCount = 0 ∧ s'.stopped = s.stopped ∧
      s'.pipe 0 = s.pipe 0 ++ List.replicate n 5 := by
  induction n generalizing s with
  | zero => exact ⟨s, rfl, rfl, hc, hi, rfl, (List.append_nil _).symm⟩
  | succ n ih =>
    obtain ⟨s₁, hs₁, hmain, hcrash, hcur, hstop, hpipe⟩ :
        ∃ s₁, exec step s [.accept 5, .accept 6] = some s₁ ∧ s₁.main = s.main ∧
          s₁.crashed = false ∧ s₁.idleThreadCount = 0 ∧ s₁.stopped = s.stopped ∧
          s₁.pipe 0 = s.pipe 0 ++ [5] := by
      simp [exec, step, listenerEventCb, hc, hi, hidle]
    obtain ⟨s', hs', hmain', hcrash', hcur', hstop', hpipe'⟩ := ih hcrash hcur (hmain ▸ hidle)
    refine ⟨s', ?_, hmain'.trans hmain, hcrash', hcur', hstop'.trans hstop, ?_⟩
    · rw [acceptPairs, List.replicate_succ, List.flatten_cons, exec_append, hs₁]
      exact hs'
    · rw [hpipe', hpipe, List.append_assoc, List.replicate_succ, List.singleton_append]

theorem step_deliver {t : ThreadId} {fd : Int} {rest : List Int} (hc : s.crashed = false)
    (ht : t ∈ s.main.pool.threadList) (hstop : s.stopped t = false) (hp : s.pipe t = fd :: rest)
    (hfd : fd ≠ exitCode) : s.step (.deliver t) = some (s.delivered t fd rest) := by
  rw [step, if_neg (by simp [hc]), if_pos ⟨ht, hstop⟩, threadProcess_cons hp hfd]

/-- Deliveries that do not fill the thread, with another thread idle. -/
theorem exec_deliver {t : ThreadId} {fd : Int} {rest : List Int} (hfd : fd ≠ exitCode) (n : Nat)
    (hc : s.crashed = false) (ht : t ∈ s.main.pool.threadList) (hstop : s.stopped t = false)
    (hp : s.pipe t = List.replicate n fd ++ rest) (hn : s.main.connNum t + n < maxOpenFd)
    (hidle : s.main.pool.idleList.length ≠ 1) :
    ∃ s', exec step s (List.replicate n (.deliver t)) = some s' ∧ s'.main.pool = s.main.pool ∧
      s'.crashed = false ∧ s'.idleThreadCount = s.idleThreadCount ∧ s'.stopped = s.stopped ∧
      s'.pipe t = rest ∧ s'.main.connNum t = s.main.connNum t + n ∧
      ∀ u, u ≠ t → s'.main.connNum u = s.main.connNum u := by
  induction n generalizing s with
  | zero => exact ⟨s, rfl, rfl, hc, rfl, rfl, hp, (Int.add_zero _).symm, fun _ _ => rfl⟩
  | succ n ih =>
    rw [List.replicate_succ, List.cons_append] at hp
    have hlt : s.main.connNum t < maxOpenFd := by omega
    have hnum := MainPool.connNum_insertConn hlt fd
    -- the thread is not full now, nor the only idle one
    have hpool : (s.main.insertConn t fd).2.pool = s.main.pool :=
      MainPool.pool_insertConn_of_room (by omega)
        (fun u hu => absurd (congrArg List.length hu) hidle) fd
    have hstep := step_deliver hc ht hstop hp hfd
    rw [delivered, if_pos hlt] at hstep
    obtain ⟨s', hs', hpool', hcrash', hcur', hstop', hpipe', hnum', hother'⟩ :=
      ih (s := { s with
        main := (s.main.insertConn t fd).2
        pipe := Function.update s.pipe t (List.replicate n fd ++ rest)
        linked := Function.update s.linked t (s.linked t ++ [⟨s.main.conns, fd⟩]) })
        hc (hpool ▸ ht) hstop (Function.update_self _ _ _)
        (by simp only [hnum, if_true]; omega) (hpool ▸ hidle)
    refine ⟨s', ?_, hpool'.trans hpool, hcrash', hcur', hstop', hpipe', ?_, fun u hu => ?_⟩
    · rw [List.replicate_succ, exec, hstep]
      exact hs'
    · rw [hnum']
      simp only [hnum, if_true]
      omega
    · rw [hother' u hu]
      simp only [hnum, if_neg hu]

/-- Two threads, after `n` pairs of descriptors were accepted, and one more, and the
    first thread is one connection short of full. -/
theorem exec_nearlyFull {n : Nat} (hn : maxOpenFd - 1 ≤ n) :
    ∃ s, exec step (init 2) (acceptPairs n ++ [.accept 5] ++
        List.replicate (maxOpenFd - 1) (.deliver 0)) = some s ∧
      s.main.pool = (init 2).main.pool ∧ s.crashed = false ∧ s.idleThreadCount = 1 ∧
      s.stopped 0 = false ∧ s.pipe 0 = List.replicate (n + 2 - maxOpenFd) 5 ∧
      s.main.connNum 0 = maxOpenFd - 1 ∧ s.main.connNum 1 = 0 := by
  obtain ⟨s₁, hs₁, hmain₁, hcrash₁, hcur₁, hstop₁, hpipe₁⟩ :=
    exec_acceptPairs (s := init 2) n rfl rfl rfl
  have hidle₁ : s₁.main.pool.idleList = [0, 1] := by
    rw [hmain₁]
    rfl
  obtain ⟨s₂, hs₂, hmain₂, hcrash₂, hcur₂, hstop₂, hpipe₂⟩ :
      ∃ s₂, s₁.step (.accept 5) = some s₂ ∧ s₂.main = s₁.main ∧ s₂.crashed = false ∧
        s₂.idleThreadCount = 1 ∧ s₂.stopped = s₁.stopped ∧ s₂.pipe 0 = s₁.pipe 0 ++ [5] := by
    simp [step, listenerEventCb, hcrash₁, hcur₁, hidle₁]
  have hmain : s₂.main = (init 2).main := hmain₂.trans hmain₁
  have hmax : maxOpenFd = 2000 := rfl
  have hpipe : s₂.pipe 0 = List.replicate (maxOpenFd - 1) 5 ++
      List.replicate (n + 2 - maxOpenFd) 5 := by
    have hempty : (init 2).pipe 0 = [] := rfl
    have hlen : n + 1 = maxOpenFd - 1 + (n + 2 - maxOpenFd) := by omega
    rw [hpipe₂, hpipe₁, hempty, List.nil_append, List.replicate_append_replicate,
      ← List.replicate_succ', hlen]
  have hstop : s₂.stopped 0 = false := by
    rw [hstop₂, hstop₁]
    rfl
  have hzero : s₂.main.connNum 0 = 0 := by
    rw [hmain]
    rfl
  obtain ⟨s₃, hs₃, hpool₃, hcrash₃, hcur₃, hstop₃, hpipe₃, hnum₃, hother₃⟩ :=
    exec_deliver (s := s₂) (t := 0) (by decide) (maxOpenFd - 1) hcrash₂
      (by rw [hmain]; decide) hstop hpipe (by omega) (by rw [hmain]; decide)
  refine ⟨s₃, ?_, hpool₃.trans (by rw [hmain]), hcrash₃, hcur₃.trans hcur₂, ?_, hpipe₃, by omega, ?_⟩
  · have hs₂' : exec step s₁ [.accept 5] = some s₂ := by
      rw [exec, hs₂]
      rfl
    rw [exec_append, exec_append, hs₁, Option.bind_some, hs₂', Option.bind_some, hs₃]
  · rw [hstop₃]
    exact hstop
  · rw [hother₃ 1 (by decide), hmain]
    rfl

/-- A delivery that fills the first thread, while the cursor is at the second. -/
theorem step_fill (h : s.main.pool = (init 2).main.pool) (hc : s.crashed = false)
    (hstop : s.stopped 0 = false) {rest : List Int} (hp : s.pipe 0 = 5 :: rest)
    (h0 : s.main.connNum 0 = maxOpenFd - 1) (h1 : s.main.connNum 1 = 0) :
    ∃ s', s.step (.deliver 0) = some s' ∧ s'.crashed = false ∧ s'.stopped = s.stopped ∧
      s'.idleThreadCount = s.idleThreadCount ∧ s'.main.pool.idleList.length = 1 ∧
      s'.main.pool.threadList = [0, 1] ∧ s'.pipe 0 = rest ∧ s'.main.connNum 0 = maxOpenFd := by
  have hlt : s.main.connNum 0 < maxOpenFd := by omega
  have hthreads : s.main.pool.threadList = [0, 1] := by
    rw [h]
    rfl
  have hidle : s.main.pool.idleList = [0, 1] := by
    rw [h]
    rfl
  have hpool := MainPool.pool_insertConn_of_fill (s := s.main) (t := 0) (by omega) (fun u hu => by
    rw [hidle] at hu
    obtain rfl : 1 = u := by simpa using hu
    rw [h1]
    exact ⟨by decide, by decide⟩) 5
  have hstep := step_deliver hc (by rw [hthreads]; decide) hstop hp (by decide)
  rw [delivered, if_pos hlt] at hstep
  refine ⟨_, hstep, hc, rfl, rfl, ?_, ?_, ?_, ?_⟩
  · simp only [hpool, CThreadPool.moveToBusyList, hidle]
    decide
  · simp only [hpool, CThreadPool.moveToBusyList, hthreads]
  · simp only [Function.update_self]
  · rw [MainPool.connNum_insertConn hlt, if_pos rfl, h0]
    omega

/-- The steps that fill the first of two threads. -/
def fillFirst (n : Nat) : List Action :=
  acceptPairs n ++ [.accept 5] ++ List.replicate (maxOpenFd - 1) (.deliver 0) ++ [.deliver 0]

theorem exec_fillFirst {n : Nat} (hn : maxOpenFd - 1 ≤ n) :
    ∃ s, exec step (init 2) (fillFirst n) = some s ∧ s.crashed = false ∧ s.stopped 0 = false ∧
      s.idleThreadCount = 1 ∧ s.main.pool.idleList.length = 1 ∧
      s.main.pool.threadList = [0, 1] ∧ s.pipe 0 = List.replicate (n + 1 - maxOpenFd) 5 ∧
      s.main.connNum 0 = maxOpenFd := by
  obtain ⟨s₁, hs₁, hpool₁, hcrash₁, hcur₁, hstop₁, hpipe₁, hzero₁, hone₁⟩ := exec_nearlyFull hn
  have hmax : maxOpenFd = 2000 := rfl
  have hlen : n + 2 - maxOpenFd = n + 1 - maxOpenFd + 1 := by omega
  rw [hlen, List.replicate_succ] at hpipe₁
  obtain ⟨s₂, hs₂, hcrash₂, hstop₂, hcur₂, hidle₂, hthreads₂, hpipe₂, hnum₂⟩ :=
    step_fill hpool₁ hcrash₁ hstop₁ hpipe₁ hzero₁ hone₁
  refine ⟨s₂, ?_, hcrash₂, hstop₂ ▸ hstop₁, hcur₂.trans hcur₁, hidle₂, hthreads₂, hpipe₂, hnum₂⟩
  rw [fillFirst, exec_append, hs₁, Option.bind_some, exec, hs₂]
  rfl

/-- As many pairs of descriptors as a thread has room for, and the first thread reads its own
    ones. -/
def fillInTurn : List Action :=
  acceptPairs maxOpenFd ++ List.replicate maxOpenFd (.deliver 0)

theorem exec_fillInTurn :
    ∃ s, exec step (init 2) fillInTurn = some s ∧ s.main.connNum 0 = maxOpenFd := by
  obtain ⟨s₁, hs₁, hmain₁, hcrash₁, hcur₁, hstop₁, hpipe₁⟩ :=
    exec_acceptPairs (s := init 2) maxOpenFd rfl rfl rfl
  have hzero : ∀ u, s₁.main.connNum u = 0 := fun u => by
    rw [hmain₁]
    rfl
  have hmax : maxOpenFd = 2000 := rfl
  have hlen : maxOpenFd = maxOpenFd - 1 + 1 := by omega
  have hpipe : s₁.pipe 0 = List.replicate (maxOpenFd - 1) 5 ++ [5] := by
    rw [hpipe₁, ← List.replicate_succ', ← hlen]
    rfl
  obtain ⟨s₂, hs₂, hpool₂, hcrash₂, -, hstop₂, hpipe₂, hnum₂, hother₂⟩ :=
    exec_deliver (s := s₁) (t := 0) (by decide) (maxOpenFd - 1) hcrash₁ (by rw [hmain₁]; decide)
      (by rw [hstop₁]; rfl) hpipe (by rw [hzero]; omega) (by rw [hmain₁]; decide)
  obtain ⟨s₃, hs₃, -, -, -, -, -, -, hnum₃⟩ := step_fill (s := s₂) (hpool₂.trans (by rw [hmain₁]))
    hcrash₂ (by rw [hstop₂, hstop₁]; rfl) hpipe₂ (by rw [hnum₂, hzero]; omega)
    (by rw [hother₂ 1 (by decide), hzero])
  refine ⟨s₃, ?_, hnum₃⟩
  rw [fillInTurn, hlen, List.replicate_succ', ← hlen]
  exact exec_trans hs₁ (exec_trans hs₂ ((exec_cons hs₃ []).trans rfl))

/-! ## Connections taken up -/

/-- Every descriptor written to the pipe of a thread is still there, or was linked,
    in order, for that thread only; and the connections linked are those in its
    queue and those that were closed. -/
structure TakenUp (s : Server) : Prop where
  written : ∀ t, s.written t = (s.linked t).map Conn.fd ++ s.pipe t
  nodup : ∀ t, (s.linked t).Nodup
  disjoint : ∀ t u c, c ∈ s.linked t → c ∈ s.linked u → t = u
  queue : ∀ t, s.linked t ~ (s.main.connectQueue t).conns ++ s.closed t

/-- The invariant of the server. -/
structure Inv (s : Server) : Prop where
  main : s.main.Inv
  noExit : s.NoExit
  fresh : ∀ t, ∀ c ∈ s.linked t, c.id < s.main.conns

/-- The descriptors added to a pipe, or removed from it, leave `NoExit`. -/
theorem NoExit.update (h : s.NoExit) {t : ThreadId} {fds : List Int} (hfds : ∀ fd ∈ fds, fd ≠ exitCode) :
    ∀ u, ∀ fd ∈ Function.update s.pipe t fds u, fd ≠ exitCode := by
  intro u fd hfd
  rw [Function.update_apply] at hfd
  split_ifs at hfd
  · exact hfds fd hfd
  · exact h u fd hfd

theorem Inv.step {a : Action} (h : s.Inv) (hs : s.step a = some s') : s'.Inv := by
  obtain ⟨-, hcases⟩ := step_cases h.noExit hs
  rcases hcases with ⟨fd, t, -, -, rfl⟩ | ⟨t, fd, rest, -, ht, hp, rfl⟩ | ⟨t, c, -, ht, hc, rfl⟩
  · refine ⟨h.main, h.noExit.update fun fd' hfd' => ?_, h.fresh⟩
    rcases List.mem_append.1 hfd' with hold | hnew
    · exact h.noExit t fd' hold
    · rw [List.mem_singleton.1 hnew]
      exact (Int.negSucc_lt_zero 0 |>.trans_le (Int.natCast_nonneg fd)).ne'
  · have hrest : ∀ fd' ∈ rest, fd' ≠ exitCode :=
      fun fd' hfd' => h.noExit t fd' (hp ▸ List.mem_cons_of_mem _ hfd')
    rw [delivered]
    split_ifs with hlt
    · obtain ⟨-, hconns, -⟩ := MainPool.insertConn_of_lt hlt fd
      refine ⟨h.main.insertConn ht fd, h.noExit.update hrest, fun u c hc => ?_⟩
      simp only [Function.update_apply] at hc
      rw [hconns]
      split_ifs at hc
      · rcases List.mem_append.1 hc with hold | hnew
        · exact (h.fresh t c hold).trans (Nat.lt_succ_self _)
        · rw [List.mem_singleton.1 hnew]
          exact Nat.lt_succ_self _
      · exact (h.fresh u c hc).trans (Nat.lt_succ_self _)
    · exact ⟨h.main, h.noExit.update hrest, h.fresh⟩
  · refine ⟨h.main.checkIfInBusyList ht hc, h.noExit, fun u c' hc' => ?_⟩
    have hconns : (s.closeConn t c).main.conns = s.main.conns := by
      rw [closeConn, MainPool.checkIfInBusyList]
      split_ifs <;> rfl
    rw [hconns]
    exact h.fresh u c' hc'

theorem TakenUp.accept (h : s.TakenUp) (t : ThreadId) (fd : Int) (i : Nat) :
    ({ s with
        idleThreadCount := i
        pipe := Function.update s.pipe t (s.pipe t ++ [fd])
        written := Function.update s.written t (s.written t ++ [fd]) } : Server).TakenUp where
  written u := by
    simp only [Function.update_apply]
    split_ifs with hut
    · rw [hut, h.written t, List.append_assoc]
    · exact h.written u
  nodup := h.nodup
  disjoint := h.disjoint
  queue := h.queue

/-- A delivery that finds room. -/
theorem TakenUp.deliver (h : s.TakenUp) (hinv : s.Inv) {t : ThreadId} {fd : Int} {rest : List Int}
    (hp : s.pipe t = fd :: rest) (hlt : s.main.connNum t < maxOpenFd) :
    ({ s with
        main := (s.main.insertConn t fd).2
        pipe := Function.update s.pipe t rest
        linked := Function.update s.linked t (s.linked t ++ [⟨s.main.conns, fd⟩]) } :
      Server).TakenUp := by
  obtain ⟨-, -, hqueue⟩ := MainPool.insertConn_of_lt hlt fd
  have hfresh : ∀ u, (⟨s.main.conns, fd⟩ : Conn) ∉ s.linked u :=
    fun u hu => (hinv.fresh u _ hu).ne rfl
  refine ⟨fun u => ?_, fun u => ?_, fun u v c hu hv => ?_, fun u => ?_⟩
  · simp only [Function.update_apply]
    split_ifs with hut
    · rw [hut, h.written t, hp, List.map_append, List.append_assoc]
      rfl
    · exact h.written u
  · simp only [Function.update_apply]
    split_ifs with hut
    · rw [← List.concat_eq_append]
      exact (h.nodup t).concat (hfresh t)
    · exact h.nodup u
  · -- the new connection is nowhere else
    simp only [Function.update_apply] at hu hv
    split_ifs at hu hv with hut hvt hvt
    · rw [hut, hvt]
    · rcases List.mem_append.1 hu with hold | hnew
      · exact hut.trans (h.disjoint t v c hold hv)
      · exact absurd (List.mem_singleton.1 hnew ▸ hv) (hfresh v)
    · rcases List.mem_append.1 hv with hold | hnew
      · exact (h.disjoint u t c hu hold).trans hvt.symm
      · exact absurd (List.mem_singleton.1 hnew ▸ hu) (hfresh u)
    · exact h.disjoint u v c hu hv
  · -- the queue has it at the front, the list of those taken up at the end
    simp only [hqueue, Function.update_apply]
    split_ifs with hut
    · rw [hut]
      exact (List.perm_append_singleton _ _).trans ((h.queue t).cons _)
    · exact h.queue u

theorem TakenUp.close (h : s.TakenUp) {t : ThreadId} {c : Conn}
    (hc : c ∈ (s.main.connectQueue t).conns) : (s.closeConn t c).TakenUp where
  written := h.written
  nodup := h.nodup
  disjoint := h.disjoint
  queue u := by
    rw [closeConn]
    simp only [MainPool.connectQueue_checkIfInBusyList, Function.update_apply]
    split_ifs with hut
    · rw [hut]
      calc
        s.linked t
        _ ~ (s.main.connectQueue t).conns ++ s.closed t := h.queue t
        _ ~ c :: (s.main.connectQueue t).conns.erase c ++ s.closed t :=
          (List.perm_cons_erase hc).append_right _
        _ ~ (s.main.connectQueue t).conns.erase c ++ (s.closed t ++ [c]) := by
          rw [List.cons_append, ← List.append_assoc]
          exact (List.perm_append_singleton _ _).symm
    · exact h.queue u

/-- A delivery finds room in its thread. -/
def FindsRoom (s : Server) (a : Action) : Prop :=
  ∀ t, a = .deliver t → s.main.connNum t < maxOpenFd

/-- A step keeps what was taken up if and only if a delivery finds room. -/
theorem TakenUp.step_iff (h : s.TakenUp) (hinv : s.Inv) {a : Action} (hs : s.step a = some s') :
    s.FindsRoom a ↔ s'.crashed = false ∧ s'.TakenUp := by
  obtain ⟨hcrash, hcases⟩ := step_cases hinv.noExit hs
  rcases hcases with ⟨fd, t, rfl, -, rfl⟩ | ⟨t, fd, rest, rfl, ht, hp, rfl⟩ | ⟨t, c, rfl, ht, hc, rfl⟩
  · exact iff_of_true nofun ⟨hcrash, h.accept t fd _⟩
  · rw [delivered]
    split_ifs with hlt
    · refine iff_of_true (fun u hu => ?_) ⟨hcrash, h.deliver hinv hp hlt⟩
      cases hu
      exact hlt
    · exact iff_of_false (fun hroom => hlt (hroom t rfl)) (by simp)
  · exact iff_of_true nofun ⟨hcrash, h.close hc⟩

theorem init_inv {initnum : Nat} (hpos : 0 < initnum) : (init initnum).Inv where
  main := MainPool.init_inv hpos
  noExit _ _ hfd := absurd hfd List.not_mem_nil
  fresh _ _ hc := absurd hc List.not_mem_nil

/-- The invariant holds in every state that can be reached. -/
theorem inv_of_exec {initnum : Nat} (hpos : 0 < initnum) {as : List Action}
    (hs : exec step (init initnum) as = some s) : s.Inv :=
  exec_inv (I := Inv) (fun _ _ _ h hs => h.step hs) (init_inv hpos) hs

/-- Only a delivery to a thread adds to its connections. -/
theorem connNum_step_le {a : Action} (h : s.Inv) (hs : s.step a = some s') (t : ThreadId) :
    s'.main.connNum t ≤ s.main.connNum t + if a = .deliver t then 1 else 0 := by
  obtain ⟨-, hcases⟩ := step_cases h.noExit hs
  rcases hcases with ⟨fd, u, rfl, -, rfl⟩ | ⟨u, fd, rest, rfl, -, -, rfl⟩ | ⟨u, c, rfl, -, -, rfl⟩
  · rw [if_neg nofun, Int.add_zero]
  · rw [delivered]
    split_ifs with hlt htu htu
    · cases htu
      rw [MainPool.connNum_insertConn hlt, if_pos rfl]
    · have hne : t ≠ u := fun he => htu (congrArg Action.deliver he.symm)
      rw [MainPool.connNum_insertConn hlt, if_neg hne, Int.add_zero]
    · exact Int.le_add_one le_rfl
    · rw [Int.add_zero]
  · rw [if_neg nofun, Int.add_zero, closeConn, MainPool.connNum_checkIfInBusyList]
    split_ifs with htu
    · rw [htu]
      omega
    · exact le_rfl

/-- A run that delivers at most `MAX_OPEN_FD` descriptors to each thread. -/
theorem along_findsRoom {as : List Action} (h : s.Inv)
    (hcount : ∀ t, s.main.connNum t + as.count (.deliver t) ≤ maxOpenFd) :
    Along step FindsRoom s as := by
  induction as generalizing s with
  | nil => trivial
  | cons a as ih =>
    intro s' hs'
    refine ⟨?_, ih (h.step hs') fun t => ?_⟩
    · rintro t rfl
      have hle := hcount t
      rw [List.count_cons_self] at hle
      omega
    · have hle := hcount t
      have hstep := connNum_step_le h hs' t
      rw [List.count_cons] at hle
      simp only [beq_iff_eq] at hle
      split_ifs at hle hstep <;> omega

theorem init_takenUp (initnum : Nat) : (init initnum).TakenUp where
  written _ := rfl
  nodup _ := List.nodup_nil
  disjoint _ _ _ hc := absurd hc List.not_mem_nil
  queue _ := .refl _

/-- In a run, no delivery crashes and every descriptor is taken up, in every state,
    if and only if every delivery finds its thread with fewer than `MAX_OPEN_FD`
    connections. -/
theorem takenUp_iff {initnum : Nat} (hpos : 0 < initnum) (as : List Action) :
    Along step FindsRoom (init initnum) as ↔
      Throughout step (fun s => s.crashed = false ∧ s.TakenUp) (init initnum) as :=
  along_iff_throughout (I := fun s => s.Inv ∧ s.crashed = false ∧ s.TakenUp)
    (fun _ _ _ h hok hs => ⟨h.1.step hs, (h.2.2.step_iff h.1 hs).1 hok⟩) (fun _ h => h.2)
    (fun _ _ _ h hok hs => (h.2.2.step_iff h.1 hs).not.1 hok)
    ⟨init_inv hpos, rfl, init_takenUp initnum⟩

/-- Two threads; the first is filled. -/
theorem takenUp_iff_fillInTurn :
    (∃ s, exec step (init 2) fillInTurn = some s ∧ s.main.connNum 0 = maxOpenFd) ∧
      Throughout step (fun s => s.crashed = false ∧ s.TakenUp) (init 2) fillInTurn := by
  refine ⟨exec_fillInTurn, (takenUp_iff (by decide) _).1 ?_⟩
  refine along_findsRoom (init_inv (by decide)) fun t => ?_
  have hzero : (init 2).main.connNum t = 0 := rfl
  have hpairs : (acceptPairs maxOpenFd).count (.deliver t) = 0 := by
    refine List.count_eq_zero.2 fun hmem => ?_
    obtain ⟨fd, hfd⟩ := exists_accept_of_mem hmem
    cases hfd
  rw [hzero, fillInTurn, List.count_append, hpairs, List.count_replicate]
  split_ifs <;> omega

/-- The first of two threads is given `MAX_OPEN_FD + 1` descriptors. -/
theorem not_takenUp :
    ∃ s, exec step (init 2) (fillFirst maxOpenFd ++ [.deliver 0]) = some s ∧ s.crashed = true := by
  obtain ⟨s, hs, hcrash, hstop, -, -, hthreads, hpipe, hnum⟩ :=
    exec_fillFirst (n := maxOpenFd) (Nat.sub_le _ _)
  have hmax : maxOpenFd = 2000 := rfl
  have hone : maxOpenFd + 1 - maxOpenFd = 1 := by omega
  rw [hone] at hpipe
  have hstep := step_deliver hcrash (by rw [hthreads]; decide) hstop hpipe (by decide)
  rw [delivered, if_neg (by omega)] at hstep
  exact ⟨_, by rw [exec_append, hs, Option.bind_some, exec, hstep]; rfl, rfl⟩

/-- The listener selects a thread that has room for what is already in its pipe, and
    for one connection more. -/
def ReservesRoom (s : Server) (a : Action) : Prop :=
  ∀ fd t, a = .accept fd → s.main.pool.idleList[s.idleThreadCount]? = some t →
    s.main.connNum t + (s.pipe t).length < maxOpenFd

/-- The queue of each thread has room for all that is in its pipe. -/
def Reserved (s : Server) : Prop := ∀ t, s.main.connNum t + (s.pipe t).length ≤ maxOpenFd

theorem Reserved.step {a : Action} (h : s.Reserved) (hinv : s.Inv) (ha : s.ReservesRoom a)
    (hs : s.step a = some s') : s.FindsRoom a ∧ s'.Reserved := by
  obtain ⟨-, hcases⟩ := step_cases hinv.noExit hs
  rcases hcases with ⟨fd, t, rfl, hget, rfl⟩ | ⟨t, fd, rest, rfl, ht, hp, rfl⟩ | ⟨t, c, rfl, ht, hc, rfl⟩
  · refine ⟨fun _ hu => (by cases hu), fun u => ?_⟩
    simp only [Function.update_apply]
    split_ifs with hut
    · have := ha fd t rfl hget
      rw [hut, List.length_append, List.length_singleton]
      omega
    · exact h u
  · -- what is in the pipe was counted: there is room for its first descriptor
    have hroom : s.main.connNum t < maxOpenFd := by
      have := h t
      rw [hp, List.length_cons] at this
      omega
    refine ⟨fun u hu => ?_, fun u => ?_⟩
    · cases hu
      exact hroom
    · rw [delivered, if_pos hroom]
      simp only [MainPool.connNum_insertConn hroom, Function.update_apply]
      split_ifs with hut
      · have := h t
        rw [hp, List.length_cons] at this
        omega
      · exact h u
  · refine ⟨fun _ hu => (by cases hu), fun u => ?_⟩
    rw [closeConn]
    simp only [MainPool.connNum_checkIfInBusyList]
    split_ifs with hut
    · have := h t
      rw [hut]
      omega
    · exact h u

/-- It is enough that the listener leaves room for what is in the pipes. -/
theorem takenUp_of_reservesRoom {initnum : Nat} (hpos : 0 < initnum) {as : List Action}
    (h : Along step ReservesRoom (init initnum) as) :
    Throughout step (fun s => s.crashed = false ∧ s.TakenUp) (init initnum) as := by
  refine throughout_of_along
    (I := fun s => s.Inv ∧ s.Reserved ∧ s.crashed = false ∧ s.TakenUp)
    (fun s a s' hI ha hs => ?_) (fun s hI => hI.2.2) ⟨init_inv hpos, fun t => ?_, rfl,
      init_takenUp initnum⟩ h
  · obtain ⟨hroom, hres⟩ := hI.2.1.step hI.1 ha hs
    exact ⟨hI.1.step hs, hres, (hI.2.2.2.step_iff hI.1 hs).1 hroom⟩
  · have hnum : (init initnum).main.connNum t = 0 := rfl
    have hpipe : (init initnum).pipe t = [] := rfl
    rw [hnum, hpipe]
    decide

/-! ## The cursor of the listener -/

/-- What `ListenerEventCb` needs: it divides by the size of the idle list, and takes
    the element at the cursor. -/
def InRange (s : Server) : Prop :=
  s.main.pool.idleList.length ≠ 0 ∧ s.idleThreadCount < s.main.pool.idleList.length

/-- A delivery that fills its thread finds the cursor before the last idle thread, or
    the other one of two idle threads about to be full, so that a new one is made. -/
def FillsInRange (s : Server) (a : Action) : Prop :=
  ∀ t, a = .deliver t → s.main.connNum t = maxOpenFd - 1 →
    s.idleThreadCount + 1 < s.main.pool.idleList.length ∨
      s.main.pool.idleList.length = 2 ∧
        ∀ u ∈ s.main.pool.idleList, u ≠ t → s.main.connNum u = maxOpenFd - 1

/-- From a state in range, the next state is in range if and only if the step is not
    a delivery that fills its thread out of turn. -/
theorem InRange.step_iff (h : s.InRange) (hinv : s.Inv) {a : Action} (hs : s.step a = some s') :
    s.FillsInRange a ↔ s'.InRange := by
  obtain ⟨hne, hlt⟩ := h
  obtain ⟨-, hcases⟩ := step_cases hinv.noExit hs
  rcases hcases with ⟨fd, t, rfl, hget, rfl⟩ | ⟨t, fd, rest, rfl, ht, hp, rfl⟩ | ⟨t, c, rfl, ht, hc, rfl⟩
  · exact iff_of_true nofun ⟨hne, Nat.mod_lt _ (Nat.pos_of_ne_zero hne)⟩
  · by_cases hfill : s.main.connNum t = maxOpenFd - 1
    · -- the idle list loses its thread, or exchanges it for a new one
      have hroom : s.main.connNum t < maxOpenFd := by omega
      have hlen := MainPool.length_idleList_of_fill hinv.main ht hfill fd
      have hnil := (hinv.main.insertConn ht fd).idleList_ne_nil
      rw [delivered, if_pos hroom]
      constructor
      · intro hok
        refine ⟨fun h0 => hnil (List.length_eq_zero_iff.1 h0), ?_⟩
        have hcur := hok t rfl hfill
        simp only [hlen]
        split_ifs with htwo
        · omega
        · have := hcur.resolve_right htwo
          omega
      · rintro ⟨-, hcur⟩ u hu -
        cases hu
        simp only [hlen] at hcur
        split_ifs at hcur with htwo
        · exact .inr htwo
        · exact .inl (by omega)
    · -- the list grows, if it changes
      refine iff_of_true (fun u hu he => ?_) ?_
      · cases hu
        exact absurd he hfill
      · rw [delivered]
        split_ifs with hroom
        · have hle := MainPool.length_idleList_of_room (s := s.main) (t := t) (by omega) fd
          exact ⟨fun h0 => hne (Nat.le_zero.1 (h0 ▸ hle)), hlt.trans_le hle⟩
        · exact ⟨hne, hlt⟩
  · -- a close makes the list no shorter
    refine iff_of_true nofun ?_
    have hle : s.main.pool.idleList.length ≤ (s.closeConn t c).main.pool.idleList.length := by
      rw [closeConn, MainPool.checkIfInBusyList]
      split_ifs
      · simp [CThreadPool.moveToIdleList]
      · exact le_rfl
    exact ⟨fun h0 => hne (Nat.le_zero.1 (h0 ▸ hle)), hlt.trans_le hle⟩

/-- Deliveries to the first of two idle threads, with the cursor at it. -/
theorem along_fillsInRange {n : Nat} (h : s.Inv) (hcur : s.idleThreadCount = 0)
    (hidle : s.main.pool.idleList = [0, 1]) (hn : s.main.connNum 0 + n ≤ maxOpenFd) :
    Along step FillsInRange s (List.replicate n (.deliver 0)) := by
  induction n generalizing s with
  | zero => trivial
  | succ n ih =>
    intro s' hs'
    refine ⟨fun t _ _ => .inl (by rw [hcur, hidle]; decide), ?_⟩
    obtain ⟨-, ⟨_, _, he, -⟩ | ⟨t, fd, rest, he, -, -, he'⟩ | ⟨_, _, he, -⟩⟩ :=
      step_cases h.noExit hs'
    case inl => cases he
    case inr.inr => cases he
    cases he
    by_cases hlast : n = 0
    · rw [hlast]
      trivial
    · have hlt : s.main.connNum 0 < maxOpenFd := by omega
      have hinv := h.step hs'
      rw [delivered, if_pos hlt] at he'
      subst he'
      have hpool : (s.main.insertConn 0 fd).2.pool = s.main.pool := by
        refine MainPool.pool_insertConn_of_room (by omega) (fun u hu => ?_) fd
        rw [hidle] at hu
        cases hu
      refine ih hinv hcur (hpool ▸ hidle) ?_
      simp only [MainPool.connNum_insertConn hlt, if_true]
      omega

/-- In a run, the listener stays in range, in every state, if and only if every
    delivery that fills its thread finds the cursor before the last idle thread, or
    two idle threads, the other one about to be full too. -/
theorem inRange_iff {initnum : Nat} (hpos : 0 < initnum) (as : List Action) :
    Along step FillsInRange (init initnum) as ↔ Throughout step InRange (init initnum) as := by
  refine along_iff_throughout (I := fun s => s.Inv ∧ s.InRange)
    (fun _ _ _ h hok hs => ⟨h.1.step hs, (h.2.step_iff h.1 hs).1 hok⟩) (fun _ h => h.2)
    (fun _ _ _ h hok hs => (h.2.step_iff h.1 hs).not.1 hok) ⟨init_inv hpos, ?_⟩
  have hnil := (MainPool.init_inv hpos).idleList_ne_nil
  exact ⟨fun h0 => hnil (List.length_eq_zero_iff.1 h0), List.length_pos_of_ne_nil hnil⟩

/-- Two threads; the first is filled while the cursor is at it. -/
theorem inRange_iff_fillInTurn :
    (∃ s, exec step (init 2) fillInTurn = some s ∧ s.main.connNum 0 = maxOpenFd) ∧
      Throughout step InRange (init 2) fillInTurn := by
  refine ⟨exec_fillInTurn, (inRange_iff (by decide) _).1 ?_⟩
  obtain ⟨s, hs, hmain, -, hcur, -⟩ := exec_acceptPairs (s := init 2) maxOpenFd rfl rfl rfl
  rw [fillInTurn, along_append hs]
  refine ⟨along_of_forall_mem fun a ha s t he => ?_, along_fillsInRange (inv_of_exec (by decide) hs)
    hcur (by rw [hmain]; rfl) ?_⟩
  · obtain ⟨fd, rfl⟩ := exists_accept_of_mem ha
    cases he
  · have hzero : s.main.connNum 0 = 0 := by
      rw [hmain]
      rfl
    rw [hzero]
    exact (Int.zero_add _).le

/-- The first of two threads fills up while the cursor is at the second. -/
theorem not_inRange :
    ∃ s, exec step (init 2) (fillFirst (maxOpenFd - 1)) = some s ∧ ¬s.InRange := by
  obtain ⟨s, hs, -, -, hcur, hidle, -⟩ := exec_fillFirst le_rfl
  refine ⟨s, hs, fun h => ?_⟩
  have := h.2
  rw [hcur, hidle] at this
  exact absurd this (by decide)

end Server

end VsHttpServer
