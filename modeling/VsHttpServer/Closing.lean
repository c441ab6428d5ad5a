import VsHttpServer.Server

/-!
# Two connections of a full thread, closed at the same time

`CheckIfInBusyList`, call by call: a step of a closer is one `lock` or `unlock`, with
the code that follows it up to the next. A mutex is its holder; `unlock` frees it,
whoever calls it.

A closer that finds the thread `t` in the busy list leaves the section of
`m_BusyMutex`, moves `t` back by `MoveToIdleList`, and then comes to the `unlock` that
is there for a closer that has not found it.

* `Moved`: what the steps have made of the pool, from where the closers are;
* `exists_foreign`: when both have returned, one of them has unlocked `m_BusyMutex`
  without holding it, whatever the order of their steps;
* `waits_iff_idleOnce`: `t` is idle once if and only if no closer tests between the test
  of the other and its removal of `t`;
* `exec_alone`: a closer that is not disturbed does what `checkIfInBusyList` says.
-/

namespace VsHttpServer

open Transition

/-- The threads that close a connection: `CloseEventCb` in the event loop, or
    `close_conn` in a worker. -/
inductive Closer
  | eventLoop
  | worker
  deriving DecidableEq, Repr

def Closer.other : Closer → Closer
  | eventLoop => worker
  | worker => eventLoop

/-- The next call of a closer in `CheckIfInBusyList`. -/
inductive ClosePhase
  /-- `m_BusyMutex.lock()`, before the test. -/
  | test
  /-- `m_BusyMutex.unlock()`, when the thread was found. -/
  | found
  /-- `m_IdleMutex.lock()` in `MoveToIdleList`. -/
  | push
  /-- `m_IdleMutex.unlock()`. -/
  | pushed
  /-- `m_BusyMutex.lock()` in `MoveToIdleList`. -/
  | erase
  /-- `m_BusyMutex.unlock()` in `MoveToIdleList`. -/
  | erased
  /-- `m_BusyMutex.unlock()` at the common end, and whether the thread was found. -/
  | exit (found : Bool)
  /-- The call has returned. -/
  | returned (found : Bool)
  deriving DecidableEq, Repr

namespace ClosePhase

/-- The closer has found the thread. -/
def finds : ClosePhase → Bool
  | test => false
  | exit b | returned b => b
  | _ => true

/-- How often it has appended the thread to the idle list. -/
def pushes : ClosePhase → Nat
  | pushed | erase | erased => 1
  | exit b | returned b => b.toNat
  | _ => 0

/-- It has removed the thread from the busy list. -/
def erases : ClosePhase → Bool
  | erased => true
  | exit b | returned b => b
  | _ => false

/-- The number of calls that a closer has before it, at most. -/
def remaining : ClosePhase → Nat
  | test => 7
  | found => 6
  | push => 5
  | pushed => 4
  | erase => 3
  | erased => 2
  | exit _ => 1
  | returned _ => 0

end ClosePhase

structure Closing where
  main : MainPool
  /-- The holder of `m_BusyMutex`. -/
  busyMutex : Option Closer
  /-- The holder of `m_IdleMutex`. -/
  idleMutex : Option Closer
  phase : Closer → ClosePhase
  /-- The `unlock`s of `m_BusyMutex`: by whom, and who held it. -/
  releases : List (Closer × Option Closer)

namespace Closing

/-- Both closers are about to call. -/
def start (main : MainPool) : Closing := ⟨main, none, none, fun _ => .test, []⟩

/-- `m_BusyMutex.lock()`; it waits while the mutex is held. -/
def lockBusy (s : Closing) (c : Closer) : Option Closing :=
  if s.busyMutex = none then some { s with busyMutex := some c } else none

/-- `m_BusyMutex.unlock()`. -/
def unlockBusy (s : Closing) (c : Closer) : Closing :=
  { s with
    busyMutex := none
    releases := s.releases ++ [(c, s.busyMutex)] }

/-- `m_IdleMutex.lock()`. -/
def lockIdle (s : Closing) (c : Closer) : Option Closing :=
  if s.idleMutex = none then some { s with idleMutex := some c } else none

/-- `m_IdleMutex.unlock()`. -/
def unlockIdle (s : Closing) : Closing := { s with idleMutex := none }

/-- The first section of `MoveToIdleList`. -/
def pushIdle (s : Closing) (t : ThreadId) : Closing :=
  { s with
    main.pool.idleList := s.main.pool.idleList ++ [t]
    main.pool.availNum := s.main.pool.availNum + 1 }

/-- The second section of `MoveToIdleList`. -/
def eraseBusy (s : Closing) (t : ThreadId) : Closing :=
  { s with main.pool.busyList := s.main.pool.busyList.erase t }

/-- `connectQueue.DeleteConn(conn)`. -/
def deleteConn (s : Closing) (t : ThreadId) (conn : Conn) : Closing :=
  { s with
    main.connectQueue :=
      Function.update s.main.connectQueue t ((s.main.connectQueue t).deleteConn conn) }

/-- The closer `c` goes on. -/
def goto (s : Closing) (c : Closer) (p : ClosePhase) : Closing :=
  { s with phase := Function.update s.phase c p }

/-- A step of `CheckIfInBusyList(t, conn c)` by the closer `c`. The two conditions that
    `MoveToIdleList` signals are not waited for in this pool. -/
def step (t : ThreadId) (conn : Closer → Conn) (s : Closing) (c : Closer) : Option Closing :=
  match s.phase c with
  | .test =>
    (s.lockBusy c).map fun s =>
      s.goto c (if t ∈ s.main.pool.busyList then .found else .exit false)
  | .found => some ((s.unlockBusy c).goto c .push)
  | .push => (s.lockIdle c).map fun s => (s.pushIdle t).goto c .pushed
  | .pushed => some (s.unlockIdle.goto c .erase)
  | .erase => (s.lockBusy c).map fun s => (s.eraseBusy t).goto c .erased
  | .erased => some ((s.unlockBusy c).goto c (.exit true))
  -- the `unlock` after the `if`: the branch has already unlocked
  | .exit found => some (((s.unlockBusy c).deleteConn t (conn c)).goto c (.returned found))
  | .returned _ => none

/-- Both closers have returned. -/
def Returned (s : Closing) : Prop := ∀ c, ∃ b, s.phase c = .returned b

/-- No closer has unlocked `m_BusyMutex` without holding it. -/
def Owned (s : Closing) : Prop := ∀ r ∈ s.releases, r.2 = some r.1

/-- The thread `t` is idle once and no more busy, and counted once more than in `p`. -/
structure IdleOnce (p : CThreadPool) (t : ThreadId) (s : Closing) : Prop where
  idle : s.main.pool.idleList.count t = 1
  busy : t ∉ s.main.pool.busyList
  availNum : s.main.pool.availNum = p.availNum + 1

/-! ## What a step does -/

variable {s s' : Closing} {c d : Closer} {t : ThreadId} {conn : Closer → Conn}

theorem step_cases (h : step t conn s c = some s') :
    (s.phase c = .test ∧ s.busyMutex = none ∧
      s' = { s with busyMutex := some c }.goto c
        (if t ∈ s.main.pool.busyList then .found else .exit false)) ∨
    (s.phase c = .found ∧ s' = (s.unlockBusy c).goto c .push) ∨
    (s.phase c = .push ∧ s.idleMutex = none ∧
      s' = ({ s with idleMutex := some c }.pushIdle t).goto c .pushed) ∨
    (s.phase c = .pushed ∧ s' = s.unlockIdle.goto c .erase) ∨
    (s.phase c = .erase ∧ s.busyMutex = none ∧
      s' = ({ s with busyMutex := some c }.eraseBusy t).goto c .erased) ∨
    (s.phase c = .erased ∧ s' = (s.unlockBusy c).goto c (.exit true)) ∨
    ∃ b, s.phase c = .exit b ∧
      s' = ((s.unlockBusy c).deleteConn t (conn c)).goto c (.returned b) := by
  rw [step] at h
  cases hp : s.phase c <;>
    simp only [hp, lockBusy, lockIdle, Option.map_eq_some_iff, Option.ite_none_right_eq_some,
      Option.some.injEq] at h
  case test =>
    obtain ⟨_, ⟨hfree, rfl⟩, rfl⟩ := h
    exact .inl ⟨rfl, hfree, rfl⟩
  case found => exact .inr (.inl ⟨rfl, h.symm⟩)
  case push =>
    obtain ⟨_, ⟨hfree, rfl⟩, rfl⟩ := h
    exact .inr (.inr (.inl ⟨rfl, hfree, rfl⟩))
  case pushed => exact .inr (.inr (.inr (.inl ⟨rfl, h.symm⟩)))
  case erase =>
    obtain ⟨_, ⟨hfree, rfl⟩, rfl⟩ := h
    exact .inr (.inr (.inr (.inr (.inl ⟨rfl, hfree, rfl⟩))))
  case erased => exact .inr (.inr (.inr (.inr (.inr (.inl ⟨rfl, h.symm⟩)))))
  case exit b => exact .inr (.inr (.inr (.inr (.inr (.inr ⟨b, rfl, h.symm⟩)))))
  case returned b => cases h

theorem phase_goto (s : Closing) (c d : Closer) (p : ClosePhase) :
    (s.goto c p).phase d = if d = c then p else s.phase d := Function.update_apply _ _ _ _

/-- A step is a step of its closer only. -/
theorem phase_of_ne (h : step t conn s c = some s') (hd : d ≠ c) : s'.phase d = s.phase d := by
  rcases step_cases h with ⟨-, -, rfl⟩ | ⟨-, rfl⟩ | ⟨-, -, rfl⟩ | ⟨-, rfl⟩ | ⟨-, -, rfl⟩ | ⟨-, rfl⟩ |
    ⟨b, -, rfl⟩ <;> exact (phase_goto _ _ _ _).trans (if_neg hd)

theorem mem_releases (h : step t conn s c = some s') {r : Closer × Option Closer}
    (hr : r ∈ s.releases) : r ∈ s'.releases := by
  rcases step_cases h with ⟨-, -, rfl⟩ | ⟨-, rfl⟩ | ⟨-, -, rfl⟩ | ⟨-, rfl⟩ | ⟨-, -, rfl⟩ | ⟨-, rfl⟩ |
    ⟨b, -, rfl⟩
  · exact hr
  · exact List.mem_append_left _ hr
  · exact hr
  · exact hr
  · exact hr
  · exact List.mem_append_left _ hr
  · exact List.mem_append_left _ hr

/-! ## Who holds `m_BusyMutex` -/

/-- The holder of a mutex is in a section that it guards. -/
structure Guarded (s : Closing) : Prop where
  busy : ∀ c, s.busyMutex = some c →
    s.phase c = .found ∨ s.phase c = .erased ∨ s.phase c = .exit false
  idle : ∀ c, s.idleMutex = some c → s.phase c = .pushed

theorem Guarded.step (hg : s.Guarded) (h : step t conn s c = some s') : s'.Guarded := by
  -- a mutex that the step leaves alone is held by the other closer, if it is held
  have hbusy : ∀ d, s.busyMutex = some d → d ≠ c →
      s'.phase d = .found ∨ s'.phase d = .erased ∨ s'.phase d = .exit false := by
    intro d hd hne
    rw [phase_of_ne h hne]
    exact hg.busy d hd
  have hidle : ∀ d, s.idleMutex = some d → d ≠ c → s'.phase d = .pushed := by
    intro d hd hne
    rw [phase_of_ne h hne]
    exact hg.idle d hd
  have hnotIdle : s.phase c ≠ .pushed → ∀ d, s.idleMutex = some d → d ≠ c := by
    rintro hp d hd rfl
    exact hp (hg.idle d hd)
  rcases step_cases h with ⟨hp, -, rfl⟩ | ⟨hp, rfl⟩ | ⟨hp, -, rfl⟩ | ⟨hp, rfl⟩ | ⟨hp, -, rfl⟩ |
    ⟨hp, rfl⟩ | ⟨b, hp, rfl⟩
  · -- the test takes `m_BusyMutex`, and holds it on either way
    refine ⟨fun d hd => ?_, fun d hd => hidle d hd (hnotIdle (by simp [hp]) d hd)⟩
    cases hd
    rw [phase_goto, if_pos rfl]
    split_ifs
    · exact .inl rfl
    · exact .inr (.inr rfl)
  · exact ⟨fun d hd => (by cases hd), fun d hd => hidle d hd (hnotIdle (by simp [hp]) d hd)⟩
  · -- `m_IdleMutex` is taken, which nobody holds
    refine ⟨fun d hd => hbusy d hd ?_, fun d hd => ?_⟩
    · rintro rfl
      simpa [hp] using hg.busy d hd
    · cases hd
      exact (phase_goto _ _ _ _).trans (if_pos rfl)
  · refine ⟨fun d hd => hbusy d hd ?_, fun d hd => (by cases hd)⟩
    rintro rfl
    simpa [hp] using hg.busy d hd
  · refine ⟨fun d hd => ?_, fun d hd => hidle d hd (hnotIdle (by simp [hp]) d hd)⟩
    cases hd
    exact .inr (.inl ((phase_goto _ _ _ _).trans (if_pos rfl)))
  · exact ⟨fun d hd => (by cases hd), fun d hd => hidle d hd (hnotIdle (by simp [hp]) d hd)⟩
  · exact ⟨fun d hd => (by cases hd), fun d hd => hidle d hd (hnotIdle (by simp [hp]) d hd)⟩

/-- `m_BusyMutex` is not unlocked by its holder only, now or later: the first closer to
    test finds the thread, and still has the last `unlock` before it. -/
def Doomed (t : ThreadId) (s : Closing) : Prop :=
  ((∀ c, s.phase c = .test) ∧ t ∈ s.main.pool.busyList) ∨
    (∃ c, (s.phase c).finds = true ∧ ∀ b, s.phase c ≠ .returned b) ∨ ¬s.Owned

theorem Doomed.step (hd : s.Doomed t) (hg : s.Guarded) (h : step t conn s c = some s') :
    s'.Doomed t := by
  rcases hd with ⟨hall, hbusy⟩ | ⟨d, hfinds, hnot⟩ | hforeign
  · -- the first test
    refine .inr (.inl ⟨c, ?_⟩)
    rcases step_cases h with ⟨-, -, rfl⟩ | ⟨hp, -⟩ | ⟨hp, -⟩ | ⟨hp, -⟩ | ⟨hp, -⟩ | ⟨hp, -⟩ | ⟨b, hp, -⟩
    · rw [phase_goto, if_pos rfl, if_pos hbusy]
      exact ⟨rfl, by simp⟩
    all_goals simp [hall c] at hp
  · by_cases hdc : d = c
    · -- the closer that has found the thread goes on to its last `unlock`
      obtain rfl := hdc
      rcases step_cases h with ⟨hp, -⟩ | ⟨-, rfl⟩ | ⟨-, -, rfl⟩ | ⟨-, rfl⟩ | ⟨-, -, rfl⟩ | ⟨-, rfl⟩ |
        ⟨b, hp, rfl⟩
      · simp [hp, ClosePhase.finds] at hfinds
      · exact .inr (.inl ⟨d, by simp [phase_goto, ClosePhase.finds]⟩)
      · exact .inr (.inl ⟨d, by simp [phase_goto, ClosePhase.finds]⟩)
      · exact .inr (.inl ⟨d, by simp [phase_goto, ClosePhase.finds]⟩)
      · exact .inr (.inl ⟨d, by simp [phase_goto, ClosePhase.finds]⟩)
      · exact .inr (.inl ⟨d, by simp [phase_goto, ClosePhase.finds]⟩)
      · -- the mutex was unlocked by `d` before: it is not the holder now
        obtain rfl : b = true := by simpa [hp, ClosePhase.finds] using hfinds
        refine .inr (.inr fun howned => ?_)
        have hheld := howned (d, s.busyMutex) (List.mem_append_right _ (List.mem_singleton_self _))
        simpa [hp] using hg.busy d hheld
    · -- the other closer leaves it where it is
      refine .inr (.inl ⟨d, ?_⟩)
      rw [phase_of_ne h hdc]
      exact ⟨hfinds, hnot⟩
  · exact .inr (.inr fun howned => hforeign fun r hr => howned r (mem_releases h hr))

theorem start_guarded (main : MainPool) : (start main).Guarded :=
  ⟨fun _ h => (by cases h), fun _ h => (by cases h)⟩

theorem start_doomed {main : MainPool} (ht : t ∈ main.pool.busyList) : (start main).Doomed t :=
  .inl ⟨fun _ => rfl, ht⟩

/-- When both closers have returned, one of them has unlocked `m_BusyMutex` without
    holding it. -/
theorem exists_foreign {main : MainPool} (ht : t ∈ main.pool.busyList) {as : List Closer}
    (hs : exec (step t conn) (start main) as = some s) (hret : s.Returned) : ¬s.Owned := by
  obtain ⟨-, hdoomed⟩ : s.Guarded ∧ s.Doomed t :=
    exec_inv (I := fun s => s.Guarded ∧ s.Doomed t)
      (fun _ _ _ h hs => ⟨h.1.step hs, h.2.step h.1 hs⟩) ⟨start_guarded main, start_doomed ht⟩ hs
  rcases hdoomed with ⟨hall, -⟩ | ⟨c, -, hnot⟩ | hforeign
  · obtain ⟨b, hb⟩ := hret .worker
    rw [hall] at hb
    cases hb
  · obtain ⟨b, hb⟩ := hret c
    exact absurd hb (hnot b)
  · exact hforeign

/-! ## What becomes of the thread -/

/-- How often `t` was appended to the idle list. -/
def pushes (s : Closing) : Nat := (s.phase .eventLoop).pushes + (s.phase .worker).pushes

/-- `t` was removed from the busy list. -/
def erases (s : Closing) : Bool := (s.phase .eventLoop).erases || (s.phase .worker).erases

theorem pushes_eq (s : Closing) (c : Closer) :
    s.pushes = (s.phase c).pushes + (s.phase c.other).pushes := by
  cases c
  · rfl
  · exact Nat.add_comm _ _

theorem erases_eq (s : Closing) (c : Closer) :
    s.erases = ((s.phase c).erases || (s.phase c.other).erases) := by
  cases c
  · rfl
  · exact Bool.or_comm _ _

theorem other_ne (c : Closer) : c.other ≠ c := by cases c <;> decide

theorem eq_or_other (c d : Closer) : d = c ∨ d = c.other := by
  cases c <;> cases d <;> decide

theorem pushes_goto (s : Closing) (c : Closer) (p : ClosePhase) :
    (s.goto c p).pushes = p.pushes + (s.phase c.other).pushes := by
  rw [pushes_eq _ c, phase_goto, phase_goto, if_pos rfl, if_neg (other_ne c)]

theorem erases_goto (s : Closing) (c : Closer) (p : ClosePhase) :
    (s.goto c p).erases = (p.erases || (s.phase c.other).erases) := by
  rw [erases_eq _ c, phase_goto, phase_goto, if_pos rfl, if_neg (other_ne c)]

/-- The pool `p`, with `t` appended `n` times to the idle list, and removed from the
    busy list or not. -/
def returnTo (p : CThreadPool) (t : ThreadId) (n : Nat) (erased : Bool) : CThreadPool :=
  { p with
    idleList := p.idleList ++ List.replicate n t
    availNum := p.availNum + n
    busyList := if erased then p.busyList.erase t else p.busyList }

/-- What the steps have made of the pool `p`. -/
structure Moved (p : CThreadPool) (t : ThreadId) (s : Closing) : Prop where
  pool : s.main.pool = returnTo p t s.pushes s.erases
  erases_of_absent : ∀ c, s.phase c = .exit false ∨ s.phase c = .returned false → s.erases = true

variable {p : CThreadPool}

theorem mem_busyList_returnTo (h : p.Partition) (ht : t ∈ p.busyList) (n : Nat) (b : Bool) :
    t ∈ (returnTo p t n b).busyList ↔ b = false := by
  cases b
  · exact iff_of_true ht rfl
  · exact iff_of_false (fun hmem => (h.nodup_busyList.mem_erase_iff.1 hmem).1 rfl) (by simp)

theorem returnTo_push (n : Nat) (b : Bool) :
    { returnTo p t n b with
      idleList := (returnTo p t n b).idleList ++ [t]
      availNum := (returnTo p t n b).availNum + 1 } = returnTo p t (1 + n) b := by
  simp only [returnTo, CThreadPool.mk.injEq, true_and, and_true]
  refine ⟨?_, ?_⟩
  · push_cast
    omega
  · rw [Nat.add_comm, List.replicate_succ', List.append_assoc]

/-- A second removal finds nothing. -/
theorem returnTo_erase (h : p.Partition) (n : Nat) (b : Bool) :
    { returnTo p t n b with busyList := (returnTo p t n b).busyList.erase t } = returnTo p t n true := by
  cases b
  · rfl
  · have hnot : t ∉ p.busyList.erase t := fun hmem => (h.nodup_busyList.mem_erase_iff.1 hmem).1 rfl
    simp only [returnTo, if_true, List.erase_of_not_mem hnot]

/-- A closer goes on, and the pool is what its new place says. -/
theorem Moved.goto (hm : s.Moved p t) {s₁ : Closing} {q : ClosePhase} (hphase : s₁.phase = s.phase)
    (hpool : s₁.main.pool = returnTo p t (q.pushes + (s.phase c.other).pushes)
      (q.erases || (s.phase c.other).erases))
    (herases : (s.phase c).erases = true → q.erases = true)
    (habsent : q = .exit false ∨ q = .returned false → (s.phase c.other).erases = true) :
    (s₁.goto c q).Moved p t where
  pool := by
    rw [pushes_goto, erases_goto, hphase]
    exact hpool
  erases_of_absent d hd := by
    rw [erases_goto, hphase, Bool.or_eq_true]
    rw [phase_goto, hphase] at hd
    split_ifs at hd with hdc
    · exact .inr (habsent hd)
    · have hold := hm.erases_of_absent d hd
      rw [s.erases_eq c, Bool.or_eq_true] at hold
      exact hold.imp_left herases

theorem Moved.step (hm : s.Moved p t) (hpart : p.Partition) (ht : t ∈ p.busyList)
    (h : step t conn s c = some s') : s'.Moved p t := by
  have hpool := hm.pool
  rw [s.pushes_eq c, s.erases_eq c] at hpool
  rcases step_cases h with ⟨hp, -, rfl⟩ | ⟨hp, rfl⟩ | ⟨hp, -, rfl⟩ | ⟨hp, rfl⟩ | ⟨hp, -, rfl⟩ |
    ⟨hp, rfl⟩ | ⟨b, hp, rfl⟩
  all_goals rw [hp] at hpool
  · -- `t` is in the busy list as long as the other closer has not removed it
    have hmem : t ∈ s.main.pool.busyList ↔ (s.phase c.other).erases = false := by
      rw [hpool, mem_busyList_returnTo hpart ht]
      exact Iff.rfl
    split_ifs with hbusy
    · exact hm.goto rfl hpool (by simp [hp, ClosePhase.erases]) (by simp)
    · refine hm.goto rfl hpool (by simp [hp, ClosePhase.erases]) fun _ => ?_
      simpa [hmem] using hbusy
  · exact hm.goto rfl hpool (by simp [hp, ClosePhase.erases]) (by simp)
  · refine hm.goto rfl ?_ (by simp [hp, ClosePhase.erases]) (by simp)
    simp only [pushIdle, hpool, returnTo_push]
    have hzero : ClosePhase.push.pushes = 0 := rfl
    rw [hzero, Nat.zero_add]
    rfl
  · exact hm.goto rfl hpool (by simp [hp, ClosePhase.erases]) (by simp)
  · refine hm.goto rfl ?_ (by simp [hp, ClosePhase.erases]) (by simp)
    -- the other closer may have removed it before
    simp only [eraseBusy, hpool, returnTo_erase hpart]
    rfl
  · exact hm.goto rfl hpool (by simp [ClosePhase.erases]) (by simp)
  · -- a closer that has not found the thread returns: the other has removed it
    refine hm.goto rfl hpool (by simp [hp, ClosePhase.erases]) fun hq => ?_
    have hb : b = false := by simpa using hq
    have hold := hm.erases_of_absent c (.inl (hb ▸ hp))
    rw [s.erases_eq c, hp, hb] at hold
    simpa [ClosePhase.erases] using hold

theorem start_moved (main : MainPool) : (start main).Moved main.pool t where
  pool := by simp [start, returnTo, pushes, erases, ClosePhase.pushes, ClosePhase.erases]
  erases_of_absent c hc := by simp [start] at hc

/-- Both closers have found the thread. -/
def BothFind (s : Closing) : Prop := ∀ c, (s.phase c).finds = true

/-- A closer tests when the other has removed the thread, if it has found it. -/
def Waits (s : Closing) (c : Closer) : Prop :=
  s.phase c = .test → (s.phase c.other).finds = true → (s.phase c.other).erases = true

theorem finds_goto (s : Closing) (c d : Closer) (q : ClosePhase) :
    ((s.goto c q).phase d).finds = if d = c then q.finds else (s.phase d).finds := by
  rw [phase_goto]
  split_ifs <;> rfl

/-- What a closer has found changes by its test only. -/
theorem finds_step (h : step t conn s c = some s') (d : Closer) :
    (s'.phase d).finds =
      if d = c ∧ s.phase c = .test then decide (t ∈ s.main.pool.busyList) else (s.phase d).finds := by
  by_cases hd : d = c
  · subst hd
    rcases step_cases h with ⟨hp, -, rfl⟩ | ⟨hp, rfl⟩ | ⟨hp, -, rfl⟩ | ⟨hp, rfl⟩ | ⟨hp, -, rfl⟩ |
      ⟨hp, rfl⟩ | ⟨b, hp, rfl⟩
    all_goals rw [finds_goto, if_pos rfl, hp]
    · by_cases hb : t ∈ s.main.pool.busyList
      · simp [hb, ClosePhase.finds]
      · simp [hb, ClosePhase.finds]
    all_goals simp [ClosePhase.finds]
  · rw [phase_of_ne h hd, if_neg fun hc => hd hc.1]

theorem BothFind.step (hb : s.BothFind) (h : step t conn s c = some s') : s'.BothFind := by
  intro d
  rw [finds_step h]
  split_ifs with hd
  · have := hb c
    rw [hd.2] at this
    cases this
  · exact hb d

/-- A step makes both closers find the thread if and only if it does not wait. -/
theorem Moved.bothFind_iff (hm : s.Moved p t) (hpart : p.Partition) (ht : t ∈ p.busyList)
    (hnot : ¬s.BothFind) (h : Closing.step t conn s c = some s') : s'.BothFind ↔ ¬s.Waits c := by
  have hmem : t ∈ s.main.pool.busyList ↔ s.erases = false := by
    rw [hm.pool]
    exact mem_busyList_returnTo hpart ht _ _
  by_cases hp : s.phase c = .test
  · have hbusy : t ∈ s.main.pool.busyList ↔ (s.phase c.other).erases = false := by
      rw [hmem, s.erases_eq c, hp]
      exact Iff.rfl
    have hself := finds_step h c
    have hother := finds_step h c.other
    rw [if_pos ⟨rfl, hp⟩] at hself
    rw [if_neg fun hc => other_ne c hc.1] at hother
    constructor
    · intro hboth hwaits
      have hfound := hboth c
      rw [hself, decide_eq_true_eq, hbusy] at hfound
      have := hwaits hp (hother ▸ hboth c.other)
      rw [hfound] at this
      cases this
    · intro hwaits d
      rw [Waits] at hwaits
      push Not at hwaits
      obtain ⟨-, hfinds, hkept⟩ := hwaits
      rcases eq_or_other c d with rfl | rfl
      · rw [hself, decide_eq_true_eq, hbusy]
        simpa using hkept
      · rw [hother, hfinds]
  · -- nobody tests
    refine iff_of_false (fun hboth => hnot fun d => ?_) fun hwaits => hwaits fun hc => absurd hc hp
    have := hboth d
    rwa [finds_step h, if_neg fun hc => hp hc.2] at this

theorem Moved.count (hm : s.Moved p t) (hpart : p.Partition) (ht : t ∈ p.busyList) :
    s.main.pool.idleList.count t = s.pushes := by
  have hidle : t ∉ p.idleList := fun hi => hpart.disjoint hi ht
  rw [hm.pool, returnTo, List.count_append, List.count_eq_zero_of_not_mem hidle,
    List.count_replicate_self, Nat.zero_add]

/-- A closer that returns says whether it has found the thread. -/
theorem bothFind_iff_of_returned {b₁ b₂ : Bool} (h₁ : s.phase .eventLoop = .returned b₁)
    (h₂ : s.phase .worker = .returned b₂) : s.BothFind ↔ b₁ = true ∧ b₂ = true := by
  constructor
  · intro hb
    have hb₁ := hb .eventLoop
    have hb₂ := hb .worker
    rw [h₁] at hb₁
    rw [h₂] at hb₂
    exact ⟨hb₁, hb₂⟩
  · rintro ⟨rfl, rfl⟩ c
    cases c
    · rw [h₁]
      rfl
    · rw [h₂]
      rfl

/-- When both closers have returned, the thread is idle once, or twice when both have
    found it. -/
theorem Moved.idleOnce_iff (hm : s.Moved p t) (hpart : p.Partition) (ht : t ∈ p.busyList)
    (hret : s.Returned) : s.IdleOnce p t ↔ ¬s.BothFind := by
  obtain ⟨b₁, h₁⟩ := hret .eventLoop
  obtain ⟨b₂, h₂⟩ := hret .worker
  have hpushes : s.pushes = b₁.toNat + b₂.toNat := by
    rw [pushes, h₁, h₂]
    rfl
  have herases : s.erases = true := by
    cases b₁
    · exact hm.erases_of_absent _ (.inr h₁)
    · rw [erases, h₁]
      rfl
  have hcount := hm.count hpart ht
  rw [bothFind_iff_of_returned h₁ h₂]
  constructor
  · rintro hidle ⟨rfl, rfl⟩
    have := hidle.idle
    rw [hcount, hpushes] at this
    exact absurd this (by decide)
  · intro hnot
    -- the thread was removed, so that one of them has found it
    have hone : s.pushes = 1 := by
      have hsome : b₁ = true ∨ b₂ = true := by
        rw [erases, h₁, h₂, Bool.or_eq_true] at herases
        exact herases
      rw [hpushes]
      revert hnot hsome
      cases b₁ <;> cases b₂ <;> decide
    refine ⟨hcount.trans hone, fun hmem => ?_, ?_⟩
    · rw [hm.pool, mem_busyList_returnTo hpart ht, herases] at hmem
      cases hmem
    · rw [hm.pool, hone]
      rfl

/-- A run after which both have returned, and `t` is idle once, if and only if no closer
    tests before the other, which has found the thread, has removed it. -/
theorem waits_iff_idleOnce {main : MainPool} (hpart : main.pool.Partition)
    (ht : t ∈ main.pool.busyList) {as : List Closer}
    (hs : exec (step t conn) (start main) as = some s) (hret : s.Returned) :
    Along (step t conn) Waits (start main) as ↔ s.IdleOnce main.pool t := by
  have hsplit :
      Along (step t conn) Waits (start main) as ∧ s.Moved main.pool t ∧ ¬s.BothFind ∨
        ¬Along (step t conn) Waits (start main) as ∧ s.Moved main.pool t ∧ s.BothFind := exec_along_or
    (I := fun s => s.Moved main.pool t ∧ ¬s.BothFind) (B := fun s => s.Moved main.pool t ∧ s.BothFind)
    (fun s c s' hI hok hs => ⟨hI.1.step hpart ht hs, fun hb =>
      (hI.1.bothFind_iff hpart ht hI.2 hs).1 hb hok⟩)
    (fun s c s' hI hok hs => ⟨hI.1.step hpart ht hs, (hI.1.bothFind_iff hpart ht hI.2 hs).2 hok⟩)
    (fun s c s' hB hs => ⟨hB.1.step hpart ht hs, hB.2.step hs⟩)
    ⟨start_moved main, fun hb => by simpa [start, ClosePhase.finds] using hb .worker⟩ hs
  rcases hsplit with ⟨halong, hm, hnot⟩ | ⟨halong, hm, hboth⟩
  · exact iff_of_true halong ((hm.idleOnce_iff hpart ht hret).2 hnot)
  · exact iff_of_false halong fun hidle => (hm.idleOnce_iff hpart ht hret).1 hidle hboth

/-! ## The end of a run -/

/-- A closer that has not returned can go on, if the mutex it waits for is free. -/
theorem exists_step (hp : ∀ b, s.phase c ≠ .returned b)
    (hbusy : s.phase c = .test ∨ s.phase c = .erase → s.busyMutex = none)
    (hidle : s.phase c = .push → s.idleMutex = none) : ∃ s', step t conn s c = some s' := by
  rw [step]
  cases h : s.phase c with
  | test => exact ⟨_, by simp only [lockBusy, if_pos (hbusy (.inl h))]; rfl⟩
  | found => exact ⟨_, rfl⟩
  | push => exact ⟨_, by simp only [lockIdle, if_pos (hidle h)]; rfl⟩
  | pushed => exact ⟨_, rfl⟩
  | erase => exact ⟨_, by simp only [lockBusy, if_pos (hbusy (.inr h))]; rfl⟩
  | erased => exact ⟨_, rfl⟩
  | exit b => exact ⟨_, rfl⟩
  | returned b => exact absurd h (hp b)

/-- The closers do not wait for each other. -/
theorem Guarded.exists_step (hg : s.Guarded) (t : ThreadId) (conn : Closer → Conn)
    (hnot : ¬s.Returned) : ∃ c s', Closing.step t conn s c = some s' := by
  -- a holder can go on
  cases hb : s.busyMutex with
  | some d =>
    have hd := hg.busy d hb
    refine ⟨d, Closing.exists_step (fun b he => ?_) (fun he => ?_) fun he => ?_⟩
    · simp [he] at hd
    · rcases he with he | he <;> simp [he] at hd
    · simp [he] at hd
  | none =>
    cases hi : s.idleMutex with
    | some d =>
      have hd := hg.idle d hi
      refine ⟨d, Closing.exists_step (fun b he => ?_) (fun _ => hb) fun he => ?_⟩
      · simp [he] at hd
      · simp [he] at hd
    | none =>
      -- no mutex is held: who has not returned can go on
      rw [Returned] at hnot
      push Not at hnot
      obtain ⟨c, hc⟩ := hnot
      exact ⟨c, Closing.exists_step hc (fun _ => hb) fun _ => hi⟩

theorem remaining_step (h : step t conn s c = some s') :
    (s'.phase c).remaining < (s.phase c).remaining := by
  rcases step_cases h with ⟨hp, -, rfl⟩ | ⟨hp, rfl⟩ | ⟨hp, -, rfl⟩ | ⟨hp, rfl⟩ | ⟨hp, -, rfl⟩ |
    ⟨hp, rfl⟩ | ⟨b, hp, rfl⟩
  all_goals rw [phase_goto, if_pos rfl, hp]
  · split_ifs <;> decide
  all_goals simp [ClosePhase.remaining]

/-- From every state, both closers can return. -/
theorem Guarded.exists_returned (hg : s.Guarded) (t : ThreadId) (conn : Closer → Conn) :
    ∃ as s', exec (Closing.step t conn) s as = some s' ∧ s'.Returned := by
  -- the induction is on the calls that are left
  induction hn : (s.phase .eventLoop).remaining + (s.phase .worker).remaining using Nat.strong_induction_on
    generalizing s with
  | _ n ih =>
    by_cases hret : s.Returned
    · exact ⟨[], s, rfl, hret⟩
    · obtain ⟨c, s₁, hs₁⟩ := hg.exists_step t conn hret
      have hlt := remaining_step hs₁
      have hother : (s₁.phase c.other).remaining = (s.phase c.other).remaining :=
        congrArg _ (phase_of_ne hs₁ (other_ne c))
      have hless : (s₁.phase .eventLoop).remaining + (s₁.phase .worker).remaining < n := by
        cases c
        · rw [Closer.other] at hother
          omega
        · rw [Closer.other] at hother
          omega
      obtain ⟨as, s', hs', hret'⟩ := ih _ hless (hg.step hs₁) rfl
      exact ⟨c :: as, s', by rw [exec, hs₁]; exact hs', hret'⟩

/-! ## One closer alone -/

/-- A closer that is not disturbed does what `checkIfInBusyList` says. -/
theorem exec_alone (hbusy : s.busyMutex = none) (hidle : s.idleMutex = none)
    (hp : s.phase c = .test) :
    ∃ n s', exec (step t conn) s (List.replicate n c) = some s' ∧
      s'.main = s.main.checkIfInBusyList t (conn c) ∧
      s'.phase c = .returned (decide (t ∈ s.main.pool.busyList)) := by
  by_cases ht : t ∈ s.main.pool.busyList
  · refine ⟨7, ?_⟩
    simp [List.replicate, exec, step, hp, hbusy, hidle, ht, lockBusy, lockIdle, unlockBusy, unlockIdle,
      pushIdle, eraseBusy, deleteConn, goto, MainPool.checkIfInBusyList,
      CThreadPool.moveToIdleList]
  · refine ⟨2, ?_⟩
    simp [List.replicate, exec, step, hp, hbusy, ht, lockBusy, unlockBusy, deleteConn, goto,
      MainPool.checkIfInBusyList]

/-! ## Two closers -/

/-- In every state of the server, and for every full thread: two closers of connections of
    it can always both return. Then one of them has unlocked `m_BusyMutex` without holding
    it; and the thread is idle once, and counted once more, if and only if no closer has
    tested before the other, which has found the thread, removed it. -/
theorem closeBoth {initnum : Nat} (hpos : 0 < initnum) {bs : List Server.Action} {server : Server}
    (hserver : exec Server.step (.init initnum) bs = some server)
    (ht : t ∈ server.main.pool.busyList) (conn : Closer → Conn) :
    (∀ as s, exec (step t conn) (start server.main) as = some s →
      ∃ as' s', exec (step t conn) s as' = some s' ∧ s'.Returned) ∧
    ∀ as s, exec (step t conn) (start server.main) as = some s → s.Returned →
      ¬s.Owned ∧
      (Along (step t conn) Waits (start server.main) as ↔ s.IdleOnce server.main.pool t) := by
  have hinv : server.Inv := Server.inv_of_exec hpos hserver
  refine ⟨fun as s hs => ?_, fun as s hs hret => ⟨exists_foreign ht hs hret,
    waits_iff_idleOnce hinv.main.partition ht hs hret⟩⟩
  have hg : s.Guarded :=
    exec_inv (I := Guarded) (fun _ _ _ h hs => h.step hs) (start_guarded server.main) hs
  exact hg.exists_returned t conn

/-- The first of two threads is full. -/
theorem busy_fillFirst :
    ∃ server, exec Server.step (.init 2) (Server.fillFirst (maxOpenFd - 1)) = some server ∧
      0 ∈ server.main.pool.busyList := by
  obtain ⟨server, hs, -, -, -, -, hthreads, -, hfull⟩ := Server.exec_fillFirst le_rfl
  have hinv : server.Inv := Server.inv_of_exec (by decide) hs
  have ht : 0 ∈ server.main.pool.threadList := by
    rw [hthreads]
    exact List.mem_cons_self
  exact ⟨server, hs, (hinv.main.busy_iff 0 ht).2 hfull⟩

theorem closeBoth_first :
    ∃ server : Server, 0 ∈ server.main.pool.busyList ∧
      ∀ as s, exec (step 0 fun _ => ⟨0, 5⟩) (start server.main) as = some s → s.Returned →
        ¬s.Owned := by
  obtain ⟨server, hs, ht⟩ := busy_fillFirst
  exact ⟨server, ht, fun as s has hret => ((closeBoth (by decide) hs ht _).2 as s has hret).1⟩

/-- The first of two threads is full, and any two of its connections are closed. -/
theorem not_owned :
    ∃ server, exec Server.step (.init 2) (Server.fillFirst (maxOpenFd - 1)) = some server ∧
      0 ∈ server.main.pool.busyList ∧
      ∀ conn : Closer → Conn, ∃ as s, exec (step 0 conn) (start server.main) as = some s ∧
        s.Returned ∧ ¬s.Owned := by
  obtain ⟨server, hs, ht⟩ := busy_fillFirst
  refine ⟨server, hs, ht, fun conn => ?_⟩
  obtain ⟨as, s, has, hret⟩ := (start_guarded server.main).exists_returned 0 conn
  exact ⟨as, s, has, hret, exists_foreign ht has hret⟩

end Closing

end VsHttpServer
