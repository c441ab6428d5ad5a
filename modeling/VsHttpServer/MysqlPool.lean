import VsHttpServer.Transition
import Mathlib.Data.List.Perm.Lattice
import Mathlib.Data.List.Range
import Mathlib.Logic.Function.Basic

/-!
# The pool of database connections

`CManagePool` makes its nodes when it is constructed, and moves them between two lists
as they are obtained and released. A node is a number, given by the order of the
`new ConnNode`. The MySQL library decides which connections can be made (`Mysql`), and
which are still there when they are asked for.

* `construct_eq`: the pool after a successful `InitMysqlConnPool`;
* `conserved_iff`: no node is lost, and the counts are right, as long as none is released;
* `count_get_le`: a node is obtained once, at most;
* `allOrNothing_iff`: every call of `_GetMysqlConn` in a run returns, with the mutex free and
  the lists right, if and only if each finds an idle node that answers the ping.
-/

namespace VsHttpServer

open Transition

open scoped List

/-- A `ConnNode`, numbered in the order of creation. -/
abbrev NodeId := Nat

inductive ConnNodeState
  | connected | disconnected
  deriving DecidableEq, Inhabited, Repr

/-- The fields of `ConnNode` that the pool sets. -/
structure ConnNode where
  /-- `mysql_sock` is not `NULL`. -/
  sock : Bool
  state : ConnNodeState
  used : Int
  deriving DecidableEq, Inhabited, Repr

/-- What the MySQL library makes of the nodes: whether `mysql_init` and
    `mysql_real_connect` succeed. -/
structure Mysql where
  init : NodeId → Bool
  realConnect : NodeId → Bool

/-- The fields of `CManagePool`. -/
structure CManagePool where
  node : NodeId → ConnNode
  idleList : List NodeId
  busyList : List NodeId
  idleInitNum : Nat
  currentIdleConnNum : Int
  /-- `m_GetConnMutex` is locked. -/
  getConnLocked : Bool

namespace CManagePool

/-- `AppendToIdleList`. -/
def appendToIdleList (p : CManagePool) (n : NodeId) : CManagePool :=
  { p with
    idleList := p.idleList ++ [n]
    currentIdleConnNum := p.currentIdleConnNum + 1 }

/-- `CreateMysqlConn`. -/
def createMysqlConn (db : Mysql) (p : CManagePool) (n : NodeId) (used : Int) : Bool × CManagePool :=
  if db.realConnect n then
    (true, { p with node := Function.update p.node n ⟨true, .connected, used⟩ }.appendToIdleList n)
  else (false, { p with node := Function.update p.node n { p.node n with sock := false } })

/-- The loop of `InitMysqlConnPool`, from the node `i` on. -/
def initLoop (db : Mysql) : Nat → NodeId → CManagePool → Int × CManagePool
  | 0, _, p => (0, p)
  | k + 1, i, p =>
    if db.init i = false then (-1, p)
    else
      match p.createMysqlConn db i i with
      | (true, p) => initLoop db k (i + 1) p
      | (false, p) => (-1, p)

/-- `CManagePool::CManagePool`, with `InitMysqlConnPool`; `none` where an `assert` fails.
    What the fields of a new node hold is in `memory`. -/
def construct (db : Mysql) (memory : NodeId → ConnNode) (num : Nat) : Option CManagePool :=
  if 0 < num then
    match initLoop db num 0 ⟨memory, [], [], num, 0, false⟩ with
    | (0, p) => some p
    | _ => none
  else none

/-- `MoveToBusyList`. -/
def moveToBusyList (p : CManagePool) (n : NodeId) : CManagePool :=
  { p with
    busyList := p.busyList ++ [n]
    idleList := p.idleList.erase n
    currentIdleConnNum := p.currentIdleConnNum - 1 }

/-- `MoveToIdleList`: it appends to `MysqlConnBusyList`. -/
def moveToIdleList (p : CManagePool) (n : NodeId) : CManagePool :=
  { p with
    busyList := (p.busyList ++ [n]).erase n
    currentIdleConnNum := p.currentIdleConnNum + 1 }

/-- `_GetMysqlConn`, `ping` being whether `mysql_ping` succeeds; the result `none` is
    `NULL`. A call does not return where the mutex is left locked by an earlier one, or
    where it takes the front of an empty list. -/
def getMysqlConn (ping : Bool) (p : CManagePool) : Option (Option NodeId × CManagePool) :=
  if p.getConnLocked then none
  else
    match p.idleList with
    | [] => none
    | n :: _ =>
      if ping then
        some (some n, { p with
          node := Function.update p.node n { p.node n with used := 1 } }.moveToBusyList n)
      else
        -- this way out does not unlock the mutex
        some (none, { p with
          node := Function.update p.node n { p.node n with used := 0, state := .disconnected }
          getConnLocked := true })

/-- `_ReleaseMysqlConn`. -/
def releaseMysqlConn (p : CManagePool) (n : NodeId) : CManagePool :=
  { p with node := Function.update p.node n { p.node n with used := 0 } }.moveToIdleList n

/-! ## The pool when it is made -/

theorem initLoop_eq {db : Mysql} {k i : Nat} {p p' : CManagePool} (h : initLoop db k i p = (0, p')) :
    p'.idleList = p.idleList ++ List.range' i k ∧ p'.busyList = p.busyList ∧
      p'.currentIdleConnNum = p.currentIdleConnNum + k ∧ p'.getConnLocked = p.getConnLocked := by
  induction k generalizing i p with
  | zero =>
    cases h
    simp
  | succ k ih =>
    rw [initLoop, createMysqlConn] at h
    split_ifs at h
    · cases congrArg Prod.fst h
    · -- the node is connected, and the loop goes on
      obtain ⟨hidle, hbusy, hnum, hlock⟩ := ih h
      refine ⟨?_, hbusy, ?_, hlock⟩
      · rw [hidle, appendToIdleList, List.append_assoc, List.singleton_append, List.range'_succ]
      · rw [hnum, appendToIdleList]
        simp only
        omega
    · have hcode : (-1 : Int) = 0 := congrArg Prod.fst h
      cases hcode

/-- After a successful `InitMysqlConnPool` all nodes are idle. -/
theorem construct_eq {db : Mysql} {memory : NodeId → ConnNode} {num : Nat} {p : CManagePool}
    (h : construct db memory num = some p) :
    p.idleList = List.range num ∧ p.busyList = [] ∧ p.currentIdleConnNum = num ∧
      p.getConnLocked = false := by
  rw [construct] at h
  split_ifs at h
  split at h
  · cases h
    rename_i hloop
    obtain ⟨hidle, hbusy, hnum, hlock⟩ := initLoop_eq hloop
    exact ⟨by rw [hidle, List.range_eq_range']; rfl, hbusy, by simpa using hnum, hlock⟩
  · cases h

end CManagePool

/-! ## Runs -/

/-- The pool, and the nodes obtained and not yet released. -/
structure MysqlPool where
  pool : CManagePool
  held : List NodeId

namespace MysqlPool

/-- A call of `_GetMysqlConn` whose `mysql_ping` succeeds, or of `_ReleaseMysqlConn`. -/
inductive Action
  | get
  | release (n : NodeId)
  deriving DecidableEq

/-- A step: nodes are only taken from an idle list that is not empty, and only those
    obtained are released. -/
def step (s : MysqlPool) : Action → Option MysqlPool
  | .get =>
    match s.pool.getMysqlConn true with
    | some (some n, p) => some ⟨p, s.held ++ [n]⟩
    | _ => none
  | .release n =>
    if n ∈ s.held then some ⟨s.pool.releaseMysqlConn n, s.held.erase n⟩ else none

/-- Every one of the `num` nodes is once in the two lists together, the busy ones are
    those obtained, and the count of idle ones is right. -/
structure Conserved (num : Nat) (s : MysqlPool) : Prop where
  perm : s.pool.idleList ++ s.pool.busyList ~ List.range num
  mem_busyList : ∀ n, n ∈ s.pool.busyList ↔ n ∈ s.held
  idleNum : s.pool.currentIdleConnNum = s.pool.idleList.length

variable {num : Nat} {s s' : MysqlPool} {a : Action}

/-- What a call of `_GetMysqlConn` does. -/
theorem step_get (h : s.step .get = some s') :
    s.pool.getConnLocked = false ∧ ∃ n idle, s.pool.idleList = n :: idle ∧
      s'.pool.idleList = idle ∧ s'.pool.busyList = s.pool.busyList ++ [n] ∧
      s'.pool.currentIdleConnNum = s.pool.currentIdleConnNum - 1 ∧
      s'.pool.getConnLocked = false ∧ s'.held = s.held ++ [n] := by
  rw [step, CManagePool.getMysqlConn] at h
  cases hlock : s.pool.getConnLocked with
  | true => simp [hlock] at h
  | false =>
    cases hidle : s.pool.idleList with
    | nil => simp [hlock, hidle] at h
    | cons n idle =>
      simp only [hlock, hidle, if_true, Bool.false_eq_true, if_false, Option.some.injEq] at h
      subst h
      refine ⟨rfl, n, idle, rfl, ?_, rfl, rfl, rfl, rfl⟩
      simp [CManagePool.moveToBusyList]

/-- What a call of `_ReleaseMysqlConn` does: the idle list stays as it is. -/
theorem step_release {n : NodeId} (h : s.step (.release n) = some s') :
    s'.pool.idleList = s.pool.idleList ∧
      s'.pool.currentIdleConnNum = s.pool.currentIdleConnNum + 1 := by
  obtain ⟨-, he⟩ := Option.ite_none_right_eq_some.1 h
  cases he
  exact ⟨rfl, rfl⟩

theorem Conserved.get (h : s.Conserved num) (hs : s.step .get = some s') : s'.Conserved num := by
  obtain ⟨-, n, idle, hidle, hidle', hbusy, hnum, -, hheld⟩ := step_get hs
  have hperm := h.perm
  rw [hidle] at hperm
  refine ⟨?_, fun m => ?_, ?_⟩
  · calc
      s'.pool.idleList ++ s'.pool.busyList
      _ = idle ++ s.pool.busyList ++ [n] := by rw [hidle', hbusy, List.append_assoc]
      _ ~ n :: (idle ++ s.pool.busyList) := List.perm_append_singleton n _
      _ ~ List.range num := hperm
  · rw [hbusy, hheld, List.mem_append, List.mem_append, h.mem_busyList]
  · rw [hnum, hidle', h.idleNum, hidle, List.length_cons]
    omega

/-- A release does not bring its node back, and counts it. -/
theorem Conserved.release {n : NodeId} (h : s.Conserved num) (hs : s.step (.release n) = some s') :
    ¬s'.Conserved num := fun h' => by
  obtain ⟨hidle, hnum⟩ := step_release hs
  have := h'.idleNum
  rw [hidle, hnum, h.idleNum] at this
  omega

theorem conserved_start {db : Mysql} {memory : NodeId → ConnNode} {p : CManagePool}
    (hp : CManagePool.construct db memory num = some p) : (⟨p, []⟩ : MysqlPool).Conserved num := by
  obtain ⟨hidle, hbusy, hnum, -⟩ := CManagePool.construct_eq hp
  refine ⟨?_, fun m => ?_, ?_⟩
  · rw [hidle, hbusy, List.append_nil]
  · rw [hbusy]
  · rw [hnum, hidle, List.length_range]

/-- Whatever the library made of the nodes, if the pool was made: in every run of calls
    that obtain and release nodes, no node is lost or counted wrong in any state, if and only
    if none is released. -/
theorem conserved_iff {db : Mysql} {memory : NodeId → ConnNode} {p : CManagePool}
    (hp : CManagePool.construct db memory num = some p) (as : List Action) :
    Along step (fun _ a => ∀ n, a ≠ .release n) ⟨p, []⟩ as ↔
      Throughout step (Conserved num) ⟨p, []⟩ as := by
  refine along_iff_throughout (I := Conserved num) (fun s a s' h hok hs => ?_) (fun s h => h)
    (fun s a s' h hok hs => ?_) (conserved_start hp)
  · cases a with
    | get => exact h.get hs
    | release n => exact absurd rfl (hok n)
  · cases a with
    | get => exact absurd (fun n => by simp) hok
    | release n => exact h.release hs

/-- The library lets every node be connected. -/
def allConnected : Mysql := ⟨fun _ => true, fun _ => true⟩

/-- Two nodes are obtained. -/
theorem conserved_iff_two :
    ∃ p, CManagePool.construct allConnected default 2 = some p ∧
      Throughout step (Conserved 2) ⟨p, []⟩ [.get, .get] := by
  refine ⟨_, rfl, (@conserved_iff 2 allConnected default _ rfl _).1 ?_⟩
  exact fun _ _ => ⟨by simp, fun _ _ => ⟨by simp, trivial⟩⟩

/-- One node is obtained and released. -/
theorem not_conserved :
    ∃ p, CManagePool.construct allConnected default 1 = some p ∧
      ¬Throughout step (Conserved 1) ⟨p, []⟩ [.get, .release 0] :=
  ⟨_, rfl, fun h => absurd ((h.2 _ rfl).2 _ rfl).idleNum (by decide)⟩

theorem count_get_add {as : List Action} (hs : exec step s as = some s') :
    s'.pool.idleList.length + as.count .get = s.pool.idleList.length := by
  induction as generalizing s with
  | nil =>
    cases hs
    rfl
  | cons a as ih =>
    obtain ⟨s₁, hstep, hrest⟩ := Option.bind_eq_some_iff.1 hs
    have hlen := ih hrest
    cases a with
    | get =>
      obtain ⟨-, n, idle, hidle, hidle₁, -⟩ := step_get hstep
      rw [List.count_cons_self, hidle, List.length_cons, ← hidle₁]
      omega
    | release n =>
      rw [List.count_cons_of_ne (by simp), hlen, (step_release hstep).1]

/-- A node that was obtained does not become idle again: no run obtains more than there
    are. -/
theorem count_get_le {db : Mysql} {memory : NodeId → ConnNode} {p : CManagePool}
    (hp : CManagePool.construct db memory num = some p) {as : List Action}
    (hs : exec step ⟨p, []⟩ as = some s) : as.count .get ≤ num := by
  have hcount := count_get_add hs
  rw [(CManagePool.construct_eq hp).1, List.length_range] at hcount
  omega

end MysqlPool

/-! ## Calls that fail -/

namespace CManagePool

/-- A call of the pool: `_GetMysqlConn`, with the outcome of its `mysql_ping`, or
    `_ReleaseMysqlConn`. -/
inductive Call
  | get (ping : Bool)
  | release (n : NodeId)
  deriving DecidableEq

/-- The next call. The state is `none` once a call has not returned: it waits for the mutex,
    or has taken the front of an empty list. -/
def call : Option CManagePool → Call → Option (Option CManagePool)
  | none, _ => none
  | some p, .get ping => some ((p.getMysqlConn ping).map Prod.snd)
  | some p, .release n => some (some (p.releaseMysqlConn n))

/-- What a returned call of `_GetMysqlConn` may have done: it took a node of the idle list, or
    nothing. -/
def TookNodeOrNothing (p p' : CManagePool) : Option NodeId → Prop
  | some n =>
    n ∈ p.idleList ∧ p'.idleList = p.idleList.erase n ∧ p'.busyList = p.busyList ++ [n] ∧
      p'.currentIdleConnNum = p.currentIdleConnNum - 1
  | none =>
    p'.idleList = p.idleList ∧ p'.busyList = p.busyList ∧
      p'.currentIdleConnNum = p.currentIdleConnNum

/-- A call of `_GetMysqlConn` returns, all or nothing, and leaves the mutex free. -/
def AllOrNothing : Option CManagePool → Call → Prop
  | some p, .get ping =>
    ∃ r p', p.getMysqlConn ping = some (r, p') ∧ TookNodeOrNothing p p' r ∧
      p'.getConnLocked = false
  | _, _ => True

/-- A call of `_GetMysqlConn` finds a node in the idle list, and the first one answers. -/
def FindsNode : Option CManagePool → Call → Prop
  | some p, .get ping => p.idleList ≠ [] ∧ ping = true
  | _, _ => True

/-- No call that has returned holds the mutex. -/
def Unlocked : Option CManagePool → Prop
  | some p => p.getConnLocked = false
  | none => True

variable {p : CManagePool}

theorem getMysqlConn_of_ping {n : NodeId} {idle : List NodeId} (hlock : p.getConnLocked = false)
    (hidle : p.idleList = n :: idle) :
    p.getMysqlConn true =
      some (some n, { p with
        node := Function.update p.node n { p.node n with used := 1 } }.moveToBusyList n) := by
  simp [getMysqlConn, hlock, hidle]

theorem findsNode_iff_allOrNothing {s : Option CManagePool} (hs : Unlocked s) (c : Call) :
    FindsNode s c ↔ AllOrNothing s c := by
  rcases s with - | p
  · exact Iff.rfl
  rcases c with ping | n
  · have hlock : p.getConnLocked = false := hs
    refine ⟨fun ⟨hne, hping⟩ => ?_, fun ⟨r, p', hget, _, hfree⟩ => ?_⟩
    · obtain ⟨n, idle, hidle⟩ := List.exists_cons_of_ne_nil hne
      rw [AllOrNothing, hping, getMysqlConn_of_ping hlock hidle]
      exact ⟨some n, _, rfl, ⟨hidle ▸ List.mem_cons_self, rfl, rfl, rfl⟩, hlock⟩
    · -- an empty list has no front, and a failed ping leaves the mutex locked
      rcases hidle : p.idleList with - | ⟨n, idle⟩
      · simp [getMysqlConn, hlock, hidle] at hget
      · refine ⟨by rw [hidle]; exact List.cons_ne_nil n idle, ?_⟩
        cases ping with
        | true => rfl
        | false =>
          simp only [getMysqlConn, hlock, hidle, Bool.false_eq_true, if_false, Option.some.injEq,
            Prod.mk.injEq] at hget
          rw [← hget.2] at hfree
          exact absurd hfree (by simp)
  · exact Iff.rfl

theorem Unlocked.call {s s' : Option CManagePool} {c : Call} (hs : Unlocked s) (hfinds : FindsNode s c)
    (hcall : call s c = some s') : Unlocked s' := by
  rcases s with - | p
  · cases hcall
  rcases c with ping | n
  · obtain ⟨r, p', hget, -, hfree⟩ := (findsNode_iff_allOrNothing hs (.get ping)).1 hfinds
    rw [CManagePool.call, hget] at hcall
    cases hcall
    exact hfree
  · cases hcall
    exact hs

/-- In every run of calls on a pool that was made, every call of `_GetMysqlConn` takes a node
    or changes nothing, and returns with the mutex free, if and only if each finds an idle node
    that answers the ping. -/
theorem allOrNothing_iff {db : Mysql} {memory : NodeId → ConnNode} {num : Nat}
    (hp : construct db memory num = some p) (cs : List Call) :
    Along call FindsNode (some p) cs ↔ Along call AllOrNothing (some p) cs :=
  along_iff_along (I := Unlocked) (fun _ _ _ hs hfinds hcall => hs.call hfinds hcall)
    (fun _ c hs => findsNode_iff_allOrNothing hs c) (construct_eq hp).2.2.2

/-- Two nodes are obtained, one is released between. -/
theorem allOrNothing_two :
    ∃ p, construct MysqlPool.allConnected default 2 = some p ∧
      Along call AllOrNothing (some p) [.get true, .release 0, .get true] := by
  refine ⟨_, rfl, (@allOrNothing_iff _ MysqlPool.allConnected default 2 rfl _).1 ?_⟩
  rintro _ ⟨⟩
  refine ⟨⟨by decide, rfl⟩, ?_⟩
  rintro _ ⟨⟩
  refine ⟨trivial, ?_⟩
  rintro _ ⟨⟩
  exact ⟨⟨by decide, rfl⟩, trivial⟩

/-- A ping fails. -/
theorem not_allOrNothing :
    ∃ p, construct MysqlPool.allConnected default 1 = some p ∧
      ¬Along call AllOrNothing (some p) [.get false] := by
  refine ⟨_, rfl, fun h => ?_⟩
  obtain ⟨r, p', hget, -, hfree⟩ := (h _ rfl).1
  cases hget
  cases hfree

/-- The call is one of `_GetMysqlConn`. -/
def Call.isGet : Call → Bool
  | .get _ => true
  | .release _ => false

theorem call_get_cons {n : NodeId} {idle : List NodeId} (hlock : p.getConnLocked = false)
    (hidle : p.idleList = n :: idle) :
    ∃ p', call (some p) (.get true) = some (some p') ∧ p'.idleList = idle ∧
      p'.getConnLocked = false := by
  have hget := getMysqlConn_of_ping hlock hidle
  refine ⟨_, congrArg (fun r : Option (Option NodeId × CManagePool) => some (r.map Prod.snd)) hget,
    ?_, hlock⟩
  simp [moveToBusyList, hidle]

/-- No release refills the idle list: the calls find a node if and only if every ping is
    answered and there are at most as many calls as nodes. -/
theorem along_findsNode_iff (hlock : p.getConnLocked = false) (cs : List Call) :
    Along call FindsNode (some p) cs ↔
      .get false ∉ cs ∧ cs.countP Call.isGet ≤ p.idleList.length := by
  induction cs generalizing p with
  | nil => simp [Along]
  | cons c cs ih =>
    rcases c with ping | n
    · cases ping with
      | false =>
        refine iff_of_false (fun h => ?_) fun h => h.1 List.mem_cons_self
        exact absurd (h _ rfl).1.2 (by decide)
      | true =>
        rw [List.countP_cons_of_pos rfl]
        rcases hidle : p.idleList with - | ⟨n, idle⟩
        · exact iff_of_false (fun h => (h _ rfl).1.1 hidle)
            fun h => absurd h.2 (Nat.not_succ_le_zero _)
        · -- one node fewer for the calls that follow
          obtain ⟨p', hcall, hidle', hlock'⟩ := call_get_cons hlock hidle
          have hfinds : FindsNode (some p) (.get true) := ⟨by simp [hidle], rfl⟩
          rw [Along, hcall, List.length_cons, Nat.succ_le_succ_iff, ← hidle']
          simp [hfinds, ih hlock']
    · have hfinds : FindsNode (some p) (.release n) := trivial
      have hcount : (Call.release n :: cs).countP Call.isGet = cs.countP Call.isGet :=
        List.countP_cons_of_neg (by simp [Call.isGet])
      have hrest := ih (p := p.releaseMysqlConn n) hlock
      have hidle : (p.releaseMysqlConn n).idleList = p.idleList := rfl
      rw [hidle] at hrest
      rw [Along, call, hcount]
      simp [hfinds, hrest]

end CManagePool

end VsHttpServer
