import VsHttpServer.Instances
import VsHttpServer.MysqlQuery

/-!
# What the callers do with database connections

The callers of `CMysqlPool` obtain connections, release them, set the one that queries
are sent to, send queries, and free the pool. `FreeMysqlConnPool` closes the
connections that are idle, and no others; one that was released is not idle again.
`SetSQLsock` makes a new object of `MysqlCPP`, which is never deleted.

* `Inv.step`: each connection is closed, or held by a caller, or was released, or is idle;
* `conns_of_exec`: so in every run no connection is obtained twice, or closed twice, or
  used after it was closed, and the results are those of the queries that were sent
  since the last `SetSQLsock`.
-/

namespace VsHttpServer

open Transition

open scoped List

/-- `_FreeMysqlConnPool`: the connections that it closes, and what it leaves. -/
def CManagePool.freeMysqlConnPool (p : CManagePool) : List NodeId × CManagePool :=
  (p.idleList, { p with idleList := [], currentIdleConnNum := 0, idleInitNum := 0 })

/-- A `CMysqlPool`, with what its callers have done. -/
structure MysqlClient extends CMysqlPool where
  /-- `m_SQL`: the connection and the map of the object. -/
  sql : Option (NodeId × MapRes)
  /-- The connections given to `mysql_close`. -/
  closed : List NodeId
  /-- The connections that `GetMysqlConn` has returned, and that were not released since. -/
  held : List NodeId
  /-- The connections given to `ReleaseMysqlConn`. -/
  released : List NodeId
  /-- The connections that queries were sent to. -/
  queried : List NodeId
  /-- What was answered since the last `SetSQLsock`. -/
  answers : List SqlCall

namespace MysqlClient

/-- Before the first call. -/
def start (p : CMysqlPool) : MysqlClient := ⟨p, none, [], [], [], [], []⟩

/-- A call, with what the MySQL library returns in it. -/
inductive Action
  | getMysqlConn (ping : Bool)
  | releaseMysqlConn (n : NodeId)
  | freeMysqlConnPool
  | setSQLsock (n : NodeId)
  | handleSQL (c : SqlCall)

/-- A step: a call that returns, or throws what `Mysql_HandleSQL` throws. The connections
    given to `ReleaseMysqlConn` and `SetSQLsock` are held, and there is an object before
    `HandleSQL`. -/
def step (s : MysqlClient) : Action → Option MysqlClient
  | .getMysqlConn ping =>
    (s.pool.getMysqlConn ping).map fun r =>
      { s with pool := r.2, held := s.held ++ r.1.toList }
  | .releaseMysqlConn n =>
    if n ∈ s.held then
      some { s with
        pool := s.pool.releaseMysqlConn n
        held := s.held.erase n
        released := s.released ++ [n] }
    else none
  | .freeMysqlConnPool =>
    let r := s.pool.freeMysqlConnPool
    some { s with pool := r.2, closed := s.closed ++ r.1 }
  | .setSQLsock n =>
    if n ∈ s.held then some { s with sql := some (n, MysqlCPP.init), answers := [] } else none
  | .handleSQL c =>
    match s.sql with
    | none => none
    | some (n, m) =>
      match MysqlCPP.mysqlHandleSQL m c with
      | .ok m =>
        some { s with
          sql := some (n, m)
          queried := s.queried ++ [n]
          answers := s.answers ++ [c] }
      | .error () => some { s with queried := s.queried ++ [n] }

/-- The connections that `GetMysqlConn` has returned. -/
def obtained (s : MysqlClient) : List NodeId := s.held ++ s.released

/-- Each connection is closed, or is held, or was released, or is idle, and queries are sent to
    those that were obtained. -/
structure Inv (num : Nat) (s : MysqlClient) : Prop where
  perm : s.closed ++ s.held ++ s.released ++ s.pool.idleList ~ List.range num
  sql : ∀ n m, s.sql = some (n, m) → n ∈ s.obtained ∧ m = MysqlCPP.firstValue s.answers
  queried : ∀ n ∈ s.queried, n ∈ s.obtained

variable {num : Nat} {s s' : MysqlClient}

/-- What `_GetMysqlConn` returns is the first of the idle connections. -/
theorem obtained_append_idleList {p p' : CManagePool} {ping : Bool} {r : Option NodeId}
    (h : p.getMysqlConn ping = some (r, p')) : r.toList ++ p'.idleList = p.idleList := by
  rw [CManagePool.getMysqlConn] at h
  cases hidle : p.idleList with
  | nil => simp [hidle] at h
  | cons n idle =>
    simp only [hidle] at h
    split_ifs at h
    · cases h
      simp [CManagePool.moveToBusyList]
    · cases h
      rfl

/-- A query that is answered. -/
theorem firstValue_handleSQL {cs : List SqlCall} {c : SqlCall} {m : MapRes}
    (h : MysqlCPP.mysqlHandleSQL (MysqlCPP.firstValue cs) c = .ok m) :
    m = MysqlCPP.firstValue (cs ++ [c]) := by
  have hnot : ¬(c.query ≠ 0 ∧ c.ping = 0 ∧ c.retry ≠ 0) := by
    intro hthrow
    rw [MysqlCPP.mysqlHandleSQL, if_pos hthrow] at h
    cases h
  rw [MysqlCPP.mysqlHandleSQL_of_not hnot, MysqlCPP.foldl_insert_firstValue] at h
  cases h
  rfl

/-- A connection that is obtained is not obtained again. -/
theorem perm_getMysqlConn {closed held released new idle : List NodeId} :
    closed ++ (held ++ new) ++ released ++ idle ~ closed ++ held ++ released ++ (new ++ idle) := by
  simp only [List.append_assoc]
  refine (List.Perm.append_left held ?_).append_left closed
  rw [← List.append_assoc, ← List.append_assoc released]
  exact List.perm_append_comm.append_right idle

/-- A connection that is held is released. -/
theorem perm_releaseMysqlConn {held : List NodeId} {n : NodeId} (hn : n ∈ held)
    (released : List NodeId) :
    held.erase n ++ (released ++ [n]) ~ held ++ released := by
  calc
    held.erase n ++ (released ++ [n])
    _ ~ held.erase n ++ (n :: released) :=
      (List.perm_append_singleton n released).append_left _
    _ ~ n :: (held.erase n ++ released) := List.perm_middle
    _ ~ held ++ released := (List.perm_cons_erase hn).symm.append_right released

theorem Inv.step {a : Action} (h : s.Inv num) (hs : s.step a = some s') : s'.Inv num := by
  cases a with
  | getMysqlConn ping =>
    obtain ⟨⟨r, p⟩, hget, rfl⟩ := Option.map_eq_some_iff.1 hs
    have hmem : ∀ n ∈ s.obtained, n ∈ s.held ++ r.toList ++ s.released := by
      intro n hn
      rcases List.mem_append.1 hn with hn | hn
      · exact List.mem_append_left _ (List.mem_append_left _ hn)
      · exact List.mem_append_right _ hn
    refine ⟨?_, fun n m hn => (h.sql n m hn).imp_left (hmem n),
      fun n hn => hmem n (h.queried n hn)⟩
    have hperm := h.perm
    rw [← obtained_append_idleList hget] at hperm
    exact perm_getMysqlConn.trans hperm
  | releaseMysqlConn n =>
    obtain ⟨hn, he⟩ := Option.ite_none_right_eq_some.1 hs
    cases he
    have hheld := perm_releaseMysqlConn hn s.released
    refine ⟨?_, fun k m hk => (h.sql k m hk).imp_left hheld.mem_iff.2,
      fun k hk => hheld.mem_iff.2 (h.queried k hk)⟩
    -- the idle list stays as it is
    have hperm := h.perm
    rw [List.append_assoc s.closed] at hperm
    calc
      s.closed ++ s.held.erase n ++ (s.released ++ [n]) ++ s.pool.idleList
      _ = s.closed ++ (s.held.erase n ++ (s.released ++ [n])) ++ s.pool.idleList := by
        rw [List.append_assoc s.closed]
      _ ~ s.closed ++ (s.held ++ s.released) ++ s.pool.idleList :=
        (hheld.append_left _).append_right _
      _ ~ List.range num := hperm
  | freeMysqlConnPool =>
    cases hs
    refine ⟨?_, h.sql, h.queried⟩
    have hperm := h.perm
    rw [List.append_assoc s.closed, List.append_assoc s.closed] at hperm
    calc
      s.closed ++ s.pool.idleList ++ s.held ++ s.released ++ []
      _ = s.closed ++ (s.pool.idleList ++ (s.held ++ s.released)) := by
        rw [List.append_nil, List.append_assoc, List.append_assoc]
      _ ~ s.closed ++ (s.held ++ s.released ++ s.pool.idleList) :=
        List.perm_append_comm.append_left _
      _ ~ List.range num := hperm
  | setSQLsock n =>
    obtain ⟨hn, he⟩ := Option.ite_none_right_eq_some.1 hs
    cases he
    refine ⟨h.perm, fun k m hk => ?_, h.queried⟩
    cases hk
    exact ⟨List.mem_append_left _ hn, rfl⟩
  | handleSQL c =>
    rw [MysqlClient.step] at hs
    rcases hsql : s.sql with - | ⟨n, m⟩
    · rw [hsql] at hs
      cases hs
    · obtain ⟨hn, rfl⟩ := h.sql n m hsql
      rw [hsql] at hs
      have hqueried : ∀ k ∈ s.queried ++ [n], k ∈ s.obtained := by
        rw [List.forall_mem_append, List.forall_mem_singleton]
        exact ⟨h.queried, hn⟩
      cases hr : MysqlCPP.mysqlHandleSQL (MysqlCPP.firstValue s.answers) c with
      | error _ =>
        simp only [hr, Option.some.injEq] at hs
        subst hs
        exact ⟨h.perm, fun k m hk => h.sql k m (hsql.trans hk), hqueried⟩
      | ok m' =>
        simp only [hr, Option.some.injEq] at hs
        subst hs
        refine ⟨h.perm, fun k m hk => ?_, hqueried⟩
        cases hk
        exact ⟨hn, firstValue_handleSQL hr⟩

theorem start_inv {db : Mysql} {memory : NodeId → ConnNode} {num : Int} {p : CMysqlPool}
    (hp : CMysqlPool.construct db memory num = some p) : (start p).Inv num.toNat := by
  obtain ⟨q, hq, rfl⟩ := Option.map_eq_some_iff.1 hp
  obtain ⟨hidle, -⟩ := CManagePool.construct_eq hq
  refine ⟨?_, fun n m hn => ?_, fun n hn => ?_⟩
  · rw [start]
    simp [hidle]
  · cases hn
  · cases hn

/-- In every state of every run of calls on a pool that was made, whatever the MySQL library
    returns: each of its connections was closed once, or was obtained once and is held by the
    caller, or was obtained once and released once, or is idle; every query was sent to a
    connection that was obtained and has not been closed; and the results are, under each
    name, the first value that was answered since the last `SetSQLsock`. -/
theorem conns_of_exec {db : Mysql} {memory : NodeId → ConnNode} {num : Int} {p : CMysqlPool}
    (hp : CMysqlPool.construct db memory num = some p) {as : List Action}
    (hs : exec step (start p) as = some s) :
    s.closed ++ s.held ++ s.released ++ s.pool.idleList ~ List.range num.toNat ∧
      (∀ n ∈ s.queried, n ∈ s.obtained ∧ n ∉ s.closed) ∧
      ∀ n m, s.sql = some (n, m) → m = MysqlCPP.firstValue s.answers := by
  have h := exec_inv (I := Inv num.toNat) (fun _ _ _ h hs => h.step hs) (start_inv hp) hs
  refine ⟨h.perm, fun n hn => ⟨h.queried n hn, fun hclosed => ?_⟩, fun n m hn => (h.sql n m hn).2⟩
  have hnodup := h.perm.nodup_iff.2 List.nodup_range
  rw [List.append_assoc s.closed, ← obtained] at hnodup
  exact (List.nodup_append.1 (List.nodup_append.1 hnodup).1).2.2 n hclosed n (h.queried n hn) rfl

/-- Three connections are made. Two are obtained, one of them is used and released, and the pool
    is freed. -/
theorem conns_of_exec_three : ∃ p s,
    CMysqlPool.construct MysqlPool.allConnected default 3 = some p ∧
      exec step (start p) [.getMysqlConn true, .setSQLsock 0,
        .handleSQL (MysqlCPP.selectOne "id" "1"), .getMysqlConn true, .releaseMysqlConn 0,
        .freeMysqlConnPool] = some s ∧
      s.closed = [2] ∧ s.held = [1] ∧ s.released = [0] ∧
      s.closed ++ s.held ++ s.released ++ s.pool.idleList ~ List.range 3 := by
  obtain ⟨p, hp, hrun⟩ := Option.bind_eq_some_iff.1 (show
    ((CMysqlPool.construct MysqlPool.allConnected default 3).bind fun p =>
      (exec step (start p) [.getMysqlConn true, .setSQLsock 0,
        .handleSQL (MysqlCPP.selectOne "id" "1"), .getMysqlConn true, .releaseMysqlConn 0,
        .freeMysqlConnPool]).map
        fun s => (s.closed, s.held, s.released)) = some ([2], [1], [0]) from rfl)
  obtain ⟨s, hs, he⟩ := Option.map_eq_some_iff.1 hrun
  simp only [Prod.mk.injEq] at he
  exact ⟨p, s, hp, hs, he.1, he.2.1, he.2.2, (conns_of_exec hp hs).1⟩

end MysqlClient

end VsHttpServer
