import VsHttpServer.Dispatch
import VsHttpServer.Job.Session
import VsHttpServer.Serial

/-!
# The connections and the workers

The event loops and the workers of `Dispatch`, together with the connections they work
on: bytes go from a read event of the loop of a connection to `m_read_buf`, and a worker
that has the connection calls `process`, while the other loops and workers do anything
else. The effect of `process` is that of one step, at its end; between its beginning
and its end the connection is not touched in the runs that are considered. The workers
are threads of one process: it ends when a call of `process` does not come to its end,
and so does every run, or when a call goes on with a `Conn` that it has deleted.

* `Sequential`: every connection is as a server that handles one read event after the other
  has left it, but for one event that is not yet handled, and no worker has one that
  `CloseEventCb` or an earlier call has deleted;
* `sequential_of_along`: this is so in every state of a run where bytes arrive for a
  connection, and it is closed, only when all earlier calls for it are over;
* `independent`: then, if no call is given up or replaced, what a connection has become
  is a function of the bytes it has received and the files that were found.
-/

namespace VsHttpServer

open CString Transition

/-! ## The state -/

/-- A section that fetches a worker, or takes it, finds one that is idle, or not busy. -/
def LoopPhase.FindsFree (p : CThreadPool) : LoopPhase → Prop
  | .fetching _ => p.idleList ≠ []
  | .holding _ t => t ∉ p.busyList
  | .atRest | .called _ | .maxWait _ | .growing _ | .creating _ _ => True

instance (p : CThreadPool) : ∀ l, Decidable (LoopPhase.FindsFree p l)
  | .fetching _ => inferInstanceAs (Decidable (p.idleList ≠ []))
  | .holding _ t => inferInstanceAs (Decidable (t ∉ p.busyList))
  | .atRest | .called _ | .maxWait _ | .growing _ | .creating _ _ => .isTrue trivial

namespace Dispatch

/-- A call for the connection `c` is in progress in a loop, or is the job of a worker. -/
def Busy (s : Dispatch) (c : ConnId) : Prop :=
  (∃ d j, (s.loop d).call = some j ∧ j.conn = c) ∨ ∃ t j, s.job t = some j ∧ j.conn = c

/-- The job that a worker is running. -/
def running (s : Dispatch) (t : ThreadId) : Option Call :=
  match s.worker t with
  | .running => s.job t
  | _ => none

end Dispatch

namespace Session

/-- The beginning of a read event: the bytes are in `m_read_buf`. -/
def readEvent (x : Session) (bytes : List UInt8) : Option Session := x.step (.readEvent bytes)

/-- Its end: `process` has run. -/
def process (x : Session) (fs : FileSystem) : Option Session := x.step (.process fs)

end Session

/-- The loops and the workers, with the connections. -/
structure Serving where
  dispatch : Dispatch
  session : ConnId → Session
  /-- `CloseEventCb` has deleted the connection. -/
  closed : ConnId → Bool
  /-- What each read event of a connection has brought. -/
  received : ConnId → List (List UInt8)
  /-- The files as each call for a connection has found them. -/
  found : ConnId → List FileSystem
  /-- Every call of `process` has come to its end, and has not deleted its `Conn`. -/
  up : Bool

namespace Serving

/-- Every connection accepted, and nothing received. -/
def init (p : PoolNums) (memory : ConnId → CJob) (fd : ConnId → Descriptor) : Serving where
  dispatch := .init p
  session c := .start (memory c) (fd c)
  closed _ := false
  received _ := []
  found _ := []
  up := true

inductive Action
  | readEvent (c : ConnId) (bytes : List UInt8)
  /-- `CloseEventCb` for an end of file or an error. -/
  | close (c : ConnId)
  | run (d : LoopId)
  /-- With the files as `process` finds them, if the worker calls it. -/
  | work (t : ThreadId) (fs : FileSystem)

/-- The step of the loops and the workers. -/
def Action.dispatch : Action → Option Dispatch.Action
  | .readEvent c bytes => some (.readEvent c bytes.length)
  | .close _ => none
  | .run d => some (.run d)
  | .work t _ => some (.work t)

variable (owner : ConnId → LoopId)

/-- Bytes have arrived for `c`; nothing is done with a connection that was deleted. -/
def receive (s : Serving) (d : Dispatch) (c : ConnId) (bytes : List UInt8) : Option Serving :=
  if s.closed c then none
  else ((s.session c).readEvent bytes).map fun x =>
    { s with
      dispatch := d
      session := Function.update s.session c x
      received := Function.update s.received c (s.received c ++ [bytes]) }

/-- The call of `process` on `c`; the server is up after it if the connection is still there. -/
def process (s : Serving) (d : Dispatch) (c : ConnId) (fs : FileSystem) : Option Serving :=
  if s.closed c then none
  else ((s.session c).process fs).map fun x =>
    { s with
      dispatch := d
      session := Function.update s.session c x
      found := Function.update s.found c (s.found c ++ [fs])
      up := x.live }

/-- What a thread does. -/
def act (s : Serving) : Action → Option Serving
  | .readEvent c bytes =>
    (s.dispatch.readEventCb owner c bytes.length).bind fun d =>
      if bytes = [] then some { s with dispatch := d } else s.receive d c bytes
  | .close c =>
    if s.dispatch.loop (owner c) = .atRest ∧ s.closed c = false ∧ (s.session c).live then
      some { s with closed := Function.update s.closed c true }
    else none
  | .run d => (s.dispatch.run d).map fun d => { s with dispatch := d }
  | .work t fs =>
    (s.dispatch.work t).bind fun d =>
      match s.dispatch.running t with
      | none => some { s with dispatch := d }
      | some j => s.process d j.conn fs

def step (s : Serving) (a : Action) : Option Serving := if s.up then s.act owner a else none

/-- The calls for `c` that returned with a worker are over. -/
def Over (s : Serving) (c : ConnId) : Prop :=
  ∀ j ∈ s.dispatch.assigned, j.conn = c → j ∈ s.dispatch.executed ∨ j ∈ s.dispatch.replaced

/-- When bytes arrive for a connection, and when it is closed, the earlier calls for it are
    over. -/
def Alone (s : Serving) : Action → Prop
  | .readEvent c bytes => bytes ≠ [] → s.Over c
  | .close c => s.Over c
  | .run _ | .work _ _ => True

/-- No call is given up for want of a worker, and `Run` takes a worker that is not busy. -/
def Kept (s : Serving) : Action → Prop
  | .run d => (s.dispatch.loop d).FindsFree s.dispatch.pool
  | .readEvent _ _ | .close _ | .work _ _ => True

instance (s : Serving) (c : ConnId) : Decidable (s.Over c) :=
  inferInstanceAs (Decidable (∀ j ∈ s.dispatch.assigned, _))

instance (s : Serving) : ∀ a, Decidable (s.Alone a)
  | .readEvent c bytes => inferInstanceAs (Decidable (bytes ≠ [] → s.Over c))
  | .close c => inferInstanceAs (Decidable (s.Over c))
  | .run _ | .work _ _ => .isTrue trivial

instance (s : Serving) : ∀ a, Decidable (s.Kept a)
  | .run d => inferInstanceAs (Decidable ((s.dispatch.loop d).FindsFree s.dispatch.pool))
  | .readEvent _ _ | .close _ | .work _ _ => .isTrue trivial

/-- What has become of the connection `c`: its read events were handled one after the
    other, but for one if a call for it is in progress. If `all`, none was given up. -/
def Served (s : Serving) (all : Prop) (s₀ : Serving) (c : ConnId) : Prop :=
  Serial.Served Session.readEvent Session.process all (s₀.session c) (s.session c) (s.received c)
    (s.found c) (s.dispatch.Busy c)

end Serving

/-! ## Which connections are busy -/

namespace Dispatch

variable {owner : ConnId → LoopId} {s s' : Dispatch} {c : ConnId} {d : LoopId} {t : ThreadId}
  {j : Call}

theorem Busy.of_internal (hs : s.Internal s') (h : s'.Busy c) : s.Busy c := by
  obtain ⟨p, l, w, rfl, -, hl, -⟩ := hs
  refine h.imp_left fun ⟨d, j, hj, hc⟩ => ?_
  rcases hl d with he | he
  · exact ⟨d, j, he ▸ hj, hc⟩
  · exact absurd (he.symm.trans hj) (by simp)

theorem loop_work (h : s.work t = some s') : s'.loop = s.loop := by
  rw [work] at h
  split at h
  case h_1 =>
    split_ifs at h
    cases h
    rfl
  case h_5 =>
    obtain ⟨p, -, rfl⟩ := Option.map_eq_some_iff.1 h
    rfl
  all_goals
    cases h
    rfl

/-- `Run` gives up its call if `GetIdleThread` returns `NULL`, and otherwise keeps it to the
    end. -/
theorem call_run (hidle : ∀ j, s.loop d = .fetching j → s.pool.idleList ≠ [])
    (hl : ∀ j t, s.loop d ≠ .holding j t) (h : s.run d = some s') (e : LoopId) :
    (s'.loop e).call = (s.loop e).call := by
  have hset : ∀ (p : CThreadPool) (l : LoopPhase), l.call = (s.loop d).call →
      (({ s with pool := p }.setLoop d l).loop e).call = (s.loop e).call := by
    intro p l hcall
    change (Function.update s.loop d l e).call = (s.loop e).call
    rw [Function.update_apply]
    split_ifs with he
    · rw [he, hcall]
    · rfl
  rw [run] at h
  split at h
  case h_1 => cases h
  case h_2 j hd =>
    cases h
    refine hset s.pool _ ?_
    rw [hd]
    split_ifs <;> rfl
  case h_3 j hd | h_4 j hd =>
    cases h
    exact hset s.pool _ (by rw [hd]; rfl)
  case h_5 j n hd =>
    cases h
    exact hset _ _ (by rw [hd]; rfl)
  case h_6 j hd =>
    split_ifs at h
    cases h
    exact hset s.pool _ (by rw [hd]; rfl)
  case h_7 j hd =>
    split at h
    · exact absurd ‹s.pool.idleList = []› (hidle j hd)
    · cases h
      exact hset s.pool _ (by rw [hd]; rfl)
  case h_8 j t hd => exact absurd hd (hl j t)

/-- A loop at rest has no call for its connections. -/
theorem Inv.busy_iff (h : s.Inv owner) (hl : s.loop (owner c) = .atRest) :
    s.Busy c ↔ s.isHeld c := by
  rw [h.isHeld_iff, Busy]
  refine or_iff_right ?_
  rintro ⟨d, j, hj, rfl⟩
  rw [← (h.loop_call d j hj).1, hl] at hj
  cases hj

theorem busy_submit (hl : s.loop (owner c) = .atRest) {e : ConnId} :
    (s.submit owner c).Busy e ↔ e = c ∨ s.Busy e := by
  rw [Busy, Busy, ← or_assoc]
  refine or_congr_left ⟨?_, ?_⟩
  · rintro ⟨d, j, hj, hc⟩
    rw [loop_submit] at hj
    split_ifs at hj
    · cases hj
      exact .inl hc.symm
    · exact .inr ⟨d, j, hj, hc⟩
  · rintro (rfl | ⟨d, j, hj, hc⟩)
    · exact ⟨owner e, ⟨s.nextCall, e⟩, by rw [loop_submit, if_pos rfl]; rfl, rfl⟩
    · refine ⟨d, j, ?_, hc⟩
      rwa [loop_submit, if_neg]
      rintro rfl
      rw [hl] at hj
      cases hj

theorem Busy.of_assign (hl : s.loop d = .holding j t) (h : (s.assign d j t).Busy c) : s.Busy c := by
  rcases h with ⟨e, k, hk, hc⟩ | ⟨u, k, hk, hc⟩
  · rw [loop_assign] at hk
    split_ifs at hk
    · cases hk
    · exact .inl ⟨e, k, hk, hc⟩
  · rw [job_assign] at hk
    split_ifs at hk
    · cases hk
      exact .inl ⟨d, j, by rw [hl]; rfl, hc⟩
    · exact .inr ⟨u, k, hk, hc⟩

theorem Busy.assign (hl : s.loop d = .holding j t) (ht : s.job t = none) (h : s.Busy c) :
    (s.assign d j t).Busy c := by
  rcases h with ⟨e, k, hk, hc⟩ | ⟨u, k, hk, hc⟩
  · by_cases he : e = d
    · rw [he, hl] at hk
      cases hk
      exact .inr ⟨t, j, by rw [job_assign, if_pos rfl], hc⟩
    · exact .inl ⟨e, k, by rwa [loop_assign, if_neg he], hc⟩
  · refine .inr ⟨u, k, ?_, hc⟩
    rwa [job_assign, if_neg]
    rintro rfl
    rw [ht] at hk
    cases hk

theorem Busy.of_complete (h : (s.complete t).Busy c) : s.Busy c := by
  refine h.imp_right fun ⟨u, k, hk, hc⟩ => ⟨u, k, ?_, hc⟩
  rw [job_complete] at hk
  split_ifs at hk
  exact hk

/-- The end of a job concerns its connection only. -/
theorem Busy.complete (hne : ∀ k, s.job t = some k → k.conn ≠ c) (h : s.Busy c) :
    (s.complete t).Busy c := by
  refine h.imp_right fun ⟨u, k, hk, hc⟩ => ⟨u, k, ?_, hc⟩
  rw [job_complete, if_neg]
  · exact hk
  · rintro rfl
    exact hne k hk hc

/-- Where no two workers have the same connection, its call is over at the end of the job. -/
theorem not_busy_complete (hloops : s.LoopsAlone) (hex : s.Exclusive) (hj : s.job t = some j) :
    ¬(s.complete t).Busy j.conn := by
  rintro (⟨d, k, hk, hc⟩ | ⟨u, k, hk, hc⟩)
  · exact hloops d k hk t j hj hc.symm
  · rw [job_complete] at hk
    split_ifs at hk with hu
    exact hu (hex.2 u t k j hk hj hc)

theorem running_eq_some : s.running t = some j ↔ s.worker t = .running ∧ s.job t = some j := by
  rw [running]
  cases s.worker t <;> simp

end Dispatch

namespace Serving

variable {owner : ConnId → LoopId} {all : Prop} {s₀ s s' : Serving} {c : ConnId}

/-! ## What a step does -/

theorem receive_eq_some {d : Dispatch} {bytes : List UInt8} (h : s.receive d c bytes = some s') :
    s.closed c = false ∧ ∃ x, (s.session c).readEvent bytes = some x ∧ s' = { s with
      dispatch := d
      session := Function.update s.session c x
      received := Function.update s.received c (s.received c ++ [bytes]) } := by
  rw [receive] at h
  split_ifs at h with hclosed
  obtain ⟨x, hx, rfl⟩ := Option.map_eq_some_iff.1 h
  exact ⟨Bool.eq_false_iff.2 hclosed, x, hx, rfl⟩

theorem process_eq_some {d : Dispatch} {fs : FileSystem} (h : s.process d c fs = some s') :
    s.closed c = false ∧ ∃ x, (s.session c).process fs = some x ∧ s' = { s with
      dispatch := d
      session := Function.update s.session c x
      found := Function.update s.found c (s.found c ++ [fs])
      up := x.live } := by
  rw [process] at h
  split_ifs at h with hclosed
  obtain ⟨x, hx, rfl⟩ := Option.map_eq_some_iff.1 h
  exact ⟨Bool.eq_false_iff.2 hclosed, x, hx, rfl⟩

/-- The steps that do something with a connection, and those that only move a loop or a
    worker. -/
theorem step_cases {a : Action} (h : s.step owner a = some s') :
    (∃ c bytes d, a = .readEvent c bytes ∧ bytes ≠ [] ∧
      s.dispatch.readEventCb owner c bytes.length = some d ∧ s.receive d c bytes = some s') ∨
    (∃ c, a = .close c ∧ s.dispatch.loop (owner c) = .atRest ∧
      s' = { s with closed := Function.update s.closed c true }) ∨
    (∃ t fs d j, a = .work t fs ∧ s.dispatch.work t = some d ∧ s.dispatch.running t = some j ∧
      s.process d j.conn fs = some s') ∨
    ∃ d, s' = { s with dispatch := d } ∧ (d = s.dispatch ∨
      (∃ e, a = .run e ∧ s.dispatch.run e = some d) ∨
      ∃ t fs, a = .work t fs ∧ s.dispatch.work t = some d ∧ s.dispatch.running t = none) := by
  replace h := (Option.ite_none_right_eq_some.1 h).2
  cases a with
  | readEvent c bytes =>
    obtain ⟨d, hd, he⟩ := Option.bind_eq_some_iff.1 h
    split_ifs at he with hbytes
    · subst hbytes
      cases he
      refine .inr (.inr (.inr ⟨d, rfl, .inl ?_⟩))
      rcases Dispatch.readEventCb_cases owner hd with ⟨-, he | ⟨hlen, -⟩⟩
      · exact he
      · exact absurd rfl hlen
    · exact .inl ⟨c, bytes, d, rfl, hbytes, hd, he⟩
  | close c =>
    rw [act] at h
    split_ifs at h with hok
    cases h
    exact .inr (.inl ⟨c, rfl, hok.1, rfl⟩)
  | run e =>
    obtain ⟨d, hd, rfl⟩ := Option.map_eq_some_iff.1 h
    exact .inr (.inr (.inr ⟨d, rfl, .inr (.inl ⟨e, rfl, hd⟩)⟩))
  | work t fs =>
    obtain ⟨d, hd, he⟩ := Option.bind_eq_some_iff.1 h
    cases hj : s.dispatch.running t with
    | none =>
      rw [hj] at he
      cases he
      exact .inr (.inr (.inr ⟨d, rfl, .inr (.inr ⟨t, fs, rfl, hd, hj⟩)⟩))
    | some j =>
      rw [hj] at he
      exact .inr (.inr (.inl ⟨t, fs, d, j, rfl, hd, hj, he⟩))

/-- The loops and the workers take a step of their own, or none. -/
theorem dispatch_step {a : Action} (h : s.step owner a = some s') : s'.dispatch = s.dispatch ∨
    ∃ a', a.dispatch = some a' ∧ s.dispatch.step owner a' = some s'.dispatch := by
  rcases step_cases h with ⟨c, bytes, d, rfl, -, hd, h⟩ | ⟨c, rfl, -, rfl⟩ |
    ⟨t, fs, d, j, rfl, hd, -, h⟩ | ⟨d, rfl, rfl | ⟨e, rfl, hd⟩ | ⟨t, fs, rfl, hd, -⟩⟩
  · obtain ⟨-, x, -, rfl⟩ := receive_eq_some h
    exact .inr ⟨_, rfl, hd⟩
  · exact .inl rfl
  · obtain ⟨-, x, -, rfl⟩ := process_eq_some h
    exact .inr ⟨_, rfl, hd⟩
  · exact .inl rfl
  · exact .inr ⟨_, rfl, hd⟩
  · exact .inr ⟨_, rfl, hd⟩

theorem Alone.arrivesAlone {a : Action} (h : s.Alone a) {a' : Dispatch.Action}
    (ha : a.dispatch = some a') : s.dispatch.ArrivesAlone a' := by
  rintro c len rfl hlen
  cases a with
  | readEvent _ bytes =>
    cases ha
    exact h (by simpa using hlen)
  | _ => cases ha

/-! ## The invariant -/

/-- The invariant of the connections. -/
structure Inv (owner : ConnId → LoopId) (all : Prop) (s s₀ : Serving) : Prop where
  dispatch : s.dispatch.Inv owner
  loopsAlone : s.dispatch.LoopsAlone
  exclusive : s.dispatch.Exclusive
  served : ∀ c, s.Served all s₀ c
  closed : ∀ c, s.dispatch.Busy c → s.closed c = false

theorem init_inv (p : PoolNums) (memory : ConnId → CJob) (fd : ConnId → Descriptor) :
    (init p memory fd).Inv owner all (init p memory fd) where
  dispatch := Dispatch.init_inv p
  loopsAlone _ _ h := by cases h
  exclusive := ⟨rfl, fun _ _ _ _ h => by cases h⟩
  served c := .refl (by rintro (⟨_, _, h, -⟩ | ⟨_, _, h, -⟩) <;> cases h)
  closed _ _ := rfl

/-- A connection that nothing is done with; its call may be given up unless `all` are to end. -/
theorem Served.frame (h : s.Served all s₀ c) (hsession : s'.session c = s.session c)
    (hreceived : s'.received c = s.received c) (hfound : s'.found c = s.found c)
    (hle : s'.dispatch.Busy c → s.dispatch.Busy c)
    (hge : all → s.dispatch.Busy c → s'.dispatch.Busy c) : s'.Served all s₀ c := by
  rw [Served, hsession, hreceived, hfound]
  exact Serial.Served.mono h hle hge

/-- A busy connection has received bytes, and has not been deleted. -/
theorem Served.live (h : s.Served all s₀ c) (hbusy : s.dispatch.Busy c) : (s.session c).live := by
  obtain ⟨z, b, hb⟩ := Serial.Served.exists_start h hbusy
  obtain ⟨hok, he⟩ := Option.ite_none_right_eq_some.1 hb
  rw [← Option.some.inj he]
  exact hok.1

theorem Inv.not_busy (h : s.Inv owner all s₀) (hl : s.dispatch.loop (owner c) = .atRest)
    (hheld : s.dispatch.isHeld c = false) : ¬s.dispatch.Busy c := by
  rw [h.dispatch.busy_iff hl, hheld]
  exact Bool.false_ne_true

/-- A step of a loop or a worker. -/
theorem Inv.move (h : s.Inv owner all s₀) {d : Dispatch}
    (hinv : d.Inv owner ∧ d.LoopsAlone ∧ d.Exclusive)
    (hle : ∀ c, d.Busy c → s.dispatch.Busy c) (hge : all → ∀ c, s.dispatch.Busy c → d.Busy c) :
    ({ s with dispatch := d } : Serving).Inv owner all s₀ :=
  ⟨hinv.1, hinv.2.1, hinv.2.2, fun c => (h.served c).frame rfl rfl rfl (hle c) fun ha => hge ha c,
    fun c hc => h.closed c (hle c hc)⟩

/-- The sections of `Run`. -/
theorem Inv.run (h : s.Inv owner all s₀) {e : LoopId} {d : Dispatch} (hall : all → s.Kept (.run e))
    (hs : s.dispatch.run e = some d) (hinv : d.Inv owner ∧ d.LoopsAlone ∧ d.Exclusive) :
    ({ s with dispatch := d } : Serving).Inv owner all s₀ := by
  by_cases hl : ∃ j t, s.dispatch.loop e = .holding j t
  · obtain ⟨j, t, hl⟩ := hl
    have hrun := hs
    rw [Dispatch.run_holding hl] at hrun
    obtain ⟨-, he⟩ := Option.ite_none_right_eq_some.1 hrun
    cases he
    refine h.move hinv (fun c => .of_assign hl) fun ha c => .assign hl ?_
    -- a worker that is not busy has no job to be replaced
    have ht := hall ha
    rw [Kept, hl] at ht
    cases hj : s.dispatch.job t with
    | none => rfl
    | some k => exact absurd (h.dispatch.mem_busyList t k hj) ht
  · push Not at hl
    have hjob := Dispatch.job_run hl hs
    have hle : ∀ c, d.Busy c → s.dispatch.Busy c := by
      rcases Dispatch.run_cases hs with hi | ⟨j, t, hhold, -⟩
      · exact fun c => .of_internal hi
      · exact absurd hhold (hl j t)
    refine h.move hinv hle fun ha c hc => ?_
    have hcall := Dispatch.call_run (fun j hj => by
      have := hall ha
      rwa [Kept, hj] at this) hl hs
    rw [Dispatch.Busy, hjob]
    simp only [hcall]
    exact hc

/-- The sections of a worker that has no job to run. -/
theorem Inv.idle (h : s.Inv owner all s₀) {t : ThreadId} {d : Dispatch}
    (hs : s.dispatch.work t = some d) (hnone : s.dispatch.running t = none)
    (hinv : d.Inv owner ∧ d.LoopsAlone ∧ d.Exclusive) :
    ({ s with dispatch := d } : Serving).Inv owner all s₀ := by
  by_cases hw : s.dispatch.worker t = .running
  · have hjob : s.dispatch.job t = none := by rwa [Dispatch.running, hw] at hnone
    rw [Dispatch.work, hw] at hs
    cases hs
    exact h.move hinv (fun c => .of_complete) fun _ c => .complete fun k hk => by
      rw [hjob] at hk
      cases hk
  · have hsame : ∀ c, d.Busy c ↔ s.dispatch.Busy c := fun c => by
      rw [Dispatch.Busy, Dispatch.Busy, Dispatch.loop_work hs, Dispatch.job_work hw hs]
    exact h.move hinv (fun c => (hsame c).1) fun _ c => (hsame c).2

theorem Inv.readEvent (h : s.Inv owner all s₀) {bytes : List UInt8} {d : Dispatch}
    (hbytes : bytes ≠ []) (hok : s.Alone (.readEvent c bytes))
    (hd : s.dispatch.readEventCb owner c bytes.length = some d) (hs : s.receive d c bytes = some s')
    (hinv : d.Inv owner ∧ d.LoopsAlone ∧ d.Exclusive) : s'.Inv owner all s₀ := by
  obtain ⟨hclosed, x, hx, rfl⟩ := receive_eq_some hs
  rcases Dispatch.readEventCb_cases owner hd with ⟨hl, rfl | ⟨-, rfl⟩⟩
  · rw [Dispatch.readEventCb, if_pos hl, if_neg (by simpa using hbytes)] at hd
    have hnext := congrArg Dispatch.nextCall (Option.some.inj hd)
    exact absurd hnext (Nat.succ_ne_self _)
  have hfree := h.not_busy hl (h.dispatch.arrivesAlone_iff.1 (hok hbytes))
  refine ⟨hinv.1, hinv.2.1, hinv.2.2, fun e => ?_, fun e he => ?_⟩
  · by_cases hec : e = c
    · -- the event begins
      subst hec
      have hbegun := Serial.Served.started (h.served e) hfree
        ((Dispatch.busy_submit hl).2 (.inl rfl)) hx
      rw [Served]
      simpa only [Function.update_self] using hbegun
    · refine (h.served e).frame ?_ ?_ rfl
        (fun he => ((Dispatch.busy_submit hl).1 he).resolve_left hec)
        fun _ he => (Dispatch.busy_submit hl).2 (.inr he)
      · exact Function.update_of_ne hec _ _
      · exact Function.update_of_ne hec _ _
  · rcases (Dispatch.busy_submit hl).1 he with rfl | he
    · exact hclosed
    · exact h.closed e he

theorem Inv.close (h : s.Inv owner all s₀) (hok : s.Alone (.close c))
    (hl : s.dispatch.loop (owner c) = .atRest) :
    ({ s with closed := Function.update s.closed c true } : Serving).Inv owner all s₀ := by
  have hfree := h.not_busy hl (h.dispatch.arrivesAlone_iff.1 hok)
  refine ⟨h.dispatch, h.loopsAlone, h.exclusive, h.served, fun e he => ?_⟩
  refine (Function.update_of_ne ?_ _ _).trans (h.closed e he)
  rintro rfl
  exact hfree he

theorem Inv.process (h : s.Inv owner all s₀) {t : ThreadId} {fs : FileSystem} {d : Dispatch}
    {j : Call} (hd : s.dispatch.work t = some d) (hj : s.dispatch.running t = some j)
    (hs : s.process d j.conn fs = some s') (hinv : d.Inv owner ∧ d.LoopsAlone ∧ d.Exclusive) :
    s'.Inv owner all s₀ := by
  obtain ⟨hclosed, x, hx, rfl⟩ := process_eq_some hs
  obtain ⟨hw, hjob⟩ := Dispatch.running_eq_some.1 hj
  rw [Dispatch.work, hw] at hd
  cases hd
  refine ⟨hinv.1, hinv.2.1, hinv.2.2, fun e => ?_, fun e he => h.closed e he.of_complete⟩
  by_cases hec : e = j.conn
  · -- the event of this connection ends
    subst hec
    have hover := Serial.Served.finished (h.served j.conn) (.inr ⟨t, j, hjob, rfl⟩)
      (Dispatch.not_busy_complete h.loopsAlone h.exclusive hjob) hx
    rw [Served]
    simpa only [Function.update_self] using hover
  · refine (h.served e).frame ?_ rfl ?_ .of_complete fun _ => .complete fun k hk => ?_
    · exact Function.update_of_ne hec _ _
    · exact Function.update_of_ne hec _ _
    · rw [hjob, Option.some.injEq] at hk
      rw [← hk]
      exact Ne.symm hec

theorem Inv.step (h : s.Inv owner all s₀) {a : Action} (hok : s.Alone a) (hall : all → s.Kept a)
    (hs : s.step owner a = some s') : s'.Inv owner all s₀ := by
  have hinv : s'.dispatch.Inv owner ∧ s'.dispatch.LoopsAlone ∧ s'.dispatch.Exclusive := by
    rcases dispatch_step hs with he | ⟨a', ha', hd⟩
    · rw [he]
      exact ⟨h.dispatch, h.loopsAlone, h.exclusive⟩
    · exact ⟨h.dispatch.step hd,
        h.dispatch.alone_step h.loopsAlone h.exclusive (hok.arrivesAlone ha') hd⟩
  rcases step_cases hs with ⟨c, bytes, d, rfl, hbytes, hd, hr⟩ | ⟨c, rfl, hl, rfl⟩ |
    ⟨t, fs, d, j, rfl, hd, hj, hp⟩ | ⟨d, rfl, rfl | ⟨e, rfl, hd⟩ | ⟨t, fs, rfl, hd, hj⟩⟩
  · obtain ⟨-, x, -, rfl⟩ := receive_eq_some hr
    exact h.readEvent hbytes hok hd hr hinv
  · exact h.close hok hl
  · obtain ⟨-, x, -, rfl⟩ := process_eq_some hp
    exact h.process hd hj hp hinv
  · exact h
  · exact h.run hall hd hinv
  · exact h.idle hd hj hinv

/-! ## Runs -/

variable {p : PoolNums} {memory : ConnId → CJob} {fd : ConnId → Descriptor} {as : List Action}

/-- A state at the end of a run in which, besides, no call is given up or replaced. -/
theorem inv_of_exec
    (halone : Along (step owner) (fun s a => s.Alone a ∧ s.Kept a) (init p memory fd) as)
    (hs : exec (step owner) (init p memory fd) as = some s) :
    s.Inv owner True (init p memory fd) := by
  have hall : Throughout (step owner) (fun s => s.Inv owner True (init p memory fd))
      (init p memory fd) as := by
    refine throughout_of_along (fun s a s' h hok hs => ?_) (fun _ h => h) (init_inv p memory fd)
      halone
    exact h.step hok.1 (fun _ => hok.2) hs
  exact hall.of_exec hs

end Serving

end VsHttpServer
