import VsHttpServer.Dispatch
import VsHttpServer.Job.Process

/-!
# The lifetime of a connection

A `Conn` is deleted by its event loop in `CloseEventCb`, and by a worker in `close_conn`,
which `CJob::process` calls. The two do not know of each other. To the dispatch of the
calls are added here the close events, and the operations of `process` in a worker, each
a step of its own.

What a worker finds in the `Conn` when it begins is left open, as is the file system: both
come with the action. A deleted `Conn` is used as if its memory were still there, and no
event comes for a bufferevent that has been freed.

* `undisturbed_iff`: in a run, no `Conn` is deleted that a worker has, and none is
  deleted twice, if and only if a connection is closed only when the calls for it are
  over, and no worker calls `close_conn`;
* `undisturbed_of_keeps`: no worker does when all answers keep the connection.
-/

namespace VsHttpServer

open Transition CString

/-- The events of `CloseEventCb`. -/
structure CloseEvents where
  eof : Bool
  error : Bool
  timeout : Bool

/-- `finished` in `CloseEventCb`. -/
def CloseEvents.finished (e : CloseEvents) : Nat :=
  if e.eof then 1 else if e.error then 1 else if e.timeout then 3 else 0

/-- The dispatch of the calls, with what becomes of the connections. -/
structure Lifetime where
  dispatch : Dispatch
  /-- What is left of `m_Job->Run` in a worker. -/
  ops : ThreadId → List Op
  /-- The bufferevent of the connection is freed. -/
  freed : ConnId → Bool
  /-- How many times `DeleteConn` was applied to the connection. -/
  deletions : ConnId → Nat
  /-- `DeleteConn` was applied to a connection that was the job of a worker. -/
  disturbed : Bool

namespace Lifetime

def init (c : PoolNums) : Lifetime where
  dispatch := .init c
  ops _ := []
  freed _ := false
  deletions _ := 0
  disturbed := false

variable (owner : ConnId → LoopId)

def buffereventFree (s : Lifetime) (c : ConnId) : Lifetime :=
  { s with freed := Function.update s.freed c true }

/-- `ConnQueue::DeleteConn`, which `CheckIfInBusyList` calls. -/
def deleteConn (s : Lifetime) (c : ConnId) : Lifetime :=
  { s with
    deletions := Function.update s.deletions c (s.deletions c + 1)
    disturbed := s.disturbed || s.dispatch.isHeld c }

/-- `CloseEventCb` of `c` in its event-loop thread. -/
def closeEventCb (s : Lifetime) (c : ConnId) (e : CloseEvents) : Option Lifetime :=
  if s.dispatch.loop (owner c) = .atRest ∧ s.freed c = false then
    some (if e.finished = 1 then (s.buffereventFree c).deleteConn c else s)
  else none

/-- What an operation of `process` on `c` does to the lifetime of `c`. -/
def perform (s : Lifetime) (c : ConnId) : Op → Lifetime
  | .deleteConn => s.deleteConn c
  | .buffereventFree => s.buffereventFree c
  | _ => s

/-- A worker begins with its job: it finds `content` in the `Conn`. -/
def start (s : Lifetime) (t : ThreadId) (fs : FileSystem) (content : ConnJob) : Option Lifetime :=
  if s.dispatch.worker t = .blocked then
    (s.dispatch.work t).map fun p =>
      { s with dispatch := p, ops := Function.update s.ops t (content.process fs).1 }
  else none

/-- The next step of a worker that has begun: an operation of `process`, or what comes
    after `m_Job->Run`. -/
def work (s : Lifetime) (t : ThreadId) : Option Lifetime :=
  match s.dispatch.worker t, s.ops t with
  | .blocked, _ => none
  | .running, op :: ops =>
    (s.dispatch.job t).map fun j =>
      { s.perform j.conn op with ops := Function.update s.ops t ops }
  | _, _ => (s.dispatch.work t).map fun p => { s with dispatch := p }

inductive Action
  | readEvent (c : ConnId) (len : Nat)
  | closeEvent (c : ConnId) (e : CloseEvents)
  | run (d : LoopId)
  | start (t : ThreadId) (fs : FileSystem) (content : ConnJob)
  | work (t : ThreadId)

def step (s : Lifetime) : Action → Option Lifetime
  | .readEvent c len =>
    if s.freed c = false then
      (s.dispatch.readEventCb owner c len).map fun p => { s with dispatch := p }
    else none
  | .closeEvent c e => s.closeEventCb owner c e
  | .run d => (s.dispatch.run d).map fun p => { s with dispatch := p }
  | .start t fs content => s.start t fs content
  | .work t => s.work t

/-! ## What a step does -/

variable {s s' : Lifetime}

@[simp]
theorem deletions_deleteConn (c d : ConnId) : (s.deleteConn c).deletions d =
    if d = c then s.deletions c + 1 else s.deletions d :=
  Function.update_apply _ _ _ _

@[simp]
theorem freed_buffereventFree (c d : ConnId) :
    (s.buffereventFree c).freed d = if d = c then true else s.freed d :=
  Function.update_apply _ _ _ _

theorem start_cases {t : ThreadId} {fs : FileSystem} {content : ConnJob}
    (h : s.start t fs content = some s') :
    ∃ p, s.dispatch.work t = some p ∧
      s' = { s with dispatch := p, ops := Function.update s.ops t (content.process fs).1 } := by
  obtain ⟨-, he⟩ := Option.ite_none_right_eq_some.1 h
  obtain ⟨p, hp, rfl⟩ := Option.map_eq_some_iff.1 he
  exact ⟨p, hp, rfl⟩

theorem work_cases {t : ThreadId} (h : s.work t = some s') :
    (∃ op ops j, s.dispatch.worker t = .running ∧ s.ops t = op :: ops ∧
      s.dispatch.job t = some j ∧
      s' = { s.perform j.conn op with ops := Function.update s.ops t ops }) ∨
    ∃ p, s.dispatch.work t = some p ∧ s' = { s with dispatch := p } := by
  rw [work] at h
  split at h
  case h_1 => cases h
  case h_2 op ops hw hops =>
    obtain ⟨j, hj, rfl⟩ := Option.map_eq_some_iff.1 h
    exact .inl ⟨op, ops, j, hw, hops, hj, rfl⟩
  case h_3 =>
    obtain ⟨p, hp, rfl⟩ := Option.map_eq_some_iff.1 h
    exact .inr ⟨p, hp, rfl⟩

theorem step_cases {a : Action} (h : s.step owner a = some s') :
    (∃ c e, a = .closeEvent c e ∧ s.freed c = false ∧
      s' = if e.finished = 1 then (s.buffereventFree c).deleteConn c else s) ∨
    (∃ t op ops j, a = .work t ∧ s.dispatch.worker t = .running ∧ s.ops t = op :: ops ∧
      s.dispatch.job t = some j ∧
      s' = { s.perform j.conn op with ops := Function.update s.ops t ops }) ∨
    (∃ t fs content p, a = .start t fs content ∧ s.dispatch.work t = some p ∧
      s' = { s with dispatch := p, ops := Function.update s.ops t (content.process fs).1 }) ∨
    ∃ b p, s.dispatch.step owner b = some p ∧ s' = { s with dispatch := p } := by
  cases a with
  | readEvent c len =>
    obtain ⟨-, he⟩ := Option.ite_none_right_eq_some.1 h
    obtain ⟨p, hp, rfl⟩ := Option.map_eq_some_iff.1 he
    exact .inr (.inr (.inr ⟨.readEvent c len, p, hp, rfl⟩))
  | closeEvent c e =>
    obtain ⟨⟨-, hf⟩, he⟩ := Option.ite_none_right_eq_some.1 h
    exact .inl ⟨c, e, rfl, hf, (Option.some.inj he).symm⟩
  | run d =>
    obtain ⟨p, hp, rfl⟩ := Option.map_eq_some_iff.1 h
    exact .inr (.inr (.inr ⟨.run d, p, hp, rfl⟩))
  | start t fs content =>
    obtain ⟨p, hp⟩ := start_cases h
    exact .inr (.inr (.inl ⟨t, fs, content, p, rfl, hp⟩))
  | work t =>
    rcases work_cases h with ⟨op, ops, j, ht⟩ | ⟨p, hp, rfl⟩
    · exact .inr (.inl ⟨t, op, ops, j, rfl, ht⟩)
    · exact .inr (.inr (.inr ⟨.work t, p, hp, rfl⟩))

variable {owner}

@[simp]
theorem dispatch_perform (c : ConnId) (op : Op) : (s.perform c op).dispatch = s.dispatch := by
  cases op <;> rfl

/-- The dispatch of the calls takes a step, or none. -/
theorem step_dispatch {a : Action} (h : s.step owner a = some s') :
    s'.dispatch = s.dispatch ∨ ∃ b, s.dispatch.step owner b = some s'.dispatch := by
  rcases step_cases owner h with ⟨c, e, -, -, rfl⟩ | ⟨t, op, ops, j, -, -, -, -, rfl⟩ |
    ⟨t, fs, content, p, -, hp, rfl⟩ | ⟨b, p, hp, rfl⟩
  · split_ifs
    exacts [.inl rfl, .inl rfl]
  · exact .inl (dispatch_perform j.conn op)
  · exact .inr ⟨.work t, hp⟩
  · exact .inr ⟨b, hp⟩

theorem calls_step (h : s.dispatch.Inv owner) {a : Action} (hs : s.step owner a = some s') :
    s'.dispatch.Inv owner := by
  rcases step_dispatch hs with he | ⟨b, hb⟩
  · exact he ▸ h
  · exact h.step hb

/-! ## Deletions -/

/-- No `Conn` was deleted while a worker had it, and none was deleted twice. -/
def Undisturbed (s : Lifetime) : Prop := s.disturbed = false ∧ ∀ c, s.deletions c ≤ 1

/-- `CloseEventCb` finds the calls over that returned with a worker. -/
def ClosesAlone (s : Lifetime) (a : Action) : Prop :=
  ∀ c e, a = .closeEvent c e → e.finished = 1 →
    ∀ j ∈ s.dispatch.assigned, j.conn = c → j ∈ s.dispatch.executed ∨ j ∈ s.dispatch.replaced

/-- A connection is closed only in `CloseEventCb`, and when the calls for it are over
    that returned with a worker. -/
def Spares (s : Lifetime) (a : Action) : Prop :=
  s.ClosesAlone a ∧
    ∀ t, a = .work t → s.dispatch.worker t = .running → (s.ops t).head? ≠ some .deleteConn

/-- The bufferevent of a deleted connection is freed. -/
def DeletedFreed (s : Lifetime) : Prop := ∀ c, s.freed c = false → s.deletions c = 0

theorem spared_step (h : s.dispatch.Inv owner) (hun : s.Undisturbed) (hfreed : s.DeletedFreed)
    {a : Action} (hok : s.Spares a) (hs : s.step owner a = some s') :
    s'.Undisturbed ∧ s'.DeletedFreed := by
  rcases step_cases owner hs with ⟨c, e, rfl, hf, rfl⟩ | ⟨t, op, ops, j, rfl, hw, hops, -, rfl⟩ |
    ⟨t, fs, content, p, -, -, rfl⟩ | ⟨b, p, -, rfl⟩
  · split_ifs with hfin
    · -- the only deletion of the connection, after which no event comes
      have hfree := h.arrivesAlone_iff.1 (hok.1 c e rfl hfin)
      refine ⟨⟨?_, fun d => ?_⟩, fun d hd => ?_⟩
      · change (s.disturbed || s.dispatch.isHeld c) = false
        rw [hun.1, hfree]
        rfl
      · rw [deletions_deleteConn]
        split_ifs with hdc
        · exact (congrArg (· + 1) (hfreed c hf)).le
        · exact hun.2 d
      · change (s.buffereventFree c).freed d = false at hd
        rw [freed_buffereventFree] at hd
        split_ifs at hd with hdc
        rw [deletions_deleteConn, if_neg hdc]
        exact hfreed d hd
    · exact ⟨hun, hfreed⟩
  · have hne := hok.2 t rfl hw
    rw [hops] at hne
    cases op with
    | deleteConn => exact absurd rfl hne
    | buffereventFree =>
      refine ⟨hun, fun d hd => hfreed d ?_⟩
      change (s.buffereventFree j.conn).freed d = false at hd
      rw [freed_buffereventFree] at hd
      split_ifs at hd
      exact hd
    | _ => exact ⟨hun, hfreed⟩
  · exact ⟨hun, hfreed⟩
  · exact ⟨hun, hfreed⟩

theorem isHeld_of_job (h : s.dispatch.Inv owner) {t : ThreadId} {j : Call}
    (hj : s.dispatch.job t = some j) : s.dispatch.isHeld j.conn = true :=
  h.isHeld_iff.2 ⟨t, j, hj, rfl⟩

/-- In a run, no `Conn` is deleted that a worker has as its job, and none is deleted twice,
    in every state, if and only if `CloseEventCb` finds the calls for its connection
    over, and no worker calls `close_conn`. -/
theorem undisturbed_iff (owner : ConnId → LoopId) (c : PoolNums) (as : List Action) :
    Along (step owner) Spares (init c) as ↔ Throughout (step owner) Undisturbed (init c) as := by
  refine along_iff_throughout
    (I := fun s => s.dispatch.Inv owner ∧ s.Undisturbed ∧ s.DeletedFreed)
    (fun s a s' h hok hs => ⟨calls_step h.1 hs, spared_step h.1 h.2.1 h.2.2 hok hs⟩)
    (fun s h => h.2.1) (fun s a s' h hnot hs hun => hnot ⟨?_, ?_⟩)
    ⟨Dispatch.init_inv c, ⟨rfl, fun _ => Nat.zero_le 1⟩, fun _ _ => rfl⟩
  · rintro d e rfl hfin
    rw [step, closeEventCb, if_pos hfin] at hs
    obtain ⟨-, he⟩ := Option.ite_none_right_eq_some.1 hs
    cases he
    have hfree : (s.disturbed || s.dispatch.isHeld d) = false := hun.1
    rw [Bool.or_eq_false_iff] at hfree
    exact h.1.arrivesAlone_iff.2 hfree.2
  · rintro t rfl hw hhead
    obtain ⟨ops, hops⟩ := List.head?_eq_some_iff.1 hhead
    rw [step, work, hw, hops] at hs
    obtain ⟨j, hj, rfl⟩ := Option.map_eq_some_iff.1 hs
    have hfree : (s.disturbed || s.dispatch.isHeld j.conn) = false := hun.1
    rw [isHeld_of_job h.1 hj, Bool.or_true] at hfree
    cases hfree

/-- A worker whose answer does not keep the connection deletes it in its third step. -/
theorem exec_closing (owner : ConnId → LoopId) {t : ThreadId} {j : Call} {fs : FileSystem} {content : ConnJob}
    (hw : s.dispatch.worker t = .blocked) (hj : s.dispatch.job t = some j)
    (hcode : content.code fs ≠ .noRequest) (hkeeps : ¬content.Keeps fs) :
    ∃ s', exec (step owner) s [.start t fs content, .work t, .work t, .work t] = some s' ∧
      s'.deletions j.conn = s.deletions j.conn + 1 := by
  have hops : ∃ ops, (content.process fs).1 =
      .processRead :: .processWrite :: .deleteConn :: ops := by
    rw [ConnJob.process_eq hcode, ConnJob.closing, if_neg hkeeps]
    exact ⟨_, rfl⟩
  obtain ⟨ops, hops⟩ := hops
  have hp : s.dispatch.work t = some (s.dispatch.setWorker t .running) := by
    rw [Dispatch.work, hw]
    simp [hj]
  simp [exec, step, start, work, hw, hp, hops, hj, Dispatch.setWorker, perform]

/-- The peer closes the connection before the worker begins with its job; the worker
    then deletes the `Conn` a second time. -/
theorem not_undisturbed :
    ∃ s s', exec (step id) (init .default)
        ([.readEvent 0 18] ++ List.replicate 5 (.run 0) ++ [.closeEvent 0 ⟨true, false, false⟩]) =
          some s ∧
      s.dispatch.job 0 = some ⟨0, 0⟩ ∧ s.deletions 0 = 1 ∧ s.disturbed = true ∧
      exec (step id) s
        [.start 0 (.all ⟨0o100644, 0⟩ .mapFailed) ((ConnJob.accept default ⟨5, by decide⟩).readEvent
          (ascii "GET / HTTP/1.1\r\n\r\n")), .work 0, .work 0, .work 0] = some s' ∧
      s'.deletions 0 = 2 := by
  have hbytes : ascii "GET / HTTP/1.1\r\n\r\n" = (CJob.plainGet 0).bytes := by decide
  obtain ⟨s, hs, he⟩ := Option.map_eq_some_iff.1 (show
    (exec (step id) (init .default)
      ([.readEvent 0 18] ++ List.replicate 5 (.run 0) ++ [.closeEvent 0 ⟨true, false, false⟩])).map
      (fun s => (s.dispatch.worker 0, s.dispatch.job 0, s.deletions 0, s.disturbed)) =
      some (.blocked, some ⟨0, 0⟩, 1, true) by decide)
  simp only [Prod.mk.injEq] at he
  obtain ⟨hw, hj, hdel, hdist⟩ := he
  obtain ⟨hcode, hkeeps⟩ := ConnJob.not_keeps_empty default ⟨5, by decide⟩
  obtain ⟨s', hs', hdel'⟩ := exec_closing id hw hj (by rw [hcode]; nofun) hkeeps
  exact ⟨s, s', hs, hj, hdel, hdist, hbytes ▸ hs', by rw [hdel', hdel]⟩

/-! ## Answers that keep the connection -/

/-- A worker finds a request in the `Conn` that is not complete, or whose answer keeps the
    connection. -/
def FindsKept (a : Action) : Prop :=
  ∀ t fs content, a = .start t fs content → content.code fs = .noRequest ∨ content.Keeps fs

/-- No worker is going to call `close_conn`. -/
def NoneCloses (s : Lifetime) : Prop := ∀ t, .deleteConn ∉ s.ops t

theorem NoneCloses.spares (h : s.NoneCloses) {a : Action} (hclose : s.ClosesAlone a) :
    s.Spares a :=
  ⟨hclose, fun t _ _ hhead => h t (List.mem_of_head? hhead)⟩

theorem NoneCloses.step (h : s.NoneCloses) {a : Action} (hfinds : FindsKept a)
    (hs : s.step owner a = some s') : s'.NoneCloses := by
  rcases step_cases owner hs with ⟨c, e, -, -, rfl⟩ | ⟨t, op, ops, j, -, -, hops, -, rfl⟩ |
    ⟨t, fs, content, p, rfl, -, rfl⟩ | ⟨b, p, -, rfl⟩
  · split_ifs
    exacts [h, h]
  · intro u
    change .deleteConn ∉ Function.update s.ops t ops u
    rw [Function.update_apply]
    split_ifs
    · exact fun hmem => h t (hops ▸ List.mem_cons_of_mem op hmem)
    · exact h u
  · intro u
    change .deleteConn ∉ Function.update s.ops t (content.process fs).1 u
    rw [Function.update_apply]
    split_ifs
    · rw [ConnJob.deleteConn_mem_process, not_and_not_right]
      exact (hfinds t fs content rfl).resolve_left
    · exact h u
  · exact h

/-- In a run where workers answer only so as to keep the connections, none is deleted
    that a worker has, or twice, when `CloseEventCb` finds the calls for its connection
    over. -/
theorem undisturbed_of_keeps (owner : ConnId → LoopId) (c : PoolNums) (as : List Action)
    (h : Along (step owner) (fun s a => s.ClosesAlone a ∧ FindsKept a) (init c) as) :
    Throughout (step owner) Undisturbed (init c) as := by
  refine throughout_of_along
    (I := fun s => (s.dispatch.Inv owner ∧ s.Undisturbed ∧ s.DeletedFreed) ∧ s.NoneCloses)
    (fun s a s' hI hok hs => ?_) (fun s hI => hI.1.2.1)
    ⟨⟨Dispatch.init_inv c, ⟨rfl, fun _ => Nat.zero_le 1⟩, fun _ _ => rfl⟩, fun _ => List.not_mem_nil⟩ h
  obtain ⟨⟨hcalls, hun, hfreed⟩, hnone⟩ := hI
  exact ⟨⟨calls_step hcalls hs, spared_step hcalls hun hfreed (hnone.spares hok.1) hs⟩,
    hnone.step hok.2 hs⟩

end Lifetime

end VsHttpServer
