import VsHttpServer.Job.Stores
import VsHttpServer.Transition

/-!
# Runs of the parser

A run consists of calls of `process_read`, taken apart into the evaluations of the
condition of its loop and of the body, and of bytes received between the calls. It
records the stores of the parser, and the sums that `parse_content` makes.

* `exec_processRead`: the steps of a call do what `process_read` does, and change the
  buffer by the stores they record;
* `Inv`: the stores are in the buffer, and the cursors in order;
* `inside_iff`: the stores of a run are in the buffer, and no sum overflows, if and only
  if every body that `parse_content` is called for can be ended there.
-/

namespace VsHttpServer

open CString Crlf Transition

/-- Where a call of `process_read` is. -/
inductive Control
  /-- No call is active, and the last one has returned `ret`. -/
  | returned (ret : HttpCode)
  /-- At the condition of the loop. -/
  | condition (lineStatus : LineStatus)
  | body
  /-- The loop was left for `do_request`. -/
  | doRequest
  deriving DecidableEq, Repr

namespace Control

def idle : Control → Bool
  | returned _ => true
  | _ => false

/-- Where the loop is left to. -/
def ofExit : CJob.ReadExit → Control
  | .ret code => returned code
  | .doRequest => doRequest

/-- Where the body of the loop leads. -/
def ofFlow : CJob.ReadFlow → Control
  | .leave e => ofExit e
  | .next lineStatus => condition lineStatus

end Control

/-- A run of the parser, with the indices it has stored at, and the sums it has compared
    with `m_read_idx`. -/
structure Parsing where
  job : CJob
  control : Control
  stores : List Int
  sums : List Int

namespace Parsing

/-- A freshly initialised job. -/
def start (memory : CJob) : Parsing where
  job := memory.init
  control := .returned .noRequest
  stores := []
  sums := []

inductive Action
  /-- Bytes received at `m_read_buf + o`: read events copy them to the start of the
      buffer, the commented-out `CJob::read` to `m_read_idx`. -/
  | append (o : Nat) (bytes : List UInt8)
  | call
  /-- The next evaluation of the condition or of the body. -/
  | go
  | doRequest (fs : FileSystem)

/-- The run after an evaluation of the condition of the loop. -/
def evalCondition (p : Parsing) (lineStatus : LineStatus) : Parsing where
  job := (p.job.loopCondition lineStatus).2
  control :=
    if (p.job.loopCondition lineStatus).1 = .lineOk then .body else .returned .noRequest
  stores := p.stores ++ p.job.conditionStores lineStatus
  sums := p.sums

/-- The run after an evaluation of the body. -/
def evalBody (p : Parsing) : Parsing where
  job := p.job.loopBody.2
  control := .ofFlow p.job.loopBody.1
  stores := p.stores ++ p.job.bodyStores
  sums := p.sums ++ p.job.bodySums

/-- Bytes are received while no call is active, as long as `m_read_idx` stays at most
    `READ_BUFFER_SIZE`. -/
def step (p : Parsing) : Action → Option Parsing
  | .append o bytes =>
    if p.control.idle ∧ o ≤ p.job.readIdx ∧ p.job.readIdx + bytes.length ≤ readBufferSize then
      some { p with
        job := { p.job with
          readBuf := p.job.readBuf.copy o bytes
          readIdx := p.job.readIdx + bytes.length } }
    else none
  | .call => if p.control.idle then some { p with control := .condition .lineOk } else none
  | .go =>
    match p.control with
    | .condition lineStatus => some (p.evalCondition lineStatus)
    | .body => some p.evalBody
    | _ => none
  | .doRequest fs =>
    if p.control = .doRequest then
      some { p with job := (p.job.doRequest fs).2, control := .returned (p.job.doRequest fs).1 }
    else none

variable {p p' p'' : Parsing}

/-! ## The steps of a call -/

/-- Some evaluations lead from `p` to `p'`, and change the buffer by the stores they
    record. -/
structure Goes (p p' : Parsing) : Prop where
  exec : ∃ n, Transition.exec step p (List.replicate n .go) = some p'
  stores : ∃ is, p'.stores = p.stores ++ is ∧ p'.job.readBuf = CJob.storeAll p.job.readBuf is

theorem Goes.refl (p : Parsing) : Goes p p :=
  ⟨⟨0, rfl⟩, [], (List.append_nil _).symm, rfl⟩

theorem Goes.trans (h : Goes p p') (h' : Goes p' p'') : Goes p p'' := by
  obtain ⟨⟨n, hn⟩, is, his, hbuf⟩ := h
  obtain ⟨⟨m, hm⟩, js, hjs, hbuf'⟩ := h'
  refine ⟨⟨n + m, ?_⟩, is ++ js, ?_, ?_⟩
  · rw [List.replicate_add, exec_append, hn]
    exact hm
  · rw [hjs, his, List.append_assoc]
  · rw [hbuf', hbuf, CJob.storeAll, CJob.storeAll, CJob.storeAll, List.foldl_append]

theorem goes_condition {s : LineStatus} (h : p.control = .condition s) :
    Goes p (p.evalCondition s) := by
  refine ⟨⟨1, ?_⟩, _, rfl, CJob.readBuf_loopCondition s p.job⟩
  simp [Transition.exec, step, h]

theorem goes_body (h : p.control = .body) : Goes p p.evalBody := by
  refine ⟨⟨1, ?_⟩, _, rfl, CJob.readBuf_loopBody p.job⟩
  simp [Transition.exec, step, h]

/-- The steps of an iteration. -/
theorem exists_goes_iter {s : LineStatus} (h : p.control = .condition s) :
    ∃ p', Goes p p' ∧ p'.job = (p.job.processReadIter s).2 ∧
      p'.control = .ofFlow (p.job.processReadIter s).1 := by
  have hgo := goes_condition h
  rcases hc : p.job.loopCondition s with ⟨status, j⟩
  by_cases hok : status = .lineOk
  · -- the body follows
    subst hok
    have hbody : (p.evalCondition s).control = .body := by rw [evalCondition, hc, if_pos rfl]
    refine ⟨_, hgo.trans (goes_body hbody), ?_, ?_⟩
    · rw [evalBody, evalCondition, CJob.processReadIter, hc]
    · rw [evalBody, evalCondition, CJob.processReadIter, hc]
  · refine ⟨_, hgo, ?_, ?_⟩
    · rw [evalCondition, CJob.processReadIter, hc]
      cases status <;> simp_all
    · rw [evalCondition, CJob.processReadIter, hc, if_neg hok]
      cases status <;> simp_all [Control.ofFlow, Control.ofExit]

/-- The steps of the loop. -/
theorem exists_goes_loop {s : LineStatus} (h : p.control = .condition s) :
    ∃ p', Goes p p' ∧ p'.job = (CJob.processReadLoop s p.job).2 ∧
      p'.control = .ofExit (CJob.processReadLoop s p.job).1 := by
  obtain ⟨j, hj⟩ : ∃ j, p.job = j := ⟨_, rfl⟩
  rw [hj]
  induction s, j using CJob.processReadLoop.induct generalizing p with
  | case1 s j e j' hiter =>
    obtain ⟨p', hgo, hjob, hcontrol⟩ := exists_goes_iter h
    rw [hj, hiter] at hjob hcontrol
    rw [CJob.processReadLoop_leave hiter]
    exact ⟨p', hgo, hjob, hcontrol⟩
  | case2 s j s' j' hiter ih =>
    obtain ⟨p', hgo, hjob, hcontrol⟩ := exists_goes_iter h
    rw [hj, hiter] at hjob hcontrol
    obtain ⟨p'', hgo', hjob', hcontrol'⟩ := ih hcontrol hjob
    rw [CJob.processReadLoop_next hiter]
    exact ⟨p'', hgo.trans hgo', hjob', hcontrol'⟩

/-- The steps of a call of `process_read`. -/
theorem exec_processRead (fs : FileSystem) (h : p.control.idle) :
    ∃ n rest p', (rest = [] ∨ rest = [.doRequest fs]) ∧
      exec step p (.call :: List.replicate n .go ++ rest) = some p' ∧
      p'.control = .returned (p.job.processRead fs).1 ∧ p'.job = (p.job.processRead fs).2 ∧
      ∃ is, p'.stores = p.stores ++ is ∧ p'.job.readBuf = CJob.storeAll p.job.readBuf is := by
  have hcall : step p .call = some { p with control := .condition .lineOk } := by
    rw [step, if_pos h]
  obtain ⟨p', ⟨⟨n, hn⟩, is, his, hbuf⟩, hjob, hcontrol⟩ :=
    exists_goes_loop (p := { p with control := .condition .lineOk }) rfl
  have hrun : exec step p (.call :: List.replicate n .go) = some p' := by
    rw [exec, hcall, Option.bind_some, hn]
  rcases hloop : CJob.processReadLoop .lineOk p.job with ⟨e, j⟩
  rw [hloop] at hjob hcontrol
  cases e with
  | ret code =>
    refine ⟨n, [], p', .inl rfl, by rw [List.append_nil, hrun], ?_, ?_, is, his, hbuf⟩
    · rw [CJob.processRead, hloop, hcontrol]
      rfl
    · rw [CJob.processRead, hloop, hjob]
  | doRequest =>
    -- `do_request` is called as the last thing
    refine ⟨n, [.doRequest fs],
      { p' with job := (j.doRequest fs).2, control := .returned (j.doRequest fs).1 }, .inr rfl, ?_, ?_,
      ?_, is, his, ?_⟩
    · rw [exec_append, hrun, Option.bind_some, exec, step, hcontrol, hjob]
      rfl
    · rw [CJob.processRead, hloop]
    · rw [CJob.processRead, hloop]
    · rw [← hbuf, hjob]
      exact (CJob.doRequest_frame fs j).1

/-! ## The invariant -/

/-- Every store is in the buffer, and no sum overflows. -/
def Inside (p : Parsing) : Prop :=
  (∀ i ∈ p.stores, 0 ≤ i ∧ i < readBufferSize) ∧ ∀ n ∈ p.sums, IsInt32 n

/-- A step in which `parse_content` is called finds a body that can be ended in the buffer. -/
def BodyFits (p : Parsing) (a : Action) : Prop :=
  a = .go → p.control = .body → p.job.checkState = .content → p.job.BodyFits

/-- What holds between the steps. -/
structure Inv (p : Parsing) : Prop where
  inside : p.Inside
  cursors : p.job.Cursors
  length : IsInt32 p.job.contentLength
  /-- A line that is to be parsed ends in a NUL. -/
  line : p.control = .body → p.job.checkState ≠ .content →
    p.job.startLine < p.job.checkedIdx ∧ p.job.readBuf.get (p.job.checkedIdx - 1) = 0

theorem inv_start (memory : CJob) : (start memory).Inv where
  inside := ⟨by simp [start], by simp [start]⟩
  cursors := ⟨le_rfl, le_rfl, Nat.zero_le _⟩
  length := by
    change IsInt32 0
    rw [IsInt32]
    decide
  line h := by cases h

theorem Control.ofFlow_ne_body (f : CJob.ReadFlow) : Control.ofFlow f ≠ .body := by
  rcases f with (code | -) | s
  · simp [Control.ofFlow, Control.ofExit]
  · simp [Control.ofFlow, Control.ofExit]
  · simp [Control.ofFlow]

theorem Inside.append (h : p.Inside) {is ns : List Int} (his : ∀ i ∈ is, 0 ≤ i ∧ i < readBufferSize)
    (hns : ∀ n ∈ ns, IsInt32 n) {j : CJob} {c : Control} :
    Inside ⟨j, c, p.stores ++ is, p.sums ++ ns⟩ :=
  ⟨List.forall_mem_append.2 ⟨h.1, his⟩, List.forall_mem_append.2 ⟨h.2, hns⟩⟩

/-- The stores of `parse_line` are in the buffer. -/
theorem Inv.forall_conditionStores (h : p.Inv) (s : LineStatus) :
    ∀ i ∈ p.job.conditionStores s, 0 ≤ i ∧ i < readBufferSize := by
  rw [CJob.conditionStores]
  split_ifs
  · simp
  · intro i hi
    obtain ⟨k, hk, rfl⟩ := List.mem_map.1 hi
    have hlt := CJob.lt_of_mem_parseLineStores (Nat.add_sub_of_le h.cursors.checked_le).le hk
    have hsize := h.cursors.read_le
    omega

theorem Inv.evalCondition (h : p.Inv) (s : LineStatus) : (p.evalCondition s).Inv := by
  refine ⟨⟨List.forall_mem_append.2 ⟨h.inside.1, h.forall_conditionStores s⟩, h.inside.2⟩,
    h.cursors.loopCondition s, ?_, ?_⟩
  · simp only [Parsing.evalCondition, CJob.loopCondition]
    split_ifs
    · exact h.length
    · exact h.cursors.lineRead.contentLength.symm ▸ h.length
  · intro hc hne
    simp only [Parsing.evalCondition] at hc
    split_ifs at hc with hok
    exact h.cursors.loopCondition_line hok hne

/-- What the body stores and sums, and when it is inside. -/
theorem Inv.forall_bodyStores_iff (h : p.Inv) (hc : p.control = .body) :
    ((∀ i ∈ p.job.bodyStores, 0 ≤ i ∧ i < readBufferSize) ∧ ∀ n ∈ p.job.bodySums, IsInt32 n) ↔
      (p.job.checkState = .content → p.job.BodyFits) := by
  rw [CJob.bodyStores, CJob.bodySums]
  cases hs : p.job.checkState with
  | requestLine =>
    -- the stores are in the line, which is at most `m_checked_idx` long
    refine iff_of_true ⟨fun i hi => ?_, by simp⟩ (by simp)
    obtain ⟨hlt, hnul⟩ := h.line hc (by simp [hs])
    obtain ⟨k, hk, rfl⟩ := List.mem_map.1 hi
    have hkz := CJob.lt_of_mem_parseRequestLineStores (Nat.le_sub_one_of_lt hlt) hnul hk
    have hsize := h.cursors.checked_le.trans h.cursors.read_le
    omega
  | header => exact iff_of_true ⟨by simp, by simp⟩ (by simp)
  | content =>
    have hiff := h.cursors.parseContent_inside_iff h.length
    simp only [List.forall_mem_singleton]
    exact hiff.trans ⟨fun hf _ => hf, fun hf => hf trivial⟩

theorem Inv.evalBody (h : p.Inv) (hc : p.control = .body)
    (hfits : p.job.checkState = .content → p.job.BodyFits) : p.evalBody.Inv := by
  obtain ⟨his, hns⟩ := (h.forall_bodyStores_iff hc).2 hfits
  exact ⟨h.inside.append his hns, h.cursors.loopBody, CJob.loopBody_contentLength h.length,
    fun hbody => absurd hbody (Control.ofFlow_ne_body _)⟩

/-- A step that finds no body, or one that can be ended in the buffer, keeps the
    invariant. -/
theorem Inv.step {a : Action} (h : p.Inv) (hfits : p.BodyFits a) (hs : p.step a = some p') :
    p'.Inv := by
  cases a with
  | append o bytes =>
    obtain ⟨⟨hidle, -, hroom⟩, he⟩ := Option.ite_none_right_eq_some.1 hs
    cases he
    -- only `m_read_idx` moves
    refine ⟨h.inside, ⟨h.cursors.start_le, h.cursors.checked_le.trans (Nat.le_add_right _ _), hroom⟩,
      h.length, fun hbody => ?_⟩
    simp only at hbody
    rw [hbody] at hidle
    cases hidle
  | call =>
    obtain ⟨-, he⟩ := Option.ite_none_right_eq_some.1 hs
    cases he
    exact ⟨h.inside, h.cursors, h.length, fun hbody => (by cases hbody)⟩
  | go =>
    cases hc : p.control with
    | condition s =>
      simp only [Parsing.step, hc] at hs
      cases hs
      exact h.evalCondition s
    | body =>
      simp only [Parsing.step, hc] at hs
      cases hs
      exact h.evalBody hc (hfits rfl hc)
    | returned ret => simp [Parsing.step, hc] at hs
    | doRequest => simp [Parsing.step, hc] at hs
  | doRequest fs =>
    obtain ⟨-, he⟩ := Option.ite_none_right_eq_some.1 hs
    cases he
    have hlen := (CJob.doRequest_frame fs p.job).2.2.2.2
    exact ⟨h.inside, h.cursors.doRequest fs, hlen.symm ▸ h.length, fun hbody => (by cases hbody)⟩

/-- A step that finds another body leaves the buffer, or overflows. -/
theorem Inv.outside {a : Action} (h : p.Inv) (hfits : ¬p.BodyFits a) (hs : p.step a = some p') :
    ¬p'.Inside := by
  rw [BodyFits] at hfits
  push Not at hfits
  obtain ⟨rfl, hc, hst, hbody⟩ := hfits
  simp only [Parsing.step, hc] at hs
  cases hs
  intro hin
  refine hbody ((h.forall_bodyStores_iff hc).1 ⟨fun i hi => ?_, fun n hn => ?_⟩ hst)
  · exact hin.1 i (List.mem_append_right _ hi)
  · exact hin.2 n (List.mem_append_right _ hn)

/-- In a run of the parser, every store is in the buffer and no sum overflows, in every
    state, if and only if every body that `parse_content` is called for can be ended in
    the buffer. -/
theorem inside_iff (memory : CJob) (as : List Action) :
    Along step BodyFits (start memory) as ↔ Throughout step Inside (start memory) as :=
  along_iff_throughout (fun _ _ _ => Inv.step) (fun _ h => h.inside) (fun _ _ _ => Inv.outside)
    (inv_start memory)

/-- A request whose length is negative, received by a read event. -/
def negativeLength : List Action :=
  .append 0 (ascii "POST / HTTP/1.1\r\nContent-Length:-99\r\n\r\n") :: .call :: List.replicate 8 .go

/-- `parse_content` stores before the start of the buffer. -/
theorem not_inside : ¬∀ memory as, Throughout step Inside (start memory) as := by
  intro h
  have hrun : ((exec step (start default) negativeLength).map (·.stores)) =
      some [15, 16, 4, 6, 35, 36, 37, 38, -60] := by
    decide +kernel
  obtain ⟨p, hp, hstores⟩ := Option.map_eq_some_iff.1 hrun
  have := ((h default negativeLength).of_exec hp).1 (-60) (by simp [hstores])
  omega

end Parsing

end VsHttpServer
