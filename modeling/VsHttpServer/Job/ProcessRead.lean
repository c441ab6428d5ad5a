import VsHttpServer.Job.Line
import VsHttpServer.Job.Text

/-!
# `process_read`

The loop of `process_read`, and the equations its proofs use.

* `processReadIter_next`: an iteration that goes on consumes bytes, or, for a
  body in `CHECK_STATE_CONTENT`, makes the next one call `parse_line`: the loop
  ends (`processReadLoop`);
* `loopBody_requestLine`, `loopBody_header`, `loopBody_content`: the body of the
  loop as a function of the text of the line;
* `processReadLoop_inv`: what `parse_line` and the body keep, the loop keeps;
* `Steps`: the states the loop goes through.
-/

namespace VsHttpServer

open CString Crlf

namespace CJob

variable {N : Nat}

/-! ## The body of the loop -/

/-- The empty line ends the request: it has no body. -/
def BodyLess (j : CJob N) : Prop := j.method = .get ∨ j.method = .head ∨ j.contentLength = 0

instance (j : CJob N) : Decidable j.BodyLess := inferInstanceAs (Decidable (_ ∨ _ ∨ _))

@[simp] theorem nextLine_readBuf (j : CJob N) : j.nextLine.readBuf = j.readBuf := rfl
@[simp] theorem nextLine_readIdx (j : CJob N) : j.nextLine.readIdx = j.readIdx := rfl
@[simp] theorem nextLine_checkedIdx (j : CJob N) : j.nextLine.checkedIdx = j.checkedIdx := rfl
@[simp] theorem nextLine_checkState (j : CJob N) : j.nextLine.checkState = j.checkState := rfl
@[simp] theorem nextLine_contentLength (j : CJob N) :
    j.nextLine.contentLength = j.contentLength := rfl

theorem loopBody_requestLine {j : CJob N} {t : List UInt8} (hs : j.checkState = .requestLine)
    (ht : j.readBuf.str j.startLine = t) :
    j.loopBody =
      (if (requestLine t).code = .badRequest then .leave (.ret .badRequest) else .next .lineOk,
        j.nextLine.applyRequestLine j.startLine (requestLine t)) := by
  have hp := parseRequestLine_eq j.nextLine j.startLine
  rw [nextLine_readBuf, ht] at hp
  rw [loopBody, nextLine_checkState, hs, hp]
  cases (requestLine t).code <;> rfl

/-- The empty line: the request is answered, or its body is awaited. -/
theorem loopBody_blank {j : CJob N} (hs : j.checkState = .header)
    (ht : j.readBuf.str j.startLine = []) :
    j.loopBody =
      if j.BodyLess then (.leave .doRequest, j.nextLine)
      else (.next .lineOk, { j.nextLine with checkState := .content }) := by
  have hp := parseHeaders_eq j.nextLine j.startLine
  rw [nextLine_readBuf, ht] at hp
  rw [loopBody, nextLine_checkState, hs, hp]
  simp only [headerLine, if_true, applyHeader]
  by_cases hg : j.nextLine.method = .get
  · rw [if_pos hg, if_pos (.inl hg)]
  by_cases hh : j.nextLine.method = .head
  · rw [if_neg hg, if_pos hh, if_pos (.inr (.inl hh))]
  by_cases hc : j.nextLine.contentLength = 0
  · rw [if_neg hg, if_neg hh, if_neg (not_not.2 hc), if_pos (.inr (.inr hc))]
  · have hb : ¬j.BodyLess := not_or.2 ⟨hg, not_or.2 ⟨hh, hc⟩⟩
    rw [if_neg hg, if_neg hh, if_pos hc, if_neg hb]

/-- A header line: it is only recorded. -/
theorem loopBody_header {j : CJob N} {t : List UInt8} (hs : j.checkState = .header)
    (ht : j.readBuf.str j.startLine = t) (hne : t ≠ []) :
    j.loopBody = (.next .lineOk, (j.nextLine.applyHeader j.startLine (headerLine t)).2) := by
  have hp := parseHeaders_eq j.nextLine j.startLine
  rw [nextLine_readBuf, ht] at hp
  have hb := headerLine_ne_blank hne
  rw [loopBody, nextLine_checkState, hs, hp]
  cases hh : headerLine t with
  | blank => exact absurd hh hb
  | connection k => cases k <;> rfl
  | _ => rfl

theorem loopBody_content {j : CJob N} (hs : j.checkState = .content) :
    j.loopBody =
      if toInt32 (j.contentLength + j.checkedIdx) ≤ j.readIdx then
        (.leave .doRequest, j.nextLine.terminate j.startLine)
      else (.next .lineOpen, j.nextLine) := by
  rw [loopBody, nextLine_checkState, hs, parseContent, nextLine_contentLength, nextLine_checkedIdx,
    nextLine_readIdx]
  by_cases hc : toInt32 (j.contentLength + j.checkedIdx) ≤ j.readIdx
  · rw [if_pos hc, if_pos hc]
  · rw [if_neg hc, if_neg hc]

/-- What the body of the loop leaves is what the parser of the state leaves. -/
theorem loopBody_snd (j : CJob N) :
    j.loopBody.2 = match j.checkState with
      | .requestLine => (j.nextLine.parseRequestLine j.startLine).2
      | .header => (j.nextLine.parseHeaders j.startLine).2
      | .content => (j.nextLine.parseContent j.startLine).2 := by
  rw [loopBody, nextLine_checkState]
  cases hs : j.checkState with
  | requestLine =>
    simp only
    rcases hp : j.nextLine.parseRequestLine j.startLine with ⟨code, k⟩
    cases code <;> rfl
  | header =>
    simp only
    rcases hp : j.nextLine.parseHeaders j.startLine with ⟨code, k⟩
    cases code <;> rfl
  | content =>
    simp only
    rcases hp : j.nextLine.parseContent j.startLine with ⟨code, k⟩
    cases code <;> rfl

/-- The body of the loop starts the next line, and leaves the cursors of the reader. -/
theorem loopBody_cursors (j : CJob N) :
    j.loopBody.2.readIdx = j.readIdx ∧ j.loopBody.2.checkedIdx = j.checkedIdx ∧
      j.loopBody.2.startLine = j.checkedIdx := by
  rw [loopBody_snd]
  cases j.checkState with
  | requestLine =>
    simp only
    rw [parseRequestLine_eq]
    exact ⟨rfl, rfl, rfl⟩
  | header =>
    simp only
    rw [parseHeaders_eq]
    exact (applyHeader_frame j.nextLine j.startLine _).2
  | content =>
    simp only [parseContent, terminate]
    split_ifs <;> exact ⟨rfl, rfl, rfl⟩

/-- What a body that goes on leaves: the same cursors of the reader, and, in
    `CHECK_STATE_CONTENT`, a `line_status` that has the next iteration call
    `parse_line`. -/
theorem loopBody_next {j j' : CJob N} {s : LineStatus} (h : j.loopBody = (.next s, j')) :
    j'.readIdx = j.readIdx ∧ j'.checkedIdx = j.checkedIdx ∧
      (j.checkState = .content → s = .lineOpen) := by
  obtain ⟨hr, hc, -⟩ := j.loopBody_cursors
  rw [h] at hr hc
  refine ⟨hr, hc, fun hs => ?_⟩
  rw [loopBody_content hs] at h
  split_ifs at h
  · cases congrArg Prod.fst h
  · cases h
    rfl

/-! ## The loop -/

/-- A line found by `parse_line` is at least one byte. -/
theorem parseLineLoop_lineOk {n : Nat} {j : CJob N} (h : (parseLineLoop n j).1 = .lineOk) :
    (parseLineLoop n j).2.readIdx = j.readIdx ∧ 0 < n ∧
      j.checkedIdx < (parseLineLoop n j).2.checkedIdx := by
  induction n generalizing j with
  | zero => cases h
  | succ n ih =>
    simp only [parseLineLoop] at h ⊢
    split_ifs at h ⊢
    · exact ⟨rfl, Nat.succ_pos n, by simp⟩
    · exact ⟨rfl, Nat.succ_pos n, by simp⟩
    · obtain ⟨hr, -, hc⟩ := ih h
      exact ⟨hr, Nat.succ_pos n, (Nat.lt_succ_self _).trans hc⟩

/-- What the loop has left to do: bytes, or a body to look at once more. -/
def loopMeasure (s : LineStatus) (j : CJob N) : Nat :=
  2 * (j.readIdx - j.checkedIdx) + if j.checkState = .content ∧ s = .lineOk then 1 else 0

/-- An iteration that goes on consumes bytes, or turns to `parse_line`. -/
theorem processReadIter_next {s s' : LineStatus} {j j' : CJob N}
    (h : j.processReadIter s = (.next s', j')) : loopMeasure s' j' < loopMeasure s j := by
  rw [processReadIter, loopCondition] at h
  by_cases hb : j.checkState = .content ∧ s = .lineOk
  · -- a body that is awaited: `parse_content` makes the next iteration call `parse_line`
    rw [if_pos hb] at h
    obtain ⟨hr, hc, hopen⟩ := loopBody_next h
    rw [loopMeasure, loopMeasure, hr, hc, hopen hb.1, if_pos hb]
    simp
  · rw [if_neg hb] at h
    rcases hp : j.parseLine with ⟨st, jl⟩
    rw [hp] at h
    cases st with
    | lineOk =>
      -- a line: `parse_line` has moved the cursor, and the body does not move it back
      obtain ⟨hr, hc, -⟩ := loopBody_next h
      have hl := parseLineLoop_lineOk (n := j.readIdx - j.checkedIdx) (j := j) (by rw [← parseLine, hp])
      rw [← parseLine, hp] at hl
      simp only at hl
      rw [loopMeasure, loopMeasure, hr, hc, if_neg hb]
      split_ifs <;> omega
    | _ => cases congrArg Prod.fst h

/-- The loop of `process_read`. -/
def processReadLoop (s : LineStatus) (j : CJob N) : ReadExit × CJob N :=
  match _h : j.processReadIter s with
  | (.leave e, j') => (e, j')
  | (.next s', j') => processReadLoop s' j'
termination_by loopMeasure s j
decreasing_by exact processReadIter_next _h

/-- `do_request` leaves the buffer and the cursors as they are. -/
theorem doRequest_frame (fs : FileSystem) (j : CJob N) :
    (j.doRequest fs).2.readBuf = j.readBuf ∧ (j.doRequest fs).2.readIdx = j.readIdx ∧
      (j.doRequest fs).2.checkedIdx = j.checkedIdx ∧ (j.doRequest fs).2.startLine = j.startLine ∧
      (j.doRequest fs).2.contentLength = j.contentLength := by
  rw [doRequest]
  split
  · exact ⟨rfl, rfl, rfl, rfl, rfl⟩
  · split_ifs <;> exact ⟨rfl, rfl, rfl, rfl, rfl⟩

/-- `CJob::process_read`. -/
def processRead (fs : FileSystem) (j : CJob N) : HttpCode × CJob N :=
  match processReadLoop .lineOk j with
  | (.ret code, j) => (code, j)
  | (.doRequest, j) => j.doRequest fs

theorem processReadLoop_leave {s : LineStatus} {j j' : CJob N} {e : ReadExit}
    (h : j.processReadIter s = (.leave e, j')) : processReadLoop s j = (e, j') := by
  rw [processReadLoop]
  split <;> simp_all

theorem processReadLoop_next {s s' : LineStatus} {j j' : CJob N}
    (h : j.processReadIter s = (.next s', j')) : processReadLoop s j = processReadLoop s' j' := by
  rw [processReadLoop]
  split <;> simp_all

/-- What `parse_line` and the body of the loop keep, an iteration keeps. -/
theorem processReadIter_inv {I : CJob N → Prop} (hline : ∀ j, I j → I j.parseLine.2)
    (hbody : ∀ j, I j → I j.loopBody.2) (s : LineStatus) {j : CJob N} (h : I j) :
    I (j.processReadIter s).2 := by
  have hcond : I (j.loopCondition s).2 := by
    rw [loopCondition]
    split_ifs
    · exact h
    · exact hline j h
  rw [processReadIter]
  rcases hc : j.loopCondition s with ⟨status, k⟩
  rw [hc] at hcond
  cases status with
  | lineOk => exact hbody k hcond
  | _ => exact hcond

/-- And so does the loop. -/
theorem processReadLoop_inv {I : CJob N → Prop} (hline : ∀ j, I j → I j.parseLine.2)
    (hbody : ∀ j, I j → I j.loopBody.2) (s : LineStatus) {j : CJob N} (h : I j) :
    I (processReadLoop s j).2 := by
  induction s, j using processReadLoop.induct with
  | case1 s j e j' hiter =>
    have hnext := processReadIter_inv hline hbody s h
    rw [hiter] at hnext
    rw [processReadLoop_leave hiter]
    exact hnext
  | case2 s j s' j' hiter ih =>
    have hnext := processReadIter_inv hline hbody s h
    rw [hiter] at hnext
    rw [processReadLoop_next hiter]
    exact ih hnext

/-- `Steps s j s' j'`: the loop, with `line_status` equal to `s` in the state `j`,
    comes to `s'` and `j'`. -/
inductive Steps : LineStatus → CJob N → LineStatus → CJob N → Prop
  | refl (s : LineStatus) (j : CJob N) : Steps s j s j
  | head {s s₁ s' : LineStatus} {j j₁ j' : CJob N} : j.processReadIter s = (.next s₁, j₁) →
      Steps s₁ j₁ s' j' → Steps s j s' j'

theorem Steps.processReadLoop_eq {s s' : LineStatus} {j j' : CJob N} (h : Steps s j s' j') :
    processReadLoop s j = processReadLoop s' j' := by
  induction h with
  | refl => rfl
  | head hi _ ih => rw [processReadLoop_next hi, ih]

/-! ## Iterations that begin with a line -/

/-- A line was found: the body works on it. -/
theorem processReadIter_of_cut {j : CJob N} {s : LineStatus} {x r : List UInt8}
    (hs : j.checkState ≠ .content) (h : j.LineCut x r) :
    j.processReadIter s = (j.cutAt (j.startLine + x.length)).loopBody := by
  rw [processReadIter, loopCondition, if_neg fun hc => hs hc.1, h.parseLine_eq]

/-- No line was found: the loop ends. -/
theorem processReadIter_of_ne {j j' : CJob N} {s st : LineStatus}
    (hs : ¬(j.checkState = .content ∧ s = .lineOk))
    (hp : j.parseLine = (st, j')) (hne : st ≠ .lineOk) :
    j.processReadIter s = (.leave (.ret .noRequest), j') := by
  rw [processReadIter, loopCondition, if_neg hs, hp]
  cases st with
  | lineOk => exact absurd rfl hne
  | _ => rfl

end CJob

end VsHttpServer
