import VsHttpServer.Job.Resume

/-!
# Requests that can still be completed

What `NO_REQUEST` says of the bytes received: whether more bytes can make an answer
of them. `parse_line` tells a CR or LF that is not part of a CRLF from the end of the
bytes (`LINE_BAD`), but the loop of `process_read` ends in the same way for both.

* `reference_append`: a whole head is not changed by what comes after it;
* `IsOpen.exists_reference`: an open line can be ended, and the head with it;
* `exists_answer`: after a whole head, enough bytes make an answer;
* `Stuck`: after the whole lines, there is a CR or LF that ends no line; no more
  bytes make an answer;
* `completable_iff`: every other unfinished request can be completed.
-/

namespace VsHttpServer

open CString Crlf

namespace CJob

variable {N : Nat} {B p : List UInt8}

/-! ## The reference parser and more bytes -/

theorem headLength_append {ls : List (List UInt8)} (h : [] ∈ ls.map cstr) (ks : List (List UInt8)) :
    headLength (ls ++ ks) = headLength ls := by
  induction ls with
  | nil => cases h
  | cons x ls ih =>
    rw [List.cons_append, headLength, headLength]
    split_ifs with hx
    · rfl
    · rw [List.map_cons, List.mem_cons] at h
      rw [ih (h.resolve_left (Ne.symm hx))]

theorem takeWhile_append_of_mem {ts : List (List UInt8)} (h : [] ∈ ts) (us : List (List UInt8)) :
    (ts ++ us).takeWhile (· ≠ []) = ts.takeWhile (· ≠ []) := by
  induction ts with
  | nil => cases h
  | cons t ts ih =>
    by_cases ht : t = []
    · simp [ht]
    · rw [List.mem_cons] at h
      simpa [ht] using ih (h.resolve_left (Ne.symm ht))

theorem reference_append {r : RequestLine} {ts : List (List UInt8)}
    (h : reference B = .head r ts) (s : List UInt8) :
    reference (B ++ s) = .head r ts ∧ headEnd (B ++ s) = headEnd B := by
  rw [reference] at h ⊢
  rw [headEnd, headEnd, cutLines_append]
  cases hl : cutLines B with
  | nil => simp [hl] at h
  | cons x ls =>
    simp only [hl, List.map_cons] at h
    split_ifs at h with hbad hmem
    have hmem' : [] ∈ (ls ++ cutLines (remainder B ++ s)).map cstr := by
      rw [List.map_append]
      exact List.mem_append_left _ hmem
    refine ⟨?_, ?_⟩
    · simp only [List.cons_append, List.map_cons, if_neg hbad, if_pos hmem']
      rw [List.map_append, takeWhile_append_of_mem hmem]
      exact h
    · simp only [List.cons_append, headLength_append hmem]

/-- An open line after the whole ones: with its end, and an empty line, there is a head,
    or a request line that is not accepted. -/
theorem exists_reference (h : IsOpen (remainder B)) :
    ∃ s, reference (B ++ s) ≠ .noRequest := by
  obtain ⟨x, s, hx, hs⟩ := h.exists_terminated
  refine ⟨s ++ terminated [], ?_⟩
  have hblank : cutLines (terminated []) = [[]] :=
    (cutLines_of_some (cutLine_crlf [])).trans (by rw [cutLines_of_none rfl])
  have hlines : cutLines (B ++ (s ++ terminated [])) = cutLines B ++ [x, []] := by
    rw [cutLines_append, ← List.append_assoc, hs, cutLines_of_some (cutLine_terminated hx _), hblank]
  rw [reference, hlines, List.map_append]
  -- the empty line is not the first
  cases cutLines B with
  | nil =>
    simp only [List.map_nil, List.nil_append, List.map_cons, cstr_nil]
    split_ifs with hbad hmem
    · simp
    · simp
    · exact absurd (List.mem_singleton_self _) hmem
  | cons y ls =>
    simp only [List.map_cons, List.cons_append, cstr_nil]
    split_ifs with hbad hmem
    · simp
    · simp
    · exact absurd (List.mem_append_right _ (by simp)) hmem

/-! ## Whole heads -/

/-- A whole head, and as many bytes as its header declares. -/
theorem processRead_of_head (fs : FileSystem) (j : CJob N) {r : RequestLine} {ts : List (List UInt8)}
    (hB : B.length ≤ N) (hr : reference B = .head r ts)
    (hlen : toInt32 (declaredLength ts + headEnd B) ≤ B.length) :
    (processRead fs (j.holding B)).1 ≠ .noRequest := by
  have hread := j.reference_read hB
  rw [hr] at hread
  obtain ⟨j', h⟩ := hread
  have hidx : j'.readIdx = B.length := by
    rw [h.passed.readIdx]
    simp [holding, append, init]
  have hdone : ∃ k, processReadLoop .lineOk (j.holding B) = (.doRequest, k) := by
    by_cases hb : j'.BodyLess
    · exact ⟨j', (h.answer hb).2⟩
    · obtain ⟨hst, hsteps⟩ := h.await hb
      -- `parse_content` is given the whole body at once
      have hiter : j'.processReadIter .lineOk = (.leave .doRequest, j'.nextLine.terminate j'.startLine) := by
        rw [processReadIter, loopCondition, if_pos ⟨hst, rfl⟩]
        simp only
        rw [loopBody_content hst, if_pos]
        rwa [h.recorded.contentLength, h.passed.checkedIdx, h.startLine, hidx]
      exact ⟨_, hsteps.processReadLoop_eq.trans (processReadLoop_leave hiter)⟩
  obtain ⟨k, hk⟩ := hdone
  rw [processRead, hk]
  exact doRequest_ne_noRequest fs k

/-- Whatever the size of the buffer, if it is large enough, and whatever was in it,
    `process_read` on a fresh job that holds `B` returns something else than
    `NO_REQUEST`. -/
def Answered (fs : FileSystem) (B : List UInt8) : Prop :=
  ∀ (N : Nat) (j : CJob N), B.length ≤ N → (processRead fs (j.holding B)).1 ≠ .noRequest

/-- Some more bytes make an answer of `p`. -/
def Completable (fs : FileSystem) (p : List UInt8) : Prop := ∃ s, Answered fs (p ++ s)

/-- A line that is not accepted is an answer, and so is a head with its body. -/
theorem exists_answer (fs : FileSystem) (h : reference p ≠ .noRequest) : Completable fs p := by
  cases hr : reference p with
  | noRequest => exact absurd hr h
  | badRequest =>
    refine ⟨[], fun N j hB => ?_⟩
    rw [List.append_nil] at hB ⊢
    have hread := j.reference_read hB
    rw [hr] at hread
    obtain ⟨j', hloop, -⟩ := hread
    rw [processRead, hloop]
    simp
  | head r ts =>
    -- the bytes of the body that are missing
    obtain ⟨n, hn⟩ : ∃ n : Nat, toInt32 (declaredLength ts + headEnd p) ≤ (p.length + n : Nat) :=
      ⟨(toInt32 (declaredLength ts + headEnd p)).toNat, by omega⟩
    refine ⟨List.replicate n 0, fun N j hB => ?_⟩
    obtain ⟨href, hend⟩ := reference_append hr (List.replicate n 0)
    refine processRead_of_head fs j hB href ?_
    rwa [hend, List.length_append, List.length_replicate]

/-- There is no empty line after the first line, and what comes after the whole lines has
    a CR or an LF that is not part of a CRLF, nor the start of one. -/
def Stuck (p : List UInt8) : Prop := [] ∉ ((cutLines p).map cstr).tail ∧ ¬IsOpen (remainder p)

/-- Nothing comes after what `parse_line` stops at. -/
theorem Stuck.reference_append (h : Stuck p) (hno : reference p ≠ .badRequest) (s : List UInt8) :
    reference (p ++ s) = .noRequest := by
  have hlines : cutLines (p ++ s) = cutLines p := by
    rw [cutLines_append, cutLines_of_none (cutLine_append_of_not_isOpen (cutLine_remainder p) h.2 s),
      List.append_nil]
  have hmem := h.1
  rw [reference] at hno ⊢
  rw [hlines]
  cases hl : (cutLines p).map cstr with
  | nil => rfl
  | cons t ts =>
    rw [hl, List.tail_cons] at hmem
    simp only [hl, if_neg hmem] at hno ⊢
    split_ifs at hno ⊢ with hbad
    · exact absurd rfl hno
    · rfl

theorem processRead_of_reference (fs : FileSystem) (j : CJob N) (hB : B.length ≤ N)
    (h : reference B = .noRequest) : (processRead fs (j.holding B)).1 = .noRequest :=
  (unfinished_of_reference fs j hB h).1

/-- A request whose head has a CR or an LF that is not part of a CRLF waits for ever. -/
theorem Stuck.processRead (h : Stuck p) {fs : FileSystem} {j : CJob N} (hp : p.length ≤ N)
    (hno : (CJob.processRead fs (j.holding p)).1 = .noRequest) {M : Nat} (k : CJob M) {s : List UInt8}
    (hs : (p ++ s).length ≤ M) : (CJob.processRead fs (k.holding (p ++ s))).1 = .noRequest := by
  refine processRead_of_reference fs k hs (h.reference_append (fun hbad => ?_) s)
  have hread := j.reference_read hp
  rw [hbad] at hread
  obtain ⟨j', hloop, -⟩ := hread
  rw [CJob.processRead, hloop] at hno
  cases hno

theorem Stuck.not_completable (h : Stuck p) {fs : FileSystem} {j : CJob N} (hp : p.length ≤ N)
    (hno : (CJob.processRead fs (j.holding p)).1 = .noRequest) : ¬Completable fs p := by
  rintro ⟨s, hs⟩
  exact hs _ (default : CJob (p ++ s).length) le_rfl (h.processRead hp hno default le_rfl)

/-- Bytes that are not stuck can be completed. -/
theorem exists_answer_of_not_stuck (fs : FileSystem) (h : ¬Stuck p) : Completable fs p := by
  by_cases href : reference p = .noRequest
  · -- the head is not whole: it goes on in an open line
    have hopen : IsOpen (remainder p) := by
      by_contra hopen
      refine h ⟨fun hmem => ?_, hopen⟩
      rw [reference] at href
      cases hl : (cutLines p).map cstr with
      | nil =>
        rw [hl] at hmem
        cases hmem
      | cons t ts =>
        rw [hl, List.tail_cons] at hmem
        simp only [hl, if_pos hmem] at href
        split_ifs at href
    obtain ⟨s, hs⟩ := exists_reference hopen
    obtain ⟨s', hs'⟩ := exists_answer fs hs
    exact ⟨s ++ s', by rwa [← List.append_assoc]⟩
  · exact exists_answer fs href

/-- When `process_read` on a fresh job returns `NO_REQUEST`, the bytes can be completed
    if and only if the head has no CR or LF outside a CRLF; if it has one, every
    continuation leaves the request waiting. -/
theorem completable_iff (fs : FileSystem) (j : CJob N) (hp : p.length ≤ N)
    (hno : (processRead fs (j.holding p)).1 = .noRequest) :
    (Completable fs p ↔ ¬Stuck p) ∧
      (Stuck p → ∀ (s : List UInt8) (M : Nat) (k : CJob M), (p ++ s).length ≤ M →
        (processRead fs (k.holding (p ++ s))).1 = .noRequest) :=
  ⟨⟨fun hc hstuck => hstuck.not_completable hp hno hc, exists_answer_of_not_stuck fs⟩,
    fun hstuck _ _ k hs => hstuck.processRead hp hno k hs⟩

/-- The start of a request line. -/
theorem completable_iff_get : Completable default (ascii "GET /a") := by
  have hcut : cutLines (ascii "GET /a") = [] := cutLines_of_none (by decide)
  have hno : (processRead default ((default : CJob).holding (ascii "GET /a"))).1 = .noRequest :=
    processRead_of_reference default default (by decide) (by rw [reference, hcut]; rfl)
  refine (completable_iff default default (by decide) hno).1.2 fun hstuck => hstuck.2 (.inl ?_)
  rw [remainder, hcut]
  decide

/-- A bare LF after the request line. -/
theorem not_completable :
    (processRead default ((default : CJob).holding (ascii "GET / HTTP/1.1\n"))).1 = .noRequest ∧
      ¬Completable default (ascii "GET / HTTP/1.1\n") := by
  have hcut : cutLines (ascii "GET / HTTP/1.1\n") = [] := cutLines_of_none (by decide)
  have hno : (processRead default ((default : CJob).holding (ascii "GET / HTTP/1.1\n"))).1 = .noRequest :=
    processRead_of_reference default default (by decide) (by rw [reference, hcut]; rfl)
  have hstuck : Stuck (ascii "GET / HTTP/1.1\n") := by
    refine ⟨by rw [hcut]; simp, ?_⟩
    rw [remainder, hcut]
    intro hopen
    exact (hopen.append_cons (y := ascii "GET / HTTP/1.1") (b := lf) (r := [])).1 rfl
  exact ⟨hno, hstuck.not_completable (by decide) hno⟩

end CJob

end VsHttpServer
