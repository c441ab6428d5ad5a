import VsHttpServer.Job.Resume

/-!
# The body of a request

In `CHECK_STATE_CONTENT` the first iteration of `process_read` looks at how many
bytes there are (`parse_content`). When there are too few, it leaves
`line_status` at `LINE_OPEN`, and the condition of the loop calls `parse_line` on
the part of the body received so far, from `m_checked_idx` on: the cursor that
`parse_content` adds the declared length to.

The cursor stays where it is only if the line stops at its first byte (`Held`).
From then on the body is awaited with every byte of it unparsed (`Awaiting`).

* `Awaiting.complete`, `Awaiting.held`, `Awaiting.lost`: what a call does, by how
  much of the body there is and how it starts;
* `body_awaited`: the calls up to the last piece, by induction on the pieces;
* `bodyCompletes_iff`: the divisions of a body that are waited for as declared.
-/

namespace VsHttpServer

open CString Crlf

/-- `parse_line` stops at the first byte of `P`, and cuts no line there. -/
def Held : List UInt8 → Prop
  | [] => True
  | b :: P => b = lf ∨ b = cr ∧ P.head? ≠ some lf

instance : (P : List UInt8) → Decidable (Held P)
  | [] => inferInstanceAs (Decidable True)
  | b :: P => inferInstanceAs (Decidable (b = lf ∨ b = cr ∧ P.head? ≠ some lf))

namespace CJob

/-- `H` is the head of a request that is neither GET nor HEAD, and declares a body
    of `n` bytes that fits in the buffer after it. -/
structure BodyHead (H : List UInt8) (n : Nat) : Prop where
  head : ∃ r ts m code, reference H = .head r ts ∧ r.method = some (m, code) ∧ m ≠ .get ∧
    m ≠ .head ∧ declaredLength ts = n
  headEnd : headEnd H = H.length
  pos : 0 < n
  fits : H.length + n < readBufferSize

/-! ## `m_checked_idx` does not go back -/

theorem parseLineLoop_checkedIdx_le (n : Nat) (j : CJob) :
    j.checkedIdx ≤ (parseLineLoop n j).2.checkedIdx := by
  induction n generalizing j with
  | zero => exact le_rfl
  | succ n ih =>
    simp only [parseLineLoop]
    split_ifs
    · exact le_rfl
    · exact Nat.le_add_right _ 2
    · exact le_rfl
    · exact Nat.le_succ _
    · exact le_rfl
    · exact (Nat.le_succ _).trans (ih { j with checkedIdx := j.checkedIdx + 1 })

theorem processReadLoop_checkedIdx_le (s : LineStatus) (j : CJob) :
    j.checkedIdx ≤ (processReadLoop s j).2.checkedIdx :=
  processReadLoop_inv (I := fun k => j.checkedIdx ≤ k.checkedIdx)
    (fun k hk => hk.trans (parseLineLoop_checkedIdx_le _ k))
    (fun k hk => hk.trans k.loopBody_cursors.2.1.ge) s le_rfl

theorem processRead_checkedIdx (fs : FileSystem) (j : CJob) :
    (processRead fs j).2.checkedIdx = (processReadLoop .lineOk j).2.checkedIdx := by
  rw [processRead]
  rcases processReadLoop .lineOk j with ⟨code | -, j'⟩
  · rfl
  · exact (doRequest_frame fs j').2.2.1

/-! ## Awaiting a body -/

/-- After the head, of `h` bytes: `n` bytes of body are declared, and those
    received so far, `P`, are as they were sent. -/
structure Awaiting (j : CJob) (h n : Nat) (P : List UInt8) : Prop where
  checkState : j.checkState = .content
  contentLength : j.contentLength = n
  startLine : j.startLine = h
  checkedIdx : j.checkedIdx = h
  readIdx : j.readIdx = h + P.length
  atLine : j.AtLine
  unparsed : j.unparsed = P

variable {j : CJob} {h n : Nat} {P : List UInt8}

/-- The body received so far, in the buffer. -/
theorem Awaiting.body (ha : j.Awaiting h n P) : (j.readBuf.mem h).take P.length = P := by
  have hu := ha.unparsed
  rwa [CJob.unparsed, ha.startLine, ha.readIdx, Nat.add_sub_cancel_left] at hu

theorem Awaiting.get (ha : j.Awaiting h n P) {k : Nat} (hk : k < P.length) :
    j.readBuf.get (h + k) = P.getD k 0 := by
  rw [CharArray.get_add, List.getD_eq_getElem?_getD, List.getD_eq_getElem?_getD]
  conv_rhs => rw [← ha.body]
  rw [List.getElem?_take_of_lt hk]

theorem Awaiting.append (ha : j.Awaiting h n P) {q : List UInt8}
    (hq : h + (P ++ q).length ≤ readBufferSize) : (j.append q).Awaiting h n (P ++ q) := by
  rw [List.length_append, ← Nat.add_assoc, ← ha.readIdx] at hq
  exact
    { checkState := ha.checkState
      contentLength := ha.contentLength
      startLine := ha.startLine
      checkedIdx := ha.checkedIdx
      readIdx := by rw [append_readIdx, ha.readIdx, List.length_append, Nat.add_assoc]
      atLine := ha.atLine.append hq
      unparsed := by rw [unparsed_append ha.atLine hq, ha.unparsed] }

/-- `parse_line` on the part of the body that was received. -/
theorem Awaiting.parseLine_held (ha : j.Awaiting h n P) (hP : Held P) :
    ∃ s, s ≠ .lineOk ∧ j.parseLine = (s, j) := by
  rw [parseLine, ha.readIdx, ha.checkedIdx, Nat.add_sub_cancel_left]
  cases P with
  | nil => exact ⟨.lineOpen, by simp, rfl⟩
  | cons b P =>
    have hb : j.readBuf.get j.checkedIdx = b := by
      rw [ha.checkedIdx]
      exact ha.get (k := 0) (Nat.succ_pos _)
    rw [List.length_cons, parseLineLoop]
    rcases hP with rfl | ⟨rfl, hhead⟩
    · -- an LF: the byte before it is the NUL that ended the head, not a CR
      have hback : ¬(1 < j.checkedIdx ∧ j.readBuf.get (j.checkedIdx - 1) = cr) := by
        rintro ⟨h1, hcr⟩
        rw [ha.checkedIdx, ← ha.startLine] at h1 hcr
        rcases ha.atLine.back with h0 | hne
        exacts [absurd h0 (by omega), hne hcr]
      refine ⟨.lineBad, by simp, ?_⟩
      simp only [hb, if_neg (show ¬lf = cr by decide), if_true, if_neg hback]
    · simp only [hb, if_true]
      cases P with
      | nil =>
        refine ⟨.lineOpen, by simp, ?_⟩
        rw [if_pos (by rw [ha.checkedIdx, ha.readIdx]; rfl)]
      | cons c P =>
        have hc : j.readBuf.get (j.checkedIdx + 1) = c := by
          rw [ha.checkedIdx]
          exact ha.get (k := 1) (Nat.succ_lt_succ (Nat.succ_pos _))
        refine ⟨.lineBad, by simp, ?_⟩
        rw [if_neg (by simp [ha.checkedIdx, ha.readIdx]), hc, if_neg (by simpa using hhead)]

theorem Awaiting.parseLine_not_held (ha : j.Awaiting h n P) (hP : ¬Held P) :
    h < j.parseLine.2.checkedIdx := by
  have hchecked := ha.checkedIdx
  rw [parseLine, ha.readIdx, hchecked, Nat.add_sub_cancel_left]
  cases P with
  | nil => exact absurd trivial hP
  | cons b P =>
    have hb : j.readBuf.get j.checkedIdx = b := by
      rw [ha.checkedIdx]
      exact ha.get (k := 0) (Nat.succ_pos _)
    rw [Held, not_or, not_and, not_not] at hP
    rw [List.length_cons, parseLineLoop]
    simp only [hb, if_neg hP.1]
    by_cases hcr : b = cr
    · -- a CRLF, taken for the end of a line
      rw [if_pos hcr]
      obtain ⟨c, Q, rfl⟩ : ∃ c Q, P = c :: Q := by
        cases P with
        | nil => cases hP.2 hcr
        | cons c Q => exact ⟨c, Q, rfl⟩
      have hc : j.readBuf.get (j.checkedIdx + 1) = lf := by
        rw [ha.checkedIdx, ha.get (k := 1) (Nat.succ_lt_succ (Nat.succ_pos _))]
        exact Option.some.inj (hP.2 hcr)
      rw [if_neg (by simp [ha.checkedIdx, ha.readIdx]), if_pos hc]
      simp [hchecked]
    · rw [if_neg hcr]
      have hle := parseLineLoop_checkedIdx_le P.length { j with checkedIdx := j.checkedIdx + 1 }
      exact (Nat.lt_succ_self h).trans_le (hchecked ▸ hle)

/-! ## One call -/

/-- What `parse_content` compares. -/
theorem Awaiting.length_le_iff (ha : j.Awaiting h n P) (hfit : h + n < readBufferSize) :
    toInt32 (j.contentLength + j.checkedIdx) ≤ j.readIdx ↔ n ≤ P.length := by
  have hint : toInt32 (n + h : Int) = n + h := by
    rw [readBufferSize] at hfit
    rw [toInt32]
    omega
  rw [ha.contentLength, ha.checkedIdx, ha.readIdx, hint]
  omega

/-- All of the body is there. -/
theorem Awaiting.complete (ha : j.Awaiting h n P) (hfit : h + n < readBufferSize)
    (hn : n ≤ P.length) : (processReadLoop .lineOk j).1 = .doRequest := by
  have hiter : j.processReadIter .lineOk = (.leave .doRequest, j.nextLine.terminate j.startLine) := by
    rw [processReadIter, loopCondition, if_pos ⟨ha.checkState, rfl⟩]
    simp only
    rw [loopBody_content ha.checkState, if_pos ((ha.length_le_iff hfit).2 hn)]
  rw [processReadLoop_leave hiter]

/-- Too little of it is there: `parse_line` is called. -/
theorem Awaiting.processReadIter_more (ha : j.Awaiting h n P) (hfit : h + n < readBufferSize)
    (hn : P.length < n) : j.processReadIter .lineOk = (.next .lineOpen, j) := by
  have hnext : j.nextLine = j :=
    congrArg (fun c => ({ j with startLine := c } : CJob)) (ha.checkedIdx.trans ha.startLine.symm)
  rw [processReadIter, loopCondition, if_pos ⟨ha.checkState, rfl⟩]
  simp only
  rw [loopBody_content ha.checkState, if_neg fun hle => absurd ((ha.length_le_iff hfit).1 hle)
    (not_le.2 hn), hnext]

theorem Awaiting.held (ha : j.Awaiting h n P) (hfit : h + n < readBufferSize) (hn : P.length < n)
    (hP : Held P) : processReadLoop .lineOk j = (.ret .noRequest, j) := by
  obtain ⟨s, hs, hp⟩ := ha.parseLine_held hP
  rw [processReadLoop_next (ha.processReadIter_more hfit hn)]
  exact processReadLoop_leave (processReadIter_of_ne (by simp) hp hs)

/-- The cursor is moved, and stays so for the rest of the call. -/
theorem Awaiting.lost (ha : j.Awaiting h n P) (hfit : h + n < readBufferSize) (hn : P.length < n)
    (hP : ¬Held P) : h < (processReadLoop .lineOk j).2.checkedIdx := by
  have hlt := ha.parseLine_not_held hP
  have hiter : h < (j.processReadIter .lineOpen).2.checkedIdx := by
    rw [processReadIter, loopCondition, if_neg (by simp)]
    rcases hp : j.parseLine with ⟨st, jl⟩
    rw [hp] at hlt
    cases st with
    | lineOk => exact hlt.trans_le (loopBody_cursors jl).2.1.ge
    | _ => exact hlt
  rw [processReadLoop_next (ha.processReadIter_more hfit hn)]
  rcases hi : j.processReadIter .lineOpen with ⟨e | s, j'⟩
  · rw [hi] at hiter
    rwa [processReadLoop_leave hi]
  · rw [hi] at hiter
    rw [processReadLoop_next hi]
    exact hiter.trans_le (processReadLoop_checkedIdx_le s j')

/-! ## The calls for a body -/

/-- After the head: the body is awaited, and nothing of it is there. -/
theorem BodyHead.awaiting {H : List UInt8} (hH : BodyHead H n) (j : CJob) :
    ∃ j', processReadLoop .lineOk (j.holding H) = (.ret .noRequest, j') ∧
      j'.Awaiting H.length n [] := by
  obtain ⟨r, ts, m, code, href, hm, hget, hhead, hlen⟩ := hH.head
  have hfit := hH.fits
  have hread := j.reference_read (B := H) (by omega)
  rw [href] at hread
  obtain ⟨j', hf⟩ := hread
  have hmethod : j'.method = m := by
    have := hf.method
    rw [hm, Option.some.injEq, Prod.mk.injEq] at this
    exact this.1.symm
  have hbody : ¬j'.BodyLess := by
    rintro (h | h | h)
    · exact hget (hmethod.symm.trans h)
    · exact hhead (hmethod.symm.trans h)
    · rw [hf.recorded.contentLength, hlen] at h
      exact absurd h (by exact_mod_cast hH.pos.ne')
  obtain ⟨hstate, hsteps⟩ := hf.await hbody
  have hstart : j'.startLine = H.length := hf.startLine.trans hH.headEnd
  have hread : j'.readIdx = H.length := by
    rw [hf.passed.readIdx]
    simp [holding, CJob.append, init]
  have ha : j'.Awaiting H.length n [] :=
    { checkState := hstate
      contentLength := hf.recorded.contentLength.trans hlen
      startLine := hstart
      checkedIdx := hf.passed.checkedIdx.trans hstart
      readIdx := hread
      atLine := hf.passed.atLine
      unparsed := by rw [CJob.unparsed, hstart, hread, Nat.sub_self, List.take_zero] }
  exact ⟨j', hsteps.processReadLoop_eq.trans (ha.held hH.fits hH.pos trivial), ha⟩

theorem readPieces_concat (fs : FileSystem) (j : CJob) (ps : List (List UInt8)) (q : List UInt8) :
    readPieces fs j (ps ++ [q]) = processRead fs ((readPieces fs j ps).2.append q) := by
  rw [readPieces, List.foldl_append]
  rfl

/-- The calls of `process_read` for a body in the pieces `ps`, the head `H` first:
    the first at which all `n` bytes are there calls `do_request`, and those before
    it return `NO_REQUEST` and leave the body and `m_checked_idx` as they were. -/
def BodyCompletes (fs : FileSystem) (j : CJob) (H : List UInt8) (n : Nat)
    (ps : List (List UInt8)) : Prop :=
  (∀ qs, qs <+: ps → qs.flatten.length < n →
    (readPieces fs j.init (H :: qs)).1 = .noRequest ∧
    (readPieces fs j.init (H :: qs)).2.checkedIdx = H.length ∧
    ((readPieces fs j.init (H :: qs)).2.readBuf.mem H.length).take qs.flatten.length =
      qs.flatten) ∧
  ∀ qs q, qs ++ [q] <+: ps → qs.flatten.length < n → (qs ++ [q]).flatten.length = n →
    (processReadLoop .lineOk ((readPieces fs j.init (H :: qs)).2.append q)).1 = .doRequest

/-- As long as the calls do not move `m_checked_idx`, the body is awaited. -/
theorem body_awaited (fs : FileSystem) (j : CJob) {H : List UInt8} (hH : BodyHead H n)
    {ps qs : List (List UInt8)} (hqs : qs <+: ps) (hn : qs.flatten.length < n)
    (hps : ∀ qs, qs <+: ps → qs.flatten.length < n →
      Held qs.flatten ∨ (readPieces fs j.init (H :: qs)).2.checkedIdx = H.length) :
    (readPieces fs j.init (H :: qs)).1 = .noRequest ∧
      (readPieces fs j.init (H :: qs)).2.Awaiting H.length n qs.flatten ∧ Held qs.flatten := by
  -- by induction on the calls: the last piece arrives where the ones before left the parser
  induction qs using List.reverseRecOn with
  | nil =>
    obtain ⟨j', hloop, ha⟩ := hH.awaiting j
    have hread : readPieces fs j.init [H] = (.noRequest, j') := by
      have : readPieces fs j.init [H] = processRead fs (j.holding H) := rfl
      rw [this, processRead, hloop]
    rw [hread]
    exact ⟨rfl, ha, trivial⟩
  | append_singleton qs q ih =>
    have hfit := hH.fits
    have hlen : qs.flatten.length ≤ (qs ++ [q]).flatten.length := by simp
    obtain ⟨-, ha, -⟩ := ih ((List.prefix_append qs [q]).trans hqs) (by omega)
    have hflat : (qs ++ [q]).flatten = qs.flatten ++ q := by simp
    rw [hflat] at hn ⊢
    have ha' := ha.append (q := q) (by omega)
    have hcall : readPieces fs j.init (H :: (qs ++ [q])) =
        processRead fs ((readPieces fs j.init (H :: qs)).2.append q) :=
      readPieces_concat fs j.init (H :: qs) q
    by_cases hP : Held (qs.flatten ++ q)
    · rw [hcall, processRead, ha'.held hfit hn hP]
      exact ⟨rfl, ha', hP⟩
    · -- the cursor has moved, which the pieces do not allow
      have hlost := ha'.lost hfit hn hP
      rcases hps (qs ++ [q]) hqs (hflat ▸ hn) with hheld | hkept
      · exact absurd (hflat ▸ hheld) hP
      · rw [hcall, processRead_checkedIdx] at hkept
        exact absurd hkept hlost.ne'

/-- A body is waited for as declared if and only if every part of it that a call
    finds incomplete stops `parse_line` at its first byte. -/
theorem bodyCompletes_iff (fs : FileSystem) (j : CJob) {H : List UInt8} (hH : BodyHead H n)
    (ps : List (List UInt8)) :
    BodyCompletes fs j H n ps ↔
      ∀ qs, qs <+: ps → qs.flatten.length < n → Held qs.flatten := by
  constructor
  · rintro ⟨hwait, -⟩ qs hqs hn
    exact (body_awaited fs j hH hqs hn fun qs hqs hn => .inr (hwait qs hqs hn).2.1).2.2
  · intro hheld
    have hawait := fun qs (hqs : qs <+: ps) hn =>
      body_awaited fs j hH hqs hn fun qs hqs hn => .inl (hheld qs hqs hn)
    refine ⟨fun qs hqs hn => ?_, fun qs q hqs hn hfull => ?_⟩
    · obtain ⟨hno, ha, -⟩ := hawait qs hqs hn
      exact ⟨hno, ha.checkedIdx, ha.body⟩
    · obtain ⟨-, ha, -⟩ := hawait qs ((List.prefix_append qs [q]).trans hqs) hn
      have hflat : (qs ++ [q]).flatten = qs.flatten ++ q := by simp
      rw [hflat] at hfull
      have hfit := hH.fits
      exact (ha.append (by omega)).complete hfit hfull.ge

/-- A head that declares two bytes. -/
def postHead : List UInt8 := ascii "POST /a HTTP/1.1\r\nContent-Length: 2\r\n\r\n"

theorem postHead_bodyHead : BodyHead postHead 2 where
  head := by
    refine ⟨requestLine (ascii "POST /a HTTP/1.1"), [ascii "Content-Length: 2"], .post,
      .postRequest, ?_, ?_, by decide, by decide, ?_⟩
    all_goals decide +kernel
  headEnd := by decide +kernel
  pos := by decide
  fits := by decide

/-- A body that starts with an LF may be cut anywhere. -/
theorem bodyCompletes_lf : BodyCompletes default default postHead 2 [[lf], [lf]] := by
  refine (bodyCompletes_iff default default postHead_bodyHead [[lf], [lf]]).2 fun qs hqs _ => ?_
  rcases qs with - | ⟨q, qs⟩
  · trivial
  · rw [List.cons_prefix_cons] at hqs
    rw [hqs.1]
    exact .inl rfl

/-- A body `ab` in two pieces: `parse_line` passes over the `a`. -/
theorem not_bodyCompletes_ab :
    BodyHead postHead 2 ∧ [ascii "a", ascii "b"].flatten.length = 2 ∧
      ¬BodyCompletes default default postHead 2 [ascii "a", ascii "b"] := by
  refine ⟨postHead_bodyHead, rfl, fun hc => ?_⟩
  have hheld : Held [ascii "a"].flatten :=
    (body_awaited default default postHead_bodyHead (List.prefix_append _ [ascii "b"]) (by decide)
      fun qs hqs hn => .inr (hc.1 qs hqs hn).2.1).2.2
  exact absurd hheld (by decide)

end CJob

end VsHttpServer
