import VsHttpServer.Job.Head
import Mathlib.Data.List.Induction

/-!
# Resuming the parser

`process_read` returns `NO_REQUEST` when the bytes end before the request does,
and is called again when more have been received. In the head of a request this
is invisible, as long as the new bytes are appended at `m_read_buf +
m_read_idx`: appending commutes with every iteration that finds a line
(`LineCut.append`, `loopBody_append`), and `parse_line` goes on from where it
stopped (`parseLine_skip`).

* `processReadLoop_append`: the loop on the bytes received so far, and then on
  the rest, is the loop on all of them;
* `processRead_resumable`: any division of a head into appended pieces.
-/

namespace VsHttpServer

open CString Crlf

namespace CJob

variable {N : Nat}

/-! ## Appending -/

@[simp] theorem append_checkState (j : CJob N) (s : List UInt8) :
    (j.append s).checkState = j.checkState := rfl
@[simp] theorem append_startLine (j : CJob N) (s : List UInt8) :
    (j.append s).startLine = j.startLine := rfl
@[simp] theorem append_checkedIdx (j : CJob N) (s : List UInt8) :
    (j.append s).checkedIdx = j.checkedIdx := rfl
@[simp] theorem append_method (j : CJob N) (s : List UInt8) : (j.append s).method = j.method := rfl
@[simp] theorem append_contentLength (j : CJob N) (s : List UInt8) :
    (j.append s).contentLength = j.contentLength := rfl
@[simp] theorem append_readIdx (j : CJob N) (s : List UInt8) :
    (j.append s).readIdx = j.readIdx + s.length := rfl

theorem get_append_of_lt {j : CJob N} {s : List UInt8} (hr : j.readIdx ≤ N) {k : Nat}
    (hk : k < j.readIdx) : (j.append s).readBuf.get k = j.readBuf.get k := by
  rw [append, CharArray.get_copy hr, if_neg (by omega)]

theorem AtLine.append {j : CJob N} (h : j.AtLine) {s : List UInt8}
    (hs : j.readIdx + s.length ≤ N) : (j.append s).AtLine where
  start_le := h.start_le
  checked_le := h.checked_le.trans (Nat.le_add_right _ _)
  read_le := hs
  clean k hk hk' := by
    rw [CleanAt, get_append_of_lt h.read_le (hk'.trans_le h.checked_le)]
    exact h.clean k hk hk'
  back := by
    rcases Nat.eq_zero_or_pos j.startLine with h0 | hpos
    · exact .inl h0
    · have hlt : j.startLine - 1 < j.readIdx := by
        have := h.start_le.trans h.checked_le
        omega
      rw [append_startLine, get_append_of_lt h.read_le hlt]
      exact h.back

/-- The bytes received are unparsed after those that were already there. -/
theorem unparsed_append {j : CJob N} (h : j.AtLine) {s : List UInt8}
    (hs : j.readIdx + s.length ≤ N) : (j.append s).unparsed = j.unparsed ++ s := by
  have hle := h.start_le.trans h.checked_le
  rw [unparsed, unparsed, append_startLine, append_readIdx,
    CharArray.take_mem_split hle (Nat.le_add_right _ _)]
  -- the copy leaves the bytes before `m_read_idx` as they were
  congr 1
  · exact CharArray.take_mem_congr fun k _ hk => get_append_of_lt h.read_le hk
  · rw [Nat.add_sub_cancel_left, append, CharArray.take_mem_copy hs]

/-! ## Lines -/

theorem parseLine_succ {j : CJob N} (hlt : j.checkedIdx < j.readIdx) (h : j.CleanAt j.checkedIdx) :
    j.parseLine = ({ j with checkedIdx := j.checkedIdx + 1 } : CJob N).parseLine := by
  rw [parseLine, parseLine,
    show j.readIdx - j.checkedIdx = j.readIdx - (j.checkedIdx + 1) + 1 by omega, parseLineLoop]
  simp only [if_neg h.1, if_neg h.2]

/-- `parse_line` goes over a clean stretch. -/
theorem parseLine_skip {j : CJob N} (d : Nat) (hr : j.checkedIdx + d ≤ j.readIdx)
    (h : ∀ k < d, j.CleanAt (j.checkedIdx + k)) :
    j.parseLine = ({ j with checkedIdx := j.checkedIdx + d } : CJob N).parseLine := by
  induction d with
  | zero => rfl
  | succ d ih =>
    rw [ih (by omega) fun k hk => h k (by omega)]
    exact parseLine_succ (j := { j with checkedIdx := j.checkedIdx + d }) hr (h d (Nat.lt_succ_self d))

theorem cutAt_append {j : CJob N} {i : Nat} (hi : i + 1 < j.readIdx) (hr : j.readIdx ≤ N)
    (s : List UInt8) : (j.append s).cutAt i = (j.cutAt i).append s := by
  simp only [cutAt, append]
  rw [CharArray.store_copy hi hr, CharArray.store_copy (by omega) hr]

/-- A line that is there is still there when more is received. -/
theorem LineCut.append {j : CJob N} (h : j.AtLine) {x r : List UInt8}
    (hc : cutLine j.unparsed = some (x, r)) {s : List UInt8}
    (hs : j.readIdx + s.length ≤ N) : (j.append s).LineCut x (r ++ s) := by
  have hc' : cutLine (j.append s).unparsed = some (x, r ++ s) := by
    rw [unparsed_append h hs]
    rw [cutLine_eq_some_iff] at hc ⊢
    exact ⟨by rw [hc.1]; simp, hc.2⟩
  rcases (h.append hs).parseLine_cases with ⟨y, q, hy, hcut⟩ | ⟨hn, -⟩
  · rw [hc', Option.some.injEq, Prod.mk.injEq] at hy
    rwa [hy.1, hy.2]
  · rw [hc'] at hn
    cases hn

/-! ## Bodies -/

theorem nextLine_append (j : CJob N) (s : List UInt8) :
    (j.append s).nextLine = j.nextLine.append s := rfl

theorem applyRequestLine_append {j : CJob N} {text : Nat} {r : RequestLine} {s : List UInt8}
    (hr : j.readIdx ≤ N) (hn : ∀ k ∈ r.nuls, text + k < j.readIdx) :
    (j.append s).applyRequestLine text r = (j.applyRequestLine text r).append s := by
  simp only [applyRequestLine, append]
  rw [CharArray.storeNuls_copy hn hr]

theorem bodyLess_append {j : CJob N} {s : List UInt8} : (j.append s).BodyLess ↔ j.BodyLess := Iff.rfl

theorem applyHeader_append (j : CJob N) (text : Nat) (h : Header) (s : List UInt8) :
    (j.append s).applyHeader text h =
      ((j.applyHeader text h).1, (j.applyHeader text h).2.append s) := by
  cases h with
  | blank =>
    rw [applyHeader, applyHeader, append_method, append_contentLength]
    split_ifs <;> rfl
  | connection k => cases k <;> rfl
  | _ => rfl

/-- An iteration that finds a line of the head does the same when more is there. -/
theorem processReadIter_append {j : CJob N} {x r : List UInt8} (hst : j.checkState ≠ .content)
    (hr : j.readIdx ≤ N) (hcut : j.LineCut x r) {s : List UInt8}
    (hcut' : (j.append s).LineCut x (r ++ s)) :
    (j.append s).processReadIter .lineOk =
      ((j.processReadIter .lineOk).1, (j.processReadIter .lineOk).2.append s) := by
  have hle := hcut.le_read
  have hcomm : (j.append s).cutAt (j.startLine + x.length) =
      (j.cutAt (j.startLine + x.length)).append s := cutAt_append (by omega) hr s
  rw [processReadIter_of_cut hst hcut, processReadIter_of_cut (j := j.append s) hst hcut',
    append_startLine, hcomm]
  have htext' : ((j.cutAt (j.startLine + x.length)).append s).readBuf.str j.startLine = cstr x :=
    hcomm ▸ hcut'.text
  obtain ⟨jc, hjc⟩ : ∃ jc, j.cutAt (j.startLine + x.length) = jc := ⟨_, rfl⟩
  have hs : jc.startLine = j.startLine := by rw [← hjc]; rfl
  have htext : jc.readBuf.str jc.startLine = cstr x := by rw [hs, ← hjc]; exact hcut.text
  have hread : jc.readIdx = j.readIdx := by rw [← hjc]; rfl
  rw [hjc, ← hs] at htext'
  rw [hjc]
  -- the body finds the same text in both buffers, and stores before `m_read_idx` only
  cases hstate : jc.checkState with
  | requestLine =>
    rw [loopBody_requestLine hstate htext, loopBody_requestLine (j := jc.append s) hstate htext',
      nextLine_append]
    refine congrArg (Prod.mk _) (applyRequestLine_append (by rw [← hread] at hr; exact hr) ?_)
    intro k hk
    have := lt_of_mem_nuls (cstr_cstr x) hk
    have := cstr_length_le x
    rw [append_startLine, nextLine_readIdx]
    omega
  | header =>
    by_cases hblank : cstr x = []
    · rw [hblank] at htext htext'
      rw [loopBody_blank hstate htext, loopBody_blank (j := jc.append s) hstate htext']
      by_cases hb : jc.BodyLess
      · rw [if_pos hb, if_pos (bodyLess_append.2 hb)]
        rfl
      · rw [if_neg hb, if_neg (bodyLess_append.not.2 hb)]
        rfl
    · rw [loopBody_header hstate htext hblank,
        loopBody_header (j := jc.append s) hstate htext' hblank, nextLine_append, applyHeader_append]
      rfl
  | content =>
    rw [← hjc] at hstate
    exact absurd hstate hst

/-! ## The loop -/

theorem processReadLoop_congr {s s' : LineStatus} {j j' : CJob N}
    (h : j.processReadIter s = j'.processReadIter s') :
    processReadLoop s j = processReadLoop s' j' := by
  rcases hi : j.processReadIter s with ⟨e | st, jn⟩
  · exact (processReadLoop_leave hi).trans (processReadLoop_leave (h.symm.trans hi)).symm
  · exact (processReadLoop_next hi).trans (processReadLoop_next (h.symm.trans hi)).symm

theorem parseLineLoop_checkState (n : Nat) (j : CJob N) :
    (parseLineLoop n j).2.checkState = j.checkState := by
  induction n generalizing j with
  | zero => rfl
  | succ n ih =>
    simp only [parseLineLoop]
    split_ifs
    all_goals first | rfl | exact ih _

/-- `CHECK_STATE_CONTENT` is not left. -/
theorem processReadLoop_content {s : LineStatus} {j : CJob N} (h : j.checkState = .content) :
    (processReadLoop s j).2.checkState = .content := by
  refine processReadLoop_inv (I := fun j => j.checkState = .content) (fun j h => ?_) (fun j h => ?_) s h
  · exact (parseLineLoop_checkState _ j).trans h
  · rw [loopBody_content h]
    split_ifs
    · rw [terminate]
      split_ifs <;> exact h
    · exact h

/-- A call that ends in the head has been in it all along. -/
theorem checkState_of_processReadLoop {s : LineStatus} {e : ReadExit} {j j' : CJob N}
    (h : processReadLoop s j = (e, j')) (hst : j'.checkState ≠ .content) :
    j.checkState ≠ .content := by
  intro hc
  have := processReadLoop_content (s := s) hc
  rw [h] at this
  exact hst this

/-- Where no line was found, the next call goes on as the first would have. -/
theorem processReadIter_resume {j : CJob N} {s : List UInt8} {c : Nat} (hj : j.AtLine)
    (hst : j.checkState ≠ .content) (hc : j.checkedIdx ≤ c)
    (hat : ({ j with checkedIdx := c } : CJob N).AtLine) :
    (({ j with checkedIdx := c } : CJob N).append s).processReadIter .lineOk =
      (j.append s).processReadIter .lineOk := by
  obtain ⟨d, rfl⟩ := Nat.exists_eq_add_of_le hc
  have hskip : (j.append s).parseLine =
      (({ j with checkedIdx := j.checkedIdx + d } : CJob N).append s).parseLine := by
    refine parseLine_skip (j := j.append s) d (hat.checked_le.trans (Nat.le_add_right _ _))
      fun k hk => ?_
    have hlt : j.checkedIdx + k < j.readIdx := lt_of_lt_of_le (by simp [hk]) hat.checked_le
    rw [CleanAt, append_checkedIdx, get_append_of_lt hj.read_le hlt]
    exact hat.clean _ (hj.start_le.trans (Nat.le_add_right _ _)) (by simp [hk])
  rw [processReadIter, processReadIter, loopCondition, loopCondition, if_neg (by simp [hst]),
    if_neg (by simp [hst]), hskip]

/-- An iteration on a line of the head: it goes on at the next line, or leaves the
    loop with an answer. -/
theorem processReadIter_line {j : CJob N} {x r : List UInt8} (hst : j.checkState ≠ .content)
    (hcut : j.LineCut x r) :
    (j.processReadIter .lineOk).1 ≠ .leave (.ret .noRequest) ∧
      ∀ st j₁, j.processReadIter .lineOk = (.next st, j₁) →
        st = .lineOk ∧ j.Passed j₁ ∧ j₁.unparsed = r := by
  have hiter := processReadIter_of_cut (s := .lineOk) hst hcut
  cases hs : j.checkState with
  | requestLine =>
    obtain ⟨j', -, hi, hpass, hun⟩ := requestLine_read hs hcut
    rw [hi]
    split_ifs with hbad
    · exact ⟨by simp, fun st j₁ h => by cases congrArg Prod.fst h⟩
    · refine ⟨by simp, fun st j₁ h => ?_⟩
      cases h
      exact ⟨rfl, hpass, hun⟩
  | header =>
    have hs' : (j.cutAt (j.startLine + x.length)).checkState = .header := hs
    by_cases hblank : cstr x = []
    · rw [loopBody_blank hs' (hcut.text.trans hblank)] at hiter
      rw [hiter]
      split_ifs
      · exact ⟨by simp, fun st j₁ h => by cases congrArg Prod.fst h⟩
      · refine ⟨by simp, fun st j₁ h => ?_⟩
        cases h
        exact ⟨rfl, hcut.passed rfl rfl rfl fun _ _ => rfl⟩
    · rw [loopBody_header hs' hcut.text hblank] at hiter
      rw [hiter]
      obtain ⟨hbuf, hread, hchecked, hstart⟩ := applyHeader_frame
        (j.cutAt (j.startLine + x.length)).nextLine j.startLine (headerLine (cstr x))
      refine ⟨by simp, fun st j₁ h => ?_⟩
      cases h
      exact ⟨rfl, hcut.passed hread hchecked hstart fun k _ => congrArg (·.get k) hbuf⟩
  | content => exact absurd hs hst

/-- The loop on the bytes received so far, and then on the rest. -/
theorem processReadLoop_append {j j' : CJob N} {s : List UInt8} (hj : j.AtLine)
    (hs : j.readIdx + s.length ≤ N)
    (h : processReadLoop .lineOk j = (.ret .noRequest, j')) (hst : j'.checkState ≠ .content) :
    processReadLoop .lineOk (j'.append s) = processReadLoop .lineOk (j.append s) := by
  have hhead := checkState_of_processReadLoop h hst
  -- by induction on the lines that are complete before `s` arrives
  generalize hls : cutLines j.unparsed = ls
  induction ls generalizing j with
  | nil =>
    rcases hj.parseLine_cases with ⟨x, r, hc, -⟩ | ⟨-, st, c, hne, hle, hp, hat⟩
    · simp [cutLines_of_some hc] at hls
    · have hleave := processReadLoop_leave (processReadIter_of_ne (s := .lineOk)
        (fun hc => hhead hc.1) hp hne)
      rw [h, Prod.mk.injEq] at hleave
      rw [hleave.2]
      exact processReadLoop_congr (processReadIter_resume hj hhead hle hat)
  | cons x ls ih =>
    rcases hj.parseLine_cases with ⟨y, r, hc, hcut⟩ | ⟨hc, -⟩
    swap
    · simp [cutLines_of_none hc] at hls
    rw [cutLines_of_some hc, List.cons.injEq] at hls
    obtain ⟨hne, hnext⟩ := processReadIter_line hhead hcut
    have happ := processReadIter_append hhead hj.read_le hcut (LineCut.append hj hc hs)
    rcases hi : j.processReadIter .lineOk with ⟨e | st, j₁⟩
    · -- the loop does not leave a line with `NO_REQUEST`
      rw [processReadLoop_leave hi, Prod.mk.injEq] at h
      rw [hi, h.1] at hne
      exact absurd rfl hne
    · obtain ⟨rfl, hpass, hun⟩ := hnext st j₁ hi
      rw [hi] at happ
      rw [processReadLoop_next happ]
      rw [processReadLoop_next hi] at h
      exact ih hpass.atLine (by rw [hpass.readIdx]; exact hs) h
        (checkState_of_processReadLoop h hst) (hun.symm ▸ hls.2)

/-! ## The head in pieces -/

theorem append_append {j : CJob N} {p : List UInt8} (hp : j.readIdx + p.length ≤ N)
    (s : List UInt8) : (j.append p).append s = j.append (p ++ s) := by
  simp only [append, CharArray.copy_copy hp, List.length_append, Nat.add_assoc]

theorem holding_append (j : CJob N) {p : List UInt8} (hp : p.length ≤ N)
    (s : List UInt8) : (j.holding p).append s = j.holding (p ++ s) :=
  append_append (j := j.init) (by simpa [init] using hp) s

/-- `do_request` answers. -/
theorem doRequest_ne_noRequest (fs : FileSystem) (j : CJob N) :
    (j.doRequest fs).1 ≠ .noRequest := by
  rw [doRequest]
  split
  · simp
  · split_ifs <;> simp

/-- `NO_REQUEST` is returned by the loop itself. -/
theorem processRead_eq_noRequest {fs : FileSystem} {j : CJob N}
    (h : (processRead fs j).1 = .noRequest) :
    processReadLoop .lineOk j = (.ret .noRequest, (processRead fs j).2) := by
  rw [processRead] at h ⊢
  rcases hl : processReadLoop .lineOk j with ⟨code | -, j'⟩
  · rw [hl] at h
    simp only at h ⊢
    rw [h]
  · rw [hl] at h
    exact absurd h (doRequest_ne_noRequest fs j')

theorem processRead_append (fs : FileSystem) (j : CJob N) {p s : List UInt8}
    (hlen : p.length + s.length ≤ N)
    (hno : (processRead fs (j.holding p)).1 = .noRequest)
    (hst : (processRead fs (j.holding p)).2.checkState ≠ .content) :
    processRead fs ((processRead fs (j.holding p)).2.append s) =
      processRead fs (j.holding (p ++ s)) := by
  have hl := processReadLoop_append (s := s) (j.holding_atLine (by omega))
    (by simpa [holding, append, init] using hlen) (processRead_eq_noRequest hno) hst
  rw [j.holding_append (by omega)] at hl
  rw [processRead, hl, processRead]

/-- `process_read` called after each of the pieces `ps` is appended. -/
def readPieces (fs : FileSystem) (j : CJob N) (ps : List (List UInt8)) : HttpCode × CJob N :=
  ps.foldl (fun r p => processRead fs (r.2.append p)) (.noRequest, j)

/-- The bytes `B` do not make a head yet. -/
def Unfinished (fs : FileSystem) (j : CJob N) (B : List UInt8) : Prop :=
  (processRead fs (j.holding B)).1 = .noRequest ∧
    (processRead fs (j.holding B)).2.checkState ≠ .content

/-- Bytes that the reference parser finds unfinished. -/
theorem unfinished_of_reference (fs : FileSystem) (j : CJob N) {B : List UInt8}
    (hB : B.length ≤ N) (h : reference B = .noRequest) : Unfinished fs j B := by
  have hread := j.reference_read hB
  rw [h] at hread
  obtain ⟨j', hloop, hst⟩ := hread
  have hp : processRead fs (j.holding B) = (.noRequest, j') := by rw [processRead, hloop]
  exact ⟨congrArg Prod.fst hp, by rwa [hp]⟩

/-- A request cut at any byte of its head, and a head in any number of pieces, is
    read as if it had been received at once. -/
theorem processRead_resumable (fs : FileSystem) (j : CJob) :
    (∀ p s : List UInt8, p.length + s.length ≤ readBufferSize →
      (processRead fs (j.holding p)).1 = .noRequest →
      (processRead fs (j.holding p)).2.checkState ≠ .content →
      processRead fs ((processRead fs (j.holding p)).2.append s) =
        processRead fs (j.holding (p ++ s))) ∧
    ∀ (p : List UInt8) (ps : List (List UInt8)), (p ++ ps.flatten).length ≤ readBufferSize →
      (∀ qs, qs <+: ps → qs ≠ ps → Unfinished fs j (p ++ qs.flatten)) →
      readPieces fs j.init (p :: ps) = processRead fs (j.holding (p ++ ps.flatten)) := by
  refine ⟨fun p s hlen hno hst => processRead_append fs j hlen hno hst, fun p ps hlen hun => ?_⟩
  induction ps using List.reverseRecOn with
  | nil => simp [readPieces, holding]
  | append_singleton ps q ih =>
    have hlen' : (p ++ ps.flatten).length + q.length ≤ readBufferSize := by
      simpa [Nat.add_assoc] using hlen
    obtain ⟨hno, hst⟩ := hun ps (List.prefix_append ps [q]) (by simp)
    rw [readPieces, ← List.cons_append, List.foldl_append]
    rw [← readPieces, ih (by omega) fun qs hqs hne => hun qs (hqs.trans (List.prefix_append ps [q])) ?_]
    · simpa using processRead_append fs j hlen' hno hst
    · rintro rfl
      exact absurd hqs.length_le (by simp)

/-- A request line cut in its version, and then between its CR and its LF. -/
theorem processRead_resumable_get (fs : FileSystem) :
    processRead fs ((processRead fs (CJob.holding (default : CJob) (ascii "GET /a HT"))).2.append
        (ascii "TP/1.1\r\n\r\n")) =
      processRead fs (CJob.holding (default : CJob) (ascii "GET /a HT" ++ ascii "TP/1.1\r\n\r\n")) ∧
    readPieces fs (init (default : CJob)) [ascii "GET /a HT", ascii "TP/1.1\r", ascii "\n\r\n"] =
      processRead fs (CJob.holding (default : CJob)
        (ascii "GET /a HT" ++ [ascii "TP/1.1\r", ascii "\n\r\n"].flatten)) := by
  have h₁ : Unfinished fs (default : CJob) (ascii "GET /a HT") :=
    unfinished_of_reference fs default (by decide) (by decide +kernel)
  refine ⟨(processRead_resumable fs default).1 _ _ (by decide) h₁.1 h₁.2,
    (processRead_resumable fs default).2 _ _ (by decide) fun qs hqs hne => ?_⟩
  have hcases : qs = [] ∨ qs = [ascii "TP/1.1\r"] := by
    rcases qs with - | ⟨q, - | ⟨q', qs⟩⟩
    · exact .inl rfl
    · rw [List.cons_prefix_cons] at hqs
      exact .inr (by rw [hqs.1])
    · rw [List.cons_prefix_cons, List.cons_prefix_cons, List.prefix_nil] at hqs
      exact absurd (by rw [hqs.1, hqs.2.1, hqs.2.2]) hne
  rcases hcases with rfl | rfl
  · exact h₁
  · exact unfinished_of_reference fs default (by decide) (by decide +kernel)

end CJob

end VsHttpServer
