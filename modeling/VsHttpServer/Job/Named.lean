import VsHttpServer.Job.Fresh

/-!
# The file served and the file named

The URL of a request line that is accepted stays in `m_read_buf`, where read events and
`parse_content` store too, until `do_request` copies what fits in `m_real_file` behind
the document root.

* `HasUrl`: the URL accepted last, over any iterations of `process_read` and read events;
* `named_iff`: when the file looked up is the one that the URL names;
* `Request.named_iff_length`: for a request that comes at once, this is a matter of length.
-/

namespace VsHttpServer

open CString Crlf

/-- A file that others may read and that is no directory: a request for it is served. -/
def FileSystem.Served (fs : FileSystem) (path : List UInt8) : Prop :=
  ∃ st, fs.stat path = some st ∧ st.othersRead = true ∧ st.isDir = false

theorem FileSystem.code_eq_fileRequest_iff {fs : FileSystem} {path : List UInt8} :
    fs.code path = .fileRequest ↔ fs.Served path := by
  rw [FileSystem.code, FileSystem.Served]
  cases fs.stat path with
  | none => simp
  | some st =>
    simp only [Option.some.injEq, exists_eq_left']
    cases st.othersRead <;> cases st.isDir <;> simp

/-- `process_read` has accepted a request line with the URL `u` on a connection, and has
    come to `j`, with `line_status` equal to `s`. Read events come between any two
    iterations of its loop, and of its calls. -/
inductive HasUrl (u : List UInt8) : LineStatus → CJob → Prop
  | accepted {c : ConnJob} {s s' : LineStatus} {j j' : CJob} (hc : Session.Reachable c)
      (hsteps : CJob.Steps .lineOk c.toCJob s j) (hs : j.checkState = .requestLine)
      (hiter : j.processReadIter s = (.next s', j')) (hurl : j'.urlText = some u) : HasUrl u s' j'
  | next {s s' : LineStatus} {j j' : CJob} (h : HasUrl u s j)
      (hiter : j.processReadIter s = (.next s', j')) : HasUrl u s' j'
  | wait {s : LineStatus} {j j' : CJob} (h : HasUrl u s j)
      (hiter : j.processReadIter s = (.leave (.ret .noRequest), j')) : HasUrl u .lineOk j'
  | readEvent {s : LineStatus} {j : CJob} (h : HasUrl u s j) (p : List UInt8)
      (hp : j.readIdx + p.length ≤ readBufferSize) : HasUrl u s (j.readEvent p)

/-- The request for `u`, come to `do_request`, gets an error, or the path given to `stat`
    and `open` is `u` below the document root; and the path ends inside `m_real_file`. -/
def Named (fs : FileSystem) (u : List UInt8) (j : CJob) : Prop :=
  ((j.doRequest fs).1 ≠ .fileRequest ∨ (j.doRequest fs).2.path = docRoot ++ u) ∧
    0 ∈ (j.doRequest fs).2.realFile.bytes

namespace CJob

theorem Steps.realFile {s s' : LineStatus} {j j' : CJob} (h : Steps s j s' j') :
    j'.realFile = j.realFile := by
  induction h with
  | refl => rfl
  | @head s s₁ s' j j₁ j' hi _ ih =>
    have hsame := (sameOutput_processReadIter s j).realFile
    rw [hi] at hsame
    exact ih.trans hsame

theorem doRequest_realFile (fs : FileSystem) (j : CJob) :
    (j.doRequest fs).2.realFile = j.buildPath.realFile := by
  rcases doRequest_cases fs j with ⟨-, he⟩ | ⟨st, -, ⟨-, he⟩ | ⟨-, -, he⟩ | ⟨-, -, he⟩⟩
  all_goals rw [he]

end CJob

namespace HasUrl

variable {u : List UInt8} {s : LineStatus} {j j' : CJob}

/-- The last byte of `m_real_file` is as `init` leaves it. -/
theorem realFile (h : HasUrl u s j) : j.realFile.get (filenameLen - 1) = 0 := by
  have hiter : ∀ (s : LineStatus) (j j' : CJob) (f : CJob.ReadFlow),
      j.processReadIter s = (f, j') → j'.realFile = j.realFile := by
    intro s j j' f hi
    have hsame := (CJob.sameOutput_processReadIter s j).realFile
    rwa [hi] at hsame
  induction h with
  | accepted hc hsteps hs hi hurl =>
    rw [hiter _ _ _ _ hi, hsteps.realFile]
    exact hc.atRest.realFile
  | next h hi ih => rw [hiter _ _ _ _ hi, ih]
  | wait h hi ih => rw [hiter _ _ _ _ hi, ih]
  | readEvent h p hp ih => exact ih

/-- The path that `do_request` builds, whatever the buffer holds then. -/
theorem path_buildPath (h : HasUrl u s j) (hloop : CJob.processReadLoop s j = (.doRequest, j')) :
    j'.realFile.get (filenameLen - 1) = 0 ∧ j'.buildPath.path = filePath (j'.urlText.getD []) := by
  have hsame := (CJob.sameOutput_processReadLoop s j).realFile
  rw [hloop] at hsame
  have hlast : j'.realFile.get (filenameLen - 1) = 0 := by
    rw [hsame]
    exact h.realFile
  exact ⟨hlast, CJob.path_buildPath hlast⟩

theorem named_iff_take (h : HasUrl u s j) (hloop : CJob.processReadLoop s j = (.doRequest, j'))
    (fs : FileSystem) :
    Named fs u j' ↔
      (j'.urlText.getD []).take (filenameLen - docRoot.length - 1) = u ∨
        ¬fs.Served (docRoot ++ (j'.urlText.getD []).take (filenameLen - docRoot.length - 1)) := by
  obtain ⟨hlast, hpath⟩ := h.path_buildPath hloop
  have hterminated : 0 ∈ (j'.doRequest fs).2.realFile.bytes := by
    rw [CJob.doRequest_realFile, ← j'.buildPath_get_last.trans hlast, CharArray.get,
      List.getD_eq_getElem _ _ (by simp [filenameLen])]
    exact List.getElem_mem _
  rw [Named, and_iff_left hterminated, CJob.doRequest_fst, (CJob.doRequest_path fs j').1, hpath,
    ← filePath, ne_eq, FileSystem.code_eq_fileRequest_iff, or_comm]
  exact or_congr_left (List.append_right_inj _)

/-- For every URL accepted and whatever comes until `do_request`, the file looked up is
    the one named, or the answer is an error, if and only if the text at `m_url`, cut to the
    room in `m_real_file`, is the URL, or the path so cut is not one of a file that can be
    served. Two requests get the same path if and only if the texts so cut are equal. -/
theorem named_iff (h : HasUrl u s j) (hloop : CJob.processReadLoop s j = (.doRequest, j'))
    (fs : FileSystem) :
    (Named fs u j' ↔
      (j'.urlText.getD []).take (filenameLen - docRoot.length - 1) = u ∨
        ¬fs.Served (docRoot ++ (j'.urlText.getD []).take (filenameLen - docRoot.length - 1))) ∧
    ∀ {v : List UInt8} {t : LineStatus} {k k' : CJob}, HasUrl v t k →
      CJob.processReadLoop t k = (.doRequest, k') → ∀ fs' : FileSystem,
        ((j'.doRequest fs).2.path = (k'.doRequest fs').2.path ↔
          (j'.urlText.getD []).take (filenameLen - docRoot.length - 1) =
            (k'.urlText.getD []).take (filenameLen - docRoot.length - 1)) := by
  refine ⟨h.named_iff_take hloop fs, fun {v t k k'} h' hloop' fs' => ?_⟩
  rw [(CJob.doRequest_path fs j').1, (CJob.doRequest_path fs' k').1, (h.path_buildPath hloop).2,
    (h'.path_buildPath hloop').2]
  exact List.append_right_inj _

end HasUrl

/-! ## Requests that come at once -/

/-- The path in the text of a line of the grammar. -/
theorem RequestWords.Requests.path_text {w : RequestWords} {m : Method} {path : List UInt8}
    (h : w.Requests m path) (hw : 0 ∉ w.text) : (requestLine w.text).path w.text = some path := by
  have hle := h.path.isSuffix.length_le
  have hpos := List.length_pos_of_ne_nil h.path.ne_nil
  have hgap := List.length_pos_of_ne_nil h.gap.1
  have hgap' := List.length_pos_of_ne_nil h.gap'.1
  have hlen : w.text.length =
      w.method.length + w.gap.length + w.target.length + w.gap'.length + w.version.length := by
    simp only [text, List.length_append]
  have htext := h.take_drop_text
  rw [RequestLine.path, requestLine_text h hw]
  obtain ⟨u, hu⟩ : ∃ u, w.method.length + w.gap.length + (w.target.length - path.length) = u :=
    ⟨_, rfl⟩
  have hcstr : cstr (w.text.drop u) = w.text.drop u :=
    cstr_eq_self fun h0 => hw (List.mem_of_mem_drop h0)
  simp only [Option.map_some, List.foldl_cons, List.foldl_nil, hu, Option.some.injEq] at htext ⊢
  rw [List.drop_set, if_neg (by omega), List.drop_set_of_lt (by omega), cstr_set_zero, hcstr,
    show w.method.length + w.gap.length + w.target.length - u = path.length by omega, htext]
  rw [hcstr, List.length_drop]
  omega

/-- The request line of a request on a new connection is accepted, with its path. -/
theorem Request.hasUrl (q : Request) (memory : CJob) (fd : Descriptor) {rest : List UInt8}
    (hlen : (q.bytes ++ rest).length ≤ readBufferSize) :
    ∃ j, HasUrl q.path .lineOk j ∧ CJob.processReadLoop .lineOk j =
      CJob.processReadLoop .lineOk ((ConnJob.accept memory fd).toCJob.holding (q.bytes ++ rest)) := by
  obtain ⟨c, hc⟩ : ∃ c, (ConnJob.accept memory fd).toCJob = c := ⟨_, rfl⟩
  rw [hc]
  have hreach := Session.reachable_readEvent memory fd hlen
  have hconn : ((ConnJob.accept memory fd).readEvent (q.bytes ++ rest)).toCJob =
      c.holding (q.bytes ++ rest) := by
    rw [(ConnJob.fresh_accept memory fd).readEvent, hc]
  have hline := q.cutLine_append rest
  rw [← c.holding_unparsed hlen] at hline
  rcases (c.holding_atLine hlen).parseLine_cases with ⟨x, r, hcl, hcut⟩ | ⟨hcl, -⟩
  swap
  · rw [hcl] at hline
    cases hline
  rw [hline, Option.some.injEq, Prod.mk.injEq] at hcl
  obtain ⟨rfl, rfl⟩ := hcl
  have hs : (c.holding (q.bytes ++ rest)).checkState = .requestLine := rfl
  obtain ⟨j, hj, hiter, -⟩ := CJob.requestLine_read hs hcut
  simp only [if_neg q.accepted] at hiter
  have hurl : j.urlText = some q.path := by
    have htext := hcut.text
    have hstart : (c.holding (q.bytes ++ rest)).startLine = 0 := rfl
    rw [hstart] at hj htext
    have hpath := CJob.urlText_eq htext (j := j) (fun k _ => by rw [hj]; rfl)
      (by rw [hj, CJob.applyRequestLine]; simp)
    obtain ⟨w, hw, m, path, hwords⟩ := RequestWords.exists_words (zero_not_mem_cstr _) q.accepted
    have hsome := hwords.path_text (hw ▸ zero_not_mem_cstr _)
    rw [hw] at hsome
    rw [hpath, Request.path, hsome]
    rfl
  exact ⟨j, .accepted hreach (hconn ▸ .refl _ _) hs hiter hurl, (CJob.processReadLoop_next hiter).symm⟩

/-- A request without a body, on a new connection, comes to `do_request` with the path
    that its request line has. -/
theorem Request.comes (q : Request) (hbody : q.BodyLess) (memory : CJob) (fd : Descriptor)
    (rest : List UInt8) (hlen : (q.bytes ++ rest).length ≤ readBufferSize) :
    ∃ j j', HasUrl q.path .lineOk j ∧ CJob.processReadLoop .lineOk j = (.doRequest, j') ∧
      j'.urlText.getD [] = q.path := by
  obtain ⟨j, hurl, hloop⟩ := q.hasUrl memory fd hlen
  obtain ⟨j', hread, hpath, -⟩ := q.read hbody (ConnJob.accept memory fd).toCJob hlen
  exact ⟨j, j', hurl, hloop.trans hread, hpath⟩

/-- For a request without a body that comes at once it is a matter of length. -/
theorem Request.named_iff_length (q : Request) {s : LineStatus} {j j' : CJob}
    (h : HasUrl q.path s j) (hloop : CJob.processReadLoop s j = (.doRequest, j'))
    (hpath : j'.urlText.getD [] = q.path) (fs : FileSystem) :
    Named fs q.path j' ↔
      q.path.length ≤ filenameLen - docRoot.length - 1 ∨ ¬fs.Served (filePath q.path) := by
  rw [h.named_iff_take hloop fs, hpath, List.take_eq_self_iff, filePath]

theorem CJob.path_plainGet (n : Nat) :
    (CJob.plainGet n).toRequest.path = 47 :: List.replicate n 97 := by
  have hm : Word (ascii "GET") := by
    unfold Word
    decide
  have hpath : Word (47 :: List.replicate n 97) := by
    intro b hb
    rw [List.mem_cons, List.mem_replicate] at hb
    rcases hb with rfl | ⟨-, rfl⟩ <;> decide
  have hline : cstr (CJob.plainGet n).line = (plainWords (ascii "GET") (List.replicate n 97)).text := by
    rw [← cstr_eq_self (zero_not_mem_plainWords hm hpath), text_plainWords]
    rfl
  have hrequests : (plainWords (ascii "GET") (List.replicate n 97)).Requests .get _ :=
    requests_plainWords rfl hpath
  have hsome := hrequests.path_text (zero_not_mem_plainWords hm hpath)
  rw [← hline] at hsome
  exact congrArg (Option.getD · []) hsome

namespace HasUrl

/-- A path that fits, and is served. -/
theorem named_iff_keepAlive :
    ∃ j, Named (.all ⟨0o100644, 5⟩ (.mapped (ascii "hello"))) (ascii "/a") j := by
  obtain ⟨j, j', hurl, hloop, hpath⟩ := keepAliveGet.comes keepAliveGet_bodyLess default
    ⟨5, by decide⟩ [] (by rw [List.append_nil, length_keepAliveGet]; decide)
  rw [keepAliveGet_path] at hurl hpath
  refine ⟨j', (named_iff hurl hloop _).1.2 (.inl ?_)⟩
  rw [hpath]
  decide

/-- A path of 179 bytes is cut to another one, and the file there is served. -/
theorem not_named :
    ∃ s j j', HasUrl (47 :: List.replicate 178 97) s j ∧
      CJob.processReadLoop s j = (.doRequest, j') ∧
      ¬Named (.all ⟨0o100644, 5⟩ (.mapped (ascii "hello"))) (47 :: List.replicate 178 97) j' := by
  have hlen : (CJob.plainGet 178).toRequest.bytes.length = 196 := CJob.length_plainGet 178
  obtain ⟨j, j', hurl, hloop, hpath⟩ := (CJob.plainGet 178).toRequest.comes
    (CJob.plainGet 178).bodyLess_toRequest default ⟨5, by decide⟩ []
    (by rw [List.append_nil, hlen]; decide)
  rw [CJob.path_plainGet] at hurl hpath
  refine ⟨_, j, j', hurl, hloop, fun hnamed => ?_⟩
  rcases (named_iff_take hurl hloop _).1 hnamed with hcut | hnone
  · rw [hpath, List.take_eq_self_iff, List.length_cons, List.length_replicate] at hcut
    exact absurd hcut (by decide)
  · exact hnone ⟨_, rfl, by decide, by decide⟩

end HasUrl

end VsHttpServer
