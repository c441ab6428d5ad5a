import VsHttpServer.Job.ProcessRead

/-!
# What `process_read` touches and what it looks at

The parser leaves the fields of the writer as they are, up to the call of
`do_request` (`SameOutput`), and it never turns `m_linger` off. It does not look at
`m_request`, `m_file_address` and `m_file_stat`, the fields that `init` does not set
(`Alike`).

* `processRead_fileRequest`: what is known when `process_read` returns
  `FILE_REQUEST`;
* `Alike.processRead`: jobs that agree but for those three fields are read alike.
-/

namespace VsHttpServer

open CString Crlf

namespace CJob

variable {j k : CJob}

/-! ## The fields of the writer -/

/-- The fields that only `do_request` and the writer change. -/
structure SameOutput (j k : CJob) : Prop where
  writeBuf : k.writeBuf = j.writeBuf
  writeIdx : k.writeIdx = j.writeIdx
  realFile : k.realFile = j.realFile
  fileAddress : k.fileAddress = j.fileAddress
  fileStat : k.fileStat = j.fileStat
  linger : j.linger = true → k.linger = true

theorem SameOutput.refl (j : CJob) : j.SameOutput j := ⟨rfl, rfl, rfl, rfl, rfl, id⟩

theorem SameOutput.trans {l : CJob} (h₁ : j.SameOutput k) (h₂ : k.SameOutput l) :
    j.SameOutput l where
  writeBuf := h₂.writeBuf.trans h₁.writeBuf
  writeIdx := h₂.writeIdx.trans h₁.writeIdx
  realFile := h₂.realFile.trans h₁.realFile
  fileAddress := h₂.fileAddress.trans h₁.fileAddress
  fileStat := h₂.fileStat.trans h₁.fileStat
  linger := h₂.linger ∘ h₁.linger

theorem sameOutput_parseLineLoop (n : Nat) (j : CJob) : j.SameOutput (parseLineLoop n j).2 := by
  induction n generalizing j with
  | zero => exact .refl j
  | succ n ih =>
    simp only [parseLineLoop]
    split_ifs
    · exact .refl j
    · exact ⟨rfl, rfl, rfl, rfl, rfl, id⟩
    · exact .refl j
    · exact ⟨rfl, rfl, rfl, rfl, rfl, id⟩
    · exact .refl j
    · exact .trans (k := { j with checkedIdx := j.checkedIdx + 1 })
        ⟨rfl, rfl, rfl, rfl, rfl, id⟩ (ih _)

theorem sameOutput_applyHeader (j : CJob) (text : Nat) (h : Header) :
    j.SameOutput (j.applyHeader text h).2 := by
  cases h with
  | blank =>
    rw [applyHeader]
    split_ifs <;> exact ⟨rfl, rfl, rfl, rfl, rfl, id⟩
  | connection keepAlive =>
    cases keepAlive
    · exact .refl j
    · exact ⟨rfl, rfl, rfl, rfl, rfl, fun _ => rfl⟩
  | _ => exact ⟨rfl, rfl, rfl, rfl, rfl, id⟩

theorem sameOutput_loopBody (j : CJob) : j.SameOutput j.loopBody.2 := by
  cases hs : j.checkState with
  | requestLine =>
    rw [loopBody_requestLine hs rfl]
    exact ⟨rfl, rfl, rfl, rfl, rfl, id⟩
  | header =>
    by_cases ht : j.readBuf.str j.startLine = []
    · rw [loopBody_blank hs ht]
      split_ifs <;> exact ⟨rfl, rfl, rfl, rfl, rfl, id⟩
    · rw [loopBody_header hs rfl ht]
      exact .trans (k := j.nextLine) ⟨rfl, rfl, rfl, rfl, rfl, id⟩ (sameOutput_applyHeader _ _ _)
  | content =>
    rw [loopBody_content hs]
    split_ifs
    · rw [terminate]
      split_ifs <;> exact ⟨rfl, rfl, rfl, rfl, rfl, id⟩
    · exact ⟨rfl, rfl, rfl, rfl, rfl, id⟩

theorem sameOutput_processReadIter (s : LineStatus) (j : CJob) :
    j.SameOutput (j.processReadIter s).2 :=
  processReadIter_inv (I := j.SameOutput) (fun k hk => hk.trans (sameOutput_parseLineLoop _ k))
    (fun k hk => hk.trans (sameOutput_loopBody k)) s (.refl j)

theorem sameOutput_processReadLoop (s : LineStatus) (j : CJob) :
    j.SameOutput (processReadLoop s j).2 :=
  processReadLoop_inv (I := j.SameOutput) (fun k hk => hk.trans (sameOutput_parseLineLoop _ k))
    (fun k hk => hk.trans (sameOutput_loopBody k)) s (.refl j)

/-! ## Codes -/

theorem loopBody_ret {code : HttpCode} (h : j.loopBody.1 = .leave (.ret code)) :
    code = .badRequest := by
  cases hs : j.checkState with
  | requestLine =>
    rw [loopBody_requestLine hs rfl] at h
    simp only at h
    split_ifs at h
    cases h
    rfl
  | header =>
    by_cases ht : j.readBuf.str j.startLine = []
    · rw [loopBody_blank hs ht] at h
      split_ifs at h
      all_goals cases h
    · rw [loopBody_header hs rfl ht] at h
      cases h
  | content =>
    rw [loopBody_content hs] at h
    split_ifs at h
    all_goals cases h

/-- The codes of `process_read` that are not from `do_request`. -/
theorem processReadLoop_ret {s : LineStatus} {code : HttpCode}
    (h : processReadLoop s j = (.ret code, k)) : code = .noRequest ∨ code = .badRequest := by
  induction s, j using processReadLoop.induct with
  | case1 s j e j' hi =>
    rw [processReadLoop_leave hi] at h
    cases h
    rw [processReadIter] at hi
    split at hi
    · exact .inr (loopBody_ret (congrArg Prod.fst hi))
    · cases hi
      exact .inl rfl
  | case2 s j s' j' hi ih =>
    rw [processReadLoop_next hi] at h
    exact ih h

/-- The path `do_request` gives to `stat` and `open`. -/
def path (j : CJob) : List UInt8 := j.realFile.str 0

/-- The path ends inside `m_real_file`: its last byte is not written. -/
theorem buildPath_get_last (j : CJob) :
    j.buildPath.realFile.get (filenameLen - 1) = j.realFile.get (filenameLen - 1) := by
  have hroot : docRoot.length = 21 := by decide
  have hlen : (strncpyBytes (j.urlText.getD []) (filenameLen - docRoot.length - 1)).length =
      filenameLen - docRoot.length - 1 := by
    rw [strncpyBytes, List.length_append, List.length_take, List.length_replicate]
    omega
  rw [buildPath, CharArray.get_copy (by rw [hroot]; decide), hlen, hroot, if_neg (by decide),
    CharArray.get_copy (Nat.zero_le _), List.length_append, hroot, if_neg (by decide)]

/-- What `do_request` can do. -/
theorem doRequest_cases (fs : FileSystem) (j : CJob) :
    (fs.stat j.buildPath.path = none ∧ doRequest fs j = (.noResource, j.buildPath)) ∨
    ∃ st, fs.stat j.buildPath.path = some st ∧
      ((st.othersRead = false ∧
          doRequest fs j = (.forbiddenRequest, { j.buildPath with fileStat := st })) ∨
        (st.othersRead = true ∧ st.isDir = true ∧
          doRequest fs j = (.badRequest, { j.buildPath with fileStat := st })) ∨
        (st.othersRead = true ∧ st.isDir = false ∧
          doRequest fs j = (.fileRequest, { j.buildPath with
            fileStat := st
            fileAddress := fs.mmap (fs.openRead j.buildPath.path) st.size }))) := by
  rw [path, doRequest]
  simp only
  cases fs.stat (j.buildPath.realFile.str 0) with
  | none => exact .inl ⟨rfl, rfl⟩
  | some st =>
    refine .inr ⟨st, rfl, ?_⟩
    simp only
    cases hr : st.othersRead with
    | false => exact .inl ⟨rfl, rfl⟩
    | true =>
      refine .inr ?_
      cases hd : st.isDir with
      | true => exact .inl ⟨rfl, rfl, rfl⟩
      | false => exact .inr ⟨rfl, rfl, rfl⟩

/-- `process_read` returns a code of its own, or what `do_request` returns. -/
theorem processRead_cases (fs : FileSystem) (j : CJob) :
    (∃ code, (code = .noRequest ∨ code = .badRequest) ∧
        processReadLoop .lineOk j = (.ret code, (processReadLoop .lineOk j).2) ∧
        processRead fs j = (code, (processReadLoop .lineOk j).2)) ∨
      (processReadLoop .lineOk j = (.doRequest, (processReadLoop .lineOk j).2) ∧
        processRead fs j = doRequest fs (processReadLoop .lineOk j).2) := by
  rw [processRead]
  rcases hl : processReadLoop .lineOk j with ⟨code | -, k⟩
  · exact .inl ⟨code, processReadLoop_ret hl, rfl, rfl⟩
  · exact .inr ⟨rfl, rfl⟩

/-- `process_read` writes nothing to `m_write_buf`, and does not turn `m_linger` off. -/
theorem processRead_writer (fs : FileSystem) (j : CJob) :
    (processRead fs j).2.writeBuf = j.writeBuf ∧ (processRead fs j).2.writeIdx = j.writeIdx ∧
      (j.linger = true → (processRead fs j).2.linger = true) := by
  have hsame := sameOutput_processReadLoop .lineOk j
  rcases processRead_cases fs j with ⟨code, -, -, he⟩ | ⟨-, he⟩
  · rw [he]
    exact ⟨hsame.writeBuf, hsame.writeIdx, hsame.linger⟩
  · rw [he]
    rcases doRequest_cases fs (processReadLoop .lineOk j).2 with
      ⟨-, hd⟩ | ⟨st, -, ⟨-, hd⟩ | ⟨-, -, hd⟩ | ⟨-, -, hd⟩⟩
    all_goals
      rw [hd]
      exact ⟨hsame.writeBuf, hsame.writeIdx, hsame.linger⟩

theorem processRead_realFile (fs : FileSystem) (j : CJob) :
    (processRead fs j).2.realFile.get (filenameLen - 1) = j.realFile.get (filenameLen - 1) := by
  have hsame := (sameOutput_processReadLoop .lineOk j).realFile
  have hlast := buildPath_get_last (processReadLoop .lineOk j).2
  rw [hsame] at hlast
  rcases processRead_cases fs j with ⟨code, -, -, he⟩ | ⟨-, he⟩
  · rw [he, hsame]
  · rw [he]
    rcases doRequest_cases fs (processReadLoop .lineOk j).2 with
      ⟨-, hd⟩ | ⟨st, -, ⟨-, hd⟩ | ⟨-, -, hd⟩ | ⟨-, -, hd⟩⟩
    all_goals
      rw [hd]
      exact hlast

/-- What is known when `process_read` returns `FILE_REQUEST`: `stat` has found a file
    that may be read, and the mapping is made for this call. -/
theorem processRead_fileRequest {fs : FileSystem} (h : (processRead fs j).1 = .fileRequest) :
    fs.stat (processRead fs j).2.path = some (processRead fs j).2.fileStat ∧
      (processRead fs j).2.fileStat.othersRead = true ∧
      (processRead fs j).2.fileStat.isDir = false ∧
      (processRead fs j).2.fileAddress =
        fs.mmap (fs.openRead (processRead fs j).2.path) (processRead fs j).2.fileStat.size := by
  rcases processRead_cases fs j with ⟨code, hcode, -, he⟩ | ⟨-, he⟩
  · rw [he] at h
    rcases hcode with rfl | rfl <;> cases h
  · rcases doRequest_cases fs (processReadLoop .lineOk j).2 with ⟨-, hd⟩ | ⟨st, hst, hd⟩
    · rw [he, hd] at h
      cases h
    · rcases hd with ⟨-, hd⟩ | ⟨-, -, hd⟩ | ⟨hr, hdir, hd⟩
      · rw [he, hd] at h
        cases h
      · rw [he, hd] at h
        cases h
      · rw [he, hd]
        exact ⟨hst, hr, hdir, rfl⟩

/-- No mapping is made in a call that returns another code. -/
theorem processRead_fileAddress {fs : FileSystem} (h : (processRead fs j).1 ≠ .fileRequest) :
    (processRead fs j).2.fileAddress = j.fileAddress := by
  have hsame := (sameOutput_processReadLoop .lineOk j).fileAddress
  rcases processRead_cases fs j with ⟨code, -, -, he⟩ | ⟨-, he⟩
  · rw [he]
    exact hsame
  · rw [he] at h ⊢
    rcases doRequest_cases fs (processReadLoop .lineOk j).2 with
      ⟨-, hd⟩ | ⟨st, -, ⟨-, hd⟩ | ⟨-, -, hd⟩ | ⟨-, -, hd⟩⟩
    all_goals rw [hd] at h ⊢
    exacts [hsame, hsame, hsame, absurd rfl h]

/-! ## The fields that `init` does not set -/

/-- The jobs agree but for the fields that `init` leaves as they are. -/
def Alike (j k : CJob) : Prop :=
  ∃ request address stat,
    k = { j with request := request, fileAddress := address, fileStat := stat }

theorem Alike.parseLineLoop (h : j.Alike k) (n : Nat) :
    (parseLineLoop n k).1 = (parseLineLoop n j).1 ∧
      (parseLineLoop n j).2.Alike (parseLineLoop n k).2 := by
  obtain ⟨request, address, stat, rfl⟩ := h
  induction n generalizing j with
  | zero => exact ⟨rfl, _, _, _, rfl⟩
  | succ n ih =>
    simp only [CJob.parseLineLoop]
    split_ifs
    · exact ⟨rfl, _, _, _, rfl⟩
    · exact ⟨rfl, _, _, _, rfl⟩
    · exact ⟨rfl, _, _, _, rfl⟩
    · exact ⟨rfl, _, _, _, rfl⟩
    · exact ⟨rfl, _, _, _, rfl⟩
    · exact ih (j := { j with checkedIdx := j.checkedIdx + 1 })

theorem Alike.applyHeader (h : j.Alike k) (text : Nat) (x : Header) :
    (k.applyHeader text x).1 = (j.applyHeader text x).1 ∧
      (j.applyHeader text x).2.Alike (k.applyHeader text x).2 := by
  obtain ⟨request, address, stat, rfl⟩ := h
  cases x with
  | blank =>
    simp only [CJob.applyHeader]
    split_ifs <;> exact ⟨rfl, _, _, _, rfl⟩
  | connection keepAlive => cases keepAlive <;> exact ⟨rfl, _, _, _, rfl⟩
  | _ => exact ⟨rfl, _, _, _, rfl⟩

theorem Alike.terminate (h : j.Alike k) (text : Nat) :
    (j.terminate text).Alike (k.terminate text) := by
  obtain ⟨request, address, stat, rfl⟩ := h
  by_cases hc : 0 ≤ text + j.contentLength
  · rw [CJob.terminate, CJob.terminate, if_pos hc, if_pos (by exact hc)]
    exact ⟨_, _, _, rfl⟩
  · rw [CJob.terminate, CJob.terminate, if_neg hc, if_neg (by exact hc)]
    exact ⟨_, _, _, rfl⟩

theorem Alike.fields (h : j.Alike k) :
    k.readBuf = j.readBuf ∧ k.startLine = j.startLine ∧ k.checkState = j.checkState := by
  obtain ⟨request, address, stat, rfl⟩ := h
  exact ⟨rfl, rfl, rfl⟩

/-- The code that `parse_request_line` returns is the one it has stored in `m_request`
    itself. -/
theorem Alike.loopBody (h : j.Alike k) :
    k.loopBody.1 = j.loopBody.1 ∧ j.loopBody.2.Alike k.loopBody.2 := by
  obtain ⟨hbuf, hstart, hstate⟩ := h.fields
  obtain ⟨t, ht⟩ : ∃ t, j.readBuf.str j.startLine = t := ⟨_, rfl⟩
  have ht' : k.readBuf.str k.startLine = t := by rw [hbuf, hstart, ht]
  cases hs : j.checkState with
  | requestLine =>
    rw [loopBody_requestLine hs ht, loopBody_requestLine (hstate.trans hs) ht']
    obtain ⟨request, address, stat, rfl⟩ := h
    exact ⟨rfl, _, _, _, rfl⟩
  | header =>
    by_cases hblank : t = []
    · subst hblank
      rw [loopBody_blank hs ht, loopBody_blank (hstate.trans hs) ht']
      obtain ⟨request, address, stat, rfl⟩ := h
      by_cases hb : j.BodyLess
      · rw [if_pos hb, if_pos (by exact hb)]
        exact ⟨rfl, _, _, _, rfl⟩
      · rw [if_neg hb, if_neg (by exact hb)]
        exact ⟨rfl, _, _, _, rfl⟩
    · rw [loopBody_header hs ht hblank, loopBody_header (hstate.trans hs) ht' hblank]
      obtain ⟨request, address, stat, rfl⟩ := h
      exact ⟨rfl, (Alike.applyHeader (j := j.nextLine) ⟨request, address, stat, rfl⟩ _ _).2⟩
  | content =>
    rw [loopBody_content hs, loopBody_content (hstate.trans hs)]
    obtain ⟨request, address, stat, rfl⟩ := h
    by_cases hc : toInt32 (j.contentLength + j.checkedIdx) ≤ j.readIdx
    · rw [if_pos hc, if_pos (by exact hc)]
      exact ⟨rfl, Alike.terminate (j := j.nextLine) ⟨request, address, stat, rfl⟩ _⟩
    · rw [if_neg hc, if_neg (by exact hc)]
      exact ⟨rfl, _, _, _, rfl⟩

theorem Alike.processReadIter (h : j.Alike k) (s : LineStatus) :
    (k.processReadIter s).1 = (j.processReadIter s).1 ∧
      (j.processReadIter s).2.Alike (k.processReadIter s).2 := by
  have hstate : k.checkState = j.checkState := by
    obtain ⟨request, address, stat, rfl⟩ := h
    rfl
  have hline : k.parseLine.1 = j.parseLine.1 ∧ j.parseLine.2.Alike k.parseLine.2 := by
    have hcount : k.readIdx - k.checkedIdx = j.readIdx - j.checkedIdx := by
      obtain ⟨request, address, stat, rfl⟩ := h
      rfl
    rw [parseLine, parseLine, hcount]
    exact h.parseLineLoop _
  rw [CJob.processReadIter, CJob.processReadIter, loopCondition, loopCondition, hstate]
  split_ifs
  · exact h.loopBody
  · rcases hj : j.parseLine with ⟨st, jl⟩
    rcases hk : k.parseLine with ⟨st', kl⟩
    rw [hj, hk] at hline
    obtain ⟨rfl, hl⟩ := hline
    cases st' with
    | lineOk => exact hl.loopBody
    | _ => exact ⟨rfl, hl⟩

theorem Alike.processReadLoop (h : j.Alike k) (s : LineStatus) :
    (processReadLoop s k).1 = (processReadLoop s j).1 ∧
      (processReadLoop s j).2.Alike (processReadLoop s k).2 := by
  induction s, j using CJob.processReadLoop.induct generalizing k with
  | case1 s j e j' hi =>
    obtain ⟨hflow, hrest⟩ := h.processReadIter s
    rcases hk : k.processReadIter s with ⟨flow, k'⟩
    rw [hi, hk] at hflow hrest
    cases hflow
    rw [processReadLoop_leave hi, processReadLoop_leave hk]
    exact ⟨rfl, hrest⟩
  | case2 s j s' j' hi ih =>
    obtain ⟨hflow, hrest⟩ := h.processReadIter s
    rcases hk : k.processReadIter s with ⟨flow, k'⟩
    rw [hi, hk] at hflow hrest
    cases hflow
    rw [processReadLoop_next hi, processReadLoop_next hk]
    exact ih hrest

/-- `do_request` looks at none of the three fields, and sets two of them when it returns
    `FILE_REQUEST`. -/
theorem Alike.doRequest (h : j.Alike k) (fs : FileSystem) :
    (doRequest fs k).1 = (doRequest fs j).1 ∧ (doRequest fs j).2.Alike (doRequest fs k).2 ∧
      ((doRequest fs j).1 = .fileRequest →
        (doRequest fs k).2.fileStat = (doRequest fs j).2.fileStat) := by
  obtain ⟨request, address, stat, rfl⟩ := h
  have hbuild : CJob.buildPath { j with request := request, fileAddress := address, fileStat := stat } =
      { j.buildPath with request := request, fileAddress := address, fileStat := stat } := rfl
  simp only [CJob.doRequest, hbuild]
  cases fs.stat (j.buildPath.realFile.str 0) with
  | none => exact ⟨rfl, ⟨_, _, _, rfl⟩, by simp⟩
  | some st =>
    simp only
    split_ifs
    · exact ⟨rfl, ⟨_, _, _, rfl⟩, by simp⟩
    · exact ⟨rfl, ⟨_, _, _, rfl⟩, by simp⟩
    · exact ⟨rfl, ⟨_, _, _, rfl⟩, fun _ => rfl⟩

/-- Jobs that agree but for the three fields are read alike. -/
theorem Alike.processRead (h : j.Alike k) (fs : FileSystem) :
    (processRead fs k).1 = (processRead fs j).1 ∧ (processRead fs j).2.Alike (processRead fs k).2 ∧
      ((processRead fs j).1 = .fileRequest →
        (processRead fs k).2.fileStat = (processRead fs j).2.fileStat) := by
  obtain ⟨hexit, hrest⟩ := h.processReadLoop .lineOk
  rcases hk : CJob.processReadLoop .lineOk k with ⟨exit, k'⟩
  rw [hk] at hexit hrest
  rcases processRead_cases fs j with ⟨code, hcode, hj, he⟩ | ⟨hj, he⟩
  · rw [hj] at hexit
    cases hexit
    rw [he, CJob.processRead, hk]
    refine ⟨rfl, hrest, fun hfile => ?_⟩
    rcases hcode with rfl | rfl <;> cases hfile
  · rw [hj] at hexit
    cases hexit
    rw [he, CJob.processRead, hk]
    exact hrest.doRequest fs

end CJob

end VsHttpServer
