import VsHttpServer.Job.Request
import VsHttpServer.Job.Session

/-!
# Requests on a fresh connection

A connection is fresh when its fields are as `init` leaves them: when it was just
accepted, and after every answer that keeps it alive.

* `Fresh.read`: what `process_read` makes of a request without a body;
* `Fresh.read_served`: of a request for a file that can be served;
* `process_file`: the answer to such a request with a keep-alive header, after which the
  connection is fresh again.
-/

namespace VsHttpServer

open CString Crlf Transition

namespace FileSystem

/-- What `do_request` returns for a path. -/
def code (fs : FileSystem) (path : List UInt8) : HttpCode :=
  match fs.stat path with
  | none => .noResource
  | some st =>
    if st.othersRead = false then .forbiddenRequest
    else if st.isDir then .badRequest
    else .fileRequest

/-- The path is one of a non-empty file that others may read and that is no directory,
    and its mapping is `bytes`. -/
structure Serves (fs : FileSystem) (path : List UInt8) (st : FileStat) (bytes : List UInt8) :
    Prop where
  stat : fs.stat path = some st
  othersRead : st.othersRead = true
  isDir : st.isDir = false
  size : st.size ≠ 0
  mmap : fs.mmap (fs.openRead path) st.size = .mapped bytes

theorem Serves.code {fs : FileSystem} {path : List UInt8} {st : FileStat} {bytes : List UInt8}
    (h : fs.Serves path st bytes) : fs.code path = .fileRequest := by
  rw [FileSystem.code, h.stat]
  simp [h.othersRead, h.isDir]

theorem code_ne_noRequest (fs : FileSystem) (path : List UInt8) : fs.code path ≠ .noRequest := by
  rw [FileSystem.code]
  cases fs.stat path with
  | none => simp
  | some st =>
    simp only
    split_ifs <;> simp

theorem serves_all (st : FileStat) (hr : st.othersRead = true) (hd : st.isDir = false)
    (hs : st.size ≠ 0) (path bytes : List UInt8) :
    (FileSystem.all st (.mapped bytes)).Serves path st bytes :=
  ⟨rfl, hr, hd, hs, rfl⟩

end FileSystem

theorem CJob.doRequest_fst (fs : FileSystem) (j : CJob) :
    (doRequest fs j).1 = fs.code j.buildPath.path := by
  rw [FileSystem.code]
  rcases doRequest_cases fs j with ⟨hst, he⟩ | ⟨st, hst, ⟨hr, he⟩ | ⟨hr, hd, he⟩ | ⟨hr, hd, he⟩⟩
  · rw [he, hst]
  · rw [he, hst]
    simp [hr]
  · rw [he, hst]
    simp [hr, hd]
  · rw [he, hst]
    simp [hr, hd]

theorem CJob.doRequest_path (fs : FileSystem) (j : CJob) :
    (doRequest fs j).2.path = j.buildPath.path ∧ (doRequest fs j).2.linger = j.linger := by
  rcases doRequest_cases fs j with ⟨-, he⟩ | ⟨st, -, ⟨-, he⟩ | ⟨-, -, he⟩ | ⟨-, -, he⟩⟩
  all_goals
    rw [he]
    exact ⟨rfl, rfl⟩

namespace ConnJob

variable {c : ConnJob} {fs : FileSystem}

/-! ## The bytes of an answer -/

/-- The bytes of an answer, which comes to its end if `strlen` does: the C string in
    `m_write_buf`, and that at `m_file_address`. -/
theorem process_output (h : c.code fs ≠ .noRequest) :
    (c.process fs).2.isSome = (c.parsed fs).fileAddress.str.isSome ∧
      output (c.process fs).1 =
        (c.answered fs).writeBuf.str 0 ++ (c.parsed fs).fileAddress.str.getD [] := by
  have hclosing : output (c.closing fs) = [] := by
    rw [closing]
    split_ifs <;> rfl
  have hlast : output (if (c.answered fs).write.2.isSome then c.closing fs else []) = [] := by
    split_ifs
    · exact hclosing
    · rfl
  have houtput : ∀ ops ops', output (ops ++ ops') = output ops ++ output ops' := fun ops ops' =>
    List.flatMap_append
  rw [process_eq h, houtput, houtput, houtput, hclosing, hlast, CJob.write, answered_fileAddress]
  cases haddr : (c.parsed fs).fileAddress.str with
  | none => simp [output, Op.output, haddr]
  | some s =>
    simp only
    split_ifs <;> simp [output, Op.output, haddr]

/-- The operations of a call that answers with a file. -/
def fileOps (size : Int) (bytes : List UInt8) : List Op :=
  [.processRead, .processWrite, .writeHead (fileHead size true), .writeFile (.mapped bytes), .unmap,
    .init]

/-- A call that answers a keep-alive request with a file, with no head left from before:
    if the mapping has a NUL, it ends, and the connection is fresh. -/
theorem process_file (h0 : c.writeIdx = 0) (hcode : c.code fs = .fileRequest)
    (hsize : (c.parsed fs).fileStat.size ≠ 0) {bytes : List UInt8}
    (haddr : (c.parsed fs).fileAddress = .mapped bytes) (hlinger : (c.parsed fs).linger = true) :
    (0 ∈ bytes → c.process fs = (fileOps (c.parsed fs).fileStat.size bytes,
        some { c with toCJob := (c.answered fs).unmap.init })) ∧
      (0 ∉ bytes → (c.process fs).2 = none) := by
  have hne : c.code fs ≠ .noRequest := by
    rw [hcode]
    simp
  have haddr' := answered_fileAddress fs c
  rw [haddr] at haddr'
  have hunmap : (c.answered fs).unmap.linger = true := by
    rw [CJob.unmap, haddr', if_pos (by simp), answered_eq, CJob.addTexts_linger]
    exact hlinger
  rw [process_eq hne, closing, if_pos (keeps_file hcode hsize), CJob.write, haddr', FileAddress.str]
  constructor
  · intro hmem
    rw [if_pos hmem]
    simp only [hunmap, if_true, (answered_file h0 hcode hsize).2, hlinger]
    rfl
  · intro hmem
    rw [if_neg hmem]
    rfl

/-- The file that is found can be served if it is not empty and was mapped. -/
theorem serves_iff (hcode : c.code fs = .fileRequest) {bytes : List UInt8} :
    fs.Serves (c.parsed fs).path (c.parsed fs).fileStat bytes ↔
      (c.parsed fs).fileStat.size ≠ 0 ∧ (c.parsed fs).fileAddress = .mapped bytes := by
  obtain ⟨hstat, hr, hd, haddr⟩ := CJob.processRead_fileRequest hcode
  rw [← parsed] at hstat hr hd haddr
  exact ⟨fun h => ⟨h.size, haddr.trans h.mmap⟩, fun h => ⟨hstat, hr, hd, h.1, haddr ▸ h.2⟩⟩

/-! ## Fresh connections -/

/-- The fields are as `init` leaves them. -/
def Fresh (c : ConnJob) : Prop := c.toCJob.init = c.toCJob

theorem fresh_accept (memory : CJob) (fd : Descriptor) : (accept memory fd).Fresh := rfl

theorem Fresh.readEvent (h : c.Fresh) (B : List UInt8) :
    (c.readEvent B).toCJob = c.toCJob.holding B := by
  have hread : c.toCJob.init.readEvent B = c.toCJob.holding B := by
    simp [CJob.readEvent, CJob.holding, CJob.append, CJob.init]
  rw [← hread, h]
  rfl

/-- The loop of `process_read` has come to `do_request`. -/
theorem Fresh.read_loop (h : c.Fresh) (fs : FileSystem) {B : List UInt8} {j' : CJob}
    (hloop : CJob.processReadLoop .lineOk (c.toCJob.holding B) = (.doRequest, j')) :
    (c.readEvent B).code fs = fs.code (filePath (j'.urlText.getD [])) ∧
      ((c.readEvent B).parsed fs).path = filePath (j'.urlText.getD []) ∧
      ((c.readEvent B).parsed fs).linger = j'.linger := by
  have hread : CJob.processRead fs (c.readEvent B).toCJob = CJob.doRequest fs j' := by
    rw [h.readEvent, CJob.processRead, hloop]
  have hlast : j'.realFile.get (filenameLen - 1) = 0 := by
    have hsame := (CJob.sameOutput_processReadLoop .lineOk (c.toCJob.holding B)).realFile
    rw [hloop] at hsame
    rw [hsame]
    exact CharArray.get_zero _
  obtain ⟨hpath, hlinger⟩ := CJob.doRequest_path fs j'
  rw [CJob.path_buildPath hlast] at hpath
  rw [code, parsed, hread]
  exact ⟨(CJob.doRequest_fst fs j').trans (congrArg fs.code (CJob.path_buildPath hlast)), hpath,
    hlinger⟩

/-- What `process_read` makes of a request without a body. -/
theorem Fresh.read (h : c.Fresh) (fs : FileSystem) {q : Request} (hbody : q.BodyLess)
    {rest : List UInt8} (hlen : (q.bytes ++ rest).length ≤ readBufferSize) :
    ((c.readEvent (q.bytes ++ rest)).code fs = fs.code (filePath q.path)) ∧
      ((c.readEvent (q.bytes ++ rest)).parsed fs).path = filePath q.path ∧
      (((c.readEvent (q.bytes ++ rest)).parsed fs).linger = true ↔ q.KeepAlive) := by
  obtain ⟨j', hloop, hurl, hlinger⟩ := q.read hbody c.toCJob hlen
  obtain ⟨hcode, hpath, hsame⟩ := h.read_loop fs hloop
  rw [hurl] at hcode hpath
  exact ⟨hcode, hpath, hsame ▸ hlinger⟩

/-- A request for a file that can be served, with anything after it. -/
theorem Fresh.read_served (h : c.Fresh) {q : Request} (hbody : q.BodyLess)
    {rest : List UInt8} (hlen : (q.bytes ++ rest).length ≤ readBufferSize) {st : FileStat}
    {bytes : List UInt8} (hserves : fs.Serves (filePath q.path) st bytes) :
    (c.readEvent (q.bytes ++ rest)).code fs = .fileRequest ∧
      ((c.readEvent (q.bytes ++ rest)).parsed fs).fileStat = st ∧
      ((c.readEvent (q.bytes ++ rest)).parsed fs).fileAddress = .mapped bytes ∧
      (((c.readEvent (q.bytes ++ rest)).parsed fs).linger = true ↔ q.KeepAlive) := by
  obtain ⟨hcode, hpath, hlinger⟩ := h.read fs hbody hlen
  rw [hserves.code] at hcode
  obtain ⟨hstat, -, -, haddr⟩ := CJob.processRead_fileRequest hcode
  rw [← parsed] at hstat haddr
  rw [hpath, hserves.stat, Option.some.injEq] at hstat
  rw [hpath, ← hstat, hserves.mmap] at haddr
  exact ⟨hcode, hstat.symm, haddr, hlinger⟩

end ConnJob

namespace Session

theorem reachable_accept (memory : CJob) (fd : Descriptor) :
    Reachable (ConnJob.accept memory fd) := ⟨memory, fd, [], _, rfl, rfl, rfl⟩

/-- The first read event of a connection. -/
theorem reachable_readEvent (memory : CJob) (fd : Descriptor) {B : List UInt8}
    (hlen : B.length ≤ readBufferSize) : Reachable ((ConnJob.accept memory fd).readEvent B) := by
  refine ⟨memory, fd, [.readEvent B],
    { start memory fd with conn := (ConnJob.accept memory fd).readEvent B }, ?_, rfl, rfl⟩
  have hidx : (start memory fd).conn.readIdx = 0 := rfl
  rw [exec, step, if_pos ⟨rfl, by rw [hidx]; omega⟩]
  rfl

end Session

/-- The first request of a connection, for a file that can be served. -/
theorem ConnJob.accept_read {fs : FileSystem} (memory : CJob) (fd : Descriptor) {q : Request}
    (hbody : q.BodyLess) (hlen : q.bytes.length ≤ readBufferSize) {st : FileStat}
    {bytes : List UInt8} (hserves : fs.Serves (filePath q.path) st bytes) :
    Session.Reachable ((accept memory fd).readEvent q.bytes) ∧
      ((accept memory fd).readEvent q.bytes).code fs = .fileRequest ∧
      (((accept memory fd).readEvent q.bytes).parsed fs).fileStat = st ∧
      (((accept memory fd).readEvent q.bytes).parsed fs).fileAddress = .mapped bytes ∧
      ((((accept memory fd).readEvent q.bytes).parsed fs).linger = true ↔ q.KeepAlive) := by
  have hread := (fresh_accept memory fd).read_served hbody 
    (show (q.bytes ++ []).length ≤ readBufferSize by rwa [List.append_nil]) hserves
  rw [List.append_nil] at hread
  exact ⟨Session.reachable_readEvent memory fd hlen, hread⟩

end VsHttpServer
