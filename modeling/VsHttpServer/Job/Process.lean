import VsHttpServer.Job.Frame
import VsHttpServer.Job.Receive
import VsHttpServer.Job.Write

/-!
# `process`

One call of `CJob::process` on a `Conn`, as the list of the operations it performs
on the `Conn`, its buffers and its bufferevent. The call goes on after `close_conn`
has deleted the `Conn` as if its memory were still there; it ends early when
`strlen` is taken of an `m_file_address` that is not the start of a C string in a
mapping, after which nothing is known.

* `process_eq`: a call that answers is `process_read`, `process_write` and `write`,
  with two calls of `close_conn` if `process_write` returns `false`;
* `disciplined_iff`: the `Conn` is deleted at most once in a call, and not used after
  that, if and only if the answer keeps the connection.
-/

namespace VsHttpServer

open CString Crlf

/-- The C string at `m_file_address`; `none` when there is none, or when its end is
    beyond the mapping. -/
def FileAddress.str : FileAddress → Option (List UInt8)
  | .mapped bytes => if 0 ∈ bytes then some (cstr bytes) else none
  | .unset | .null | .mapFailed => none

/-- A descriptor that `accept` has returned. -/
abbrev Descriptor := { fd : Int // fd ≠ -1 }

/-- A `Conn`: a `CJob`, with the descriptor of its connection. -/
structure ConnJob extends CJob where
  fd : Descriptor

/-- The operations of a call of `process` on its `Conn`. -/
inductive Op
  | processRead
  | processWrite
  /-- `CheckIfInBusyList`, which calls `DeleteConn`. -/
  | deleteConn
  | buffereventFree
  /-- `bufferevent_write` of `m_write_buf`. -/
  | writeHead (bytes : List UInt8)
  /-- `bufferevent_write` of `m_file_address`. -/
  | writeFile (address : FileAddress)
  | unmap
  | init
  deriving DecidableEq

/-- The bytes handed to the output buffer. -/
def Op.output : Op → List UInt8
  | .writeHead bytes => bytes
  | .writeFile address => address.str.getD []
  | _ => []

/-- The bytes the operations hand to the output buffer. -/
def output (ops : List Op) : List UInt8 := ops.flatMap Op.output

namespace CJob

/-- `CJob::unmap`. -/
def unmap (j : CJob) : CJob :=
  if j.fileAddress ≠ .null then { j with fileAddress := .null } else j

/-- `CJob::write`: its operations, and what it returns and leaves, unless it ends
    early. -/
def write (j : CJob) : List Op × Option (Bool × CJob) :=
  let ops := [.writeHead (j.writeBuf.str 0), .writeFile j.fileAddress]
  match j.fileAddress.str with
  | none => (ops, none)
  | some _ =>
    let j := j.unmap
    if j.linger then (ops ++ [.unmap, .init], some (true, j.init))
    else (ops ++ [.unmap], some (false, j))

end CJob

/-- A file system where every path is a file with the given status and mapping. -/
def FileSystem.all (st : FileStat) (address : FileAddress) : FileSystem where
  stat _ := some st
  openRead _ := some []
  mmap _ _ := address

namespace ConnJob

/-- A freshly accepted connection: `memory` is what the fields held that the constructor
    does not set, of which `m_file_address` is no address. -/
def accept (memory : CJob) (fd : Descriptor) : ConnJob :=
  { toCJob := CJob.init { memory with fileAddress := .unset }, fd := fd }

/-- `ReadEventCb` with the bytes `p` pending. -/
def readEvent (c : ConnJob) (p : List UInt8) : ConnJob := { c with toCJob := c.toCJob.readEvent p }

/-- `CJob::close_conn`. The connection is closed twice where it is called twice:
    nothing sets `m_fd` to `-1`. -/
def closeConn (c : ConnJob) (realClose : Bool) : List Op :=
  if realClose ∧ c.fd.1 ≠ -1 then [.deleteConn, .buffereventFree] else []

/-- `CJob::process`: its operations, and what it leaves, unless it ends early. -/
def process (fs : FileSystem) (c : ConnJob) : List Op × Option ConnJob :=
  match c.toCJob.processRead fs with
  | (.noRequest, j) => ([.processRead], some { c with toCJob := j })
  | (readRet, j) =>
    let (writeRet, j) := j.processWrite readRet
    let close := if writeRet then [] else c.closeConn true
    match j.write with
    | (ops, none) => ([.processRead, .processWrite] ++ close ++ ops, none)
    | (ops, some (_, j)) =>
      ([.processRead, .processWrite] ++ close ++ ops ++ close, some { c with toCJob := j })

variable {c : ConnJob} {fs : FileSystem}

@[simp] theorem closeConn_true (c : ConnJob) : c.closeConn true = [.deleteConn, .buffereventFree] :=
  if_pos ⟨rfl, c.fd.2⟩

/-- The code `process_read` returns. -/
def code (fs : FileSystem) (c : ConnJob) : HttpCode := (c.toCJob.processRead fs).1

/-- The job once `process_read` has returned. -/
def parsed (fs : FileSystem) (c : ConnJob) : CJob := (c.toCJob.processRead fs).2

/-- The job once `process_write` has returned. -/
def answered (fs : FileSystem) (c : ConnJob) : CJob :=
  ((c.parsed fs).processWrite (c.code fs)).2

/-- The answer keeps the connection. -/
def Keeps (fs : FileSystem) (c : ConnJob) : Prop := (c.parsed fs).Keeps (c.code fs)

instance (fs : FileSystem) (c : ConnJob) : Decidable (c.Keeps fs) :=
  inferInstanceAs (Decidable ((c.parsed fs).Keeps (c.code fs)))

/-- What a call of `close_conn` adds after `process_write` or `write`. -/
def closing (fs : FileSystem) (c : ConnJob) : List Op :=
  if c.Keeps fs then [] else [.deleteConn, .buffereventFree]

theorem process_of_noRequest (h : c.code fs = .noRequest) :
    c.process fs = ([.processRead], some { c with toCJob := c.parsed fs }) := by
  rw [code] at h
  rw [process, parsed]
  split
  · simp_all
  · simp_all

/-- A call that answers. -/
theorem process_eq (h : c.code fs ≠ .noRequest) :
    c.process fs =
      ([.processRead, .processWrite] ++ c.closing fs ++ (c.answered fs).write.1 ++
          (if (c.answered fs).write.2.isSome then c.closing fs else []),
        (c.answered fs).write.2.map fun r => { c with toCJob := r.2 }) := by
  have hclose : (if ((c.parsed fs).processWrite (c.code fs)).1 then [] else c.closeConn true) =
      c.closing fs := by
    rw [closing, closeConn_true]
    by_cases hk : c.Keeps fs
    · rw [if_pos hk, if_pos ((CJob.processWrite_fst _).2 hk)]
    · rw [if_neg hk, if_neg ((CJob.processWrite_fst _).not.2 hk)]
  rw [process]
  split
  · simp_all [code]
  · rename_i ret j hne hread
    have hcode : c.code fs = ret := congrArg Prod.fst hread
    have hparsed : c.parsed fs = j := congrArg Prod.snd hread
    rw [hcode, hparsed] at hclose
    rw [answered, hcode, hparsed]
    simp only [hclose]
    rcases hw : (j.processWrite ret).2.write with ⟨ops, - | ⟨b, k⟩⟩
    · simp
    · simp

/-! ## The order of the operations -/

/-- The `Conn` is deleted at most once, and no operation comes after that. -/
def Disciplined (ops : List Op) : Prop :=
  ops.count .deleteConn ≤ 1 ∧ ∀ before after, ops = before ++ .deleteConn :: after → after = []

theorem disciplined_of_not_mem {ops : List Op} (h : .deleteConn ∉ ops) : Disciplined ops := by
  refine ⟨(List.count_eq_zero_of_not_mem h).le.trans (Nat.zero_le 1), ?_⟩
  rintro before after rfl
  exact absurd (List.mem_append_right _ List.mem_cons_self) h

/-- `write` does not close the connection. -/
theorem closing_not_mem_write (j : CJob) :
    .deleteConn ∉ j.write.1 ∧ .buffereventFree ∉ j.write.1 := by
  rw [CJob.write]
  split
  · simp
  · simp only
    split_ifs <;> simp

/-- A call deletes its `Conn` if and only if it answers, and the answer does not keep
    the connection. -/
theorem deleteConn_mem_process :
    .deleteConn ∈ (c.process fs).1 ↔ c.code fs ≠ .noRequest ∧ ¬c.Keeps fs := by
  by_cases h : c.code fs = .noRequest
  · rw [process_of_noRequest h]
    simp [h]
  · rw [process_eq h, closing]
    have hw := (closing_not_mem_write (c.answered fs)).1
    by_cases hk : c.Keeps fs
    · simp [hk, hw]
    · simp [h, hk]

/-- In a call of `process`, the `Conn` is deleted at most once, and nothing is done with
    it, its buffers or its bufferevent after that, if and only if there is no answer yet,
    or the answer keeps the connection. -/
theorem disciplined_iff (fs : FileSystem) (c : ConnJob) :
    Disciplined (c.process fs).1 ↔ c.code fs = .noRequest ∨ c.Keeps fs := by
  constructor
  · intro hd
    by_contra hnot
    rw [not_or] at hnot
    -- `bufferevent_free` comes right after the first deletion
    rw [process_eq hnot.1, closing, if_neg hnot.2] at hd
    have := hd.2 [.processRead, .processWrite] _ (by simp; rfl)
    simp at this
  · intro h
    refine disciplined_of_not_mem fun hmem => ?_
    obtain ⟨hcode, hk⟩ := deleteConn_mem_process.1 hmem
    exact h.elim hcode hk

/-- A request delivered at once to a new connection, where every path is a file that may
    be read. -/
theorem code_all (st : FileStat) (address : FileAddress) (hr : st.othersRead = true)
    (hd : st.isDir = false) (memory : CJob) (fd : Descriptor) (q : CJob.BareRequest)
    (hlen : q.bytes.length ≤ readBufferSize) :
    ((accept memory fd).readEvent q.bytes).code (.all st address) = .fileRequest ∧
      (((accept memory fd).readEvent q.bytes).parsed (.all st address)).fileStat = st := by
  obtain ⟨j', hj'⟩ := q.processRead_eq (.all st address) { memory with fileAddress := .unset } hlen
  have hread : CJob.processRead (.all st address) ((accept memory fd).readEvent q.bytes).toCJob =
      CJob.doRequest (.all st address) j' := hj'
  rw [code, parsed, hread]
  rcases CJob.doRequest_cases (.all st address) j' with ⟨hst, -⟩ | ⟨st', hst, hcase⟩
  · cases hst
  · cases hst
    rcases hcase with ⟨hr', -⟩ | ⟨-, hd', -⟩ | ⟨-, -, he⟩
    · rw [hr] at hr'
      cases hr'
    · rw [hd] at hd'
      cases hd'
    · rw [he]
      exact ⟨rfl, rfl⟩

/-- The answer to a request for an empty file does not keep the connection. -/
theorem not_keeps_empty (memory : CJob) (fd : Descriptor) :
    ((accept memory fd).readEvent (CJob.plainGet 0).bytes).code (.all ⟨0o100644, 0⟩ .mapFailed) =
        .fileRequest ∧
      ¬((accept memory fd).readEvent (CJob.plainGet 0).bytes).Keeps
        (.all ⟨0o100644, 0⟩ .mapFailed) := by
  obtain ⟨hcode, hstat⟩ := code_all ⟨0o100644, 0⟩ .mapFailed (by decide)
    (by decide) memory fd (CJob.plainGet 0) (by decide)
  refine ⟨hcode, ?_⟩
  rw [Keeps, CJob.Keeps, hcode, hstat]
  simp [CJob.errorForm]

/-- An empty file is requested: the `Conn` is deleted twice, and used in between. -/
theorem not_disciplined :
    ¬Disciplined (((accept default ⟨5, by decide⟩).readEvent
      (ascii "GET / HTTP/1.1\r\n\r\n")).process (.all ⟨0o100644, 0⟩ .mapFailed)).1 := by
  have hbytes : ascii "GET / HTTP/1.1\r\n\r\n" = (CJob.plainGet 0).bytes := by decide
  obtain ⟨hcode, hkeeps⟩ := not_keeps_empty default ⟨5, by decide⟩
  rw [hbytes, disciplined_iff, hcode]
  simp [hkeeps]

end ConnJob

end VsHttpServer
