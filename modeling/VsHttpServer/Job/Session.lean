import VsHttpServer.Job.Process
import VsHttpServer.Transition

/-!
# The life of a connection

A connection from its acceptance on: read events, which copy bytes to `m_read_buf`
as long as they stay in it, and calls of `process`, each with the outcomes that
`stat`, `open` and `mmap` have then. Nothing more is done with a connection that a
call has deleted, or after a call that ended early.

* `AtRest`: what holds between the steps;
* `bodyMapped_iff`: `write` is always given the mapping made for the request, if and
  only if every answer is for a file that could be mapped.
-/

namespace VsHttpServer

open CString Crlf Transition

/-- A call of `process`: the code of `process_read`, the path in `m_real_file`, the mapping
    that `do_request` has made, and the operations. -/
structure ProcessCall where
  code : HttpCode
  path : List UInt8
  mapping : Option FileAddress
  ops : List Op

/-- A connection, with the calls of `process` on it. -/
structure Session where
  conn : ConnJob
  /-- The `Conn` has not been deleted, and no call has ended early. -/
  live : Bool
  calls : List ProcessCall

namespace ConnJob

/-- The mapping that `do_request` makes in a call of `process`. -/
def mapping (fs : FileSystem) (c : ConnJob) : Option FileAddress :=
  if c.code fs = .fileRequest then
    some (fs.mmap (fs.openRead (c.parsed fs).path) (c.parsed fs).fileStat.size)
  else none

def call (fs : FileSystem) (c : ConnJob) : ProcessCall where
  code := c.code fs
  path := (c.parsed fs).path
  mapping := c.mapping fs
  ops := (c.process fs).1

end ConnJob

namespace Session

/-- A freshly accepted connection. -/
def start (memory : CJob) (fd : Descriptor) : Session where
  conn := .accept memory fd
  live := true
  calls := []

inductive Action
  | readEvent (bytes : List UInt8)
  | process (fs : FileSystem)

/-- The session after a call of `process`. -/
def processed (s : Session) (fs : FileSystem) : Session where
  conn := (s.conn.process fs).2.getD s.conn
  live := (s.conn.process fs).2.isSome ∧ .deleteConn ∉ (s.conn.process fs).1
  calls := s.calls ++ [s.conn.call fs]

def step (s : Session) : Action → Option Session
  | .readEvent bytes =>
    if s.live ∧ s.conn.readIdx + bytes.length ≤ readBufferSize then
      some { s with conn := s.conn.readEvent bytes }
    else none
  | .process fs => if s.live then some (s.processed fs) else none

/-- The connection `c` can be reached, and is still there. -/
def Reachable (c : ConnJob) : Prop :=
  ∃ memory fd as s, exec step (start memory fd) as = some s ∧ s.live = true ∧ s.conn = c

end Session

/-! ## Between the steps -/

/-- The buffer of the head holds text, and begins with a whole head, up to its empty line. -/
def CJob.Pending (j : CJob) : Prop :=
  ∃ ls : List (List UInt8), (∀ x ∈ ls, Plain x ∧ x ≠ []) ∧
    (ls.flatMap terminated ++ terminated []).length ≤ 72 ∧
    (ls.flatMap terminated ++ terminated []).length ≤ j.writeIdx ∧
    (∀ k (hk : k < (ls.flatMap terminated ++ terminated []).length),
      j.writeBuf.get k = (ls.flatMap terminated ++ terminated [])[k]) ∧
    ∀ k < j.writeIdx, j.writeBuf.get k ≠ 0

namespace ConnJob

variable {c : ConnJob} {fs : FileSystem}

/-- What holds of a connection between the steps. -/
structure AtRest (c : ConnJob) : Prop where
  room : c.Room
  /-- No mapping is left. -/
  address : ∀ bytes, c.fileAddress ≠ .mapped bytes
  realFile : c.realFile.get (filenameLen - 1) = 0
  /-- No head is left either, but those of answers that did not keep the connection alive. -/
  head : c.writeIdx = 0 ∨ c.Pending

theorem answered_eq (fs : FileSystem) (c : ConnJob) :
    c.answered fs = (c.parsed fs).addTexts ((c.parsed fs).responseTexts (c.code fs)) :=
  CJob.processWrite_snd _

theorem answered_fileAddress (fs : FileSystem) (c : ConnJob) :
    (c.answered fs).fileAddress = (c.parsed fs).fileAddress := by
  rw [answered_eq, CJob.addTexts_eq]

/-! ## Answers for files -/

/-- The head of the answer for a file. -/
def fileHead (size : Int) (linger : Bool) : List UInt8 :=
  (CJob.headTexts 200 ok200Title (toInt32 size) linger).flatten

/-- The texts of the answer for a file that is not empty. -/
theorem responseTexts_file (hcode : c.code fs = .fileRequest)
    (hsize : (c.parsed fs).fileStat.size ≠ 0) :
    (c.parsed fs).responseTexts (c.code fs) = CJob.headTexts 200 ok200Title
      (toInt32 (c.parsed fs).fileStat.size) (c.parsed fs).linger := by
  rw [hcode, CJob.responseTexts]
  simp [CJob.errorForm, hsize]

/-- With no head left from before, the head of the answer for a file fits. -/
theorem answered_file (h0 : c.writeIdx = 0) (hcode : c.code fs = .fileRequest)
    (hsize : (c.parsed fs).fileStat.size ≠ 0) :
    (c.answered fs).writeIdx = (fileHead (c.parsed fs).fileStat.size (c.parsed fs).linger).length ∧
      (c.answered fs).writeBuf.str 0 =
        fileHead (c.parsed fs).fileStat.size (c.parsed fs).linger := by
  have hidx : (c.parsed fs).writeIdx = 0 := (CJob.processRead_writer fs c.toCJob).2.1.trans h0
  have hroom : (c.parsed fs).Room := by
    rw [CJob.Room, hidx]
    decide
  have hplain : CJob.Plain ok200Title := by decide
  have hfits : CJob.Fits (c.parsed fs).writeIdx (CJob.headTexts 200 ok200Title
      (toInt32 (c.parsed fs).fileStat.size) (c.parsed fs).linger).flatten := by
    rw [CJob.Fits, hidx, Nat.zero_add]
    exact (CJob.length_headTexts_le _ _).trans_lt (by decide)
  have hadd := CJob.addTexts_of_fits hroom (CJob.headTexts_ne_zero hplain _ _ _)
    (by simp [CJob.headTexts]) hfits
  rwa [hidx, Nat.zero_add, ← responseTexts_file hcode hsize, ← answered_eq,
    responseTexts_file hcode hsize] at hadd

theorem keeps_file (hcode : c.code fs = .fileRequest) (hsize : (c.parsed fs).fileStat.size ≠ 0) :
    c.Keeps fs := .inl ⟨hcode, hsize⟩

/-! ## Connections at rest -/

/-- A call that finds a C string at `m_file_address` is one for a file it has mapped. -/
theorem AtRest.code_eq (h : c.AtRest) (hstr : (c.answered fs).write.2.isSome) :
    c.code fs = .fileRequest ∧ ∃ bytes, (c.parsed fs).fileAddress = .mapped bytes ∧ 0 ∈ bytes := by
  have haddr := answered_fileAddress fs c
  have hmapped : ∃ bytes, (c.parsed fs).fileAddress = .mapped bytes ∧ 0 ∈ bytes := by
    rw [CJob.write, haddr] at hstr
    cases ha : (c.parsed fs).fileAddress with
    | mapped bytes =>
      refine ⟨bytes, rfl, ?_⟩
      by_contra h0
      simp [ha, FileAddress.str, h0] at hstr
    | _ => simp [ha, FileAddress.str] at hstr
  refine ⟨?_, hmapped⟩
  by_contra hcode
  obtain ⟨bytes, hb, -⟩ := hmapped
  rw [parsed, CJob.processRead_fileAddress hcode] at hb
  exact h.address bytes hb

theorem AtRest.readEvent (h : c.AtRest) (B : List UInt8) : (c.readEvent B).AtRest :=
  ⟨h.room, h.address, h.realFile, h.head⟩

theorem AtRest.parsed (h : c.AtRest) (fs : FileSystem) : (c.parsed fs).Room ∧
    (c.parsed fs).realFile.get (filenameLen - 1) = 0 := by
  obtain ⟨-, hidx, -⟩ := CJob.processRead_writer fs c.toCJob
  refine ⟨?_, ?_⟩
  · rw [CJob.Room, ConnJob.parsed, hidx]
    exact h.room
  · rw [ConnJob.parsed, CJob.processRead_realFile]
    exact h.realFile

theorem AtRest.length_path_lt (h : c.AtRest) (fs : FileSystem) :
    (c.parsed fs).path.length < filenameLen := by
  by_contra hlong
  have hk : filenameLen - 1 < (c.parsed fs).path.length := by
    rw [filenameLen] at hlong ⊢
    omega
  have hget := CharArray.get_of_str (a := (c.parsed fs).realFile) (o := 0) rfl (filenameLen - 1) hk
  rw [Nat.zero_add, (h.parsed fs).2] at hget
  exact zero_not_mem_cstr _ (hget ▸ List.getElem_mem hk)

/-- The answer for a file: a head is added to what was pending. -/
theorem AtRest.pending (h : c.AtRest) (hcode : c.code fs = .fileRequest) (hk : c.Keeps fs) :
    (c.answered fs).Pending := by
  obtain ⟨hbuf, hidx, -⟩ := CJob.processRead_writer fs c.toCJob
  rw [← ConnJob.parsed] at hbuf hidx
  have hroom := (h.parsed fs).1
  rw [answered_eq]
  have htext := CJob.addTexts_ne_zero hroom ((c.parsed fs).responseTexts_ne_zero (c.code fs))
  rcases h.head with h0 | ⟨ls, hls, hshort, hlen, hget, hne⟩
  · -- the head is the first in the buffer
    have hsize : (c.parsed fs).fileStat.size ≠ 0 := by
      rcases hk with ⟨-, hs⟩ | ⟨he, -⟩
      · exact hs
      · rw [hcode] at he
        cases he
    obtain ⟨hnew, hstr⟩ := answered_file h0 hcode hsize
    rw [fileHead, CJob.flatten_headTexts, answered_eq] at hnew hstr
    rw [h0] at hidx
    refine ⟨_, CJob.plain_headLines (by decide) _ _ _,
      CJob.flatten_headTexts _ _ _ _ ▸ CJob.length_headTexts_le _ _, hnew.ge, fun k hk => ?_,
      htext fun k hk => absurd hk (by omega)⟩
    have := CharArray.get_of_str hstr k hk
    rwa [Nat.zero_add] at this
  · refine ⟨ls, hls, hshort, hlen.trans ?_, fun k hk => ?_, htext ?_⟩
    · rw [← hidx]
      exact CJob.le_addTexts_writeIdx _
    · rw [CJob.get_addTexts hroom _ (by omega), hbuf]
      exact hget k hk
    · rwa [hidx, hbuf]

/-- A call that does not answer yet changes nothing that `process_write` uses. -/
theorem AtRest.process_of_noRequest (h : c.AtRest) (hno : c.code fs = .noRequest) {c' : ConnJob}
    (hp : (c.process fs).2 = some c') : c'.AtRest := by
  rw [ConnJob.process_of_noRequest hno] at hp
  cases hp
  obtain ⟨hbuf, hidx, -⟩ := CJob.processRead_writer fs c.toCJob
  refine ⟨(h.parsed fs).1, ?_, (h.parsed fs).2, ?_⟩
  · have haddr := CJob.processRead_fileAddress
      (show c.code fs ≠ .fileRequest by rw [hno]; simp)
    rw [← ConnJob.parsed] at haddr
    exact haddr ▸ h.address
  · rw [CJob.Pending]
    simp only
    rw [ConnJob.parsed, hbuf, hidx]
    exact h.head

/-- After an answer that keeps the connection, it is reset, or the head stays in the buffer. -/
theorem AtRest.process_of_keeps (h : c.AtRest) (hno : c.code fs ≠ .noRequest) (hk : c.Keeps fs)
    {c' : ConnJob} (hp : (c.process fs).2 = some c') : c'.AtRest := by
  rw [process_eq hno] at hp
  have hsome : (c.answered fs).write.2.isSome := by
    obtain ⟨r, hr, -⟩ := Option.map_eq_some_iff.1 hp
    rw [hr]
    rfl
  obtain ⟨hcode, bytes, haddr, h0⟩ := h.code_eq hsome
  have hstr : (c.answered fs).fileAddress.str = some (cstr bytes) := by
    rw [answered_eq, CJob.addTexts_eq, haddr, FileAddress.str, if_pos h0]
  have hunmap : (c.answered fs).unmap = { c.answered fs with fileAddress := .null } := by
    rw [CJob.unmap, if_pos]
    rw [answered_eq, CJob.addTexts_eq, haddr]
    simp
  have hfile : (c.answered fs).realFile.get (filenameLen - 1) = 0 := by
    rw [answered_eq, CJob.addTexts_eq]
    exact (h.parsed fs).2
  simp only [CJob.write, hstr, hunmap] at hp
  split_ifs at hp
  · -- `init`
    cases hp
    exact ⟨(by decide : 0 < writeBufferSize - 1), fun _ => by simp [CJob.init], CharArray.get_zero _,
      .inl rfl⟩
  · cases hp
    refine ⟨?_, fun _ => by simp, hfile, .inr (h.pending hcode hk)⟩
    have hroom := CJob.Room.addTexts (h.parsed fs).1
      ((c.parsed fs).responseTexts (c.code fs))
    rwa [← answered_eq] at hroom

/-- A call of `process` that leaves the connection there. -/
theorem AtRest.process (h : c.AtRest) {c' : ConnJob} (hp : (c.process fs).2 = some c')
    (hlive : .deleteConn ∉ (c.process fs).1) : c'.AtRest := by
  by_cases hno : c.code fs = .noRequest
  · exact h.process_of_noRequest hno hp
  · have hk : c.Keeps fs := by
      by_contra hk
      exact hlive (deleteConn_mem_process.2 ⟨hno, hk⟩)
    exact h.process_of_keeps hno hk hp

end ConnJob

namespace Session

/-- The invariant of a session: between the steps, a connection that is still there is
    at rest. -/
def Inv (s : Session) : Prop := s.live = true → s.conn.AtRest

theorem inv_start (memory : CJob) (fd : Descriptor) : (start memory fd).Inv := fun _ =>
  ⟨(by decide : 0 < writeBufferSize - 1), nofun, CharArray.get_zero _, .inl rfl⟩

theorem Inv.step {s s' : Session} {a : Action} (h : s.Inv) (hs : s.step a = some s') : s'.Inv := by
  intro hlive
  cases a with
  | readEvent bytes =>
    obtain ⟨hok, he⟩ := Option.ite_none_right_eq_some.1 hs
    cases he
    exact (h hlive).readEvent bytes
  | process fs =>
    obtain ⟨hok, he⟩ := Option.ite_none_right_eq_some.1 hs
    cases he
    have hkept : (s.conn.process fs).2.isSome ∧ .deleteConn ∉ (s.conn.process fs).1 :=
      of_decide_eq_true hlive
    obtain ⟨c', hc'⟩ := Option.isSome_iff_exists.1 hkept.1
    rw [processed, hc']
    exact (h hok).process hc' hkept.2

theorem Reachable.atRest {c : ConnJob} (h : Reachable c) : c.AtRest := by
  obtain ⟨memory, fd, as, s, hs, hlive, rfl⟩ := h
  exact exec_inv (fun s a s' => Inv.step) (inv_start memory fd) hs hlive

end Session

/-! ## The body -/

namespace ProcessCall

/-- What is written of `m_file_address` is the mapping that `do_request` has made in the
    call, and `unmap` was not called before. -/
def BodyMapped (p : ProcessCall) : Prop :=
  ∀ a, .writeFile a ∈ p.ops → p.mapping = some a ∧ (∃ bytes, a = .mapped bytes) ∧
    .unmap ∉ p.ops.takeWhile (· ≠ .writeFile a)

/-- `strlen` is not taken of an `m_file_address` that is not set, null or `MAP_FAILED`. -/
def StrlenValid (p : ProcessCall) : Prop := ∀ a, .writeFile a ∈ p.ops → ∃ bytes, a = .mapped bytes

end ProcessCall

namespace ConnJob

variable {c : ConnJob} {fs : FileSystem}

/-- There is no answer yet, or it is for a file that was mapped. -/
def MapsFile (fs : FileSystem) (c : ConnJob) : Prop :=
  c.code fs = .noRequest ∨ ∃ bytes, c.mapping fs = some (.mapped bytes)

/-- In a call that answers, `m_file_address` is written once. -/
theorem process_ops (h : c.code fs ≠ .noRequest) : ∃ before after,
    (c.process fs).1 = before ++ .writeFile (c.parsed fs).fileAddress :: after ∧
      .unmap ∉ before ∧ ∀ a, .writeFile a ∉ before ∧ .writeFile a ∉ after := by
  have hwrite : ∃ rest, (c.answered fs).write.1 = [.writeHead ((c.answered fs).writeBuf.str 0),
      .writeFile (c.parsed fs).fileAddress] ++ rest ∧ ∀ a, .writeFile a ∉ rest := by
    rw [CJob.write, answered_fileAddress]
    split
    · exact ⟨[], rfl, by simp⟩
    · simp only
      split_ifs
      · exact ⟨_, rfl, by simp⟩
      · exact ⟨_, rfl, by simp⟩
  have hclosing : .unmap ∉ c.closing fs ∧ ∀ a, .writeFile a ∉ c.closing fs := by
    rw [closing]
    split_ifs <;> simp
  obtain ⟨rest, hrest, hnot⟩ := hwrite
  refine ⟨[.processRead, .processWrite] ++ c.closing fs ++ [.writeHead ((c.answered fs).writeBuf.str 0)],
    rest ++ if (c.answered fs).write.2.isSome then c.closing fs else [], ?_, ?_, fun a => ⟨?_, ?_⟩⟩
  · rw [process_eq h, hrest]
    simp
  · simp [hclosing.1]
  · simp [hclosing.2]
  · split_ifs <;> simp [hnot, hclosing.2]

theorem mem_process_writeFile (h : c.code fs ≠ .noRequest) (a : FileAddress) :
    .writeFile a ∈ (c.process fs).1 ↔ a = (c.parsed fs).fileAddress := by
  obtain ⟨before, after, hops, -, hnot⟩ := process_ops h
  rw [hops, List.mem_append, List.mem_cons]
  simp [hnot]

/-- A mapping made in the call is what `m_file_address` is then. -/
theorem mapping_eq {a : FileAddress} (h : c.mapping fs = some a) :
    c.code fs = .fileRequest ∧ (c.parsed fs).fileAddress = a := by
  rw [mapping] at h
  split_ifs at h with hcode
  exact ⟨hcode, (CJob.processRead_fileRequest hcode).2.2.2.trans (Option.some.inj h)⟩

theorem mapping_of_fileRequest (h : c.code fs = .fileRequest) :
    c.mapping fs = some (c.parsed fs).fileAddress := by
  rw [mapping, if_pos h]
  exact congrArg some (CJob.processRead_fileRequest h).2.2.2.symm

theorem bodyMapped_call_iff : (c.call fs).BodyMapped ↔ c.MapsFile fs := by
  by_cases hno : c.code fs = .noRequest
  · refine iff_of_true (fun a ha => ?_) (.inl hno)
    rw [call, process_of_noRequest hno] at ha
    simp at ha
  · constructor
    · intro h
      obtain ⟨hmap, ⟨bytes, hb⟩, -⟩ := h _ ((mem_process_writeFile hno _).2 rfl)
      exact .inr ⟨bytes, hb ▸ hmap⟩
    · rintro (h | ⟨bytes, hmap⟩) a ha
      · exact absurd h hno
      · obtain rfl := (mem_process_writeFile hno a).1 ha
        obtain ⟨before, after, hops, hunmap, hnot⟩ := process_ops hno
        have haddr := (mapping_eq hmap).2
        refine ⟨haddr ▸ hmap, ⟨bytes, haddr⟩, ?_⟩
        rw [call, hops, List.takeWhile_append_of_pos]
        · simpa using hunmap
        · rintro op hop
          rw [decide_eq_true_iff]
          rintro rfl
          exact (hnot _).1 hop

/-- At rest no mapping is left, so that `strlen` is taken of one only in the call that
    has made it. -/
theorem AtRest.strlenValid_call_iff (h : c.AtRest) : (c.call fs).StrlenValid ↔ c.MapsFile fs := by
  refine ⟨fun hvalid => ?_, fun hmaps a ha => (bodyMapped_call_iff.2 hmaps a ha).2.1⟩
  by_cases hno : c.code fs = .noRequest
  · exact .inl hno
  · obtain ⟨bytes, hb⟩ := hvalid _ ((mem_process_writeFile hno _).2 rfl)
    refine .inr ⟨bytes, ?_⟩
    by_cases hcode : c.code fs = .fileRequest
    · rw [mapping_of_fileRequest hcode, hb]
    · rw [ConnJob.parsed, CJob.processRead_fileAddress hcode] at hb
      exact absurd hb (h.address bytes)

end ConnJob

namespace Session

/-- A call of `process` finds no request yet, or one for a file that can be mapped. -/
def MapsFile (s : Session) (a : Action) : Prop := ∀ fs, a = .process fs → s.conn.MapsFile fs

/-- A property of the calls holds in every state of a run exactly as long as every call
    meets a condition that says the same of it. -/
theorem along_iff_calls {P : ProcessCall → Prop} {memory : CJob} {fd : Descriptor}
    (hiff : ∀ (c : ConnJob) (fs : FileSystem), c.AtRest → (P (c.call fs) ↔ c.MapsFile fs))
    (as : List Action) :
    Along step MapsFile (start memory fd) as ↔
      Throughout step (fun s => ∀ p ∈ s.calls, P p) (start memory fd) as := by
  refine along_iff_throughout (I := fun s => s.Inv ∧ ∀ p ∈ s.calls, P p)
    (fun s a s' h hok hs => ⟨h.1.step hs, ?_⟩) (fun s h => h.2) (fun s a s' h hnot hs hall => ?_)
    ⟨inv_start memory fd, nofun⟩
  · cases a with
    | readEvent bytes =>
      obtain ⟨-, he⟩ := Option.ite_none_right_eq_some.1 hs
      cases he
      exact h.2
    | process fs =>
      obtain ⟨hlive, he⟩ := Option.ite_none_right_eq_some.1 hs
      cases he
      exact List.forall_mem_append.2
        ⟨h.2, List.forall_mem_singleton.2 ((hiff s.conn fs (h.1 hlive)).2 (hok fs rfl))⟩
  · simp only [MapsFile, not_forall] at hnot
    obtain ⟨fs, rfl, hnot⟩ := hnot
    obtain ⟨hlive, he⟩ := Option.ite_none_right_eq_some.1 hs
    cases he
    exact hnot ((hiff s.conn fs (h.1 hlive)).1
      (hall _ (List.mem_append_right _ (List.mem_singleton_self _))))

/-- In a run, `write` is always given the mapping made for the request, not yet unmapped,
    or, what is the same, `strlen` is never taken of an `m_file_address` that is no
    mapping, if and only if every answer is for a file that could be mapped. -/
theorem bodyMapped_iff (memory : CJob) (fd : Descriptor) (as : List Action) :
    (Along step MapsFile (start memory fd) as ↔
        Throughout step (fun s => ∀ p ∈ s.calls, p.BodyMapped) (start memory fd) as) ∧
      (Along step MapsFile (start memory fd) as ↔
        Throughout step (fun s => ∀ p ∈ s.calls, p.StrlenValid) (start memory fd) as) :=
  ⟨along_iff_calls (fun _ _ _ => ConnJob.bodyMapped_call_iff) as,
    along_iff_calls (fun _ _ h => h.strlenValid_call_iff) as⟩

/-- A file that is not found: the form is written, and then the C string at an
    `m_file_address` that was never set. -/
theorem not_bodyMapped :
    ∃ s, exec step (start default ⟨5, by decide⟩)
        [.readEvent (ascii "GET / HTTP/1.1\r\n\r\n"), .process default] = some s ∧
      ∃ p ∈ s.calls, .writeFile .unset ∈ p.ops := by
  have hbytes : ascii "GET / HTTP/1.1\r\n\r\n" = (CJob.plainGet 0).bytes := by decide
  obtain ⟨j', hj'⟩ := (CJob.plainGet 0).processRead_eq default
    { (default : CJob) with fileAddress := .unset } (by rw [← hbytes]; decide)
  obtain ⟨c, hc⟩ : ∃ c, (ConnJob.accept default ⟨5, by decide⟩).readEvent (CJob.plainGet 0).bytes =
    c := ⟨_, rfl⟩
  have hcode : c.code default = .noResource := hc ▸ congrArg Prod.fst hj'
  have haddr : (c.parsed default).fileAddress = .unset := by
    rw [ConnJob.parsed, CJob.processRead_fileAddress (by rw [← ConnJob.code, hcode]; simp), ← hc]
    rfl
  have hmem : .writeFile .unset ∈ (c.process default).1 :=
    (ConnJob.mem_process_writeFile (by rw [hcode]; simp) _).2 haddr.symm
  rw [hbytes]
  exact ⟨_, rfl, _, List.mem_singleton_self _, hc ▸ hmem⟩

end Session

end VsHttpServer
