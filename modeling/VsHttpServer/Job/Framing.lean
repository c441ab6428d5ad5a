import VsHttpServer.Job.Fresh

/-!
# The framing of a file

A file is announced with its size, cut to an `int`, but `write` sends the C string
that its mapping starts with, after the C string in `m_write_buf`.

* `frames_iff`: when the bytes of an answer are a head with the size of the file, an
  empty line, and the file.
-/

namespace VsHttpServer

open CString Crlf

/-- What a mapping of a file exposes: its content, and zeros to the end of the last page. -/
def pageFill (pageSize : Nat) (content : List UInt8) : List UInt8 :=
  content ++ List.replicate ((pageSize - content.length % pageSize) % pageSize) 0

theorem zero_mem_pageFill {p : Nat} (hp : 0 < p) {content : List UInt8} :
    0 ∈ pageFill p content ↔ 0 ∈ content ∨ ¬p ∣ content.length := by
  have hlt := Nat.mod_lt content.length hp
  rw [pageFill, List.mem_append, List.mem_replicate, Nat.dvd_iff_mod_eq_zero]
  refine or_congr_right ⟨fun h h0 => h.1 ?_, fun h => ⟨?_, rfl⟩⟩
  · rw [h0, Nat.sub_zero, Nat.mod_self]
  · rw [Nat.mod_eq_of_lt (by omega)]
    omega

/-- The C string at the start of the mapping: it ends at the first NUL of the file. -/
theorem cstr_pageFill (p : Nat) (content : List UInt8) :
    cstr (pageFill p content) = cstr content := by
  rw [pageFill]
  cases (p - content.length % p) % p with
  | zero => rw [List.replicate_zero, List.append_nil]
  | succ n => exact cstr_append_zero _

/-- The path is one of a file with the given content. -/
structure FileSystem.Exposes (fs : FileSystem) (pageSize : Nat) (path content : List UInt8) :
    Prop where
  size : ∀ st, fs.stat path = some st → st.size = content.length
  mmap : fs.mmap (fs.openRead path) content.length = .mapped (pageFill pageSize content)

/-- The bytes are a head whose `Content-Length` is the length of the content, an empty line,
    and the content. -/
def Framed (bytes content : List UInt8) : Prop :=
  ∃ ls : List (List UInt8), (∀ x ∈ ls, CJob.Plain x ∧ x ≠ []) ∧
    contentLengthLine content.length ∈ ls ∧
    (∀ x ∈ ls, ascii "Content-Length:" <+: x → x = contentLengthLine content.length) ∧
    bytes = ls.flatMap terminated ++ terminated [] ++ content

/-- What follows the head of framed bytes is the content. -/
theorem Framed.of_head {ls : List (List UInt8)} {r content : List UInt8}
    (h : Framed (ls.flatMap terminated ++ terminated [] ++ r) content)
    (hls : ∀ x ∈ ls, CJob.Plain x ∧ x ≠ []) :
    r = content ∧
      ∀ x ∈ ls, ascii "Content-Length:" <+: x → x = contentLengthLine content.length := by
  obtain ⟨ks, hks, -, hlength, he⟩ := h
  obtain ⟨rfl, hr⟩ := flatMap_terminated_inj (fun x hx => (hls x hx).imp_left CJob.Plain.clean)
    (fun x hx => (hks x hx).imp_left CJob.Plain.clean) he
  exact ⟨hr, hlength⟩

theorem toInt32_eq_iff {n : Nat} : toInt32 n = n ↔ n < 2 ^ 31 := by
  rw [toInt32]
  omega

theorem contentLengthLine_injective : Function.Injective contentLengthLine := fun _ _ h =>
  decimal_injective (List.append_cancel_left h)

/-- The head of a file announces its size if this is an `int`. -/
theorem contentLength_headLines {size : Nat} {linger : Bool} :
    (∀ x ∈ CJob.headLines 200 ok200Title (toInt32 size) linger,
        ascii "Content-Length:" <+: x → x = contentLengthLine size) ↔ size < 2 ^ 31 := by
  have hprefix : ascii "Content-Length:" <+: contentLengthLine (toInt32 size) :=
    (by decide : ascii "Content-Length:" <+: ascii "Content-Length: ").trans (List.prefix_append _ _)
  have hstatus : ¬ascii "Content-Length:" <+: statusLine 200 ok200Title := by decide
  have hconn : ¬ascii "Content-Length:" <+: connectionLine linger := by cases linger <;> decide
  rw [← toInt32_eq_iff]
  simp only [CJob.headLines, List.forall_mem_cons, List.not_mem_nil, false_imp_iff, implies_true,
    and_true, hstatus, hconn, hprefix, true_imp_iff, true_and]
  exact contentLengthLine_injective.eq_iff

namespace ConnJob

variable {c : ConnJob} {fs : FileSystem}

/-- The call comes to its end, and has handed a framed file to the output buffer. -/
def Frames (fs : FileSystem) (c : ConnJob) (content : List UInt8) : Prop :=
  (c.process fs).2.isSome ∧ Framed (output (c.process fs).1) content

/-- The bytes of an answer with a mapping: it comes to its end if this has a NUL. -/
theorem process_file_output (hcode : c.code fs = .fileRequest) {bytes : List UInt8}
    (haddr : (c.parsed fs).fileAddress = .mapped bytes) :
    ((c.process fs).2.isSome ↔ 0 ∈ bytes) ∧
      (0 ∈ bytes → output (c.process fs).1 = (c.answered fs).writeBuf.str 0 ++ cstr bytes) := by
  obtain ⟨hsome, houtput⟩ := process_output (show c.code fs ≠ .noRequest by rw [hcode]; simp)
  rw [haddr, FileAddress.str] at hsome houtput
  by_cases h0 : 0 ∈ bytes
  · rw [if_pos h0] at hsome houtput
    exact ⟨iff_of_true hsome h0, fun _ => houtput⟩
  · rw [if_neg h0] at hsome
    exact ⟨by simp [hsome, h0], fun h => absurd h h0⟩

/-- The head that is left from an earlier answer is sent first, and the new one after it. -/
theorem exists_pending (h : c.AtRest) (hidx : c.writeIdx ≠ 0) (hcode : c.code fs = .fileRequest)
    (hsize : (c.parsed fs).fileStat.size ≠ 0) :
    ∃ ls : List (List UInt8), (∀ x ∈ ls, CJob.Plain x ∧ x ≠ []) ∧ ∃ w ≠ [], 0 ∉ w ∧
      (c.answered fs).writeBuf.str 0 = ls.flatMap terminated ++ terminated [] ++ w := by
  obtain ⟨ls, hls, hshort, hle, hget, hne⟩ := h.head.resolve_left hidx
  obtain ⟨head, hhead⟩ : ∃ head, ls.flatMap terminated ++ terminated [] = head := ⟨_, rfl⟩
  rw [hhead] at hshort hle
  simp only [hhead] at hget
  obtain ⟨hbuf, hparsed, -⟩ := CJob.processRead_writer fs c.toCJob
  rw [← ConnJob.parsed] at hbuf hparsed
  have hroom := (h.parsed fs).1
  have hold : ∀ k < c.writeIdx, (c.answered fs).writeBuf.get k = c.writeBuf.get k := by
    intro k hk
    rw [answered_eq, CJob.get_addTexts hroom _ (by omega), hbuf]
  have hzero : ∀ b ∈ head, b ≠ 0 := by
    intro b hb
    obtain ⟨k, hk, rfl⟩ := List.mem_iff_getElem.1 hb
    rw [← hget k hk]
    exact hne k (by omega)
  have hstr := CharArray.str_append (a := (c.answered fs).writeBuf) (o := 0) hzero fun k hk => by
    rw [Nat.zero_add, hold k (by omega), hget k hk]
  rw [Nat.zero_add] at hstr
  refine ⟨ls, hls, (c.answered fs).writeBuf.str head.length, ?_, zero_not_mem_cstr _,
    by rw [hhead]; exact hstr⟩
  rcases hle.lt_or_eq with hlt | heq
  · -- there is more text in the buffer
    refine CharArray.str_ne_nil ?_
    rw [hold _ hlt]
    exact hne _ hlt
  · -- there is room for the new head
    have hplain : CJob.Plain ok200Title := by decide
    have hlen := CJob.length_headTexts_le (c.parsed fs).fileStat.size (c.parsed fs).linger
    have hfits : CJob.Fits (c.parsed fs).writeIdx (CJob.headTexts 200 ok200Title
        (toInt32 (c.parsed fs).fileStat.size) (c.parsed fs).linger).flatten := by
      have : writeBufferSize = 1024 := rfl
      rw [CJob.Fits]
      omega
    have hnew := (CJob.addTexts_of_fits hroom (CJob.headTexts_ne_zero hplain _ _ _)
      (by simp [CJob.headTexts]) hfits).2
    rw [← responseTexts_file hcode hsize, ← answered_eq, hparsed, ← heq,
      responseTexts_file hcode hsize, CJob.flatten_headTexts] at hnew
    rw [hnew]
    exact List.append_ne_nil_of_right_ne_nil _ (by simp [terminated])

/-- What is known of a call for a file with the given content. -/
theorem file_of_exposes {pageSize : Nat} {content : List UInt8} (hcode : c.code fs = .fileRequest)
    (hne : content ≠ []) (hfile : fs.Exposes pageSize (c.parsed fs).path content) :
    (c.parsed fs).fileStat.size = content.length ∧ (c.parsed fs).fileStat.size ≠ 0 ∧
      (c.parsed fs).fileAddress = .mapped (pageFill pageSize content) := by
  obtain ⟨hstat, -, -, haddr⟩ := CJob.processRead_fileRequest hcode
  rw [← parsed] at hstat haddr
  have hst := hfile.size _ hstat
  refine ⟨hst, ?_, by rw [haddr, hst, hfile.mmap]⟩
  rw [hst, Nat.cast_ne_zero]
  exact (List.length_pos_iff.2 hne).ne'

/-- With no head left from before, the head of the file is the first. -/
theorem frames_iff_of_writeIdx {pageSize : Nat} {content : List UInt8} (hidx : c.writeIdx = 0)
    (hcode : c.code fs = .fileRequest) (hpage : 0 < pageSize) (hne : content ≠ [])
    (hfile : fs.Exposes pageSize (c.parsed fs).path content) :
    c.Frames fs content ↔
      content.length < 2 ^ 31 ∧ 0 ∉ content ∧ ¬pageSize ∣ content.length := by
  obtain ⟨hst, hsize, haddr⟩ := file_of_exposes hcode hne hfile
  obtain ⟨hsome, houtput⟩ := process_file_output hcode haddr
  have hlines := CJob.plain_headLines (by decide : CJob.Plain ok200Title) 200
    (toInt32 content.length) (c.parsed fs).linger
  rw [zero_mem_pageFill hpage] at hsome houtput
  rw [cstr_pageFill, (answered_file hidx hcode hsize).2, fileHead, hst, CJob.flatten_headTexts]
    at houtput
  rw [Frames, hsome]
  constructor
  · rintro ⟨hnul, hframed⟩
    rw [houtput hnul] at hframed
    obtain ⟨hbody, hlength⟩ := hframed.of_head hlines
    have h0 : 0 ∉ content := by
      rw [← hbody]
      exact zero_not_mem_cstr content
    exact ⟨contentLength_headLines.1 hlength, h0, hnul.resolve_left h0⟩
  · rintro ⟨hint, h0, hdvd⟩
    refine ⟨.inr hdvd, _, hlines, ?_, contentLength_headLines.2 hint, ?_⟩
    · rw [CJob.headLines, toInt32_eq_iff.2 hint]
      simp
    · rw [houtput (.inr hdvd), cstr_eq_self h0]

/-- A head that is left from before comes first, and the new one is taken for the file. -/
theorem not_frames_of_writeIdx {pageSize : Nat} {content : List UInt8} (h : c.AtRest)
    (hidx : c.writeIdx ≠ 0) (hcode : c.code fs = .fileRequest) (hne : content ≠ [])
    (hfile : fs.Exposes pageSize (c.parsed fs).path content) : ¬c.Frames fs content := by
  obtain ⟨-, hsize, haddr⟩ := file_of_exposes hcode hne hfile
  obtain ⟨hsome, houtput⟩ := process_file_output hcode haddr
  obtain ⟨ls, hls, w, hw, hw0, hstr⟩ := exists_pending h hidx hcode hsize
  rintro ⟨hnul, hframed⟩
  rw [houtput (hsome.1 hnul), hstr, List.append_assoc _ w, cstr_pageFill] at hframed
  obtain ⟨hbody, -⟩ := hframed.of_head hls
  -- the rest of the buffer has no NUL, and neither has what `write` sends of the file
  have h0 : 0 ∉ content := by
    rw [← hbody, List.mem_append]
    exact not_or.2 ⟨hw0, zero_not_mem_cstr content⟩
  rw [cstr_eq_self h0, List.append_left_eq_self] at hbody
  exact hw hbody

/-- In every state of a connection, and for every file that is found, the answer is a head
    with the size of the file, an empty line and the file, if and only if no head is left
    from an earlier answer, the size is an `int` and no multiple of the page size, and the
    file has no NUL. -/
theorem frames_iff {pageSize : Nat} {content : List UInt8} (h : Session.Reachable c)
    (hcode : c.code fs = .fileRequest) (hpage : 0 < pageSize) (hne : content ≠ [])
    (hfile : fs.Exposes pageSize (c.parsed fs).path content) :
    c.Frames fs content ↔
      c.writeIdx = 0 ∧ content.length < 2 ^ 31 ∧ 0 ∉ content ∧ ¬pageSize ∣ content.length := by
  by_cases hidx : c.writeIdx = 0
  · rw [frames_iff_of_writeIdx hidx hcode hpage hne hfile]
    simp [hidx]
  · exact iff_of_false (not_frames_of_writeIdx h.atRest hidx hcode hne hfile) fun hall => hidx hall.1

/-- A text file of five bytes, requested on a new connection. -/
theorem frames_keepAlive :
    ((accept default ⟨5, by decide⟩).readEvent keepAliveGet.bytes).Frames
      (.all ⟨0o100644, 5⟩ (.mapped (pageFill 4096 (ascii "hello")))) (ascii "hello") := by
  obtain ⟨hreach, hcode, -⟩ := accept_read default ⟨5, by decide⟩ keepAliveGet_bodyLess
    (by rw [length_keepAliveGet]; decide) (FileSystem.serves_all ⟨0o100644, 5⟩ (by decide)
      (by decide) (by decide) _ (pageFill 4096 (ascii "hello")))
  refine (frames_iff hreach hcode (by decide : 0 < 4096) (by decide) ⟨?_, rfl⟩).2
    ⟨rfl, by decide, by decide, by decide⟩
  rintro st ⟨⟩
  rfl

/-- A file whose second byte is a NUL, requested on a new connection. -/
theorem not_frames :
    ((accept default ⟨5, by decide⟩).readEvent (ascii "GET / HTTP/1.1\r\n\r\n")).code
        (.all ⟨0o100644, 3⟩ (.mapped (pageFill 4096 [104, 0, 105]))) = .fileRequest ∧
      ¬((accept default ⟨5, by decide⟩).readEvent (ascii "GET / HTTP/1.1\r\n\r\n")).Frames
        (.all ⟨0o100644, 3⟩ (.mapped (pageFill 4096 [104, 0, 105]))) [104, 0, 105] := by
  have hbytes : (CJob.plainGet 0).toRequest.bytes = ascii "GET / HTTP/1.1\r\n\r\n" := by decide
  have hread := accept_read default ⟨5, by decide⟩ (CJob.plainGet 0).bodyLess_toRequest
    (by rw [hbytes]; decide) (FileSystem.serves_all ⟨0o100644, 3⟩ (by decide) (by decide)
      (by decide) _ (pageFill 4096 [104, 0, 105]))
  rw [hbytes] at hread
  obtain ⟨-, hcode, -⟩ := hread
  refine ⟨hcode, fun hframes => ?_⟩
  have hfile : FileSystem.Exposes (.all ⟨0o100644, 3⟩ (.mapped (pageFill 4096 [104, 0, 105]))) 4096
      (((accept default ⟨5, by decide⟩).readEvent (ascii "GET / HTTP/1.1\r\n\r\n")).parsed
        (.all ⟨0o100644, 3⟩ (.mapped (pageFill 4096 [104, 0, 105])))).path [104, 0, 105] := by
    refine ⟨?_, rfl⟩
    rintro st ⟨⟩
    rfl
  obtain ⟨-, h0, -⟩ := (frames_iff_of_writeIdx rfl hcode (by decide) (by decide) hfile).1 hframes
  exact h0 (by decide)

end ConnJob

end VsHttpServer
