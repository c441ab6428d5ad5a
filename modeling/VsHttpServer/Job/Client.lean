import VsHttpServer.Job.Framing
import VsHttpServer.Job.Pipeline
import VsHttpServer.MessageStream

/-!
# What a client reads

A client cuts the bytes of a connection into responses: the lines up to an empty one,
and after it as many bytes as the `Content-Length` says.

* `read_fileHead`: what it makes of the head of a file, and what comes after it;
* `received_iff`: when it reads back the files that a session has sent.
-/

namespace VsHttpServer

open CString Crlf Transition MessageStream

/-- A response as a client sees it. -/
structure Response where
  status : List UInt8
  keepAlive : Bool
  body : List UInt8
  deriving DecidableEq

namespace Response

/-- The length in a line, if this is a `Content-Length` with a number. -/
def lengthOf (x : List UInt8) : Option Nat :=
  let value := x.drop (ascii "Content-Length: ").length
  if ascii "Content-Length: " <+: x ∧ value ≠ [] ∧ value.all isdigit then some (digitsValue value)
  else none

/-- The lines up to the first empty one, and what comes after this. -/
def readHead (l : List UInt8) : Option (List (List UInt8) × List UInt8) :=
  if (cutLines l).any (· = []) then
    some ((cutLines l).takeWhile (· ≠ []), l.drop (headOf l).length)
  else none

/-- The first response of a stream, and what comes after it. -/
def read (l : List UInt8) : Option (Response × List UInt8) := do
  let (ls, r) ← readHead l
  let status ← ls.head?
  let length ← ls.findSome? lengthOf
  if length ≤ r.length then
    some (⟨status, ls.any (· = connectionLine true), r.take length⟩, r.drop length)
  else none

/-- The answer with a file that keeps the connection alive. -/
def file (content : List UInt8) : Response := ⟨statusLine 200 ok200Title, true, content⟩

theorem readHead_flatMap {ls : List (List UInt8)} (hls : ∀ x ∈ ls, Clean x ∧ x ≠ [])
    (r : List UInt8) : readHead (ls.flatMap terminated ++ terminated [] ++ r) = some (ls, r) := by
  have hcut : cutLines (ls.flatMap terminated ++ terminated [] ++ r) = ls ++ [] :: cutLines r := by
    rw [List.append_assoc, cutLines_flatMap fun x hx => (hls x hx).1,
      cutLines_of_some (cutLine_terminated clean_nil r)]
  have htake : (ls ++ [] :: cutLines r).takeWhile (· ≠ []) = ls := by
    rw [List.takeWhile_append_of_pos fun x hx => by simpa using (hls x hx).2]
    simp
  rw [readHead, hcut, if_pos (by simp), headOf_flatMap hls, List.drop_left, htake]

/-- A number with a sign is no length. -/
theorem lengthOf_contentLengthLine (n : Int) :
    lengthOf (contentLengthLine n) = if 0 ≤ n then some n.toNat else none := by
  have hdrop : (contentLengthLine n).drop (ascii "Content-Length: ").length = decimal n :=
    List.drop_left
  rw [lengthOf, hdrop]
  simp only [show ascii "Content-Length: " <+: contentLengthLine n from List.prefix_append _ _,
    true_and]
  cases n with
  | ofNat k =>
    have hdigits : (digits k).all isdigit = true :=
      List.all_eq_true.2 fun _ hb => isdigit_of_mem_digits hb
    have hne : digits k ≠ [] := by
      rw [digits]
      split_ifs with h0
      · simp
      · simpa [Nat.digits_ne_nil_iff_ne_zero] using h0
    have hk : 0 ≤ Int.ofNat k := Int.natCast_nonneg k
    rw [decimal, if_pos ⟨hne, hdigits⟩, digitsValue_digits, if_pos hk]
    rfl
  | negSucc k =>
    rw [decimal, if_neg, if_neg (by omega)]
    rintro ⟨-, hall⟩
    rw [List.all_cons] at hall
    exact absurd (Bool.and_eq_true_iff.1 hall).1 (by decide)

/-- The head of a file, and what comes after it. -/
theorem read_fileHead (size : Int) (r : List UInt8) :
    read (ConnJob.fileHead size true ++ r) =
      if 0 ≤ toInt32 size ∧ (toInt32 size).toNat ≤ r.length then
        some (file (r.take (toInt32 size).toNat), r.drop (toInt32 size).toNat)
      else none := by
  have hplain := CJob.plain_headLines (by decide : CJob.Plain ok200Title) 200 (toInt32 size) true
  have hstatus : lengthOf (statusLine 200 ok200Title) = none := by decide
  have hconn : lengthOf (connectionLine true) = none := by decide
  rw [read, ConnJob.fileHead, CJob.flatten_headTexts,
    readHead_flatMap fun x hx => (hplain x hx).imp_left CJob.Plain.clean]
  simp only [CJob.headLines, Option.bind_eq_bind, Option.bind_some, List.head?_cons,
    List.findSome?_cons, hstatus, hconn, lengthOf_contentLengthLine]
  by_cases h0 : 0 ≤ toInt32 size
  · simp [h0, file]
  · simp [h0]

/-- The first response of a stream is a given file if the head has its length, and the file
    comes after it. -/
theorem readAll_fileHead_iff {content r : List UInt8} {as : List Response} (h0 : 0 ∉ r) :
    readAll read (ConnJob.fileHead content.length true ++ (cstr content ++ r)) =
        some (file content :: as) ↔
      (content.length < 2 ^ 31 ∧ 0 ∉ content) ∧ readAll read r = some as := by
  have hne : ConnJob.fileHead content.length true ≠ [] := by
    rw [ConnJob.fileHead, CJob.flatten_headTexts]
    exact List.append_ne_nil_of_right_ne_nil _ (by simp [terminated])
  constructor
  · intro h
    obtain ⟨s, hs, -, has⟩ := readAll_eq_cons_iff.1 h
    rw [read_fileHead] at hs
    split_ifs at hs with hlen
    rw [Option.some.injEq, Prod.mk.injEq, file, file, Response.mk.injEq] at hs
    obtain ⟨⟨-, -, hbody⟩, hrest⟩ := hs
    -- there is no NUL in the stream
    have hnul : 0 ∉ content := by
      rw [← hbody]
      refine fun hmem => ?_
      rcases List.mem_append.1 (List.mem_of_mem_take hmem) with hc | hr
      · exact zero_not_mem_cstr content hc
      · exact h0 hr
    rw [cstr_eq_self hnul] at hbody hrest hlen
    have hlength : (toInt32 content.length).toNat = content.length := by
      have := congrArg List.length hbody
      rwa [List.length_take, min_eq_left hlen.2] at this
    rw [hlength, List.drop_left] at hrest
    refine ⟨⟨toInt32_eq_iff.1 ?_, hnul⟩, hrest ▸ has⟩
    omega
  · rintro ⟨⟨hint, hnul⟩, has⟩
    rw [cstr_eq_self hnul, ← List.append_assoc]
    refine (readAll_append (List.append_ne_nil_of_left_ne_nil hne _) ?_).2 has
    rw [List.append_assoc, read_fileHead, toInt32_eq_iff.2 hint]
    simp

end Response

/-! ## Sessions -/

/-- What a call hands to the output buffer are C strings. -/
theorem ConnJob.zero_not_mem_output (fs : FileSystem) (c : ConnJob) :
    0 ∉ output (c.process fs).1 := by
  by_cases hcode : c.code fs = .noRequest
  · rw [process_of_noRequest hcode]
    exact List.not_mem_nil
  · rw [(process_output hcode).2, List.mem_append, not_or]
    refine ⟨zero_not_mem_cstr _, ?_⟩
    cases haddr : (c.parsed fs).fileAddress with
    | mapped bytes =>
      rw [FileAddress.str]
      split_ifs
      · exact zero_not_mem_cstr bytes
      · exact List.not_mem_nil
    | _ => exact List.not_mem_nil

namespace Session

variable {fs : FileSystem} {s s' : Session}

/-- The bytes that the calls of a session have handed to the output buffer. -/
def sent (s : Session) : List UInt8 := s.calls.flatMap fun p => output p.ops

theorem sent_processed (s : Session) (fs : FileSystem) :
    (s.processed fs).sent = s.sent ++ output (s.conn.process fs).1 := by
  rw [sent, processed, List.flatMap_append, List.flatMap_singleton]
  rfl

theorem sent_isPrefix {as : List Action} (h : exec step s as = some s') : s.sent <+: s'.sent := by
  refine exec_inv (I := fun s' => s.sent <+: s'.sent) (fun s' a s₁ hs hstep => ?_)
    List.prefix_rfl h
  cases a with
  | readEvent bytes =>
    obtain ⟨-, he⟩ := Option.ite_none_right_eq_some.1 hstep
    cases he
    exact hs
  | process fs =>
    obtain ⟨-, he⟩ := Option.ite_none_right_eq_some.1 hstep
    cases he
    rw [sent_processed]
    exact hs.trans (List.prefix_append _ _)

theorem zero_not_mem_sent {as : List Action} (h0 : 0 ∉ s.sent) (h : exec step s as = some s') :
    0 ∉ s'.sent := by
  refine exec_inv (I := fun s => 0 ∉ s.sent) (fun s a s' h0 hs => ?_) h0 h
  cases a with
  | readEvent bytes =>
    obtain ⟨-, he⟩ := Option.ite_none_right_eq_some.1 hs
    cases he
    exact h0
  | process fs =>
    obtain ⟨-, he⟩ := Option.ite_none_right_eq_some.1 hs
    cases he
    rw [sent_processed, List.mem_append, not_or]
    exact ⟨h0, ConnJob.zero_not_mem_output fs s.conn⟩

/-- A request for a file with the given content, which is not empty, that keeps the connection
    and has no body. `m_real_file` has room for the name of the file. -/
structure Requested (fs : FileSystem) (pageSize : Nat) (q : Request) (content : List UInt8) :
    Prop where
  bodyLess : q.BodyLess
  keepAlive : q.KeepAlive
  length_le : q.bytes.length ≤ readBufferSize
  fileFits : q.FileFits
  code : fs.code q.file = .fileRequest
  ne_nil : content ≠ []
  exposes : fs.Exposes pageSize q.file content

/-- The call for a request that is delivered alone: if the mapping of the file has a NUL, the
    session is ready for the next one, and otherwise it is over. -/
theorem Ready.request (h : s.Ready) {pageSize : Nat} {q : Request} {content : List UInt8}
    (hq : Requested fs pageSize q content) :
    ∃ s₁, exec step s [.readEvent q.bytes, .process fs] = some s₁ ∧
      (0 ∈ pageFill pageSize content → s₁.Ready ∧
        s₁.sent = s.sent ++ (ConnJob.fileHead content.length true ++ cstr content)) ∧
      (0 ∉ pageFill pageSize content → s₁.live = false ∧
        s₁.sent = s.sent ++ ConnJob.fileHead content.length true) := by
  obtain ⟨hcode, hpath, hlinger⟩ := h.fresh.read fs hq.bodyLess
    (show (q.bytes ++ []).length ≤ readBufferSize by simpa using hq.length_le)
  rw [List.append_nil] at hcode hpath hlinger
  rw [Request.filePath_path hq.fileFits] at hcode hpath
  have hfile := hcode.trans hq.code
  obtain ⟨hst, hsize, haddr⟩ := ConnJob.file_of_exposes hfile hq.ne_nil (hpath ▸ hq.exposes)
  have hidx : (s.conn.readEvent q.bytes).writeIdx = 0 := by rw [h.fresh.readEvent]; rfl
  have hroom : s.conn.readIdx + q.bytes.length ≤ readBufferSize := by
    rw [← h.fresh]
    exact (Nat.zero_add _).trans_le hq.length_le
  have hon := hlinger.2 hq.keepAlive
  obtain ⟨hends, hearly⟩ := ConnJob.process_file hidx hfile hsize haddr hon
  obtain ⟨-, houtput⟩ := ConnJob.process_output
    (show (s.conn.readEvent q.bytes).code fs ≠ .noRequest by rw [hfile]; simp)
  rw [(ConnJob.answered_file hidx hfile hsize).2, hst, hon, haddr, FileAddress.str] at houtput
  refine ⟨({ s with conn := s.conn.readEvent q.bytes } : Session).processed fs, ?_,
    fun h0 => ⟨⟨?_, ?_⟩, ?_⟩, fun h0 => ⟨?_, ?_⟩⟩
  · rw [exec, step, if_pos ⟨h.live, hroom⟩, Option.bind_some, exec, step, if_pos h.live]
    rfl
  · rw [processed]
    simp [hends h0, ConnJob.fileOps]
  · rw [processed]
    simp only [hends h0]
    rfl
  · rw [sent_processed, houtput, if_pos h0, cstr_pageFill]
    rfl
  · rw [processed]
    simp [hearly h0]
  · rw [sent_processed, houtput, if_neg h0]
    simp [sent]

/-- Requests that are delivered one by one. -/
theorem Ready.receives_iff (h : s.Ready) (h0 : 0 ∉ s.sent) {pageSize : Nat} (hpage : 0 < pageSize)
    {qs : List (Request × List UInt8)} (hqs : ∀ q ∈ qs, Requested fs pageSize q.1 q.2) :
    (∃ s', exec step s (Session.deliver fs (qs.map fun q => [q.1])) = some s' ∧
        ∃ out, s'.sent = s.sent ++ out ∧
          readAll Response.read out = some (qs.map fun q => .file q.2)) ↔
      ∀ q ∈ qs, q.2.length < 2 ^ 31 ∧ 0 ∉ q.2 ∧ ¬pageSize ∣ q.2.length := by
  induction qs generalizing s with
  | nil =>
    refine iff_of_true ⟨s, rfl, [], (List.append_nil _).symm, readAll_nil⟩ ?_
    exact fun q hq => absurd hq List.not_mem_nil
  | cons q qs ih =>
    rw [List.forall_mem_cons] at hqs
    obtain ⟨s₁, hs₁, hends, hearly⟩ := h.request hqs.1
    have hexec : exec step s (Session.deliver fs ((q :: qs).map fun q => [q.1])) =
        exec step s₁ (Session.deliver fs (qs.map fun q => [q.1])) := by
      rw [List.map_cons, Session.deliver, List.flatMap_cons, exec_append, List.flatMap_singleton,
        hs₁]
      rfl
    rw [hexec, List.forall_mem_cons, List.map_cons]
    by_cases hnul : 0 ∈ pageFill pageSize q.2
    · -- the call sends the file up to its first NUL, and the session goes on
      obtain ⟨hready, hsent⟩ := hends hnul
      have h0₁ := zero_not_mem_sent h0 hs₁
      rw [← ih hready h0₁ hqs.2]
      rw [zero_mem_pageFill hpage] at hnul
      constructor
      · rintro ⟨s', hs', out, hout, hread⟩
        obtain ⟨out', hout'⟩ := sent_isPrefix hs'
        have hnot := zero_not_mem_sent h0₁ hs'
        rw [← hout', List.mem_append, not_or] at hnot
        rw [← hout', hsent, List.append_assoc, List.append_cancel_left_eq, List.append_assoc]
          at hout
        rw [← hout, Response.readAll_fileHead_iff hnot.2] at hread
        obtain ⟨⟨hint, hq⟩, hrest⟩ := hread
        exact ⟨⟨hint, hq, hnul.resolve_left hq⟩, s', hs', out', hout'.symm, hrest⟩
      · rintro ⟨⟨hint, hq, -⟩, s', hs', out, hout, hread⟩
        have hnot := zero_not_mem_sent h0₁ hs'
        rw [hout, List.mem_append, not_or] at hnot
        refine ⟨s', hs', _, by rw [hout, hsent, List.append_assoc, List.append_assoc], ?_⟩
        exact (Response.readAll_fileHead_iff hnot.2).2 ⟨⟨hint, hq⟩, hread⟩
    · -- `strlen` does not find an end
      obtain ⟨hlive, hsent⟩ := hearly hnul
      rw [zero_mem_pageFill hpage, not_or, not_not] at hnul
      refine iff_of_false ?_ fun hall => hall.1.2.2 hnul.2
      rintro ⟨s', hs', out, hout, hread⟩
      cases qs with
      | nil =>
        cases hs'
        rw [hsent, List.append_cancel_left_eq] at hout
        rw [← hout] at hread
        obtain ⟨r, hr, -⟩ := readAll_eq_cons_iff.1 hread
        rw [← List.append_nil (ConnJob.fileHead _ _), Response.read_fileHead] at hr
        split_ifs at hr
        rw [Option.some.injEq, Prod.mk.injEq, Response.file, Response.file, Response.mk.injEq] at hr
        exact hqs.1.ne_nil (by rw [← hr.1.2.2, List.take_nil])
      | cons q' qs =>
        rw [List.map_cons, Session.deliver, List.flatMap_cons, List.cons_append, exec, step,
          if_neg] at hs'
        · cases hs'
        · simp [hlive]

/-- Keep-alive requests for files whose names have room in `m_real_file`, delivered one by one on a
    new connection: a client that reads what was sent gets back each of the files that they
    name, in their order, with the status 200 and the connection kept alive, if and only if the
    size of each is an `int` and no multiple of the page size, and none has a NUL. -/
theorem received_iff (memory : CJob) (fd : Descriptor) {pageSize : Nat} (hpage : 0 < pageSize)
    {qs : List (Request × List UInt8)} (hqs : ∀ q ∈ qs, Requested fs pageSize q.1 q.2) :
    (∃ s, exec step (start memory fd) (deliver fs (qs.map fun q => [q.1])) = some s ∧
        readAll Response.read s.sent = some (qs.map fun q => .file q.2)) ↔
      ∀ q ∈ qs, q.2.length < 2 ^ 31 ∧ 0 ∉ q.2 ∧ ¬pageSize ∣ q.2.length := by
  have hready : (start memory fd).Ready := ⟨rfl, ConnJob.fresh_accept memory fd⟩
  rw [← hready.receives_iff List.not_mem_nil hpage hqs]
  exact exists_congr fun s => and_congr_right fun _ => ⟨fun h => ⟨s.sent, rfl, h⟩,
    fun ⟨_, hout, h⟩ => hout ▸ h⟩

/-- The same file of five bytes, requested twice. -/
theorem received_iff_two : ∃ s,
    exec step (start default ⟨5, by decide⟩)
        (deliver (.all ⟨0o100644, 5⟩ (.mapped (pageFill 4096 (ascii "hello"))))
          [[keepAliveGet], [keepAliveGet]]) = some s ∧
      readAll Response.read s.sent = some [.file (ascii "hello"), .file (ascii "hello")] := by
  have hq : Requested (.all ⟨0o100644, 5⟩ (.mapped (pageFill 4096 (ascii "hello")))) 4096
      keepAliveGet (ascii "hello") := by
    refine ⟨keepAliveGet_bodyLess, keepAliveGet_keepAlive, ?_, keepAliveGet_fileFits, ?_, by decide,
      ?_, rfl⟩
    · rw [length_keepAliveGet]
      decide
    · exact (FileSystem.serves_all ⟨0o100644, 5⟩ (by decide) (by decide) (by decide) _ _).code
    · rintro st ⟨⟩
      rfl
  have hqs : ∀ q ∈ [(keepAliveGet, ascii "hello"), (keepAliveGet, ascii "hello")],
      Requested (.all ⟨0o100644, 5⟩ (.mapped (pageFill 4096 (ascii "hello")))) 4096 q.1 q.2 := by
    simp [hq]
  exact (received_iff default ⟨5, by decide⟩ (by decide) hqs).2 (by decide)

end Session

end VsHttpServer
