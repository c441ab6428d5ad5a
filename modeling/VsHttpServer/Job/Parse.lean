import VsHttpServer.Job.Basic
import VsHttpServer.Lines

/-!
# The parser

The functions of `CJob` that parse a request in place: `parse_line` cuts the
buffer into lines, turning each CRLF into NULs, and `parse_request_line`,
`parse_headers` and `parse_content` work on the C string at the offset `text`.

`process_read` is a loop. `processReadIter` is one evaluation of its condition
followed, if it holds, by its body; every body but the one of a body in
`CHECK_STATE_CONTENT` comes after a line, so that the loop ends
(`processReadIter_next`). The calls of `do_request` are all in tail position:
`processReadLoop` stops there (`ReadExit.doRequest`), and `processRead` goes on
with the call.
-/

namespace VsHttpServer

open CString Crlf

/-- The separators of a request line, and the padding of a header value. -/
def blanks : List UInt8 := ascii " \t"

namespace CJob

variable {N : Nat}

/-! ## Lines -/

/-- The `for` loop of `parse_line`, with the number of indices left to look at. -/
def parseLineLoop : Nat → CJob N → LineStatus × CJob N
  | 0, j => (.lineOpen, j)
  | n + 1, j =>
    let temp := j.readBuf.get j.checkedIdx
    if temp = cr then
      if j.checkedIdx + 1 = j.readIdx then (.lineOpen, j)
      else if j.readBuf.get (j.checkedIdx + 1) = lf then
        (.lineOk, { j with
          readBuf := (j.readBuf.store j.checkedIdx 0).store (j.checkedIdx + 1) 0
          checkedIdx := j.checkedIdx + 2 })
      else (.lineBad, j)
    else if temp = lf then
      if 1 < j.checkedIdx ∧ j.readBuf.get (j.checkedIdx - 1) = cr then
        (.lineOk, { j with
          readBuf := (j.readBuf.store (j.checkedIdx - 1) 0).store j.checkedIdx 0
          checkedIdx := j.checkedIdx + 1 })
      else (.lineBad, j)
    else parseLineLoop n { j with checkedIdx := j.checkedIdx + 1 }

/-- `CJob::parse_line`. -/
def parseLine (j : CJob N) : LineStatus × CJob N := parseLineLoop (j.readIdx - j.checkedIdx) j

/-! ## The request line -/

/-- The methods `parse_request_line` compares with, in its order, and the code
    it stores in `m_request` for each. -/
def methods : List (List UInt8 × Method × HttpCode) :=
  [(ascii "GET", .get, .getRequest), (ascii "HEAD", .head, .headRequest),
    (ascii "POST", .post, .postRequest), (ascii "PUT", .put, .putRequest),
    (ascii "DELETE", .delete, .deleteRequest), (ascii "TRACE", .trace, .traceRequest),
    (ascii "OPTIONS", .options, .optionsRequest), (ascii "CONNECT", .connect, .connectRequest),
    (ascii "PATCH", .patch, .patchRequest)]

/-- The method named by the C string at the start of `s`. -/
def methodOf (s : List UInt8) : Option (Method × HttpCode) :=
  (methods.find? fun m => strcasecmp s m.1 = 0).map (·.2)

/-- The end of `parse_request_line`, once the version is accepted: the path of the
    target `m_url`, the C string at `u`. -/
def parseUrl (j : CJob N) (u : Nat) : HttpCode × CJob N :=
  let url :=
    if strncasecmp (j.readBuf.mem u) (ascii "http://") 7 = 0 then
      (strchr (j.readBuf.mem (u + 7)) 47).map (u + 7 + ·)
    else some u
  let j := { j with url := url }
  match url with
  | none => (.badRequest, j)
  | some u =>
    if j.readBuf.get u ≠ 47 then (.badRequest, j)
    else (j.request, { j with checkState := .header })

/-- `parse_request_line` once the method is known, `m_url` being `u`: the target
    and the version. -/
def parseTarget (j : CJob N) (u : Nat) : HttpCode × CJob N :=
  let u := u + strspn (j.readBuf.mem u) blanks
  let j := { j with url := some u }
  match strpbrk (j.readBuf.mem u) blanks with
  | none => (.badRequest, { j with version := none })
  | some l =>
    let j := { j with readBuf := j.readBuf.store (u + l) 0 }
    let v := u + l + 1 + strspn (j.readBuf.mem (u + l + 1)) blanks
    let j := { j with version := some v }
    if strcasecmp (j.readBuf.mem v) (ascii "HTTP/1.1") ≠ 0 then (.badRequest, j)
    else j.parseUrl u

/-- `CJob::parse_request_line`. -/
def parseRequestLine (j : CJob N) (text : Nat) : HttpCode × CJob N :=
  match strpbrk (j.readBuf.mem text) blanks with
  | none => (.badRequest, { j with url := none })
  | some k =>
    let u := text + k + 1
    let j := { j with readBuf := j.readBuf.store (text + k) 0, url := some u }
    match methodOf (j.readBuf.mem text) with
    | none => (.badRequest, j)
    | some (m, code) => { j with method := m, request := code }.parseTarget u

/-! ## Headers and content -/

/-- Past the `n` bytes of a header name at `text`, and the blanks after it. -/
def headerValue (j : CJob N) (text n : Nat) : Nat :=
  text + n + strspn (j.readBuf.mem (text + n)) blanks

/-- `CJob::parse_headers`. -/
def parseHeaders (j : CJob N) (text : Nat) : HttpCode × CJob N :=
  let s := j.readBuf.mem text
  if s.headD 0 = 0 then
    if j.method = .get then (.getRequest, j)
    else if j.method = .head then (.headRequest, j)
    else if j.contentLength ≠ 0 then (.noRequest, { j with checkState := .content })
    else (.getRequest, j)
  else if strncasecmp s (ascii "Connection:") 11 = 0 then
    if strcasecmp (j.readBuf.mem (j.headerValue text 11)) (ascii "keep-alive") = 0 then
      (.noRequest, { j with linger := true })
    else (.noRequest, j)
  else if strncasecmp s (ascii "Content-Length:") 15 = 0 then
    (.noRequest,
      { j with contentLength := toInt32 (atol (j.readBuf.mem (j.headerValue text 15))) })
  else if strncasecmp s (ascii "Host:") 5 = 0 then
    (.noRequest, { j with host := some (j.headerValue text 5) })
  else (.noRequest, j)

/-- The store `text[m_content_length] = '\0'` of `parse_content`. An index
    outside the buffer is another object's memory, which is not modelled. -/
def terminate (j : CJob N) (text : Nat) : CJob N :=
  if 0 ≤ text + j.contentLength then
    { j with readBuf := j.readBuf.store (text + j.contentLength).toNat 0 }
  else j

/-- `CJob::parse_content`. -/
def parseContent (j : CJob N) (text : Nat) : HttpCode × CJob N :=
  if toInt32 (j.contentLength + j.checkedIdx) ≤ j.readIdx then (.getRequest, j.terminate text)
  else (.noRequest, j)

/-! ## `do_request` -/

/-- The bytes `strncpy` writes: those of the text, padded with NULs to `n`. -/
def strncpyBytes (s : List UInt8) (n : Nat) : List UInt8 :=
  (s.take n) ++ List.replicate (n - s.length) 0

/-- The path `do_request` builds in `m_real_file`. -/
def buildPath (j : CJob N) : CJob N :=
  { j with
    realFile := (j.realFile.copy 0 (docRoot ++ [0])).copy docRoot.length
      (strncpyBytes (j.urlText.getD []) (filenameLen - docRoot.length - 1)) }

/-- `CJob::do_request`. -/
def doRequest (fs : FileSystem) (j : CJob N) : HttpCode × CJob N :=
  let j := j.buildPath
  let path := j.realFile.str 0
  match fs.stat path with
  | none => (.noResource, j)
  | some st =>
    let j := { j with fileStat := st }
    if st.othersRead = false then (.forbiddenRequest, j)
    else if st.isDir then (.badRequest, j)
    else (.fileRequest, { j with fileAddress := fs.mmap (fs.openRead path) st.size })

/-! ## `process_read` -/

/-- How `process_read` leaves its loop: with a code, or by calling `do_request`. -/
inductive ReadExit
  | ret (code : HttpCode)
  | doRequest
  deriving DecidableEq, Repr

/-- What one evaluation of the condition and the body of the loop does: it leaves
    the loop, or goes on with the given `line_status`. -/
inductive ReadFlow
  | leave (e : ReadExit)
  | next (lineStatus : LineStatus)
  deriving DecidableEq, Repr

/-- The condition of the loop: `parse_line` is only called when the first
    disjunct fails. -/
def loopCondition (lineStatus : LineStatus) (j : CJob N) : LineStatus × CJob N :=
  if j.checkState = .content ∧ lineStatus = .lineOk then (.lineOk, j) else j.parseLine

/-- `m_start_line = m_checked_idx`. -/
def nextLine (j : CJob N) : CJob N := { j with startLine := j.checkedIdx }

/-- The body of the loop, entered with `line_status` equal to `LINE_OK`. -/
def loopBody (j : CJob N) : ReadFlow × CJob N :=
  let text := j.startLine
  let j := j.nextLine
  match j.checkState with
  | .requestLine =>
    match j.parseRequestLine text with
    | (.badRequest, j) => (.leave (.ret .badRequest), j)
    | (_, j) => (.next .lineOk, j)
  | .header =>
    match j.parseHeaders text with
    | (.badRequest, j) => (.leave (.ret .badRequest), j)
    | (.getRequest, j) => (.leave .doRequest, j)
    | (.headRequest, j) => (.leave .doRequest, j)
    | (_, j) => (.next .lineOk, j)
  | .content =>
    match j.parseContent text with
    | (.getRequest, j) => (.leave .doRequest, j)
    | (_, j) => (.next .lineOpen, j)

/-- One evaluation of the condition of the loop, and of its body if it holds. -/
def processReadIter (lineStatus : LineStatus) (j : CJob N) : ReadFlow × CJob N :=
  match j.loopCondition lineStatus with
  | (.lineOk, j) => j.loopBody
  | (_, j) => (.leave (.ret .noRequest), j)

end CJob

end VsHttpServer
