import VsHttpServer.Job.Fresh

/-!
# HEAD and GET

Nothing that `process` does depends on the method being GET or HEAD: what follows the
method is parsed alike (`targetLine`), and `write` sends the file after the head in
both cases.

* `requestLine_method`: a request line, by what follows its method;
* `mirrors_iff`: when the response to a HEAD is the head of the one to the GET.
-/

namespace VsHttpServer

open CString Crlf

/-! ## What follows the method -/

/-- What `parse_request_line` does with the text `s` that follows the method and a blank:
    the offsets are from its start. -/
def targetLine (m : Method × HttpCode) (s : List UInt8) : RequestLine :=
  let u := strspn s blanks
  match strpbrk (s.drop u) blanks with
  | none => { method := some m, url := some u, version := some none }
  | some l =>
    let v := u + l + 1 + strspn (s.drop (u + l + 1)) blanks
    let r : RequestLine :=
      { nuls := [u + l], method := some m, url := some u, version := some (some v) }
    if strcasecmp (s.drop v) (ascii "HTTP/1.1") ≠ 0 then r
    else
      match pathStart ((s.drop u).take l) with
      | none => { r with url := none }
      | some p =>
        if ((s.drop u).take l).getD p 0 ≠ 47 then { r with url := some (u + p) }
        else { r with url := some (u + p), code := m.2 }

/-- The same, `n` bytes further. -/
def RequestLine.shift (r : RequestLine) (n : Nat) : RequestLine :=
  { r with
    nuls := r.nuls.map (n + ·)
    url := r.url.map (n + ·)
    version := r.version.map (Option.map (n + ·)) }

/-- A request line that begins with a method: its first blank is overwritten. -/
theorem requestLine_method {name : List UInt8} (hword : Word name) {m : Method × HttpCode}
    (hm : CJob.methodOf name = some m) (s : List UInt8) :
    requestLine (name ++ 32 :: s) =
      { (targetLine m s).shift (name.length + 1) with
        nuls := name.length :: ((targetLine m s).shift (name.length + 1)).nuls } := by
  have hk : strpbrk (name ++ 32 :: s) blanks = some name.length :=
    strpbrk_append hword (by decide) (by decide) s
  have htake : (name ++ 32 :: s).take name.length = name := List.take_left' rfl
  have hdrop : ∀ i, (name ++ 32 :: s).drop (name.length + 1 + i) = s.drop i := by
    intro i
    rw [Nat.add_assoc, ← List.drop_drop, List.drop_left' rfl, Nat.add_comm 1 i, List.drop_succ_cons]
  have hdrop0 : (name ++ 32 :: s).drop (name.length + 1) = s := hdrop 0
  rw [requestLine, targetLine, hk]
  simp only [htake, hm, hdrop0, hdrop]
  obtain ⟨u, hu⟩ : ∃ u, strspn s blanks = u := ⟨_, rfl⟩
  rw [hu]
  cases hl : strpbrk (s.drop u) blanks with
  | none => rfl
  | some l =>
    have hassoc : name.length + 1 + u + l + 1 = name.length + 1 + (u + l + 1) := by omega
    obtain ⟨v, hv⟩ : ∃ v, u + l + 1 + strspn (s.drop (u + l + 1)) blanks = v := ⟨_, rfl⟩
    have hv' : name.length + 1 + (u + l + 1) + strspn (s.drop (u + l + 1)) blanks =
        name.length + 1 + v := by omega
    simp only [hassoc, hdrop, hv, hv']
    by_cases hver : strcasecmp (s.drop v) (ascii "HTTP/1.1") = 0
    · cases pathStart ((s.drop u).take l) with
      | none => simp [hver, RequestLine.shift, Nat.add_assoc]
      | some p =>
        by_cases hslash : ((s.drop u).take l).getD p 0 = 47
        · simp [-List.getD_eq_getElem?_getD, hver, hslash, RequestLine.shift, Nat.add_assoc]
        · simp [-List.getD_eq_getElem?_getD, hver, hslash, RequestLine.shift, Nat.add_assoc]
    · simp [hver, RequestLine.shift, Nat.add_assoc]

/-- The path is in what follows the method. -/
theorem path_method {name : List UInt8} (r : RequestLine) (s : List UInt8) :
    RequestLine.path { r.shift (name.length + 1) with
        nuls := name.length :: (r.shift (name.length + 1)).nuls } (name ++ 32 :: s) = r.path s := by
  have hset : ∀ (ks : List Nat) (s : List UInt8),
      (ks.map (name.length + 1 + ·)).foldl (fun s k => s.set k 0) (name ++ 0 :: s) =
        name ++ 0 :: ks.foldl (fun s k => s.set k 0) s := by
    intro ks
    induction ks with
    | nil => exact fun _ => rfl
    | cons k ks ih =>
      intro s
      rw [List.map_cons, List.foldl_cons, List.foldl_cons, ← ih, List.set_append_right _ _ (by omega),
        show name.length + 1 + k - name.length = k + 1 by omega, List.set_cons_succ]
  have hfirst : (name ++ 32 :: s).set name.length 0 = name ++ 0 :: s := by
    rw [List.set_append_right _ _ le_rfl, Nat.sub_self, List.set_cons_zero]
  rw [RequestLine.path, RequestLine.path]
  cases hu : r.url with
  | none => simp [RequestLine.shift, hu]
  | some u =>
    simp only [RequestLine.shift, hu, Option.map_some, List.foldl_cons, hfirst, hset]
    rw [Nat.add_assoc, ← List.drop_drop, List.drop_left' rfl, Nat.add_comm 1 u, List.drop_succ_cons]

/-- The method is only recorded. -/
theorem targetLine_congr {m m' : Method × HttpCode} (hm : m.2 ≠ .badRequest)
    (hm' : m'.2 ≠ .badRequest) (s : List UInt8) :
    ((targetLine m s).code = .badRequest ↔ (targetLine m' s).code = .badRequest) ∧
      (targetLine m s).path s = (targetLine m' s).path s ∧ (targetLine m s).method = some m := by
  rw [targetLine, targetLine]
  obtain ⟨u, hu⟩ : ∃ u, strspn s blanks = u := ⟨_, rfl⟩
  simp only [hu]
  cases strpbrk (s.drop u) blanks with
  | none => exact ⟨Iff.rfl, rfl, rfl⟩
  | some l =>
    simp only
    split_ifs with hver
    · exact ⟨Iff.rfl, rfl, rfl⟩
    · cases pathStart ((s.drop u).take l) with
      | none => exact ⟨Iff.rfl, rfl, rfl⟩
      | some p =>
        simp only
        split_ifs with hslash
        · exact ⟨Iff.rfl, rfl, rfl⟩
        · exact ⟨iff_of_false hm hm', rfl, rfl⟩

/-! ## Reading -/

/-- What is asked by a GET or a HEAD. -/
inductive Asked
  | noRequest
  | badRequest
  /-- A path, with the texts of the header lines. -/
  | path (url : List UInt8) (headers : List (List UInt8))
  deriving DecidableEq

/-- What is asked by a GET or a HEAD, from the bytes after the method and a blank. -/
def asked (s : List UInt8) : Asked :=
  match cutLine s with
  | none => .noRequest
  | some (x, r) =>
    let t := targetLine (.get, .getRequest) (cstr x)
    if t.code = .badRequest then .badRequest
    else if ((cutLines r).map cstr).contains [] then
      .path ((t.path (cstr x)).getD []) (((cutLines r).map cstr).takeWhile (· ≠ []))
    else .noRequest

/-- The methods that are answered alike. -/
def Mirrored (name : List UInt8) : Prop := name = ascii "GET" ∨ name = ascii "HEAD"

theorem Mirrored.word {name : List UInt8} (h : Mirrored name) : Word name ∧ Clean name := by
  rw [Word]
  rcases h with rfl | rfl <;> decide

/-- The first line of a GET or a HEAD. -/
theorem Mirrored.cutLine_eq {name : List UInt8} (h : Mirrored name) (s : List UInt8) :
    cutLine (name ++ 32 :: s) = (cutLine s).map fun p => (name ++ 32 :: p.1, p.2) := by
  have hclean : Clean (name ++ [32]) := by
    intro b hb
    rw [List.mem_append, List.mem_singleton] at hb
    rcases hb with hb | rfl
    · exact h.word.2 b hb
    · decide
  have hcut := cutLine_append hclean s
  simpa using hcut

theorem Mirrored.cstr_eq {name : List UInt8} (h : Mirrored name) (s : List UInt8) :
    cstr (name ++ 32 :: s) = name ++ 32 :: cstr s := by
  rw [cstr_append (fun b hb => (h.word.1 b hb).1), cstr_cons, if_neg (by decide)]

/-- The request line of a GET or a HEAD. -/
theorem Mirrored.requestLine {name : List UInt8} (h : Mirrored name) (s : List UInt8) :
    ((VsHttpServer.requestLine (name ++ 32 :: s)).code = .badRequest ↔
        (targetLine (.get, .getRequest) s).code = .badRequest) ∧
      (VsHttpServer.requestLine (name ++ 32 :: s)).path (name ++ 32 :: s) =
        (targetLine (.get, .getRequest) s).path s ∧
      ∃ m code, (VsHttpServer.requestLine (name ++ 32 :: s)).method = some (m, code) ∧
        (m = .get ∨ m = .head) := by
  obtain ⟨m, hm, hget, hcode⟩ : ∃ m, CJob.methodOf name = some m ∧ (m.1 = .get ∨ m.1 = .head) ∧
      m.2 ≠ .badRequest := by
    rcases h with rfl | rfl
    · exact ⟨(.get, .getRequest), by decide⟩
    · exact ⟨(.head, .headRequest), by decide⟩
  rw [requestLine_method h.word.1 hm s, path_method]
  obtain ⟨hbad, hpath, hmethod⟩ := targetLine_congr hcode
    (by simp : (Method.get, HttpCode.getRequest).2 ≠ .badRequest) s
  exact ⟨hbad, hpath, m.1, m.2, hmethod, hget⟩

namespace ConnJob

variable {c : ConnJob} {fs : FileSystem}

/-- What `process_read` makes of a GET or a HEAD on a fresh connection. -/
theorem Fresh.read_asked (h : c.Fresh) (fs : FileSystem) {name s : List UInt8} (hname : Mirrored name)
    (hlen : (name ++ 32 :: s).length ≤ readBufferSize) :
    match asked s with
    | .noRequest => (c.readEvent (name ++ 32 :: s)).code fs = .noRequest
    | .badRequest => (c.readEvent (name ++ 32 :: s)).code fs = .badRequest
    | .path url headers => (c.readEvent (name ++ 32 :: s)).code fs = fs.code (filePath url) ∧
        ((c.readEvent (name ++ 32 :: s)).parsed fs).path = filePath url ∧
        (((c.readEvent (name ++ 32 :: s)).parsed fs).linger = true ↔ ∃ t ∈ headers, IsKeepAlive t) := by
  have hret : ∀ {code j'}, CJob.processReadLoop .lineOk (c.toCJob.holding (name ++ 32 :: s)) =
      (.ret code, j') → (c.readEvent (name ++ 32 :: s)).code fs = code := by
    intro code j' hloop
    rw [ConnJob.code, h.readEvent, CJob.processRead, hloop]
  have hcut := hname.cutLine_eq s
  have hread := c.toCJob.reference_read hlen
  rw [asked]
  cases hs : cutLine s with
  | none =>
    rw [hs, Option.map_none] at hcut
    rw [reference, cutLines_of_none hcut] at hread
    obtain ⟨j', hloop, -⟩ := hread
    exact hret hloop
  | some p =>
    obtain ⟨x, r⟩ := p
    rw [hs, Option.map_some] at hcut
    -- the line is read in the same way, whichever of the two names it has
    obtain ⟨hbad, hpath, hmethod⟩ := hname.requestLine (cstr x)
    rw [← hname.cstr_eq x] at hbad hpath hmethod
    simp only [← hbad, ← hpath, List.contains_iff_mem]
    split_ifs with h1 h2
    · obtain ⟨j', hloop, -⟩ := c.toCJob.bad_read hlen hcut h1
      exact hret hloop
    · -- a whole head, of a request without a body
      obtain ⟨j', hhead, hurl⟩ := c.toCJob.head_read_path hlen hcut h1 h2
      obtain ⟨m, code, hm, hget⟩ := hmethod
      have hbody : j'.BodyLess := by
        have hm' := hhead.method
        rw [hm, Option.some.injEq, Prod.mk.injEq] at hm'
        rw [CJob.BodyLess, ← hm'.1]
        exact hget.imp_right .inl
      obtain ⟨hcode, hfile, hlinger⟩ := h.read_loop fs (hhead.answer hbody).2
      rw [hurl] at hcode hfile
      exact ⟨hcode, hfile, hlinger ▸ hhead.recorded.linger⟩
    · rw [reference, cutLines_of_some hcut, List.map_cons] at hread
      simp only [if_neg h1, if_neg h2] at hread
      obtain ⟨j', hloop, -⟩ := hread
      exact hret hloop

/-- A GET and a HEAD are read alike. -/
theorem Fresh.read_mirror (h : c.Fresh) (fs : FileSystem) {s : List UInt8}
    (hget : (ascii "GET" ++ 32 :: s).length ≤ readBufferSize)
    (hhead : (ascii "HEAD" ++ 32 :: s).length ≤ readBufferSize) :
    (c.readEvent (ascii "HEAD" ++ 32 :: s)).code fs = (c.readEvent (ascii "GET" ++ 32 :: s)).code fs ∧
      ((c.readEvent (ascii "GET" ++ 32 :: s)).code fs = .fileRequest →
        ((c.readEvent (ascii "HEAD" ++ 32 :: s)).parsed fs).linger =
            ((c.readEvent (ascii "GET" ++ 32 :: s)).parsed fs).linger ∧
          ((c.readEvent (ascii "HEAD" ++ 32 :: s)).parsed fs).fileStat =
            ((c.readEvent (ascii "GET" ++ 32 :: s)).parsed fs).fileStat ∧
          ((c.readEvent (ascii "HEAD" ++ 32 :: s)).parsed fs).fileAddress =
            ((c.readEvent (ascii "GET" ++ 32 :: s)).parsed fs).fileAddress) := by
  have hg := h.read_asked fs (.inl rfl) hget
  have hh := h.read_asked fs (.inr rfl) hhead
  cases hs : asked s with
  | noRequest =>
    simp only [hs] at hg hh
    exact ⟨hh.trans hg.symm, by simp [hg]⟩
  | badRequest =>
    simp only [hs] at hg hh
    exact ⟨hh.trans hg.symm, by simp [hg]⟩
  | path url headers =>
    simp only [hs] at hg hh
    have hcode := hh.1.trans hg.1.symm
    refine ⟨hcode, fun hfile => ⟨Bool.eq_iff_iff.2 (hh.2.2.trans hg.2.2.symm), ?_⟩⟩
    obtain ⟨hstat, -, -, haddr⟩ := CJob.processRead_fileRequest hfile
    obtain ⟨hstat', -, -, haddr'⟩ := CJob.processRead_fileRequest (hcode.trans hfile)
    rw [← parsed] at hstat haddr hstat' haddr'
    rw [hg.2.1] at hstat haddr
    rw [hh.2.1, hstat, Option.some.injEq] at hstat'
    exact ⟨hstat'.symm, by rw [haddr, haddr', hh.2.1, hstat']⟩

/-! ## Responses -/

/-- The bytes that a call has handed to the output buffer, if it comes to its end. -/
def response (fs : FileSystem) (c : ConnJob) : Option (List UInt8) :=
  if (c.process fs).2.isSome then some (output (c.process fs).1) else none

/-- The response for a file, `write` having found the C string `text` at `m_file_address`. -/
def fileResponse (st : FileStat) (linger : Bool) (text : List UInt8) : List UInt8 :=
  if st.size ≠ 0 then fileHead st.size linger ++ text
  else (CJob.headTexts 200 ok200Title okString.length linger).flatten ++ (okString ++ text)

theorem response_of_noRequest (h : c.code fs = .noRequest) : c.response fs = some [] := by
  rw [response, process_of_noRequest h]
  rfl

/-- After an error, `strlen` is not taken of a mapping. -/
theorem AtRest.response_eq_none (h : c.AtRest) (hno : c.code fs ≠ .noRequest)
    (hfile : c.code fs ≠ .fileRequest) : c.response fs = none := by
  rw [response, if_neg]
  intro hsome
  rw [(process_output hno).1, ← answered_fileAddress] at hsome
  refine hfile (h.code_eq ?_).1
  rw [CJob.write]
  obtain ⟨t, ht⟩ := Option.isSome_iff_exists.1 hsome
  rw [ht]
  simp only
  split_ifs <;> rfl

/-- The form for an empty file comes after its head. -/
theorem str_answered_empty (h0 : c.writeIdx = 0) (hcode : c.code fs = .fileRequest)
    (hsize : (c.parsed fs).fileStat.size = 0) :
    (c.answered fs).writeBuf.str 0 =
      (CJob.headTexts 200 ok200Title okString.length (c.parsed fs).linger).flatten ++ okString := by
  have hidx : (c.parsed fs).writeIdx = 0 := (CJob.processRead_writer fs c.toCJob).2.1.trans h0
  have hroom : (c.parsed fs).Room := by
    rw [CJob.Room, hidx]
    decide
  have htexts : (c.parsed fs).responseTexts (c.code fs) =
      CJob.headTexts 200 ok200Title okString.length (c.parsed fs).linger ++ [okString] := by
    rw [hcode, CJob.responseTexts]
    simp [CJob.errorForm, hsize]
  have hfits : CJob.Fits (c.parsed fs).writeIdx
      (CJob.headTexts 200 ok200Title okString.length (c.parsed fs).linger ++ [okString]).flatten := by
    rw [CJob.Fits, hidx, Nat.zero_add]
    cases (c.parsed fs).linger <;> decide
  have hzero := (c.parsed fs).responseTexts_ne_zero (c.code fs)
  rw [htexts] at hzero
  have hstr := (CJob.addTexts_of_fits hroom hzero (by simp) hfits).2
  rwa [hidx, ← htexts, ← answered_eq, htexts, List.flatten_append, List.flatten_singleton] at hstr

theorem response_of_fileRequest (h0 : c.writeIdx = 0) (hcode : c.code fs = .fileRequest) :
    c.response fs = (c.parsed fs).fileAddress.str.map
      (fileResponse (c.parsed fs).fileStat (c.parsed fs).linger) := by
  obtain ⟨hsome, houtput⟩ := process_output (show c.code fs ≠ .noRequest by rw [hcode]; simp)
  rw [response, hsome, houtput]
  cases (c.parsed fs).fileAddress.str with
  | none => rfl
  | some t =>
    refine congrArg some ?_
    rw [fileResponse, Option.getD_some]
    split_ifs with hsize
    · rw [(answered_file h0 hcode hsize).2]
    · rw [str_answered_empty h0 hcode (not_not.1 hsize), List.append_assoc]

/-- The response to a HEAD is the one to the GET. -/
theorem Fresh.response_mirror (h : c.Fresh) (hrest : c.AtRest) (fs : FileSystem) {s : List UInt8}
    (hget : (ascii "GET" ++ 32 :: s).length ≤ readBufferSize)
    (hhead : (ascii "HEAD" ++ 32 :: s).length ≤ readBufferSize) :
    (c.readEvent (ascii "HEAD" ++ 32 :: s)).response fs =
      (c.readEvent (ascii "GET" ++ 32 :: s)).response fs := by
  obtain ⟨hcode, hfile⟩ := h.read_mirror fs hget hhead
  by_cases hno : (c.readEvent (ascii "GET" ++ 32 :: s)).code fs = .noRequest
  · rw [response_of_noRequest hno, response_of_noRequest (hcode.trans hno)]
  by_cases hreq : (c.readEvent (ascii "GET" ++ 32 :: s)).code fs = .fileRequest
  · obtain ⟨hlinger, hstat, haddr⟩ := hfile hreq
    have hidx : ∀ B, (c.readEvent B).writeIdx = 0 := fun B => by rw [h.readEvent]; rfl
    rw [response_of_fileRequest (hidx _) hreq, response_of_fileRequest (hidx _) (hcode.trans hreq),
      hlinger, hstat, haddr]
  · rw [(hrest.readEvent _).response_eq_none hno hreq,
      (hrest.readEvent _).response_eq_none (hcode ▸ hno) (hcode ▸ hreq)]

/-- The response for a file is only a head when nothing follows it. -/
theorem headOf_fileResponse_iff (st : FileStat) (linger : Bool) {text : List UInt8} :
    headOf (fileResponse st linger text) = fileResponse st linger text ↔ st.size ≠ 0 ∧ text = [] := by
  have hlines : ∀ len, ∀ x ∈ CJob.headLines 200 ok200Title len linger, Clean x ∧ x ≠ [] :=
    fun len x hx => (CJob.plain_headLines (by decide) 200 len linger x hx).imp_left CJob.Plain.clean
  have hok : okString ≠ [] := by decide
  rw [fileResponse, fileHead, CJob.flatten_headTexts, CJob.flatten_headTexts]
  split_ifs with hsize
  · rw [headOf_flatMap (hlines _)]
    simp [hsize]
  · rw [headOf_flatMap (hlines _)]
    simp [hsize, hok]

/-- The mapping is empty as a C string. -/
theorem str_eq_nil_iff {address : FileAddress} :
    address.str = some [] ↔ ∃ bytes, address = .mapped bytes ∧ bytes.head? = some 0 := by
  cases address with
  | mapped bytes =>
    rw [FileAddress.str]
    cases bytes with
    | nil => simp
    | cons b bytes =>
      rw [cstr_cons]
      by_cases hb : b = 0
      · simp [hb]
      · simp [hb]
  | _ => simp [FileAddress.str]

/-- The response is its own head if it is for a file whose first byte is a NUL. -/
theorem head_response_iff (h0 : c.writeIdx = 0) (hcode : c.code fs = .fileRequest) :
    (∃ out, c.response fs = some out ∧ c.response fs = some (headOf out)) ↔
      ∃ bytes, fs.Serves (c.parsed fs).path (c.parsed fs).fileStat bytes ∧ bytes.head? = some 0 := by
  have hserves : (∃ bytes, fs.Serves (c.parsed fs).path (c.parsed fs).fileStat bytes ∧
      bytes.head? = some 0) ↔
        (c.parsed fs).fileStat.size ≠ 0 ∧ (c.parsed fs).fileAddress.str = some [] := by
    simp only [serves_iff hcode, str_eq_nil_iff, and_assoc, exists_and_left]
  rw [hserves, response_of_fileRequest h0 hcode]
  cases (c.parsed fs).fileAddress.str with
  | none => simp
  | some t =>
    rw [Option.map_some, Option.some.injEq, ← headOf_fileResponse_iff _ (c.parsed fs).linger]
    constructor
    · rintro ⟨out, he, hhead⟩
      rw [Option.some.injEq] at he hhead
      rw [he]
      exact hhead.symm.trans he
    · intro hhead
      exact ⟨_, rfl, congrArg some hhead.symm⟩

/-- The response is the head of the one to the GET, and nothing more. -/
def Mirrors (get head : Option (List UInt8)) : Prop :=
  ∃ out, get = some out ∧ head = some (headOf out)

/-- A request in bytes: the request line, header lines, and the empty line. -/
def requestBytes (method target : List UInt8) (headers : List (List UInt8)) : List UInt8 :=
  terminated (method ++ 32 :: (target ++ 32 :: ascii "HTTP/1.1")) ++
    (headers.flatMap terminated ++ terminated [])

/-- The bytes of a request after the method and a blank. -/
def targetBytes (target : List UInt8) (headers : List (List UInt8)) : List UInt8 :=
  terminated (target ++ 32 :: ascii "HTTP/1.1") ++ (headers.flatMap terminated ++ terminated [])

theorem requestBytes_eq (method target : List UInt8) (headers : List (List UInt8)) :
    requestBytes method target headers = method ++ 32 :: targetBytes target headers := by
  simp [requestBytes, targetBytes, terminated]

/-- On a fresh connection, for every target, header lines and file system: the response to
    the HEAD is the head of the response to the GET if and only if the bytes do not complete
    a request, or they ask for a file whose first byte is a NUL. -/
theorem mirrors_iff (h : c.Fresh) (hreach : Session.Reachable c) (fs : FileSystem)
    (target : List UInt8) (headers : List (List UInt8))
    (hlen : (requestBytes (ascii "HEAD") target headers).length ≤ readBufferSize) :
    Mirrors ((c.readEvent (requestBytes (ascii "GET") target headers)).response fs)
        ((c.readEvent (requestBytes (ascii "HEAD") target headers)).response fs) ↔
      asked (targetBytes target headers) = .noRequest ∨
        ∃ url texts st bytes, asked (targetBytes target headers) = .path url texts ∧
          fs.Serves (filePath url) st bytes ∧ bytes.head? = some 0 := by
  obtain ⟨s, hs⟩ : ∃ s, targetBytes target headers = s := ⟨_, rfl⟩
  rw [requestBytes_eq, hs] at hlen
  rw [requestBytes_eq, requestBytes_eq, hs]
  have hget : (ascii "GET" ++ 32 :: s).length ≤ readBufferSize := by
    refine le_trans ?_ hlen
    rw [List.length_append, List.length_append]
    exact Nat.add_le_add_right (by decide) _
  have hasked := h.read_asked fs (.inl rfl) hget
  have hidx : (c.readEvent (ascii "GET" ++ 32 :: s)).writeIdx = 0 := by rw [h.readEvent]; rfl
  have hrest := hreach.atRest.readEvent (ascii "GET" ++ 32 :: s)
  rw [h.response_mirror hreach.atRest fs hget hlen, Mirrors]
  cases hcase : asked s with
  | noRequest =>
    -- neither request is answered
    simp only [hcase] at hasked
    rw [response_of_noRequest hasked]
    exact iff_of_true ⟨[], rfl, by rw [headOf_nil]⟩ (.inl rfl)
  | badRequest =>
    simp only [hcase] at hasked
    rw [hrest.response_eq_none (by rw [hasked]; simp) (by rw [hasked]; simp)]
    simp
  | path url texts =>
    simp only [hcase] at hasked
    obtain ⟨hcode, hpath, -⟩ := hasked
    by_cases hfile : (c.readEvent (ascii "GET" ++ 32 :: s)).code fs = .fileRequest
    · rw [head_response_iff hidx hfile, hpath]
      constructor
      · rintro ⟨bytes, hserves, h0⟩
        exact .inr ⟨url, texts, _, bytes, rfl, hserves, h0⟩
      · rintro (hno | ⟨url', texts', st, bytes, he, hserves, h0⟩)
        · cases hno
        · cases he
          have hst := (CJob.processRead_fileRequest hfile).1
          rw [← parsed, hpath, hserves.stat, Option.some.injEq] at hst
          exact ⟨bytes, hst ▸ hserves, h0⟩
    · rw [hrest.response_eq_none (hcode ▸ fs.code_ne_noRequest _) hfile]
      refine iff_of_false (by simp) ?_
      rintro (hno | ⟨url', texts', st, bytes, he, hserves, -⟩)
      · cases hno
      · cases he
        exact hfile (hcode.trans hserves.code)

/-- A file that begins with a NUL. -/
theorem mirrors_iff_nul :
    Mirrors (((accept default ⟨5, by decide⟩).readEvent (requestBytes (ascii "GET") (ascii "/a") [])).response
        (.all ⟨0o100644, 1⟩ (.mapped [0])))
      (((accept default ⟨5, by decide⟩).readEvent (requestBytes (ascii "HEAD") (ascii "/a") [])).response
        (.all ⟨0o100644, 1⟩ (.mapped [0]))) :=
  (mirrors_iff (fresh_accept default ⟨5, by decide⟩) (Session.reachable_accept default ⟨5, by decide⟩)
    (.all ⟨0o100644, 1⟩ (.mapped [0])) (ascii "/a") [] (by decide)).2
    (.inr ⟨ascii "/a", [], ⟨0o100644, 1⟩, [0], by decide +kernel,
      FileSystem.serves_all _ (by decide) (by decide) (by decide) _ _, rfl⟩)

/-- A text file: the response to the HEAD has its content. -/
theorem not_mirrors :
    ¬Mirrors (((accept default ⟨5, by decide⟩).readEvent (requestBytes (ascii "GET") (ascii "/a") [])).response
        (.all ⟨0o100644, 5⟩ (.mapped (ascii "hello" ++ [0]))))
      (((accept default ⟨5, by decide⟩).readEvent (requestBytes (ascii "HEAD") (ascii "/a") [])).response
        (.all ⟨0o100644, 5⟩ (.mapped (ascii "hello" ++ [0])))) := by
  have hfresh := fresh_accept default ⟨5, by decide⟩
  have hserves := FileSystem.serves_all ⟨0o100644, 5⟩ (by decide) (by decide) (by decide)
    (filePath (ascii "/a")) (ascii "hello" ++ [0])
  have hasked := hfresh.read_asked (.all ⟨0o100644, 5⟩ (.mapped (ascii "hello" ++ [0]))) (.inl rfl)
    (s := targetBytes (ascii "/a") []) (by decide)
  rw [show asked (targetBytes (ascii "/a") []) = .path (ascii "/a") [] by decide +kernel] at hasked
  obtain ⟨hcode, -⟩ := hasked
  rw [hserves.code] at hcode
  rw [requestBytes_eq, requestBytes_eq, hfresh.response_mirror
    (Session.reachable_accept default ⟨5, by decide⟩).atRest _ (by decide) (by decide), Mirrors,
    head_response_iff rfl hcode]
  rintro ⟨bytes, hserves', h0⟩
  cases hserves'.mmap
  exact absurd h0 (by decide)

end ConnJob

end VsHttpServer
