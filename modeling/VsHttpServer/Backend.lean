import VsHttpServer.Job.Client
import VsHttpServer.Job.Mirror
import VsHttpServer.Upstream

/-!
# The server behind nginx

The nginx module sends one request to the server, `backendQueryLine`, and reads the
response with `process_header`: this is `mytest_process_status_line` until the status line
is there, and `mytest_upstream_process_header` from then on. nginx calls it again, with
more bytes, when it has returned `NGX_AGAIN`.

* `calls_pieces`: a response that comes in pieces is read as one that comes at once;
* `backend_answer`: the answer of the server, where there is a file to be sent;
* `backend_not_copied`: neither header line of it is copied right.
-/

namespace VsHttpServer

open CString Crlf

namespace Upstream

/-! ## The calls of `process_header` -/

/-- What `ngx_http_parse_status_line` returns; the status line is that of `ctx->status`. -/
inductive StatusParsed
  | ok (code : Nat) (line : List UInt8)
  | again
  | error

/-- What nginx has for a call of `process_header`. -/
structure Call where
  /-- `ngx_http_get_module_ctx` does not return `NULL`. -/
  ctx : Bool
  /-- `ngx_pnalloc` does not return `NULL` for `temp`. -/
  temp : Bool
  status : StatusParsed
  /-- `u->state` is not `NULL`. -/
  state : Bool
  /-- `ngx_palloc` does not return `NULL` for the status line. -/
  palloc : Bool
  turns : List Turn

/-- The functions that `u->process_header` can be. -/
inductive Phase
  | statusLine
  | header
  deriving DecidableEq

/-- What the calls leave in `r` and `r->upstream`; `none` for a field that was not set. -/
structure State where
  processHeader : Phase
  /-- `r->http_version` is `NGX_HTTP_VERSION_9`. -/
  version9 : Bool
  /-- `u->state->status`. -/
  status : Option Nat
  statusN : Option Nat
  statusLine : Option (List UInt8)
  headers : List NgxTableElt

/-- `mytest_upstream_process_header`. -/
def processHeaderCall (env : Env) (c : Call) (s : State) : Option (Rc × State) :=
  (processHeader env c.turns s.headers).map fun r => (r.1, { s with headers := r.2 })

/-- `mytest_process_status_line`; it has no result where it stores to a `u->state` that is
    `NULL`. -/
def processStatusLine (env : Env) (c : Call) (s : State) : Option (Rc × State) :=
  if c.ctx = false then some (.error, s)
  else if c.temp = false then some (.error, s)
  else
    match c.status with
    | .again => some (.again, s)
    | .error =>
      if c.state then some (.ok, { s with version9 := true, status := some 200 }) else none
    | .ok code line =>
      let s := { s with
        status := if c.state then some code else s.status
        statusN := some code }
      if c.palloc = false then some (.error, s)
      else processHeaderCall env c { s with statusLine := some line, processHeader := .header }

/-- `u->process_header`. -/
def call (env : Env) (c : Call) (s : State) : Option (Rc × State) :=
  match s.processHeader with
  | .statusLine => processStatusLine env c s
  | .header => processHeaderCall env c s

/-- The calls up to the first one that does not return `NGX_AGAIN`. -/
def calls (env : Env) : List Call → State → Option (Rc × State)
  | [], _ => none
  | c :: cs, s =>
    match call env c s with
    | some (.again, s) => calls env cs s
    | r => r

/-- The calls for headers that come in pieces: the turn `w`, which finds no more of them,
    is the last one of each but the last. -/
def pieces (c : Call) (w : Turn) : List Turn → List (List Turn) → List Call
  | p, [] => [{ c with turns := p }]
  | p, q :: ps => { c with turns := p ++ [w] } :: pieces c w q ps

variable {env : Env} {c : Call} {w : Turn} {s : State}

/-- Some turns end the loop, or take up their lines, whatever comes after them. -/
theorem processHeader_append (env : Env) {ts : List Turn} (hts : ∀ t ∈ ts, t.parsed ≠ .again)
    (hs : List NgxTableElt) :
    (∃ r, (∀ x, r = some x → x.1 ≠ .again) ∧ ∀ us, processHeader env (ts ++ us) hs = r) ∨
      ∃ hs', ∀ us, processHeader env (ts ++ us) hs = processHeader env us hs' := by
  induction ts generalizing hs with
  | nil => exact .inr ⟨hs, fun us => rfl⟩
  | cons t ts ih =>
    rw [List.forall_mem_cons] at hts
    simp only [List.cons_append, processHeader]
    cases ht : t.parsed with
    | again => exact absurd ht hts.1
    | other => exact .inl ⟨_, by simp, fun _ => rfl⟩
    | headerDone =>
      refine .inl ⟨_, fun x hx => ?_, fun _ => rfl⟩
      cases hx
      rw [headerDone]
      split_ifs <;> simp
    | ok l =>
      simp only
      split_ifs
      · cases t.pnalloc l.size with
        | none => exact .inl ⟨_, by simp, fun _ => rfl⟩
        | some a =>
          simp only
          cases copyHeader env.ngxTolower l a with
          | none => exact .inl ⟨none, by simp, fun _ => rfl⟩
          | some a' =>
            simp only [Option.bind_some]
            split_ifs
            · exact .inl ⟨_, by simp, fun _ => rfl⟩
            · exact ih hts.2 (hs ++ [l.elt a'])
      · exact .inl ⟨_, by simp, fun _ => rfl⟩

theorem calls_cons_of_again {cs : List Call} {s' : State} (h : call env c s = some (.again, s')) :
    calls env (c :: cs) s = calls env cs s' := by
  rw [calls, h]

theorem calls_cons_of_ne {cs : List Call} (h : ∀ x, call env c s = some x → x.1 ≠ .again) :
    calls env (c :: cs) s = call env c s := by
  rw [calls]
  split
  · next s' hs' => exact absurd rfl (h _ hs')
  · rfl

theorem calls_congr {c' : Call} {s' : State} (h : call env c s = call env c' s') (cs : List Call) :
    calls env (c :: cs) s = calls env (c' :: cs) s' := by
  rw [calls, calls, h]

theorem call_header (env : Env) (c : Call) (hs : s.processHeader = .header) (ts : List Turn) :
    call env { c with turns := ts } s =
      (processHeader env ts s.headers).map fun r => (r.1, { s with headers := r.2 }) := by
  rw [call]
  split
  · next h => exact absurd (hs.symm.trans h) (by decide)
  · rfl

/-- The headers come in pieces once the status line is there. -/
theorem calls_pieces_header (hw : w.parsed = .again) {p : List Turn} {ps : List (List Turn)}
    (hps : ∀ q ∈ p :: ps, ∀ t ∈ q, t.parsed ≠ .again) (hs : s.processHeader = .header) :
    calls env (pieces c w p ps) s = calls env [{ c with turns := (p :: ps).flatten }] s := by
  induction ps generalizing p s with
  | nil => rw [pieces, List.flatten_singleton]
  | cons q ps ih =>
    rw [List.forall_mem_cons] at hps
    rw [pieces, List.flatten_cons]
    rcases processHeader_append env hps.1 s.headers with ⟨r, hr, hsame⟩ | ⟨hs', hsame⟩
    · -- the loop has ended in this piece
      have hends : ∀ ts x, call env { c with turns := p ++ ts } s = some x → x.1 ≠ .again := by
        intro ts x hx
        rw [call_header env c hs, hsame] at hx
        obtain ⟨y, hy, rfl⟩ := Option.map_eq_some_iff.1 hx
        exact hr y hy
      rw [calls_cons_of_ne (hends _), calls_cons_of_ne (hends _), call_header env c hs,
        call_header env c hs, hsame, hsame]
    · -- all its lines were taken up
      have hagain : call env { c with turns := p ++ [w] } s =
          some (.again, { s with headers := hs' }) := by
        rw [call_header env c hs, hsame, processHeader, hw]
        rfl
      rw [calls_cons_of_again hagain, ih (s := { s with headers := hs' }) hps.2 hs]
      refine calls_congr ?_ []
      have hnext := call_header env c (s := { s with headers := hs' }) hs
      rw [call_header env c hs, hsame]
      exact hnext _

/-- A call that finds the status line whole, and is not out of memory. -/
structure Call.Begins (c : Call) (code : Nat) (line : List UInt8) : Prop where
  ctx : c.ctx = true
  temp : c.temp = true
  status : c.status = .ok code line
  palloc : c.palloc = true

/-- The status line is entered, and the headers are next. -/
def Call.entered (c : Call) (code : Nat) (line : List UInt8) (s : State) : State :=
  { s with
    status := if c.state then some code else s.status
    statusN := some code
    statusLine := some line
    processHeader := .header }

theorem Call.Begins.call_eq {code : Nat} {line : List UInt8} (hc : c.Begins code line)
    (hs : s.processHeader = .statusLine) (ts : List Turn) :
    Upstream.call env { c with turns := ts } s =
      Upstream.call env { c with turns := ts } (c.entered code line s) := by
  have hright := call_header env c (s := c.entered code line s) rfl ts
  rw [hright, call, hs]
  simp [processStatusLine, hc.ctx, hc.temp, hc.status, hc.palloc, processHeaderCall, entered]

/-- A response that comes in pieces is read as one that comes at once: calls that do not find
    the status line whole, and calls that take up some of the headers, in any number, have
    the same result as one call for all of it. -/
theorem calls_pieces {cs : List Call}
    (hcs : ∀ c ∈ cs, c.ctx = true ∧ c.temp = true ∧ c.status = .again)
    {code : Nat} {line : List UInt8} (hc : c.Begins code line) (hw : w.parsed = .again)
    {p : List Turn} {ps : List (List Turn)} (hps : ∀ q ∈ p :: ps, ∀ t ∈ q, t.parsed ≠ .again)
    (hs : s.processHeader = .statusLine) :
    calls env (cs ++ pieces c w p ps) s = calls env [{ c with turns := (p :: ps).flatten }] s := by
  induction cs with
  | nil =>
    rw [List.nil_append, calls_congr (hc.call_eq hs _), ← calls_pieces_header hw hps rfl]
    cases ps with
    | nil => exact calls_congr (hc.call_eq hs _) _
    | cons q ps => exact calls_congr (hc.call_eq hs _) _
  | cons d cs ih =>
    rw [List.forall_mem_cons] at hcs
    obtain ⟨⟨hctx, htemp, hstatus⟩, hcs⟩ := hcs
    have hagain : call env d s = some (.again, s) := by
      rw [call, hs]
      simp [processStatusLine, hctx, htemp, hstatus]
    rw [List.cons_append, calls_cons_of_again hagain]
    exact ih hcs

/-- A status line that comes in two calls, and `Age: 600` in the second of three. -/
theorem calls_pieces_age : ∃ s,
    let env : Env := ⟨tolower, fun _ => 0, fun _ => false⟩
    let t : Turn := ⟨.again, true, fun n => some (.zero n), true, true, true⟩
    let c : Call := ⟨true, true, .ok 200 (ascii "HTTP/1.1 200 Ok"), true, true, []⟩
    calls env ([{ c with status := .again }] ++
        pieces c t [{ t with parsed := .ok ageLine }] [[{ t with parsed := .headerDone }]])
      ⟨.statusLine, false, none, none, none, []⟩ = some (.ok, s) ∧
    s.status = some 200 ∧ s.headers.length = 3 := by
  refine ⟨_, (calls_pieces ?_ ⟨rfl, rfl, rfl, rfl⟩ rfl ?_ rfl).trans rfl, rfl, rfl⟩
  · simp
  · simp

/-! ## The request of the module, and the answer to it -/

/-- `mytest_upstream_create_request`, with the outcomes of `ngx_create_temp_buf` and
    `ngx_alloc_chain_link`: the bytes of the only buffer in `request_bufs`. -/
def createRequest (tempBuf chainLink : Bool) : Rc × Option (List UInt8) :=
  if tempBuf && chainLink then
    (.ok, some (ascii "GET /index.html HTTP/1.1\r\nConnection: close\r\n\r\n"))
  else (.error, none)

/-- The request as the server reads it. -/
def backendQueryLine : Request where
  line := ascii "GET /index.html HTTP/1.1"
  headers := [ascii "Connection: close"]
  clean_line := by decide
  clean_headers := by decide
  accepted := by decide +kernel
  header_ne := by decide

theorem createRequest_eq {tempBuf chainLink : Bool} {bytes : List UInt8}
    (h : createRequest tempBuf chainLink = (.ok, some bytes)) : bytes = backendQueryLine.bytes := by
  rw [createRequest] at h
  split_ifs at h
  · cases h
    decide
  · cases h

theorem backendQueryLine_bodyLess : backendQueryLine.BodyLess :=
  .inl ⟨.getRequest, by decide +kernel⟩

theorem backendQueryLine_not_keepAlive : ¬backendQueryLine.KeepAlive := by
  rintro ⟨h, hh, hkeep⟩
  rw [backendQueryLine, List.mem_singleton] at hh
  rw [hh, isKeepAlive_iff (by decide)] at hkeep
  exact absurd hkeep (by decide)

theorem backendQueryLine_fileFits : backendQueryLine.FileFits := by
  have hpath : backendQueryLine.path = ascii "/index.html" := by decide +kernel
  rw [Request.FileFits, hpath]
  decide

/-- The answer to the module's request on a fresh connection: the connection stays, and the
    bytes are a head of three lines and what `strlen` finds of the file. -/
theorem backend_answer {c : ConnJob} (h : c.Fresh) {fs : FileSystem} {st : FileStat}
    {file : List UInt8} (hserves : fs.Serves backendQueryLine.file st file) (hend : 0 ∈ file) :
    ((c.readEvent backendQueryLine.bytes).process fs).2.isSome ∧
      .deleteConn ∉ ((c.readEvent backendQueryLine.bytes).process fs).1 ∧
      output ((c.readEvent backendQueryLine.bytes).process fs).1 =
        (CJob.headLines 200 ok200Title (toInt32 st.size) false).flatMap terminated ++
          terminated [] ++ cstr file := by
  have hlen : (backendQueryLine.bytes ++ []).length ≤ readBufferSize := by decide
  obtain ⟨hcode, hst, haddr, hlinger⟩ := h.read_served backendQueryLine_bodyLess hlen
    ((Request.filePath_path backendQueryLine_fileFits).symm ▸ hserves)
  rw [List.append_nil] at hcode hst haddr hlinger
  have hoff : ((c.readEvent backendQueryLine.bytes).parsed fs).linger = false :=
    Bool.eq_false_of_not_eq_true fun hon => backendQueryLine_not_keepAlive (hlinger.1 hon)
  have hidx : (c.readEvent backendQueryLine.bytes).writeIdx = 0 := by rw [h.readEvent]; rfl
  have hsize : ((c.readEvent backendQueryLine.bytes).parsed fs).fileStat.size ≠ 0 := by
    rw [hst]
    exact hserves.size
  obtain ⟨hsome, houtput⟩ := ConnJob.process_file_output hcode haddr
  refine ⟨hsome.2 hend, fun hdel => ?_, ?_⟩
  · exact (ConnJob.deleteConn_mem_process.1 hdel).2 (ConnJob.keeps_file hcode hsize)
  · rw [houtput hend, (ConnJob.answered_file hidx hcode hsize).2, ConnJob.fileHead,
      CJob.flatten_headTexts, hst, hoff]

/-- A header line is delimited at its first colon, and the blank after it. -/
structure HeaderLine.Splits (l : HeaderLine) (x : List UInt8) : Prop where
  eq : x = l.name ++ (ascii ": " ++ l.value)
  name : 58 ∉ l.name

theorem HeaderLine.Splits.unique {l : HeaderLine} {x name value : List UInt8} (h : l.Splits x)
    (hx : x = name ++ (ascii ": " ++ value)) (hname : 58 ∉ name) :
    l.name = name ∧ l.value = value := by
  have hcut : ∀ n v : List UInt8, 58 ∉ n → (n ++ (ascii ": " ++ v)).takeWhile (· ≠ 58) = n := by
    intro n v hn
    have hne : ∀ b ∈ n, decide (b ≠ 58) = true := fun b hb =>
      decide_eq_true fun he => hn (he ▸ hb)
    rw [List.takeWhile_append_of_pos hne]
    simp [ascii]
  have hn : l.name = name := by
    rw [← hcut l.name l.value h.name, ← h.eq, hx, hcut name value hname]
  refine ⟨hn, ?_⟩
  have heq := h.eq.symm.trans hx
  rw [hn] at heq
  exact List.append_cancel_left (List.append_cancel_left heq)

/-- A line with a value that is shorter than its name is not copied right. -/
theorem HeaderLine.Splits.not_copied {env : Env} {t : Turn} {l : HeaderLine} {a : CharArray l.size}
    {x name value : List UInt8} (h : l.Splits x) (ht : t.Line l a)
    (hl : l.Delimited env.ngxTolower) (hx : x = name ++ (ascii ": " ++ value)) (hname : 58 ∉ name)
    (hplain : CJob.Plain x) (hlt : value.length < name.length) :
    ∃ e, Pushes env t e ∧ ¬Copied env.ngxTolower l e := by
  refine ⟨_, ht.pushes hl, fun hc => ?_⟩
  obtain ⟨hn, hv⟩ := h.unique hx hname
  have hnul : 0 ∉ x := fun h0 => (hplain 0 h0).1 rfl
  rw [hx, List.mem_append, List.mem_append, not_or, not_or, ← hn, ← hv] at hnul
  have hsame := ((nulsFit_iff_of_nulFree hl hnul.1 hnul.2.2).1 ((copied_elt_iff hl).1 hc)).2
  rw [← hl.length_name, ← hl.length_value, hn, hv] at hsame
  omega

/-- The module connects to a fresh connection of the server and sends its request. Where there is
    a file to be sent, and `strlen` finds its end, the answer begins with a head of three
    lines, and the entry that is pushed for either of the two header lines is not right,
    whatever nginx has. -/
theorem backend_not_copied {c : ConnJob} (h : c.Fresh) {fs : FileSystem} {st : FileStat}
    {file : List UInt8} (hserves : fs.Serves backendQueryLine.file st file) (hend : 0 ∈ file)
    {tempBuf chainLink : Bool} {bytes : List UInt8}
    (hreq : createRequest tempBuf chainLink = (.ok, some bytes)) :
    ((c.readEvent bytes).process fs).2.isSome ∧
      .deleteConn ∉ ((c.readEvent bytes).process fs).1 ∧
      Response.readHead (output ((c.readEvent bytes).process fs).1) =
        some ([statusLine 200 ok200Title, contentLengthLine (toInt32 st.size),
          connectionLine false], cstr file) ∧
      ∀ x ∈ [contentLengthLine (toInt32 st.size), connectionLine false],
        ∀ (env : Env) (t : Turn) (l : HeaderLine) (a : CharArray l.size), t.Line l a →
          l.Delimited env.ngxTolower → l.Splits x →
            ∃ e, Pushes env t e ∧ ¬Copied env.ngxTolower l e := by
  obtain rfl := createRequest_eq hreq
  obtain ⟨hsome, hdel, houtput⟩ := backend_answer h hserves hend
  have hplain := CJob.plain_headLines (by decide : CJob.Plain ok200Title) 200 (toInt32 st.size)
    false
  refine ⟨hsome, hdel, ?_, ?_⟩
  · rw [houtput, Response.readHead_flatMap fun x hx => (hplain x hx).imp_left CJob.Plain.clean]
    rfl
  · intro x hx env t l a ht hl hsplit
    have hmem : x ∈ CJob.headLines 200 ok200Title (toInt32 st.size) false :=
      List.mem_cons_of_mem _ hx
    rcases List.mem_pair.1 hx with rfl | rfl
    · have heq : contentLengthLine (toInt32 st.size) =
          ascii "Content-Length" ++ (ascii ": " ++ decimal (toInt32 st.size)) := by
        rw [contentLengthLine, ← List.append_assoc]
        exact congrArg (· ++ decimal (toInt32 st.size)) (by decide)
      have hdecimal := length_decimal_le (toInt32_bounds st.size).1 (toInt32_bounds st.size).2
      refine hsplit.not_copied ht hl heq (by decide) (hplain _ hmem).1 (hdecimal.trans_lt ?_)
      decide
    · have heq : connectionLine false = ascii "Connection" ++ (ascii ": " ++ ascii "close") := by
        decide
      exact hsplit.not_copied ht hl heq (by decide) (hplain _ hmem).1 (by decide)

/-- The header line `Connection: close` of a response. -/
def closeHeader : HeaderLine where
  buffer := ascii "Connection: close\r\n"
  headerNameStart := 0
  headerNameEnd := 10
  headerStart := 12
  headerEnd := 17
  headerHash := 0
  lowcaseHeader := ascii "connection"
  lowcaseIndex := 10

/-- The line `Connection: close` of the answer where there is a file of five bytes. -/
theorem backend_not_copied_close :
    Response.readHead (output (((ConnJob.accept default ⟨5, by decide⟩).readEvent
        backendQueryLine.bytes).process (.all ⟨0o100644, 5⟩ (.mapped (ascii "hello" ++ [0])))).1) =
      some ([statusLine 200 ok200Title, contentLengthLine 5, connectionLine false],
        ascii "hello") ∧
    ∃ e, Pushes plainEnv (lineTurn closeHeader) e ∧ ¬Copied tolower closeHeader e := by
  have hreq : createRequest true true = (.ok, some backendQueryLine.bytes) := by decide
  obtain ⟨-, -, hread, hcopy⟩ := backend_not_copied
    (ConnJob.fresh_accept default ⟨5, by decide⟩)
    (FileSystem.serves_all ⟨0o100644, 5⟩ (by decide) (by decide) (by decide)
      backendQueryLine.file (ascii "hello" ++ [0])) (by decide) hreq
  have hl : closeHeader.Delimited tolower :=
    ⟨by decide, by decide, by decide, by decide, fun _ => by decide⟩
  have hsplit : closeHeader.Splits (connectionLine false) := ⟨by decide, by decide⟩
  exact ⟨hread, hcopy _ (List.mem_cons_of_mem _ List.mem_cons_self) plainEnv
    (lineTurn closeHeader) closeHeader _ (line_lineTurn closeHeader) hl hsplit⟩

end Upstream

end VsHttpServer
