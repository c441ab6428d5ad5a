import VsHttpServer.Job.Frame
import VsHttpServer.Job.Receive
import VsHttpServer.Printf

/-!
# Requests

A request is a request line that is accepted and header lines, with the empty line
that ends them (`Request`). On a freshly initialised job that has received it, with
anything after it, the parser reads just its lines.

* `Request.head_read`: what the parser has recorded at the end of the head;
* `Request.read`: a request without a body gets to `do_request`, with its path;
* `path_buildPath`: the path that `do_request` gives to `stat` and `open`.
-/

namespace VsHttpServer

open CString Crlf

/-- The path in the text of a request line, cut off by the NULs stored in it. -/
def RequestLine.path (r : RequestLine) (t : List UInt8) : Option (List UInt8) :=
  r.url.map fun u => cstr ((r.nuls.foldl (fun s k => s.set k 0) t).drop u)

namespace CJob

/-- `m_url` is left inside the text, or at its end. -/
theorem le_of_url {t : List UInt8} (ht : cstr t = t) {u : Nat} (h : (requestLine t).url = some u) :
    u ≤ t.length := by
  rw [requestLine] at h
  cases hk : strpbrk t blanks with
  | none => simp [hk] at h
  | some k =>
    have hkt := lt_of_strpbrk hk
    rw [ht] at hkt
    simp only [hk] at h
    cases hm : methodOf (t.take k) with
    | none =>
      simp only [hm, Option.some.injEq] at h
      omega
    | some m =>
      simp only [hm] at h
      obtain ⟨v, hv⟩ : ∃ v, k + 1 + strspn (t.drop (k + 1)) blanks = v := ⟨_, rfl⟩
      have hvt : v ≤ t.length := hv ▸ add_strspn_drop_le hkt blanks
      rw [hv] at h
      cases hl : strpbrk (t.drop v) blanks with
      | none =>
        simp only [hl, Option.some.injEq] at h
        omega
      | some l =>
        have hlt := add_lt_of_strpbrk_drop hl
        simp only [hl] at h
        split_ifs at h
        · cases h
          omega
        · -- the path starts in the target
          have huri : cstr ((t.drop v).take l) = (t.drop v).take l := by
            refine cstr_eq_self fun h0 => zero_not_mem_cstr t ?_
            rw [ht]
            exact List.mem_of_mem_drop (List.mem_of_mem_take h0)
          cases hp : pathStart ((t.drop v).take l) with
          | none => simp [hp] at h
          | some p =>
            have hpl := pathStart_le huri hp
            rw [List.length_take, List.length_drop] at hpl
            simp only [hp] at h
            split_ifs at h
            · cases h
              omega
            · cases h
              omega

/-- The text `m_url` points to at the end of the head is the path of the request line. -/
theorem urlText_eq {j : CJob} {a : CharArray readBufferSize} {t : List UInt8} (ht : a.str 0 = t)
    (hget : ∀ k ≤ t.length, j.readBuf.get k = (a.storeNuls 0 (requestLine t).nuls).get k)
    (hurl : j.url = (requestLine t).url) : j.urlText = (requestLine t).path t := by
  have hcstr : cstr t = t := by rw [← ht, CharArray.str, cstr_cstr]
  have hlen : ∀ (ks : List Nat) (s : List UInt8),
      (ks.foldl (fun s k => s.set k 0) s).length = s.length := by
    intro ks
    induction ks with
    | nil => exact fun _ => rfl
    | cons k ks ih => exact fun s => (ih _).trans List.length_set
  rw [urlText, RequestLine.path, hurl]
  cases hu : (requestLine t).url with
  | none => rfl
  | some u =>
    refine congrArg some (CharArray.str_eq_cstr_drop (fun i hi => ?_) ?_)
    · rw [hlen] at hi
      rw [hget i hi]
      exact CharArray.getD_storeNuls (fun k hk => CharArray.getD_of_str ht hk) _ hi
    · rw [hlen]
      exact le_of_url hcstr hu

/-- At the end of the head `m_url` points to the path of the request line. -/
theorem head_read_path (j : CJob) {B x r : List UInt8} (hB : B.length ≤ readBufferSize)
    (hc : cutLine B = some (x, r)) (hacc : (requestLine (cstr x)).code ≠ .badRequest)
    (hmem : [] ∈ (cutLines r).map cstr) :
    ∃ j', (j.holding B).FullHead j' (requestLine (cstr x))
        (((cutLines r).map cstr).takeWhile (· ≠ [])) (headEnd B) ∧
      j'.urlText = (requestLine (cstr x)).path (cstr x) := by
  obtain ⟨j', h, ht, hget⟩ := j.head_read hB hc hacc hmem
  refine ⟨j', h, urlText_eq ht (fun k hk => hget k ?_) h.url⟩
  have := cstr_length_le x
  omega

end CJob

/-- A request line that `parse_request_line` accepts, and header lines. -/
structure Request where
  line : List UInt8
  headers : List (List UInt8)
  clean_line : Clean line
  clean_headers : ∀ h ∈ headers, Clean h
  accepted : (requestLine (cstr line)).code ≠ .badRequest
  /-- No header line reads as the empty line. -/
  header_ne : ∀ h ∈ headers, cstr h ≠ []

namespace Request

variable (q : Request)

/-- The lines of the request, with the empty one that ends it. -/
def lines : List (List UInt8) := q.line :: (q.headers ++ [[]])

def bytes : List UInt8 := q.lines.flatMap terminated

/-- The path that is requested. -/
def path : List UInt8 := ((requestLine (cstr q.line)).path (cstr q.line)).getD []

/-- A header line is `Connection: keep-alive`. -/
def KeepAlive : Prop := ∃ h ∈ q.headers, IsKeepAlive (cstr h)

/-- The request has no body: it is a GET or a HEAD, or announces no length. -/
def BodyLess : Prop :=
  (∃ code, (requestLine (cstr q.line)).method = some (.get, code)) ∨
    (∃ code, (requestLine (cstr q.line)).method = some (.head, code)) ∨
    declaredLength (q.headers.map cstr) = 0

theorem clean_lines : ∀ x ∈ q.lines, Clean x := by
  intro x hx
  rw [lines, List.mem_cons, List.mem_append, List.mem_singleton] at hx
  rcases hx with rfl | hx | rfl
  exacts [q.clean_line, q.clean_headers x hx, clean_nil]

theorem cutLine_append (rest : List UInt8) :
    cutLine (q.bytes ++ rest) = some (q.line, (q.headers ++ [[]]).flatMap terminated ++ rest) := by
  rw [bytes, lines, List.flatMap_cons, List.append_assoc]
  exact cutLine_terminated q.clean_line _

theorem takeWhile_headers (ls : List (List UInt8)) :
    ((q.headers ++ [] :: ls).map cstr).takeWhile (· ≠ []) = q.headers.map cstr := by
  rw [List.map_append, List.takeWhile_append_of_pos fun t ht => ?_]
  · simp
  · obtain ⟨h, hh, rfl⟩ := List.mem_map.1 ht
    simpa using q.header_ne h hh

/-- The head of the request is read, whatever comes after it. -/
theorem head_read (j : CJob) {rest : List UInt8} (hlen : (q.bytes ++ rest).length ≤ readBufferSize) :
    ∃ j', (j.holding (q.bytes ++ rest)).FullHead j' (requestLine (cstr q.line)) (q.headers.map cstr)
        (CJob.headEnd (q.bytes ++ rest)) ∧
      j'.urlText = (requestLine (cstr q.line)).path (cstr q.line) := by
  have hclean : ∀ x ∈ q.headers ++ [[]], Clean x := fun x hx => q.clean_lines x (List.mem_cons_of_mem _ hx)
  have hcut : cutLines ((q.headers ++ [[]]).flatMap terminated ++ rest) =
      q.headers ++ [] :: cutLines rest := by
    rw [cutLines_flatMap hclean, List.append_assoc, List.singleton_append]
  have hread := j.head_read_path hlen (q.cutLine_append rest) q.accepted (by rw [hcut]; simp)
  rwa [hcut, q.takeWhile_headers] at hread

/-- A request without a body, with anything after it, gets to `do_request`, with its
    path and its `Connection` header. -/
theorem read (hbody : q.BodyLess) (j : CJob) {rest : List UInt8}
    (hlen : (q.bytes ++ rest).length ≤ readBufferSize) :
    ∃ j', CJob.processReadLoop .lineOk (j.holding (q.bytes ++ rest)) = (.doRequest, j') ∧
      j'.urlText.getD [] = q.path ∧ (j'.linger = true ↔ q.KeepAlive) := by
  obtain ⟨j', h, hurl⟩ := q.head_read j hlen
  refine ⟨j', (h.answer ?_).2, congrArg (Option.getD · []) hurl, ?_⟩
  · rw [CJob.BodyLess, h.recorded.contentLength]
    refine hbody.imp ?_ (Or.imp_left ?_)
    · rintro ⟨code, hm⟩
      exact congrArg Prod.fst (Option.some.inj (h.method.symm.trans hm))
    · rintro ⟨code, hm⟩
      exact congrArg Prod.fst (Option.some.inj (h.method.symm.trans hm))
  · rw [h.recorded.linger, KeepAlive]
    simp

end Request

/-- A GET or HEAD is a request without a body. -/
def CJob.BareRequest.toRequest (q : CJob.BareRequest) : Request := { q with }

theorem CJob.BareRequest.bodyLess_toRequest (q : CJob.BareRequest) : q.toRequest.BodyLess := by
  obtain ⟨m, code, hm, rfl | rfl⟩ := q.method
  · exact .inl ⟨code, hm⟩
  · exact .inr (.inl ⟨code, hm⟩)

/-- A request that keeps the connection. -/
def keepAliveGet : Request where
  line := ascii "GET /a HTTP/1.1"
  headers := [ascii "Connection: keep-alive"]
  clean_line := by decide
  clean_headers := by decide
  accepted := by decide +kernel
  header_ne := by decide

theorem keepAliveGet_bodyLess : keepAliveGet.BodyLess := .inl ⟨.getRequest, by decide +kernel⟩

theorem keepAliveGet_keepAlive : keepAliveGet.KeepAlive :=
  ⟨_, List.mem_singleton_self _, (isKeepAlive_iff (by decide)).2 (by decide)⟩

theorem length_keepAliveGet : keepAliveGet.bytes.length = 43 := by decide

/-- The path of a file: the requested path below the document root, cut to what
    `m_real_file` has room for. -/
def filePath (url : List UInt8) : List UInt8 :=
  docRoot ++ url.take (filenameLen - docRoot.length - 1)

namespace Request

/-- The file that a request names: the whole of its path below the document root. -/
def file (q : Request) : List UInt8 := docRoot ++ q.path

/-- `m_real_file` has room for the path: 178 bytes. -/
def FileFits (q : Request) : Prop := q.path.length ≤ filenameLen - docRoot.length - 1

theorem filePath_path {q : Request} (h : q.FileFits) : filePath q.path = q.file := by
  rw [filePath, List.take_of_length_le h, file]

end Request

theorem keepAliveGet_path : keepAliveGet.path = ascii "/a" := by decide +kernel

theorem keepAliveGet_fileFits : keepAliveGet.FileFits := by
  rw [Request.FileFits, keepAliveGet_path]
  decide

namespace CJob

theorem zero_not_mem_urlText (j : CJob) : 0 ∉ j.urlText.getD [] := by
  rw [urlText]
  cases j.url with
  | none => exact List.not_mem_nil
  | some u => exact zero_not_mem_cstr _

/-- The path that `do_request` gives to `stat` and `open`. -/
theorem path_buildPath {j : CJob} (h : j.realFile.get (filenameLen - 1) = 0) :
    j.buildPath.path = filePath (j.urlText.getD []) := by
  obtain ⟨url, hurl⟩ : ∃ url, j.urlText.getD [] = url := ⟨_, rfl⟩
  have hroot : docRoot.length = 21 := by decide
  have hmax : filenameLen - docRoot.length - 1 = 178 := by decide
  have hlast := j.buildPath_get_last
  rw [h] at hlast
  have hlen : (strncpyBytes url 178).length = 178 := by
    rw [strncpyBytes, List.length_append, List.length_take, List.length_replicate]
    omega
  have hget : ∀ i < 199, j.buildPath.realFile.get i = (docRoot ++ strncpyBytes url 178).getD i 0 := by
    intro i hi
    rw [buildPath, hurl, hmax, CharArray.get_copy (by rw [hroot]; decide), hlen, hroot]
    split_ifs with hi'
    · rw [List.getD_append_right _ _ _ _ (by omega), hroot]
    · rw [CharArray.get_copy (Nat.zero_le _), if_pos ⟨Nat.zero_le _, by simp [hroot]; omega, by
        rw [filenameLen]; omega⟩, Nat.sub_zero, List.getD_append _ _ _ _ (by omega),
        List.getD_append _ _ _ _ (by omega)]
  have hbytes : ∀ b ∈ docRoot ++ url.take 178, b ≠ 0 := by
    rw [List.forall_mem_append]
    refine ⟨by decide, fun b hb => ?_⟩
    rintro rfl
    exact zero_not_mem_urlText j (hurl ▸ List.mem_of_mem_take hb)
  rw [filePath, hurl, hmax, CJob.path]
  refine CharArray.str_eq_of hbytes (fun k hk => ?_) ?_
  · rw [List.length_append, List.length_take, hroot] at hk
    rw [Nat.zero_add, hget k (by omega), ← List.getD_eq_getElem _ 0, strncpyBytes,
      ← List.append_assoc, List.getD_append]
    rw [List.length_append, List.length_take, hroot]
    omega
  · rw [List.length_append, List.length_take, hroot, Nat.zero_add]
    rcases Nat.lt_or_ge url.length 178 with hu | hu
    · -- the text is shorter: `strncpy` pads it with NULs
      rw [Nat.min_eq_right (by omega), hget _ (by omega), strncpyBytes, ← List.append_assoc,
        List.getD_append_right _ _ _ _ (by simp [hroot]), List.getD_replicate]
      · rw [List.length_append, List.length_take, hroot]
        omega
    · -- the text is cut: what ends the string is the last byte of the array
      rw [Nat.min_eq_left hu]
      exact hlast

end CJob

end VsHttpServer
