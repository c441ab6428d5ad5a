import VsHttpServer.Job.Parse

/-!
# Lines as functions of their text

`parse_request_line` works in place, but what it does depends only on the C
string it is given: `requestLine` computes from that text the code it returns,
the offsets it overwrites with NUL, and the fields it sets. In the same way
`headerLine` is what `parse_headers` finds in its text.

* `parseRequestLine_eq`: `parse_request_line` does what `requestLine` says, at
  any place of the buffer, and `parseHeaders_eq` the same for `parse_headers`;
* `lt_of_mem_nuls`: the NULs are stored inside the text.
-/

namespace VsHttpServer

open CString

/-- What `parse_request_line` does on a text: the offsets are from its start. -/
structure RequestLine where
  code : HttpCode := .badRequest
  /-- The offsets overwritten with NUL. -/
  nuls : List Nat := []
  /-- The method and the code stored, when the method is known. -/
  method : Option (Method × HttpCode) := none
  url : Option Nat := none
  /-- What is stored in `m_version`, when the line is read that far. -/
  version : Option (Option Nat) := none
  deriving DecidableEq

/-- The start of the path in a request target: its first byte, or, after
    `http://`, the first slash. -/
def pathStart (uri : List UInt8) : Option Nat :=
  if strncasecmp uri (ascii "http://") 7 = 0 then (strchr (uri.drop 7) 47).map (7 + ·) else some 0

/-- `parse_request_line` on the text `t`. -/
def requestLine (t : List UInt8) : RequestLine :=
  match strpbrk t blanks with
  | none => {}
  | some k =>
    match CJob.methodOf (t.take k) with
    | none => { nuls := [k], url := some (k + 1) }
    | some m =>
      let u := k + 1 + strspn (t.drop (k + 1)) blanks
      match strpbrk (t.drop u) blanks with
      | none => { nuls := [k], method := some m, url := some u, version := some none }
      | some l =>
        let v := u + l + 1 + strspn (t.drop (u + l + 1)) blanks
        let r : RequestLine :=
          { nuls := [k, u + l], method := some m, url := some u, version := some (some v) }
        if strcasecmp (t.drop v) (ascii "HTTP/1.1") ≠ 0 then r
        else
          match pathStart ((t.drop u).take l) with
          | none => { r with url := none }
          | some p =>
            if ((t.drop u).take l).getD p 0 ≠ 47 then { r with url := some (u + p) }
            else { r with url := some (u + p), code := m.2 }

namespace CJob

variable {N : Nat}

/-- The job after `parse_request_line` did what `r` says, at the offset `text`. -/
def applyRequestLine (j : CJob N) (text : Nat) (r : RequestLine) : CJob N :=
  { j with
    readBuf := j.readBuf.storeNuls text r.nuls
    method := (r.method.map Prod.fst).getD j.method
    request := (r.method.map Prod.snd).getD j.request
    url := r.url.map (text + ·)
    version := (r.version.map (Option.map (text + ·))).getD j.version
    checkState := if r.code = .badRequest then j.checkState else .header }

theorem methodOf_cstr (s : List UInt8) : methodOf (cstr s) = methodOf s := by
  simp only [methodOf, strcasecmp_cstr_eq_zero]

theorem methodOf_ne_badRequest {s : List UInt8} {m : Method × HttpCode} (h : methodOf s = some m) :
    m.2 ≠ .badRequest := by
  rw [methodOf, Option.map_eq_some_iff] at h
  obtain ⟨x, hx, rfl⟩ := h
  have hmem := List.mem_of_find?_eq_some hx
  revert hmem
  exact (by decide : ∀ x ∈ methods, x.2.2 ≠ .badRequest) x

/-- The text from an offset inside it on. -/
theorem strspn_drop {s : List UInt8} {k : Nat} (hk : k ≤ (cstr s).length) (accept : List UInt8) :
    strspn (s.drop k) accept = strspn ((cstr s).drop k) accept := by
  rw [← cstr_drop hk, strspn_cstr]

theorem strpbrk_drop {s : List UInt8} {k : Nat} (hk : k ≤ (cstr s).length) (accept : List UInt8) :
    strpbrk (s.drop k) accept = strpbrk ((cstr s).drop k) accept := by
  rw [← cstr_drop hk, strpbrk_cstr]

theorem length_of_strncasecmp {s t : List UInt8} {n : Nat} (ht : n ≤ (cstr t).length)
    (h : strncasecmp s t n = 0) : n ≤ (cstr s).length := by
  have hl := congrArg List.length (strncasecmp_eq_zero.1 h)
  rw [List.length_map, List.length_map, List.length_take, List.length_take] at hl
  omega

/-- The start of the path, computed in the buffer: it only depends on the text of
    the target. -/
theorem pathStart_cstr (s : List UInt8) :
    pathStart (cstr s) =
      if strncasecmp s (ascii "http://") 7 = 0 then (strchr (s.drop 7) 47).map (7 + ·)
      else some 0 := by
  rw [pathStart]
  by_cases h : strncasecmp s (ascii "http://") 7 = 0
  · have h7 : 7 ≤ (cstr s).length := length_of_strncasecmp (by decide) h
    rw [if_pos (strncasecmp_cstr_eq_zero.2 h), if_pos h, ← cstr_drop h7, strchr_cstr]
  · rw [if_neg (strncasecmp_cstr_eq_zero.not.2 h), if_neg h]

/-- The path starts in the target, if not at its end. -/
theorem pathStart_le {t : List UInt8} {p : Nat} (ht : cstr t = t) (h : pathStart t = some p) :
    p ≤ t.length := by
  rw [pathStart] at h
  split_ifs at h with h7
  · rw [Option.map_eq_some_iff] at h
    obtain ⟨q, hq, rfl⟩ := h
    have h7 : 7 ≤ (cstr t).length := length_of_strncasecmp (by decide) h7
    have := lt_of_strchr hq
    rw [cstr_drop h7, ht, List.length_drop] at this
    omega
  · cases h
    exact Nat.zero_le _

/-- The path of the target, read in the buffer, is that of its text. -/
theorem parseUrl_eq {j : CJob N} {u : Nat} {uri : List UInt8} (huri : j.readBuf.str u = uri) :
    j.parseUrl u =
      match pathStart uri with
      | none => (.badRequest, { j with url := none })
      | some p =>
        if uri.getD p 0 ≠ 47 then (.badRequest, { j with url := some (u + p) })
        else (j.request, { j with url := some (u + p), checkState := .header }) := by
  have huu : cstr uri = uri := by rw [← huri, CharArray.str, cstr_cstr]
  have hpath := pathStart_cstr (j.readBuf.mem u)
  rw [← CharArray.str, huri, ← CharArray.mem_add] at hpath
  have hurl : (if strncasecmp (j.readBuf.mem u) (ascii "http://") 7 = 0 then
      (strchr (j.readBuf.mem (u + 7)) 47).map (u + 7 + ·) else some u) =
      (pathStart uri).map (u + ·) := by
    rw [hpath]
    split_ifs
    · rw [Option.map_map]
      congr 1
      funext p
      simp [Nat.add_assoc]
    · rfl
  simp only [parseUrl, hurl]
  cases hp : pathStart uri with
  | none => rfl
  | some p =>
    have hpl : p ≤ (cstr (j.readBuf.mem u)).length := by
      rw [← CharArray.str, huri]
      exact pathStart_le huu hp
    have hget : j.readBuf.get (u + p) = uri.getD p 0 := by
      rw [CharArray.get_add, ← getD_cstr hpl, ← CharArray.str, huri]
    simp only [Option.map_some, hget]

/-- The target and the version depend on the text after the method only. -/
theorem parseTarget_eq (j : CJob N) (a : Nat) :
    j.parseTarget a =
      let t := j.readBuf.str a
      let u := strspn t blanks
      match strpbrk (t.drop u) blanks with
      | none => (.badRequest, { j with url := some (a + u), version := none })
      | some l =>
        let v := u + l + 1 + strspn (t.drop (u + l + 1)) blanks
        let j := { j with
          readBuf := j.readBuf.store (a + (u + l)) 0
          url := some (a + u)
          version := some (a + v) }
        if strcasecmp (t.drop v) (ascii "HTTP/1.1") ≠ 0 then (.badRequest, j)
        else
          match pathStart ((t.drop u).take l) with
          | none => (.badRequest, { j with url := none })
          | some p =>
            if ((t.drop u).take l).getD p 0 ≠ 47 then
              (.badRequest, { j with url := some (a + (u + p)) })
            else (j.request, { j with url := some (a + (u + p)), checkState := .header }) := by
  obtain ⟨M, hM⟩ : ∃ M, j.readBuf.mem a = M := ⟨_, rfl⟩
  rw [CharArray.str, hM]
  obtain ⟨u, hu⟩ : ∃ u, strspn (cstr M) blanks = u := ⟨_, rfl⟩
  have hut : u ≤ (cstr M).length := hu ▸ (strspn_le (cstr M) blanks).trans (cstr_length_le _)
  have hu' : strspn (j.readBuf.mem a) blanks = u := by
    rw [hM, ← strspn_cstr, hu]
  have hmem : j.readBuf.mem (a + u) = M.drop u := by
    rw [CharArray.mem_add, hM]
  simp only [parseTarget, hu', hu, hmem, strpbrk_drop hut]
  cases hl : strpbrk ((cstr M).drop u) blanks with
  | none => rfl
  | some l =>
    have hult : u + l + 1 ≤ (cstr M).length := add_lt_of_strpbrk_drop hl
    have hstore : a + u + l = a + (u + l) := Nat.add_assoc _ _ _
    -- the version, after the second store
    have hw : ∀ i, u + l < i → (j.readBuf.store (a + (u + l)) 0).mem (a + i) = M.drop i := by
      intro i hi
      rw [CharArray.mem_store_of_lt (Nat.add_lt_add_left hi a), CharArray.mem_add, hM]
    obtain ⟨v, hv⟩ : ∃ v, u + l + 1 + strspn ((cstr M).drop (u + l + 1)) blanks = v := ⟨_, rfl⟩
    have hvt : v ≤ (cstr M).length := hv ▸ add_strspn_drop_le hult blanks
    have hv' : a + (u + l) + 1 +
        strspn ((j.readBuf.store (a + (u + l)) 0).mem (a + (u + l) + 1)) blanks = a + v := by
      rw [Nat.add_assoc a, hw _ (Nat.lt_succ_self _), strspn_drop hult, Nat.add_assoc, hv]
    have hver : strcasecmp (M.drop v) (ascii "HTTP/1.1") = 0 ↔
        strcasecmp ((cstr M).drop v) (ascii "HTTP/1.1") = 0 := by
      rw [← cstr_drop hvt, strcasecmp_cstr_eq_zero]
    have hlt : u + l < v := hv ▸ (Nat.lt_succ_self _).trans_le (Nat.le_add_right _ _)
    -- the target, between its start and the second store
    have hl' : l < (cstr (M.drop u)).length := by
      rw [cstr_drop hut, List.length_drop]
      omega
    have huri : (j.readBuf.store (a + (u + l)) 0).str (a + u) = ((cstr M).drop u).take l := by
      rw [CharArray.str, ← hstore, CharArray.mem_store_add, CharArray.mem_add, hM,
        cstr_set_zero hl', cstr_drop hut]
    simp only [hstore, hv', hv, hw v hlt, ne_eq, hver]
    split_ifs
    · rw [parseUrl_eq huri]
      simp only [Nat.add_assoc, ne_eq]
    · rfl

/-- `parse_request_line` does what `requestLine` says of its text. -/
theorem parseRequestLine_eq (j : CJob N) (text : Nat) :
    j.parseRequestLine text =
      ((requestLine (j.readBuf.str text)).code,
        j.applyRequestLine text (requestLine (j.readBuf.str text))) := by
  obtain ⟨M, hM⟩ : ∃ M, j.readBuf.mem text = M := ⟨_, rfl⟩
  rw [parseRequestLine, requestLine, CharArray.str, strpbrk_cstr, hM]
  cases hk : strpbrk M blanks with
  | none => rfl
  | some k =>
    have hkt := lt_of_strpbrk hk
    -- the method, cut off by the first store
    have hm : methodOf ((j.readBuf.store (text + k) 0).mem text) = methodOf ((cstr M).take k) := by
      rw [CharArray.mem_store_add, hM, ← methodOf_cstr, cstr_set_zero hkt]
    have hrest : (j.readBuf.store (text + k) 0).str (text + k + 1) = (cstr M).drop (k + 1) := by
      rw [CharArray.str, CharArray.mem_store_of_lt (Nat.lt_succ_self _), Nat.succ_eq_add_one,
        Nat.add_assoc, CharArray.mem_add, hM, cstr_drop hkt]
    simp only [hm]
    cases hmo : methodOf ((cstr M).take k) with
    | none => simp [applyRequestLine, CharArray.storeNuls, Nat.add_assoc]
    | some m =>
      have hcode : m.2 ≠ .badRequest := methodOf_ne_badRequest hmo
      obtain ⟨u, hu⟩ : ∃ u, strspn ((cstr M).drop (k + 1)) blanks = u := ⟨_, rfl⟩
      simp only [parseTarget_eq, hrest, hu, List.drop_drop]
      -- the offsets in the rest of the text become offsets in the text
      simp only [Nat.add_assoc]
      cases hl : strpbrk ((cstr M).drop (k + (1 + u))) blanks with
      | none => simp [applyRequestLine, CharArray.storeNuls]
      | some l =>
        obtain ⟨v, hv⟩ : ∃ v, strspn ((cstr M).drop (k + (1 + (u + (l + 1))))) blanks = v :=
          ⟨_, rfl⟩
        obtain ⟨t, ht⟩ : ∃ t, ((cstr M).drop (k + (1 + u))).take l = t := ⟨_, rfl⟩
        simp only [hv, ht]
        split_ifs
        · simp [applyRequestLine, CharArray.storeNuls]
        · cases pathStart t with
          | none => simp [applyRequestLine, CharArray.storeNuls]
          | some p =>
            simp only
            split_ifs
            · simp [applyRequestLine, CharArray.storeNuls]
            · simp [applyRequestLine, CharArray.storeNuls, hcode]

/-- What a request line can be: one without blanks, one that names no method or has no
    version, or one with a method and two stores, accepted or not. -/
theorem requestLine_cases (t : List UInt8) :
    ((requestLine t).nuls = [] ∧ (requestLine t).code = .badRequest) ∨
    ∃ k, strpbrk t blanks = some k ∧
      (((requestLine t).nuls = [k] ∧ (requestLine t).code = .badRequest) ∨
        ∃ u l m, strpbrk (t.drop u) blanks = some l ∧ (requestLine t).nuls = [k, u + l] ∧
          (requestLine t).method = some m ∧
          ((requestLine t).code = .badRequest ∨ (requestLine t).code = m.2)) := by
  rw [requestLine]
  cases hk : strpbrk t blanks with
  | none => exact .inl ⟨rfl, rfl⟩
  | some k =>
    refine .inr ⟨k, rfl, ?_⟩
    simp only
    cases methodOf (t.take k) with
    | none => exact .inl ⟨rfl, rfl⟩
    | some m =>
      simp only
      obtain ⟨u, hu⟩ : ∃ u, k + 1 + strspn (t.drop (k + 1)) blanks = u := ⟨_, rfl⟩
      rw [hu]
      cases hl : strpbrk (t.drop u) blanks with
      | none => exact .inl ⟨rfl, rfl⟩
      | some l =>
        refine .inr ⟨u, l, m, hl, ?_⟩
        simp only
        split_ifs with hv
        · exact ⟨rfl, rfl, .inl rfl⟩
        · cases pathStart ((t.drop u).take l) with
          | none => exact ⟨rfl, rfl, .inl rfl⟩
          | some p =>
            simp only
            split_ifs with hslash
            · exact ⟨rfl, rfl, .inl rfl⟩
            · exact ⟨rfl, rfl, .inr rfl⟩

/-- The NULs are stored inside the text. -/
theorem lt_of_mem_nuls {t : List UInt8} (ht : cstr t = t) {i : Nat} (hi : i ∈ (requestLine t).nuls) :
    i < t.length := by
  rcases requestLine_cases t with ⟨hn, -⟩ | ⟨k, hk, ⟨hn, -⟩ | ⟨u, l, m, hl, hn, -⟩⟩
  · rw [hn] at hi
    cases hi
  · rw [hn, List.mem_singleton] at hi
    exact hi ▸ ht ▸ lt_of_strpbrk hk
  · rw [hn, List.mem_pair] at hi
    rcases hi with rfl | rfl
    · exact ht ▸ lt_of_strpbrk hk
    · exact add_lt_of_strpbrk_drop hl

/-- An accepted line has a method, whose code is returned. -/
theorem method_of_accepted {t : List UInt8} (h : (requestLine t).code ≠ .badRequest) :
    ∃ m, (requestLine t).method = some m ∧ m.2 = (requestLine t).code := by
  rcases requestLine_cases t with ⟨-, hbad⟩ | ⟨k, -, ⟨-, hbad⟩ | ⟨u, l, m, -, -, hm, hcode⟩⟩
  · exact absurd hbad h
  · exact absurd hbad h
  · exact ⟨m, hm, (hcode.resolve_left h).symm⟩

end CJob

/-- A word of a request line: it has no blank, and no NUL. -/
def Word (s : List UInt8) : Prop := ∀ b ∈ s, b ≠ 0 ∧ b ∉ blanks

/-! ## Header lines -/

/-- What `parse_headers` finds in a line. -/
inductive Header
  | blank
  | connection (keepAlive : Bool)
  | contentLength (n : Int)
  /-- A host, and the offset of its name from the start of the line. -/
  | host (value : Nat)
  | unknown

/-- The offset of the value in a header line whose name, with its colon, has `n` bytes. -/
def valueStart (t : List UInt8) (n : Nat) : Nat := n + strspn (t.drop n) blanks

/-- `parse_headers` on the text `t`. -/
def headerLine (t : List UInt8) : Header :=
  if t = [] then .blank
  else if strncasecmp t (ascii "Connection:") 11 = 0 then
    .connection (strcasecmp (t.drop (valueStart t 11)) (ascii "keep-alive") = 0)
  else if strncasecmp t (ascii "Content-Length:") 15 = 0 then
    .contentLength (toInt32 (atol (t.drop (valueStart t 15))))
  else if strncasecmp t (ascii "Host:") 5 = 0 then .host (valueStart t 5)
  else .unknown

theorem headerLine_ne_blank {t : List UInt8} (h : t ≠ []) : headerLine t ≠ .blank := by
  rw [headerLine, if_neg h]
  split_ifs <;> simp

namespace CJob

variable {N : Nat}

/-- What `parse_headers` does for the header line found at `text`. -/
def applyHeader (j : CJob N) (text : Nat) : Header → HttpCode × CJob N
  | .blank =>
    if j.method = .get then (.getRequest, j)
    else if j.method = .head then (.headRequest, j)
    else if j.contentLength ≠ 0 then (.noRequest, { j with checkState := .content })
    else (.getRequest, j)
  | .connection true => (.noRequest, { j with linger := true })
  | .connection false => (.noRequest, j)
  | .contentLength n => (.noRequest, { j with contentLength := n })
  | .host k => (.noRequest, { j with host := some (text + k) })
  | .unknown => (.noRequest, j)

/-- `parse_headers` leaves the buffer and the cursors as they are. -/
theorem applyHeader_frame (j : CJob N) (text : Nat) (h : Header) :
    (j.applyHeader text h).2.readBuf = j.readBuf ∧
      (j.applyHeader text h).2.readIdx = j.readIdx ∧
      (j.applyHeader text h).2.checkedIdx = j.checkedIdx ∧
      (j.applyHeader text h).2.startLine = j.startLine := by
  cases h with
  | blank =>
    rw [applyHeader]
    split_ifs <;> exact ⟨rfl, rfl, rfl, rfl⟩
  | connection k => cases k <;> exact ⟨rfl, rfl, rfl, rfl⟩
  | _ => exact ⟨rfl, rfl, rfl, rfl⟩

/-- A header line changes nothing of the request line, and not the state. -/
theorem applyHeader_of_ne_blank (j : CJob N) (text : Nat) {h : Header} (hb : h ≠ .blank) :
    (j.applyHeader text h).2.checkState = j.checkState ∧
      (j.applyHeader text h).2.method = j.method ∧
      (j.applyHeader text h).2.request = j.request ∧
      (j.applyHeader text h).2.url = j.url := by
  cases h with
  | blank => exact absurd rfl hb
  | connection k => cases k <;> exact ⟨rfl, rfl, rfl, rfl⟩
  | _ => exact ⟨rfl, rfl, rfl, rfl⟩

/-- The value of a header, in the buffer and in the text. -/
theorem headerValue_eq {j : CJob N} {text n : Nat} (hn : n ≤ (j.readBuf.str text).length) :
    j.headerValue text n = text + valueStart (j.readBuf.str text) n ∧
      cstr (j.readBuf.mem (j.headerValue text n)) =
        (j.readBuf.str text).drop (valueStart (j.readBuf.str text) n) := by
  have hv : j.headerValue text n = text + valueStart (j.readBuf.str text) n := by
    rw [headerValue, valueStart, CharArray.mem_add, strspn_drop hn, CharArray.str, Nat.add_assoc]
  have hle : valueStart (j.readBuf.str text) n ≤ (j.readBuf.str text).length :=
    add_strspn_drop_le hn blanks
  exact ⟨hv, by rw [hv, CharArray.mem_add, cstr_drop hle, CharArray.str]⟩

/-- `parse_headers` does what `headerLine` finds in its text. -/
theorem parseHeaders_eq (j : CJob N) (text : Nat) :
    j.parseHeaders text = j.applyHeader text (headerLine (j.readBuf.str text)) := by
  obtain ⟨t, ht⟩ : ∃ t, j.readBuf.str text = t := ⟨_, rfl⟩
  have hblank : (j.readBuf.mem text).headD 0 = 0 ↔ t = [] := by
    rw [← ht, CharArray.str, cstr_eq]
    split_ifs with h <;> simp only [h]
  have hname : ∀ (name : List UInt8) (n : Nat),
      strncasecmp (j.readBuf.mem text) name n = 0 ↔ strncasecmp t name n = 0 := by
    intro name n
    rw [← ht, CharArray.str, strncasecmp_cstr_eq_zero]
  -- a line with the name of a header is long enough to hold it: its value is in the text
  have hvalue : ∀ {name : List UInt8} {n : Nat}, n ≤ (cstr name).length →
      strncasecmp t name n = 0 → j.headerValue text n = text + valueStart t n ∧
        cstr (j.readBuf.mem (j.headerValue text n)) = t.drop (valueStart t n) := by
    intro name n hn h
    have hle := length_of_strncasecmp hn h
    rw [← ht, CharArray.str, cstr_cstr] at hle
    rw [← ht]
    exact headerValue_eq hle
  rw [parseHeaders, headerLine, ht]
  simp only [hblank, hname]
  by_cases h0 : t = []
  · rw [if_pos h0, if_pos h0]
    rfl
  rw [if_neg h0, if_neg h0]
  by_cases hc : strncasecmp t (ascii "Connection:") 11 = 0
  · have hv : strcasecmp (j.readBuf.mem (j.headerValue text 11)) (ascii "keep-alive") = 0 ↔
        strcasecmp (t.drop (valueStart t 11)) (ascii "keep-alive") = 0 := by
      rw [← strcasecmp_cstr_eq_zero, (hvalue (by decide) hc).2]
    rw [if_pos hc, if_pos hc]
    by_cases hk : strcasecmp (t.drop (valueStart t 11)) (ascii "keep-alive") = 0
    · rw [if_pos (hv.2 hk), decide_eq_true hk]
      rfl
    · rw [if_neg (hv.not.2 hk), decide_eq_false hk]
      rfl
  rw [if_neg hc, if_neg hc]
  by_cases hl : strncasecmp t (ascii "Content-Length:") 15 = 0
  · rw [if_pos hl, if_pos hl, ← atol_cstr, (hvalue (by decide) hl).2]
    rfl
  rw [if_neg hl, if_neg hl]
  by_cases hh : strncasecmp t (ascii "Host:") 5 = 0
  · rw [if_pos hh, if_pos hh, (hvalue (by decide) hh).1]
    rfl
  · rw [if_neg hh, if_neg hh]
    rfl

end CJob

end VsHttpServer
