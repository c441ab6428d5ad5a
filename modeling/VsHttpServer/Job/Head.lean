import VsHttpServer.Job.ProcessRead

/-!
# The head of a request

`process_read` on a freshly initialised job, up to the empty line that ends the
head, against a reference parser that cuts the input into lines and folds over
their texts (`reference`). The parser works in place; what relates the two is
that the bytes from the current line on are still those received
(`AtLine`, `unparsed`), and that a line found there has the text it had.

* `Recorded`: what the header texts seen so far say, in the words of HTTP, is
  what the parser has recorded;
* `headers_read`: the loop in `CHECK_STATE_HEADER`, by induction on the lines;
* `processRead_reference`: the whole head.
-/

namespace VsHttpServer

open CString Crlf

/-! ## What header texts say -/

/-- The text is `Connection:`, blanks, and exactly `keep-alive`, ignoring case. -/
def IsKeepAlive (t : List UInt8) : Prop :=
  ∃ name pad value, t = name ++ pad ++ value ∧ name.map tolower = ascii "connection:" ∧
    (∀ b ∈ pad, b ∈ blanks) ∧ value.map tolower = ascii "keep-alive"

/-- The text is a `Content-Length` header. -/
def IsContentLength (t : List UInt8) : Prop :=
  (t.take 15).map tolower = ascii "content-length:"

instance (t : List UInt8) : Decidable (IsContentLength t) :=
  inferInstanceAs (Decidable (_ = _))

/-- The value of the last `Content-Length` header as an `int`, or `0` without one. -/
def declaredLength (ts : List (List UInt8)) : Int :=
  ((ts.filter (IsContentLength ·)).getLast?.map fun t => toInt32 (atol (t.drop 15))).getD 0

theorem isContentLength_iff {t : List UInt8} (ht : cstr t = t) :
    strncasecmp t (ascii "Content-Length:") 15 = 0 ↔ IsContentLength t := by
  rw [strncasecmp_eq_zero, ht, IsContentLength]
  exact Iff.rfl

/-- White space before a number is skipped anyway. -/
theorem atol_drop_blanks (s : List UInt8) : atol (s.drop (strspn s blanks)) = atol s := by
  have hsp : ∀ b ∈ blanks, isspace b = true := by decide
  have hdrop : ∀ l : List UInt8,
      (l.drop (l.takeWhile (· ∈ blanks)).length).dropWhile isspace = l.dropWhile isspace := by
    intro l
    induction l with
    | nil => rfl
    | cons a l ih =>
      by_cases ha : a ∈ blanks
      · simp [ha, hsp a ha, ih]
      · simp [ha]
  rw [atol, atol, cstr_drop (strspn_le s blanks), strspn, hdrop]

theorem cstr_drop_text {t : List UInt8} (ht : cstr t = t) {k : Nat} (hk : k ≤ t.length) :
    cstr (t.drop k) = t.drop k := by
  rw [cstr_drop (by rwa [ht]), ht]

/-- The first byte of a value is not a blank. -/
theorem takeWhile_blanks_value {v : List UInt8} (hv : v.map tolower = ascii "keep-alive") :
    v.takeWhile (· ∈ blanks) = [] := by
  have hblank : ∀ b ∈ blanks, tolower b ≠ 107 := by decide
  cases v with
  | nil => rfl
  | cons b v =>
    have hb : tolower b = 107 := (List.cons.inj hv).1
    rw [List.takeWhile_cons_of_neg]
    simpa using fun h => hblank b h hb

theorem isKeepAlive_iff {t : List UInt8} (ht : cstr t = t) :
    IsKeepAlive t ↔ strncasecmp t (ascii "Connection:") 11 = 0 ∧
      strcasecmp (t.drop (valueStart t 11)) (ascii "keep-alive") = 0 := by
  have hname : ((cstr (ascii "Connection:")).take 11).map tolower = ascii "connection:" := by decide
  have hvalue : (cstr (ascii "keep-alive")).map tolower = ascii "keep-alive" := by decide
  rw [strncasecmp_eq_zero, strcasecmp_eq_zero, ht, hname, hvalue]
  constructor
  · -- `strspn` stops at the value, whose first letter is not a blank
    rintro ⟨name, pad, value, rfl, hn, hp, hv⟩
    have hl : name.length = 11 := by
      have := congrArg List.length hn
      rwa [List.length_map] at this
    have hdrop : (name ++ pad ++ value).drop 11 = pad ++ value := by
      rw [List.append_assoc, ← hl, List.drop_left]
    have hspn : strspn (pad ++ value) blanks = pad.length := by
      rw [strspn, ← hdrop, cstr_drop_text ht (by simp [hl]), hdrop,
        List.takeWhile_append_of_pos (by simpa using hp), takeWhile_blanks_value hv, List.append_nil]
    have hstart : valueStart (name ++ pad ++ value) 11 = (name ++ pad).length := by
      rw [valueStart, hdrop, hspn, List.length_append, hl]
    refine ⟨?_, ?_⟩
    · rw [List.append_assoc, ← hl, List.take_left]
      exact hn
    · rw [hstart, cstr_drop_text ht (by simp), List.drop_left]
      exact hv
  · -- the blanks between the name and the value are those that `strspn` skips
    rintro ⟨hn, hv⟩
    have hl : 11 ≤ t.length := by
      have := congrArg List.length hn
      rw [List.length_map, List.length_take, show (ascii "connection:").length = 11 by decide] at this
      omega
    have hle : valueStart t 11 ≤ t.length := add_strspn_drop_le hl blanks
    rw [cstr_drop_text ht hle] at hv
    refine ⟨t.take 11, (t.drop 11).takeWhile (· ∈ blanks), t.drop (valueStart t 11), ?_, hn,
      fun b hb => by simpa using List.mem_takeWhile_imp hb, hv⟩
    have hpad : (t.drop 11).take (strspn (t.drop 11) blanks) = (t.drop 11).takeWhile (· ∈ blanks) := by
      rw [strspn, cstr_drop_text ht hl]
      exact (List.prefix_iff_eq_take.1 (List.takeWhile_prefix _)).symm
    rw [← hpad, valueStart, ← List.drop_drop, List.append_assoc, List.take_append_drop,
      List.take_append_drop]

namespace CJob

variable {N : Nat}

/-- The parser has recorded what the header texts `ts` say. -/
structure Recorded (j : CJob N) (ts : List (List UInt8)) : Prop where
  linger : j.linger = true ↔ ∃ t ∈ ts, IsKeepAlive t
  contentLength : j.contentLength = declaredLength ts

theorem declaredLength_append (ts : List (List UInt8)) (t : List UInt8) :
    declaredLength (ts ++ [t]) =
      if IsContentLength t then toInt32 (atol (t.drop 15)) else declaredLength ts := by
  rw [declaredLength, declaredLength, List.filter_append]
  split_ifs with h <;> simp [h]

theorem Recorded.append {j j' : CJob N} {ts : List (List UInt8)} {t : List UInt8} (h : j.Recorded ts)
    (hl : j'.linger = true ↔ j.linger = true ∨ IsKeepAlive t)
    (hc : j'.contentLength =
      if IsContentLength t then toInt32 (atol (t.drop 15)) else j.contentLength) :
    j'.Recorded (ts ++ [t]) where
  linger := by
    rw [hl, h.linger]
    simp [or_and_right, exists_or]
  contentLength := by rw [hc, h.contentLength, declaredLength_append]

/-- No text has two of the names. -/
theorem not_connection_of_isContentLength {t : List UInt8} (ht : cstr t = t)
    (h : IsContentLength t) : strncasecmp t (ascii "Connection:") 11 ≠ 0 := by
  intro hc
  rw [strncasecmp_eq_zero, ht] at hc
  have := congrArg (List.take 11) h
  rw [← List.map_take, List.take_take, show min 11 15 = 11 from rfl, hc] at this
  revert this
  decide

/-- A header line is recorded. -/
theorem Recorded.header {j : CJob N} {ts : List (List UInt8)} {t : List UInt8} {text : Nat}
    (h : j.Recorded ts) (ht : cstr t = t) (hne : t ≠ []) :
    (j.applyHeader text (headerLine t)).2.Recorded (ts ++ [t]) := by
  have hka := isKeepAlive_iff ht
  have hcl := isContentLength_iff ht
  have hdis := not_connection_of_isContentLength ht
  rw [headerLine, if_neg hne]
  by_cases hc : strncasecmp t (ascii "Connection:") 11 = 0
  · rw [if_pos hc]
    have hno : ¬IsContentLength t := fun hl => hdis hl hc
    by_cases hk : strcasecmp (t.drop (valueStart t 11)) (ascii "keep-alive") = 0
    · rw [decide_eq_true hk]
      exact h.append (by simp [applyHeader, hka, hc, hk]) (by rw [if_neg hno]; rfl)
    · rw [decide_eq_false hk]
      exact h.append (by simp [applyHeader, hka, hk]) (by rw [if_neg hno]; rfl)
  rw [if_neg hc]
  by_cases hl : strncasecmp t (ascii "Content-Length:") 15 = 0
  · rw [if_pos hl, valueStart, ← List.drop_drop, atol_drop_blanks]
    exact h.append (by simp [applyHeader, hka, hc]) (by rw [if_pos (hcl.1 hl)]; rfl)
  rw [if_neg hl]
  rw [hcl] at hl
  split_ifs
  all_goals exact h.append (by simp [applyHeader, hka, hc]) (by rw [if_neg hl]; rfl)

/-! ## The header lines -/

/-- From `j`, at the start of a line, the parser has come to `j'`, at the start of
    a later one. -/
structure Passed (j j' : CJob N) : Prop where
  readIdx : j'.readIdx = j.readIdx
  start_le : j.startLine ≤ j'.startLine
  checkedIdx : j'.checkedIdx = j'.startLine
  atLine : j'.AtLine
  before : ∀ k < j.startLine, j'.readBuf.get k = j.readBuf.get k
  after : ∀ k, j'.startLine ≤ k → j'.readBuf.get k = j.readBuf.get k

theorem Passed.trans {j j₁ j₂ : CJob N} (h₁ : j.Passed j₁) (h₂ : j₁.Passed j₂) : j.Passed j₂ where
  readIdx := h₂.readIdx.trans h₁.readIdx
  start_le := h₁.start_le.trans h₂.start_le
  checkedIdx := h₂.checkedIdx
  atLine := h₂.atLine
  before k hk := (h₂.before k (hk.trans_le h₁.start_le)).trans (h₁.before k hk)
  after k hk := (h₂.after k hk).trans (h₁.after k (h₂.start_le.trans hk))

/-- One line further: the body may have changed the buffer in the line. -/
theorem LineCut.passed {j j' : CJob N} {x r : List UInt8} (h : j.LineCut x r)
    (hr : j'.readIdx = j.readIdx) (hc : j'.checkedIdx = j.startLine + x.length + 2)
    (hs : j'.startLine = j.startLine + x.length + 2)
    (hget : ∀ k, k < j.startLine ∨ j.startLine + x.length ≤ k →
      j'.readBuf.get k = (j.cutAt (j.startLine + x.length)).readBuf.get k) :
    j.Passed j' ∧ j'.unparsed = r := by
  have hcut : ∀ k, k < j.startLine ∨ j.startLine + x.length + 2 ≤ k →
      (j.cutAt (j.startLine + x.length)).readBuf.get k = j.readBuf.get k := by
    intro k hk
    simp only [cutAt]
    rw [CharArray.get_store_of_ne (by omega), CharArray.get_store_of_ne (by omega)]
  refine ⟨⟨hr, by omega, by omega, ?_, fun k hk => ?_, fun k hk => ?_⟩, ?_⟩
  · refine h.atLine.congr hs hc hr fun k hk => hget k (.inr ?_)
    simp only [nextLine, cutAt] at hk
    omega
  · rw [hget k (.inl hk), hcut k (.inl hk)]
  · rw [hs] at hk
    rw [hget k (.inr (by omega)), hcut k (.inr hk)]
  · rw [← h.unparsed, CJob.unparsed, CJob.unparsed, hs, hr]
    exact congrArg _ (CharArray.mem_congr fun k hk => hget k (.inr (by omega)))

/-- The bytes of the lines up to the first with an empty text, that one included. -/
def headLength : List (List UInt8) → Nat
  | [] => 0
  | x :: ls => x.length + 2 + if cstr x = [] then 0 else headLength ls

/-- The loop has come, from `j`, to the empty line that ends the head, having
    recorded the texts `ts`: it calls `do_request`, or enters
    `CHECK_STATE_CONTENT`. -/
structure HeadRead (j j' : CJob N) (ts : List (List UInt8)) (n : Nat) : Prop where
  passed : j.Passed j'
  startLine : j'.startLine = j.startLine + n
  recorded : j'.Recorded ts
  method : j'.method = j.method
  request : j'.request = j.request
  url : j'.url = j.url
  answer : j'.BodyLess → j'.checkState = .header ∧ processReadLoop .lineOk j = (.doRequest, j')
  await : ¬j'.BodyLess → j'.checkState = .content ∧ Steps .lineOk j .lineOk j'

theorem bodyLess_cutAt {j : CJob N} {i : Nat} : (j.cutAt i).BodyLess ↔ j.BodyLess := Iff.rfl

/-- The empty line ends the head. -/
theorem blank_read {j : CJob N} {ts : List (List UInt8)} {y r : List UInt8}
    (hs : j.checkState = .header) (hcut : j.LineCut y r) (hr : j.Recorded ts) (hblank : cstr y = []) :
    ∃ j', j.HeadRead j' ts (y.length + 2) := by
  have hiter := processReadIter_of_cut (s := .lineOk) (by simp [hs]) hcut
  have hs' : (j.cutAt (j.startLine + y.length)).checkState = .header := hs
  rw [loopBody_blank hs' (hcut.text.trans hblank)] at hiter
  by_cases hb : j.BodyLess
  · rw [if_pos (bodyLess_cutAt.2 hb)] at hiter
    have hp : j.Passed (j.cutAt (j.startLine + y.length)).nextLine ∧ _ :=
      hcut.passed rfl rfl rfl fun _ _ => rfl
    exact ⟨_, hp.1, Nat.add_assoc _ _ _, ⟨hr.1, hr.2⟩, rfl, rfl, rfl,
      fun _ => ⟨hs, processReadLoop_leave hiter⟩, fun h => absurd hb h⟩
  · rw [if_neg (bodyLess_cutAt.not.2 hb)] at hiter
    have hp : j.Passed
        { (j.cutAt (j.startLine + y.length)).nextLine with checkState := .content } ∧ _ :=
      hcut.passed rfl rfl rfl fun _ _ => rfl
    exact ⟨_, hp.1, Nat.add_assoc _ _ _, ⟨hr.1, hr.2⟩, rfl, rfl, rfl,
      fun h => absurd h hb, fun _ => ⟨rfl, .head hiter (.refl _ _)⟩⟩

/-- A header line is recorded, and the loop goes on with the next line. -/
theorem header_read {j : CJob N} {ts : List (List UInt8)} {y r : List UInt8}
    (hs : j.checkState = .header) (hcut : j.LineCut y r) (hr : j.Recorded ts) (hne : cstr y ≠ []) :
    ∃ j', j.processReadIter .lineOk = (.next .lineOk, j') ∧ j.Passed j' ∧ j'.unparsed = r ∧
      j'.startLine = j.startLine + (y.length + 2) ∧ j'.Recorded (ts ++ [cstr y]) ∧
      j'.checkState = .header ∧ j'.method = j.method ∧ j'.request = j.request ∧ j'.url = j.url := by
  have hiter := processReadIter_of_cut (s := .lineOk) (by simp [hs]) hcut
  have hs' : (j.cutAt (j.startLine + y.length)).checkState = .header := hs
  rw [loopBody_header hs' hcut.text hne] at hiter
  obtain ⟨hbuf, hread, hchecked, hstart⟩ := applyHeader_frame
    (j.cutAt (j.startLine + y.length)).nextLine j.startLine (headerLine (cstr y))
  obtain ⟨hstate, hmethod, hrequest, hurl⟩ := applyHeader_of_ne_blank
    (j.cutAt (j.startLine + y.length)).nextLine j.startLine (headerLine_ne_blank hne)
  obtain ⟨hpass, hunparsed⟩ := hcut.passed hread hchecked hstart fun k _ => by rw [hbuf]; rfl
  exact ⟨_, hiter, hpass, hunparsed, hstart.trans (Nat.add_assoc _ _ _),
    Recorded.header ⟨hr.1, hr.2⟩ (cstr_cstr y) hne, hstate.trans hs, hmethod, hrequest, hurl⟩

/-- The head goes on with one line more at its start. -/
theorem HeadRead.next {j j₁ j' : CJob N} {ts : List (List UInt8)} {m n : Nat}
    (hiter : j.processReadIter .lineOk = (.next .lineOk, j₁)) (hpass : j.Passed j₁)
    (hstart : j₁.startLine = j.startLine + m)
    (hsame : j₁.method = j.method ∧ j₁.request = j.request ∧ j₁.url = j.url)
    (h : j₁.HeadRead j' ts n) : j.HeadRead j' ts (m + n) where
  passed := hpass.trans h.passed
  startLine := by rw [h.startLine, hstart, Nat.add_assoc]
  recorded := h.recorded
  method := h.method.trans hsame.1
  request := h.request.trans hsame.2.1
  url := h.url.trans hsame.2.2
  answer hb := ⟨(h.answer hb).1, (processReadLoop_next hiter).trans (h.answer hb).2⟩
  await hb := ⟨(h.await hb).1, .head hiter (h.await hb).2⟩

/-- The loop in `CHECK_STATE_HEADER`, on the lines `ls`. -/
theorem headers_read (ls : List (List UInt8)) {j : CJob N} {ts : List (List UInt8)} (hj : j.AtLine)
    (hs : j.checkState = .header) (hls : cutLines j.unparsed = ls) (hr : j.Recorded ts) :
    if [] ∈ ls.map cstr then
      ∃ j', j.HeadRead j' (ts ++ (ls.map cstr).takeWhile (· ≠ [])) (headLength ls)
    else ∃ j', processReadLoop .lineOk j = (.ret .noRequest, j') ∧ j'.checkState = .header := by
  induction ls generalizing j ts with
  | nil =>
    have hnone : cutLine j.unparsed = none := by
      cases hc : cutLine j.unparsed with
      | none => rfl
      | some p => simp [cutLines_of_some hc] at hls
    rcases hj.parseLine_cases with ⟨x, r, hc, -⟩ | ⟨-, st, c, hne, -, hp, -⟩
    · simp [hc] at hnone
    · -- no line is left: the loop ends in this state
      rw [if_neg (by simp)]
      exact ⟨_, processReadLoop_leave (processReadIter_of_ne (by simp [hs]) hp hne), hs⟩
  | cons x ls ih =>
    rcases hj.parseLine_cases with ⟨y, r, hc, hcut⟩ | ⟨hc, -⟩
    swap
    · simp [cutLines_of_none hc] at hls
    rw [cutLines_of_some hc, List.cons.injEq] at hls
    obtain ⟨rfl, hls⟩ := hls
    by_cases hblank : cstr y = []
    · -- the empty line
      have hts : ts ++ ((y :: ls).map cstr).takeWhile (· ≠ []) = ts := by simp [hblank]
      have hn : headLength (y :: ls) = y.length + 2 := by rw [headLength, if_pos hblank]
      rw [if_pos (by simp [hblank]), hts, hn]
      exact blank_read hs hcut hr hblank
    · -- a header line, recorded before the rest is read
      obtain ⟨j₁, hiter, hpass, hunparsed, hstart, hrec, hstate, hsame⟩ :=
        header_read hs hcut hr hblank
      have hrest := ih hpass.atLine hstate (hunparsed.symm ▸ hls) hrec
      have hmem : [] ∈ (y :: ls).map cstr ↔ [] ∈ ls.map cstr := by simp [Ne.symm hblank]
      have hn : headLength (y :: ls) = y.length + 2 + headLength ls := by
        rw [headLength, if_neg hblank]
      have hts : ts ++ ((y :: ls).map cstr).takeWhile (· ≠ []) =
          ts ++ [cstr y] ++ (ls.map cstr).takeWhile (· ≠ []) := by simp [hblank]
      simp only [hmem, hts, hn]
      split_ifs at hrest ⊢
      · obtain ⟨j', h⟩ := hrest
        exact ⟨j', h.next hiter hpass hstart hsame⟩
      · obtain ⟨j', h, hst⟩ := hrest
        exact ⟨j', (processReadLoop_next hiter).trans h, hst⟩

/-! ## The whole head -/

theorem holding_atLine (j : CJob N) {B : List UInt8} (hB : B.length ≤ N) :
    (j.holding B).AtLine where
  start_le := le_rfl
  checked_le := Nat.zero_le _
  read_le := by simpa [holding, append, init] using hB
  clean k _ hk := absurd hk (Nat.not_lt_zero k)
  back := .inl rfl

theorem holding_unparsed (j : CJob N) {B : List UInt8} (hB : B.length ≤ N) :
    (j.holding B).unparsed = B := by
  have h : (((CharArray.zero N).copy 0 B).mem 0).take B.length = B :=
    CharArray.take_mem_copy (by omega)
  simpa [unparsed, holding, append, init] using h

end CJob

/-- What the reference parser makes of the bytes received. -/
inductive Reference
  | noRequest
  | badRequest
  /-- A head: its request line, and the texts of its header lines. -/
  | head (r : RequestLine) (ts : List (List UInt8))
  deriving DecidableEq

/-- The reference parser: the texts of the lines of `B`, the first given to
    `parse_request_line`, and those after it up to the first empty one. -/
def reference (B : List UInt8) : Reference :=
  match (cutLines B).map cstr with
  | [] => .noRequest
  | t :: ts =>
    if (requestLine t).code = .badRequest then .badRequest
    else if [] ∈ ts then .head (requestLine t) (ts.takeWhile (· ≠ []))
    else .noRequest

namespace CJob

variable {N : Nat}

/-- The request line: what it is told by its text is done, inside the line. -/
theorem requestLine_read {j : CJob N} {x r : List UInt8} (hs : j.checkState = .requestLine)
    (hcut : j.LineCut x r) :
    ∃ j', j' = (j.cutAt (j.startLine + x.length)).nextLine.applyRequestLine j.startLine
        (requestLine (cstr x)) ∧
      j.processReadIter .lineOk = (if (requestLine (cstr x)).code = .badRequest then
        .leave (.ret .badRequest) else .next .lineOk, j') ∧
      j.Passed j' ∧ j'.unparsed = r := by
  refine ⟨_, rfl, ?_, ?_⟩
  · rw [processReadIter_of_cut (by simp [hs]) hcut]
    exact loopBody_requestLine hs hcut.text
  · refine hcut.passed rfl rfl rfl fun k hk => CharArray.get_storeNuls fun i hi => ?_
    have := lt_of_mem_nuls (cstr_cstr x) hi
    have := cstr_length_le x
    omega

/-- The bytes of the head: the first line and the header lines. -/
def headEnd (B : List UInt8) : Nat :=
  match cutLines B with
  | [] => 0
  | x :: ls => x.length + 2 + headLength ls

/-- From the freshly initialised `j`, the loop has come to the end of the head,
    with the request line `r` and the header texts `ts`. -/
structure FullHead (j j' : CJob N) (r : RequestLine) (ts : List (List UInt8)) (n : Nat) : Prop where
  passed : j.Passed j'
  startLine : j'.startLine = n
  recorded : j'.Recorded ts
  method : r.method = some (j'.method, j'.request)
  url : j'.url = r.url
  answer : j'.BodyLess → j'.checkState = .header ∧ processReadLoop .lineOk j = (.doRequest, j')
  await : ¬j'.BodyLess → j'.checkState = .content ∧ Steps .lineOk j .lineOk j'

/-- An accepted request line, and an empty line further on: the whole head is read. The
    bytes of the request line are then those that `parse_request_line` has left. -/
theorem head_read (j : CJob N) {B x r : List UInt8} (hB : B.length ≤ N)
    (hc : cutLine B = some (x, r)) (hacc : (requestLine (cstr x)).code ≠ .badRequest)
    (hmem : [] ∈ (cutLines r).map cstr) :
    ∃ j', (j.holding B).FullHead j' (requestLine (cstr x))
        (((cutLines r).map cstr).takeWhile (· ≠ [])) (headEnd B) ∧
      ((j.holding B).cutAt x.length).readBuf.str 0 = cstr x ∧
      ∀ k < x.length + 2, j'.readBuf.get k =
        (((j.holding B).cutAt x.length).readBuf.storeNuls 0 (requestLine (cstr x)).nuls).get k := by
  have hj := j.holding_atLine hB
  have hs : (j.holding B).checkState = .requestLine := rfl
  have hstart : (j.holding B).startLine = 0 := rfl
  rw [headEnd, cutLines_of_some hc]
  rw [← j.holding_unparsed hB] at hc
  rcases hj.parseLine_cases with ⟨x', r', hc', hcut⟩ | ⟨hc', -⟩
  swap
  · rw [hc] at hc'
    cases hc'
  rw [hc, Option.some.injEq, Prod.mk.injEq] at hc'
  obtain ⟨rfl, rfl⟩ := hc'
  obtain ⟨j₁, hj₁, hiter, hpass, hunparsed⟩ := requestLine_read hs hcut
  rw [hstart, Nat.zero_add] at hj₁
  simp only [if_neg hacc] at hiter
  have hstart₁ : j₁.startLine = x.length + 2 := by rw [hj₁]; rfl
  have hs₁ : j₁.checkState = .header := by rw [hj₁, applyRequestLine, if_neg hacc]
  have hrec : j₁.Recorded [] := by
    rw [hj₁]
    exact ⟨by simp [applyRequestLine, cutAt, nextLine, holding, append, init], rfl⟩
  -- the rest is read as headers
  have hread := headers_read (cutLines r) hpass.atLine hs₁ (by rw [hunparsed]) hrec
  rw [if_pos hmem] at hread
  obtain ⟨j', h⟩ := hread
  obtain ⟨m, hm, -⟩ := method_of_accepted hacc
  refine ⟨j', ⟨hpass.trans h.passed, by rw [h.startLine, hstart₁], h.recorded, ?_, ?_,
    fun hb => ?_, fun hb => ?_⟩, ?_, fun k hk => ?_⟩
  · rw [h.method, h.request, hj₁, applyRequestLine, hm]
    rfl
  · rw [h.url, hj₁, applyRequestLine]
    simp
  · exact ⟨(h.answer hb).1, (processReadLoop_next hiter).trans (h.answer hb).2⟩
  · exact ⟨(h.await hb).1, .head hiter (h.await hb).2⟩
  · have htext := hcut.text
    rwa [hstart, Nat.zero_add] at htext
  · rw [h.passed.before k (hstart₁ ▸ hk), hj₁]
    rfl

/-- A request line that is not accepted: nothing but its line is read. -/
theorem bad_read (j : CJob N) {B x r : List UInt8} (hB : B.length ≤ N)
    (hc : cutLine B = some (x, r)) (hbad : (requestLine (cstr x)).code = .badRequest) :
    ∃ j', processReadLoop .lineOk (j.holding B) = (.ret .badRequest, j') ∧
      j'.checkState ≠ .content ∧ j'.linger = false := by
  have hs : (j.holding B).checkState = .requestLine := rfl
  rw [← j.holding_unparsed hB] at hc
  rcases (j.holding_atLine hB).parseLine_cases with ⟨x', r', hc', hcut⟩ | ⟨hc', -⟩
  · rw [hc, Option.some.injEq, Prod.mk.injEq] at hc'
    obtain ⟨rfl, rfl⟩ := hc'
    obtain ⟨j₁, hj₁, hiter, -⟩ := requestLine_read hs hcut
    simp only [if_pos hbad] at hiter
    refine ⟨j₁, processReadLoop_leave hiter, ?_, by rw [hj₁]; rfl⟩
    -- a rejected request line leaves the state as it was
    rw [hj₁, applyRequestLine, if_pos hbad]
    simp [cutAt, nextLine, hs]
  · rw [hc] at hc'
    cases hc'

theorem reference_read (j : CJob N) {B : List UInt8} (hB : B.length ≤ N) :
    match reference B with
    | .noRequest => ∃ j', processReadLoop .lineOk (j.holding B) = (.ret .noRequest, j') ∧
        j'.checkState ≠ .content
    | .badRequest => ∃ j', processReadLoop .lineOk (j.holding B) = (.ret .badRequest, j') ∧
        j'.checkState ≠ .content
    | .head r ts => ∃ j', (j.holding B).FullHead j' r ts (headEnd B) := by
  have hj := j.holding_atLine hB
  have hs : (j.holding B).checkState = .requestLine := rfl
  rw [reference]
  rcases hj.parseLine_cases with ⟨x, r, hc, hcut⟩ | ⟨hc, st, c, hne, -, hp, -⟩
  · -- the first line is the request line
    rw [j.holding_unparsed hB] at hc
    rw [cutLines_of_some hc, List.map_cons]
    obtain ⟨j₁, hj₁, hiter, hpass, hunparsed⟩ := requestLine_read hs hcut
    by_cases hbad : (requestLine (cstr x)).code = .badRequest
    · simp only [if_pos hbad]
      obtain ⟨j', h, hs', -⟩ := j.bad_read hB hc hbad
      exact ⟨j', h, hs'⟩
    · simp only [if_neg hbad] at hiter ⊢
      by_cases hmem : [] ∈ (cutLines r).map cstr
      · rw [if_pos hmem]
        obtain ⟨j', h, -⟩ := j.head_read hB hc hbad hmem
        exact ⟨j', h⟩
      · -- `headers_read` goes on after the request line, to the end of the lines
        rw [if_neg hmem]
        have hs₁ : j₁.checkState = .header := by rw [hj₁, applyRequestLine, if_neg hbad]
        have hrec : j₁.Recorded [] := by
          rw [hj₁]
          exact ⟨by simp [applyRequestLine, cutAt, nextLine, holding, append, init], rfl⟩
        have hread := headers_read (cutLines r) hpass.atLine hs₁ (by rw [hunparsed]) hrec
        rw [if_neg hmem] at hread
        obtain ⟨j', h, hs'⟩ := hread
        exact ⟨j', (processReadLoop_next hiter).trans h, by simp [hs']⟩
  · rw [j.holding_unparsed hB] at hc
    rw [cutLines_of_none hc]
    exact ⟨_, processReadLoop_leave (processReadIter_of_ne (by simp [hs]) hp hne), by simp [hs]⟩

/-- `process_read` on a freshly initialised job does what the reference parser
    says, up to the point where it calls `do_request` or enters
    `CHECK_STATE_CONTENT`. -/
theorem processRead_reference (j : CJob) {B : List UInt8} (hB : B.length ≤ readBufferSize) :
    match reference B with
    | .noRequest => ∃ j', processReadLoop .lineOk (j.holding B) = (.ret .noRequest, j') ∧
        j'.checkState ≠ .content
    | .badRequest => ∃ j', processReadLoop .lineOk (j.holding B) = (.ret .badRequest, j') ∧
        j'.checkState ≠ .content
    | .head r ts => ∃ j', r.method = some (j'.method, j'.request) ∧ j'.url = r.url ∧
        (j'.linger = true ↔ ∃ t ∈ ts, IsKeepAlive t) ∧ j'.contentLength = declaredLength ts ∧
        if j'.method = .get ∨ j'.method = .head ∨ declaredLength ts = 0 then
          j'.checkState = .header ∧ processReadLoop .lineOk (j.holding B) = (.doRequest, j')
        else j'.checkState = .content ∧ Steps .lineOk (j.holding B) .lineOk j' := by
  have h := j.reference_read hB
  cases hr : reference B with
  | noRequest => rwa [hr] at h
  | badRequest => rwa [hr] at h
  | head r ts =>
    rw [hr] at h
    obtain ⟨j', h⟩ := h
    have hlen := h.recorded.contentLength
    refine ⟨j', h.method, h.url, h.recorded.linger, hlen, ?_⟩
    by_cases hb : j'.BodyLess
    · rw [if_pos (hlen ▸ hb)]
      exact h.answer hb
    · rw [if_neg (hlen ▸ hb)]
      exact h.await hb

/-- A keep-alive request. -/
theorem processRead_reference_keepAlive :
    (ascii "GET /a HTTP/1.1\r\nConnection: Keep-Alive\r\n\r\n").length ≤ readBufferSize ∧
      ∃ j' : CJob, (j'.linger = true ↔ ∃ t ∈ [ascii "Connection: Keep-Alive"], IsKeepAlive t) ∧
        processReadLoop .lineOk (CJob.holding default
          (ascii "GET /a HTTP/1.1\r\nConnection: Keep-Alive\r\n\r\n")) = (.doRequest, j') := by
  refine ⟨by decide, ?_⟩
  have h := processRead_reference default
    (B := ascii "GET /a HTTP/1.1\r\nConnection: Keep-Alive\r\n\r\n") (by decide)
  rw [show reference (ascii "GET /a HTTP/1.1\r\nConnection: Keep-Alive\r\n\r\n") =
    .head (requestLine (ascii "GET /a HTTP/1.1")) [ascii "Connection: Keep-Alive"] by
      decide +kernel] at h
  obtain ⟨j', hm, -, hl, -, h⟩ := h
  rw [show (requestLine (ascii "GET /a HTTP/1.1")).method = some (.get, .getRequest) by
    decide +kernel, Option.some.injEq, Prod.mk.injEq] at hm
  rw [if_pos (.inl hm.1.symm)] at h
  exact ⟨j', hl, h.2⟩

end CJob

end VsHttpServer
