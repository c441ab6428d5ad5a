import VsHttpServer.Job.Grammar
import VsHttpServer.Job.Resume
import Mathlib.Algebra.GroupWithZero.Nat
import Mathlib.Data.List.SplitLengths

/-!
# Read events

`ReadEventCb` copies the pending bytes to `m_read_buf`, the start of the buffer,
whatever was received before, while `Conn::GetReadBuffer` adds their number to
`m_read_idx` (`readEvent`). The parser goes on at `m_checked_idx`, past the bytes
that the copy replaced.

* `Starved`: no LF can reach the place where the parser waits for one; every
  later call returns `NO_REQUEST`;
* `receive_starved`: so it is, for every request, when the first piece is longer
  than each of those after it;
* `Mute`: the bytes of the buffer spell no method; every later call returns
  `NO_REQUEST` or `BAD_REQUEST`;
* `receive_invisible_iff`: the divisions that are invisible for every request.
-/

namespace VsHttpServer

open CString Crlf

namespace CJob

/-- `ReadEventCb` with the bytes `p` pending. -/
def readEvent (j : CJob) (p : List UInt8) : CJob :=
  { j with
    readIdx := j.readIdx + p.length
    readBuf := j.readBuf.copy 0 p }

/-- `process_read` called after each of the pieces `ps` is delivered by a read event. -/
def receive (fs : FileSystem) (j : CJob) (ps : List (List UInt8)) : HttpCode × CJob :=
  ps.foldl (fun r p => processRead fs (r.2.readEvent p)) (.noRequest, j)

/-- What the calls end with: the result, the text of `m_url`, and `m_linger`. -/
def outcome (r : HttpCode × CJob) : HttpCode × Option (List UInt8) × Bool :=
  (r.1, r.2.urlText, r.2.linger)

/-! ## Waiting for an LF -/

/-- From `m_checked_idx` on, which is at least `d`, there is no LF. -/
structure Starved (j : CJob) (d : Nat) : Prop where
  checkState : j.checkState ≠ .content
  le_checked : d ≤ j.checkedIdx
  no_lf : ∀ k, j.checkedIdx ≤ k → j.readBuf.get k ≠ lf

theorem parseLineLoop_of_no_lf (n : Nat) {j : CJob}
    (h : ∀ k, j.checkedIdx ≤ k → j.readBuf.get k ≠ lf) :
    ∃ s c, s ≠ .lineOk ∧ j.checkedIdx ≤ c ∧ parseLineLoop n j = (s, { j with checkedIdx := c }) := by
  induction n generalizing j with
  | zero => exact ⟨.lineOpen, j.checkedIdx, by simp, le_rfl, rfl⟩
  | succ n ih =>
    have hlf := h j.checkedIdx le_rfl
    have hnext := h (j.checkedIdx + 1) (Nat.le_succ _)
    simp only [parseLineLoop, if_neg hlf, if_neg hnext]
    split_ifs
    · exact ⟨.lineOpen, j.checkedIdx, by simp, le_rfl, rfl⟩
    · exact ⟨.lineBad, j.checkedIdx, by simp, le_rfl, rfl⟩
    · obtain ⟨s, c, hs, hc, he⟩ := ih (j := { j with checkedIdx := j.checkedIdx + 1 })
        fun k hk => h k ((Nat.le_succ _).trans hk)
      exact ⟨s, c, hs, (Nat.le_succ _).trans hc, he⟩

variable {j : CJob} {d : Nat}

theorem Starved.processReadLoop_eq (h : j.Starved d) :
    ∃ c, j.checkedIdx ≤ c ∧
      processReadLoop .lineOk j = (.ret .noRequest, { j with checkedIdx := c }) := by
  obtain ⟨s, c, hs, hc, hp⟩ := parseLineLoop_of_no_lf (j.readIdx - j.checkedIdx) h.no_lf
  exact ⟨c, hc, processReadLoop_leave (processReadIter_of_ne (fun hst => h.checkState hst.1) hp hs)⟩

/-- A piece of at most `d` bytes stays below the cursor. -/
theorem Starved.readEvent (h : j.Starved d) {p : List UInt8} (hp : p.length ≤ d) :
    (j.readEvent p).Starved d where
  checkState := h.checkState
  le_checked := h.le_checked
  no_lf k hk := by
    have hlow := hp.trans (h.le_checked.trans hk)
    rw [CJob.readEvent, CharArray.get_copy (Nat.zero_le _), if_neg (by omega)]
    exact h.no_lf k hk

theorem Starved.processRead (h : j.Starved d) (fs : FileSystem) :
    (processRead fs j).1 = .noRequest ∧ (processRead fs j).2.Starved d := by
  obtain ⟨c, hc, hloop⟩ := h.processReadLoop_eq
  rw [CJob.processRead, hloop]
  exact ⟨rfl, h.checkState, h.le_checked.trans hc, fun k hk => h.no_lf k (hc.trans hk)⟩

/-- No number of pieces of at most `d` bytes feeds the parser. -/
theorem Starved.receive (fs : FileSystem) {r : HttpCode × CJob} (hr : r.1 = .noRequest)
    (h : r.2.Starved d) {ps : List (List UInt8)} (hps : ∀ p ∈ ps, p.length ≤ d) :
    (ps.foldl (fun r p => CJob.processRead fs (r.2.readEvent p)) r).1 = .noRequest := by
  induction ps generalizing r with
  | nil => exact hr
  | cons p ps ih =>
    rw [List.forall_mem_cons] at hps
    obtain ⟨hno, hst⟩ := (h.readEvent hps.1).processRead fs
    exact ih hno hst hps.2

/-! ## Requests without a body -/

/-- A complete GET or HEAD request without a body. -/
structure BareRequest where
  line : List UInt8
  headers : List (List UInt8)
  clean_line : Clean line
  clean_headers : ∀ h ∈ headers, Clean h
  /-- The request line is one that `parse_request_line` accepts. -/
  accepted : (requestLine (cstr line)).code ≠ .badRequest
  method : ∃ m code, (requestLine (cstr line)).method = some (m, code) ∧ (m = .get ∨ m = .head)
  /-- No header line reads as the empty line. -/
  header_ne : ∀ h ∈ headers, cstr h ≠ []
  noBody : declaredLength (headers.map cstr) = 0

namespace BareRequest

variable (q : BareRequest)

/-- The lines of the request, with the empty one that ends it. -/
def lines : List (List UInt8) := q.line :: (q.headers ++ [[]])

def bytes : List UInt8 := q.lines.flatMap terminated

theorem clean_lines : ∀ x ∈ q.lines, Clean x := by
  intro x hx
  rw [lines, List.mem_cons, List.mem_append, List.mem_singleton] at hx
  rcases hx with rfl | hx | rfl
  exacts [q.clean_line, q.clean_headers x hx, clean_nil]

theorem nil_not_mem_headers : [] ∉ q.headers.map cstr := by
  rw [List.mem_map]
  rintro ⟨h, hmem, he⟩
  exact q.header_ne h hmem he

theorem reference_bytes :
    reference q.bytes = .head (requestLine (cstr q.line)) (q.headers.map cstr) := by
  have hcut : cutLines q.bytes = q.lines := by
    have := cutLines_flatMap q.clean_lines []
    rwa [List.append_nil, cutLines_of_none (l := []) rfl, List.append_nil] at this
  have htake : (q.headers.map cstr ++ [[]]).takeWhile (· ≠ []) = q.headers.map cstr := by
    rw [List.takeWhile_append_of_pos fun t ht => ?_]
    · simp
    · simpa using ne_of_mem_of_not_mem ht q.nil_not_mem_headers
  rw [reference, hcut, lines, List.map_cons, List.map_append, List.map_singleton, cstr_nil]
  simp only [if_neg q.accepted, if_pos (List.mem_append_right _ (List.mem_singleton_self _)), htake]

/-- A request delivered at once is answered by `do_request`. -/
theorem processRead_eq (fs : FileSystem) (j : CJob) (hlen : q.bytes.length ≤ readBufferSize) :
    ∃ j', processRead fs (j.holding q.bytes) = doRequest fs j' := by
  have hread := j.reference_read hlen
  rw [q.reference_bytes] at hread
  obtain ⟨j', h⟩ := hread
  obtain ⟨m, code, hm, hget⟩ := q.method
  have hmethod := h.method
  rw [hm, Option.some.injEq, Prod.mk.injEq] at hmethod
  have hbody : j'.BodyLess := by
    -- GET and HEAD have no body, whatever their headers say
    rw [BodyLess, ← hmethod.1]
    exact hget.imp_right .inl
  exact ⟨j', by rw [processRead, (h.answer hbody).2]⟩

end BareRequest

/-! ## A request cut in two -/

/-- A part of a request: whole lines of it without the empty one, and the start of
    the next line. -/
theorem BareRequest.exists_cut (q : BareRequest) {p : List UInt8} (hp : p <+: q.bytes)
    (hne : p ≠ q.bytes) :
    ∃ ks t, p = ks.flatMap terminated ++ t ∧ (∀ x ∈ ks, Clean x) ∧ IsOpen t ∧
      ks <+: q.line :: q.headers := by
  obtain ⟨ks, x, rest, t, hls, rfl, ht, htne⟩ := exists_cut_of_isPrefix hp hne
  have hmem : ∀ y ∈ ks, y ∈ q.lines := fun y hy => hls ▸ List.mem_append_left _ hy
  have hx : x ∈ q.lines := hls ▸ List.mem_append_right _ List.mem_cons_self
  refine ⟨ks, t, rfl, fun y hy => q.clean_lines y (hmem y hy),
    isOpen_of_isPrefix (q.clean_lines x hx) ht htne, ?_⟩
  have hlen := congrArg List.length hls
  rw [lines] at hls hlen
  have hpre : ks <+: q.line :: (q.headers ++ [[]]) := hls ▸ List.prefix_append _ _
  refine List.prefix_of_prefix_length_le hpre ⟨[[]], by simp⟩ ?_
  simp only [List.length_cons, List.length_append, List.length_nil] at hlen ⊢
  omega

theorem BareRequest.reference_part (q : BareRequest) {p : List UInt8} (hp : p <+: q.bytes)
    (hne : p ≠ q.bytes) : reference p = .noRequest := by
  obtain ⟨ks, t, rfl, hks, ht, hpre⟩ := q.exists_cut hp hne
  rw [reference, cutLines_flatMap hks, cutLines_of_none ht.cutLine_eq, List.append_nil]
  rcases ks with - | ⟨x, ks⟩
  · rfl
  · obtain ⟨rfl, hks'⟩ := List.cons_prefix_cons.1 hpre
    have hnil : [] ∉ ks.map cstr :=
      fun h => q.nil_not_mem_headers (List.map_subset cstr hks'.subset h)
    simp only [List.map_cons, if_neg q.accepted, if_neg hnil]

/-- In an open line `parse_line` stops at the end of the bytes, or at the CR they end with. -/
theorem AtLine.parseLine_isOpen {j j' : CJob} {s : LineStatus} (hj : j.AtLine)
    (hhead : j.checkState ≠ .content) (hout : ∀ k, j.readIdx ≤ k → j.readBuf.get k ≠ lf)
    (ht : IsOpen j.unparsed) (he : j.parseLine = (s, j')) :
    s ≠ .lineOk ∧ j'.Starved (j.readIdx - 1) := by
  have hp := hj.parsed
  rw [he] at hp
  cases hp with
  | ok hi hcr hlt hlf =>
    obtain ⟨x, r, hc, -⟩ := hj.cut hi hcr hlt hlf he
    rw [ht.cutLine_eq] at hc
    cases hc
  | more _ => exact ⟨by simp, hhead, Nat.sub_le _ _, hout⟩
  | pending _ hcr hlast =>
    refine ⟨by simp, hhead, by simp [← hlast], fun k hk => ?_⟩
    rcases Nat.eq_or_lt_of_le hk with rfl | hk
    · exact fun hlf => absurd (hcr.symm.trans hlf) (by decide)
    · exact hout k (hlast ▸ hk)
  | bare hi hb =>
    -- not in an open line
    have hsi := hj.start_le.trans hi.checked_le
    rw [unparsed_split hsi hi.lt_read.le, take_mem_cons hi.lt_read hj.read_le] at ht
    obtain ⟨hlf, hcr⟩ := ht.append_cons
    rcases hb with ⟨hb, hlt, -⟩ | hb
    · have hnil := hcr hb
      rw [take_mem_cons hlt hj.read_le] at hnil
      cases hnil
    · exact absurd hb hlf

/-- Where the bytes end in an open line, the call leaves the cursor at their end,
    or at the CR they end with. -/
theorem processReadLoop_isOpen {j j' : CJob} (hj : j.AtLine)
    (hout : ∀ k, j.readIdx ≤ k → j.readBuf.get k ≠ lf) {ks : List (List UInt8)} {t : List UInt8}
    (hks : ∀ x ∈ ks, Clean x) (ht : IsOpen t) (hun : j.unparsed = ks.flatMap terminated ++ t)
    (h : processReadLoop .lineOk j = (.ret .noRequest, j')) (hst : j'.checkState ≠ .content) :
    j'.Starved (j.readIdx - 1) := by
  have hhead := checkState_of_processReadLoop h hst
  -- by induction on the whole lines, each of which is one iteration
  induction ks generalizing j with
  | nil =>
    -- the loop ends at once, where `parse_line` stops
    rcases he : j.parseLine with ⟨s, jl⟩
    obtain ⟨hs, hstarved⟩ := hj.parseLine_isOpen hhead hout (by rwa [hun]) he
    rw [processReadLoop_leave (processReadIter_of_ne (fun hc => hhead hc.1) he hs), Prod.mk.injEq] at h
    exact h.2 ▸ hstarved
  | cons x ks ih =>
    rw [List.forall_mem_cons] at hks
    rw [List.flatMap_cons, List.append_assoc] at hun
    have hc : cutLine j.unparsed = some (x, ks.flatMap terminated ++ t) := by
      rw [hun, cutLine_terminated hks.1]
    rcases hj.parseLine_cases with ⟨y, r, hy, hcut⟩ | ⟨hn, -⟩
    swap
    · rw [hc] at hn
      cases hn
    rw [hc, Option.some.injEq, Prod.mk.injEq] at hy
    obtain ⟨rfl, rfl⟩ := hy
    obtain ⟨hne, hnext⟩ := processReadIter_line hhead hcut
    rcases hi : j.processReadIter .lineOk with ⟨e | st, j₁⟩
    · rw [processReadLoop_leave hi, Prod.mk.injEq] at h
      rw [hi, h.1] at hne
      exact absurd rfl hne
    · obtain ⟨rfl, hpass, hun₁⟩ := hnext st j₁ hi
      rw [processReadLoop_next hi] at h
      have hstart : j₁.startLine ≤ j₁.readIdx := hpass.atLine.start_le.trans hpass.atLine.checked_le
      rw [← hpass.readIdx]
      refine ih hpass.atLine (fun k hk => ?_) hks.2 hun₁ h (checkState_of_processReadLoop h hst)
      rw [hpass.after k (hstart.trans hk)]
      exact hout k (hpass.readIdx ▸ hk)

theorem holding_get (j : CJob) (p : List UInt8) (k : Nat) :
    (j.holding p).readBuf.get k = 0 ∨ k < p.length ∧ (j.holding p).readBuf.get k = p.getD k 0 := by
  simp only [holding, append, init]
  rw [CharArray.get_copy (Nat.zero_le _), CharArray.get_zero]
  split_ifs with h
  · exact .inr ⟨by omega, rfl⟩
  · exact .inl rfl

/-- The first piece of a request is longer than each of those after it: they are
    not read. -/
theorem receive_starved (fs : FileSystem) (j : CJob) (q : BareRequest)
    (hlen : q.bytes.length ≤ readBufferSize) {p : List UInt8} {ps : List (List UInt8)}
    (hp : p <+: q.bytes) (hne : p ≠ q.bytes) (hps : ∀ s ∈ ps, s.length < p.length) :
    (receive fs j.init (p :: ps)).1 = .noRequest := by
  have hpl := hp.length_le.trans hlen
  obtain ⟨ks, t, hcut, hks, ht, -⟩ := q.exists_cut hp hne
  have hread := j.reference_read hpl
  rw [q.reference_part hp hne] at hread
  obtain ⟨j', hloop, hst⟩ := hread
  have hidx : (j.holding p).readIdx = p.length := by simp [holding, append, init]
  have hstarved := processReadLoop_isOpen (j.holding_atLine hpl) (fun k hk => ?_) hks ht
    ((j.holding_unparsed hpl).trans hcut) hloop hst
  · have hfirst : processRead fs (j.init.readEvent p) = (.noRequest, j') := by
      have : j.init.readEvent p = j.holding p := rfl
      rw [this, processRead, hloop]
    rw [receive, List.foldl_cons, hfirst]
    refine Starved.receive fs rfl hstarved fun s hs => ?_
    rw [hidx]
    exact Nat.le_sub_one_of_lt (hps s hs)
  · rcases j.holding_get p k with h0 | ⟨hlt, -⟩
    · rw [h0]
      decide
    · exact absurd hk (by omega)

/-! ## Bytes that spell no method -/

/-- No letter by which a method can be told: every method has one of these. -/
def Silent (b : UInt8) : Prop := tolower b ∉ ascii "gdouc"

instance (b : UInt8) : Decidable (Silent b) := inferInstanceAs (Decidable (¬_))

theorem methodOf_silent {s : List UInt8} (h : ∀ b ∈ s, Silent b) : methodOf s = none := by
  rw [methodOf, Option.map_eq_none_iff, List.find?_eq_none]
  intro m hm hcmp
  have hletter : ∀ m ∈ methods, ∃ b ∈ (cstr m.1).map tolower, b ∈ ascii "gdouc" := by decide
  obtain ⟨b, hb, hmem⟩ := hletter m hm
  rw [← strcasecmp_eq_zero.1 (of_decide_eq_true hcmp), List.mem_map] at hb
  obtain ⟨a, ha, rfl⟩ := hb
  exact h a ((cstr_isPrefix s).subset ha) hmem

theorem requestLine_silent {t : List UInt8} (h : ∀ b ∈ t, Silent b) :
    (requestLine t).code = .badRequest := by
  rw [requestLine]
  cases hk : strpbrk t blanks with
  | none => rfl
  | some k => simp only [methodOf_silent fun b hb => h b (List.mem_of_mem_take hb)]

/-- The parser is at a request line, and no byte of the buffer is from a method. -/
structure Mute (j : CJob) : Prop where
  checkState : j.checkState = .requestLine
  silent : ∀ k, Silent (j.readBuf.get k)

theorem silent_store {n : Nat} {a : CharArray n} (h : ∀ k, Silent (a.get k)) (i : Nat) :
    ∀ k, Silent ((a.store i 0).get k) := by
  intro k
  rw [CharArray.get_store]
  split_ifs
  · decide
  · exact h k

theorem silent_storeNuls {n : Nat} {a : CharArray n} (h : ∀ k, Silent (a.get k)) (text : Nat)
    (ks : List Nat) : ∀ k, Silent ((a.storeNuls text ks).get k) := by
  induction ks generalizing a with
  | nil => exact h
  | cons i ks ih => exact ih (silent_store h (text + i))

theorem Mute.parseLineLoop (h : j.Mute) (n : Nat) : (parseLineLoop n j).2.Mute := by
  induction n generalizing j with
  | zero => exact h
  | succ n ih =>
    simp only [CJob.parseLineLoop]
    split_ifs
    · exact h
    · exact ⟨h.checkState, silent_store (silent_store h.silent _) _⟩
    · exact h
    · exact ⟨h.checkState, silent_store (silent_store h.silent _) _⟩
    · exact h
    · exact ih ⟨h.checkState, h.silent⟩

theorem Mute.loopBody (h : j.Mute) :
    j.loopBody.1 = .leave (.ret .badRequest) ∧ j.loopBody.2.Mute := by
  have hcode : (requestLine (j.readBuf.str j.startLine)).code = .badRequest := by
    refine requestLine_silent fun b hb => ?_
    have hmem := List.mem_of_mem_drop ((cstr_isPrefix _).subset hb)
    obtain ⟨k, hk, rfl⟩ := List.mem_iff_getElem.1 hmem
    have := h.silent k
    rwa [CharArray.get, List.getD_eq_getElem _ _ hk] at this
  rw [loopBody_requestLine h.checkState rfl, hcode, if_pos rfl]
  refine ⟨rfl, ?_, silent_storeNuls h.silent _ _⟩
  rw [applyRequestLine, if_pos hcode]
  exact h.checkState

theorem Mute.processRead (h : j.Mute) (fs : FileSystem) :
    ((processRead fs j).1 = .noRequest ∨ (processRead fs j).1 = .badRequest) ∧
      (processRead fs j).2.Mute := by
  have hhead : ¬(j.checkState = .content ∧ LineStatus.lineOk = .lineOk) := by simp [h.checkState]
  have hparse := h.parseLineLoop (j.readIdx - j.checkedIdx)
  rw [← CJob.parseLine] at hparse
  rcases hp : j.parseLine with ⟨s, jl⟩
  rw [hp] at hparse
  rw [CJob.processRead]
  by_cases hs : s = .lineOk
  · obtain ⟨hbad, hmute⟩ := hparse.loopBody
    have hiter : j.processReadIter .lineOk = (.leave (.ret .badRequest), jl.loopBody.2) := by
      rw [processReadIter, loopCondition, if_neg hhead, hp, hs]
      exact Prod.ext hbad rfl
    rw [processReadLoop_leave hiter]
    exact ⟨.inr rfl, hmute⟩
  · rw [processReadLoop_leave (processReadIter_of_ne hhead hp hs)]
    exact ⟨.inl rfl, hparse⟩

theorem Mute.readEvent (h : j.Mute) {p : List UInt8} (hp : ∀ b ∈ p, Silent b) :
    (j.readEvent p).Mute where
  checkState := h.checkState
  silent k := by
    rw [CJob.readEvent, CharArray.get_copy (Nat.zero_le _)]
    split_ifs with hk
    · rw [Nat.sub_zero, List.getD_eq_getElem _ _ (by omega)]
      exact hp _ (List.getElem_mem _)
    · exact h.silent k

theorem Mute.receive (fs : FileSystem) {r : HttpCode × CJob}
    (hr : r.1 = .noRequest ∨ r.1 = .badRequest) (h : r.2.Mute) {ps : List (List UInt8)}
    (hps : ∀ p ∈ ps, ∀ b ∈ p, Silent b) :
    (ps.foldl (fun r p => CJob.processRead fs (r.2.readEvent p)) r).1 = .noRequest ∨
      (ps.foldl (fun r p => CJob.processRead fs (r.2.readEvent p)) r).1 = .badRequest := by
  induction ps generalizing r with
  | nil => exact hr
  | cons p ps ih =>
    rw [List.forall_mem_cons] at hps
    obtain ⟨hcode, hmute⟩ := (h.readEvent hps.1).processRead fs
    exact ih hcode hmute hps.2

/-- A request line cut before its LF, and the rest in pieces that spell no method:
    the parser never gets past the request line. -/
theorem receive_mute (fs : FileSystem) (j : CJob) {p s : List UInt8} {ps : List (List UInt8)}
    (hp : ∀ b ∈ p, b ≠ lf) (htail : ∀ b ∈ p.tail, Silent b) (hs : s ≠ [])
    (hps : ∀ s' ∈ s :: ps, ∀ b ∈ s', Silent b) :
    (receive fs j.init (p :: s :: ps)).1 = .noRequest ∨
      (receive fs j.init (p :: s :: ps)).1 = .badRequest := by
  have hstarved : (j.holding p).Starved 0 := by
    refine ⟨by simp [holding, append, init], Nat.zero_le _, fun k _ => ?_⟩
    rcases j.holding_get p k with h0 | ⟨hk, hget⟩
    · rw [h0]
      decide
    · rw [hget, List.getD_eq_getElem _ _ hk]
      exact hp _ (List.getElem_mem hk)
  obtain ⟨c, -, hloop⟩ := hstarved.processReadLoop_eq
  have hfirst : processRead fs (j.init.readEvent p) =
      (.noRequest, { j.holding p with checkedIdx := c }) := by
    have : j.init.readEvent p = j.holding p := rfl
    rw [this, processRead, hloop]
  -- the second event replaces the first byte, and with it the start of the method
  have hmute : (({ j.holding p with checkedIdx := c } : CJob).readEvent s).Mute := by
    refine ⟨rfl, fun k => ?_⟩
    rw [readEvent, CharArray.get_copy (Nat.zero_le _)]
    split_ifs with hk
    · rw [Nat.sub_zero, List.getD_eq_getElem _ _ (by omega)]
      exact hps s List.mem_cons_self _ (List.getElem_mem _)
    · rcases j.holding_get p k with h0 | ⟨hk', hget⟩
      · rw [h0]
        decide
      · have hpos : 0 < k ∨ readBufferSize ≤ k := by
          have := List.length_pos_of_ne_nil hs
          omega
        rcases hpos with hpos | hout
        · obtain ⟨i, rfl⟩ := Nat.exists_eq_add_of_le' hpos
          rw [hget, List.getD_eq_getElem _ _ hk']
          refine htail _ (List.mem_iff_getElem.2 ⟨i, by rw [List.length_tail]; omega, ?_⟩)
          rw [List.getElem_tail]
        · rw [CharArray.get_of_le hout]
          decide
  obtain ⟨hcode, hmute'⟩ := hmute.processRead fs
  rw [receive, List.foldl_cons, List.foldl_cons, hfirst]
  exact Mute.receive fs hcode hmute' fun s' hs' => hps s' (List.mem_cons_of_mem _ hs')

/-! ## The divisions of requests -/

/-- A GET for a path of `n` bytes after its slash. -/
def plainLine (n : Nat) : List UInt8 :=
  ascii "GET" ++ 32 :: (47 :: List.replicate n 97 ++ 32 :: ascii "HTTP/1.1")

theorem forall_mem_plainLine_tail {P : UInt8 → Prop} (n : Nat)
    (h : ∀ b ∈ ascii "ET /aHTTP/1.1", P b) : ∀ b ∈ (plainLine n).tail, P b := by
  intro b hb
  have hmem : b ∈ ascii "ET" ++ 32 :: (47 :: List.replicate n 97 ++ 32 :: ascii "HTTP/1.1") := hb
  refine h b ?_
  simp only [List.mem_append, List.mem_cons, List.mem_replicate] at hmem
  rcases hmem with hmem | rfl | (rfl | ⟨-, rfl⟩) | rfl | hmem
  · exact (by decide : ∀ b ∈ ascii "ET", b ∈ ascii "ET /aHTTP/1.1") b hmem
  · decide
  · decide
  · decide
  · decide
  · exact (by decide : ∀ b ∈ ascii "HTTP/1.1", b ∈ ascii "ET /aHTTP/1.1") b hmem

theorem forall_mem_plainLine {P : UInt8 → Prop} (n : Nat)
    (h : ∀ b ∈ ascii "GET /aHTTP/1.1", P b) : ∀ b ∈ plainLine n, P b :=
  List.forall_mem_cons.2 ⟨h _ (by decide), forall_mem_plainLine_tail n fun b hb =>
    h b (List.mem_cons_of_mem _ hb)⟩

theorem requestLine_plainLine (n : Nat) :
    (requestLine (cstr (plainLine n))).code = .getRequest ∧
      (requestLine (cstr (plainLine n))).method = some (.get, .getRequest) := by
  have hcstr : cstr (plainLine n) = plainLine n :=
    cstr_eq_self fun h => forall_mem_plainLine (P := (· ≠ 0)) n (by decide) 0 h rfl
  have hpath : Word (47 :: List.replicate n 97) := by
    intro b hb
    rw [List.mem_cons, List.mem_replicate] at hb
    rcases hb with rfl | ⟨-, rfl⟩ <;> decide
  rw [hcstr, plainLine, requestLine_words (r := (.get, .getRequest)) (by unfold Word; decide)
    (by decide) hpath]
  exact ⟨rfl, rfl⟩

/-- The request line alone, and the empty line. -/
def plainGet (n : Nat) : BareRequest where
  line := plainLine n
  headers := []
  clean_line := forall_mem_plainLine n (by decide)
  clean_headers := by simp
  accepted := by
    rw [(requestLine_plainLine n).1]
    decide
  method := ⟨.get, .getRequest, (requestLine_plainLine n).2, .inl rfl⟩
  header_ne := by simp
  noBody := rfl

theorem plainGet_bytes (n : Nat) : (plainGet n).bytes = plainLine n ++ [cr, lf, cr, lf] := by
  simp [BareRequest.bytes, BareRequest.lines, plainGet, terminated]

theorem length_plainLine (n : Nat) : (plainLine n).length = n + 14 := by
  simp [plainLine, ascii]

theorem length_plainGet (n : Nat) : (plainGet n).bytes.length = n + 18 := by
  rw [plainGet_bytes, List.length_append, length_plainLine]
  rfl

/-- The request line is in the first piece, and at most two bytes are left. -/
theorem receive_plainGet_of_lt {n : Nat} (fs : FileSystem) (j : CJob) {p s : List UInt8}
    {ps : List (List UInt8)} (hmax : n + 18 ≤ readBufferSize) (hs : s ≠ [])
    (hflat : p ++ (s :: ps).flatten = (plainGet n).bytes) (hlong : n + 15 < p.length) :
    (receive fs j.init (p :: s :: ps)).1 = .noRequest := by
  have htotal := congrArg List.length hflat
  rw [List.length_append, length_plainGet] at htotal
  have hrest : ∀ s' ∈ s :: ps, s'.length < p.length := by
    intro s' hs'
    have hle := (List.sublist_flatten_of_mem hs').length_le
    omega
  have hne : p ≠ (plainGet n).bytes := by
    rintro rfl
    have hpos := List.length_pos_of_ne_nil hs
    rw [length_plainGet, List.flatten_cons, List.length_append] at htotal
    omega
  exact receive_starved fs j (plainGet n) ((length_plainGet n).trans_le hmax) ⟨_, hflat⟩ hne hrest

/-- The first piece is a part of the request line: the second event overwrites the
    start of it. -/
theorem receive_plainGet_of_le {n : Nat} (fs : FileSystem) (j : CJob) {p s : List UInt8}
    {ps : List (List UInt8)} (hp : p ≠ []) (hs : s ≠ [])
    (hflat : p ++ (s :: ps).flatten = (plainGet n).bytes) (hshort : p.length ≤ n + 15) :
    (receive fs j.init (p :: s :: ps)).1 = .noRequest ∨
      (receive fs j.init (p :: s :: ps)).1 = .badRequest := by
  have hbytes := plainGet_bytes n
  have hhead : p <+: plainLine n ++ [cr] := by
    refine List.prefix_of_prefix_length_le ⟨_, hflat⟩ ⟨[lf, cr, lf], by rw [hbytes]; simp⟩ ?_
    rw [List.length_append, length_plainLine]
    exact hshort
  have hlf : ∀ b ∈ p, b ≠ lf := fun b hb =>
    (List.forall_mem_append.2 ⟨forall_mem_plainLine n (by decide), by decide⟩ :
      ∀ b ∈ plainLine n ++ [cr], b ≠ lf) b (hhead.subset hb)
  have hsilent : ∀ b ∈ p.tail ++ (s :: ps).flatten, Silent b := by
    have htail : p.tail ++ (s :: ps).flatten = (plainLine n).tail ++ [cr, lf, cr, lf] := by
      rw [← List.tail_append_of_ne_nil hp, hflat, hbytes]
      rfl
    rw [htail]
    exact List.forall_mem_append.2 ⟨forall_mem_plainLine_tail n (by decide), by decide⟩
  rw [List.forall_mem_append] at hsilent
  exact receive_mute fs j hlf hsilent.1 hs fun s' hs' b hb =>
    hsilent.2 b (List.mem_flatten.2 ⟨s', hs', hb⟩)

/-- A GET cut anywhere is not answered. -/
theorem receive_plainGet_ne {n : Nat} (fs : FileSystem) (j : CJob) {p s : List UInt8}
    {ps : List (List UInt8)} (hmax : n + 18 ≤ readBufferSize) (hp : p ≠ []) (hs : s ≠ [])
    (hflat : p ++ (s :: ps).flatten = (plainGet n).bytes) :
    (receive fs j.init (p :: s :: ps)).1 ≠ .noResource := by
  intro h
  rcases Nat.lt_or_ge (n + 15) p.length with hlong | hshort
  · rw [receive_plainGet_of_lt fs j hmax hs hflat hlong] at h
    cases h
  · have hmute := receive_plainGet_of_le fs j hp hs hflat hshort
    rw [h] at hmute
    rcases hmute with hmute | hmute <;> cases hmute

/-- A division into pieces of the lengths `ns` is invisible for every request if and
    only if there is one piece. A request cut in two or more may still be read right,
    when its own bytes, copied over its start, happen to spell the same. -/
theorem receive_invisible_iff {ns : List Nat} (hpos : ∀ n ∈ ns, 0 < n) (hmin : 18 ≤ ns.sum)
    (hmax : ns.sum ≤ readBufferSize) :
    (∀ (fs : FileSystem) (j : CJob) (q : BareRequest) (ps : List (List UInt8)),
      ps.flatten = q.bytes → ps.map List.length = ns →
        outcome (receive fs j.init ps) = outcome (receive fs j.init [q.bytes])) ↔
      ns.length = 1 := by
  constructor
  · intro h
    by_contra hlen
    -- a GET of this length, divided like this
    obtain ⟨n, hn⟩ : ∃ n, ns.sum = n + 18 := Nat.exists_eq_add_of_le' hmin
    have hlength : (plainGet n).bytes.length = ns.sum := by rw [length_plainGet, hn]
    obtain ⟨ps, hps⟩ : ∃ ps, ns.splitLengths (plainGet n).bytes = ps := ⟨_, rfl⟩
    have hflat : ps.flatten = (plainGet n).bytes := by
      rw [← hps, List.flatten_splitLengths _ _ hlength.le]
    have hmap : ps.map List.length = ns := by
      rw [← hps, List.map_splitLengths_length _ _ hlength.ge]
    have hsame := congrArg Prod.fst (h default default (plainGet n) ps hflat hmap)
    simp only [outcome] at hsame
    -- delivered at once, it is answered with `NO_RESOURCE`
    obtain ⟨j', hj'⟩ := (plainGet n).processRead_eq default default (hlength.trans_le hmax)
    have hwhole : (receive default (init default) [(plainGet n).bytes]).1 = .noResource :=
      congrArg Prod.fst hj'
    obtain ⟨p, s, ps, rfl⟩ : ∃ p s ps', ps = p :: s :: ps' := by
      rcases ps with - | ⟨p, - | ⟨s, ps⟩⟩
      · rw [← hmap] at hmin
        exact absurd hmin (by decide)
      · exact absurd (by rw [← hmap]; rfl) hlen
      · exact ⟨p, s, ps, rfl⟩
    rw [← hmap] at hpos
    simp only [List.map_cons, List.forall_mem_cons] at hpos
    exact receive_plainGet_ne default default (hn ▸ hmax) (List.ne_nil_of_length_pos hpos.1)
      (List.ne_nil_of_length_pos hpos.2.1) hflat (hsame.trans hwhole)
  · intro hlen fs j q ps hflat hmap
    obtain ⟨p, rfl⟩ : ∃ p, ps = [p] := by
      rw [← List.length_eq_one_iff, ← hlen, ← hmap, List.length_map]
    rw [List.flatten_singleton] at hflat
    rw [hflat]

/-- Sixteen bytes, and then two. -/
theorem receive_invisible_iff_crlf :
    (∀ n ∈ [16, 2], 0 < n) ∧ 18 ≤ [16, 2].sum ∧ [16, 2].sum ≤ readBufferSize ∧
      ¬∀ (fs : FileSystem) (j : CJob) (q : BareRequest) (ps : List (List UInt8)),
        ps.flatten = q.bytes → ps.map List.length = [16, 2] →
          outcome (receive fs j.init ps) = outcome (receive fs j.init [q.bytes]) :=
  ⟨by decide, by decide, by decide,
    (@receive_invisible_iff [16, 2] (by decide) (by decide) (by decide)).not.2 (by decide)⟩

/-- `GET / HTTP/1.1`, its CRLF, and, in another event, the empty line. -/
theorem receive_crlf_ne :
    (plainGet 0).bytes = ascii "GET / HTTP/1.1\r\n" ++ ascii "\r\n" ∧
      outcome (receive default (init default) [ascii "GET / HTTP/1.1\r\n", ascii "\r\n"]) ≠
        outcome (receive default (init default) [(plainGet 0).bytes]) := by
  have hbytes : (plainGet 0).bytes = ascii "GET / HTTP/1.1\r\n" ++ ascii "\r\n" := by decide
  refine ⟨hbytes, fun h => ?_⟩
  have hcode := congrArg Prod.fst h
  obtain ⟨j', hj'⟩ := (plainGet 0).processRead_eq default default (by rw [hbytes]; decide)
  have hwhole : (receive default (init default) [(plainGet 0).bytes]).1 = .noResource :=
    congrArg Prod.fst hj'
  have hcut : (receive default (init default) [ascii "GET / HTTP/1.1\r\n", ascii "\r\n"]).1 =
      .noRequest :=
    receive_starved default default (plainGet 0) (by rw [hbytes]; decide) (by rw [hbytes]; decide)
      (by rw [hbytes]; decide) (by decide)
  simp only [outcome] at hcode
  rw [hwhole, hcut] at hcode
  cases hcode

end CJob

end VsHttpServer
