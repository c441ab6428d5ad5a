import VsHttpServer.Job.ProcessRead

/-!
# The stores of the parser

The indices of `m_read_buf` at which `parse_line`, `parse_request_line` and
`parse_content` store a NUL, and the sum that `parse_content` compares with
`m_read_idx`. An index outside the buffer is the memory of something else.

* `readBuf_loopCondition`, `readBuf_loopBody`: the buffer is changed by these stores
  only;
* `lt_of_mem_parseLineStores`, `lt_of_mem_parseRequestLineStores`: the stores of
  `parse_line` are below `m_read_idx`, those of `parse_request_line` in the line;
* `parseContent_inside_iff`: the store of `parse_content` is in the buffer, and the sum
  is an `int`, if and only if the declared body can be ended there.
-/

namespace VsHttpServer

open CString Crlf

namespace CJob

variable {N : Nat} {j : CJob N}

/-! ## The indices -/

/-- The stores of the loop of `parse_line`. -/
def parseLineStores : Nat → CJob N → List Nat
  | 0, _ => []
  | n + 1, j =>
    let temp := j.readBuf.get j.checkedIdx
    if temp = cr then
      if j.checkedIdx + 1 = j.readIdx then []
      else if j.readBuf.get (j.checkedIdx + 1) = lf then [j.checkedIdx, j.checkedIdx + 1]
      else []
    else if temp = lf then
      if 1 < j.checkedIdx ∧ j.readBuf.get (j.checkedIdx - 1) = cr then
        [j.checkedIdx - 1, j.checkedIdx]
      else []
    else parseLineStores n { j with checkedIdx := j.checkedIdx + 1 }

/-- The stores of `parse_request_line`. -/
def parseRequestLineStores (j : CJob N) (text : Nat) : List Nat :=
  match strpbrk (j.readBuf.mem text) blanks with
  | none => []
  | some k =>
    let j := { j with readBuf := j.readBuf.store (text + k) 0 }
    match methodOf (j.readBuf.mem text) with
    | none => [text + k]
    | some _ =>
      let u := text + k + 1 + strspn (j.readBuf.mem (text + k + 1)) blanks
      match strpbrk (j.readBuf.mem u) blanks with
      | none => [text + k]
      | some l => [text + k, u + l]

/-- The store of `parse_content`. -/
def parseContentStores (j : CJob N) (text : Nat) : List Int :=
  if toInt32 (j.contentLength + j.checkedIdx) ≤ j.readIdx then [text + j.contentLength] else []

/-- The stores in the condition of the loop. -/
def conditionStores (lineStatus : LineStatus) (j : CJob N) : List Int :=
  if j.checkState = .content ∧ lineStatus = .lineOk then []
  else (parseLineStores (j.readIdx - j.checkedIdx) j).map (↑)

/-- The stores in the body of the loop. -/
def bodyStores (j : CJob N) : List Int :=
  match j.checkState with
  | .requestLine => (j.nextLine.parseRequestLineStores j.startLine).map (↑)
  | .header => []
  | .content => j.nextLine.parseContentStores j.startLine

/-- The sum that is computed in the body of the loop. -/
def bodySums (j : CJob N) : List Int :=
  match j.checkState with
  | .requestLine => []
  | .header => []
  | .content => [j.contentLength + j.checkedIdx]

/-- NULs stored at the indices `is`, as far as they are in the array. -/
def storeAll (a : CharArray N) (is : List Int) : CharArray N :=
  is.foldl (fun b i => if 0 ≤ i then b.store i.toNat 0 else b) a

@[simp] theorem storeAll_nil (a : CharArray N) : storeAll a [] = a := rfl

@[simp] theorem storeAll_cons (a : CharArray N) (i : Nat) (is : List Int) :
    storeAll a (i :: is) = storeAll (a.store i 0) is := by
  rw [storeAll, List.foldl_cons, if_pos (Int.natCast_nonneg i), Int.toNat_natCast, ← storeAll]

theorem readBuf_parseLineLoop (n : Nat) (j : CJob N) :
    (parseLineLoop n j).2.readBuf = storeAll j.readBuf ((parseLineStores n j).map (↑)) := by
  induction n generalizing j with
  | zero => rfl
  | succ n ih =>
    simp only [parseLineLoop, parseLineStores]
    split_ifs
    · rfl
    · simp only [List.map_cons, List.map_nil, storeAll_cons, storeAll_nil]
    · rfl
    · simp only [List.map_cons, List.map_nil, storeAll_cons, storeAll_nil]
    · rfl
    · exact ih _

theorem readBuf_parseUrl (j : CJob N) (u : Nat) : (j.parseUrl u).2.readBuf = j.readBuf := by
  simp only [parseUrl]
  split
  · rfl
  · split_ifs <;> rfl

theorem readBuf_parseRequestLine (j : CJob N) (text : Nat) :
    (j.parseRequestLine text).2.readBuf =
      storeAll j.readBuf ((j.parseRequestLineStores text).map (↑)) := by
  rw [parseRequestLine, parseRequestLineStores]
  cases strpbrk (j.readBuf.mem text) blanks with
  | none => rfl
  | some k =>
    simp only
    cases methodOf ((j.readBuf.store (text + k) 0).mem text) with
    | none => simp only [List.map_cons, List.map_nil, storeAll_cons, storeAll_nil]
    | some m =>
      -- the target is cut off by the second store
      simp only [parseTarget]
      obtain ⟨u, hu⟩ : ∃ u, text + k + 1 +
        strspn ((j.readBuf.store (text + k) 0).mem (text + k + 1)) blanks = u := ⟨_, rfl⟩
      rw [hu]
      cases strpbrk ((j.readBuf.store (text + k) 0).mem u) blanks with
      | none => simp only [List.map_cons, List.map_nil, storeAll_cons, storeAll_nil]
      | some l =>
        simp only [List.map_cons, List.map_nil, storeAll_cons, storeAll_nil]
        split_ifs
        · rfl
        · rw [readBuf_parseUrl]

theorem readBuf_parseContent (j : CJob N) (text : Nat) :
    (j.parseContent text).2.readBuf = storeAll j.readBuf (j.parseContentStores text) := by
  rw [parseContent, parseContentStores]
  split_ifs
  · rw [terminate, storeAll, List.foldl_cons, List.foldl_nil]
    split_ifs <;> rfl
  · rfl

/-- The condition of the loop changes the buffer by its stores only. -/
theorem readBuf_loopCondition (s : LineStatus) (j : CJob N) :
    (j.loopCondition s).2.readBuf = storeAll j.readBuf (j.conditionStores s) := by
  rw [loopCondition, conditionStores]
  split_ifs
  · rfl
  · exact readBuf_parseLineLoop _ j

/-- The body of the loop changes the buffer by its stores only. -/
theorem readBuf_loopBody (j : CJob N) :
    j.loopBody.2.readBuf = storeAll j.readBuf j.bodyStores := by
  rw [loopBody_snd, bodyStores]
  cases j.checkState with
  | requestLine => exact readBuf_parseRequestLine j.nextLine j.startLine
  | header =>
    rw [parseHeaders_eq]
    exact (applyHeader_frame j.nextLine j.startLine _).1
  | content => exact readBuf_parseContent j.nextLine j.startLine

/-! ## The cursors -/

/-- The order of the cursors. -/
structure Cursors (j : CJob N) : Prop where
  start_le : j.startLine ≤ j.checkedIdx
  checked_le : j.checkedIdx ≤ j.readIdx
  read_le : j.readIdx ≤ N

/-- What `parse_line` leaves: it moves `m_checked_idx`, and past a NUL when it has found
    a line. -/
structure LineRead (j : CJob N) (s : LineStatus) (k : CJob N) : Prop where
  readIdx : k.readIdx = j.readIdx
  startLine : k.startLine = j.startLine
  contentLength : k.contentLength = j.contentLength
  checkState : k.checkState = j.checkState
  le_checked : j.checkedIdx ≤ k.checkedIdx
  checked_le : k.checkedIdx ≤ j.readIdx
  nul : s = .lineOk → j.checkedIdx < k.checkedIdx ∧ k.readBuf.get (k.checkedIdx - 1) = 0

theorem parseLineLoop_lineRead {n : Nat} (hn : j.checkedIdx + n ≤ j.readIdx) :
    j.LineRead (parseLineLoop n j).1 (parseLineLoop n j).2 := by
  induction n generalizing j with
  | zero => exact ⟨rfl, rfl, rfl, rfl, le_rfl, hn, fun h => (by cases h)⟩
  | succ n ih =>
    have hle : j.checkedIdx ≤ j.readIdx := by omega
    simp only [parseLineLoop]
    split_ifs with hcr hend
    · -- a CR is the last byte
      exact ⟨rfl, rfl, rfl, rfl, le_rfl, hle, fun h => (by cases h)⟩
    · refine ⟨rfl, rfl, rfl, rfl, Nat.le_add_right _ 2, ?_,
        fun _ => ⟨?_, CharArray.get_store_zero _ _⟩⟩
      · simp only
        omega
      · simp
    · exact ⟨rfl, rfl, rfl, rfl, le_rfl, hle, fun h => (by cases h)⟩
    · -- an LF after a CR
      refine ⟨rfl, rfl, rfl, rfl, Nat.le_succ _, ?_,
        fun _ => ⟨Nat.lt_succ_self _, CharArray.get_store_zero _ _⟩⟩
      simp only
      omega
    · exact ⟨rfl, rfl, rfl, rfl, le_rfl, hle, fun h => (by cases h)⟩
    · have hrest := ih (j := { j with checkedIdx := j.checkedIdx + 1 }) (by simp only; omega)
      exact ⟨hrest.readIdx, hrest.startLine, hrest.contentLength, hrest.checkState,
        (Nat.le_succ _).trans hrest.le_checked, hrest.checked_le,
        fun h => ⟨(Nat.lt_succ_self _).trans (hrest.nul h).1, (hrest.nul h).2⟩⟩

theorem Cursors.lineRead (h : j.Cursors) : j.LineRead j.parseLine.1 j.parseLine.2 :=
  parseLineLoop_lineRead (Nat.add_sub_of_le h.checked_le).le

/-- `parse_line` stores below `m_read_idx`. -/
theorem lt_of_mem_parseLineStores {n : Nat} (hn : j.checkedIdx + n ≤ j.readIdx) {i : Nat}
    (hi : i ∈ parseLineStores n j) : i < j.readIdx := by
  induction n generalizing j with
  | zero => cases hi
  | succ n ih =>
    simp only [parseLineStores] at hi
    split_ifs at hi
    · cases hi
    · rw [List.mem_pair] at hi
      omega
    · cases hi
    · rw [List.mem_pair] at hi
      omega
    · cases hi
    · exact ih (j := { j with checkedIdx := j.checkedIdx + 1 }) (by simp only; omega) hi

/-- `parse_request_line` stores below any NUL after its text. -/
theorem lt_of_mem_parseRequestLineStores {text z i : Nat} (htz : text ≤ z)
    (hz : j.readBuf.get z = 0) (hi : i ∈ j.parseRequestLineStores text) : i < z := by
  have hstr := CharArray.length_str_le htz hz
  rw [parseRequestLineStores] at hi
  cases hk : strpbrk (j.readBuf.mem text) blanks with
  | none =>
    rw [hk] at hi
    cases hi
  | some k =>
    have hkz : k < z - text := (lt_of_strpbrk hk).trans_le hstr
    simp only [hk] at hi
    obtain ⟨a, ha⟩ : ∃ a, j.readBuf.store (text + k) 0 = a := ⟨_, rfl⟩
    rw [ha] at hi
    have haz : a.get z = 0 := by
      rw [← ha, CharArray.get_store_of_ne (by omega), hz]
    cases hm : methodOf (a.mem text) with
    | none =>
      rw [hm] at hi
      rw [List.mem_singleton.1 hi]
      omega
    | some m =>
      simp only [hm] at hi
      -- the blanks after the method end before the NUL, too
      obtain ⟨u, hu⟩ : ∃ u, text + k + 1 + strspn (a.mem (text + k + 1)) blanks = u := ⟨_, rfl⟩
      rw [hu] at hi
      have huz : u ≤ z := by
        have hspan := strspn_le (a.mem (text + k + 1)) blanks
        have hrest := CharArray.length_str_le (a := a) (o := text + k + 1) (z := z) (by omega) haz
        rw [CharArray.str] at hrest
        omega
      cases hl : strpbrk (a.mem u) blanks with
      | none =>
        rw [hl] at hi
        rw [List.mem_singleton.1 hi]
        omega
      | some l =>
        have hlz : l < z - u := (lt_of_strpbrk hl).trans_le (CharArray.length_str_le huz haz)
        rw [hl, List.mem_pair] at hi
        omega

/-! ## The order of the cursors is kept -/

theorem Cursors.parseLine (h : j.Cursors) : j.parseLine.2.Cursors := by
  have hl := h.lineRead
  exact ⟨hl.startLine.le.trans (h.start_le.trans hl.le_checked), hl.checked_le.trans hl.readIdx.ge,
    hl.readIdx.le.trans h.read_le⟩

theorem Cursors.loopCondition (h : j.Cursors) (s : LineStatus) : (j.loopCondition s).2.Cursors := by
  rw [CJob.loopCondition]
  split_ifs
  · exact h
  · exact h.parseLine

/-- The body is entered with a line that ends in a NUL, but in `CHECK_STATE_CONTENT`. -/
theorem Cursors.loopCondition_line (h : j.Cursors) {s : LineStatus}
    (hok : (j.loopCondition s).1 = .lineOk) (hne : (j.loopCondition s).2.checkState ≠ .content) :
    (j.loopCondition s).2.startLine < (j.loopCondition s).2.checkedIdx ∧
      (j.loopCondition s).2.readBuf.get ((j.loopCondition s).2.checkedIdx - 1) = 0 := by
  rw [CJob.loopCondition] at hok hne ⊢
  split_ifs at hok hne ⊢ with hb
  · exact absurd hb.1 hne
  · obtain ⟨hlt, hnul⟩ := h.lineRead.nul hok
    exact ⟨(h.lineRead.startLine.trans_le h.start_le).trans_lt hlt, hnul⟩

theorem Cursors.loopBody (h : j.Cursors) : j.loopBody.2.Cursors := by
  obtain ⟨hr, hc, hl⟩ := j.loopBody_cursors
  exact ⟨(hl.trans hc.symm).le, hc.trans_le (h.checked_le.trans hr.ge), hr.trans_le h.read_le⟩

theorem Cursors.doRequest (h : j.Cursors) (fs : FileSystem) : (j.doRequest fs).2.Cursors := by
  obtain ⟨-, hr, hc, hl, -⟩ := doRequest_frame fs j
  exact ⟨(hl.trans_le h.start_le).trans hc.ge, (hc.trans_le h.checked_le).trans hr.ge,
    hr.trans_le h.read_le⟩

theorem Cursors.processRead (h : j.Cursors) (fs : FileSystem) : (processRead fs j).2.Cursors := by
  have hloop := processReadLoop_inv (fun _ => Cursors.parseLine) (fun _ => Cursors.loopBody) .lineOk h
  rw [CJob.processRead]
  rcases hl : CJob.processReadLoop .lineOk j with ⟨code | -, k⟩
  · rwa [hl] at hloop
  · rw [hl] at hloop
    exact hloop.doRequest fs

theorem parseHeaders_contentLength (j : CJob N) (text : Nat) :
    (j.parseHeaders text).2.contentLength = j.contentLength ∨
      ∃ x, (j.parseHeaders text).2.contentLength = toInt32 x := by
  simp only [parseHeaders]
  split_ifs
  · exact .inl rfl
  · exact .inl rfl
  · exact .inl rfl
  · exact .inl rfl
  · exact .inl rfl
  · exact .inl rfl
  · exact .inr ⟨_, rfl⟩
  · exact .inl rfl
  · exact .inl rfl

/-- `m_content_length` stays an `int`. -/
theorem loopBody_contentLength (h : IsInt32 j.contentLength) : IsInt32 j.loopBody.2.contentLength := by
  rw [loopBody_snd]
  cases j.checkState with
  | requestLine =>
    simp only
    rw [parseRequestLine_eq]
    exact h
  | header =>
    rcases parseHeaders_contentLength j.nextLine j.startLine with he | ⟨x, hx⟩
    · simp only [he]
      exact h
    · simp only [hx]
      exact toInt32_bounds x
  | content =>
    simp only [parseContent, terminate]
    split_ifs <;> exact h

/-! ## The end of a body -/

/-- The body that `parse_content` is called for can be ended in the buffer: a negative
    length does not lead before its start, the sum with `m_checked_idx` is an `int`, and
    a body of which nothing was looked at does not fill the buffer to its last byte. -/
def BodyFits (j : CJob N) : Prop :=
  -j.contentLength ≤ j.startLine ∧ j.contentLength + j.checkedIdx < 2 ^ 31 ∧
    ¬(j.startLine = j.checkedIdx ∧ j.contentLength + j.checkedIdx = N ∧ j.readIdx = N)

/-- The store of `parse_content` is in the buffer, and its sum is an `int`. -/
theorem Cursors.parseContent_inside_iff (h : j.Cursors) (hlen : IsInt32 j.contentLength) :
    ((∀ i ∈ j.parseContentStores j.startLine, 0 ≤ i ∧ i < N) ∧
      IsInt32 (j.contentLength + j.checkedIdx)) ↔ j.BodyFits := by
  obtain ⟨hstart, hchecked, hread⟩ := h
  constructor
  · rintro ⟨hin, hsum⟩
    rw [parseContentStores, toInt32_of_isInt32 hsum] at hin
    refine ⟨?_, hsum.2, ?_⟩
    · -- a negative length is at once in the buffer
      by_contra hneg
      rw [if_pos (by omega)] at hin
      have := (hin _ (List.mem_singleton_self _)).1
      omega
    · rintro ⟨hnone, hfull, hall⟩
      rw [if_pos (by omega)] at hin
      have := (hin _ (List.mem_singleton_self _)).2
      omega
  · rintro ⟨hneg, hsum, hfill⟩
    have hint : IsInt32 (j.contentLength + j.checkedIdx) := by
      have := hlen.1
      exact ⟨by omega, hsum⟩
    refine ⟨fun i hi => ?_, hint⟩
    rw [parseContentStores, toInt32_of_isInt32 hint] at hi
    split_ifs at hi with hle
    · rw [List.mem_singleton] at hi
      omega
    · cases hi

end CJob

end VsHttpServer
