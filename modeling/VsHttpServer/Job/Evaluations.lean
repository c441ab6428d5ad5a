import VsHttpServer.Job.Stores

/-!
# The evaluations of the loop

How often the body of the loop of `process_read` is evaluated, from any state with
ordered cursors, whatever the buffer, `m_check_state` and `m_content_length` are. Each
evaluation follows a line of two bytes at least, but for two: an LF at
`m_checked_idx` with a CR before it, which only the first line can begin with, and a
body in `CHECK_STATE_CONTENT` that `line_status` lets in without `parse_line`, which
happens once.

* `processReadWithin`: the loop, with a bound on the evaluations of its body;
* `evalsLeft`: the bound, which every evaluation lowers (`evalsLeft_loopBody`);
* `lt_of_mem_parseLineReads`, `parseLineLoop_congr`: what `parse_line` reads (`LineReads`);
* `processReadLoop_bounded`: the loop ends within the bound, with its cursors in order
  throughout.
-/

namespace VsHttpServer

open CString Crlf

namespace CJob

variable {N : Nat} {j : CJob N}

/-- The loop of `process_read`; `none` when its body is evaluated more than `n` times. -/
def processReadWithin (n : Nat) (s : LineStatus) (j : CJob N) : Option (ReadExit × CJob N) :=
  match j.loopCondition s with
  | (.lineOk, j) =>
    match n with
    | 0 => none
    | n + 1 =>
      match j.loopBody with
      | (.leave e, j) => some (e, j)
      | (.next s, j) => processReadWithin n s j
  | (_, j) => some (.ret .noRequest, j)

/-! ## The reads of `parse_line` -/

/-- The indices of `m_read_buf` that the loop of `parse_line` reads. -/
def parseLineReads : Nat → CJob N → List Nat
  | 0, _ => []
  | n + 1, j =>
    let temp := j.readBuf.get j.checkedIdx
    j.checkedIdx ::
      if temp = cr then
        if j.checkedIdx + 1 = j.readIdx then [] else [j.checkedIdx + 1]
      else if temp = lf then
        if 1 < j.checkedIdx then [j.checkedIdx - 1] else []
      else parseLineReads n { j with checkedIdx := j.checkedIdx + 1 }

/-- `parse_line` reads below `m_read_idx`. -/
theorem lt_of_mem_parseLineReads {n : Nat} (hn : j.checkedIdx + n ≤ j.readIdx) {i : Nat}
    (hi : i ∈ parseLineReads n j) : i < j.readIdx := by
  induction n generalizing j with
  | zero => cases hi
  | succ n ih =>
    rw [parseLineReads, List.mem_cons] at hi
    rcases hi with rfl | hi
    · omega
    · split_ifs at hi
      · cases hi
      · rw [List.mem_singleton] at hi
        omega
      · rw [List.mem_singleton] at hi
        omega
      · cases hi
      · exact ih (j := { j with checkedIdx := j.checkedIdx + 1 }) (by simp only; omega) hi

/-- What `parse_line` finds depends on these bytes only. -/
theorem parseLineLoop_congr {n : Nat} {b : CharArray N}
    (hb : ∀ i ∈ parseLineReads n j, b.get i = j.readBuf.get i) :
    (parseLineLoop n { j with readBuf := b }).1 = (parseLineLoop n j).1 ∧
      (parseLineLoop n { j with readBuf := b }).2.checkedIdx = (parseLineLoop n j).2.checkedIdx := by
  induction n generalizing j with
  | zero => exact ⟨rfl, rfl⟩
  | succ n ih =>
    rw [parseLineReads, List.forall_mem_cons] at hb
    obtain ⟨htemp, hrest⟩ := hb
    simp only [parseLineLoop, htemp]
    by_cases hcr : j.readBuf.get j.checkedIdx = cr
    · rw [if_pos hcr] at hrest
      simp only [if_pos hcr]
      by_cases hend : j.checkedIdx + 1 = j.readIdx
      · simp only [if_pos hend, and_self]
      · rw [if_neg hend, List.forall_mem_singleton] at hrest
        simp only [if_neg hend, hrest]
        split_ifs <;> exact ⟨rfl, rfl⟩
    · rw [if_neg hcr] at hrest
      simp only [if_neg hcr]
      by_cases hlf : j.readBuf.get j.checkedIdx = lf
      · rw [if_pos hlf] at hrest
        simp only [if_pos hlf]
        by_cases hone : 1 < j.checkedIdx
        · rw [if_pos hone, List.forall_mem_singleton] at hrest
          simp only [hrest]
          split_ifs <;> exact ⟨rfl, rfl⟩
        · simp only [hone, false_and, if_false, and_self]
      · rw [if_neg hlf] at hrest
        simp only [if_neg hlf]
        exact ih (j := { j with checkedIdx := j.checkedIdx + 1 }) hrest

/-- `parse_line` reads below `m_read_idx` only: what it returns and where it leaves the cursor
    is the same for every buffer that has the bytes it reads. -/
structure LineReads (j : CJob N) : Prop where
  lt : ∀ i ∈ parseLineReads (j.readIdx - j.checkedIdx) j, i < j.readIdx
  congr : ∀ b : CharArray N,
    (∀ i ∈ parseLineReads (j.readIdx - j.checkedIdx) j, b.get i = j.readBuf.get i) →
      ({ j with readBuf := b }.parseLine).1 = j.parseLine.1 ∧
        ({ j with readBuf := b }.parseLine).2.checkedIdx = j.parseLine.2.checkedIdx

theorem Cursors.lineReads (h : j.Cursors) : j.LineReads :=
  ⟨fun _ => lt_of_mem_parseLineReads (Nat.add_sub_of_le h.checked_le).le,
    fun _ => parseLineLoop_congr⟩

/-! ## The bound -/

/-- The byte before `m_checked_idx` is a CR, which an LF may look back for. -/
def lookBack (j : CJob N) : Nat :=
  if 1 < j.checkedIdx ∧ j.readBuf.get (j.checkedIdx - 1) = cr then 1 else 0

/-- The evaluations of the body that are left, at most: one for every two bytes, and one in
    `CHECK_STATE_CONTENT` without a line. -/
def evalsLeft (s : LineStatus) (j : CJob N) : Nat :=
  (j.readIdx - j.checkedIdx + j.lookBack) / 2 +
    if j.checkState = .content ∧ s ≠ .lineOk then 0 else 1

theorem lookBack_le (j : CJob N) : j.lookBack ≤ 1 := by
  rw [lookBack]
  split_ifs
  · exact le_rfl
  · exact Nat.zero_le 1

theorem evalsLeft_le (s : LineStatus) (j : CJob N) :
    j.evalsLeft s ≤ (j.readIdx - j.checkedIdx) / 2 + 2 := by
  have hback := j.lookBack_le
  rw [evalsLeft]
  split_ifs
  · omega
  · omega

/-- A line takes two bytes, or one where it looks back. -/
theorem add_two_le_parseLineLoop {n : Nat} (h : (parseLineLoop n j).1 = .lineOk) :
    j.checkedIdx + 2 ≤ (parseLineLoop n j).2.checkedIdx + j.lookBack := by
  induction n generalizing j with
  | zero => cases h
  | succ n ih =>
    simp only [parseLineLoop] at h ⊢
    split_ifs at h ⊢ with hcr hend hnext hlf hback
    · exact Nat.le_add_right _ _
    · rw [lookBack, if_pos hback]
    · -- the byte that is passed over is no CR
      have hrest := ih h
      have hnone : ({ j with checkedIdx := j.checkedIdx + 1 } : CJob N).lookBack = 0 :=
        if_neg fun hcr' => hcr hcr'.2
      rw [hnone] at hrest
      simp only at hrest
      omega

theorem get_storeAll_ne {a : CharArray N} {i : Nat} (hi : a.get i ≠ cr) (is : List Int) :
    (storeAll a is).get i ≠ cr := by
  induction is generalizing a with
  | nil => exact hi
  | cons k is ih =>
    rw [storeAll, List.foldl_cons, ← storeAll]
    refine ih ?_
    split_ifs
    · rw [CharArray.get_store]
      split_ifs
      · decide
      · exact hi
    · exact hi

/-- The body of the loop starts from a line that ends in a NUL, and stores NULs only. -/
theorem lookBack_loopBody (h : j.readBuf.get (j.checkedIdx - 1) = 0) : j.loopBody.2.lookBack = 0 := by
  obtain ⟨-, hc, -⟩ := j.loopBody_cursors
  rw [lookBack, hc, readBuf_loopBody]
  exact if_neg fun hcr => get_storeAll_ne (by rw [h]; decide) _ hcr.2

theorem checkState_loopBody (h : j.checkState = .content) : j.loopBody.2.checkState = .content := by
  rw [loopBody_snd, h]
  simp only [parseContent, terminate]
  split_ifs <;> exact h

theorem lookBack_loopBody_le (j : CJob N) : j.loopBody.2.lookBack ≤ j.lookBack := by
  obtain ⟨-, hc, -⟩ := j.loopBody_cursors
  rw [lookBack, lookBack, hc, readBuf_loopBody]
  split_ifs with hcr hcr'
  · exact le_rfl
  · exact absurd hcr.2 (get_storeAll_ne (fun he => hcr' ⟨hcr.1, he⟩) _)
  · exact Nat.zero_le 1
  · exact le_rfl

/-- A body that is entered without a line asks for one. -/
theorem evalsLeft_of_content {s' : LineStatus} {j' : CJob N} (hstate : j.checkState = .content)
    (hnext : j.loopBody = (.next s', j')) : j'.evalsLeft s' < j.evalsLeft .lineOk := by
  obtain ⟨hr, hc, hopen⟩ := loopBody_next hnext
  have hstate' := checkState_loopBody hstate
  have hback := j.lookBack_loopBody_le
  rw [hnext] at hstate' hback
  have hclosed : j'.checkState = .content ∧ s' ≠ .lineOk :=
    ⟨hstate', by rw [hopen hstate]; decide⟩
  have hfree : ¬(j.checkState = .content ∧ LineStatus.lineOk ≠ .lineOk) := fun h => h.2 rfl
  rw [evalsLeft, evalsLeft, if_pos hclosed, if_neg hfree, hr, hc]
  exact Nat.lt_succ_of_le (Nat.div_le_div_right (Nat.add_le_add_left hback _))

/-- A line takes two of the bytes that are not yet looked at, with the one it looks back
    for. -/
theorem add_two_le_of_line {k : CJob N} (h : j.Cursors) (hline : j.parseLine = (.lineOk, k)) :
    k.readIdx - k.checkedIdx + 2 ≤ j.readIdx - j.checkedIdx + j.lookBack := by
  have hl := h.lineRead
  rw [parseLine] at hline hl
  have htwo := add_two_le_parseLineLoop (congrArg Prod.fst hline)
  rw [hline] at hl htwo
  have hle := hl.checked_le
  rw [hl.readIdx]
  simp only at htwo hle
  omega

/-- A body that follows a line. -/
theorem evalsLeft_of_line {s s' : LineStatus} {j' k : CJob N} (h : j.Cursors)
    (hline : j.parseLine = (.lineOk, k)) (hnext : k.loopBody = (.next s', j')) :
    j'.evalsLeft s' < j.evalsLeft s := by
  have hl := h.lineRead
  rw [hline] at hl
  have htwo := add_two_le_of_line h hline
  obtain ⟨hr, hc, hopen⟩ := loopBody_next hnext
  have hback := lookBack_loopBody (hl.nul rfl).2
  rw [hnext] at hback
  -- the body stays in `CHECK_STATE_CONTENT`, and asks for a line there
  have hstate (hcontent : j.checkState = .content) : j'.checkState = .content ∧ s' ≠ .lineOk := by
    have hk : k.checkState = .content := hl.checkState.trans hcontent
    have hstate' := checkState_loopBody hk
    rw [hnext] at hstate'
    exact ⟨hstate', by rw [hopen hk]; decide⟩
  rw [evalsLeft, evalsLeft, hback, hr, hc]
  split_ifs with hclosed' hclosed hclosed
  · omega
  · omega
  · exact absurd (hstate hclosed.1) hclosed'
  · omega

/-- The body is entered only while an evaluation is left, and leaves one fewer. -/
theorem evalsLeft_loopBody (h : j.Cursors) {s : LineStatus} {k : CJob N}
    (hok : j.loopCondition s = (.lineOk, k)) :
    0 < j.evalsLeft s ∧ ∀ s' j', k.loopBody = (.next s', j') → j'.evalsLeft s' < j.evalsLeft s := by
  rw [loopCondition] at hok
  split_ifs at hok with hb
  · obtain ⟨hstate, rfl⟩ := hb
    obtain rfl : j = k := congrArg Prod.snd hok
    refine ⟨?_, fun s' j' hnext => evalsLeft_of_content hstate hnext⟩
    rw [evalsLeft, if_neg fun h => h.2 rfl]
    exact Nat.succ_pos _
  · have htwo := add_two_le_of_line h hok
    refine ⟨?_, fun s' j' hnext => evalsLeft_of_line h hok hnext⟩
    rw [evalsLeft]
    omega

theorem processReadWithin_eq (h : j.Cursors) {n : Nat} {s : LineStatus} (hn : j.evalsLeft s ≤ n) :
    processReadWithin n s j = some (processReadLoop s j) := by
  induction n generalizing s j with
  | zero =>
    rcases hcond : j.loopCondition s with ⟨status, k⟩
    cases status with
    | lineOk => exact absurd (evalsLeft_loopBody h hcond).1 (Nat.not_lt.2 hn)
    | _ =>
      have hiter : j.processReadIter s = (.leave (.ret .noRequest), k) := by
        rw [processReadIter, hcond]
      rw [processReadWithin, hcond, processReadLoop_leave hiter]
  | succ n ih =>
    have hcur := h.loopCondition s
    rcases hcond : j.loopCondition s with ⟨status, k⟩
    rw [hcond] at hcur
    cases status with
    | lineOk =>
      have hiter : j.processReadIter s = k.loopBody := by
        rw [processReadIter, hcond]
      have hleft := (evalsLeft_loopBody h hcond).2
      have hnext := hcur.loopBody
      rcases hbody : k.loopBody with ⟨e | s', j'⟩
      · rw [processReadWithin, hcond]
        simp only [hbody]
        rw [processReadLoop_leave (hiter.trans hbody)]
      · rw [hbody] at hnext
        rw [processReadWithin, hcond]
        simp only [hbody]
        rw [ih hnext (Nat.le_of_lt_succ ((hleft s' j' hbody).trans_le hn)),
          processReadLoop_next (hiter.trans hbody)]
    | _ =>
      have hiter : j.processReadIter s = (.leave (.ret .noRequest), k) := by
        rw [processReadIter, hcond]
      rw [processReadWithin, hcond, processReadLoop_leave hiter]

theorem Cursors.steps {s s' : LineStatus} {j' : CJob N} (h : j.Cursors) (hs : Steps s j s' j') :
    j'.Cursors := by
  induction hs with
  | refl => exact h
  | @head s s₁ _ j _ _ hiter _ ih =>
    have hnext := processReadIter_inv (fun _ => Cursors.parseLine) (fun _ => Cursors.loopBody) s h
    rw [hiter] at hnext
    exact ih hnext

/-- From every state with ordered cursors, the loop of `process_read` ends after at most one
    evaluation of its body for every two bytes that are not yet looked at, and two more; before
    and after each call of `parse_line`, and on return, the cursors are in order, and
    `parse_line` reads below `m_read_idx`. -/
theorem processReadLoop_bounded (h : j.Cursors) :
    processReadWithin ((j.readIdx - j.checkedIdx) / 2 + 2) .lineOk j =
        some (processReadLoop .lineOk j) ∧
      (∀ s' j', Steps .lineOk j s' j' →
        j'.Cursors ∧ (j'.loopCondition s').2.Cursors ∧ j'.LineReads) ∧
      ∀ fs, (CJob.processRead fs j).2.Cursors := by
  refine ⟨processReadWithin_eq h (evalsLeft_le .lineOk j), fun s' j' hs => ?_, h.processRead⟩
  have hcur := h.steps hs
  exact ⟨hcur, hcur.loopCondition s', hcur.lineReads⟩

/-- A body of which five lines have come, three of them empty. -/
def fiveLines : CJob :=
  { (default : CJob).holding (ascii "\r\nab\r\n\r\n\r\nc\r\nd") with
    checkState := .content
    contentLength := 100 }

theorem cursors_fiveLines : fiveLines.Cursors := ⟨le_rfl, by decide, by decide⟩

/-- `parse_content` and `parse_line` take turns: the body of the loop is evaluated six times, once
    without a line, and the last bytes are no line. -/
theorem processReadLoop_bounded_fiveLines :
    (processReadWithin 5 .lineOk fiveLines = none ∧
      (processReadWithin 6 .lineOk fiveLines).map (fun r => (r.1, r.2.startLine, r.2.checkedIdx)) =
        some (.ret .noRequest, 13, 14)) ∧
      processReadWithin ((fiveLines.readIdx - fiveLines.checkedIdx) / 2 + 2) .lineOk fiveLines =
        some (processReadLoop .lineOk fiveLines) ∧
      (∀ s' j', Steps .lineOk fiveLines s' j' →
        j'.Cursors ∧ (j'.loopCondition s').2.Cursors ∧ j'.LineReads) ∧
      ∀ fs, (CJob.processRead fs fiveLines).2.Cursors :=
  ⟨⟨by rfl, by rfl⟩, processReadLoop_bounded cursors_fiveLines⟩

end CJob

end VsHttpServer
