import VsHttpServer.Job.Parse

/-!
# `parse_line`

`ParsedLine j s j'` lists what `parse_line` can do from `j`: return the status
`s` and leave the job `j'`. It looks for the first CR or LF from `m_checked_idx`
on (`FirstBreak`), and only a CRLF found there changes the buffer.

The branch that looks back from an LF for a CR is never taken when the byte
before `m_checked_idx` is not a CR, which holds at every call
(`parseLine_parsed`): the loop has passed over that byte, or it is the NUL that
ended the line before.
-/

namespace VsHttpServer

open CString Crlf

namespace CJob

variable {N : Nat}

/-- The byte at index `i` of the buffer is neither CR nor LF. -/
def CleanAt (j : CJob N) (i : Nat) : Prop := j.readBuf.get i ≠ cr ∧ j.readBuf.get i ≠ lf

/-- The first CR or LF from `m_checked_idx` on is at the index `i`. -/
structure FirstBreak (j : CJob N) (i : Nat) : Prop where
  checked_le : j.checkedIdx ≤ i
  lt_read : i < j.readIdx
  clean : ∀ k, j.checkedIdx ≤ k → k < i → j.CleanAt k

/-- The job after the CRLF at `i` ended a line. -/
def cutAt (j : CJob N) (i : Nat) : CJob N :=
  { j with readBuf := (j.readBuf.store i 0).store (i + 1) 0, checkedIdx := i + 2 }

/-- What `parse_line` can do from `j`. -/
inductive ParsedLine (j : CJob N) : LineStatus → CJob N → Prop
  | ok {i : Nat} : j.FirstBreak i → j.readBuf.get i = cr → i + 1 < j.readIdx →
      j.readBuf.get (i + 1) = lf → ParsedLine j .lineOk (j.cutAt i)
  | more : (∀ k, j.checkedIdx ≤ k → k < j.readIdx → j.CleanAt k) →
      ParsedLine j .lineOpen { j with checkedIdx := j.readIdx }
  | pending {i : Nat} : j.FirstBreak i → j.readBuf.get i = cr → i + 1 = j.readIdx →
      ParsedLine j .lineOpen { j with checkedIdx := i }
  | bare {i : Nat} : j.FirstBreak i →
      (j.readBuf.get i = cr ∧ i + 1 < j.readIdx ∧ j.readBuf.get (i + 1) ≠ lf ∨
        j.readBuf.get i = lf) →
      ParsedLine j .lineBad { j with checkedIdx := i }

/-- One byte further: what is done from the next byte on is done from here. -/
theorem ParsedLine.cons {j j' : CJob N} {s : LineStatus} (hc : j.CleanAt j.checkedIdx)
    (h : ParsedLine { j with checkedIdx := j.checkedIdx + 1 } s j') : ParsedLine j s j' := by
  have hclean : ∀ {i : Nat}, (∀ k, j.checkedIdx + 1 ≤ k → k < i → j.CleanAt k) →
      ∀ k, j.checkedIdx ≤ k → k < i → j.CleanAt k := by
    intro i hi k hk hki
    rcases Nat.eq_or_lt_of_le hk with rfl | hk
    exacts [hc, hi k hk hki]
  have hbreak : ∀ {i : Nat}, FirstBreak { j with checkedIdx := j.checkedIdx + 1 } i →
      j.FirstBreak i :=
    fun hi => ⟨(Nat.le_succ _).trans hi.checked_le, hi.lt_read, hclean hi.clean⟩
  cases h with
  | ok hi hcr hlt hlf => exact .ok (hbreak hi) hcr hlt hlf
  | more h => exact .more (hclean h)
  | pending hi hcr he => exact .pending (hbreak hi) hcr he
  | bare hi h => exact .bare (hbreak hi) h

/-- The loop does what `ParsedLine` lists, unless the byte before is a CR. -/
theorem parseLineLoop_parsed {n : Nat} {j : CJob N} (hn : j.checkedIdx + n = j.readIdx)
    (hb : 1 < j.checkedIdx → j.readBuf.get (j.checkedIdx - 1) ≠ cr) :
    ParsedLine j (parseLineLoop n j).1 (parseLineLoop n j).2 := by
  induction n generalizing j with
  | zero =>
    have hj : ({ j with checkedIdx := j.readIdx } : CJob N) = j :=
      congrArg (fun c => ({ j with checkedIdx := c } : CJob N)) hn.symm
    have h : ParsedLine j .lineOpen { j with checkedIdx := j.readIdx } :=
      .more fun k hk hk' => by omega
    rwa [hj] at h
  | succ n ih =>
    have hfirst : j.FirstBreak j.checkedIdx := ⟨le_rfl, by omega, fun k hk hk' => by omega⟩
    simp only [parseLineLoop]
    by_cases hcr : j.readBuf.get j.checkedIdx = cr
    · rw [if_pos hcr]
      by_cases he : j.checkedIdx + 1 = j.readIdx
      · rw [if_pos he]
        exact .pending hfirst hcr he
      · rw [if_neg he]
        by_cases hlf : j.readBuf.get (j.checkedIdx + 1) = lf
        · rw [if_pos hlf]
          exact .ok hfirst hcr (by omega) hlf
        · rw [if_neg hlf]
          exact .bare hfirst (.inl ⟨hcr, by omega, hlf⟩)
    · rw [if_neg hcr]
      by_cases hlf : j.readBuf.get j.checkedIdx = lf
      · -- the LF after a CR that `parse_line` looks back for cannot be here
        rw [if_pos hlf, if_neg fun h => hb h.1 h.2]
        exact .bare hfirst (.inr hlf)
      · rw [if_neg hlf]
        exact .cons ⟨hcr, hlf⟩ (ih (by simp only; omega) fun _ => hcr)

/-- `parse_line` does what `ParsedLine` lists, unless the byte before
    `m_checked_idx` is a CR. -/
theorem parseLine_parsed {j : CJob N} (hle : j.checkedIdx ≤ j.readIdx)
    (hb : 1 < j.checkedIdx → j.readBuf.get (j.checkedIdx - 1) ≠ cr) :
    ParsedLine j j.parseLine.1 j.parseLine.2 :=
  parseLineLoop_parsed (by omega) hb

/-! ## Between lines -/

/-- The bytes of the lines not yet parsed. -/
def unparsed (j : CJob N) : List UInt8 := (j.readBuf.mem j.startLine).take (j.readIdx - j.startLine)

/-- The invariant of the loop of `process_read`: the cursors are in order, the
    bytes of the current line already looked at are neither CR nor LF, and the
    byte before the line is not a CR. -/
structure AtLine (j : CJob N) : Prop where
  start_le : j.startLine ≤ j.checkedIdx
  checked_le : j.checkedIdx ≤ j.readIdx
  read_le : j.readIdx ≤ N
  clean : ∀ k, j.startLine ≤ k → k < j.checkedIdx → j.CleanAt k
  back : j.startLine = 0 ∨ j.readBuf.get (j.startLine - 1) ≠ cr

theorem AtLine.parsed {j : CJob N} (h : j.AtLine) : ParsedLine j j.parseLine.1 j.parseLine.2 := by
  refine parseLine_parsed h.checked_le fun h1 => ?_
  -- the byte before the cursor is the one before the line, or one already looked at
  rcases Nat.eq_or_lt_of_le h.start_le with he | hlt
  · exact he ▸ h.back.resolve_left (by omega)
  · exact (h.clean (j.checkedIdx - 1) (by omega) (by omega)).1

/-- The invariant only looks at the cursors, and at the buffer from the byte
    before the current line on. -/
theorem AtLine.congr {j j' : CJob N} (h : j.AtLine) (hs : j'.startLine = j.startLine)
    (hc : j'.checkedIdx = j.checkedIdx) (hr : j'.readIdx = j.readIdx)
    (hget : ∀ k, j.startLine ≤ k + 1 → j'.readBuf.get k = j.readBuf.get k) : j'.AtLine where
  start_le := by rw [hs, hc]; exact h.start_le
  checked_le := by rw [hc, hr]; exact h.checked_le
  read_le := by rw [hr]; exact h.read_le
  clean k hk hk' := by
    rw [hs] at hk
    rw [hc] at hk'
    rw [CleanAt, hget k (by omega)]
    exact h.clean k hk hk'
  back := by
    rw [hs]
    refine h.back.imp_right fun hb => ?_
    rwa [hget _ (by omega)]

/-- The unparsed bytes up to an index in them, and from there on. -/
theorem unparsed_split {j : CJob N} {i : Nat} (hs : j.startLine ≤ i) (hr : i ≤ j.readIdx) :
    j.unparsed = (j.readBuf.mem j.startLine).take (i - j.startLine) ++
      (j.readBuf.mem i).take (j.readIdx - i) :=
  CharArray.take_mem_split hs hr

theorem take_mem_cons {j : CJob N} {i : Nat} (hi : i < j.readIdx) (hr : j.readIdx ≤ N) :
    (j.readBuf.mem i).take (j.readIdx - i) =
      j.readBuf.get i :: (j.readBuf.mem (i + 1)).take (j.readIdx - (i + 1)) := by
  rw [CharArray.mem_eq_cons (hi.trans_le hr), show j.readIdx - i = j.readIdx - (i + 1) + 1 by omega,
    List.take_succ_cons]

/-- What `parse_line` leaves when the unparsed bytes start with the line `x`. -/
structure LineCut (j : CJob N) (x r : List UInt8) : Prop where
  parseLine_eq : j.parseLine = (.lineOk, j.cutAt (j.startLine + x.length))
  le_read : j.startLine + x.length + 2 ≤ j.readIdx
  /-- The text of the line, in the buffer left by `parse_line`. -/
  text : (j.cutAt (j.startLine + x.length)).readBuf.str j.startLine = cstr x
  atLine : (j.cutAt (j.startLine + x.length)).nextLine.AtLine
  unparsed : (j.cutAt (j.startLine + x.length)).nextLine.unparsed = r

/-- The CRLF found by `parse_line` ends the first of the unparsed lines. -/
theorem AtLine.cut {j : CJob N} (h : j.AtLine) {i : Nat} (hi : j.FirstBreak i)
    (hcr : j.readBuf.get i = cr) (hlt : i + 1 < j.readIdx) (hlf : j.readBuf.get (i + 1) = lf)
    (he : j.parseLine = (.lineOk, j.cutAt i)) :
    ∃ x r, cutLine j.unparsed = some (x, r) ∧ j.LineCut x r := by
  have hsi := h.start_le.trans hi.checked_le
  have hin : i + 1 < N := hlt.trans_le h.read_le
  obtain ⟨x, hx⟩ : ∃ x, (j.readBuf.mem j.startLine).take (i - j.startLine) = x := ⟨_, rfl⟩
  have hxl : x.length = i - j.startLine := by
    rw [← hx, List.length_take, CharArray.length_mem]
    omega
  have hclean : Clean x := by
    rw [← hx]
    refine CharArray.forall_mem_take fun k hk hk' => ?_
    rcases Nat.lt_or_ge k j.checkedIdx with hkc | hkc
    exacts [h.clean k hk hkc, hi.clean k hkc hk']
  have hxi : j.startLine + x.length = i := by omega
  have hmem : j.readBuf.mem j.startLine = x ++ cr :: lf :: j.readBuf.mem (i + 2) := by
    rw [← List.take_append_drop (i - j.startLine) (j.readBuf.mem j.startLine), hx,
      ← CharArray.mem_add, Nat.add_sub_cancel' hsi, CharArray.mem_eq_cons (by omega), hcr,
      CharArray.mem_eq_cons hin, hlf]
  refine ⟨x, (j.readBuf.mem (i + 2)).take (j.readIdx - (i + 2)), ?_, ?_, ?_, ?_, ?_, ?_⟩
  · rw [cutLine_eq_some_iff, unparsed_split hsi hi.lt_read.le, hx,
      take_mem_cons hi.lt_read h.read_le, hcr, take_mem_cons hlt h.read_le, hlf]
    exact ⟨rfl, hclean⟩
  · rw [hxi, he]
  · omega
  · rw [CharArray.str, cutAt, Nat.add_assoc, CharArray.mem_store_add, CharArray.mem_store_add, hmem]
    simp [cstr_append_zero]
  · rw [hxi]
    refine ⟨le_rfl, hlt, h.read_le, fun k hk hk' => absurd hk' (not_lt.2 hk), .inr ?_⟩
    simp only [nextLine, cutAt]
    rw [show i + 2 - 1 = i + 1 by omega, CharArray.get_store, if_pos ⟨rfl, hin⟩]
    decide
  · rw [hxi, CJob.unparsed]
    simp only [nextLine, cutAt]
    rw [CharArray.mem_store_of_lt (by omega), CharArray.mem_store_of_lt (by omega)]

/-- `parse_line` on the unparsed bytes: it cuts off their first line, or stops in
    it. -/
theorem AtLine.parseLine_cases {j : CJob N} (h : j.AtLine) :
    (∃ x r, cutLine j.unparsed = some (x, r) ∧ j.LineCut x r) ∨
      (cutLine j.unparsed = none ∧ ∃ s c, s ≠ .lineOk ∧ j.checkedIdx ≤ c ∧
        j.parseLine = (s, { j with checkedIdx := c }) ∧
        ({ j with checkedIdx := c } : CJob N).AtLine) := by
  have hclean : ∀ i, (∀ k, j.checkedIdx ≤ k → k < i → j.CleanAt k) →
      ∀ k, j.startLine ≤ k → k < i → j.CleanAt k := by
    intro i hi k hk hk'
    rcases Nat.lt_or_ge k j.checkedIdx with hkc | hkc
    exacts [h.clean k hk hkc, hi k hkc hk']
  have hat : ∀ i, j.checkedIdx ≤ i → i ≤ j.readIdx →
      (∀ k, j.checkedIdx ≤ k → k < i → j.CleanAt k) → ({ j with checkedIdx := i } : CJob N).AtLine :=
    fun i hci hir hi => ⟨h.start_le.trans hci, hir, h.read_le, hclean i hi, h.back⟩
  have hp := h.parsed
  rcases he : j.parseLine with ⟨s, j'⟩
  rw [he] at hp
  cases hp with
  | ok hi hcr hlt hlf => exact .inl (h.cut hi hcr hlt hlf he)
  | more hi =>
    refine .inr ⟨?_, _, _, by decide, h.checked_le, rfl, hat _ h.checked_le le_rfl hi⟩
    exact cutLine_clean (CharArray.forall_mem_take (hclean _ hi))
  | pending hi hcr hlast =>
    have hsi := h.start_le.trans hi.checked_le
    refine .inr ⟨?_, _, _, by decide, hi.checked_le, rfl,
      hat _ hi.checked_le hi.lt_read.le hi.clean⟩
    rw [unparsed_split hsi hi.lt_read.le, take_mem_cons hi.lt_read h.read_le, hcr, hlast,
      Nat.sub_self, List.take_zero, cutLine_append (CharArray.forall_mem_take (hclean _ hi.clean)),
      cutLine_cr]
    rfl
  | bare hi hb =>
    have hsi := h.start_le.trans hi.checked_le
    refine .inr ⟨?_, _, _, by decide, hi.checked_le, rfl,
      hat _ hi.checked_le hi.lt_read.le hi.clean⟩
    rw [unparsed_split hsi hi.lt_read.le, take_mem_cons hi.lt_read h.read_le,
      cutLine_append (CharArray.forall_mem_take (hclean _ hi.clean))]
    rcases hb with ⟨hcr, hlt, hlf⟩ | hlf
    · rw [hcr, take_mem_cons hlt h.read_le, cutLine_cr_cons hlf]
      rfl
    · rw [hlf, cutLine_lf]
      rfl

end CJob

end VsHttpServer
