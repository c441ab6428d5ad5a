import VsHttpServer.Job.Write
import VsHttpServer.Transition

/-!
# The pending output

Any sequence of calls of `add_response`, from `init()` on, with texts of any length.
A call whose text does not fit returns `false` and leaves `m_write_idx`, but
`vsnprintf` has stored the front of the text by then, and `write` sends what is in
`m_write_buf` up to the first NUL.

* `writeBounds_addTexts`: `m_write_idx` leaves room for a byte and a NUL, the size
  passed to `vsnprintf` is positive, and no byte changes but those stored, all of which are
  inside it;
* `str_addResponse_zero`: the C string in the buffer after a call;
* `consistent_iff`: it is made of the texts that were added, after every call, if and only
  if each text fits or finds the buffer full to the last byte.
-/

namespace VsHttpServer

open CString Transition

namespace CJob

variable {j : CJob}

/-! ## Bounds -/

/-- The indices of `m_write_buf` to which `add_response` stores: the text as far as there is
    room, and its NUL. -/
def stored (j : CJob) (text : List UInt8) : List Nat :=
  if writeBufferSize ≤ j.writeIdx ∨ j.responseSize = 0 then []
  else List.range' j.writeIdx ((text.take (j.responseSize.toNat - 1)).length + 1)

/-- What is stored to is all that may change. -/
theorem get_addResponse_of_notMem (h : j.Room) {t : List UInt8} {k : Nat} (hk : k ∉ j.stored t) :
    (j.addResponse t).2.writeBuf.get k = j.writeBuf.get k := by
  have hroom : j.writeIdx < writeBufferSize - 1 := h
  have hsize : writeBufferSize = 1024 := rfl
  have hnat : j.responseSize.toNat = writeBufferSize - 1 - j.writeIdx := by
    rw [responseSize]
    omega
  rw [stored, if_neg (by rw [responseSize]; omega), List.mem_range'_1, hnat, not_and_or] at hk
  rw [addResponse_eq, if_pos (by omega), CharArray.vsnprintf, if_neg (by omega),
    CharArray.get_copy (by omega), List.length_append, List.length_singleton, if_neg (by omega)]

/-- `m_write_idx`, the size that is passed to `vsnprintf`, and the stores of the next call,
    whatever its text is. -/
structure WriteBounds (j : CJob) : Prop where
  writeIdx_le : j.writeIdx ≤ writeBufferSize - 2
  size_pos : 0 < j.responseSize
  toSizeT_size : toSizeT j.responseSize = j.responseSize
  stored_lt : ∀ t, ∀ i ∈ j.stored t, i < writeBufferSize - 1
  /-- Whatever the buffer holds, the call changes it at these indices only. -/
  frame : ∀ t b, ∀ k ∉ j.stored t,
    ({ j with writeBuf := b }.addResponse t).2.writeBuf.get k = b.get k

theorem Room.writeBounds (h : j.Room) : j.WriteBounds := by
  have hroom : j.writeIdx < writeBufferSize - 1 := h
  have hsize : writeBufferSize = 1024 := rfl
  have hpos : 0 < j.responseSize ∧ j.responseSize ≤ 1023 := by
    rw [responseSize]
    omega
  refine ⟨by omega, hpos.1, ?_, fun t i hi => ?_, fun t b k hk => ?_⟩
  · rw [toSizeT]
    omega
  · -- the size counts the NUL
    rw [stored, if_neg (by omega), List.mem_range'_1] at hi
    have hlen := List.length_take_le (j.responseSize.toNat - 1) t
    have hend : (j.writeIdx : Int) + j.responseSize = writeBufferSize - 1 := by
      rw [responseSize]
      omega
    omega
  · exact get_addResponse_of_notMem (j := { j with writeBuf := b }) h hk

theorem room_init (memory : CJob) : memory.init.Room := by
  have hsize : writeBufferSize = 1024 := rfl
  rw [Room, hsize]
  exact Nat.zero_lt_succ _

/-- After any calls of `add_response`, the index and the stores are in bounds, and what is
    before the index stays whatever is added. -/
theorem writeBounds_addTexts (memory : CJob) (ts us : List (List UInt8)) :
    (memory.init.addTexts ts).WriteBounds ∧
      ∀ k < (memory.init.addTexts ts).writeIdx,
        (memory.init.addTexts (ts ++ us)).writeBuf.get k =
          (memory.init.addTexts ts).writeBuf.get k := by
  have hroom := (room_init memory).addTexts ts
  refine ⟨hroom.writeBounds, fun k hk => ?_⟩
  rw [addTexts_append, get_addTexts hroom us hk]

/-! ## The C string in the buffer -/

/-- A call stores the front of its text after the string that is there. -/
theorem str_addResponse_zero (h : j.Room) {x t : List UInt8} (hx : j.writeBuf.str 0 = x)
    (hlen : x.length = j.writeIdx) (ht : ∀ b ∈ t, b ≠ 0) :
    (j.addResponse t).2.writeBuf.str 0 = x ++ t.take (writeBufferSize - 2 - j.writeIdx) := by
  have hnul : ∀ b ∈ x, b ≠ 0 := by
    rintro b hb rfl
    exact zero_not_mem_cstr _ (hx ▸ hb)
  rw [CharArray.str_append hnul, Nat.zero_add, hlen, str_addResponse h ht]
  intro k hk
  rw [Nat.zero_add, get_addResponse h t (hlen ▸ hk), ← CharArray.get_of_str hx k hk, Nat.zero_add]

end CJob

/-- A text that `add_response` makes of its arguments: it has no NUL. -/
abbrev ResponseText := {t : List UInt8 // ∀ b ∈ t, b ≠ 0}

/-- The job, with the texts of the calls that returned `true`. -/
structure Pending where
  job : CJob
  added : List (List UInt8)

namespace Pending

/-- The job after `init()`. -/
def start (memory : CJob) : Pending := ⟨memory.init, []⟩

/-- A call of `add_response`. -/
def step (p : Pending) (t : ResponseText) : Option Pending :=
  match p.job.addResponse t with
  | (true, j) => some ⟨j, p.added ++ [t.1]⟩
  | (false, j) => some ⟨j, p.added⟩

/-- The C string in `m_write_buf` is made of the texts that were added, up to the index. -/
structure Consistent (p : Pending) : Prop where
  str : p.job.writeBuf.str 0 = p.added.flatten
  writeIdx : p.added.flatten.length = p.job.writeIdx

/-- The text fits, or there is room for its NUL only. -/
def FitsOrFull (p : Pending) (t : ResponseText) : Prop :=
  CJob.Fits p.job.writeIdx t ∨ p.job.writeIdx = writeBufferSize - 2

variable {p p' : Pending} {t : ResponseText}

theorem step_of_fits (hf : CJob.Fits p.job.writeIdx t) :
    p.step t = some ⟨(p.job.addResponse t).2, p.added ++ [t.1]⟩ := by
  rw [step, ← Prod.mk.eta (p := p.job.addResponse t), CJob.addResponse_fst, decide_eq_true hf]

theorem step_of_not_fits (hf : ¬CJob.Fits p.job.writeIdx t) :
    p.step t = some ⟨(p.job.addResponse t).2, p.added⟩ := by
  rw [step, ← Prod.mk.eta (p := p.job.addResponse t), CJob.addResponse_fst, decide_eq_false hf]

theorem room_step (h : p.job.Room) (hs : p.step t = some p') : p'.job.Room := by
  by_cases hf : CJob.Fits p.job.writeIdx t
  · rw [step_of_fits hf] at hs
    cases hs
    exact h.addResponse _
  · rw [step_of_not_fits hf] at hs
    cases hs
    exact h.addResponse _

/-- A call keeps the buffer consistent if and only if its text fits, or nothing of it is
    stored. -/
theorem Consistent.step_iff (h : p.Consistent) (hroom : p.job.Room) (hs : p.step t = some p') :
    p.FitsOrFull t ↔ p'.Consistent := by
  have hstr := CJob.str_addResponse_zero hroom h.str h.writeIdx t.2
  have hidx := CJob.addResponse_writeIdx (j := p.job) t.1
  have hlt : p.job.writeIdx < writeBufferSize - 1 := hroom
  by_cases hf : CJob.Fits p.job.writeIdx t
  · rw [step_of_fits hf] at hs
    cases hs
    rw [CJob.take_of_fits hf] at hstr
    rw [if_pos hf] at hidx
    refine iff_of_true (.inl hf) ⟨?_, ?_⟩
    · rw [hstr, List.flatten_append, List.flatten_singleton]
    · rw [List.flatten_append, List.flatten_singleton, List.length_append, h.writeIdx, hidx]
  · rw [step_of_not_fits hf] at hs
    cases hs
    rw [if_neg hf] at hidx
    have hlong : writeBufferSize - 1 ≤ p.job.writeIdx + t.1.length := not_lt.1 hf
    refine ⟨fun hfull => ⟨?_, ?_⟩, fun hc => .inr ?_⟩
    · have hnone : writeBufferSize - 2 - p.job.writeIdx = 0 := by
        rw [hfull.resolve_left hf, Nat.sub_self]
      rw [hstr, hnone, List.take_zero, List.append_nil]
    · rw [h.writeIdx, hidx]
    · -- the front of the text that was stored is empty
      have hnil := hc.str
      rw [hstr] at hnil
      have hlen := congrArg List.length (List.append_right_eq_self.1 hnil)
      rw [List.length_take, List.length_nil] at hlen
      omega

theorem consistent_start (memory : CJob) : (start memory).Consistent := by
  have hzero : (CharArray.zero writeBufferSize).get 0 = 0 := CharArray.get_zero 0
  exact ⟨CharArray.str_eq_nil hzero, rfl⟩

/-- In every sequence of calls of `add_response` after `init()`, what `write` would send is made of
    the texts added, after every call, if and only if each text fits, or finds room for a NUL
    only. -/
theorem consistent_iff (memory : CJob) (ts : List ResponseText) :
    Along step FitsOrFull (start memory) ts ↔ Throughout step Consistent (start memory) ts :=
  along_iff_throughout (I := fun p => p.Consistent ∧ p.job.Room)
    (fun _ _ _ h hok hs => ⟨(h.1.step_iff h.2 hs).1 hok, room_step h.2 hs⟩) (fun _ h => h.1)
    (fun _ _ _ h hok hs => (h.1.step_iff h.2 hs).not.1 hok)
    ⟨consistent_start memory, CJob.room_init memory⟩

/-- A text of one byte more than there is room for. -/
def longText : ResponseText :=
  ⟨List.replicate (writeBufferSize - 1) 65, fun _ hb => by
    rw [List.eq_of_mem_replicate hb]
    decide⟩

/-- The call returns `false`, but its text is in the buffer, less one byte. -/
theorem not_consistent : ¬Throughout step Consistent (start default) [longText] := by
  intro h
  have hnot : ¬CJob.Fits (start default).job.writeIdx longText := by
    rw [CJob.Fits, longText, List.length_replicate]
    exact Nat.not_lt_of_le (Nat.le_add_left _ _)
  have hs := step_of_not_fits hnot
  have hok := ((consistent_start default).step_iff (CJob.room_init default) hs).2 (h.2 _ hs)
  exact absurd (hok.resolve_left hnot) (by decide)

end Pending

end VsHttpServer
