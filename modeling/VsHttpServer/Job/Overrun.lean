import VsHttpServer.Job.Session
import VsHttpServer.Job.Stores

/-!
# The receive buffer

`ReadEventCb` takes as many bytes from the input buffer as there are, whatever the room
in `m_read_buf`. Their number is a `size_t`, and the length that `Conn::GetReadBuffer`
adds to `m_read_idx` is an `int`, which `evbuffer_remove` takes for a `size_t` again.

* `Reception`: the life of a connection, with the bytes that its read events copy; once
  they have left the buffer, nothing more is known of it;
* `Inv.process`: a call of `process` keeps the order of the cursors, whether its answer
  resets the connection or not;
* `bounded_iff`: the buffer is never overrun if and only if each read event finds room
  for all the bytes that are pending.
-/

namespace VsHttpServer

open CString Crlf Transition

namespace ConnJob

variable {c c' : ConnJob}

theorem cursors_readEvent (h : c.Cursors) {p : List UInt8}
    (hp : c.readIdx + p.length ≤ readBufferSize) : (c.readEvent p).Cursors :=
  ⟨h.start_le, h.checked_le.trans (Nat.le_add_right _ _), hp⟩

/-- A call of `process` keeps the order of the cursors. -/
theorem cursors_process (h : c.Cursors) {fs : FileSystem} (hp : (c.process fs).2 = some c') :
    c'.Cursors := by
  have hread : (c.parsed fs).Cursors := h.processRead fs
  by_cases hno : c.code fs = .noRequest
  · rw [process_of_noRequest hno] at hp
    cases hp
    exact hread
  · rw [process_eq hno] at hp
    obtain ⟨⟨b, k⟩, hw, rfl⟩ := Option.map_eq_some_iff.1 hp
    have hanswered : (c.answered fs).Cursors := by
      rw [answered_eq, CJob.addTexts_eq]
      exact ⟨hread.start_le, hread.checked_le, hread.read_le⟩
    rw [CJob.write] at hw
    split at hw
    · -- the call ends early
      cases hw
    · simp only at hw
      split_ifs at hw
      · -- the connection is reset
        cases hw
        exact ⟨le_rfl, le_rfl, Nat.zero_le _⟩
      · cases hw
        rw [CJob.unmap]
        split_ifs
        · exact ⟨hanswered.start_le, hanswered.checked_le, hanswered.read_le⟩
        · exact hanswered

end ConnJob

/-- The life of a connection, with its read events. -/
structure Reception where
  session : Session
  /-- `m_read_idx`, as `GetReadBuffer` has set it: the bytes copied beyond `m_read_buf` land on
      it next. -/
  readIdx : Int
  /-- The number of bytes that the last step has copied to `m_read_buf`. -/
  copied : Nat

namespace Reception

/-- A freshly accepted connection. -/
def start (memory : CJob) (fd : Descriptor) : Reception where
  session := .start memory fd
  readIdx := 0
  copied := 0

/-- The bytes that `evbuffer_remove` copies when `len` is passed for the length. -/
def removed (len : Int) (bytes : List UInt8) : List UInt8 := bytes.take (toSizeT len).toNat

/-- `ReadEventCb` with `bytes` pending: they are copied to the start of `m_read_buf`. -/
def received (r : Reception) (bytes : List UInt8) : Reception :=
  let len := toInt32 bytes.length
  { session := { r.session with conn := r.session.conn.readEvent (removed len bytes) }
    readIdx := r.readIdx + len
    copied := (removed len bytes).length }

/-- A call of `process`. -/
def processed (r : Reception) (fs : FileSystem) : Reception where
  session := r.session.processed fs
  readIdx := (r.session.processed fs).conn.readIdx
  copied := 0

/-- The bytes copied are in the buffer, and the cursors in order. -/
def Bounded (r : Reception) : Prop :=
  r.copied ≤ readBufferSize ∧ (r.session.conn.checkedIdx : Int) ≤ r.readIdx ∧
    r.readIdx ≤ readBufferSize

instance : DecidablePred Bounded := fun _ => inferInstanceAs (Decidable (_ ∧ _))

def step (r : Reception) : Session.Action → Option Reception
  | .readEvent bytes => if r.session.live ∧ r.Bounded then some (r.received bytes) else none
  | .process fs => if r.session.live ∧ r.Bounded then some (r.processed fs) else none

/-- A read event finds room for the bytes that are pending, their number taken for an
    `unsigned int`. -/
def Fits (r : Reception) (a : Session.Action) : Prop :=
  ∀ bytes, a = .readEvent bytes →
    r.readIdx + (bytes.length % 2 ^ 32 : Nat) ≤ readBufferSize

variable {r r' : Reception}

theorem step_readEvent {bytes : List UInt8} :
    r.step (.readEvent bytes) = some r' ↔
      (r.session.live = true ∧ r.Bounded) ∧ r.received bytes = r' := by
  rw [step, Option.ite_none_right_eq_some, Option.some_inj]

theorem step_process {fs : FileSystem} :
    r.step (.process fs) = some r' ↔ (r.session.live = true ∧ r.Bounded) ∧ r.processed fs = r' := by
  rw [step, Option.ite_none_right_eq_some, Option.some_inj]

/-- What holds as long as the buffer is not overrun. -/
structure Inv (r : Reception) : Prop where
  copied : r.copied ≤ readBufferSize
  readIdx : r.readIdx = r.session.conn.readIdx
  cursors : r.session.conn.Cursors

theorem inv_start (memory : CJob) (fd : Descriptor) : (start memory fd).Inv where
  copied := Nat.zero_le _
  readIdx := rfl
  cursors := ⟨le_rfl, le_rfl, Nat.zero_le _⟩

theorem Inv.bounded (h : r.Inv) : r.Bounded := by
  refine ⟨h.copied, ?_, ?_⟩
  · rw [h.readIdx]
    exact Int.ofNat_le.2 h.cursors.checked_le
  · rw [h.readIdx]
    exact Int.ofNat_le.2 h.cursors.read_le

/-- A number of bytes that is not negative as an `int` is the length, and so many bytes
    are copied. -/
theorem length_removed {bytes : List UInt8} (h : bytes.length % 2 ^ 32 < 2 ^ 31) :
    toInt32 bytes.length = (bytes.length % 2 ^ 32 : Nat) ∧
      (removed (toInt32 bytes.length) bytes).length = bytes.length % 2 ^ 32 := by
  have hlen : toInt32 bytes.length = (bytes.length % 2 ^ 32 : Nat) := by
    rw [toInt32]
    omega
  refine ⟨hlen, ?_⟩
  rw [removed, hlen, List.length_take, toSizeT]
  omega

/-- Otherwise the length is negative, and far more is copied than there is room for. -/
theorem le_length_removed {bytes : List UInt8} (h : 2 ^ 31 ≤ bytes.length % 2 ^ 32) :
    2 ^ 31 ≤ (removed (toInt32 bytes.length) bytes).length := by
  rw [removed, List.length_take, toSizeT, toInt32]
  omega

theorem Inv.received (h : r.Inv) {bytes : List UInt8}
    (hfits : r.readIdx + (bytes.length % 2 ^ 32 : Nat) ≤ readBufferSize) :
    (r.received bytes).Inv := by
  have hidx := h.readIdx
  have hsize : readBufferSize < 2 ^ 31 := by decide
  have hlt : bytes.length % 2 ^ 32 < 2 ^ 31 := by omega
  obtain ⟨hlen, hcopied⟩ := length_removed hlt
  refine ⟨?_, ?_, ?_⟩
  · simp only [Reception.received]
    omega
  · simp only [Reception.received, ConnJob.readEvent, CJob.readEvent]
    omega
  · simp only [Reception.received]
    exact ConnJob.cursors_readEvent h.cursors (by omega)

/-- Bytes for which there is no room leave the buffer, or lead `m_read_idx` out of it. -/
theorem not_bounded_received {bytes : List UInt8}
    (hfits : ¬r.readIdx + (bytes.length % 2 ^ 32 : Nat) ≤ readBufferSize) :
    ¬(r.received bytes).Bounded := by
  have hsize : readBufferSize < 2 ^ 31 := by decide
  rintro ⟨hcopied, -, hidx⟩
  simp only [Reception.received] at hcopied hidx
  rcases lt_or_ge (bytes.length % 2 ^ 32) (2 ^ 31) with hlt | hge
  · -- `m_read_idx` is moved by the number of bytes
    rw [(length_removed hlt).1] at hidx
    exact hfits hidx
  · -- a negative length does not limit what is copied
    exact absurd (le_length_removed hge) (by omega)

/-- A call of `process` keeps the order of the cursors. -/
theorem Inv.processed (h : r.Inv) (fs : FileSystem) : (r.processed fs).Inv := by
  refine ⟨Nat.zero_le _, rfl, ?_⟩
  rw [Reception.processed, Session.processed]
  cases hp : (r.session.conn.process fs).2 with
  | none => exact h.cursors
  | some c => exact ConnJob.cursors_process h.cursors hp

/-- A step that finds room for what is pending keeps the invariant. -/
theorem Inv.step {a : Session.Action} (h : r.Inv) (hfits : r.Fits a) (hs : r.step a = some r') :
    r'.Inv := by
  cases a with
  | readEvent bytes =>
    obtain ⟨-, rfl⟩ := step_readEvent.1 hs
    exact h.received (hfits bytes rfl)
  | process fs =>
    obtain ⟨-, rfl⟩ := step_process.1 hs
    exact h.processed fs

theorem not_bounded_of_not_fits {a : Session.Action} (hfits : ¬r.Fits a) (hs : r.step a = some r') :
    ¬r'.Bounded := by
  rw [Fits] at hfits
  push Not at hfits
  obtain ⟨bytes, rfl, hroom⟩ := hfits
  obtain ⟨-, rfl⟩ := step_readEvent.1 hs
  exact not_bounded_received (not_le.2 hroom)

/-- In the life of a connection, no read event copies a byte beyond `m_read_buf`, and the
    cursors stay in order and in the buffer, if and only if each read event finds room
    for what is pending. -/
theorem bounded_iff (memory : CJob) (fd : Descriptor) (as : List Session.Action) :
    Along step Fits (start memory fd) as ↔ Throughout step Bounded (start memory fd) as :=
  along_iff_throughout (fun _ _ _ => Inv.step) (fun _ => Inv.bounded) (fun _ _ _ _ => not_bounded_of_not_fits)
    (inv_start memory fd)

/-- One read event, with a byte more than the size of the buffer. -/
theorem not_bounded :
    ¬∀ memory fd as, Throughout step Bounded (start memory fd) as := by
  intro h
  have hs : step (start default ⟨5, by decide⟩) (.readEvent (List.replicate 2049 65)) = some _ :=
    step_readEvent.2 ⟨⟨rfl, (inv_start _ _).bounded⟩, rfl⟩
  refine not_bounded_received ?_
    ((h default ⟨5, by decide⟩ [.readEvent (List.replicate 2049 65)]).2 _ hs)
  rw [List.length_replicate]
  decide

end Reception

end VsHttpServer
