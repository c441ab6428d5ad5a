import VsHttpServer.Job.Line
import VsHttpServer.Transition

/-!
# Resumed scans

Bytes are appended to the buffer, and `parse_line` is called, any number of times and in
any order, from `init()` on. A scan starts where the one before has stopped: after a
line, at the end of the bytes, or at the CR or the LF that it has stopped at.

* `NoCr`: no byte before `m_checked_idx` is a CR, whatever has been appended and scanned;
* `LineSpec`: what a call of `parse_line` returns and leaves, by the first CR or LF that is
  not yet looked at;
* `lineSpec_of_exec`: this is so in every state, and the branch that looks back from an LF
  never succeeds.
-/

namespace VsHttpServer

open CString Crlf Transition

namespace CJob

variable {N : Nat} {j j' : CJob N}

/-- The first CR or LF in `[m_checked_idx, m_read_idx)` is at the index `i`. -/
structure FirstCrLf (j : CJob N) (i : Nat) : Prop extends j.FirstBreak i where
  crLf : j.readBuf.get i = cr ∨ j.readBuf.get i = lf

theorem FirstCrLf.not_clean {i : Nat} (h : j.FirstCrLf i) : ¬j.CleanAt i :=
  fun hc => h.crLf.elim hc.1 hc.2

theorem FirstCrLf.eq {i k : Nat} (hi : j.FirstCrLf i) (hk : j.FirstCrLf k) : i = k := by
  rcases lt_trichotomy i k with hlt | he | hgt
  · exact absurd (hk.clean i hi.checked_le hlt) hi.not_clean
  · exact he
  · exact absurd (hi.clean k hk.checked_le hgt) hk.not_clean

/-- What is to be said of a call of `parse_line` that returns `s` and leaves `k`. Where it
    returns neither `LINE_OK` nor `LINE_OPEN`, it returns `LINE_BAD`. -/
structure LineSpec (j : CJob N) (s : LineStatus) (k : CJob N) : Prop where
  ok_iff : s = .lineOk ↔
    ∃ i, j.FirstCrLf i ∧ j.readBuf.get i = cr ∧ i + 1 < j.readIdx ∧ j.readBuf.get (i + 1) = lf
  open_iff : s = .lineOpen ↔
    (∀ i, ¬j.FirstCrLf i) ∨ ∃ i, j.FirstCrLf i ∧ i = j.readIdx - 1 ∧ j.readBuf.get i = cr
  /-- The bytes `i` and `i + 1` are NUL now, and `m_checked_idx` is `i + 2`. -/
  ok : ∀ i, j.FirstCrLf i → s = .lineOk → k = j.cutAt i
  none : (∀ i, ¬j.FirstCrLf i) → k = { j with checkedIdx := j.readIdx }
  not_ok : ∀ i, j.FirstCrLf i → s ≠ .lineOk → k = { j with checkedIdx := i }
  no_cr : ∀ i < j.checkedIdx, j.readBuf.get i ≠ cr
  no_look_back : ∀ i, j.FirstCrLf i → j.readBuf.get i = lf →
    ¬(1 < i ∧ j.readBuf.get (i - 1) = cr)

/-- The cursors are in order, and no byte before `m_checked_idx` is a CR. -/
structure NoCr (j : CJob N) : Prop where
  checked_le : j.checkedIdx ≤ j.readIdx
  read_le : j.readIdx ≤ N
  no_cr : ∀ k < j.checkedIdx, j.readBuf.get k ≠ cr

theorem NoCr.parsed (h : j.NoCr) : ParsedLine j j.parseLine.1 j.parseLine.2 :=
  parseLine_parsed h.checked_le fun h1 => h.no_cr _ (by omega)

/-- A scan passes over bytes that are no CR, and over the CR that it turns into a NUL. -/
theorem NoCr.of_parsed (h : j.NoCr) {s : LineStatus} (hp : ParsedLine j s j') : j'.NoCr := by
  have hpast : ∀ i, (∀ k, j.checkedIdx ≤ k → k < i → j.CleanAt k) →
      ∀ k < i, j.readBuf.get k ≠ cr := fun i hi k hk => by
    rcases Nat.lt_or_ge k j.checkedIdx with hlt | hge
    · exact h.no_cr k hlt
    · exact (hi k hge hk).1
  cases hp with
  | @ok i hi hcr hlt hlf =>
    refine ⟨hlt, h.read_le, fun k hk => ?_⟩
    simp only [cutAt] at hk ⊢
    rw [CharArray.get_store, CharArray.get_store]
    split_ifs with hnext hfirst
    · decide
    · decide
    · -- a byte before the CRLF
      have hread := h.read_le
      exact hpast i hi.clean k (by omega)
  | more hi => exact ⟨le_rfl, h.read_le, hpast j.readIdx hi⟩
  | pending hi hcr he => exact ⟨hi.lt_read.le, h.read_le, hpast _ hi.clean⟩
  | bare hi hb => exact ⟨hi.lt_read.le, h.read_le, hpast _ hi.clean⟩

/-- There is no CR that an LF could look back for. -/
theorem NoCr.no_look_back (h : j.NoCr) {i : Nat} (hi : j.FirstCrLf i) :
    ¬(1 < i ∧ j.readBuf.get (i - 1) = cr) := fun hcr => by
  rcases Nat.lt_or_ge (i - 1) j.checkedIdx with hlt | hge
  · exact h.no_cr _ hlt hcr.2
  · exact (hi.clean (i - 1) hge (by omega)).1 hcr.2

theorem NoCr.lineSpec (h : j.NoCr) {s : LineStatus} (hp : ParsedLine j s j') : j.LineSpec s j' := by
  have hback : ∀ i, j.FirstCrLf i → j.readBuf.get i = lf →
      ¬(1 < i ∧ j.readBuf.get (i - 1) = cr) := fun i hi _ => h.no_look_back hi
  cases hp with
  | @ok i hi hcr hlt hlf =>
    have hfirst : j.FirstCrLf i := ⟨hi, .inl hcr⟩
    refine ⟨iff_of_true rfl ⟨i, hfirst, hcr, hlt, hlf⟩, iff_of_false (by decide) ?_,
      fun k hk _ => by rw [hfirst.eq hk], fun hno => absurd hfirst (hno i),
      fun k hk hne => absurd rfl hne, h.no_cr, hback⟩
    rintro (hno | ⟨k, hk, hlast, -⟩)
    · exact hno i hfirst
    · have := hfirst.eq hk
      omega
  | more hi =>
    have hno : ∀ i, ¬j.FirstCrLf i := fun i hf => hf.not_clean (hi i hf.checked_le hf.lt_read)
    exact ⟨iff_of_false (by decide) fun ⟨i, hf, _⟩ => hno i hf, iff_of_true rfl (.inl hno),
      fun i hf => absurd hf (hno i), fun _ => rfl, fun i hf => absurd hf (hno i), h.no_cr, hback⟩
  | @pending i hi hcr hlast =>
    have hfirst : j.FirstCrLf i := ⟨hi, .inl hcr⟩
    refine ⟨iff_of_false (by decide) ?_,
      iff_of_true rfl (.inr ⟨i, hfirst, Nat.eq_sub_of_add_eq hlast, hcr⟩),
      fun k hk hok => absurd hok (by decide), fun hno => absurd hfirst (hno i),
      fun k hk _ => by rw [hfirst.eq hk], h.no_cr, hback⟩
    rintro ⟨k, hk, -, hlt, -⟩
    rw [← hfirst.eq hk] at hlt
    exact hlt.ne hlast
  | @bare i hi hb =>
    have hfirst : j.FirstCrLf i := ⟨hi, hb.imp And.left id⟩
    have hne : lf ≠ cr := by decide
    refine ⟨iff_of_false (by decide) ?_, iff_of_false (by decide) ?_,
      fun k hk hok => absurd hok (by decide), fun hno => absurd hfirst (hno i),
      fun k hk _ => by rw [hfirst.eq hk], h.no_cr, hback⟩
    · rintro ⟨k, hk, hcr, -, hlf⟩
      rw [← hfirst.eq hk] at hcr hlf
      rcases hb with ⟨-, -, hno⟩ | hbare
      · exact hno hlf
      · exact hne (hbare.symm.trans hcr)
    · rintro (hno | ⟨k, hk, hlast, hcr⟩)
      · exact hno i hfirst
      · rw [← hfirst.eq hk] at hcr hlast
        rcases hb with ⟨-, hlt, -⟩ | hbare
        · omega
        · exact hne (hbare.symm.trans hcr)

end CJob

namespace Scan

/-- What happens to the buffer: bytes are received, or `parse_line` is called. -/
inductive Action
  | append (bytes : List UInt8)
  | parseLine

variable {N : Nat}

/-- A step; bytes are appended as long as there is room. -/
def step (j : CJob N) : Action → Option (CJob N)
  | .append bytes => if j.readIdx + bytes.length ≤ N then some (j.append bytes) else none
  | .parseLine => some j.parseLine.2

theorem noCr_init (memory : CJob N) : memory.init.NoCr :=
  ⟨le_rfl, Nat.zero_le N, fun _ hk => absurd hk (Nat.not_lt_zero _)⟩

theorem noCr_step {j j' : CJob N} (h : j.NoCr) {a : Action} (hs : step j a = some j') : j'.NoCr := by
  cases a with
  | append bytes =>
    obtain ⟨hroom, he⟩ := Option.ite_none_right_eq_some.1 hs
    cases he
    refine ⟨h.checked_le.trans (Nat.le_add_right _ _), hroom, fun k hk => ?_⟩
    -- the bytes go behind those that were received before
    have hlt : k < j.readIdx := Nat.lt_of_lt_of_le hk h.checked_le
    simp only [CJob.append]
    rw [CharArray.get_copy h.read_le, if_neg fun hk' => Nat.not_lt.2 hk'.1 hlt]
    exact h.no_cr k hk
  | parseLine =>
    cases hs
    exact h.of_parsed h.parsed

/-- In every state that is reached from `init()` by bytes appended and lines scanned, in any
    order, `parse_line` does what the first CR or LF ahead makes it do. -/
theorem lineSpec_of_exec {memory j : CJob N} {as : List Action}
    (hs : exec step memory.init as = some j) : j.LineSpec j.parseLine.1 j.parseLine.2 := by
  have h : j.NoCr := exec_inv (I := CJob.NoCr) (fun _ _ _ h hs => noCr_step h hs)
    (noCr_init memory) hs
  exact h.lineSpec h.parsed

/-- A line that comes in two parts, the CR apart from the LF. -/
theorem lineSpec_of_exec_two :
    ∃ j, exec step (default : CJob).init
        [.append (ascii "GET / HTTP/1.1\r"), .parseLine, .append (ascii "\n")] = some j ∧
      j.LineSpec j.parseLine.1 j.parseLine.2 :=
  have hexec : exec step (default : CJob).init
      [.append (ascii "GET / HTTP/1.1\r"), .parseLine, .append (ascii "\n")] = some _ := rfl
  ⟨_, hexec, lineSpec_of_exec hexec⟩

end Scan

end VsHttpServer
