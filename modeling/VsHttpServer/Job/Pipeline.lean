import VsHttpServer.Job.Fresh
import Mathlib.Data.List.Forall2

/-!
# Pipelined requests

Keep-alive requests are delivered by read events, some of them in one. A call of
`process` answers the first request of what was delivered, and `init` forgets the others.

* `exec_deliver`: requests that are delivered one by one are answered one by one;
* `pipelined_iff`: this is the only way to have all of them answered, with the files that they
  name, for which `m_real_file` must have room.
-/

namespace VsHttpServer

open CString Crlf Transition

/-! ## Groups -/

theorem forall_of_forall₂ {α β : Type*} {R : α → β → Prop} {P : β → Prop} {l : List α} {u : List β}
    (h : List.Forall₂ R l u) (hP : ∀ a ∈ l, ∀ b, R a b → P b) : ∀ b ∈ u, P b := by
  induction h with
  | nil => simp
  | cons hab _ ih =>
    rw [List.forall_mem_cons] at hP
    exact List.forall_mem_cons.2 ⟨hP.1 _ hab, ih hP.2⟩

/-- Groups that are no more than their elements have one each. -/
theorem length_eq_one_of_flatten {α : Type*} {gs : List (List α)} (hne : ∀ g ∈ gs, g ≠ [])
    (hle : gs.flatten.length ≤ gs.length) : ∀ g ∈ gs, g.length = 1 := by
  have hge : ∀ {gs : List (List α)}, (∀ g ∈ gs, g ≠ []) → gs.length ≤ gs.flatten.length := by
    intro gs hne
    induction gs with
    | nil => exact le_rfl
    | cons g gs ih =>
      rw [List.forall_mem_cons] at hne
      have := List.length_pos_iff.2 hne.1
      have := ih hne.2
      rw [List.flatten_cons, List.length_append, List.length_cons]
      omega
  induction gs with
  | nil => simp
  | cons g gs ih =>
    rw [List.forall_mem_cons] at hne ⊢
    rw [List.flatten_cons, List.length_append, List.length_cons] at hle
    have := List.length_pos_iff.2 hne.1
    have := hge hne.2
    exact ⟨by omega, ih hne.2 (by omega)⟩

theorem eq_map_flatten {α : Type*} {gs : List (List α)} (hone : ∀ g ∈ gs, g.length = 1) :
    gs = gs.flatten.map fun a => [a] := by
  induction gs with
  | nil => rfl
  | cons g gs ih =>
    rw [List.forall_mem_cons] at hone
    obtain ⟨a, rfl⟩ := List.length_eq_one_iff.1 hone.1
    rw [List.flatten_cons, List.singleton_append, List.map_cons, ← ih hone.2]

/-! ## Answers -/

namespace ProcessCall

/-- The call has answered the request with the file that it names. -/
def Answers (fs : FileSystem) (p : ProcessCall) (q : Request) : Prop :=
  ∃ st bytes, fs.Serves q.file st bytes ∧ p.path = q.file ∧ p.mapping = some (.mapped bytes) ∧
    p.ops = ConnJob.fileOps st.size bytes

end ProcessCall

namespace Session

variable {fs : FileSystem} {s s' : Session}

/-- The requests are delivered by a read event for each group of them, and `process` runs
    after each. -/
def deliver (fs : FileSystem) (gs : List (List Request)) : List Action :=
  gs.flatMap fun g => [.readEvent (g.flatMap Request.bytes), .process fs]

/-- The calls that have answered. -/
def responses (s : Session) : List ProcessCall := s.calls.filter (·.code ≠ .noRequest)

/-- A request that names a file that can be served, keeps the connection and has no body. -/
structure Wanted (fs : FileSystem) (q : Request) : Prop where
  bodyLess : q.BodyLess
  keepAlive : q.KeepAlive
  serves : ∃ st bytes, fs.Serves q.file st bytes

/-- `strlen` finds the end of the mapping of the file that the request names. -/
def HasEnd (fs : FileSystem) (q : Request) : Prop :=
  ∃ st bytes, fs.Serves q.file st bytes ∧ 0 ∈ bytes

/-- The session can go on: the connection is there, and fresh. -/
structure Ready (s : Session) : Prop where
  live : s.live = true
  fresh : s.conn.Fresh

/-- A request that is delivered alone is answered, and the connection is ready for the
    next one. -/
theorem Ready.deliver (h : s.Ready) {q : Request} (hq : Wanted fs q) (hfits : q.FileFits)
    (hend : HasEnd fs q) (hlen : q.bytes.length ≤ readBufferSize) :
    ∃ s' p, exec step s [.readEvent q.bytes, .process fs] = some s' ∧ s'.Ready ∧
      s'.responses = s.responses ++ [p] ∧ p.Answers fs q := by
  obtain ⟨st, bytes, hserves, h0⟩ := hend
  have hfile := Request.filePath_path hfits
  have hread : (q.bytes ++ []).length ≤ readBufferSize := by rwa [List.append_nil]
  obtain ⟨hcode, hst, haddr, hlinger⟩ := h.fresh.read_served hq.bodyLess hread
    (hfile.symm ▸ hserves)
  obtain ⟨-, hpath, -⟩ := h.fresh.read fs hq.bodyLess hread
  rw [List.append_nil] at hcode hst haddr hlinger hpath
  have hidx : (s.conn.readEvent q.bytes).writeIdx = 0 := by rw [h.fresh.readEvent]; rfl
  have hroom : s.conn.readIdx + q.bytes.length ≤ readBufferSize := by
    rw [← h.fresh]
    exact (Nat.zero_add _).trans_le hlen
  have hprocess := (ConnJob.process_file hidx hcode (by rw [hst]; exact hserves.size) haddr
    (hlinger.2 hq.keepAlive)).1 h0
  rw [hst] at hprocess
  have hdelete : .deleteConn ∉ ((s.conn.readEvent q.bytes).process fs).1 := by
    rw [hprocess]
    simp [ConnJob.fileOps]
  refine ⟨({ s with conn := s.conn.readEvent q.bytes } : Session).processed fs,
    (s.conn.readEvent q.bytes).call fs, ?_, ⟨?_, ?_⟩, ?_, st, bytes, hserves, hpath.trans hfile,
    ?_, ?_⟩
  · rw [exec, step, if_pos ⟨h.live, hroom⟩, Option.bind_some, exec, step, if_pos h.live]
    rfl
  · rw [processed]
    simp only [hdelete, not_false_eq_true, and_true]
    rw [hprocess]
    rfl
  · rw [processed]
    simp only [hprocess]
    rfl
  · rw [responses, processed, List.filter_append, responses]
    congr 1
    simp [ConnJob.call, hcode]
  · rw [ConnJob.call, ConnJob.mapping_of_fileRequest hcode, haddr]
  · rw [ConnJob.call, hprocess]

/-- Requests that are delivered one by one are answered one by one. -/
theorem Ready.exec_deliver (h : s.Ready) {qs : List Request} (hqs : ∀ q ∈ qs, Wanted fs q)
    (hend : ∀ q ∈ qs, q.FileFits ∧ HasEnd fs q)
    (hlen : ∀ q ∈ qs, q.bytes.length ≤ readBufferSize) :
    ∃ s' ps, exec step s (Session.deliver fs (qs.map fun q => [q])) = some s' ∧
      s'.responses = s.responses ++ ps ∧ List.Forall₂ (ProcessCall.Answers fs) ps qs := by
  induction qs generalizing s with
  | nil => exact ⟨s, [], rfl, (List.append_nil _).symm, .nil⟩
  | cons q qs ih =>
    rw [List.forall_mem_cons] at hqs hend hlen
    obtain ⟨s₁, p, hexec, hready, hresp, hanswers⟩ := h.deliver hqs.1 hend.1.1 hend.1.2 hlen.1
    obtain ⟨s', ps, hexec', hresp', hall⟩ := ih hready hqs.2 hend.2 hlen.2
    refine ⟨s', p :: ps, ?_, ?_, .cons hanswers hall⟩
    · rw [List.map_cons, Session.deliver, List.flatMap_cons, exec_append,
        List.flatMap_singleton, hexec]
      exact hexec'
    · rw [hresp', hresp, List.append_assoc, List.singleton_append]

/-- There is one call of `process` for each read event. -/
theorem length_calls {gs : List (List Request)} (h : exec step s (deliver fs gs) = some s') :
    s'.calls.length = s.calls.length + gs.length := by
  induction gs generalizing s with
  | nil =>
    cases h
    rfl
  | cons g gs ih =>
    rw [deliver, List.flatMap_cons, exec_append] at h
    obtain ⟨s₁, h₁, h₂⟩ := Option.bind_eq_some_iff.1 h
    have hone : s₁.calls.length = s.calls.length + 1 := by
      obtain ⟨s₂, hread, hrest⟩ := Option.bind_eq_some_iff.1 h₁
      obtain ⟨s₃, hprocess, hlast⟩ := Option.bind_eq_some_iff.1 hrest
      cases hlast
      obtain ⟨-, he⟩ := Option.ite_none_right_eq_some.1 hread
      obtain ⟨-, he'⟩ := Option.ite_none_right_eq_some.1 hprocess
      cases he
      cases he'
      exact List.length_append
    rw [ih h₂, hone, List.length_cons]
    omega

/-- The calls of a run are calls of `process`, on a connection at rest. -/
theorem mem_calls {memory : CJob} {fd : Descriptor} {as : List Action}
    (h : exec step (start memory fd) as = some s) :
    ∀ p ∈ s.calls, ∃ (c : ConnJob) (fs : FileSystem), c.AtRest ∧ p = c.call fs := by
  refine (exec_inv (I := fun s => s.Inv ∧ ∀ p ∈ s.calls, ∃ (c : ConnJob) (fs : FileSystem),
    c.AtRest ∧ p = c.call fs) (fun s a s' hs hstep => ⟨hs.1.step hstep, ?_⟩)
    ⟨inv_start memory fd, fun p hp => absurd hp List.not_mem_nil⟩ h).2
  cases a with
  | readEvent bytes =>
    obtain ⟨-, he⟩ := Option.ite_none_right_eq_some.1 hstep
    cases he
    exact hs.2
  | process fs =>
    obtain ⟨hlive, he⟩ := Option.ite_none_right_eq_some.1 hstep
    cases he
    exact List.forall_mem_append.2
      ⟨hs.2, List.forall_mem_singleton.2 ⟨s.conn, fs, hs.1 hlive, rfl⟩⟩

/-- A call that comes to `unmap` has found the end of the mapping. -/
theorem zero_mem_of_unmap {c : ConnJob} {bytes : List UInt8}
    (hmap : (c.call fs).mapping = some (.mapped bytes)) (hunmap : .unmap ∈ (c.call fs).ops) :
    0 ∈ bytes := by
  obtain ⟨hcode, haddr⟩ := ConnJob.mapping_eq hmap
  by_contra h0
  have haddr' := ConnJob.answered_fileAddress fs c
  rw [haddr] at haddr'
  rw [ConnJob.call, ConnJob.process_eq (by rw [hcode]; simp), CJob.write, haddr', FileAddress.str,
    if_neg h0, ConnJob.closing] at hunmap
  split_ifs at hunmap <;> simp at hunmap

/-- What is answered with the file that is named has room for its name. -/
theorem fileFits_of_answers {c : ConnJob} {fs' : FileSystem} {q : Request} (h : c.AtRest)
    (hanswers : (c.call fs').Answers fs q) : q.FileFits ∧ HasEnd fs q := by
  obtain ⟨st, bytes, hserves, hpath, hmap, hops⟩ := hanswers
  refine ⟨?_, st, bytes, hserves, zero_mem_of_unmap hmap (by rw [hops]; simp [ConnJob.fileOps])⟩
  have hlen := h.length_path_lt fs'
  rw [show (c.parsed fs').path = q.file from hpath, Request.file, List.length_append] at hlen
  rw [Request.FileFits]
  omega

/-- Keep-alive requests for files, delivered in groups: there is an answer for each of them,
    in their order and with the file that it names, if and only if each is delivered alone,
    `m_real_file` has room for each name, and `strlen` finds the end of each mapping. -/
theorem pipelined_iff (memory : CJob) (fd : Descriptor) {gs : List (List Request)}
    (hne : ∀ g ∈ gs, g ≠ []) (hlen : ∀ g ∈ gs, (g.flatMap Request.bytes).length ≤ readBufferSize)
    (hq : ∀ q ∈ gs.flatten, Wanted fs q) :
    (∃ s, exec step (start memory fd) (deliver fs gs) = some s ∧
        List.Forall₂ (ProcessCall.Answers fs) s.responses gs.flatten) ↔
      (∀ g ∈ gs, g.length = 1) ∧ ∀ q ∈ gs.flatten, q.FileFits ∧ HasEnd fs q := by
  constructor
  · rintro ⟨s, hexec, hall⟩
    have hcalls := length_calls hexec
    have hresp : s.responses.length ≤ s.calls.length := List.length_filter_le _ _
    refine ⟨length_eq_one_of_flatten hne ?_, forall_of_forall₂ hall fun p hp q hanswers => ?_⟩
    · rw [← hall.length_eq]
      rw [hcalls] at hresp
      exact hresp.trans (Nat.zero_add _).le
    · obtain ⟨c, fs', hrest, rfl⟩ := mem_calls hexec p (List.mem_of_mem_filter hp)
      exact fileFits_of_answers hrest hanswers
  · rintro ⟨hone, hend⟩
    have hgs : gs = gs.flatten.map fun q => [q] := eq_map_flatten hone
    have hshort : ∀ q ∈ gs.flatten, q.bytes.length ≤ readBufferSize := by
      intro q hmem
      have hg : [q] ∈ gs := by
        rw [hgs]
        exact List.mem_map_of_mem hmem
      exact List.flatMap_singleton Request.bytes q ▸ hlen _ hg
    obtain ⟨s, ps, hexec, hresp, hall⟩ :=
      Ready.exec_deliver (s := start memory fd) ⟨rfl, rfl⟩ hq hend hshort
    rw [← hgs] at hexec
    exact ⟨s, hexec, by rw [hresp]; exact hall⟩

/-- Two requests, delivered one by one. -/
theorem pipelined_keepAlive : ∃ s, exec step (start default ⟨5, by decide⟩)
      (deliver (.all ⟨0o100644, 5⟩ (.mapped (ascii "hello" ++ [0]))) [[keepAliveGet], [keepAliveGet]]) =
        some s ∧
    List.Forall₂ (ProcessCall.Answers (.all ⟨0o100644, 5⟩ (.mapped (ascii "hello" ++ [0]))))
      s.responses [keepAliveGet, keepAliveGet] := by
  have hserves := FileSystem.serves_all ⟨0o100644, 5⟩ (by decide) (by decide) (by decide)
    keepAliveGet.file (ascii "hello" ++ [0])
  have hmem : ∀ q ∈ [[keepAliveGet], [keepAliveGet]].flatten, q = keepAliveGet := by simp
  refine (pipelined_iff default ⟨5, by decide⟩ (by simp)
    ?_ fun q hq => ?_).2 ⟨by simp, fun q hq => ?_⟩
  · simp [length_keepAliveGet, readBufferSize]
  · rw [hmem q hq]
    exact ⟨keepAliveGet_bodyLess, keepAliveGet_keepAlive, _, _, hserves⟩
  · rw [hmem q hq]
    exact ⟨keepAliveGet_fileFits, _, _, hserves, by decide⟩

/-- Two requests, delivered at once: the second is not answered. -/
theorem not_pipelined : ¬∃ s, exec step (start default ⟨5, by decide⟩)
      (deliver (.all ⟨0o100644, 5⟩ (.mapped (ascii "hello" ++ [0]))) [[keepAliveGet, keepAliveGet]]) =
        some s ∧
    List.Forall₂ (ProcessCall.Answers (.all ⟨0o100644, 5⟩ (.mapped (ascii "hello" ++ [0]))))
      s.responses [keepAliveGet, keepAliveGet] := by
  rintro ⟨s, hexec, hall⟩
  have hcalls : s.calls.length = 1 := length_calls hexec
  have hresp : s.responses.length ≤ s.calls.length := List.length_filter_le _ _
  rw [hall.length_eq, hcalls] at hresp
  exact absurd hresp (by decide)

end Session

end VsHttpServer
