import VsHttpServer.Job.Fresh

/-!
# The connection and what the head says of it

The `Connection` line of a head is written from `m_linger`, while `process` closes
the connection when `process_write` returns `false`: when the file is empty, or when
a form does not fit. What `write` returns from `m_linger` is not used.

* `saysClose_iff`: the head says `Connection: close` when `m_linger` is off, if the
  line fits in `m_write_buf`;
* `closes_iff`: when the connection is closed exactly if the head says so.
-/

namespace VsHttpServer

open CString Crlf

namespace CJob

theorem fitted_append (i : Nat) (ts us : List (List UInt8)) :
    fitted i (ts ++ us) = fitted i ts ++ fitted (i + (fitted i ts).flatten.length) us := by
  induction ts generalizing i with
  | nil => rfl
  | cons t ts ih =>
    rw [List.cons_append, fitted, fitted]
    split_ifs
    · rw [ih, List.cons_append, List.flatten_cons, List.length_append, Nat.add_assoc]
    · exact ih i

theorem fitted_sublist (i : Nat) (ts : List (List UInt8)) : (fitted i ts).Sublist ts := by
  induction ts generalizing i with
  | nil => exact List.Sublist.refl []
  | cons t ts ih =>
    rw [fitted]
    split_ifs
    · exact (ih _).cons_cons t
    · exact (ih i).cons t

/-- Of lines, some fit. -/
theorem exists_fitted_map (i : Nat) (ls : List (List UInt8)) :
    ∃ vs : List (List UInt8), vs.Sublist ls ∧ fitted i (ls.map terminated) = vs.map terminated :=
  List.sublist_map_iff.1 (fitted_sublist i _)

theorem headTexts_append (status : Int) (title : List UInt8) (contentLen : Int) (linger : Bool)
    (t : List UInt8) :
    headTexts status title contentLen linger ++ [t] =
      (headLines status title contentLen linger ++ [[]]).map terminated ++ [t] := by
  rw [headTexts, List.map_append, List.map_singleton]

/-- A response is the lines of a head and a last text: the empty line, or a form, which
    has no CR. -/
theorem responseTexts_cases (j : CJob) (ret : HttpCode) :
    j.responseTexts ret = [] ∨ ∃ status title contentLen ls t, Plain title ∧
      j.responseTexts ret = ls.map terminated ++ [t] ∧
      ((ls = headLines status title contentLen j.linger ∧ t = terminated []) ∨
        (ls = headLines status title contentLen j.linger ++ [[]] ∧ cr ∉ t)) := by
  have hok : Plain ok200Title ∧ cr ∉ okString := by decide
  rw [responseTexts]
  cases he : errorForm ret with
  | some e =>
    obtain ⟨-, -, htitle, hf⟩ := errorForm_bounds he
    exact .inr ⟨_, _, _, _, _, htitle, headTexts_append _ _ _ _ _,
      .inr ⟨rfl, fun hcr => (hf cr hcr).2 rfl⟩⟩
  | none =>
    simp only
    split_ifs
    · exact .inr ⟨_, _, _, _, _, hok.1, rfl, .inl ⟨rfl, rfl⟩⟩
    · exact .inr ⟨_, _, _, _, _, hok.1, headTexts_append _ _ _ _ _, .inr ⟨rfl, hok.2⟩⟩
    · exact .inl rfl

/-- The line that announces the end of the connection. -/
def closeLine : List UInt8 := ascii "Connection: close"

/-- Of the lines of a head, only the one made from `m_linger` can announce the end. -/
theorem closeLine_mem_iff {status contentLen : Int} {title : List UInt8} {linger : Bool}
    {ls : List (List UInt8)} (hls : ls.Sublist (headLines status title contentLen linger ++ [[]])) :
    closeLine ∈ ls ↔ linger = false ∧ connectionLine linger ∈ ls := by
  constructor
  · intro hmem
    have hstatus : closeLine ≠ statusLine status title := fun h =>
      absurd (congrArg List.head? h) (by simp [closeLine, statusLine, ascii])
    have hlength : closeLine ≠ contentLengthLine contentLen := fun h =>
      absurd (congrArg (List.take 4) h) (by simp [closeLine, contentLengthLine, ascii])
    have hall := hls.subset hmem
    simp only [headLines, List.cons_append, List.nil_append, List.mem_cons, hstatus, hlength,
      List.not_mem_nil, false_or, or_false] at hall
    rcases hall with hconn | hnil
    · refine ⟨?_, hconn ▸ hmem⟩
      cases linger
      · rfl
      · exact absurd hconn (by decide)
    · exact absurd hnil (by decide)
  · rintro ⟨rfl, hmem⟩
    exact hmem

/-- The last text, cut where the room ends, has at most the empty line. -/
theorem closeLine_not_mem_cutLines {t : List UInt8} (ht : t = terminated [] ∨ cr ∉ t) (n : Nat) :
    closeLine ∉ cutLines (t.take n) := by
  rcases ht with rfl | hcr
  · have hone : cutLines (terminated []) = [[]] := by
      have hsome := cutLines_of_some (cutLine_terminated clean_nil [])
      rwa [List.append_nil, show cutLines [] = [] from cutLines_of_none rfl] at hsome
    rcases n with - | - | n
    · rw [List.take_zero, cutLines_of_none rfl]
      exact List.not_mem_nil
    · rw [cutLines_of_none (by decide)]
      exact List.not_mem_nil
    · rw [List.take_of_length_le (by simp [terminated]), hone]
      decide
  · rw [cutLines_of_none]
    · exact List.not_mem_nil
    · cases hc : cutLine (t.take n) with
      | none => rfl
      | some p =>
        obtain ⟨he, -⟩ := cutLine_eq_some_iff.1 hc
        refine absurd (List.mem_of_mem_take (i := n) ?_) hcr
        rw [he]
        exact List.mem_append_right _ List.mem_cons_self

theorem terminated_injective : Function.Injective terminated := fun _ _ h =>
  List.append_cancel_right h

/-- What the texts of a response make of the buffer announces the end of the connection
    if `m_linger` is off, and its line fits. -/
theorem closeLine_mem_response {j : CJob} (h : j.Room) (ret : HttpCode)
    (hne : j.responseTexts ret ≠ []) :
    closeLine ∈ cutLines ((j.addTexts (j.responseTexts ret)).writeBuf.str j.writeIdx) ↔
      j.linger = false ∧
        terminated (connectionLine j.linger) ∈ fitted j.writeIdx (j.responseTexts ret) := by
  obtain hnil | ⟨status, title, contentLen, ls, t, htitle, htexts, hls⟩ := j.responseTexts_cases ret
  · exact absurd hnil hne
  have hzero := j.responseTexts_ne_zero ret
  rw [htexts, List.forall_mem_append, List.forall_mem_singleton] at hzero
  have hsub : ls.Sublist (headLines status title contentLen j.linger ++ [[]]) := by
    rcases hls with ⟨rfl, -⟩ | ⟨rfl, -⟩
    · exact List.sublist_append_left _ _
    · exact List.Sublist.refl _
  have ht : t = terminated [] ∨ cr ∉ t := hls.imp (·.2) (·.2)
  have hlast : t ≠ terminated (connectionLine j.linger) := by
    rintro rfl
    rcases ht with ht | ht
    · exact absurd (terminated_injective ht) (by cases j.linger <;> decide)
    · exact ht (List.mem_append_right _ List.mem_cons_self)
  obtain ⟨vs, hvs, hfit⟩ := exists_fitted_map j.writeIdx ls
  have hclean : ∀ x ∈ vs, Clean x := by
    intro x hx
    have hx' := hsub.subset (hvs.subset hx)
    rw [List.mem_append, List.mem_singleton] at hx'
    rcases hx' with hx' | rfl
    · exact (plain_headLines htitle _ _ _ x hx').1.clean
    · exact clean_nil
  rw [htexts, str_addTexts h hzero.1 hzero.2, hfit, ← List.flatMap_def, cutLines_flatMap hclean,
    List.mem_append, or_iff_left (closeLine_not_mem_cutLines ht _),
    closeLine_mem_iff (hvs.trans hsub), fitted_append, hfit, List.mem_append,
    List.mem_map_of_injective terminated_injective]
  refine and_congr_right fun _ => (or_iff_left fun hmem => ?_).symm
  rw [fitted] at hmem
  split_ifs at hmem
  · exact hlast (List.mem_singleton.1 hmem).symm
  · cases hmem

end CJob

namespace ConnJob

variable {c : ConnJob} {fs : FileSystem}

/-- The connection is closed. -/
def Closes (fs : FileSystem) (c : ConnJob) : Prop := .buffereventFree ∈ (c.process fs).1

/-- The head written in the call has the line `Connection: close`. -/
def SaysClose (fs : FileSystem) (c : ConnJob) : Prop :=
  CJob.closeLine ∈ cutLines ((c.answered fs).writeBuf.str c.writeIdx)

/-- There is room left in `m_write_buf` for the `Connection` line of the response. -/
def ShowsLinger (fs : FileSystem) (c : ConnJob) : Prop :=
  terminated (connectionLine (c.parsed fs).linger) ∈
    CJob.fitted c.writeIdx ((c.parsed fs).responseTexts (c.code fs))

theorem mem_process_buffereventFree (h : c.code fs ≠ .noRequest) : c.Closes fs ↔ ¬c.Keeps fs := by
  have hw := (closing_not_mem_write (c.answered fs)).2
  rw [Closes, process_eq h, closing]
  by_cases hk : c.Keeps fs
  · simp [hk, hw]
  · simp [hk]

/-- Every code that is answered has a response. -/
theorem responseTexts_ne_nil (h : c.code fs ≠ .noRequest) :
    (c.parsed fs).responseTexts (c.code fs) ≠ [] := by
  have hcode : (CJob.errorForm (c.code fs)).isSome ∨ c.code fs = .fileRequest := by
    rw [code] at h ⊢
    rcases CJob.processRead_cases fs c.toCJob with ⟨code, hc, -, he⟩ | ⟨-, he⟩
    · rw [he] at h ⊢
      rcases hc with rfl | rfl
      · exact absurd rfl h
      · exact .inl rfl
    · rw [he]
      rcases CJob.doRequest_cases fs (CJob.processReadLoop .lineOk c.toCJob).2 with
        ⟨-, hd⟩ | ⟨st, -, ⟨-, hd⟩ | ⟨-, -, hd⟩ | ⟨-, -, hd⟩⟩
      all_goals rw [hd]
      exacts [.inl rfl, .inl rfl, .inl rfl, .inr rfl]
  rw [CJob.responseTexts]
  rcases hcode with hcode | hcode
  · obtain ⟨e, he⟩ := Option.isSome_iff_exists.1 hcode
    rw [he]
    simp
  · rw [hcode]
    simp only [CJob.errorForm, if_true]
    split_ifs <;> simp [CJob.headTexts]

theorem saysClose_iff (h : c.AtRest) (hcode : c.code fs ≠ .noRequest) :
    c.SaysClose fs ↔ (c.parsed fs).linger = false ∧ c.ShowsLinger fs := by
  have hidx : (c.parsed fs).writeIdx = c.writeIdx := (CJob.processRead_writer fs c.toCJob).2.1
  have := CJob.closeLine_mem_response (h.parsed fs).1 (c.code fs) (responseTexts_ne_nil hcode)
  rwa [← answered_eq, hidx] at this

/-- In every state of a connection, and for every answer, the connection is closed
    exactly when the head says so, which is when `m_linger` is off, if and only if
    `m_linger` is on for the answers that keep the connection and off for the others,
    and in the latter case the `Connection` line fits in `m_write_buf`. -/
theorem closes_iff (h : Session.Reachable c) (hcode : c.code fs ≠ .noRequest) :
    ((c.Closes fs ↔ c.SaysClose fs) ∧ (c.Closes fs ↔ (c.parsed fs).linger = false)) ↔
      ((c.Keeps fs ↔ (c.parsed fs).linger = true) ∧
        ((c.parsed fs).linger = false → c.ShowsLinger fs)) := by
  rw [saysClose_iff h.atRest hcode, mem_process_buffereventFree hcode]
  cases (c.parsed fs).linger <;> by_cases hk : c.Keeps fs <;> simp [hk]

/-- A new connection has received a keep-alive request for a file. -/
theorem closes_iff_keepAlive :
    ((accept default ⟨5, by decide⟩).readEvent keepAliveGet.bytes).Closes
        (.all ⟨0o100644, 5⟩ (.mapped (ascii "hello" ++ [0]))) ↔
      ((accept default ⟨5, by decide⟩).readEvent keepAliveGet.bytes).SaysClose
        (.all ⟨0o100644, 5⟩ (.mapped (ascii "hello" ++ [0]))) := by
  obtain ⟨hreach, hcode, hst, -, hlinger⟩ := accept_read default ⟨5, by decide⟩
    keepAliveGet_bodyLess (by rw [length_keepAliveGet]; decide) (FileSystem.serves_all ⟨0o100644, 5⟩ (by decide) (by decide) (by decide) _ (ascii "hello" ++ [0]))
  have hkeep := hlinger.2 keepAliveGet_keepAlive
  exact ((closes_iff hreach (by rw [hcode]; simp)).2
    ⟨iff_of_true (keeps_file hcode (by rw [hst]; decide)) hkeep, by simp [hkeep]⟩).1

/-- A new connection has received a request for a file, without a header: the head says
    `Connection: close`, and the connection is not closed. -/
theorem not_closes :
    ((accept default ⟨5, by decide⟩).readEvent (ascii "GET / HTTP/1.1\r\n\r\n")).SaysClose
        (.all ⟨0o100644, 5⟩ (.mapped (ascii "hello" ++ [0]))) ∧
      ¬((accept default ⟨5, by decide⟩).readEvent (ascii "GET / HTTP/1.1\r\n\r\n")).Closes
        (.all ⟨0o100644, 5⟩ (.mapped (ascii "hello" ++ [0]))) := by
  have hbytes : (CJob.plainGet 0).toRequest.bytes = ascii "GET / HTTP/1.1\r\n\r\n" := by decide
  have hread := accept_read default ⟨5, by decide⟩ (CJob.plainGet 0).bodyLess_toRequest
    (by rw [hbytes]; decide) (FileSystem.serves_all ⟨0o100644, 5⟩ (by decide) (by decide)
      (by decide) _ (ascii "hello" ++ [0]))
  rw [hbytes] at hread
  obtain ⟨hreach, hcode, hst, -, hlinger⟩ := hread
  have hne : ((accept default ⟨5, by decide⟩).readEvent (ascii "GET / HTTP/1.1\r\n\r\n")).code
      (.all ⟨0o100644, 5⟩ (.mapped (ascii "hello" ++ [0]))) ≠ .noRequest := by
    rw [hcode]
    simp
  have hsize : (((accept default ⟨5, by decide⟩).readEvent (ascii "GET / HTTP/1.1\r\n\r\n")).parsed
      (.all ⟨0o100644, 5⟩ (.mapped (ascii "hello" ++ [0])))).fileStat.size ≠ 0 := by
    rw [hst]
    decide
  have hoff : (((accept default ⟨5, by decide⟩).readEvent (ascii "GET / HTTP/1.1\r\n\r\n")).parsed
      (.all ⟨0o100644, 5⟩ (.mapped (ascii "hello" ++ [0])))).linger = false := by
    refine Bool.eq_false_iff.2 fun h => ?_
    obtain ⟨x, hx, -⟩ := hlinger.1 h
    exact List.not_mem_nil hx
  refine ⟨(saysClose_iff hreach.atRest hne).2 ⟨hoff, ?_⟩, ?_⟩
  · -- the head is short: all of its lines fit
    rw [ShowsLinger, responseTexts_file hcode hsize, CJob.fitted_of_fits]
    · simp [CJob.headTexts, CJob.headLines]
    · refine (Nat.zero_add _).trans_lt ((CJob.length_headTexts_le _ _).trans_lt ?_)
      decide
  · rw [mem_process_buffereventFree hne]
    exact not_not.2 (keeps_file hcode hsize)

end ConnJob

end VsHttpServer
