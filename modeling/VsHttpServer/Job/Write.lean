import VsHttpServer.Job.Basic
import VsHttpServer.Lines
import VsHttpServer.Printf

/-!
# Writing the head

The functions of `CJob` that write to `m_write_buf`. A text that is too long for
what is left of the buffer does not count (`m_write_idx` stays), but a part of it
is stored nevertheless, where the next text will be.

* `addTexts_of_fits`: texts that fit together are written one after the other;
* `str_addTexts`: in general, the C string in the buffer is made of the texts that
  fit, each in its turn (`fitted`), and of what there is room for of the last one;
* `processWrite_snd`, `processWrite_fst`: a response is its texts (`responseTexts`), and
  `process_write` returns `true` for all but an empty file, if the form fits.
-/

namespace VsHttpServer

open CString Crlf

def ok200Title : List UInt8 := ascii "OK"
def error400Title : List UInt8 := ascii "Bad Request"
def error400Form : List UInt8 :=
  ascii "Your request has bad syntax or is inherently impossible to satisfy.\n"
def error403Title : List UInt8 := ascii "Forbidden"
def error403Form : List UInt8 := ascii "You do not have permission to get file from this server.\n"
def error404Title : List UInt8 := ascii "Not Found"
def error404Form : List UInt8 := ascii "The requested file was not found on this server.\n"
def error500Title : List UInt8 := ascii "Internal Error"
def error500Form : List UInt8 := ascii "There was an unusual problem serving the requested file.\n"

/-- What is sent for an empty file. -/
def okString : List UInt8 := ascii "<html><body></body></html>"

def statusLine (status : Int) (title : List UInt8) : List UInt8 :=
  ascii "HTTP/1.1 " ++ decimal status ++ ascii " " ++ title

def contentLengthLine (contentLen : Int) : List UInt8 :=
  ascii "Content-Length: " ++ decimal contentLen

def connectionLine (linger : Bool) : List UInt8 :=
  ascii "Connection: " ++ if linger then ascii "keep-alive" else ascii "close"

namespace CJob

/-- `WRITE_BUFFER_SIZE - 1 - m_write_idx`, an `int`. -/
def responseSize (j : CJob) : Int := writeBufferSize - 1 - j.writeIdx

/-- `CJob::add_response`, for a format that makes `text` of its arguments. The size that
    `vsnprintf` is given is a `size_t`. -/
def addResponse (j : CJob) (text : List UInt8) : Bool × CJob :=
  if writeBufferSize ≤ j.writeIdx then (false, j)
  else
    let (len, buf) := j.writeBuf.vsnprintf j.writeIdx (toSizeT j.responseSize).toNat text
    if j.responseSize ≤ len then (false, { j with writeBuf := buf })
    else (true, { j with writeBuf := buf, writeIdx := j.writeIdx + len })

def addStatusLine (j : CJob) (status : Int) (title : List UInt8) : Bool × CJob :=
  j.addResponse (terminated (statusLine status title))

def addContentLength (j : CJob) (contentLen : Int) : Bool × CJob :=
  j.addResponse (terminated (contentLengthLine contentLen))

def addLinger (j : CJob) : Bool × CJob := j.addResponse (terminated (connectionLine j.linger))

def addBlankLine (j : CJob) : Bool × CJob := j.addResponse (terminated [])

/-- `CJob::add_headers`, which looks at no result. -/
def addHeaders (j : CJob) (contentLen : Int) : CJob :=
  (j.addContentLength contentLen).2.addLinger.2.addBlankLine.2

def addContent (j : CJob) (content : List UInt8) : Bool × CJob := j.addResponse content

/-- The cases of `process_write` for an error: a status line, headers, and a form. -/
def addForm (j : CJob) (status : Int) (title form : List UInt8) : Bool × CJob :=
  ((j.addStatusLine status title).2.addHeaders form.length).addContent form

/-- `CJob::process_write`. The size of a file is an `off_t`, and the length in the
    head an `int`. -/
def processWrite (j : CJob) (ret : HttpCode) : Bool × CJob :=
  match ret with
  | .internalError => j.addForm 500 error500Title error500Form
  | .badRequest => j.addForm 400 error400Title error400Form
  | .noResource => j.addForm 404 error404Title error404Form
  | .forbiddenRequest => j.addForm 403 error403Title error403Form
  | .fileRequest =>
    let j := (j.addStatusLine 200 ok200Title).2
    if j.fileStat.size ≠ 0 then
      -- nothing depends on `m_request`, and `evbuffer_commit_space` adds nothing to the
      -- output buffer: no space was reserved in it
      (true, j.addHeaders (toInt32 j.fileStat.size))
    else
      -- the case goes on into the default one, unless `add_content` has failed
      (false, ((j.addHeaders okString.length).addContent okString).2)
  | _ => (false, j)

/-! ## Adding texts -/

/-- The text fits in the buffer from the index `i` on. -/
def Fits (i : Nat) (text : List UInt8) : Prop := i + text.length < writeBufferSize - 1

instance (i : Nat) (text : List UInt8) : Decidable (Fits i text) :=
  inferInstanceAs (Decidable (_ < _))

/-- The texts that fit, each in its turn. -/
def fitted : Nat → List (List UInt8) → List (List UInt8)
  | _, [] => []
  | i, t :: ts => if Fits i t then t :: fitted (i + t.length) ts else fitted i ts

/-- The texts are added one after the other. -/
def addTexts (j : CJob) (ts : List (List UInt8)) : CJob :=
  ts.foldl (fun j t => (j.addResponse t).2) j

/-- The index of the next text is inside the buffer. -/
def Room (j : CJob) : Prop := j.writeIdx < writeBufferSize - 1

variable {j : CJob}

theorem toNat_responseSize (h : j.writeIdx < writeBufferSize) :
    (toSizeT j.responseSize).toNat = writeBufferSize - 1 - j.writeIdx := by
  have hsize : writeBufferSize = 1024 := rfl
  rw [toSizeT, responseSize]
  omega

theorem responseSize_le_iff (t : List UInt8) :
    j.responseSize ≤ t.length ↔ ¬Fits j.writeIdx t := by
  have hsize : writeBufferSize = 1024 := rfl
  rw [responseSize, Fits]
  omega

/-- What `add_response` does: the text counts if it fits, and is stored as far as there
    is room. -/
theorem addResponse_eq (t : List UInt8) :
    j.addResponse t = (decide (Fits j.writeIdx t),
      { j with
        writeBuf := if j.writeIdx < writeBufferSize then
          (j.writeBuf.vsnprintf j.writeIdx (writeBufferSize - 1 - j.writeIdx) t).2 else j.writeBuf
        writeIdx := if Fits j.writeIdx t then j.writeIdx + t.length else j.writeIdx }) := by
  have hsize : writeBufferSize = 1024 := rfl
  by_cases h : writeBufferSize ≤ j.writeIdx
  · have hnot : ¬Fits j.writeIdx t := by
      rw [Fits]
      omega
    rw [addResponse, if_pos h, if_neg (Nat.not_lt.2 h), if_neg hnot, decide_eq_false hnot]
  · have hlt := Nat.not_le.1 h
    rw [addResponse, if_neg h, if_pos hlt, toNat_responseSize hlt]
    simp only [CharArray.vsnprintf, responseSize_le_iff]
    by_cases hf : Fits j.writeIdx t
    · rw [if_neg (not_not.2 hf), if_pos hf, decide_eq_true hf]
    · rw [if_pos hf, if_neg hf, decide_eq_false hf]

theorem addResponse_fst (t : List UInt8) : (j.addResponse t).1 = decide (Fits j.writeIdx t) := by
  rw [addResponse_eq]

theorem addResponse_writeIdx (t : List UInt8) :
    (j.addResponse t).2.writeIdx =
      if Fits j.writeIdx t then j.writeIdx + t.length else j.writeIdx := by
  rw [addResponse_eq]

theorem Room.addResponse (h : j.Room) (t : List UInt8) : (j.addResponse t).2.Room := by
  rw [Room, addResponse_writeIdx]
  split_ifs with hf
  · exact hf
  · exact h

/-- A text goes where the index is, as much of it as there is room for. -/
theorem str_addResponse (h : j.Room) {t : List UInt8} (ht : ∀ b ∈ t, b ≠ 0) :
    (j.addResponse t).2.writeBuf.str j.writeIdx = t.take (writeBufferSize - 2 - j.writeIdx) := by
  have hroom : j.writeIdx < writeBufferSize - 1 := h
  have hsize : writeBufferSize = 1024 := rfl
  rw [addResponse_eq, if_pos (by omega), CharArray.str_vsnprintf ht (by omega) (by omega)]
  congr 1
  omega

/-- What was written before stays. -/
theorem get_addResponse (h : j.Room) (t : List UInt8) {k : Nat} (hk : k < j.writeIdx) :
    (j.addResponse t).2.writeBuf.get k = j.writeBuf.get k := by
  have hroom : j.writeIdx < writeBufferSize - 1 := h
  rw [addResponse_eq, if_pos (by omega)]
  exact CharArray.get_vsnprintf_of_lt (by omega) hk

@[simp] theorem addTexts_nil : j.addTexts [] = j := rfl

@[simp] theorem addTexts_cons (t : List UInt8) (ts : List (List UInt8)) :
    j.addTexts (t :: ts) = (j.addResponse t).2.addTexts ts := rfl

theorem addTexts_append (ts us : List (List UInt8)) :
    j.addTexts (ts ++ us) = (j.addTexts ts).addTexts us :=
  List.foldl_append

theorem addTexts_eq (ts : List (List UInt8)) :
    j.addTexts ts = { j with
      writeBuf := (j.addTexts ts).writeBuf, writeIdx := (j.addTexts ts).writeIdx } := by
  induction ts generalizing j with
  | nil => rfl
  | cons t ts ih => rw [addTexts_cons, ih, addResponse_eq]

theorem Room.addTexts (h : j.Room) (ts : List (List UInt8)) : (j.addTexts ts).Room := by
  induction ts generalizing j with
  | nil => exact h
  | cons t ts ih => exact ih (h.addResponse t)

theorem addTexts_writeIdx (ts : List (List UInt8)) :
    (j.addTexts ts).writeIdx = j.writeIdx + (fitted j.writeIdx ts).flatten.length := by
  induction ts generalizing j with
  | nil => rfl
  | cons t ts ih =>
    rw [addTexts_cons, ih, addResponse_writeIdx, fitted]
    split_ifs
    · rw [List.flatten_cons, List.length_append, Nat.add_assoc]
    · rfl

theorem le_addTexts_writeIdx (ts : List (List UInt8)) : j.writeIdx ≤ (j.addTexts ts).writeIdx :=
  addTexts_writeIdx ts ▸ Nat.le_add_right _ _

theorem get_addTexts (h : j.Room) (ts : List (List UInt8)) {k : Nat} (hk : k < j.writeIdx) :
    (j.addTexts ts).writeBuf.get k = j.writeBuf.get k := by
  induction ts generalizing j with
  | nil => rfl
  | cons t ts ih =>
    have hle := le_addTexts_writeIdx (j := j) [t]
    rw [addTexts_cons, ih (h.addResponse t) (hk.trans_le hle), get_addResponse h t hk]

theorem take_of_fits {i : Nat} {t : List UInt8} (h : Fits i t) :
    t.take (writeBufferSize - 2 - i) = t := by
  have hfits : i + t.length < writeBufferSize - 1 := h
  exact List.take_of_length_le (by omega)

/-- What is added leaves no NUL before the index. -/
theorem addTexts_ne_zero (h : j.Room) {ts : List (List UInt8)} (hts : ∀ u ∈ ts, ∀ b ∈ u, b ≠ 0)
    (hbuf : ∀ k < j.writeIdx, j.writeBuf.get k ≠ 0) :
    ∀ k < (j.addTexts ts).writeIdx, (j.addTexts ts).writeBuf.get k ≠ 0 := by
  induction ts generalizing j with
  | nil => exact hbuf
  | cons t ts ih =>
    rw [List.forall_mem_cons] at hts
    refine ih (h.addResponse t) hts.2 fun k hk => ?_
    rcases Nat.lt_or_ge k j.writeIdx with hlt | hge
    · rw [get_addResponse h t hlt]
      exact hbuf k hlt
    · -- the byte is one of a text that fits
      have hidx := addResponse_writeIdx (j := j) t
      split_ifs at hidx with hf
      · obtain ⟨i, rfl⟩ := Nat.exists_eq_add_of_le hge
        have hstr : (j.addResponse t).2.writeBuf.str j.writeIdx = t := by
          rw [str_addResponse h hts.1, take_of_fits hf]
        have hi : i < t.length := by
          rw [hidx] at hk
          omega
        rw [CharArray.get_of_str hstr i hi]
        exact hts.1 _ (List.getElem_mem _)
      · rw [hidx] at hk
        omega

/-- The C string in the buffer: the texts that fit, and what there is room for of the
    last one. -/
theorem str_addTexts (h : j.Room) {ts : List (List UInt8)} {t : List UInt8}
    (hts : ∀ u ∈ ts, ∀ b ∈ u, b ≠ 0) (ht : ∀ b ∈ t, b ≠ 0) :
    (j.addTexts (ts ++ [t])).writeBuf.str j.writeIdx =
      (fitted j.writeIdx ts).flatten ++ t.take (writeBufferSize - 2 - (j.addTexts ts).writeIdx) := by
  induction ts generalizing j with
  | nil => exact str_addResponse h ht
  | cons u ts ih =>
    rw [List.forall_mem_cons] at hts
    have hroom := h.addResponse u
    have hidx := addResponse_writeIdx (j := j) u
    have hrest := ih hroom hts.2
    rw [List.cons_append, addTexts_cons, addTexts_cons, fitted]
    split_ifs at hidx ⊢ with hf
    · -- `u` stays where it was stored, and the rest comes after it
      have hu : (j.addResponse u).2.writeBuf.str j.writeIdx = u := by
        rw [str_addResponse h hts.1, take_of_fits hf]
      rw [CharArray.str_append hts.1, List.flatten_cons, List.append_assoc]
      · rw [hidx] at hrest
        rw [hrest]
      · intro k hk
        rw [get_addTexts hroom _ (by omega), CharArray.get_of_str hu k hk]
    · rw [hidx] at hrest
      exact hrest

/-- Texts that fit together all fit. -/
theorem fitted_of_fits {i : Nat} {ts : List (List UInt8)} (h : Fits i ts.flatten) :
    fitted i ts = ts := by
  induction ts generalizing i with
  | nil => rfl
  | cons t ts ih =>
    rw [List.flatten_cons, Fits, List.length_append] at h
    have ht : Fits i t := by
      rw [Fits]
      omega
    rw [fitted, if_pos ht, ih]
    rw [Fits]
    omega

/-- Texts that fit together are written one after the other. -/
theorem addTexts_of_fits (h : j.Room) {ts : List (List UInt8)} (hts : ∀ u ∈ ts, ∀ b ∈ u, b ≠ 0)
    (hne : ts ≠ []) (hf : Fits j.writeIdx ts.flatten) :
    (j.addTexts ts).writeIdx = j.writeIdx + ts.flatten.length ∧
      (j.addTexts ts).writeBuf.str j.writeIdx = ts.flatten := by
  refine ⟨by rw [addTexts_writeIdx, fitted_of_fits hf], ?_⟩
  obtain ⟨us, t, rfl⟩ := (List.eq_nil_or_concat ts).resolve_left hne
  rw [List.concat_eq_append] at hts hf ⊢
  rw [List.flatten_append, List.flatten_singleton] at hf ⊢
  have hus : Fits j.writeIdx us.flatten := by
    rw [Fits, List.length_append] at hf
    rw [Fits]
    omega
  have ht : Fits (j.addTexts us).writeIdx t := by
    rw [Fits, List.length_append, ← Nat.add_assoc] at hf
    rwa [Fits, addTexts_writeIdx, fitted_of_fits hus]
  rw [str_addTexts h (fun u hu => hts u (List.mem_append_left _ hu))
    (hts t (List.mem_append_right _ (List.mem_singleton_self t))), fitted_of_fits hus,
    take_of_fits ht]

/-- If the last text fits, and none is longer, then all of them fit. -/
theorem fits_flatten_iff {i : Nat} {ts : List (List UInt8)} {t : List UInt8}
    (hle : ∀ u ∈ ts, u.length ≤ t.length) :
    Fits (i + (fitted i ts).flatten.length) t ↔ Fits i (ts ++ [t]).flatten := by
  constructor
  · intro h
    have hall : fitted i ts = ts := by
      induction ts generalizing i with
      | nil => rfl
      | cons u ts ih =>
        rw [List.forall_mem_cons] at hle
        rw [fitted] at h ⊢
        split_ifs at h ⊢ with hu
        · rw [List.flatten_cons, List.length_append, ← Nat.add_assoc] at h
          rw [ih hle.2 h]
        · -- a text that does not fit leaves no room for a longer one
          refine absurd ?_ hu
          rw [Fits] at h ⊢
          omega
    rw [hall] at h
    rwa [List.flatten_append, List.flatten_singleton, Fits, List.length_append, ← Nat.add_assoc]
  · intro h
    have hts : Fits i ts.flatten := by
      rw [List.flatten_append, Fits, List.length_append] at h
      rw [Fits]
      omega
    rw [fitted_of_fits hts]
    rwa [List.flatten_append, List.flatten_singleton, Fits, List.length_append, ← Nat.add_assoc] at h

/-! ## Responses -/

/-- The lines of a head. -/
def headLines (status : Int) (title : List UInt8) (contentLen : Int) (linger : Bool) :
    List (List UInt8) :=
  [statusLine status title, contentLengthLine contentLen, connectionLine linger]

/-- The texts of a head, the last one being the empty line. -/
def headTexts (status : Int) (title : List UInt8) (contentLen : Int) (linger : Bool) :
    List (List UInt8) :=
  (headLines status title contentLen linger).map terminated ++ [terminated []]

theorem flatten_headTexts (status : Int) (title : List UInt8) (contentLen : Int) (linger : Bool) :
    (headTexts status title contentLen linger).flatten =
      (headLines status title contentLen linger).flatMap terminated ++ terminated [] := by
  rw [headTexts, List.flatten_append, List.flatten_singleton, List.flatMap_def]

/-- The status, the title and the form of the codes that stand for an error. -/
def errorForm : HttpCode → Option (Int × List UInt8 × List UInt8)
  | .internalError => some (500, error500Title, error500Form)
  | .badRequest => some (400, error400Title, error400Form)
  | .noResource => some (404, error404Title, error404Form)
  | .forbiddenRequest => some (403, error403Title, error403Form)
  | _ => none

/-- The texts `process_write` adds. -/
def responseTexts (j : CJob) (ret : HttpCode) : List (List UInt8) :=
  match errorForm ret with
  | some (status, title, form) => headTexts status title form.length j.linger ++ [form]
  | none =>
    if ret = .fileRequest then
      if j.fileStat.size ≠ 0 then headTexts 200 ok200Title (toInt32 j.fileStat.size) j.linger
      else headTexts 200 ok200Title okString.length j.linger ++ [okString]
    else []

/-- `m_linger` is the same when the line that shows it is added. -/
theorem addTexts_linger (ts : List (List UInt8)) : (j.addTexts ts).linger = j.linger := by
  rw [addTexts_eq]

theorem addHead_eq (status : Int) (title : List UInt8) (contentLen : Int) :
    (j.addStatusLine status title).2.addHeaders contentLen =
      j.addTexts (headTexts status title contentLen j.linger) := by
  have hlinger : ((j.addStatusLine status title).2.addContentLength contentLen).2.linger = j.linger :=
    addTexts_linger [terminated (statusLine status title), terminated (contentLengthLine contentLen)]
  rw [addHeaders, addLinger, hlinger]
  rfl

theorem addForm_eq (status : Int) (title form : List UInt8) :
    j.addForm status title form =
      (decide (Fits (j.addTexts (headTexts status title form.length j.linger)).writeIdx form),
        j.addTexts (headTexts status title form.length j.linger ++ [form])) := by
  rw [addForm, addHead_eq, addContent, addTexts_append, ← addResponse_fst, addTexts_cons,
    addTexts_nil]

/-- The texts of the errors: the forms are long and the status lines are not, and none has
    a NUL or a CR. -/
theorem errorForm_bounds {ret : HttpCode} {status : Int} {title form : List UInt8}
    (he : errorForm ret = some (status, title, form)) :
    (statusLine status title).length ≤ 34 ∧ (36 ≤ form.length ∧ form.length < 100) ∧
      (∀ b ∈ title, b ≠ 0 ∧ b ≠ cr ∧ b ≠ lf) ∧ ∀ b ∈ form, b ≠ 0 ∧ b ≠ cr := by
  cases ret <;> cases he <;> decide +kernel

/-- The texts of the heads of the errors are no longer than their forms. -/
theorem headTexts_length_le {ret : HttpCode} {status : Int} {title form : List UInt8}
    (he : errorForm ret = some (status, title, form)) (linger : Bool) :
    ∀ u ∈ headTexts status title form.length linger, u.length ≤ form.length := by
  obtain ⟨hstatus, ⟨hlong, hshort⟩, -⟩ := errorForm_bounds he
  have hlen : (decimal form.length).length ≤ 11 := length_decimal_le (by omega) (by omega)
  have hascii : (ascii "Content-Length: ").length = 16 := by decide
  have hconn : (terminated (connectionLine linger)).length ≤ 36 := by cases linger <;> decide
  have hend : (terminated []).length ≤ 36 := by decide
  intro u hu
  simp only [headTexts, headLines, List.map_cons, List.map_nil, List.cons_append, List.nil_append,
    List.mem_cons, List.not_mem_nil, or_false] at hu
  rcases hu with rfl | rfl | rfl | rfl
  · rw [terminated, List.length_append]
    exact (Nat.add_le_add_right hstatus 2).trans hlong
  · rw [terminated, contentLengthLine, List.length_append, List.length_append, hascii]
    exact (Nat.add_le_add_right (Nat.add_le_add_left hlen 16) 2).trans ((by decide : 29 ≤ 36).trans hlong)
  · exact hconn.trans hlong
  · exact hend.trans hlong

theorem processWrite_form {ret : HttpCode} {status : Int} {title form : List UInt8}
    (he : errorForm ret = some (status, title, form)) :
    j.processWrite ret = j.addForm status title form := by
  cases ret <;> cases he <;> rw [processWrite]

theorem processWrite_file :
    j.processWrite .fileRequest =
      if j.fileStat.size ≠ 0 then
        (true, j.addTexts (headTexts 200 ok200Title (toInt32 j.fileStat.size) j.linger))
      else (false, j.addTexts (headTexts 200 ok200Title okString.length j.linger ++ [okString])) := by
  -- the size is looked at after the status line, which does not change it
  have hsize : (j.addStatusLine 200 ok200Title).2.fileStat = j.fileStat := by
    rw [addStatusLine, addResponse_eq]
  rw [processWrite]
  simp only [hsize]
  rw [addHead_eq, addHead_eq, addContent, addTexts_append]
  rfl

theorem processWrite_other {ret : HttpCode} (he : errorForm ret = none) (hf : ret ≠ .fileRequest) :
    j.processWrite ret = (false, j) := by
  cases ret with
  | fileRequest => exact absurd rfl hf
  | internalError | badRequest | noResource | forbiddenRequest => cases he
  | _ => rfl

/-- `process_write` adds its texts to the buffer. -/
theorem processWrite_snd (ret : HttpCode) :
    (j.processWrite ret).2 = j.addTexts (j.responseTexts ret) := by
  rw [responseTexts]
  cases he : errorForm ret with
  | some e => rw [processWrite_form he, addForm_eq]
  | none =>
    simp only
    split_ifs with hf h0
    · rw [hf, processWrite_file, if_pos h0]
    · rw [hf, processWrite_file, if_neg h0]
    · rw [processWrite_other he hf, addTexts_nil]

/-- The answer keeps the connection: the file is not empty, or it is an error and the
    response fits in the buffer. -/
def Keeps (j : CJob) (ret : HttpCode) : Prop :=
  (ret = .fileRequest ∧ j.fileStat.size ≠ 0) ∨
    ((errorForm ret).isSome ∧ Fits j.writeIdx (j.responseTexts ret).flatten)

instance (j : CJob) (ret : HttpCode) : Decidable (j.Keeps ret) :=
  inferInstanceAs (Decidable (_ ∨ _))

theorem processWrite_fst (ret : HttpCode) : (j.processWrite ret).1 = true ↔ j.Keeps ret := by
  rw [Keeps]
  cases he : errorForm ret with
  | some e =>
    obtain ⟨status, title, form⟩ := e
    have hret : ret ≠ .fileRequest := by
      rintro rfl
      cases he
    rw [processWrite_form he, addForm_eq, decide_eq_true_iff, addTexts_writeIdx,
      fits_flatten_iff (headTexts_length_le he _), responseTexts, he]
    simp [hret]
  | none =>
    by_cases hf : ret = .fileRequest
    · rw [hf, processWrite_file]
      split_ifs with h0 <;> simp [h0]
    · rw [processWrite_other he hf]
      simp [hf]

/-! ## The lines of a head -/

/-- A line of printable text: it has no NUL, no CR and no LF. -/
def Plain (x : List UInt8) : Prop := ∀ b ∈ x, b ≠ 0 ∧ b ≠ cr ∧ b ≠ lf

instance (x : List UInt8) : Decidable (Plain x) := List.decidableBAll _ x

theorem Plain.append {x y : List UInt8} (hx : Plain x) (hy : Plain y) : Plain (x ++ y) :=
  List.forall_mem_append.2 ⟨hx, hy⟩

theorem Plain.clean {x : List UInt8} (h : Plain x) : Clean x := fun b hb => (h b hb).2

theorem plain_decimal (x : Int) : Plain (decimal x) := fun _ hb =>
  ⟨ne_of_mem_decimal hb (by decide) (by decide), ne_of_mem_decimal hb (by decide) (by decide),
    ne_of_mem_decimal hb (by decide) (by decide)⟩

/-- The lines of a head are plain, and none is empty. -/
theorem plain_headLines {title : List UInt8} (ht : Plain title) (status contentLen : Int)
    (linger : Bool) : ∀ x ∈ headLines status title contentLen linger, Plain x ∧ x ≠ [] := by
  have hconn : Plain (connectionLine linger) := by cases linger <;> decide
  have hascii : Plain (ascii "HTTP/1.1 ") ∧ Plain (ascii " ") ∧ Plain (ascii "Content-Length: ") := by
    decide
  intro x hx
  simp only [headLines, List.mem_cons, List.not_mem_nil, or_false] at hx
  rcases hx with rfl | rfl | rfl
  · exact ⟨((hascii.1.append (plain_decimal _)).append hascii.2.1).append ht,
      List.append_ne_nil_of_left_ne_nil (List.append_ne_nil_of_left_ne_nil
        (List.append_ne_nil_of_left_ne_nil (by decide) _) _) _⟩
  · exact ⟨hascii.2.2.append (plain_decimal _), List.append_ne_nil_of_left_ne_nil (by decide) _⟩
  · exact ⟨hconn, List.append_ne_nil_of_left_ne_nil (by decide) _⟩

/-- The texts of a head have no NUL. -/
theorem headTexts_ne_zero {title : List UInt8} (ht : Plain title) (status contentLen : Int)
    (linger : Bool) : ∀ u ∈ headTexts status title contentLen linger, ∀ b ∈ u, b ≠ 0 := by
  have hcrlf : ∀ b ∈ [cr, lf], b ≠ 0 := by decide
  intro u hu
  rw [headTexts, List.mem_append, List.mem_map, List.mem_singleton] at hu
  rcases hu with ⟨x, hx, rfl⟩ | rfl
  · exact List.forall_mem_append.2
      ⟨fun b hb => ((plain_headLines ht status contentLen linger x hx).1 b hb).1, hcrlf⟩
  · exact hcrlf

/-- The head of a file is short. -/
theorem length_headTexts_le (size : Int) (linger : Bool) :
    (headTexts 200 ok200Title (toInt32 size) linger).flatten.length ≤ 72 := by
  have hlen : (decimal (toInt32 size)).length ≤ 11 :=
    length_decimal_le (toInt32_bounds size).1 (toInt32_bounds size).2
  have hstatus : (terminated (statusLine 200 ok200Title)).length = 17 := by decide
  have hconn : (terminated (connectionLine linger)).length ≤ 24 := by cases linger <;> decide
  have hascii : (ascii "Content-Length: ").length = 16 := by decide
  simp only [headTexts, headLines, List.map_cons, List.map_nil, List.cons_append, List.nil_append,
    List.flatten_cons, List.flatten_nil, List.length_append, List.length_nil, hstatus]
  simp only [terminated, contentLengthLine, List.length_append, List.length_cons, List.length_nil,
    hascii] at hconn ⊢
  omega

/-- The texts of every response have no NUL. -/
theorem responseTexts_ne_zero (j : CJob) (ret : HttpCode) :
    ∀ u ∈ j.responseTexts ret, ∀ b ∈ u, b ≠ 0 := by
  have hok : Plain ok200Title ∧ ∀ b ∈ okString, b ≠ 0 := by decide
  rw [responseTexts]
  cases he : errorForm ret with
  | some e =>
    obtain ⟨-, -, htitle, hf⟩ := errorForm_bounds he
    exact List.forall_mem_append.2 ⟨headTexts_ne_zero htitle _ _ _,
      List.forall_mem_singleton.2 fun b hb => (hf b hb).1⟩
  | none =>
    simp only
    split_ifs
    · exact headTexts_ne_zero hok.1 _ _ _
    · exact List.forall_mem_append.2
        ⟨headTexts_ne_zero hok.1 _ _ _, List.forall_mem_singleton.2 hok.2⟩
    · simp

end CJob

end VsHttpServer
