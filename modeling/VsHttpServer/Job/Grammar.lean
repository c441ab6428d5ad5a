import VsHttpServer.Job.Text

/-!
# The grammar of the request line

A request line is a method, a target and a version, with blanks between them
(`RequestWords`). `parse_request_line` accepts these lines and no others, however the
blanks are chosen, and takes the method and the path of the target from them.

* `requestLine_text`: what it does on a line of the grammar;
* `exists_words`: a line that it accepts is one of the grammar;
* `parseRequestLine_accepts_iff`: the two together, at any place of the buffer.
-/

namespace VsHttpServer

open CString

/-- The texts are equal ignoring case. -/
def EqIgnoreCase (s t : List UInt8) : Prop := s.map tolower = t.map tolower

/-- The name of a method in a request line. -/
def Method.name : Method → List UInt8
  | .get => ascii "GET"
  | .post => ascii "POST"
  | .head => ascii "HEAD"
  | .put => ascii "PUT"
  | .delete => ascii "DELETE"
  | .trace => ascii "TRACE"
  | .options => ascii "OPTIONS"
  | .connect => ascii "CONNECT"
  | .patch => ascii "PATCH"

/-- The code of a request with a method. -/
def Method.code : Method → HttpCode
  | .get => .getRequest
  | .post => .postRequest
  | .head => .headRequest
  | .put => .putRequest
  | .delete => .deleteRequest
  | .trace => .traceRequest
  | .options => .optionsRequest
  | .connect => .connectRequest
  | .patch => .patchRequest

/-- A run of spaces and tabs, not empty. -/
def Gap (w : List UInt8) : Prop := w ≠ [] ∧ ∀ b ∈ w, b ∈ blanks

/-- A target, and its path: the target itself, or what follows the host in the absolute
    form, from the first slash after `http://` on. -/
inductive Target : List UInt8 → List UInt8 → Prop
  | origin (rest : List UInt8) : Target (47 :: rest) (47 :: rest)
  | absolute {scheme host : List UInt8} (hs : EqIgnoreCase scheme (ascii "http://"))
      (hh : 47 ∉ host) (rest : List UInt8) : Target (scheme ++ (host ++ 47 :: rest)) (47 :: rest)

/-- A line cut into its words and the gaps between them. -/
structure RequestWords where
  method : List UInt8
  gap : List UInt8
  target : List UInt8
  gap' : List UInt8
  version : List UInt8

namespace RequestWords

variable (w : RequestWords)

/-- The line. -/
def text : List UInt8 := w.method ++ w.gap ++ w.target ++ w.gap' ++ w.version

/-- The words are those of a request for the path `path` with the method `m`. -/
structure Requests (m : Method) (path : List UInt8) : Prop where
  method : EqIgnoreCase w.method m.name
  gap : Gap w.gap
  target_ne_nil : w.target ≠ []
  target : ∀ b ∈ w.target, b ∉ blanks
  gap' : Gap w.gap'
  version : EqIgnoreCase w.version (ascii "HTTP/1.1")
  path : Target w.target path

end RequestWords

/-! ## Methods -/

theorem EqIgnoreCase.length_eq {s t : List UInt8} (h : EqIgnoreCase s t) : s.length = t.length := by
  simpa using congrArg List.length h

theorem EqIgnoreCase.not_mem {s t : List UInt8} (h : EqIgnoreCase s t) {p : UInt8 → Prop}
    (hp : ∀ b, p b → tolower b = b) (ht : ∀ b ∈ t, ¬p (tolower b)) : ∀ b ∈ s, ¬p b := by
  intro b hb hpb
  have hmem : tolower b ∈ t.map tolower := by
    rw [← show s.map tolower = t.map tolower from h]
    exact List.mem_map_of_mem hb
  obtain ⟨c, hc, he⟩ := List.mem_map.1 hmem
  refine ht c hc ?_
  rwa [he, hp b hpb]

/-- NUL and the blanks are not changed by `tolower`, and occur in no name. -/
theorem EqIgnoreCase.word {s t : List UInt8} (h : EqIgnoreCase s t)
    (ht : ∀ b ∈ t, tolower b ≠ 0 ∧ tolower b ∉ blanks) : Word s := by
  have hlow : ∀ b, b = 0 ∨ b ∈ blanks → tolower b = b := by
    rintro b (rfl | hb)
    · rfl
    · revert b
      decide
  intro b hb
  have := h.not_mem hlow (fun c hc => by simpa [not_or] using ht c hc) b hb
  rwa [not_or] at this

theorem Method.word {m : Method} {s : List UInt8} (h : EqIgnoreCase s m.name) : Word s := by
  refine h.word ?_
  cases m <;> decide

namespace CJob

theorem mem_methods (m : Method) : (m.name, m, m.code) ∈ methods := by
  cases m <;> decide

/-- The names that `parse_request_line` compares with are those of the methods. -/
theorem methodOf_eq_some_iff {s : List UInt8} (hs : cstr s = s) {r : Method × HttpCode} :
    methodOf s = some r ↔ EqIgnoreCase s r.1.name ∧ r.2 = r.1.code := by
  have hname : ∀ x ∈ methods, cstr x.1 = x.1 ∧ x = (x.2.1.name, x.2.1, x.2.1.code) := by decide
  have hcmp : ∀ x ∈ methods, strcasecmp s x.1 = 0 ↔ EqIgnoreCase s x.1 := by
    intro x hx
    rw [strcasecmp_eq_zero, hs, (hname x hx).1]
    rfl
  rw [methodOf, Option.map_eq_some_iff]
  constructor
  · rintro ⟨x, hx, rfl⟩
    have hmem := List.mem_of_find?_eq_some hx
    have heq := (hcmp x hmem).1 (by simpa using List.find?_some hx)
    rw [(hname x hmem).2] at heq ⊢
    exact ⟨heq, rfl⟩
  · obtain ⟨m, code⟩ := r
    rintro ⟨heq, rfl : code = m.code⟩
    obtain ⟨x, hx⟩ : ∃ x, methods.find? (fun y => strcasecmp s y.1 = 0) = some x := by
      refine Option.isSome_iff_exists.1 (List.find?_isSome.2 ⟨_, mem_methods m, ?_⟩)
      exact decide_eq_true ((hcmp _ (mem_methods m)).2 heq)
    have hmem := List.mem_of_find?_eq_some hx
    have hxs := (hcmp x hmem).1 (by simpa using List.find?_some hx)
    -- no two names are equal ignoring case
    have hinj : ∀ x ∈ methods, ∀ y ∈ methods, EqIgnoreCase x.1 y.1 → x = y := by
      unfold EqIgnoreCase
      decide
    have hxm := hinj x hmem _ (mem_methods m) (hxs.symm.trans heq)
    exact ⟨x, hx, by rw [hxm]⟩

end CJob

/-! ## Targets -/

/-- The path of a target of either form. -/
theorem Target.pathStart_eq {u path : List UInt8} (h : Target u path) (hu : cstr u = u) :
    ∃ p, pathStart u = some p ∧ u.drop p = path ∧ u.getD p 0 = 47 := by
  cases h with
  | origin rest =>
    refine ⟨0, ?_, rfl, rfl⟩
    have hhead : (47 :: rest).headD 0 = 47 := rfl
    rw [pathStart, if_neg]
    rw [strncasecmp, hhead, if_pos (by decide)]
    decide
  | @absolute scheme host hs hh rest =>
    have hlen : scheme.length = 7 := hs.length_eq
    have hhost : ∀ b ∈ host, b ≠ 0 ∧ b ≠ 47 := by
      refine fun b hb => ⟨fun h0 => zero_not_mem_cstr (scheme ++ (host ++ 47 :: rest)) ?_,
        ne_of_mem_of_not_mem hb hh⟩
      rw [hu, ← h0]
      exact List.mem_append_right _ (List.mem_append_left _ hb)
    have hscheme : strncasecmp (scheme ++ (host ++ 47 :: rest)) (ascii "http://") 7 = 0 := by
      rw [strncasecmp_eq_zero, hu, List.take_left' hlen, hs]
      decide
    refine ⟨7 + host.length, ?_, ?_, ?_⟩
    · rw [pathStart, if_pos hscheme, List.drop_left' hlen, strchr_append hhost (by decide)]
      rfl
    · rw [← List.drop_drop, List.drop_left' hlen, List.drop_left' rfl]
    · rw [List.getD_append_right _ _ _ _ (by omega), List.getD_append_right _ _ _ _ (by omega),
        show 7 + host.length - scheme.length - host.length = 0 by omega]
      rfl

theorem Target.isSuffix {u path : List UInt8} (h : Target u path) : path <:+ u := by
  cases h with
  | origin rest => exact List.suffix_rfl
  | absolute hs hh rest =>
    exact (List.suffix_append _ _).trans (List.suffix_append _ _)

theorem Target.ne_nil {u path : List UInt8} (h : Target u path) : path ≠ [] := by
  cases h with
  | origin rest => exact List.cons_ne_nil _ _
  | absolute hs hh rest => exact List.cons_ne_nil _ _

/-- The path is what is left of the target from its start on. -/
theorem Target.pathStart_length {u path : List UInt8} (h : Target u path) (hu : cstr u = u) :
    pathStart u = some (u.length - path.length) ∧ u.getD (u.length - path.length) 0 = 47 := by
  obtain ⟨p, hstart, hrest, hslash⟩ := h.pathStart_eq hu
  have hp : u.length - path.length = p := by
    have hlt : p < u.length := by
      by_contra hge
      rw [List.getD_eq_default _ _ (not_lt.1 hge)] at hslash
      exact absurd hslash (by decide)
    rw [← hrest, List.length_drop]
    omega
  rw [hp]
  exact ⟨hstart, hslash⟩

/-- A target in which `parse_request_line` finds a path. -/
theorem target_of_pathStart {u : List UInt8} (hu : cstr u = u) {p : Nat} (h : pathStart u = some p)
    (hp : u.getD p 0 = 47) : Target u (u.drop p) := by
  rw [pathStart] at h
  split_ifs at h with h7
  · obtain ⟨q, hq, rfl⟩ := Option.map_eq_some_iff.1 h
    obtain ⟨hhost, hslash⟩ := strchr_spec hq
    have hdrop : cstr (u.drop 7) = u.drop 7 := by
      rw [cstr_drop (CJob.length_of_strncasecmp (by decide) h7), hu]
    rw [hdrop] at hhost hslash
    rw [strncasecmp_eq_zero, hu] at h7
    have hs : EqIgnoreCase (u.take 7) (ascii "http://") := h7
    have := Target.absolute hs hhost ((u.drop 7).drop (q + 1))
    rwa [← hslash, List.take_append_drop, List.take_append_drop, List.drop_drop] at this
  · cases h
    cases u with
    | nil => exact absurd hp (by decide)
    | cons a rest =>
      obtain rfl : a = 47 := hp
      exact .origin rest

/-! ## Lines -/

theorem strspn_word {s : List UInt8} (hs : Word s) (hne : s ≠ []) (t : List UInt8) :
    strspn (s ++ t) blanks = 0 := by
  cases s with
  | nil => exact absurd rfl hne
  | cons a s => exact strspn_eq_zero (hs a List.mem_cons_self).2 _

/-- A word ends at the gap after it. -/
theorem strpbrk_gap {s g : List UInt8} (hs : Word s) (hg : Gap g) (t : List UInt8) :
    strpbrk (s ++ (g ++ t)) blanks = some s.length := by
  obtain ⟨a, g, rfl⟩ := List.exists_cons_of_ne_nil hg.1
  have ha : a ∈ blanks := hg.2 a List.mem_cons_self
  rw [List.cons_append]
  exact strpbrk_append hs ha (ne_of_mem_of_not_mem ha (by decide)) (g ++ t)

/-- Past the first byte of a gap, `strspn` skips the rest of it. -/
theorem add_strspn_gap {g s : List UInt8} (hg : Gap g) (hs : Word s) (hne : s ≠ []) (x t : List UInt8) :
    x.length + 1 + strspn ((x ++ (g ++ (s ++ t))).drop (x.length + 1)) blanks =
      x.length + g.length := by
  obtain ⟨a, g, rfl⟩ := List.exists_cons_of_ne_nil hg.1
  have hdrop : (x ++ (a :: g ++ (s ++ t))).drop (x.length + 1) = g ++ (s ++ t) := by
    rw [← List.drop_drop, List.drop_left' rfl]
    rfl
  have hrest : ∀ c ∈ g, c ≠ 0 ∧ c ∈ blanks := fun c hc =>
    have hmem := hg.2 c (List.mem_cons_of_mem _ hc)
    ⟨ne_of_mem_of_not_mem hmem (by decide), hmem⟩
  rw [hdrop, strspn_append hrest, strspn_word hs hne, List.length_cons]
  omega

namespace RequestWords

variable {w : RequestWords} {m : Method} {path : List UInt8}

theorem Requests.word_version (h : w.Requests m path) : Word w.version :=
  h.version.word (by decide)

theorem Requests.word_target (h : w.Requests m path) (hw : 0 ∉ w.text) : Word w.target := by
  simp only [text, List.mem_append, not_or] at hw
  exact fun c hc => ⟨ne_of_mem_of_not_mem hc hw.1.1.2, h.target c hc⟩

theorem Requests.methodOf_method (h : w.Requests m path) :
    CJob.methodOf w.method = some (m, m.code) :=
  (CJob.methodOf_eq_some_iff (cstr_eq_self fun h0 => (Method.word h.method 0 h0).1 rfl)).2
    ⟨h.method, rfl⟩

theorem Requests.strcasecmp_version (h : w.Requests m path) :
    strcasecmp w.version (ascii "HTTP/1.1") = 0 := by
  rw [strcasecmp_eq_zero, cstr_eq_self fun h0 => (h.word_version 0 h0).1 rfl, h.version]
  decide

theorem Requests.version_ne_nil (h : w.Requests m path) : w.version ≠ [] := by
  intro hnil
  have hlen := h.version.length_eq
  rw [hnil] at hlen
  exact absurd hlen (by decide)

/-- What `parse_request_line` does on a line of the grammar. -/
theorem requestLine_text (h : w.Requests m path) (hw : 0 ∉ w.text) :
    requestLine w.text =
      { code := m.code
        nuls := [w.method.length, w.method.length + w.gap.length + w.target.length]
        method := some (m, m.code)
        url := some (w.method.length + w.gap.length + (w.target.length - path.length))
        version := some (some
          (w.method.length + w.gap.length + w.target.length + w.gap'.length)) } := by
  have htarget := h.word_target hw
  obtain ⟨M, hM⟩ : ∃ M, w.method.length = M := ⟨_, rfl⟩
  obtain ⟨u, hu⟩ : ∃ u, M + w.gap.length = u := ⟨_, rfl⟩
  obtain ⟨v, hv⟩ : ∃ v, u + w.target.length + w.gap'.length = v := ⟨_, rfl⟩
  -- the line, cut after the method, before the target and after it
  have hline : w.text = w.method ++ (w.gap ++ (w.target ++ (w.gap' ++ w.version))) := by
    simp [text]
  have hline' : w.text = (w.method ++ w.gap) ++ (w.target ++ (w.gap' ++ w.version)) := by
    simp [text]
  have hline'' : w.text =
      (w.method ++ w.gap ++ w.target) ++ (w.gap' ++ (w.version ++ [])) := by
    simp [text]
  have hcut : w.text.take M = w.method := by rw [hline, List.take_left' hM]
  have hdrop : w.text.drop u = w.target ++ (w.gap' ++ w.version) := by
    rw [hline', List.drop_left' (by rw [List.length_append, hM, hu])]
  have hlast : w.text.drop v = w.version := by
    rw [text, List.drop_left']
    rw [List.length_append, List.length_append, List.length_append, hM, hu, hv]
  have hstart : M + 1 + strspn (w.text.drop (M + 1)) blanks = u := by
    rw [hline, ← hu, ← hM]
    exact add_strspn_gap h.gap htarget h.target_ne_nil _ _
  have hend : u + w.target.length + 1 + strspn (w.text.drop (u + w.target.length + 1)) blanks = v := by
    have := add_strspn_gap h.gap' h.word_version h.version_ne_nil (w.method ++ w.gap ++ w.target) []
    rwa [← hline'', List.length_append, List.length_append, hM, hu, hv] at this
  obtain ⟨hpath, hslash⟩ := h.path.pathStart_length (cstr_eq_self fun h0 => (htarget 0 h0).1 rfl)
  rw [requestLine, hline, strpbrk_gap (Method.word h.method) h.gap, ← hline, hM]
  simp only [hcut, h.methodOf_method, hstart, hdrop, strpbrk_gap htarget h.gap', hend, hlast,
    h.strcasecmp_version, ne_eq, not_true_eq_false, if_false, List.take_left' rfl, hpath, hslash, hu, hv]

/-- A blank and those that are skipped after it. -/
theorem gap_take {t : List UInt8} (ht : 0 ∉ t) {k : Nat} (hk : k < t.length)
    (hblank : t.getD k 0 ∈ blanks) :
    Gap ((t.drop k).take (strspn (t.drop (k + 1)) blanks + 1)) := by
  have hcstr : cstr (t.drop (k + 1)) = t.drop (k + 1) :=
    cstr_eq_self fun h => ht (List.mem_of_mem_drop h)
  rw [List.getD_eq_getElem _ _ hk] at hblank
  rw [List.drop_eq_getElem_cons hk, List.take_succ_cons]
  refine ⟨List.cons_ne_nil _ _, fun b hb => ?_⟩
  rcases List.mem_cons.1 hb with rfl | hb
  · exact hblank
  · rw [← hcstr] at hb
    exact mem_of_mem_take_strspn (by rwa [strspn_cstr] at hb)

/-- A text cut at two places. -/
theorem take_drop_append_drop (t : List UInt8) {i j : Nat} (h : i ≤ j) :
    (t.drop i).take (j - i) ++ t.drop j = t.drop i := by
  obtain ⟨d, rfl⟩ := Nat.exists_eq_add_of_le h
  rw [Nat.add_sub_cancel_left, ← List.drop_drop, List.take_append_drop]

/-- What `parse_request_line` finds in a line that it accepts. -/
theorem found_of_accepted {t : List UInt8} (hacc : (requestLine t).code ≠ .badRequest) :
    ∃ k r u l v p, strpbrk t blanks = some k ∧ CJob.methodOf (t.take k) = some r ∧
      k + 1 + strspn (t.drop (k + 1)) blanks = u ∧ strpbrk (t.drop u) blanks = some l ∧
      u + l + 1 + strspn (t.drop (u + l + 1)) blanks = v ∧
      strcasecmp (t.drop v) (ascii "HTTP/1.1") = 0 ∧
      pathStart ((t.drop u).take l) = some p ∧ ((t.drop u).take l).getD p 0 = 47 := by
  rw [requestLine] at hacc
  cases hk : strpbrk t blanks with
  | none => simp [hk] at hacc
  | some k =>
    simp only [hk] at hacc
    cases hm : CJob.methodOf (t.take k) with
    | none => simp [hm] at hacc
    | some r =>
      simp only [hm] at hacc
      obtain ⟨u, hu⟩ : ∃ u, k + 1 + strspn (t.drop (k + 1)) blanks = u := ⟨_, rfl⟩
      rw [hu] at hacc
      cases hl : strpbrk (t.drop u) blanks with
      | none => simp [hl] at hacc
      | some l =>
        simp only [hl] at hacc
        split_ifs at hacc with hver
        · exact absurd rfl hacc
        · cases hp : pathStart ((t.drop u).take l) with
          | none => simp [hp] at hacc
          | some p =>
            simp only [hp] at hacc
            split_ifs at hacc with hslash
            · exact absurd rfl hacc
            · exact ⟨k, r, u, l, _, p, rfl, hm, hu, hl, rfl, not_not.1 hver, hp, not_not.1 hslash⟩

/-- A line that `parse_request_line` accepts is a line of the grammar. -/
theorem exists_words {t : List UInt8} (ht : 0 ∉ t) (hacc : (requestLine t).code ≠ .badRequest) :
    ∃ w : RequestWords, w.text = t ∧ ∃ m path, w.Requests m path := by
  obtain ⟨k, r, u, l, v, p, hk, hm, hu, hl, hv, hver, hp, hslash⟩ := found_of_accepted hacc
  have hcdrop : ∀ i, cstr (t.drop i) = t.drop i := fun i =>
    cstr_eq_self fun h => ht (List.mem_of_mem_drop h)
  have hctake : ∀ i j, cstr ((t.drop i).take j) = (t.drop i).take j := fun i j =>
    cstr_eq_self fun h => ht (List.mem_of_mem_drop (List.mem_of_mem_take h))
  have hkt := lt_of_strpbrk hk
  have hlt := add_lt_of_strpbrk_drop hl
  obtain ⟨-, hblank⟩ := strpbrk_spec hk
  obtain ⟨htarget, hblank'⟩ := strpbrk_spec hl
  rw [cstr_eq_self ht] at hkt hblank
  rw [hcdrop] at htarget hblank'
  rw [show (t.drop u).getD l 0 = t.getD (u + l) 0 by simp] at hblank'
  have hul : u + l - u = l := Nat.add_sub_cancel_left u l
  let w : RequestWords :=
    ⟨t.take k, (t.drop k).take (u - k), (t.drop u).take l, (t.drop (u + l)).take (v - (u + l)),
      t.drop v⟩
  refine ⟨w, ?_, r.1, ((t.drop u).take l).drop p, ?_, ?_, ?_, htarget, ?_, ?_, ?_⟩
  · have hcut := take_drop_append_drop t (i := u) (j := u + l) (by omega)
    rw [hul] at hcut
    simp only [w, text, List.append_assoc]
    rw [take_drop_append_drop t (by omega), hcut, take_drop_append_drop t (by omega),
      List.take_append_drop]
  · exact ((CJob.methodOf_eq_some_iff (hctake 0 k)).1 hm).1
  · have hgap : u - k = strspn (t.drop (k + 1)) blanks + 1 := by omega
    simp only [w, hgap]
    exact gap_take ht hkt hblank
  · rintro (hnil : (t.drop u).take l = [])
    rw [hnil, List.getD_nil] at hslash
    exact absurd hslash (by decide)
  · have hgap : v - (u + l) = strspn (t.drop (u + l + 1)) blanks + 1 := by omega
    simp only [w, hgap]
    exact gap_take ht hlt hblank'
  · rw [strcasecmp_eq_zero, hcdrop] at hver
    exact hver
  · exact target_of_pathStart (hctake u l) hp hslash

/-- The path is the part of the line from where `m_url` is left to the second store. -/
theorem Requests.take_drop_text (h : w.Requests m path) :
    (w.text.drop (w.method.length + w.gap.length + (w.target.length - path.length))).take
      path.length = path := by
  have hsuffix := List.suffix_iff_eq_drop.1 h.path.isSuffix
  have hle := h.path.isSuffix.length_le
  have hline : w.text = w.method ++ w.gap ++ (w.target ++ (w.gap' ++ w.version)) := by
    simp [text]
  rw [hline, ← List.drop_drop, List.drop_left' List.length_append,
    List.drop_append_of_le_length (Nat.sub_le _ _), ← hsuffix, List.take_left' rfl]

end RequestWords

/-- A request line with an absolute path, and one blank in each gap. -/
def plainWords (m path : List UInt8) : RequestWords := ⟨m, [32], 47 :: path, [32], ascii "HTTP/1.1"⟩

theorem text_plainWords (m path : List UInt8) :
    (plainWords m path).text = m ++ 32 :: (47 :: path ++ 32 :: ascii "HTTP/1.1") := by
  simp [plainWords, RequestWords.text]

theorem requests_plainWords {m path : List UInt8} {method : Method} (hm : EqIgnoreCase m method.name)
    (hpath : Word (47 :: path)) : (plainWords m path).Requests method (47 :: path) :=
  have hgap : Gap [32] := ⟨List.cons_ne_nil _ _, by decide⟩
  ⟨hm, hgap, List.cons_ne_nil _ _, fun b hb => (hpath b hb).2, hgap, rfl, .origin path⟩

theorem zero_not_mem_plainWords {m path : List UInt8} (hm : Word m) (hpath : Word (47 :: path)) :
    0 ∉ (plainWords m path).text := by
  rw [text_plainWords, List.mem_append, List.mem_cons, List.mem_append]
  rintro (h | h | h | h)
  · exact (hm 0 h).1 rfl
  · exact absurd h (by decide)
  · exact (hpath 0 h).1 rfl
  · revert h
    decide

/-- What `parse_request_line` does on such a line. -/
theorem requestLine_words {m path : List UInt8} {r : Method × HttpCode} (hm : Word m)
    (hr : CJob.methodOf m = some r) (hpath : Word (47 :: path)) :
    requestLine (m ++ 32 :: (47 :: path ++ 32 :: ascii "HTTP/1.1")) =
      { code := r.2
        nuls := [m.length, m.length + 1 + (path.length + 1)]
        method := some r
        url := some (m.length + 1)
        version := some (some (m.length + 1 + (path.length + 1) + 1)) } := by
  obtain ⟨method, code⟩ := r
  obtain ⟨hname, rfl : code = method.code⟩ :=
    (CJob.methodOf_eq_some_iff (cstr_eq_self fun h => (hm 0 h).1 rfl)).1 hr
  rw [← text_plainWords, RequestWords.requestLine_text (requests_plainWords hname hpath)
    (zero_not_mem_plainWords hm hpath)]
  simp [plainWords, Nat.add_assoc]

namespace CJob

/-- The text at `m_url`, between the two stores of `parse_request_line`. -/
theorem urlText_applyRequestLine {j : CJob} {text k l u : Nat} {r : RequestLine}
    (hnuls : r.nuls = [k, l]) (hurl : r.url = some u) (hku : k < u) (hul : u ≤ l)
    (hl : l < (j.readBuf.str text).length) :
    (j.applyRequestLine text r).urlText = some (((j.readBuf.str text).drop u).take (l - u)) := by
  have hstr : (j.readBuf.str text).drop u = cstr (j.readBuf.mem (text + u)) := by
    rw [CharArray.str] at hl ⊢
    rw [CharArray.mem_add, cstr_drop (by omega)]
  have hlen : l - u < (cstr (j.readBuf.mem (text + u))).length := by
    rw [← hstr, List.length_drop]
    omega
  rw [urlText, applyRequestLine, hurl, hnuls]
  simp only [Option.map_some, CharArray.storeNuls, List.foldl_cons, List.foldl_nil]
  rw [CharArray.str, show text + l = text + u + (l - u) by omega, CharArray.mem_store_add,
    CharArray.mem_store_of_lt (by omega), cstr_set_zero hlen, hstr]

/-- `parse_request_line` on a text, anywhere in the buffer: it does not return
    `BAD_REQUEST` if and only if the text is a method, a target and the version `HTTP/1.1`
    with blanks between them. However the text is cut into these, the method, the code
    returned and the path at `m_url` are those of the cut, and the headers come next. A text
    that is not accepted leaves `m_check_state` as it is. -/
theorem parseRequestLine_accepts_iff (j : CJob) (text : Nat) :
    ((j.parseRequestLine text).1 ≠ .badRequest ↔
      ∃ w : RequestWords, w.text = j.readBuf.str text ∧ ∃ m path, w.Requests m path) ∧
    (∀ (w : RequestWords) (m : Method) (path : List UInt8), w.text = j.readBuf.str text →
      w.Requests m path →
        (j.parseRequestLine text).1 = m.code ∧
        (j.parseRequestLine text).2.request = m.code ∧
        (j.parseRequestLine text).2.method = m ∧
        (j.parseRequestLine text).2.urlText = some path ∧
        (j.parseRequestLine text).2.checkState = .header) ∧
    ((j.parseRequestLine text).1 = .badRequest →
      (j.parseRequestLine text).2.checkState = j.checkState) := by
  have h0 : 0 ∉ j.readBuf.str text := zero_not_mem_cstr _
  have hcode : ∀ m : Method, m.code ≠ .badRequest := by
    intro m
    cases m <;> decide
  rw [parseRequestLine_eq]
  refine ⟨⟨fun hacc => ?_, ?_⟩, fun w m path hw h => ?_, fun hbad => ?_⟩
  · exact RequestWords.exists_words h0 hacc
  · rintro ⟨w, hw, m, path, h⟩
    rw [← hw, RequestWords.requestLine_text h (hw ▸ h0)]
    exact hcode m
  · have hline := RequestWords.requestLine_text h (hw ▸ h0)
    rw [hw] at hline
    have hle := h.path.isSuffix.length_le
    have hpos := List.length_pos_of_ne_nil h.path.ne_nil
    have hgap := List.length_pos_of_ne_nil h.gap.1
    have hgap' := List.length_pos_of_ne_nil h.gap'.1
    have hlen : w.method.length + w.gap.length + w.target.length < (j.readBuf.str text).length := by
      rw [← hw, RequestWords.text]
      simp only [List.length_append]
      omega
    have hurl := urlText_applyRequestLine (r := requestLine (j.readBuf.str text))
      (congrArg RequestLine.nuls hline) (congrArg RequestLine.url hline) (by omega) (by omega) hlen
    rw [show w.method.length + w.gap.length + w.target.length -
      (w.method.length + w.gap.length + (w.target.length - path.length)) = path.length by omega,
      ← hw, h.take_drop_text, hw] at hurl
    refine ⟨congrArg RequestLine.code hline, ?_, ?_, hurl, ?_⟩
    · simp [applyRequestLine, hline]
    · simp [applyRequestLine, hline]
    · simp [applyRequestLine, hline, hcode m]
  · simp only at hbad
    simp [applyRequestLine, hbad]

/-- A GET in the absolute form, with more blanks than one. -/
theorem parseRequestLine_accepts_absolute :
    ((default : CJob).holding (ascii "get \t http://h:80/a  http/1.1")).parseRequestLine 0 |>.2.urlText =
      some (ascii "/a") :=
  ((parseRequestLine_accepts_iff _ 0).2.1
    ⟨ascii "get", ascii " \t ", ascii "http://h:80/a", ascii "  ", ascii "http/1.1"⟩ .get (ascii "/a")
    (by decide +kernel)
    ⟨by unfold EqIgnoreCase; decide, ⟨by decide, by decide⟩, by decide, by decide,
      ⟨by decide, by decide⟩, by unfold EqIgnoreCase; decide,
      @Target.absolute (ascii "http://") (ascii "h:80") rfl (by decide) (ascii "a")⟩).2.2.2.1

end CJob

end VsHttpServer
