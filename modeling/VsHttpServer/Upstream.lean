import VsHttpServer.CString

/-!
# Headers of an upstream response

`mytest_upstream_process_header` of the nginx module copies each header line that
`ngx_http_parse_header_line` delimits into one block of the request's pool: the
name, a NUL, the value, a NUL, and the name in lower case. The NUL after the value
is stored at `h->key.data[h->value.len]`, and not at `h->value.data[h->value.len]`.

What comes from nginx is a parameter: the lines found, the results of
`ngx_list_push`, the blocks of `ngx_pnalloc`, with what they hold, `ngx_tolower`,
and the handlers of the headers.

* `copyHeader_eq`: every store is inside of the block;
* `processHeader_lines`: the loop appends one entry for each line;
* `copied_iff`: the three strings of the entry that is pushed are right if and only if the
  byte after the value was NUL in the new block, and the NUL that is stored falls on a byte
  that is to be NUL;
* `nulsFit_iff_of_nulFree`: for a name and a value without NUL, if and only if that byte was
  NUL and they have the same length.
-/

namespace VsHttpServer

open CString

namespace Upstream

/-- The fields of `ngx_http_request_t` that describe a header line, the pointers as offsets
    in the buffer of the response. -/
structure HeaderLine where
  buffer : List UInt8
  headerNameStart : Nat
  headerNameEnd : Nat
  headerStart : Nat
  headerEnd : Nat
  headerHash : Nat
  lowcaseHeader : List UInt8
  lowcaseIndex : Nat

namespace HeaderLine

variable (l : HeaderLine)

/-- `h->key.len`. -/
def keyLen : Nat := l.headerNameEnd - l.headerNameStart

/-- `h->value.len`. -/
def valueLen : Nat := l.headerEnd - l.headerStart

/-- The name of the header. -/
def name : List UInt8 := (l.buffer.drop l.headerNameStart).take l.keyLen

/-- The value of the header. -/
def value : List UInt8 := (l.buffer.drop l.headerStart).take l.valueLen

/-- The size of the block. -/
def size : Nat := l.keyLen + 1 + l.valueLen + 1 + l.keyLen

/-- `h->value.data`, from `h->key.data` on. -/
def valueData : Nat := l.keyLen + 1

/-- `h->lowcase_key`, from `h->key.data` on. -/
def lowcaseKey : Nat := l.keyLen + 1 + l.valueLen + 1

/-- What `ngx_http_parse_header_line` guarantees where it returns `NGX_OK`: it delimits the
    name and the value in the buffer, and `lowcase_header` has the name in lower case where
    `lowcase_index` is its length. -/
structure Delimited (ngxTolower : UInt8 → UInt8) : Prop where
  name_le : l.headerNameStart ≤ l.headerNameEnd
  name_le_length : l.headerNameEnd ≤ l.buffer.length
  value_le : l.headerStart ≤ l.headerEnd
  value_le_length : l.headerEnd ≤ l.buffer.length
  lowcase : l.lowcaseIndex = l.keyLen →
    l.lowcaseHeader.take l.keyLen = l.name.map ngxTolower

end HeaderLine

/-! ## The block of a header -/

/-- `data[i] = b`, for a pointer `data` to the block; `none` outside of it. -/
def poke {n : Nat} (a : CharArray n) (i : Nat) (b : UInt8) : Option (CharArray n) :=
  if i < n then some (a.store i b) else none

/-- `ngx_memcpy` to the offset `o` of the block; `none` where it goes beyond its end. -/
def memcpy {n : Nat} (a : CharArray n) (o : Nat) (src : List UInt8) : Option (CharArray n) :=
  if o + src.length ≤ n then some (a.copy o src) else none

/-- The stores to the new block of a header line. -/
def copyHeader (ngxTolower : UInt8 → UInt8) (l : HeaderLine) (a : CharArray l.size) :
    Option (CharArray l.size) := do
  let keyLen := l.keyLen
  let valueLen := l.valueLen
  let a ← memcpy a 0 l.name
  let a ← poke a keyLen 0
  let a ← memcpy a l.valueData l.value
  -- `h->key.data[h->value.len] = '\0'`
  let a ← poke a valueLen 0
  if keyLen = l.lowcaseIndex then
    memcpy a l.lowcaseKey (l.lowcaseHeader.take keyLen)
  else
    -- `ngx_strlow`
    memcpy a l.lowcaseKey (((a.mem 0).take keyLen).map ngxTolower)

/-- An entry of `headers_in.headers`, with the memory from each of its pointers to the end of
    what it points into; `[]` for a pointer that is `NULL` or was not set. -/
structure NgxTableElt where
  hash : Nat
  keyLen : Nat
  valueLen : Nat
  key : List UInt8
  value : List UInt8
  lowcaseKey : List UInt8

/-- The entry of a header line, in its block. -/
def HeaderLine.elt (l : HeaderLine) (a : CharArray l.size) : NgxTableElt where
  hash := l.headerHash
  keyLen := l.keyLen
  valueLen := l.valueLen
  key := a.mem 0
  value := a.mem l.valueData
  lowcaseKey := a.mem l.lowcaseKey

/-- The pointers of an entry lead to the three strings, the first two with a NUL after them, and
    none of them goes beyond the end of what it points into. -/
structure Copied (ngxTolower : UInt8 → UInt8) (l : HeaderLine) (e : NgxTableElt) : Prop where
  keyLen : e.keyLen = l.name.length
  valueLen : e.valueLen = l.value.length
  key : e.key.take (e.keyLen + 1) = l.name ++ [0]
  value : e.value.take (e.valueLen + 1) = l.value ++ [0]
  lowcaseKey : e.lowcaseKey.take e.keyLen = l.name.map ngxTolower

variable {ngxTolower : UInt8 → UInt8} {l : HeaderLine} {a b : CharArray l.size}

theorem HeaderLine.Delimited.length_name (h : l.Delimited ngxTolower) : l.name.length = l.keyLen := by
  have := h.name_le
  have := h.name_le_length
  rw [HeaderLine.name, List.length_take, List.length_drop, HeaderLine.keyLen]
  omega

theorem HeaderLine.Delimited.length_value (h : l.Delimited ngxTolower) :
    l.value.length = l.valueLen := by
  have := h.value_le
  have := h.value_le_length
  rw [HeaderLine.value, List.length_take, List.length_drop, HeaderLine.valueLen]
  omega

/-- The block before the name is copied in lower case. -/
def twoStrings (l : HeaderLine) (a : CharArray l.size) : CharArray l.size :=
  (((a.copy 0 l.name).store l.keyLen 0).copy (l.keyLen + 1) l.value).store l.valueLen 0

theorem get_twoStrings (h : l.Delimited ngxTolower) (k : Nat) :
    (twoStrings l a).get k =
      if k = l.valueLen then 0
      else if l.keyLen + 1 ≤ k ∧ k < l.keyLen + 1 + l.valueLen then
        l.value.getD (k - (l.keyLen + 1)) 0
      else if k = l.keyLen then 0
      else if k < l.keyLen then l.name.getD k 0
      else a.get k := by
  have hname := h.length_name
  have hvalue := h.length_value
  have hsize : l.size = l.keyLen + 1 + l.valueLen + 1 + l.keyLen := rfl
  rw [twoStrings, CharArray.get_store, CharArray.get_copy (by omega), CharArray.get_store,
    CharArray.get_copy (by omega), hname, hvalue, Nat.sub_zero]
  split_ifs <;> first | rfl | omega

/-- What is copied as the name in lower case. -/
def lowcaseBytes (ngxTolower : UInt8 → UInt8) (l : HeaderLine) (a : CharArray l.size) : List UInt8 :=
  if l.keyLen = l.lowcaseIndex then l.lowcaseHeader.take l.keyLen
  else (((twoStrings l a).mem 0).take l.keyLen).map ngxTolower

theorem length_lowcaseBytes (h : l.Delimited ngxTolower) :
    (lowcaseBytes ngxTolower l a).length = l.keyLen := by
  rw [lowcaseBytes]
  split_ifs with hidx
  · rw [h.lowcase hidx.symm, List.length_map, h.length_name]
  · have hsize : l.size = l.keyLen + 1 + l.valueLen + 1 + l.keyLen := rfl
    rw [List.length_map, List.length_take, CharArray.length_mem]
    omega

/-- The block when the header line is copied. -/
def copied (ngxTolower : UInt8 → UInt8) (l : HeaderLine) (a : CharArray l.size) : CharArray l.size :=
  (twoStrings l a).copy (l.keyLen + 1 + l.valueLen + 1) (lowcaseBytes ngxTolower l a)

/-- No store is outside of the block. -/
theorem copyHeader_eq (h : l.Delimited ngxTolower) :
    copyHeader ngxTolower l a = some (copied ngxTolower l a) := by
  have hsize : l.size = l.keyLen + 1 + l.valueLen + 1 + l.keyLen := rfl
  have hlow := length_lowcaseBytes (a := a) h
  have hname : 0 + l.name.length ≤ l.size := by
    rw [h.length_name]
    omega
  have hvalue : l.valueData + l.value.length ≤ l.size := by
    rw [HeaderLine.valueData, h.length_value]
    omega
  have hlow' : l.lowcaseKey + (lowcaseBytes ngxTolower l a).length ≤ l.size := by
    rw [HeaderLine.lowcaseKey, hlow, hsize]
  have hkey : l.keyLen < l.size := by omega
  have hval : l.valueLen < l.size := by omega
  simp only [copyHeader, memcpy, poke, if_pos hname, if_pos hvalue, if_pos hkey, if_pos hval,
    Option.bind_eq_bind, Option.bind_some]
  rw [copied]
  rw [lowcaseBytes] at hlow' ⊢
  by_cases hidx : l.keyLen = l.lowcaseIndex
  · rw [if_pos hidx] at hlow'
    rw [if_pos hidx, if_pos hidx, if_pos hlow']
    rfl
  · rw [if_neg hidx] at hlow'
    rw [if_neg hidx, if_neg hidx]
    exact if_pos hlow'

/-- The byte after the value was NUL, and the NUL at `h->key.data[h->value.len]` falls on the
    NUL after the name, or on one in the name or in the value. -/
structure NulsFit (l : HeaderLine) (a : CharArray l.size) : Prop where
  valueEnd : a.get (l.keyLen + 1 + l.valueLen) = 0
  name : l.valueLen < l.keyLen → l.name.getD l.valueLen 0 = 0
  value : l.keyLen < l.valueLen → l.value.getD (l.valueLen - (l.keyLen + 1)) 0 = 0

/-- The name stands at the front of the block. -/
theorem key_iff (h : l.Delimited ngxTolower) :
    ((twoStrings l a).mem 0).take (l.keyLen + 1) = l.name ++ [0] ↔
      (l.valueLen < l.keyLen → l.name.getD l.valueLen 0 = 0) := by
  have hname := h.length_name
  have hsize : l.size = l.keyLen + 1 + l.valueLen + 1 + l.keyLen := rfl
  have hlen : (l.name ++ [0]).length = l.keyLen + 1 := by rw [List.length_append, hname]; rfl
  rw [← hlen, CharArray.take_mem_eq_iff (by omega), hlen]
  simp only [get_twoStrings h, Nat.zero_add]
  refine ⟨fun hget hlt => ?_, fun hfit k hk => ?_⟩
  · have hbyte := hget l.valueLen (by omega)
    rw [if_pos rfl, List.getD_append _ _ _ _ (by omega)] at hbyte
    exact hbyte.symm
  · rcases Nat.lt_or_ge k l.keyLen with hlt | hge
    · rw [List.getD_append _ _ _ _ (by omega)]
      split_ifs with hval
      · rw [hval]
        exact (hfit (hval ▸ hlt)).symm
      all_goals first | omega | rfl
    · rw [List.getD_append_right _ _ _ _ (by omega), hname]
      obtain rfl : k = l.keyLen := by omega
      rw [Nat.sub_self]
      split_ifs <;> first | omega | rfl

/-- The value stands after it. -/
theorem value_iff (h : l.Delimited ngxTolower) :
    ((twoStrings l a).mem (l.keyLen + 1)).take (l.valueLen + 1) = l.value ++ [0] ↔
      a.get (l.keyLen + 1 + l.valueLen) = 0 ∧
        (l.keyLen < l.valueLen → l.value.getD (l.valueLen - (l.keyLen + 1)) 0 = 0) := by
  have hvalue := h.length_value
  have hsize : l.size = l.keyLen + 1 + l.valueLen + 1 + l.keyLen := rfl
  have hlen : (l.value ++ [0]).length = l.valueLen + 1 := by rw [List.length_append, hvalue]; rfl
  rw [← hlen, CharArray.take_mem_eq_iff (by omega), hlen]
  simp only [get_twoStrings h]
  refine ⟨fun hget => ⟨?_, fun hlt => ?_⟩, fun ⟨hend, hfit⟩ k hk => ?_⟩
  · -- no store goes to the byte after the value
    have hbyte := hget l.valueLen (by omega)
    rw [if_neg (by omega), if_neg (by omega), if_neg (by omega), if_neg (by omega),
      List.getD_append_right _ _ _ _ (by omega), hvalue, Nat.sub_self] at hbyte
    exact hbyte
  · have hbyte := hget (l.valueLen - (l.keyLen + 1)) (by omega)
    rw [if_pos (by omega), List.getD_append _ _ _ _ (by omega)] at hbyte
    exact hbyte.symm
  · rcases Nat.lt_or_ge k l.valueLen with hlt | hge
    · rw [List.getD_append _ _ _ _ (by omega)]
      split_ifs with hval
      · rw [show k = l.valueLen - (l.keyLen + 1) by omega]
        exact (hfit (by omega)).symm
      · rw [Nat.add_sub_cancel_left]
      all_goals omega
    · rw [List.getD_append_right _ _ _ _ (by omega), hvalue]
      obtain rfl : k = l.valueLen := by omega
      rw [Nat.sub_self, if_neg (by omega), if_neg (by omega), if_neg (by omega), if_neg (by omega),
        hend]
      rfl

/-- The entry in the block has its three strings if and only if the byte after the value was NUL
    in the new block and the misplaced NUL does no harm. -/
theorem copied_elt_iff (h : l.Delimited ngxTolower) :
    Copied ngxTolower l (l.elt (copied ngxTolower l a)) ↔ NulsFit l a := by
  have hsize : l.size = l.keyLen + 1 + l.valueLen + 1 + l.keyLen := rfl
  have hlow := length_lowcaseBytes (a := a) h
  -- the copy in lower case leaves the two strings before it
  have hbefore : ∀ k < l.keyLen + 1 + l.valueLen + 1,
      (copied ngxTolower l a).get k = (twoStrings l a).get k := fun k hk => by
    rw [copied, CharArray.get_copy (by omega), if_neg (by omega)]
  have hkey := CharArray.take_mem_congr (o := 0) (r := l.keyLen + 1)
    fun k _ hk => hbefore k (by omega)
  have hvalue := CharArray.take_mem_congr (o := l.keyLen + 1) (r := l.keyLen + 1 + (l.valueLen + 1))
    fun k _ hk => hbefore k (by omega)
  rw [Nat.sub_zero] at hkey
  rw [Nat.add_sub_cancel_left] at hvalue
  refine ⟨fun hc => ?_, fun hfit => ?_⟩
  · have hend := (value_iff h).1 (hvalue ▸ hc.value)
    exact ⟨hend.1, (key_iff h).1 (hkey ▸ hc.key), hend.2⟩
  · have hname := (key_iff (a := a) h).2 hfit.name
    refine ⟨h.length_name.symm, h.length_value.symm, hkey.trans hname,
      hvalue.trans ((value_iff h).2 ⟨hfit.valueEnd, hfit.value⟩), ?_⟩
    have hroom : l.keyLen + 1 + l.valueLen + 1 + (lowcaseBytes ngxTolower l a).length ≤ l.size := by
      omega
    have hread := CharArray.take_mem_copy (a := twoStrings l a) hroom
    rw [hlow] at hread
    rw [HeaderLine.elt, HeaderLine.lowcaseKey, copied, hread, lowcaseBytes]
    split_ifs with hidx
    · exact h.lowcase hidx.symm
    · -- the key was read back from the block
      have hkey := congrArg (List.take l.keyLen) hname
      rw [List.take_take, Nat.min_eq_left (Nat.le_succ _),
        List.take_left' h.length_name] at hkey
      rw [hkey]

/-- For a name and a value without NUL, which is what nginx lets through, the lengths must be
    the same. -/
theorem nulsFit_iff_of_nulFree (h : l.Delimited ngxTolower) (hname : 0 ∉ l.name)
    (hvalue : 0 ∉ l.value) :
    NulsFit l a ↔ a.get (l.keyLen + 1 + l.valueLen) = 0 ∧ l.keyLen = l.valueLen := by
  have hbyte : ∀ {s : List UInt8} {k : Nat}, 0 ∉ s → k < s.length → s.getD k 0 ≠ 0 :=
    fun {s k} hs hk he => hs (by
      rw [List.getD_eq_getElem _ _ hk] at he
      exact he ▸ List.getElem_mem hk)
  have hln := h.length_name
  have hlv := h.length_value
  refine ⟨fun hfit => ⟨hfit.valueEnd, ?_⟩, fun ⟨hend, he⟩ => ?_⟩
  · rcases lt_trichotomy l.keyLen l.valueLen with hlt | he | hgt
    · exact absurd (hfit.value hlt) (hbyte hvalue (by omega))
    · exact he
    · exact absurd (hfit.name hgt) (hbyte hname (by omega))
  · exact ⟨hend, fun hlt => absurd he hlt.ne', fun hlt => absurd he hlt.ne⟩

/-! ## The loop over the header lines -/

/-- The entry where `ngx_pnalloc` returns `NULL`. -/
def HeaderLine.eltNull (l : HeaderLine) : NgxTableElt where
  hash := l.headerHash
  keyLen := l.keyLen
  valueLen := l.valueLen
  key := []
  value := []
  lowcaseKey := []

/-- An entry without a value, of a name that is a literal. -/
def eltLiteral (hash : Nat) (name lowcase : String) : NgxTableElt where
  hash := hash
  keyLen := (ascii name).length
  valueLen := 0
  key := ascii name ++ [0]
  value := []
  lowcaseKey := ascii lowcase ++ [0]

/-- The values that `mytest_upstream_process_header` returns. -/
inductive Rc
  | ok
  | error
  | again
  | upstreamInvalidHeader
  deriving DecidableEq

/-- What `ngx_http_parse_header_line` returns. -/
inductive Parsed
  | ok (l : HeaderLine)
  | headerDone
  | again
  | other

/-- What nginx has for one turn of the loop. -/
structure Turn where
  parsed : Parsed
  /-- The first `ngx_list_push` of the turn succeeds. -/
  push : Bool
  pnalloc : (size : Nat) → Option (CharArray size)
  /-- `headers_in.server` is `NULL`. -/
  serverNull : Bool
  /-- `headers_in.date` is `NULL`. -/
  dateNull : Bool
  /-- The `ngx_list_push` for the date succeeds. -/
  pushDate : Bool

/-- What nginx has for all of them. -/
structure Env where
  ngxTolower : UInt8 → UInt8
  /-- `ngx_hash`, folded over a name. -/
  ngxHash : List UInt8 → Nat
  /-- The header has a handler, and that does not return `NGX_OK`. -/
  handlerFails : NgxTableElt → Bool

/-- The end of the headers: the `Server` and the `Date` that the response does not have. -/
def headerDone (env : Env) (t : Turn) (hs : List NgxTableElt) : Rc × List NgxTableElt :=
  if t.serverNull && !t.push then (.error, hs)
  else
    let hs := if t.serverNull then
        hs ++ [eltLiteral (env.ngxHash (ascii "server")) "Server" "server"]
      else hs
    if t.dateNull && !t.pushDate then (.error, hs)
    else
      let hs := if t.dateNull then hs ++ [eltLiteral (env.ngxHash (ascii "date")) "Date" "date"]
        else hs
      (.ok, hs)

/-- `mytest_upstream_process_header`, with `hs` in `headers_in.headers` so far. It has no
    result where it stores outside of a block, or asks for more lines than there are turns. -/
def processHeader (env : Env) : List Turn → List NgxTableElt → Option (Rc × List NgxTableElt)
  | [], _ => none
  | t :: ts, hs =>
    match t.parsed with
    | .ok l =>
      if t.push then
        match t.pnalloc l.size with
        | none => some (.error, hs ++ [l.eltNull])
        | some a =>
          (copyHeader env.ngxTolower l a).bind fun a =>
            if env.handlerFails (l.elt a) then some (.error, hs ++ [l.elt a])
            else processHeader env ts (hs ++ [l.elt a])
      else some (.error, hs)
    | .headerDone => some (headerDone env t hs)
    | .again => some (.again, hs)
    | .other => some (.upstreamInvalidHeader, hs)

/-- A turn with a line that is taken up: `e` is its entry. -/
def Takes (env : Env) (t : Turn) (e : NgxTableElt) : Prop :=
  ∃ l a a', t.parsed = .ok l ∧ t.push = true ∧ t.pnalloc l.size = some a ∧
    copyHeader env.ngxTolower l a = some a' ∧ e = l.elt a' ∧ env.handlerFails e = false

/-- Lines that are taken up leave one entry each, in their order. -/
theorem processHeader_lines {env : Env} {ts : List Turn} {es : List NgxTableElt}
    (h : List.Forall₂ (Takes env) ts es) (rest : List Turn) (hs : List NgxTableElt) :
    processHeader env (ts ++ rest) hs = processHeader env rest (hs ++ es) := by
  induction h generalizing hs with
  | nil => rw [List.nil_append, List.append_nil]
  | @cons t e ts es ht hrest ih =>
    obtain ⟨l, a, a', hparsed, hpush, halloc, hcopy, rfl, hhandler⟩ := ht
    rw [List.cons_append, processHeader, hparsed]
    simp only [hpush, halloc, hcopy, if_true, Option.bind_some, hhandler]
    rw [if_neg (by simp), ih, List.append_assoc]
    rfl

/-! ## The entry of a line -/

/-- `ngx_http_parse_header_line` returns `NGX_OK` for the line `l`, and `a` is what the new block
    holds. -/
structure Turn.Line (t : Turn) (l : HeaderLine) (a : CharArray l.size) : Prop where
  parsed : t.parsed = .ok l
  push : t.push = true
  pnalloc : t.pnalloc l.size = some a

/-- `e` is the entry that the turn `t` pushes, whatever lines were taken up before it and whatever
    comes after it. -/
def Pushes (env : Env) (t : Turn) (e : NgxTableElt) : Prop :=
  ∀ before es, List.Forall₂ (Takes env) before es → ∀ rest hs,
    processHeader env (before ++ t :: rest) hs =
      if env.handlerFails e then some (.error, hs ++ es ++ [e])
      else processHeader env rest (hs ++ es ++ [e])

variable {env : Env} {t : Turn} {e e' : NgxTableElt}

theorem Pushes.unique (h : Pushes env t e) (h' : Pushes env t e') : e = e' := by
  -- the next call of `ngx_http_parse_header_line` finds no whole line
  have hres := h [] [] .nil [{ t with parsed := .again }] []
  rw [h' [] [] .nil] at hres
  simp only [processHeader, List.nil_append] at hres
  split_ifs at hres <;> simp_all

/-- A line is taken up: every store is inside of its block. -/
theorem Turn.Line.pushes (ht : t.Line l a) (hl : l.Delimited env.ngxTolower) :
    Pushes env t (l.elt (copied env.ngxTolower l a)) := by
  intro before es hbefore rest hs
  rw [processHeader_lines hbefore, processHeader, ht.parsed]
  simp only [ht.push, ht.pnalloc, copyHeader_eq hl, if_true, Option.bind_some]

/-- The entry that `mytest_upstream_process_header` pushes for a header line has its three strings,
    in the block, if and only if the byte after the value was NUL in the new block and the
    misplaced NUL does no harm. -/
theorem copied_iff (ht : t.Line l a) (hl : l.Delimited env.ngxTolower) :
    (∃ e, Pushes env t e ∧ Copied env.ngxTolower l e) ↔ NulsFit l a := by
  rw [← copied_elt_iff hl]
  refine ⟨fun ⟨e, he, hc⟩ => ?_, fun hc => ⟨_, ht.pushes hl, hc⟩⟩
  exact he.unique (ht.pushes hl) ▸ hc

/-- Blocks of NULs, and no handlers. -/
def plainEnv : Env := ⟨tolower, fun _ => 0, fun _ => false⟩

def lineTurn (l : HeaderLine) : Turn := ⟨.ok l, true, fun n => some (.zero n), true, true, true⟩

theorem line_lineTurn (l : HeaderLine) : (lineTurn l).Line l (.zero _) := ⟨rfl, rfl, rfl⟩

/-- The header line `Age: 600` of a response. -/
def ageLine : HeaderLine where
  buffer := ascii "Age: 600\r\n"
  headerNameStart := 0
  headerNameEnd := 3
  headerStart := 5
  headerEnd := 8
  headerHash := 96511
  lowcaseHeader := ascii "age"
  lowcaseIndex := 3

theorem delimited_ageLine : ageLine.Delimited tolower := by
  refine ⟨by decide, by decide, by decide, by decide, fun _ => by decide⟩

/-- A value as long as the name, in a block of NULs. -/
theorem copied_ageLine :
    ∃ e, Pushes plainEnv (lineTurn ageLine) e ∧ Copied tolower ageLine e := by
  have hl : ageLine.Delimited plainEnv.ngxTolower := delimited_ageLine
  exact (copied_iff (line_lineTurn ageLine) hl).2 ⟨by decide, by decide, by decide⟩

/-- The header line `Age: 60` of a response. -/
def ageLineShort : HeaderLine :=
  { ageLine with
    buffer := ascii "Age: 60\r\n"
    headerEnd := 7 }

theorem delimited_ageLineShort : ageLineShort.Delimited tolower := by
  refine ⟨by decide, by decide, by decide, by decide, fun _ => by decide⟩

/-- A value shorter than the name: the key of the entry is cut to `Ag`. -/
theorem not_copied_ageLineShort :
    ageLineShort.Delimited tolower ∧
      (∃ e, Pushes plainEnv (lineTurn ageLineShort) e ∧ e.key.take 4 = ascii "Ag" ++ [0, 0]) ∧
      ¬∃ e, Pushes plainEnv (lineTurn ageLineShort) e ∧ Copied tolower ageLineShort e := by
  have hl : ageLineShort.Delimited plainEnv.ngxTolower := delimited_ageLineShort
  have hpushes := (line_lineTurn ageLineShort).pushes hl
  refine ⟨delimited_ageLineShort, ⟨_, hpushes, by decide⟩, fun ⟨e, he, hc⟩ => ?_⟩
  obtain rfl := he.unique hpushes
  exact absurd ((copied_elt_iff delimited_ageLineShort).1 hc).name (by decide)

end Upstream

end VsHttpServer
