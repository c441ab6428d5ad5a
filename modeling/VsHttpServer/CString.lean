import Mathlib.Algebra.Group.Int.Defs
import Mathlib.Data.List.GetD
import Mathlib.Data.List.TakeWhile
import Mathlib.Tactic.Common

/-!
# C strings in byte memory

Memory, from a pointer on, is the list of its bytes. The functions of the C
library on strings look at such a list up to its first NUL (`cstr`); the end of
the memory reads as a NUL. They are functions of that text only
(`strpbrk_cstr`, `strspn_cstr`, ...), so they may be applied to the text as well
as to the memory it is found in.

* `strcasecmp_eq_zero`: the comparison ignoring case, as an equation of texts;
* `CharArray`: a `char` array of a fixed size, with its stores and copies;
* `cstr_set_zero`: overwriting a byte of a text with NUL cuts it there.
-/

namespace CString

/-- What holds of the bytes of a text is decided on the text, not on all 256 bytes. -/
instance (priority := high) decidableForallMem (P : UInt8 → Prop) [DecidablePred P]
    (l : List UInt8) : Decidable (∀ b ∈ l, P b) :=
  List.decidableBAll P l

/-- The bytes of an ASCII string literal. -/
def ascii (s : String) : List UInt8 := s.toList.map fun c => c.toNat.toUInt8

/-- The C string at the start of the memory `s`: its bytes up to the first NUL. -/
def cstr (s : List UInt8) : List UInt8 := s.takeWhile (· ≠ 0)

/-- `tolower`, in the C locale. -/
def tolower (c : UInt8) : UInt8 := if 65 ≤ c ∧ c ≤ 90 then c + 32 else c

/-- `strpbrk`: where the first byte of the string in `accept` is. -/
def strpbrk (s accept : List UInt8) : Option Nat := (cstr s).findIdx? (· ∈ accept)

/-- `strspn`: the length of the longest prefix of the string with bytes in `accept`. -/
def strspn (s accept : List UInt8) : Nat := ((cstr s).takeWhile (· ∈ accept)).length

/-- `strchr`, for a byte other than NUL. -/
def strchr (s : List UInt8) (c : UInt8) : Option Nat := (cstr s).findIdx? (· = c)

/-- `strncasecmp`: the difference of the first bytes that differ, ignoring case,
    among the first `n` bytes of the strings. -/
def strncasecmp (s t : List UInt8) : Nat → Int
  | 0 => 0
  | n + 1 =>
    if tolower (s.headD 0) ≠ tolower (t.headD 0) then
      (tolower (s.headD 0)).toNat - (tolower (t.headD 0)).toNat
    else if s.headD 0 = 0 then 0
    else strncasecmp s.tail t.tail n

/-- `strcasecmp`: the comparison goes on to the NUL of `s`, at the end of its
    memory at the latest. -/
def strcasecmp (s t : List UInt8) : Int := strncasecmp s t (s.length + 1)

/-- `isspace`, in the C locale. -/
def isspace (c : UInt8) : Bool := c = 32 ∨ 9 ≤ c ∧ c ≤ 13

/-- `isdigit`. -/
def isdigit (c : UInt8) : Bool := 48 ≤ c ∧ c ≤ 57

/-- The value of the decimal digits `l`. -/
def digitsValue (l : List UInt8) : Nat :=
  l.foldl (fun n c => 10 * n + (c.toNat - 48)) 0

/-- `atol`: leading white space, an optional sign and digits, clamped to the
    range of a 64-bit `long`. -/
def atol (s : List UInt8) : Int :=
  match (cstr s).dropWhile isspace with
  | [] => 0
  | c :: l =>
    if c = 45 then max (-2 ^ 63) (-(digitsValue (l.takeWhile isdigit) : Int))
    else if c = 43 then min (2 ^ 63 - 1) (digitsValue (l.takeWhile isdigit) : Int)
    else min (2 ^ 63 - 1) (digitsValue ((c :: l).takeWhile isdigit) : Int)

/-- The conversion to a 32-bit `int`. -/
def toInt32 (x : Int) : Int := (x + 2 ^ 31) % 2 ^ 32 - 2 ^ 31

/-- The values of a 32-bit `int`. -/
def IsInt32 (x : Int) : Prop := -2 ^ 31 ≤ x ∧ x < 2 ^ 31

/-- The conversion to a 32-bit `unsigned int`. -/
def toUInt32 (x : Int) : Int := x % 2 ^ 32

/-- The conversion to a 64-bit `size_t`. -/
def toSizeT (x : Int) : Int := x % 2 ^ 64

theorem toInt32_bounds (x : Int) : -2 ^ 31 ≤ toInt32 x ∧ toInt32 x < 2 ^ 31 := by
  rw [toInt32]
  omega

theorem toInt32_of_isInt32 {x : Int} (h : IsInt32 x) : toInt32 x = x := by
  rw [IsInt32] at h
  rw [toInt32]
  omega

/-! ## Texts -/

@[simp] theorem cstr_nil : cstr [] = [] := rfl

theorem cstr_cons (a : UInt8) (s : List UInt8) :
    cstr (a :: s) = if a = 0 then [] else a :: cstr s := by
  by_cases h : a = 0 <;> simp [cstr, h]

@[simp] theorem cstr_cstr (s : List UInt8) : cstr (cstr s) = cstr s :=
  List.takeWhile_idem

/-- A text is its own C string when it has no NUL. -/
theorem cstr_eq_self {s : List UInt8} (h : 0 ∉ s) : cstr s = s := by
  refine List.takeWhile_eq_self_iff.2 fun c hc => ?_
  simpa using ne_of_mem_of_not_mem hc h

/-- The C string of a memory starting with a text and a NUL. -/
theorem cstr_append_zero {s : List UInt8} (t : List UInt8) :
    cstr (s ++ 0 :: t) = cstr s := by
  induction s with
  | nil => simp [cstr_cons]
  | cons a s ih => simp only [List.cons_append, cstr_cons, ih]

theorem zero_not_mem_cstr (s : List UInt8) : 0 ∉ cstr s := fun h => by
  simpa using List.mem_takeWhile_imp h

theorem cstr_append {s : List UInt8} (hs : ∀ b ∈ s, b ≠ 0) (t : List UInt8) :
    cstr (s ++ t) = s ++ cstr t := by
  rw [cstr, List.takeWhile_append_of_pos fun b hb => by simpa using hs b hb, cstr]

theorem cstr_isPrefix (s : List UInt8) : cstr s <+: s := List.takeWhile_prefix _

theorem cstr_length_le (s : List UInt8) : (cstr s).length ≤ s.length :=
  (cstr_isPrefix s).length_le

/-- Overwriting a byte of a text with NUL cuts the text there. -/
theorem cstr_set_zero {s : List UInt8} {k : Nat} (hk : k < (cstr s).length) :
    cstr (s.set k 0) = (cstr s).take k := by
  induction s generalizing k with
  | nil => simp at hk
  | cons a s ih =>
    rw [cstr_cons] at hk ⊢
    split_ifs at hk ⊢ with ha
    · simp at hk
    · cases k with
      | zero => simp [cstr_cons]
      | succ k =>
        rw [List.set_cons_succ, cstr_cons, if_neg ha, ih (by simpa using hk), List.take_succ_cons]

/-- The text further in a memory is the rest of its text. -/
theorem cstr_drop {s : List UInt8} {k : Nat} (hk : k ≤ (cstr s).length) :
    cstr (s.drop k) = (cstr s).drop k := by
  induction s generalizing k with
  | nil => simp
  | cons a s ih =>
    cases k with
    | zero => simp
    | succ k =>
      rw [cstr_cons] at hk ⊢
      split_ifs at hk ⊢ with ha
      · simp at hk
      · rw [List.drop_succ_cons, List.drop_succ_cons, ih (by simpa using hk)]

/-! ## The library functions read the text only -/

@[simp] theorem strpbrk_cstr (s accept : List UInt8) : strpbrk (cstr s) accept = strpbrk s accept := by
  rw [strpbrk, strpbrk, cstr_cstr]

@[simp] theorem strspn_cstr (s accept : List UInt8) : strspn (cstr s) accept = strspn s accept := by
  rw [strspn, strspn, cstr_cstr]

@[simp] theorem strchr_cstr (s : List UInt8) (c : UInt8) : strchr (cstr s) c = strchr s c := by
  rw [strchr, strchr, cstr_cstr]

@[simp] theorem atol_cstr (s : List UInt8) : atol (cstr s) = atol s := by
  rw [atol, atol, cstr_cstr]

theorem lt_of_strpbrk {s accept : List UInt8} {k : Nat} (h : strpbrk s accept = some k) :
    k < (cstr s).length :=
  (List.findIdx?_eq_some_iff_getElem.1 h).1

theorem strspn_le (s accept : List UInt8) : strspn s accept ≤ (cstr s).length :=
  (List.takeWhile_prefix _).length_le

/-- What is found from an index of a text on is in the text. -/
theorem add_lt_of_strpbrk_drop {s accept : List UInt8} {i k : Nat}
    (h : strpbrk (s.drop i) accept = some k) : i + k < s.length := by
  have hk := (lt_of_strpbrk h).trans_le (cstr_length_le _)
  rw [List.length_drop] at hk
  omega

/-- What is skipped from an index of a text on ends in the text. -/
theorem add_strspn_drop_le {s : List UInt8} {i : Nat} (hi : i ≤ s.length) (accept : List UInt8) :
    i + strspn (s.drop i) accept ≤ s.length := by
  have hk := (strspn_le (s.drop i) accept).trans (cstr_length_le _)
  rw [List.length_drop] at hk
  omega

/-- The first byte in `accept` comes after those that are not. -/
theorem strpbrk_append {s accept : List UInt8} (hs : ∀ b ∈ s, b ≠ 0 ∧ b ∉ accept) {a : UInt8}
    (ha : a ∈ accept) (h0 : a ≠ 0) (t : List UInt8) :
    strpbrk (s ++ a :: t) accept = some s.length := by
  rw [strpbrk, cstr_append fun b hb => (hs b hb).1, cstr_cons, if_neg h0, List.findIdx?_append,
    List.findIdx?_eq_none_iff.2 fun b hb => by simpa using (hs b hb).2]
  simp [List.findIdx?_cons, ha]

/-- What is found has no byte in `accept` before it, and is one. -/
theorem strpbrk_spec {s accept : List UInt8} {k : Nat} (h : strpbrk s accept = some k) :
    (∀ b ∈ (cstr s).take k, b ∉ accept) ∧ (cstr s).getD k 0 ∈ accept := by
  obtain ⟨hk, hmem, hbefore⟩ := List.findIdx?_eq_some_iff_getElem.1 h
  refine ⟨fun b hb => ?_, ?_⟩
  · obtain ⟨i, hi, rfl⟩ := List.mem_take_iff_getElem.1 hb
    simpa using hbefore i (by omega)
  · rw [List.getD_eq_getElem _ _ hk]
    simpa using hmem

/-- What is skipped is in `accept`. -/
theorem mem_of_mem_take_strspn {s accept : List UInt8} {b : UInt8}
    (hb : b ∈ (cstr s).take (strspn s accept)) : b ∈ accept := by
  have htake : (cstr s).take (strspn s accept) = (cstr s).takeWhile (· ∈ accept) :=
    (List.prefix_iff_eq_take.1 (List.takeWhile_prefix _)).symm
  rw [htake] at hb
  simpa using List.mem_takeWhile_imp hb

/-- The bytes in `accept` are skipped, and then those of the rest. -/
theorem strspn_append {s accept : List UInt8} (hs : ∀ b ∈ s, b ≠ 0 ∧ b ∈ accept) (t : List UInt8) :
    strspn (s ++ t) accept = s.length + strspn t accept := by
  rw [strspn, cstr_append fun b hb => (hs b hb).1,
    List.takeWhile_append_of_pos fun b hb => by simpa using (hs b hb).2, List.length_append, strspn]

theorem strspn_eq_zero {a : UInt8} {accept : List UInt8} (ha : a ∉ accept) (s : List UInt8) :
    strspn (a :: s) accept = 0 := by
  rw [strspn, cstr_cons]
  split_ifs
  · rfl
  · rw [List.takeWhile_cons_of_neg (by simpa using ha)]
    rfl

/-- The first `c` comes after the bytes that are not. -/
theorem strchr_append {s : List UInt8} {c : UInt8} (hs : ∀ b ∈ s, b ≠ 0 ∧ b ≠ c) (hc : c ≠ 0)
    (t : List UInt8) : strchr (s ++ c :: t) c = some s.length := by
  rw [strchr, cstr_append fun b hb => (hs b hb).1, cstr_cons, if_neg hc, List.findIdx?_append,
    List.findIdx?_eq_none_iff.2 fun b hb => by simpa using (hs b hb).2]
  simp [List.findIdx?_cons]

/-- What is found is `c`, and comes after bytes that are not. -/
theorem strchr_spec {s : List UInt8} {c : UInt8} {k : Nat} (h : strchr s c = some k) :
    c ∉ (cstr s).take k ∧ (cstr s).drop k = c :: (cstr s).drop (k + 1) := by
  obtain ⟨hk, heq, hbefore⟩ := List.findIdx?_eq_some_iff_getElem.1 h
  refine ⟨fun hb => ?_, ?_⟩
  · obtain ⟨i, hi, he⟩ := List.mem_take_iff_getElem.1 hb
    simpa [he] using hbefore i (by omega)
  · rw [List.drop_eq_getElem_cons hk]
    exact congrArg (· :: _) (by simpa using heq)

theorem lt_of_strchr {s : List UInt8} {c : UInt8} {k : Nat} (h : strchr s c = some k) :
    k < (cstr s).length :=
  (List.findIdx?_eq_some_iff_getElem.1 h).1

/-- Reading a byte of the text, or the NUL that ends it. -/
theorem getD_cstr {s : List UInt8} {k : Nat} (hk : k ≤ (cstr s).length) :
    (cstr s).getD k 0 = s.getD k 0 := by
  induction s generalizing k with
  | nil => rfl
  | cons a s ih =>
    rw [cstr_cons] at hk ⊢
    split_ifs at hk ⊢ with ha
    · simp_all
    · cases k with
      | zero => rfl
      | succ k =>
        rw [List.getD_cons_succ, List.getD_cons_succ, ih (by simpa using hk)]

/-! ## Comparisons ignoring case -/

theorem tolower_eq_zero (c : UInt8) : tolower c = 0 ↔ c = 0 := by
  rw [tolower]
  split_ifs with h
  · have h65 : 65 ≤ c.toNat := UInt8.le_iff_toNat_le.1 h.1
    have h90 : c.toNat ≤ 90 := UInt8.le_iff_toNat_le.1 h.2
    have hc : (c + 32).toNat = c.toNat + 32 := by
      rw [UInt8.toNat_add, show (32 : UInt8).toNat = 32 from rfl, Nat.mod_eq_of_lt (by omega)]
    rw [← UInt8.toNat_inj, ← UInt8.toNat_inj, hc]
    exact iff_of_false (by simp) (by simp only [UInt8.toNat_zero]; omega)
  · rfl

theorem toNat_sub_eq_zero {a b : UInt8} : (a.toNat : Int) - b.toNat = 0 ↔ a = b := by
  rw [← UInt8.toNat_inj]
  omega

theorem cstr_eq (s : List UInt8) :
    cstr s = if s.headD 0 = 0 then [] else s.headD 0 :: cstr s.tail := by
  cases s with
  | nil => rfl
  | cons a s => simp [cstr_cons]

/-- The first `n` bytes are equal ignoring case iff the lower-case texts are,
    cut at `n`. -/
theorem strncasecmp_eq_zero {s t : List UInt8} {n : Nat} :
    strncasecmp s t n = 0 ↔ ((cstr s).take n).map tolower = ((cstr t).take n).map tolower := by
  induction n generalizing s t with
  | zero => simp [strncasecmp]
  | succ n ih =>
    rw [strncasecmp, cstr_eq s, cstr_eq t]
    by_cases hst : tolower (s.headD 0) = tolower (t.headD 0)
    · -- the heads agree: either both strings end here, or the tails decide
      rw [if_neg (not_not.2 hst)]
      by_cases hs : s.headD 0 = 0
      · have ht : t.headD 0 = 0 := by rwa [← tolower_eq_zero, ← hst, tolower_eq_zero]
        rw [if_pos hs, if_pos hs, if_pos ht]
        simp
      · have ht : t.headD 0 ≠ 0 := by rwa [Ne, ← tolower_eq_zero, ← hst, tolower_eq_zero]
        rw [if_neg hs, if_neg hs, if_neg ht, ih]
        simp [-List.headD_eq_head?_getD, hst]
    · rw [if_pos hst, toNat_sub_eq_zero]
      refine iff_of_false hst fun h => hst ?_
      split_ifs at h with hs ht ht
      · rw [hs, ht]
      · simp at h
      · simp at h
      · simp only [List.take_succ_cons, List.map_cons, List.cons.injEq] at h
        exact h.1

/-- Two strings are equal ignoring case iff their lower-case texts are. -/
theorem strcasecmp_eq_zero {s t : List UInt8} :
    strcasecmp s t = 0 ↔ (cstr s).map tolower = (cstr t).map tolower := by
  have hs : (cstr s).take (s.length + 1) = cstr s :=
    List.take_of_length_le ((cstr_length_le s).trans (Nat.le_succ _))
  rw [strcasecmp, strncasecmp_eq_zero, hs]
  constructor
  · intro h
    -- the text of `s` is shorter than the bound, so the cut of `t` is all of it
    have hl := congrArg List.length h
    have := cstr_length_le s
    rw [List.length_map, List.length_map, List.length_take] at hl
    rwa [List.take_of_length_le (by omega)] at h
  · intro h
    have hl := congrArg List.length h
    have := cstr_length_le s
    rw [List.length_map, List.length_map] at hl
    rwa [List.take_of_length_le (by omega)]

theorem strncasecmp_cstr_eq_zero {s t : List UInt8} {n : Nat} :
    strncasecmp (cstr s) t n = 0 ↔ strncasecmp s t n = 0 := by
  rw [strncasecmp_eq_zero, strncasecmp_eq_zero, cstr_cstr]

theorem strcasecmp_cstr_eq_zero {s t : List UInt8} :
    strcasecmp (cstr s) t = 0 ↔ strcasecmp s t = 0 := by
  rw [strcasecmp_eq_zero, strcasecmp_eq_zero, cstr_cstr]

/-! ## Arrays -/

/-- A `char` array of `n` bytes. -/
@[ext] structure CharArray (n : Nat) where
  bytes : List UInt8
  length_bytes : bytes.length = n

namespace CharArray

variable {n : Nat} (a : CharArray n)

attribute [simp] length_bytes

/-- All bytes NUL, as `memset` leaves the array. -/
def zero (n : Nat) : CharArray n := ⟨List.replicate n 0, List.length_replicate⟩

instance : Inhabited (CharArray n) := ⟨zero n⟩

/-- The byte at index `i`. -/
def get (i : Nat) : UInt8 := a.bytes.getD i 0

/-- The store `a[i] = b`, with no effect on the array when `i` is not an index of it. -/
def store (i : Nat) (b : UInt8) : CharArray n := ⟨a.bytes.set i b, by simp⟩

/-- `memcpy` to `a + o`; what falls beyond the end of the array is not kept. -/
def copy (o : Nat) (src : List UInt8) : CharArray n :=
  ⟨(a.bytes.take o ++ src ++ a.bytes.drop (o + src.length)).take n, by simp; omega⟩

/-- The memory from `a + o` on. -/
def mem (o : Nat) : List UInt8 := a.bytes.drop o

/-- The C string at `a + o`. -/
def str (o : Nat) : List UInt8 := cstr (a.mem o)

variable {a}

theorem mem_add (o k : Nat) : a.mem (o + k) = (a.mem o).drop k := by
  rw [mem, mem, List.drop_drop]

theorem get_add (o k : Nat) : a.get (o + k) = (a.mem o).getD k 0 := by
  simp [get, mem]

/-- A store at or after `a + o` is one to the memory from there on. -/
theorem mem_store_add (o k : Nat) (b : UInt8) :
    (a.store (o + k) b).mem o = (a.mem o).set k b := by
  rw [mem, mem, store, List.drop_set, if_neg (by omega), Nat.add_sub_cancel_left]

/-- A store before `a + o` does not change the memory from there on. -/
theorem mem_store_of_lt {i o : Nat} (h : i < o) (b : UInt8) :
    (a.store i b).mem o = a.mem o :=
  List.drop_set_of_lt h

theorem get_store (i k : Nat) (b : UInt8) :
    (a.store i b).get k = if i = k ∧ i < n then b else a.get k := by
  simp only [get, store, List.getD_eq_getElem?_getD, List.getElem?_set, a.length_bytes]
  by_cases hik : i = k
  · subst hik
    by_cases hi : i < n <;> simp [hi]
  · simp [hik]

theorem get_store_of_ne {i k : Nat} (h : i ≠ k) (b : UInt8) : (a.store i b).get k = a.get k := by
  rw [get_store, if_neg fun h' => h h'.1]

theorem mem_eq_cons {o : Nat} (h : o < n) : a.mem o = a.get o :: a.mem (o + 1) := by
  rw [mem, mem, List.drop_eq_getElem_cons (by simpa using h), get,
    List.getD_eq_getElem _ _ (by simpa using h)]

theorem length_mem (o : Nat) : (a.mem o).length = n - o := by
  simp [mem]

/-- The memory from `a + o` on, up to index `r`, split at the index `i`. -/
theorem take_mem_split {o i r : Nat} (hoi : o ≤ i) (hir : i ≤ r) :
    (a.mem o).take (r - o) = (a.mem o).take (i - o) ++ (a.mem i).take (r - i) := by
  obtain ⟨k, rfl⟩ := Nat.exists_eq_add_of_le hoi
  rw [mem_add, show r - o = k + (r - (o + k)) by omega, List.take_add, Nat.add_sub_cancel_left]

/-- A property of the bytes of a stretch of the array. -/
theorem forall_mem_take {p : UInt8 → Prop} {o i : Nat}
    (h : ∀ k, o ≤ k → k < i → p (a.get k)) : ∀ b ∈ (a.mem o).take (i - o), p b := by
  intro b hb
  obtain ⟨k, hk, rfl⟩ := List.mem_take_iff_getElem.1 hb
  have hget : (a.mem o)[k] = a.get (o + k) := by
    rw [get_add, List.getD_eq_getElem]
  rw [hget]
  exact h _ (Nat.le_add_right _ _) (by omega)

/-- A string ends at a NUL, or before it. -/
theorem length_str_le {o z : Nat} (hoz : o ≤ z) (hz : a.get z = 0) : (a.str o).length ≤ z - o := by
  by_contra hlt
  obtain ⟨k, rfl⟩ := Nat.exists_eq_add_of_le hoz
  rw [Nat.add_sub_cancel_left, not_le] at hlt
  have hk : k < (a.mem o).length := hlt.trans_le (cstr_length_le _)
  have hbyte : (a.str o)[k] = 0 := by
    rw [get_add, List.getD_eq_getElem _ _ hk] at hz
    exact ((cstr_isPrefix (a.mem o)).getElem hlt).trans hz
  exact zero_not_mem_cstr (a.mem o) (hbyte ▸ List.getElem_mem hlt)

/-- Arrays with the same bytes from `o` up to `r`. -/
theorem take_mem_congr {b : CharArray n} {o r : Nat}
    (h : ∀ k, o ≤ k → k < r → a.get k = b.get k) :
    (a.mem o).take (r - o) = (b.mem o).take (r - o) := by
  refine List.ext_getElem (by rw [List.length_take, List.length_take, length_mem, length_mem])
    fun k hk hk' => ?_
  rw [List.length_take, length_mem] at hk
  have := h (o + k) (Nat.le_add_right _ _) (by omega)
  rw [get_add, get_add, List.getD_eq_getElem _ _ (by rw [length_mem]; omega),
    List.getD_eq_getElem _ _ (by rw [length_mem]; omega)] at this
  rw [List.getElem_take, List.getElem_take, this]

/-- A text stands at `a + o`. -/
theorem take_mem_eq_iff {o : Nat} {s : List UInt8} (h : o + s.length ≤ n) :
    (a.mem o).take s.length = s ↔ ∀ k < s.length, a.get (o + k) = s.getD k 0 := by
  have hmem : (a.mem o).length = n - o := length_mem o
  refine ⟨fun he k hk => ?_, fun hget => ?_⟩
  · have hbyte := congrArg (fun t => t[k]?) he
    simp only [List.getElem?_take_of_lt hk] at hbyte
    rw [get_add, List.getD_eq_getElem?_getD, hbyte, List.getD_eq_getElem?_getD]
  · refine List.ext_getElem (by rw [List.length_take]; omega) fun k hk hk' => ?_
    have hbyte := hget k hk'
    rw [get_add, List.getD_eq_getElem _ _ (by omega), List.getD_eq_getElem _ _ hk'] at hbyte
    rw [List.getElem_take, hbyte]

/-- Arrays with the same bytes from `o` on. -/
theorem mem_congr {b : CharArray n} {o : Nat} (h : ∀ k, o ≤ k → a.get k = b.get k) :
    a.mem o = b.mem o := by
  refine List.ext_getElem (by rw [length_mem, length_mem]) fun k hk hk' => ?_
  have := h (o + k) (Nat.le_add_right _ _)
  rwa [get_add, get_add, List.getD_eq_getElem _ _ hk, List.getD_eq_getElem _ _ hk'] at this

theorem get_of_le {k : Nat} (h : n ≤ k) : a.get k = 0 :=
  List.getD_eq_default _ _ (by simpa using h)

theorem get_store_zero (a : CharArray n) (i : Nat) : (a.store i 0).get i = 0 := by
  rw [get_store]
  split_ifs with hi
  · rfl
  · exact get_of_le (not_lt.1 fun hlt => hi ⟨rfl, hlt⟩)

/-- The bytes copied, and those left as they were. -/
theorem get_copy {o k : Nat} {src : List UInt8} (ho : o ≤ n) :
    (a.copy o src).get k =
      if o ≤ k ∧ k < o + src.length ∧ k < n then src.getD (k - o) 0 else a.get k := by
  rcases Nat.lt_or_ge k n with hk | hk
  · simp only [get, copy, List.getD_eq_getElem?_getD, List.getElem?_take, if_pos hk,
      List.append_assoc, List.getElem?_append, List.getElem?_drop, List.length_take, a.length_bytes,
      Nat.min_eq_left ho]
    split_ifs with h1 h2 h3 h3 h3
    · omega
    · rfl
    · rfl
    · omega
    · omega
    · congr 2
      omega
  · rw [get_of_le hk, if_neg (by omega), get_of_le hk]

/-- What was copied can be read back. -/
theorem take_mem_copy {o : Nat} {src : List UInt8} (h : o + src.length ≤ n) :
    ((a.copy o src).mem o).take src.length = src := by
  refine List.ext_getElem (by rw [List.length_take, length_mem]; omega) fun k hk hk' => ?_
  have hget : (a.copy o src).get (o + k) = _ := get_copy (by omega : o ≤ n)
  rw [if_pos ⟨by omega, by omega, by omega⟩, get_add, Nat.add_sub_cancel_left,
    List.getD_eq_getElem _ _ (by rw [length_mem]; omega), List.getD_eq_getElem _ _ hk'] at hget
  rw [List.getElem_take, hget]

@[simp] theorem get_zero (k : Nat) : (zero n).get k = 0 := by
  rw [get, zero, List.getD_eq_getElem?_getD, List.getElem?_replicate]
  split_ifs <;> rfl

theorem ext_get {b : CharArray n} (h : ∀ k, a.get k = b.get k) : a = b :=
  CharArray.ext (mem_congr (o := 0) fun k _ => h k)

/-- A store below what is copied. -/
theorem store_copy {i o : Nat} {b : UInt8} {src : List UInt8} (hi : i < o) (ho : o ≤ n) :
    (a.store i b).copy o src = (a.copy o src).store i b := by
  refine ext_get fun k => ?_
  rw [get_copy ho, get_store, get_store, get_copy ho]
  split_ifs <;> first | rfl | omega

/-- Two copies, one after the other. -/
theorem copy_copy {o : Nat} {x y : List UInt8} (h : o + x.length ≤ n) :
    (a.copy o x).copy (o + x.length) y = a.copy o (x ++ y) := by
  refine ext_get fun k => ?_
  rw [get_copy h, get_copy (by omega), get_copy (by omega), List.length_append]
  split_ifs
  all_goals first
    | omega
    | rfl
    | (rw [List.getD_append_right _ _ _ _ (by omega)]; congr 1; omega)
    | rw [List.getD_append _ _ _ _ (by omega)]

/-- Stores of NULs at the offsets `ks` from `text`. -/
def storeNuls (a : CharArray n) (text : Nat) (ks : List Nat) : CharArray n :=
  ks.foldl (fun b k => b.store (text + k) 0) a

theorem storeNuls_copy {text o : Nat} {ks : List Nat} {src : List UInt8}
    (h : ∀ k ∈ ks, text + k < o) (ho : o ≤ n) :
    (a.storeNuls text ks).copy o src = (a.copy o src).storeNuls text ks := by
  induction ks generalizing a with
  | nil => rfl
  | cons k ks ih =>
    rw [List.forall_mem_cons] at h
    rw [storeNuls, List.foldl_cons, ← storeNuls, ih h.2, store_copy h.1 ho]
    rfl

theorem get_storeNuls {text i : Nat} {ks : List Nat} (h : ∀ k ∈ ks, text + k ≠ i) :
    (a.storeNuls text ks).get i = a.get i := by
  induction ks generalizing a with
  | nil => rfl
  | cons k ks ih =>
    rw [List.forall_mem_cons] at h
    rw [storeNuls, List.foldl_cons, ← storeNuls, ih h.2, get_store_of_ne h.1]

end CharArray

end CString
