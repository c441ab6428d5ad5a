import VsHttpServer.CString
import Mathlib.Data.Nat.Digits.Lemmas

/-!
# Formatted output

What `printf` makes of an integer (`decimal`, for `%d`), and where `vsnprintf`
stores a text. A text that does not fit is cut, and the NUL that ends it is stored
inside the size given.

* `digitsValue_digits`: a number that is printed is read back, so that two numbers
  are printed alike only if they are the same (`decimal_injective`);
* `str_vsnprintf`: the C string that is stored.
-/

namespace CString

/-! ## Numbers -/

/-- The decimal digits of `n`, the most significant first. -/
def digits (n : Nat) : List UInt8 :=
  if n = 0 then [48] else (Nat.digits 10 n).reverse.map fun d => (48 + d).toUInt8

/-- `%d`. -/
def decimal : Int → List UInt8
  | .ofNat n => digits n
  | .negSucc n => 45 :: digits (n + 1)

theorem toNat_digit {d : Nat} (h : d < 10) : (48 + d).toUInt8.toNat = 48 + d := by
  rw [Nat.toUInt8_eq, UInt8.toNat_ofNat']
  exact Nat.mod_eq_of_lt (by omega)

/-- Every byte printed for a number is a digit. -/
theorem isdigit_of_mem_digits {n : Nat} {b : UInt8} (hb : b ∈ digits n) : isdigit b = true := by
  rw [digits] at hb
  split_ifs at hb with h0
  · rw [List.mem_singleton.1 hb]
    decide
  · obtain ⟨d, hd, rfl⟩ := List.mem_map.1 hb
    have hlt : d < 10 := Nat.digits_lt_base (by omega) (List.mem_reverse.1 hd)
    rw [isdigit, decide_eq_true_iff, UInt8.le_iff_toNat_le, UInt8.le_iff_toNat_le, toNat_digit hlt]
    exact ⟨by simp, by simp only [UInt8.reduceToNat]; omega⟩

/-- The number is read back from its digits. -/
theorem digitsValue_digits (n : Nat) : digitsValue (digits n) = n := by
  rw [digits]
  split_ifs with h0
  · rw [h0]
    rfl
  · have hdigits : ∀ l : List Nat, (∀ d ∈ l, d < 10) →
        digitsValue (l.reverse.map fun d => (48 + d).toUInt8) = Nat.ofDigits 10 l := by
      intro l hl
      induction l with
      | nil => rfl
      | cons d l ih =>
        rw [List.forall_mem_cons] at hl
        have hrest := ih hl.2
        rw [digitsValue] at hrest
        rw [List.reverse_cons, List.map_append, digitsValue, List.foldl_append, hrest,
          Nat.ofDigits_cons]
        simp only [List.map_cons, List.map_nil, List.foldl_cons, List.foldl_nil, toNat_digit hl.1]
        omega
    rw [hdigits _ fun d hd => Nat.digits_lt_base (by omega) hd, Nat.ofDigits_digits]

theorem length_digits_le {n k : Nat} (hk : 0 < k) (hn : n < 10 ^ k) : (digits n).length ≤ k := by
  rw [digits]
  split_ifs
  · exact hk
  · rw [List.length_map, List.length_reverse]
    exact (Nat.digits_length_le_iff (by omega) n).2 hn

/-- The bytes printed for a number are digits and the sign. -/
theorem mem_decimal {x : Int} {b : UInt8} (hb : b ∈ decimal x) : b = 45 ∨ isdigit b = true := by
  cases x with
  | ofNat n => exact .inr (isdigit_of_mem_digits hb)
  | negSucc n =>
    rcases List.mem_cons.1 hb with rfl | hb
    · exact .inl rfl
    · exact .inr (isdigit_of_mem_digits hb)

theorem ne_of_mem_decimal {x : Int} {b c : UInt8} (hb : b ∈ decimal x) (hsign : c ≠ 45)
    (hdigit : isdigit c = false) : b ≠ c := by
  rintro rfl
  rcases mem_decimal hb with h | h
  · exact hsign h
  · rw [hdigit] at h
    cases h

/-- Numbers printed alike are the same. -/
theorem decimal_injective {x y : Int} (h : decimal x = decimal y) : x = y := by
  have hsign : ∀ (n : Nat) (l : List UInt8), digits n ≠ 45 :: l := by
    intro n l hl
    have := isdigit_of_mem_digits (n := n) (b := 45) (hl ▸ List.mem_cons_self)
    revert this
    decide
  have hvalue : ∀ {m n : Nat}, digits m = digits n → m = n := by
    intro m n hmn
    rw [← digitsValue_digits m, hmn, digitsValue_digits]
  cases x with
  | ofNat m =>
    cases y with
    | ofNat n => rw [hvalue h]
    | negSucc n => exact absurd h (hsign m _)
  | negSucc m =>
    cases y with
    | ofNat n => exact absurd h.symm (hsign n _)
    | negSucc n =>
      have := hvalue (List.cons.inj h).2
      rw [Nat.succ_inj.1 this]

/-- An `int` takes at most eleven bytes. -/
theorem length_decimal_le {x : Int} (hlo : -2 ^ 31 ≤ x) (hhi : x < 2 ^ 31) :
    (decimal x).length ≤ 11 := by
  cases x with
  | ofNat n =>
    rw [Int.ofNat_eq_natCast] at hhi
    exact (length_digits_le (k := 10) (by omega) (by omega)).trans (by omega)
  | negSucc n =>
    rw [Int.negSucc_eq] at hlo
    rw [decimal, List.length_cons]
    exact Nat.succ_le_succ (length_digits_le (by omega) (by omega))

/-! ## Texts in an array -/

namespace CharArray

variable {n : Nat} {a b : CharArray n}

/-- `vsnprintf` to `a + o`, for a format that makes `text` of its arguments: at most
    `size` bytes are stored, with the NUL. The length of the text is returned,
    whether it was stored whole or not. -/
def vsnprintf (a : CharArray n) (o size : Nat) (text : List UInt8) : Nat × CharArray n :=
  (text.length, if size = 0 then a else a.copy o (text.take (size - 1) ++ [0]))

theorem str_of_le {o : Nat} (ho : n ≤ o) : a.str o = [] := by
  rw [str, mem, List.drop_eq_nil_of_le (by simpa using ho), cstr_nil]

theorem str_eq_nil {o : Nat} (h : a.get o = 0) : a.str o = [] := by
  rcases Nat.lt_or_ge o n with ho | ho
  · rw [str, mem_eq_cons ho, cstr_cons, if_pos h]
  · exact str_of_le ho

/-- The C string at `a + o` goes on from the end of its first bytes. -/
theorem str_append {o : Nat} {t : List UInt8} (ht : ∀ b ∈ t, b ≠ 0)
    (hget : ∀ k (hk : k < t.length), a.get (o + k) = t[k]) : a.str o = t ++ a.str (o + t.length) := by
  induction t generalizing o with
  | nil => rfl
  | cons c t ih =>
    rw [List.forall_mem_cons] at ht
    have hc : a.get o = c := hget 0 (Nat.succ_pos _)
    have ho : o < n := by
      by_contra hle
      rw [get_of_le (Nat.not_lt.1 hle)] at hc
      exact ht.1 hc.symm
    have hrest : a.str (o + 1) = t ++ a.str (o + 1 + t.length) := by
      refine ih ht.2 fun k hk => ?_
      have := hget (k + 1) (Nat.succ_lt_succ hk)
      rwa [List.getElem_cons_succ, ← Nat.add_assoc, Nat.add_right_comm] at this
    rw [str] at hrest
    rw [str, mem_eq_cons ho, hc, cstr_cons, if_neg ht.1, hrest, List.length_cons, List.cons_append,
      Nat.add_right_comm, Nat.add_assoc]

/-- The C string at `a + o`, when it ends at the index `o + t.length`. -/
theorem str_eq_of {o : Nat} {t : List UInt8} (ht : ∀ b ∈ t, b ≠ 0)
    (hget : ∀ k (hk : k < t.length), a.get (o + k) = t[k]) (hend : a.get (o + t.length) = 0) :
    a.str o = t := by
  rw [str_append ht hget, str_eq_nil hend, List.append_nil]

/-- The C string at `a + o`, when the array holds the text `s`, with its NUL. -/
theorem str_eq_cstr_drop {s : List UInt8} (h : ∀ i ≤ s.length, a.get i = s.getD i 0) {o : Nat}
    (ho : o ≤ s.length) : a.str o = cstr (s.drop o) := by
  obtain ⟨d, hd⟩ := Nat.exists_eq_add_of_le ho
  induction d generalizing o with
  | zero =>
    have hget := h o ho
    rw [List.getD_eq_default _ _ (by omega)] at hget
    rw [str_eq_nil hget, List.drop_eq_nil_of_le (by omega), cstr_nil]
  | succ d ih =>
    have hget := h o ho
    rw [List.getD_eq_getElem _ _ (by omega)] at hget
    rw [List.drop_eq_getElem_cons (by omega), cstr_cons, ← hget]
    split_ifs with h0
    · exact str_eq_nil h0
    · have hon : o < n := by
        by_contra hle
        exact h0 (get_of_le (Nat.not_lt.1 hle))
      have hrest := ih (o := o + 1) (by omega) (by omega)
      rw [str] at hrest
      rw [str, mem_eq_cons hon, cstr_cons, if_neg h0, hrest]

/-- NULs stored in an array that holds a text are NULs in the text. -/
theorem getD_storeNuls {t : List UInt8} (h : ∀ i ≤ t.length, a.get i = t.getD i 0) (ks : List Nat)
    {i : Nat} (hi : i ≤ t.length) :
    (a.storeNuls 0 ks).get i = (ks.foldl (fun s k => s.set k 0) t).getD i 0 := by
  induction ks generalizing a t with
  | nil => exact h i hi
  | cons k ks ih =>
    refine ih (a := a.store (0 + k) 0) (t := t.set k 0) (fun i hi => ?_) (by rwa [List.length_set])
    rw [List.length_set] at hi
    rw [get_store, Nat.zero_add, List.getD_eq_getElem?_getD, List.getElem?_set]
    by_cases hki : k = i
    · subst hki
      by_cases hkn : k < n
      · by_cases hkt : k < t.length <;> simp [hkn, hkt]
      · by_cases hkt : k < t.length <;> simp [hkn, hkt, get_of_le (Nat.not_lt.1 hkn)]
    · simp [hki, h i hi]

/-- The bytes of the C string at `a + o`, and the NUL that ends it. -/
theorem get_add_eq_getD_str {o k : Nat} (hk : k ≤ (a.str o).length) :
    a.get (o + k) = (a.str o).getD k 0 := by
  rw [get_add, str, getD_cstr hk]

theorem get_of_str {o : Nat} {t : List UInt8} (h : a.str o = t) (k : Nat) (hk : k < t.length) :
    a.get (o + k) = t[k] := by
  subst h
  rw [get_add_eq_getD_str hk.le, List.getD_eq_getElem _ _ hk]

theorem str_ne_nil {o : Nat} (h : a.get o ≠ 0) : a.str o ≠ [] := by
  intro hnil
  have := get_add_eq_getD_str (a := a) (o := o) (Nat.zero_le _)
  rw [hnil] at this
  exact h this

/-- An array whose first C string is `t` holds it. -/
theorem getD_of_str {t : List UInt8} (h : a.str 0 = t) {i : Nat} (hi : i ≤ t.length) :
    a.get i = t.getD i 0 := by
  subst h
  rw [← get_add_eq_getD_str hi, Nat.zero_add]

/-- What `vsnprintf` stores lies from `o` on. -/
theorem get_vsnprintf_of_lt {o size k : Nat} {text : List UInt8} (ho : o ≤ n) (hk : k < o) :
    (a.vsnprintf o size text).2.get k = a.get k := by
  rw [vsnprintf]
  split_ifs
  · rfl
  · rw [get_copy ho, if_neg (by omega)]

/-- The C string that `vsnprintf` stores. -/
theorem str_vsnprintf {o size : Nat} {text : List UInt8} (ht : ∀ b ∈ text, b ≠ 0)
    (hsize : 0 < size) (hn : o + size ≤ n) :
    (a.vsnprintf o size text).2.str o = text.take (size - 1) := by
  have hlen : (text.take (size - 1)).length ≤ size - 1 := List.length_take_le _ _
  have hget : ∀ k, o ≤ k → k ≤ o + (text.take (size - 1)).length →
      (a.vsnprintf o size text).2.get k = (text.take (size - 1) ++ [0]).getD (k - o) 0 := by
    intro k hk hk'
    rw [vsnprintf, if_neg (by omega), get_copy (by omega), if_pos]
    rw [List.length_append, List.length_singleton]
    omega
  refine str_eq_of (fun b hb => ht b (List.mem_of_mem_take hb)) (fun k hk => ?_) ?_
  · rw [hget _ (Nat.le_add_right _ _) (by omega), Nat.add_sub_cancel_left,
      List.getD_append _ _ _ _ hk, List.getD_eq_getElem _ _ hk]
  · rw [hget _ (Nat.le_add_right _ _) le_rfl, Nat.add_sub_cancel_left,
      List.getD_append_right _ _ _ _ le_rfl, Nat.sub_self]
    rfl

end CharArray

end CString
