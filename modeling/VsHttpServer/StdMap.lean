import Mathlib.Data.List.Basic
import Mathlib.Logic.Function.Basic

/-!
# Maps that keep old entries

`insert` of the standard map leaves an entry whose key is there already. The map is the
partial function from its keys to their values.

* `foldl_insert`: after any insertions, each key has what it had, or else the value that
  was inserted first.
-/

namespace StdMap

variable {K V : Type*} [BEq K] [LawfulBEq K]

theorem lookup_isSome_iff_mem (es : List (K × V)) (k : K) :
    (es.lookup k).isSome ↔ ∃ v, (k, v) ∈ es := by
  simp [List.lookup_isSome_iff]

theorem mem_of_lookup {es : List (K × V)} {k : K} {v : V} (h : es.lookup k = some v) :
    (k, v) ∈ es := by
  obtain ⟨l, r, he, -⟩ := List.lookup_eq_some_iff.1 h
  rw [he]
  exact List.mem_append_right _ List.mem_cons_self

omit [LawfulBEq K] in
/-- The value of a key, where the values go through a function. -/
theorem lookup_map {W : Type*} (f : V → W) (es : List (K × V)) (k : K) :
    (es.map fun e => (e.1, f e.2)).lookup k = (es.lookup k).map f := by
  induction es with
  | nil => rfl
  | cons e es ih =>
    rw [List.map_cons, List.lookup_cons, List.lookup_cons, ih]
    cases k == e.1
    · rfl
    · rfl

variable [DecidableEq K]

/-- `map::insert`, on the map as a partial function: an entry that is there stays. -/
def insert (m : K → Option V) (e : K × V) : K → Option V :=
  if (m e.1).isSome then m else Function.update m e.1 (some e.2)

/-- The first entry inserted under a key is the one that is kept. -/
theorem foldl_insert (es : List (K × V)) (m : K → Option V) (k : K) :
    es.foldl insert m k = (m k).or (es.lookup k) := by
  induction es generalizing m with
  | nil => simp
  | cons e es ih =>
    obtain ⟨k', v⟩ := e
    rw [List.foldl_cons, ih, insert, List.lookup_cons]
    rcases eq_or_ne k k' with rfl | hne
    · cases hm : m k with
      | none => simp
      | some w => simp [hm]
    · have hbeq : (k == k') = false := beq_false_of_ne hne
      rw [hbeq]
      split_ifs with hm
      · rfl
      · rw [Function.update_of_ne hne]

end StdMap
