import Mathlib.Data.List.Chain
import Mathlib.Data.List.Nodup
import Mathlib.Logic.Function.Basic
import Mathlib.Tactic.Common

/-!
# Doubly linked lists in a store

Nodes of any type, each with a pointer to the next node and one to the previous node,
which may be null. A store holds the list `l` when the pointers go along `l` and back.

* `IsList.walk`: following the pointers from the first node visits `l` in order;
* `IsList.insertAfter`, `IsList.join`: a node is put in, or taken out, by its
  neighbours' pointers;
* `Linked.frame`: pointers outside of the list do not matter.
-/

namespace DoublyLinked

variable {α : Type*}

/-- The pointers of all nodes. -/
@[ext] structure Links (α : Type*) where
  next : α → Option α
  prev : α → Option α

/-- The pointers between neighbours in `l` go both ways. -/
def Linked (s : Links α) (l : List α) : Prop :=
  l.IsChain fun a b => s.next a = some b ∧ s.prev b = some a

/-- The store holds the list `l`, ended by null pointers. -/
structure IsList (s : Links α) (l : List α) : Prop where
  linked : Linked s l
  nodup : l.Nodup
  prev_head : ∀ a ∈ l.head?, s.prev a = none
  next_last : ∀ a ∈ l.getLast?, s.next a = none

/-- The pointer reached from `p` after `i` steps to the next node. -/
def Links.walk (s : Links α) : Option α → Nat → Option α
  | p, 0 => p
  | p, i + 1 => s.walk (p.bind s.next) i

variable {s s' : Links α} {l pre post : List α} {a b c : α}

/-- Only the pointers of the list matter, and not those at its ends. -/
theorem Linked.frame (h : Linked s l) (hnext : ∀ a ∈ l.dropLast, s'.next a = s.next a)
    (hprev : ∀ a ∈ l.tail, s'.prev a = s.prev a) : Linked s' l := by
  induction l with
  | nil => exact .nil
  | cons a l ih =>
    cases l with
    | nil => exact .singleton a
    | cons b l =>
      obtain ⟨⟨hn, hp⟩, hrest⟩ := List.isChain_cons_cons.1 h
      rw [List.dropLast_cons_cons, List.forall_mem_cons] at hnext
      rw [List.tail_cons, List.forall_mem_cons] at hprev
      exact List.isChain_cons_cons.2
        ⟨⟨hnext.1.trans hn, hprev.1.trans hp⟩, ih hrest hnext.2 hprev.2⟩

theorem Linked.tail (h : Linked s (a :: l)) : Linked s l := List.IsChain.tail h

/-- Where a list begins, it goes on. -/
theorem Linked.walk (h : Linked s l) (hlast : ∀ a ∈ l.getLast?, s.next a = none) (i : Nat) :
    s.walk l.head? i = l[i]? := by
  -- a null pointer leads nowhere
  have hnull : ∀ i, s.walk none i = none := by
    intro i
    induction i with
    | zero => rfl
    | succ i ih => exact ih
  induction l generalizing i with
  | nil => exact hnull i
  | cons a l ih =>
    cases i with
    | zero => rfl
    | succ i =>
      have hnext : s.next a = l.head? := by
        cases l with
        | nil => exact hlast a rfl
        | cons b l => exact (List.isChain_cons_cons.1 h).1.1
      rw [Links.walk, List.head?_cons, Option.bind_some, hnext, List.getElem?_cons_succ]
      refine ih h.tail (fun b hb => hlast b ?_) i
      cases l with
      | nil => cases hb
      | cons c l => rwa [List.getLast?_cons_cons]

namespace IsList

/-- The pointers from the first node on visit the list in order, and end. -/
theorem walk (h : IsList s l) (i : Nat) : s.walk l.head? i = l[i]? := h.linked.walk h.next_last i

/-- Along the list, the pointers to the previous node are the inverse of those to the
    next. -/
theorem next_eq_iff (h : IsList s l) (ha : a ∈ l) (hb : b ∈ l) :
    s.next a = some b ↔ s.prev b = some a := by
  constructor
  · intro hn
    obtain ⟨pre, post, rfl⟩ := List.append_of_mem ha
    have hlinked := (List.isChain_split.1 h.linked).2
    cases post with
    | nil =>
      -- `a` is the last node
      rw [h.next_last a (by simp)] at hn
      cases hn
    | cons c post =>
      obtain ⟨hn', hp⟩ := (List.isChain_cons_cons.1 hlinked).1
      rw [hn', Option.some.injEq] at hn
      exact hn ▸ hp
  · intro hp
    obtain ⟨pre, post, rfl⟩ := List.append_of_mem hb
    have hlinked := (List.isChain_split.1 h.linked).1
    rcases List.eq_nil_or_concat' pre with rfl | ⟨pre, c, rfl⟩
    · -- `b` is the first node
      rw [h.prev_head b (by simp)] at hp
      cases hp
    · rw [List.append_assoc, List.singleton_append] at hlinked
      obtain ⟨hn, hp'⟩ := (List.isChain_append_cons_cons.1 hlinked).2.1
      rw [hp', Option.some.injEq] at hp
      exact hp ▸ hn

end IsList

/-! ## Changes of the pointers -/

variable [DecidableEq α]

/-- The node `c` is put between `a` and `b`. -/
def Links.insertAfter (s : Links α) (a c b : α) : Links α where
  next := Function.update (Function.update s.next c (some b)) a (some c)
  prev := Function.update (Function.update s.prev c (some a)) b (some c)

/-- What is between `a` and `b` is taken out. -/
def Links.join (s : Links α) (a b : α) : Links α where
  next := Function.update s.next a (some b)
  prev := Function.update s.prev b (some a)

omit [DecidableEq α] in
theorem head?_append_cons (pre l : List α) (a : α) : (pre ++ a :: l).head? = (pre ++ [a]).head? := by
  simp [List.head?_append]

omit [DecidableEq α] in
theorem getLast?_append_cons (l post : List α) (b : α) :
    (l ++ b :: post).getLast? = (b :: post).getLast? :=
  List.getLast?_append_of_ne_nil _ (List.cons_ne_nil _ _)

omit [DecidableEq α] in
/-- If the pointers are changed between `a` and `b` only, the parts of the list before and
    after them stay linked, with their ends. -/
theorem IsList.parts (mid : List α) (h : IsList s (pre ++ a :: (mid ++ b :: post)))
    (hnext : ∀ x, x ∈ pre ∨ x ∈ b :: post → s'.next x = s.next x)
    (hprev : ∀ x, x ∈ pre ++ [a] ∨ x ∈ post → s'.prev x = s.prev x) :
    Linked s' (pre ++ [a]) ∧ Linked s' (b :: post) ∧
      (∀ x ∈ (pre ++ [a]).head?, s'.prev x = none) ∧
      ∀ x ∈ (b :: post).getLast?, s'.next x = none := by
  obtain ⟨hpre, hrest⟩ := List.isChain_split.1 h.linked
  have hpost : Linked s (b :: post) := (List.isChain_split.1 (List.IsChain.tail hrest)).2
  have hpre : Linked s (pre ++ [a]) := hpre
  refine ⟨hpre.frame (fun x hx => hnext x (.inl ?_)) fun x hx => hprev x (.inl ?_),
    hpost.frame (fun x hx => hnext x (.inr ?_)) fun x hx => hprev x (.inr hx), fun x hx => ?_,
    fun x hx => ?_⟩
  · rwa [List.dropLast_concat] at hx
  · exact List.mem_of_mem_tail hx
  · exact List.dropLast_subset _ hx
  · rw [hprev x (.inl (List.mem_of_mem_head? hx))]
    exact h.prev_head x (by rwa [head?_append_cons])
  · rw [hnext x (.inr (List.mem_of_mem_getLast? hx))]
    exact h.next_last x (by rwa [← List.cons_append, ← List.append_assoc, getLast?_append_cons])

omit [DecidableEq α] in
/-- A list without repetition, around two of its nodes. -/
theorem nodup_around (mid : List α) (h : (pre ++ a :: (mid ++ b :: post)).Nodup) :
    (∀ x ∈ pre ++ [a], x ≠ b) ∧ (∀ x, x ∈ pre ∨ x ∈ b :: post → x ≠ a) ∧ ∀ x ∈ post, x ≠ b := by
  have hpre := (List.nodup_append.1 h).2.2
  have hrest := (List.nodup_append.1 h).2.1
  rw [List.nodup_cons] at hrest
  have hpost := (List.nodup_append.1 hrest.2).2.1
  rw [List.nodup_cons] at hpost
  have hb : b ∈ mid ++ b :: post := List.mem_append_right _ List.mem_cons_self
  refine ⟨fun x hx => ?_, fun x hx => ?_, fun x hx => ne_of_mem_of_not_mem hx hpost.1⟩
  · rcases List.mem_append.1 hx with hx | hx
    · exact hpre x hx b (List.mem_cons_of_mem _ hb)
    · rw [List.mem_singleton] at hx
      rintro rfl
      exact hrest.1 (hx ▸ hb)
  · rcases hx with hx | hx
    · exact hpre x hx a List.mem_cons_self
    · exact ne_of_mem_of_not_mem (List.mem_append_right _ hx) hrest.1

theorem IsList.insertAfter (h : IsList s (pre ++ a :: b :: post)) (hc : c ∉ pre ++ a :: b :: post) :
    IsList (s.insertAfter a c b) (pre ++ a :: c :: b :: post) := by
  obtain ⟨hb, ha, hb'⟩ := nodup_around [] h.nodup
  rw [List.append_cons, List.mem_append, not_or] at hc
  -- the new node is none of those in the list
  have hpre : ∀ x ∈ pre ++ [a], x ≠ c := fun x hx => ne_of_mem_of_not_mem hx hc.1
  have hpost : ∀ x ∈ b :: post, x ≠ c := fun x hx => ne_of_mem_of_not_mem hx hc.2
  have hac : a ≠ c := hpre a (by simp)
  have hbc : b ≠ c := hpost b List.mem_cons_self
  have hnext : ∀ x, x ∈ pre ∨ x ∈ b :: post → (s.insertAfter a c b).next x = s.next x := by
    intro x hx
    have hxc : x ≠ c := hx.elim (fun hx => hpre x (List.mem_append_left _ hx)) (hpost x)
    simp [Links.insertAfter, ha x hx, hxc]
  have hprev : ∀ x, x ∈ pre ++ [a] ∨ x ∈ post → (s.insertAfter a c b).prev x = s.prev x := by
    intro x hx
    have hxc : x ≠ c := hx.elim (hpre x) fun hx => hpost x (List.mem_cons_of_mem _ hx)
    have hxb : x ≠ b := hx.elim (hb x) (hb' x)
    simp [Links.insertAfter, hxb, hxc]
  obtain ⟨hpre, hpost, hhead, hlast⟩ := IsList.parts [] h hnext hprev
  refine ⟨?_, ?_, ?_, ?_⟩
  · refine List.isChain_append_cons_cons.2 ⟨hpre, ⟨?_, ?_⟩, List.isChain_cons_cons.2 ⟨⟨?_, ?_⟩, hpost⟩⟩
    · simp [Links.insertAfter]
    · simp [Links.insertAfter, hbc.symm]
    · simp [Links.insertAfter, hac.symm]
    · simp [Links.insertAfter]
  · rw [List.append_cons, List.nodup_middle, List.nodup_cons, List.mem_append, not_or,
      ← List.append_cons]
    exact ⟨hc, h.nodup⟩
  · rwa [head?_append_cons]
  · rwa [List.append_cons, List.append_cons, getLast?_append_cons]

theorem IsList.join (h : IsList s (pre ++ a :: c :: b :: post)) :
    IsList (s.join a b) (pre ++ a :: b :: post) := by
  obtain ⟨hb, ha, hb'⟩ := nodup_around [c] h.nodup
  have hnext : ∀ x, x ∈ pre ∨ x ∈ b :: post → (s.join a b).next x = s.next x := by
    intro x hx
    simp [Links.join, ha x hx]
  have hprev : ∀ x, x ∈ pre ++ [a] ∨ x ∈ post → (s.join a b).prev x = s.prev x := by
    intro x hx
    have hxb : x ≠ b := hx.elim (hb x) (hb' x)
    simp [Links.join, hxb]
  obtain ⟨hpre, hpost, hhead, hlast⟩ := IsList.parts [c] h hnext hprev
  refine ⟨?_, ?_, ?_, ?_⟩
  · refine List.isChain_append_cons_cons.2 ⟨hpre, ⟨?_, ?_⟩, hpost⟩
    · simp [Links.join]
    · simp [Links.join]
  · refine h.nodup.sublist ?_
    exact (List.Sublist.refl pre).append ((List.sublist_cons_self c _).cons_cons a)
  · rwa [head?_append_cons]
  · rwa [List.append_cons, getLast?_append_cons]

end DoublyLinked
