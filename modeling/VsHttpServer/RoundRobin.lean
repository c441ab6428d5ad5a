import Mathlib.Data.Int.CardIntervalMod
import Mathlib.Data.List.Nodup

/-!
# Taking turns

The elements of a list take turns, in the order of the list and from the front again
after the last one; what comes is given to the one whose turn it is.

* `turns_succ`: the turns from an element on are its own, then those from the next on;
* `count_turns`: how many of the next turns an element has;
* `count_turns_balanced`: the whole turns, or one more where they do not come out even;
* `share`: what an element is given.
-/

namespace RoundRobin

variable {α β : Type*}

/-- The element that has the turn `i`, where that at the index `c` has the first. -/
def turn (l : List α) (c i : Nat) : Option α := l[(c + i) % l.length]?

/-- The elements that have the next `k` turns. -/
def turns (l : List α) (c k : Nat) : List α := (List.range k).filterMap (turn l c)

variable {l : List α} {c k : Nat}

theorem turn_succ (i : Nat) : turn l c (i + 1) = turn l ((c + 1) % l.length) i := by
  rw [turn, turn, Nat.mod_add_mod, Nat.add_right_comm, Nat.add_assoc]

theorem turns_succ (hc : c < l.length) :
    turns l c (k + 1) = l[c] :: turns l ((c + 1) % l.length) k := by
  have hfirst : turn l c 0 = some l[c] := by
    rw [turn, Nat.add_zero, Nat.mod_eq_of_lt hc, List.getElem?_eq_getElem hc]
  rw [turns, List.range_succ_eq_map, List.filterMap_cons_some hfirst, List.filterMap_map, turns]
  congr 2
  funext i
  exact turn_succ i

theorem length_turns (hc : c < l.length) : (turns l c k).length = k := by
  induction k generalizing c with
  | zero => rfl
  | succ k ih =>
    rw [turns_succ hc, List.length_cons, ih (Nat.mod_lt _ (Nat.zero_lt_of_lt hc))]

theorem mem_of_mem_turns {t : α} (ht : t ∈ turns l c k) : t ∈ l := by
  obtain ⟨i, -, hi⟩ := List.mem_filterMap.1 ht
  exact List.mem_of_getElem? hi

variable [DecidableEq α]

/-- An element has the turns that are congruent to its distance from the first. -/
theorem turn_eq_some_iff {t : α} {i : Nat} (hnodup : l.Nodup) (hc : c < l.length) (ht : t ∈ l) :
    turn l c i = some t ↔ i ≡ l.idxOf t + l.length - c [MOD l.length] := by
  have hidx : l.idxOf t < l.length := List.idxOf_lt_length_of_mem ht
  have hmod : (c + i) % l.length < l.length := Nat.mod_lt _ (Nat.zero_lt_of_lt hc)
  have hturn : turn l c i = some t ↔ (c + i) % l.length = l.idxOf t := by
    rw [turn, List.getElem?_eq_getElem hmod, Option.some.injEq]
    constructor
    · rintro rfl
      exact (hnodup.idxOf_getElem _ hmod).symm
    · intro he
      simp only [he, List.getElem_idxOf]
  have hdist : c + (l.idxOf t + l.length - c) = l.idxOf t + l.length := by omega
  rw [hturn]
  constructor
  · intro he
    refine Nat.ModEq.add_left_cancel' c ?_
    rw [hdist, Nat.ModEq, he, Nat.add_mod_right, Nat.mod_eq_of_lt hidx]
  · intro he
    have hsum := he.add_left c
    rw [hdist, Nat.ModEq, Nat.add_mod_right, Nat.mod_eq_of_lt hidx] at hsum
    exact hsum

theorem count_turns {t : α} (hnodup : l.Nodup) (hc : c < l.length) (ht : t ∈ l) :
    (turns l c k).count t =
      k / l.length +
        if (l.idxOf t + l.length - c) % l.length < k % l.length then 1 else 0 := by
  rw [← Nat.count_modEq_card k (Nat.zero_lt_of_lt hc), Nat.count, turns, List.count,
    List.countP_filterMap]
  refine List.countP_congr fun i _ => ?_
  rw [decide_eq_true_iff, ← turn_eq_some_iff hnodup hc ht]
  cases turn l c i with
  | none => simp
  | some u => simp

/-- As many turns as the others, up to one. -/
theorem count_turns_balanced {t : α} (hnodup : l.Nodup) (hc : c < l.length) (ht : t ∈ l) :
    (turns l c k).count t = k / l.length ∨
      (turns l c k).count t = (k + l.length - 1) / l.length := by
  have hpos : 0 < l.length := Nat.zero_lt_of_lt hc
  rw [count_turns hnodup hc ht]
  split_ifs with hrest
  · -- the turns do not come out even
    right
    have hk := Nat.div_add_mod k l.length
    have hr : k % l.length < l.length := Nat.mod_lt _ hpos
    rw [eq_comm, Nat.div_eq_iff hpos]
    have hmul : (k / l.length + 1) * l.length = l.length * (k / l.length) + l.length := by ring
    omega
  · exact .inl rfl

/-! ## What is given out -/

/-- What `t` is given, where each of `xs` goes to the one of `ts` at its place. -/
def share (xs : List β) (ts : List α) (t : α) : List β :=
  ((xs.zip ts).filter fun p => p.2 = t).map Prod.fst

theorem share_cons (x : β) (xs : List β) (u : α) (ts : List α) (t : α) :
    share (x :: xs) (u :: ts) t = if u = t then x :: share xs ts t else share xs ts t := by
  rw [share, List.zip_cons_cons, List.filter_cons]
  simp only [decide_eq_true_eq]
  split_ifs with hu
  · rfl
  · rfl

theorem length_share {xs : List β} {ts : List α} (h : xs.length = ts.length) (t : α) :
    (share xs ts t).length = ts.count t := by
  induction xs generalizing ts with
  | nil =>
    rw [List.length_eq_zero_iff.1 h.symm]
    rfl
  | cons x xs ih =>
    cases ts with
    | nil => cases h
    | cons u ts =>
      rw [share_cons, List.count_cons, ← ih (Nat.succ.inj h)]
      simp only [beq_iff_eq]
      split_ifs with hu
      · rfl
      · rfl

end RoundRobin
