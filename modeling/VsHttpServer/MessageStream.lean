import Mathlib.Data.List.Basic
import Mathlib.Tactic.Common

/-!
# Messages in a stream

A stream carries messages one after the other. A reader takes one message off its
front: what it stands for, and the rest of the stream.

* `readAll_eq_cons_iff`: the messages of a stream are the first one, and those of the
  rest;
* `readAll_append`: a message that is read back in front of the rest of the stream is
  the first one.
-/

namespace MessageStream

variable {α β : Type*} (read : List β → Option (α × List β))

/-- The messages of a stream, up to its end; `none` if what is left is no message. A message
    takes up some of the stream. -/
def readAll (l : List β) : Option (List α) :=
  if l = [] then some []
  else
    match read l with
    | none => none
    | some (a, r) => if r.length < l.length then (readAll r).map (a :: ·) else none
termination_by l.length

variable {read}

theorem readAll_nil : readAll read [] = some [] := by
  rw [readAll, if_pos rfl]

/-- The first message, and those after it. -/
theorem readAll_eq_cons_iff {l : List β} {a : α} {as : List α} :
    readAll read l = some (a :: as) ↔
      ∃ r, read l = some (a, r) ∧ r.length < l.length ∧ readAll read r = some as := by
  rw [readAll]
  split_ifs with hl
  · rw [hl]
    simp
  · split
    · next hr => simp [hr]
    · next b r hr =>
      rw [hr]
      split_ifs with hlt
      · simp only [Option.map_eq_some_iff, List.cons.injEq, Option.some.injEq, Prod.mk.injEq]
        constructor
        · rintro ⟨bs, hbs, rfl, rfl⟩
          exact ⟨r, ⟨rfl, rfl⟩, hlt, hbs⟩
        · rintro ⟨r', ⟨rfl, rfl⟩, -, has⟩
          exact ⟨as, has, rfl, rfl⟩
      · simp only [Option.some.injEq, Prod.mk.injEq, false_iff, not_exists, not_and]
        rintro r' ⟨rfl, rfl⟩ hlt'
        exact absurd hlt' hlt

/-- A message that is read back with the rest of the stream after it. -/
theorem readAll_append {m r : List β} {a : α} {as : List α} (hm : m ≠ [])
    (h : read (m ++ r) = some (a, r)) :
    readAll read (m ++ r) = some (a :: as) ↔ readAll read r = some as := by
  have hpos := List.length_pos_of_ne_nil hm
  rw [readAll_eq_cons_iff, h]
  simp [hpos]

end MessageStream
