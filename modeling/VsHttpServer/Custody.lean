import Mathlib.Data.List.Count
import Mathlib.Data.List.Nodup
import Mathlib.Logic.Function.Basic

/-!
# Things in the hands of holders

Things are given to holders, each of which has at most one. A thing leaves its
holder for good: it has ended.

* `Custody`: each thing that was given has ended, once, or has one holder;
* `Custody.drop`, `Custody.give`, `Custody.exchange`: the ways in which things change
  hands;
* `Custody.count_ended`: where a thing is that was given.

`Paired` is for things and holders that know of each other.
-/

variable {α β : Type*}

/-- Of the things `given`, those in `ended` have left their holders, and the others
    are in the hands of one holder each. -/
structure Custody (given ended : List α) (held : β → Option α) : Prop where
  nodup_ended : ended.Nodup
  ended_subset : ended ⊆ given
  mem_given : ∀ b a, held b = some a → a ∈ given
  not_mem_ended : ∀ b a, held b = some a → a ∉ ended
  injective : ∀ b c a, held b = some a → held c = some a → b = c
  exists_held : ∀ a ∈ given, a ∉ ended → ∃ b, held b = some a

namespace Custody

open scoped List

variable {given ended ended' : List α} {held : β → Option α}

theorem nil : Custody ([] : List α) [] (fun _ : β => none) where
  nodup_ended := List.nodup_nil
  ended_subset := List.Subset.refl _
  mem_given _ _ := nofun
  not_mem_ended _ _ := nofun
  injective _ _ _ := nofun
  exists_held _ := nofun

/-- The order in which things have ended does not matter. -/
theorem perm (h : Custody given ended held) (he : ended ~ ended') : Custody given ended' held where
  nodup_ended := he.nodup_iff.1 h.nodup_ended
  ended_subset _ ha := h.ended_subset (he.mem_iff.2 ha)
  mem_given := h.mem_given
  not_mem_ended b a hb ha := h.not_mem_ended b a hb (he.mem_iff.2 ha)
  injective := h.injective
  exists_held a ha hnot := h.exists_held a ha (he.mem_iff.not.2 hnot)

/-- A thing that was given has ended, once, or has exactly one holder. -/
theorem count_ended [BEq α] [LawfulBEq α] (h : Custody given ended held) {a : α} (ha : a ∈ given) :
    (ended.count a = 1 ∧ ∀ b, held b ≠ some a) ∨
      (ended.count a = 0 ∧ ∃ b, held b = some a ∧ ∀ c, held c = some a → c = b) := by
  by_cases he : a ∈ ended
  · exact .inl ⟨List.count_eq_one_of_mem h.nodup_ended he, fun b hb => h.not_mem_ended b a hb he⟩
  · obtain ⟨b, hb⟩ := h.exists_held a ha he
    exact .inr ⟨List.count_eq_zero_of_not_mem he, b, hb, fun c hc => h.injective c b a hc hb⟩

variable [DecidableEq β]

/-- What a holder has, if anything, ends. -/
theorem drop (h : Custody given ended held) (b : β) :
    Custody given (ended ++ (held b).toList) (Function.update held b none) := by
  -- the other holders have what they had
  have hother : ∀ c a, Function.update held b none c = some a → c ≠ b ∧ held c = some a := by
    intro c a hc
    rw [Function.update_apply] at hc
    split_ifs at hc with hcb
    exact ⟨hcb, hc⟩
  have hnodup : (held b).toList.Nodup := by cases held b <;> simp
  refine ⟨List.nodup_append.2 ⟨h.nodup_ended, hnodup, ?_⟩, fun a ha => ?_,
    fun c a hc => h.mem_given c a (hother c a hc).2, fun c a hc ha => ?_, fun c d a hc hd => ?_,
    fun a ha hnot => ?_⟩
  · rintro a ha a' ha' rfl
    exact h.not_mem_ended b a (Option.mem_toList.1 ha') ha
  · rcases List.mem_append.1 ha with ha | ha
    · exact h.ended_subset ha
    · exact h.mem_given b a (Option.mem_toList.1 ha)
  · obtain ⟨hcb, hc⟩ := hother c a hc
    rcases List.mem_append.1 ha with ha | ha
    · exact h.not_mem_ended c a hc ha
    · exact hcb (h.injective c b a hc (Option.mem_toList.1 ha))
  · exact h.injective c d a (hother c a hc).2 (hother d a hd).2
  · rw [List.mem_append, not_or] at hnot
    obtain ⟨c, hc⟩ := h.exists_held a ha hnot.1
    refine ⟨c, ?_⟩
    rwa [Function.update_of_ne]
    rintro rfl
    exact hnot.2 (Option.mem_toList.2 hc)

/-- A thing that was not given before is given to a holder that has none. -/
theorem give (h : Custody given ended held) {a : α} {b : β} (ha : a ∉ given) (hb : held b = none) :
    Custody (given ++ [a]) ended (Function.update held b (some a)) := by
  -- what is held now is `a`, by `b`, or something else, by its old holder
  have hcases : ∀ c x, Function.update held b (some a) c = some x →
      (c = b ∧ x = a) ∨ (held c = some x ∧ x ≠ a) := by
    intro c x hc
    rw [Function.update_apply] at hc
    split_ifs at hc with hcb
    · exact .inl ⟨hcb, (Option.some.inj hc).symm⟩
    · refine .inr ⟨hc, ?_⟩
      rintro rfl
      exact ha (h.mem_given c x hc)
  refine ⟨h.nodup_ended, fun x hx => List.mem_append_left _ (h.ended_subset hx), fun c x hc => ?_,
    fun c x hc hx => ?_, fun c d x hc hd => ?_, fun x hx hnot => ?_⟩
  · rcases hcases c x hc with ⟨-, rfl⟩ | ⟨hc, -⟩
    · exact List.mem_append_right _ (List.mem_singleton_self _)
    · exact List.mem_append_left _ (h.mem_given c x hc)
  · rcases hcases c x hc with ⟨-, rfl⟩ | ⟨hc, -⟩
    · exact ha (h.ended_subset hx)
    · exact h.not_mem_ended c x hc hx
  · rcases hcases c x hc with ⟨rfl, rfl⟩ | ⟨hc, hne⟩ <;>
      rcases hcases d x hd with ⟨rfl, he⟩ | ⟨hd, hne'⟩
    · rfl
    · exact absurd rfl hne'
    · exact absurd he hne
    · exact h.injective c d x hc hd
  · rcases List.mem_append.1 hx with hx | hx
    · obtain ⟨c, hc⟩ := h.exists_held x hx hnot
      refine ⟨c, ?_⟩
      rwa [Function.update_of_ne]
      rintro rfl
      rw [hb] at hc
      cases hc
    · exact ⟨b, by rw [Function.update_self, List.mem_singleton.1 hx]⟩

/-- A thing that was not given before takes the place of what the holder has. -/
theorem exchange (h : Custody given ended held) {a : α} (ha : a ∉ given) (b : β) :
    Custody (given ++ [a]) (ended ++ (held b).toList) (Function.update held b (some a)) := by
  -- `b` drops what it has, and is given `a`
  have := (h.drop b).give ha (Function.update_self b none held)
  rwa [Function.update_idem] at this

end Custody

/-- `f` and `g` tell the same pairs, each from its side. -/
def Paired (f : α → Option β) (g : β → Option α) : Prop := ∀ a b, f a = some b ↔ g b = some a

namespace Paired

variable [DecidableEq α] [DecidableEq β] {f : α → Option β} {g : β → Option α} {a : α} {b : β}

/-- A new pair, of two that have been in none. -/
theorem join (h : Paired f g) (ha : f a = none) (hb : g b = none) :
    Paired (Function.update f a (some b)) (Function.update g b (some a)) := by
  intro c d
  have hc : f a ≠ some d := by
    rw [ha]
    nofun
  have hd : g b ≠ some c := by
    rw [hb]
    nofun
  rw [Function.update_apply, Function.update_apply]
  split_ifs with hca hdb hdb
  · rw [hca, hdb]
    exact iff_of_true rfl rfl
  · rw [hca, ← h a d]
    exact iff_of_false (fun he => hdb (Option.some.inj he).symm) hc
  · rw [hdb, h c b]
    exact iff_of_false hd fun he => hca (Option.some.inj he).symm
  · exact h c d

/-- A pair comes apart. -/
theorem part (h : Paired f g) (hab : f a = some b) :
    Paired (Function.update f a none) (Function.update g b none) := by
  intro c d
  rw [Function.update_apply, Function.update_apply]
  split_ifs with hca hdb hdb
  · exact ⟨nofun, nofun⟩
  · rw [hca, ← h a d, hab]
    exact iff_of_false nofun fun he => hdb (Option.some.inj he).symm
  · rw [hdb, h c b, (h a b).1 hab]
    exact iff_of_false (fun he => hca (Option.some.inj he).symm) nofun
  · exact h c d

end Paired
