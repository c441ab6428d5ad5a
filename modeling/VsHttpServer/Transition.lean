import Mathlib.Data.List.Basic
import Mathlib.Data.Nat.Basic
import Mathlib.Order.MinMax
import Mathlib.Tactic.Common

/-!
# Runs of a transition system

A system is a partial function `step`: what an action does in a state, `none`
where it cannot be taken. An action fixes everything that is left open: who
moves, and what comes from outside. A run is the list of the actions taken.

* `exec_inv`: what every step keeps, every run keeps;
* `Along`, `Throughout`: a condition on the steps of a run, and a property of the
  states it visits;
* `throughout_of_along`: a condition under which the steps keep an invariant;
* `along_iff_throughout`: the condition is exact when the property does not survive
  a step that does not meet it;
* `along_iff_along`: two conditions that agree where an invariant holds;
* `exec_peak`: what every step keeps of a state and the largest value of a measure so far;
* `exists_exec_zero`, `exists_exec_le`: a run that goes on until a measure is `0`, or is as
  large as one likes;
* `exists_exec_iff`: which states have a run to a goal;
* `exec_along_or`: a run that meets the condition keeps one invariant, and any other
  run gets into another, for good.
-/

namespace Transition

variable {σ α : Type*} (step : σ → α → Option σ)

/-- The state after the actions `as`; `none` if one of them cannot be taken. -/
def exec : σ → List α → Option σ
  | s, [] => some s
  | s, a :: as => (step s a).bind fun s' => exec s' as

/-- Every step taken by the actions, as far as they can be taken, meets `ok`. -/
def Along (ok : σ → α → Prop) : σ → List α → Prop
  | _, [] => True
  | s, a :: as => ∀ s', step s a = some s' → ok s a ∧ Along ok s' as

/-- Every state visited by the actions, as far as they can be taken, satisfies `P`. -/
def Throughout (P : σ → Prop) : σ → List α → Prop
  | s, [] => P s
  | s, a :: as => P s ∧ ∀ s', step s a = some s' → Throughout P s' as

/-- The largest value of a measure in the states visited by the actions. -/
def peak (μ : σ → ℕ) : σ → List α → ℕ
  | s, [] => μ s
  | s, a :: as => max (μ s) ((step s a).elim 0 fun s' => peak μ s' as)

instance Along.decidable {ok : σ → α → Prop} [∀ s a, Decidable (ok s a)] :
    ∀ (s : σ) (as : List α), Decidable (Along step ok s as)
  | _, [] => .isTrue trivial
  | s, a :: as =>
    match h : step s a with
    | none => .isTrue fun s' hs' => absurd (h.symm.trans hs') (Option.some_ne_none s').symm
    | some s₁ =>
      have : Decidable (Along step ok s₁ as) := Along.decidable s₁ as
      decidable_of_iff (ok s a ∧ Along step ok s₁ as)
        ⟨fun hok _ hs' => Option.some.inj (h.symm.trans hs') ▸ hok, fun hall => hall s₁ h⟩

variable {step}

theorem exec_append (s : σ) (as bs : List α) :
    exec step s (as ++ bs) = (exec step s as).bind fun s' => exec step s' bs := by
  induction as generalizing s with
  | nil => rfl
  | cons a as ih =>
    rw [List.cons_append, exec, exec, Option.bind_assoc]
    congr 1
    funext s'
    exact ih s'

/-- A run after another. -/
theorem exec_trans {s s' : σ} {r : Option σ} {as bs : List α} (h : exec step s as = some s')
    (h' : exec step s' bs = r) : exec step s (as ++ bs) = r := by
  rw [exec_append, h, Option.bind_some, h']

theorem exec_cons {s s' : σ} {a : α} (h : step s a = some s') (as : List α) :
    exec step s (a :: as) = exec step s' as := by
  rw [exec, h, Option.bind_some]

/-- What every step keeps, every run keeps. -/
theorem exec_inv {I : σ → Prop} (hstep : ∀ s a s', I s → step s a = some s' → I s') {s s' : σ}
    {as : List α} (hs : I s) (h : exec step s as = some s') : I s' := by
  induction as generalizing s with
  | nil =>
    cases h
    exact hs
  | cons a as ih =>
    obtain ⟨s₁, h₁, h₂⟩ := Option.bind_eq_some_iff.1 h
    exact ih (hstep s a s₁ hs h₁) h₂

theorem le_peak {μ : σ → ℕ} {s : σ} {as : List α} : μ s ≤ peak step μ s as := by
  cases as with
  | nil => exact le_refl _
  | cons a as => exact le_max_left _ _

/-- What every step keeps of a state and the largest value of a measure so far, every run
    keeps. -/
theorem exec_peak {μ : σ → ℕ} {I : σ → ℕ → Prop}
    (hstep : ∀ s p a s', I s p → step s a = some s' → I s' (max p (μ s'))) {s s' : σ} {as : List α}
    (hs : I s (μ s)) (h : exec step s as = some s') : I s' (peak step μ s as) := by
  suffices hgen : ∀ p, I s p → μ s ≤ p → I s' (max p (peak step μ s as)) by
    have := hgen (μ s) hs (le_refl _)
    rwa [max_eq_right le_peak] at this
  clear hs
  induction as generalizing s with
  | nil =>
    cases h
    intro p hp hle
    rwa [peak, max_eq_left hle]
  | cons a as ih =>
    intro p hp hle
    obtain ⟨s₁, h₁, h₂⟩ := Option.bind_eq_some_iff.1 h
    have hnext := ih h₂ (max p (μ s₁)) (hstep s p a s₁ hp h₁) (le_max_right _ _)
    rw [peak, h₁, Option.elim_some, ← max_assoc, max_eq_left hle]
    rwa [max_assoc, max_eq_right le_peak] at hnext

variable {P I : σ → Prop} {ok : σ → α → Prop} {s : σ} {as : List α}

/-- A step that lowers a measure can be repeated until this is `0`. -/
theorem exists_exec_zero {ν : σ → ℕ}
    (hstep : ∀ s, I s → ν s ≠ 0 → ∃ a s', step s a = some s' ∧ I s' ∧ ν s' < ν s) (hs : I s) :
    ∃ as s', exec step s as = some s' ∧ I s' ∧ ν s' = 0 := by
  induction hn : ν s using Nat.strongRecOn generalizing s with
  | ind n ih =>
    by_cases hzero : ν s = 0
    · exact ⟨[], s, rfl, hs, hzero⟩
    · obtain ⟨a, s₁, h₁, hI, hlt⟩ := hstep s hs hzero
      obtain ⟨as, s', h', hI', hz⟩ := ih (ν s₁) (hn ▸ hlt) hI rfl
      exact ⟨a :: as, s', by rw [exec, h₁]; exact h', hI', hz⟩

/-- Where the steps keep `D`, which excludes `G`, and a run that does not end in `D` lowers a
    measure, or reaches `G`, from any other state: the states from which there is a run to `G`
    are those outside `D`. The invariant `I` need be kept by these runs only. -/
theorem exists_exec_iff {J D G : σ → Prop} {ν : σ → ℕ}
    (hJ : ∀ s a s', J s → step s a = some s' → J s')
    (hD : ∀ s a s', J s → D s → step s a = some s' → D s') (hDG : ∀ s, J s → D s → ¬G s)
    (hIJ : ∀ s, I s → J s)
    (hrun : ∀ s, I s → ¬D s → ¬G s →
      ∃ as s', exec step s as = some s' ∧ (G s' ∨ I s' ∧ ¬D s' ∧ ν s' < ν s))
    (hs : I s) : (∃ as s', exec step s as = some s' ∧ G s') ↔ ¬D s := by
  constructor
  · rintro ⟨as, s', h', hG⟩ hbad
    obtain ⟨hj, hd⟩ := exec_inv (I := fun s => J s ∧ D s)
      (fun s a s' h hs => ⟨hJ s a s' h.1 hs, hD s a s' h.1 h.2 hs⟩) ⟨hIJ s hs, hbad⟩ h'
    exact hDG s' hj hd hG
  · intro hgood
    induction hn : ν s using Nat.strongRecOn generalizing s with
    | ind n ih =>
      by_cases hG : G s
      · exact ⟨[], s, rfl, hG⟩
      · obtain ⟨as, s₁, h₁, hG₁ | ⟨hI, hd, hlt⟩⟩ := hrun s hs hgood hG
        · exact ⟨as, s₁, h₁, hG₁⟩
        · obtain ⟨bs, s', h', hG'⟩ := ih (ν s₁) (hn ▸ hlt) hI hd rfl
          exact ⟨as ++ bs, s', exec_trans h₁ h', hG'⟩

/-- A run that raises a measure can be repeated until this is as large as one likes. -/
theorem exists_exec_le {μ : σ → ℕ}
    (hrun : ∀ s, I s → ∃ as s', exec step s as = some s' ∧ I s' ∧ μ s < μ s') (hs : I s) (n : ℕ) :
    ∃ as s', exec step s as = some s' ∧ I s' ∧ n ≤ μ s' := by
  induction n with
  | zero => exact ⟨[], s, rfl, hs, Nat.zero_le _⟩
  | succ n ih =>
    obtain ⟨as, s₁, h₁, hI, hn⟩ := ih
    obtain ⟨bs, s', h', hI', hlt⟩ := hrun s₁ hI
    exact ⟨as ++ bs, s', by rw [exec_append, h₁]; exact h', hI', Nat.lt_of_le_of_lt hn hlt⟩

theorem Throughout.head (h : Throughout step P s as) : P s := by
  cases as with
  | nil => exact h
  | cons a as => exact h.1

/-- The state that a run ends in is one of those visited. -/
theorem Throughout.of_exec (h : Throughout step P s as) {s' : σ} (hs : exec step s as = some s') :
    P s' := by
  induction as generalizing s with
  | nil =>
    cases hs
    exact h
  | cons a as ih =>
    obtain ⟨s₁, h₁, h₂⟩ := Option.bind_eq_some_iff.1 hs
    exact ih (h.2 s₁ h₁) h₂

/-- A run after another. -/
theorem along_append {s' : σ} {bs : List α} (hs : exec step s as = some s') :
    Along step ok s (as ++ bs) ↔ Along step ok s as ∧ Along step ok s' bs := by
  induction as generalizing s with
  | nil =>
    cases hs
    exact (and_iff_right trivial).symm
  | cons a as ih =>
    obtain ⟨s₁, h₁, h₂⟩ := Option.bind_eq_some_iff.1 hs
    have hnext : ∀ {Q : σ → Prop}, (∀ s₂, step s a = some s₂ → Q s₂) ↔ Q s₁ :=
      ⟨fun hall => hall s₁ h₁, fun hQ s₂ hs₂ => Option.some.inj (h₁.symm.trans hs₂) ▸ hQ⟩
    rw [List.cons_append, Along, Along, hnext, hnext, ih h₂, and_assoc]

/-- Actions that can be taken in any state. -/
theorem along_of_forall_mem (h : ∀ a ∈ as, ∀ s, ok s a) : Along step ok s as := by
  induction as generalizing s with
  | nil => trivial
  | cons a as ih =>
    intro s' _
    exact ⟨h a List.mem_cons_self s, ih fun b hb => h b (List.mem_cons_of_mem a hb)⟩

/-- Steps that meet `ok` keep `I`, which implies `P`. -/
theorem throughout_of_along (hstep : ∀ s a s', I s → ok s a → step s a = some s' → I s')
    (hP : ∀ s, I s → P s) (hs : I s) (h : Along step ok s as) : Throughout step P s as := by
  induction as generalizing s with
  | nil => exact hP s hs
  | cons a as ih =>
    refine ⟨hP s hs, fun s' hs' => ?_⟩
    obtain ⟨hok, hrest⟩ := h s' hs'
    exact ih (hstep s a s' hs hok hs') hrest

/-- The condition is exact: steps that meet `ok` keep `I`, which implies `P`, and `P`
    does not hold after a step that does not meet it. -/
theorem along_iff_throughout (hstep : ∀ s a s', I s → ok s a → step s a = some s' → I s')
    (hP : ∀ s, I s → P s) (hbad : ∀ s a s', I s → ¬ok s a → step s a = some s' → ¬P s')
    (hs : I s) : Along step ok s as ↔ Throughout step P s as := by
  refine ⟨throughout_of_along hstep hP hs, fun h => ?_⟩
  induction as generalizing s with
  | nil => trivial
  | cons a as ih =>
    intro s' hs'
    have hrest := h.2 s' hs'
    have hok : ok s a := by
      by_contra hnot
      exact hbad s a s' hs hnot hs' hrest.head
    exact ⟨hok, ih (hstep s a s' hs hok hs') hrest⟩

/-- Two conditions that agree in the states of `I`, which the steps that meet them keep. -/
theorem along_iff_along {ok' : σ → α → Prop}
    (hstep : ∀ s a s', I s → ok s a → step s a = some s' → I s')
    (hiff : ∀ s a, I s → (ok s a ↔ ok' s a)) (hs : I s) :
    Along step ok s as ↔ Along step ok' s as := by
  induction as generalizing s with
  | nil => exact Iff.rfl
  | cons a as ih =>
    refine forall₂_congr fun s' hs' => ?_
    rw [hiff s a hs]
    refine and_congr_right fun hok => ?_
    exact ih (hstep s a s' hs ((hiff s a hs).2 hok) hs')

/-- A run whose steps meet `ok` keeps `I`; a step that does not leads to `B`, which
    every step keeps. -/
theorem exec_along_or {B : σ → Prop} (hstep : ∀ s a s', I s → ok s a → step s a = some s' → I s')
    (hbad : ∀ s a s', I s → ¬ok s a → step s a = some s' → B s')
    (hkeep : ∀ s a s', B s → step s a = some s' → B s') {s' : σ} (hs : I s)
    (h : exec step s as = some s') :
    Along step ok s as ∧ I s' ∨ ¬Along step ok s as ∧ B s' := by
  induction as generalizing s with
  | nil =>
    cases h
    exact .inl ⟨trivial, hs⟩
  | cons a as ih =>
    obtain ⟨s₁, h₁, h₂⟩ := Option.bind_eq_some_iff.1 h
    by_cases hok : ok s a
    · refine (ih (hstep s a s₁ hs hok h₁) h₂).imp (fun hr => ⟨fun s₂ hs₂ => ?_, hr.2⟩)
        fun hr => ⟨fun hall => hr.1 (hall s₁ h₁).2, hr.2⟩
      obtain rfl : s₁ = s₂ := Option.some.inj (h₁.symm.trans hs₂)
      exact ⟨hok, hr.1⟩
    · exact .inr ⟨fun hall => hok (hall s₁ h₁).1, exec_inv hkeep (hbad s a s₁ hs hok h₁) h₂⟩

end Transition
