import VsHttpServer.Transition
import Mathlib.Data.Fintype.Basic
import Mathlib.Data.Finset.Card

/-!
# Double-checked construction

Callers run the same code at the same time: it tests the shared data, locks a mutex,
tests again, constructs if the second test passes as well, unlocks and returns. Which
mutex a caller locks is a parameter, `mutex`: callers with different mutexes do not
exclude each other. One instruction of one caller is a step.

* `moves_of_step`: what a step does to its caller, to the data and to the mutexes;
* `Counts`: what the tests and the construction have to do with the number `made` of
  objects and its limit;
* `Room`: an inner test that passes leaves room for those who passed it before and are
  still to make an object;
* `Counts.along_iff_kept`: the limit is kept if and only if they all do;
* `Counts.along_iff_same`: where the limit is one, all that return then return the same;
* `returns_of_exec`: a caller with a mutex of its own leaves, if it goes on.
-/

namespace DoubleChecked

open Transition

variable {C M O σ R : Type*}

/-- The instruction that a caller is at. -/
inductive Place (R : Type*)
  | outerTest | lock | innerTest | construct | unlock | ret
  /-- The caller has left, with the outcome `r`. -/
  | done (r : R)
  deriving DecidableEq

/-- The caller has locked its mutex. -/
def Place.holds : Place R → Bool
  | .innerTest | .construct | .unlock => true
  | _ => false

/-- Whether a mutex is locked after the instruction, if it was `b` before. -/
def Place.lockedAfter : Place R → Bool → Bool
  | .lock, _ => true
  | .unlock, _ => false
  | _, b => b

/-- Those who have tested for the last time have found `made` to be one, and what was
    returned is `r₀`. -/
def Place.Same (made : Nat) (r₀ : R) : Place R → Prop
  | .unlock | .ret => made = 1
  | .done r => r = r₀
  | _ => True

theorem Place.Same.mono {made made' : Nat} {r₀ : R} {p : Place R} (hp : p.Same made r₀)
    (h : made = 1 → made' = 1) : p.Same made' r₀ := by
  cases p with
  | unlock | ret => exact h hp
  | done r => exact hp
  | outerTest | lock | innerTest | construct => trivial

/-- The code of the callers, as far as it depends on what is constructed. -/
structure Code (C O σ R : Type*) where
  /-- Both tests. -/
  test : σ → Bool
  /-- What the constructor makes for a caller; `none` if it does not return. -/
  object : C → Option O
  store : O → σ → σ
  /-- The outcome of a call whose outer test fails, if this is not to return. -/
  refuse : Option R
  /-- What is returned. -/
  result : σ → R

structure State (C M σ R : Type*) where
  data : σ
  place : C → Place R
  locked : M → Bool

/-- No caller has begun. -/
def State.init (d : σ) : State C M σ R := ⟨d, fun _ => .outerTest, fun _ => false⟩

section Step

variable [DecidableEq C]

def State.goto (s : State C M σ R) (t : C) (p : Place R) : State C M σ R :=
  { s with place := Function.update s.place t p }

variable [DecidableEq M]

/-- The next instruction of the caller `t`; `none` if it has to wait, does not come out of
    the constructor, or has left. -/
def step (code : Code C O σ R) (mutex : C → M) (s : State C M σ R) (t : C) :
    Option (State C M σ R) :=
  match s.place t with
  | .outerTest =>
    if code.test s.data then some (s.goto t .lock)
    else
      match code.refuse with
      | some r => some (s.goto t (.done r))
      | none => some (s.goto t .ret)
  | .lock =>
    if s.locked (mutex t) then none
    else some { s.goto t .innerTest with locked := Function.update s.locked (mutex t) true }
  | .innerTest => some (s.goto t (if code.test s.data then .construct else .unlock))
  | .construct => (code.object t).map fun o => { s.goto t .unlock with data := code.store o s.data }
  | .unlock => some { s.goto t .ret with locked := Function.update s.locked (mutex t) false }
  | .ret => some (s.goto t (.done (code.result s.data)))
  | .done _ => none

/-- The caller `t` finds the data `d`, goes from one place to another and leaves `d'`. -/
inductive Moves (code : Code C O σ R) (t : C) (d : σ) : Place R → Place R → σ → Prop
  | pass : code.test d = true → Moves code t d .outerTest .lock d
  | refuse {r : R} : code.test d = false → code.refuse = some r →
      Moves code t d .outerTest (.done r) d
  | skip : code.test d = false → code.refuse = none → Moves code t d .outerTest .ret d
  | lock : Moves code t d .lock .innerTest d
  | enter : code.test d = true → Moves code t d .innerTest .construct d
  | leave : code.test d = false → Moves code t d .innerTest .unlock d
  | construct {o : O} : code.object t = some o →
      Moves code t d .construct .unlock (code.store o d)
  | unlock : Moves code t d .unlock .ret d
  | ret : Moves code t d .ret (.done (code.result d)) d

variable {code : Code C O σ R} {mutex : C → M} {s s' : State C M σ R} {t : C}

/-- A step moves its caller, and no other, and changes no mutex but that of its caller. -/
theorem moves_of_step (h : step code mutex s t = some s') :
    ∃ p, s'.place = Function.update s.place t p ∧ Moves code t s.data (s.place t) p s'.data ∧
      s'.locked = Function.update s.locked (mutex t)
        ((s.place t).lockedAfter (s.locked (mutex t))) := by
  have hsame := Function.update_eq_self (mutex t) s.locked
  rw [step] at h
  split at h <;> rename_i hp <;> rw [hp]
  · split_ifs at h with htest
    · cases h
      exact ⟨_, rfl, .pass htest, hsame.symm⟩
    · rw [Bool.not_eq_true] at htest
      split at h <;> rename_i hrefuse <;> cases h
      · exact ⟨_, rfl, .refuse htest hrefuse, hsame.symm⟩
      · exact ⟨_, rfl, .skip htest hrefuse, hsame.symm⟩
  · split_ifs at h
    cases h
    exact ⟨_, rfl, .lock, rfl⟩
  · cases h
    refine ⟨_, rfl, ?_, hsame.symm⟩
    split_ifs with htest
    · exact .enter htest
    · exact .leave (Bool.eq_false_iff.2 htest)
  · obtain ⟨o, ho, rfl⟩ := Option.map_eq_some_iff.1 h
    exact ⟨_, rfl, .construct ho, hsame.symm⟩
  · cases h
    exact ⟨_, rfl, .unlock, rfl⟩
  · cases h
    exact ⟨_, rfl, .ret, hsame.symm⟩
  · cases h

theorem step_innerTest (ht : s.place t = .innerTest) (htest : code.test s.data = true) :
    step code mutex s t = some (s.goto t .construct) := by
  simp only [step, ht, htest, if_true]

theorem step_construct {o : O} (ht : s.place t = .construct) (ho : code.object t = some o) :
    step code mutex s t = some { s.goto t .unlock with data := code.store o s.data } := by
  simp only [step, ht, ho, Option.map_some]

end Step

section Building

variable [Fintype C] [DecidableEq R]

/-- Those who have passed the inner test, and are still to make an object. -/
def building (code : Code C O σ R) (s : State C M σ R) : Finset C :=
  Finset.univ.filter fun t => s.place t = .construct ∧ (code.object t).isSome = true

variable {code : Code C O σ R} {s s' : State C M σ R} {t : C}

theorem mem_building :
    t ∈ building code s ↔ s.place t = .construct ∧ (code.object t).isSome = true := by
  rw [building, Finset.mem_filter]
  exact and_iff_right (Finset.mem_univ t)

theorem building_init (d : σ) : building code (State.init d : State C M σ R) = ∅ := by
  refine Finset.eq_empty_of_forall_notMem fun t ht => ?_
  cases (mem_building.1 ht).1

variable [DecidableEq C]

theorem building_of_enter (hs : s'.place = Function.update s.place t .construct)
    (ho : (code.object t).isSome = true) : building code s' = insert t (building code s) := by
  ext u
  rw [Finset.mem_insert, mem_building, mem_building, hs]
  by_cases hu : u = t
  · rw [hu, Function.update_self]
    exact iff_of_true ⟨rfl, ho⟩ (.inl rfl)
  · rw [Function.update_of_ne hu]
    exact (or_iff_right hu).symm

theorem building_of_move {p : Place R} (hs : s'.place = Function.update s.place t p)
    (hp : ¬(p = .construct ∧ (code.object t).isSome = true)) :
    building code s' = (building code s).erase t := by
  ext u
  rw [Finset.mem_erase, mem_building, mem_building, hs]
  by_cases hu : u = t
  · rw [hu, Function.update_self]
    exact iff_of_false hp fun h => h.1 rfl
  · rw [Function.update_of_ne hu]
    exact (and_iff_right hu).symm

theorem card_insert_building (ht : s.place t = .innerTest) :
    (insert t (building code s)).card = (building code s).card + 1 := by
  refine Finset.card_insert_of_notMem fun hmem => ?_
  rw [mem_building, ht] at hmem
  cases hmem.1

end Building

section Count

variable [Fintype C] [DecidableEq R]

/-- In good data, a test passes if and only if fewer than `limit` were made, and an object
    that is stored is one more. -/
structure Counts (code : Code C O σ R) (made : σ → Nat) (good : σ → Prop) (limit : Nat) : Prop where
  test_iff {d : σ} : good d → (code.test d = true ↔ made d < limit)
  store {d : σ} (o : O) : good d → good (code.store o d)
  made_store {d : σ} (o : O) : good d → made (code.store o d) = made d + 1

/-- If the caller `t` is about to pass the inner test, and to make an object, then there is
    room for it beside those who are constructing. -/
def Room (code : Code C O σ R) (made : σ → Nat) (limit : Nat) (s : State C M σ R) (t : C) : Prop :=
  s.place t = .innerTest → code.test s.data = true → (code.object t).isSome = true →
    made s.data + (building code s).card < limit

/-- The limit is kept, also when those who are constructing have constructed. -/
structure Within (code : Code C O σ R) (made : σ → Nat) (good : σ → Prop) (limit : Nat)
    (s : State C M σ R) : Prop where
  good : good s.data
  le : made s.data + (building code s).card ≤ limit

variable {code : Code C O σ R} {made : σ → Nat} {good : σ → Prop} {limit : Nat}

theorem Within.made_le {s : State C M σ R} (h : Within code made good limit s) :
    made s.data ≤ limit :=
  (Nat.le_add_right _ _).trans h.le

theorem Within.init {d : σ} (hd : good d) (hmade : made d ≤ limit) :
    Within code made good limit (State.init d : State C M σ R) := by
  refine ⟨hd, ?_⟩
  rw [building_init, Finset.card_empty]
  exact hmade

theorem Counts.made_eq_one {s : State C M σ R} (hc : Counts code made good 1)
    (hs : Within code made good 1 s) (htest : code.test s.data = false) : made s.data = 1 := by
  refine le_antisymm hs.made_le (not_lt.1 fun hlt => ?_)
  rw [(hc.test_iff hs.good).2 hlt] at htest
  cases htest

/-- The step of a caller takes it to a place that is right where one is made. -/
theorem Counts.same_of_moves {s s' : State C M σ R} {t : C} {p q : Place R} {r₀ : R}
    (hc : Counts code made good 1) (hrefuse : code.refuse = none)
    (hresult : ∀ d, good d → made d = 1 → code.result d = r₀)
    (hs : Within code made good 1 s) (hle : made s'.data ≤ 1) (hq : q.Same (made s.data) r₀)
    (h : Moves code t s.data q p s'.data) : p.Same (made s'.data) r₀ := by
  generalize hd : s'.data = d at h hle
  cases h with
  | pass | lock | enter => trivial
  | refuse _ hr =>
    rw [hrefuse] at hr
    cases hr
  | skip htest | leave htest => exact hc.made_eq_one hs htest
  | @construct o _ =>
    rw [hc.made_store o hs.good] at hle
    exact (hc.made_store o hs.good).trans (le_antisymm hle (Nat.le_add_left 1 _))
  | unlock => exact hq
  | ret => exact hresult s.data hs.good hq

variable [DecidableEq C] [DecidableEq M] {mutex : C → M} {s s' : State C M σ R} {t : C}
  {ts : List C}

/-- Only the inner test and the construction change who is constructing. -/
theorem building_of_step (h : step code mutex s t = some s') :
    building code s' = building code s ∧ s'.data = s.data ∨
    (s.place t = .innerTest ∧ code.test s.data = true ∧ (code.object t).isSome = true) ∧
      building code s' = insert t (building code s) ∧ s'.data = s.data ∨
    ∃ o, t ∈ building code s ∧ building code s' = (building code s).erase t ∧
      s'.data = code.store o s.data := by
  obtain ⟨p, hs, hmoves, -⟩ := moves_of_step h
  have hsame (hp : ¬(p = .construct ∧ (code.object t).isSome = true))
      (ht : s.place t ≠ .construct) : building code s' = building code s := by
    rw [building_of_move hs hp]
    exact Finset.erase_eq_of_notMem fun hmem => ht (mem_building.1 hmem).1
  generalize hq : s.place t = q, hd : s'.data = d at hmoves
  rw [hq] at hsame
  cases hmoves with
  | enter htest =>
    by_cases ho : (code.object t).isSome = true
    · exact .inr (.inl ⟨⟨rfl, htest, ho⟩, building_of_enter hs ho, rfl⟩)
    · exact .inl ⟨hsame (fun h => ho h.2) (by simp), rfl⟩
  | @construct o ho =>
    exact .inr (.inr ⟨o, mem_building.2 ⟨hq, Option.isSome_of_eq_some ho⟩,
      building_of_move hs (by simp), rfl⟩)
  | pass | refuse | skip | lock | leave | unlock | ret =>
    exact .inl ⟨hsame (by simp) (by simp), rfl⟩

theorem Counts.good_of_step (hc : Counts code made good limit) (hs : good s.data)
    (h : step code mutex s t = some s') : good s'.data := by
  obtain ⟨-, hd⟩ | ⟨-, -, hd⟩ | ⟨o, -, -, hd⟩ := building_of_step h <;> rw [hd]
  · exact hs
  · exact hs
  · exact hc.store o hs

theorem Counts.within_of_step (hc : Counts code made good limit)
    (hs : Within code made good limit s) (hroom : Room code made limit s t)
    (h : step code mutex s t = some s') : Within code made good limit s' := by
  refine ⟨hc.good_of_step hs.good h, ?_⟩
  obtain ⟨hb, hd⟩ | ⟨⟨ht, htest, ho⟩, hb, hd⟩ | ⟨o, ht, hb, hd⟩ := building_of_step h <;>
    rw [hb, hd]
  · exact hs.le
  · -- `t` takes the room that it found
    rw [card_insert_building ht]
    exact hroom ht htest ho
  · -- `t` is no longer constructing, but has constructed
    rw [hc.made_store o hs.good, Nat.add_right_comm, Nat.add_assoc, Finset.card_erase_add_one ht]
    exact hs.le

/-- At most `limit` are made, now and when those who are constructing go on. -/
def Kept (code : Code C O σ R) (mutex : C → M) (made : σ → Nat) (limit : Nat) (s : State C M σ R) :
    Prop :=
  ∀ us s', Along (step code mutex) (fun s u => s.place u = .construct) s us →
    exec (step code mutex) s us = some s' → made s'.data ≤ limit

theorem Counts.kept (hc : Counts code made good limit) (hs : Within code made good limit s) :
    Kept code mutex made limit s := by
  intro us s' hus hexec
  refine (throughout_of_along ?_ (fun _ hs => hs.made_le) hs hus).of_exec hexec
  intro s u s' hs hu hstep
  refine hc.within_of_step hs (fun hinner => ?_) hstep
  rw [hu] at hinner
  cases hinner

/-- Those who are constructing can all construct, one after the other. -/
theorem Counts.exists_construct_all (hc : Counts code made good limit) (hs : good s.data) :
    ∃ us s', Along (step code mutex) (fun s u => s.place u = .construct) s us ∧
      exec (step code mutex) s us = some s' ∧
      made s'.data = made s.data + (building code s).card := by
  generalize hk : (building code s).card = k
  induction k generalizing s with
  | zero => exact ⟨[], s, trivial, rfl, rfl⟩
  | succ k ih =>
    obtain ⟨t, hmem⟩ : (building code s).Nonempty := Finset.card_pos.1 (hk ▸ Nat.succ_pos k)
    obtain ⟨ht, ho⟩ := mem_building.1 hmem
    obtain ⟨o, ho⟩ := Option.isSome_iff_exists.1 ho
    obtain ⟨s₁, hstep, hs₁⟩ : ∃ s₁, step code mutex s t = some s₁ ∧
        s₁ = { s.goto t .unlock with data := code.store o s.data } :=
      ⟨_, step_construct ht ho, rfl⟩
    have hplace : s₁.place = Function.update s.place t .unlock := by rw [hs₁]; rfl
    have hdata : s₁.data = code.store o s.data := by rw [hs₁]
    have hcard := Finset.card_erase_add_one hmem
    rw [hk, ← building_of_move hplace (by simp)] at hcard
    obtain ⟨us, s', halong, hexec, hmade⟩ := ih (hc.good_of_step hs hstep) (Nat.succ_inj.1 hcard)
    refine ⟨t :: us, s', fun s₂ hs₂ => ⟨ht, ?_⟩, ?_, ?_⟩
    · obtain rfl : s₁ = s₂ := Option.some.inj (hstep.symm.trans hs₂)
      exact halong
    · rw [exec, hstep, Option.bind_some, hexec]
    · rw [hmade, hdata, hc.made_store o hs, Nat.add_assoc, Nat.add_comm 1]

/-- After an inner test that passes where there is no room, the callers can go on to
    exceed the limit. -/
theorem Counts.not_kept (hc : Counts code made good limit) (hs : Within code made good limit s)
    (hroom : ¬Room code made limit s t) (h : step code mutex s t = some s') :
    ¬Kept code mutex made limit s' := by
  rw [Room, Classical.not_imp, Classical.not_imp, Classical.not_imp, not_lt] at hroom
  obtain ⟨ht, htest, ho, hle⟩ := hroom
  rw [step_innerTest ht htest, Option.some.injEq] at h
  subst h
  intro hkept
  have hgood : good (s.goto t .construct : State C M σ R).data := hs.good
  obtain ⟨us, s', halong, hexec, hmade⟩ := hc.exists_construct_all hgood
  have hle' := hkept us s' halong hexec
  rw [hmade, building_of_enter rfl ho, card_insert_building ht, ← Nat.add_assoc] at hle'
  exact absurd (hle.trans_lt (Nat.lt_succ_self _)) hle'.not_gt

/-- The limit is kept if and only if every inner test that passes leaves room. -/
theorem Counts.along_iff_kept (hc : Counts code made good limit) (hs : Within code made good limit s) :
    Along (step code mutex) (Room code made limit) s ts ↔
      Throughout (step code mutex) (Kept code mutex made limit) s ts :=
  along_iff_throughout (fun _ _ _ hs hroom hstep => hc.within_of_step hs hroom hstep)
    (fun _ hs => hc.kept hs) (fun _ _ _ hs hroom hstep => hc.not_kept hs hroom hstep) hs

/-! ## The limit one -/

theorem Counts.made_le_made (hc : Counts code made good limit) (hs : good s.data)
    (h : step code mutex s t = some s') : made s.data ≤ made s'.data := by
  obtain ⟨-, hd⟩ | ⟨-, -, hd⟩ | ⟨o, -, -, hd⟩ := building_of_step h <;> rw [hd]
  rw [hc.made_store o hs]
  exact Nat.le_succ _

variable {r₀ : R}

theorem Counts.same_of_step (hc : Counts code made good 1) (hrefuse : code.refuse = none)
    (hresult : ∀ d, good d → made d = 1 → code.result d = r₀) (hs : Within code made good 1 s)
    (hsame : ∀ u, (s.place u).Same (made s.data) r₀) (hroom : Room code made 1 s t)
    (h : step code mutex s t = some s') : ∀ u, (s'.place u).Same (made s'.data) r₀ := by
  have hle : made s'.data ≤ 1 := (hc.within_of_step hs hroom h).made_le
  have hmono : made s.data ≤ made s'.data := hc.made_le_made hs.good h
  obtain ⟨p, hp, hmoves, -⟩ := moves_of_step h
  intro u
  rw [hp]
  by_cases hu : u = t
  · rw [hu, Function.update_self]
    exact hc.same_of_moves hrefuse hresult hs hle (hsame t) hmoves
  · rw [Function.update_of_ne hu]
    exact (hsame u).mono fun hmade => le_antisymm hle (hmade ▸ hmono)

/-- The limit one is kept if and only if every inner test that passes leaves room, and
    then the callers return the same. -/
theorem Counts.along_iff_same (hc : Counts code made good 1) (hrefuse : code.refuse = none)
    (hresult : ∀ d, good d → made d = 1 → code.result d = r₀) (hs : Within code made good 1 s)
    (hsame : ∀ u, (s.place u).Same (made s.data) r₀) :
    Along (step code mutex) (Room code made 1) s ts ↔
      Throughout (step code mutex)
        (fun s => Kept code mutex made 1 s ∧ ∀ u r, s.place u = .done r → r = r₀) s ts := by
  refine along_iff_throughout
    (I := fun s => Within code made good 1 s ∧ ∀ u, (s.place u).Same (made s.data) r₀)
    (fun s t s' hI hroom hstep => ?_) (fun s hI => ?_) (fun s t s' hI hroom hstep hP => ?_)
    ⟨hs, hsame⟩
  · exact ⟨hc.within_of_step hI.1 hroom hstep,
      hc.same_of_step hrefuse hresult hI.1 hI.2 hroom hstep⟩
  · refine ⟨hc.kept hI.1, fun u r hu => ?_⟩
    have hdone := hI.2 u
    rw [hu] at hdone
    exact hdone
  · exact hc.not_kept hI.1 hroom hstep hP.1

end Count

/-! ## Every call returns -/

/-- How many instructions are left, at most. -/
def Place.left : Place R → Nat
  | .outerTest => 6
  | .lock => 5
  | .innerTest => 4
  | .construct => 3
  | .unlock => 2
  | .ret => 1
  | .done _ => 0

theorem Moves.left_lt {code : Code C O σ R} {t : C} {d d' : σ} {p q : Place R}
    (h : Moves code t d p q d') : q.left < p.left := by
  cases h <;> exact Nat.lt_succ_of_le (by simp [Place.left])

theorem Moves.holds {code : Code C O σ R} {t : C} {d d' : σ} {p q : Place R} {b : Bool}
    (h : Moves code t d p q d') (hb : b = true → p.holds = true)
    (hlocked : p.lockedAfter b = true) : q.holds = true := by
  cases h with
  | lock | enter | leave | construct => rfl
  | unlock => cases hlocked
  | pass | refuse | skip | ret => cases hb hlocked

/-- The mutex of a caller is locked only while the caller holds it. -/
def Held (mutex : C → M) (s : State C M σ R) : Prop :=
  ∀ t, s.locked (mutex t) = true → (s.place t).holds = true

theorem held_init {mutex : C → M} (d : σ) : Held mutex (State.init d : State C M σ R) := by
  intro t h
  cases h

section Return

variable [DecidableEq C] [DecidableEq M] {code : Code C O σ R} {mutex : C → M}
  {s s' : State C M σ R} {t : C} {ts : List C}

/-- A caller takes each instruction once, at most. -/
theorem count_le_of_exec (h : exec (step code mutex) s ts = some s') :
    ts.count t + (s'.place t).left ≤ (s.place t).left := by
  induction ts generalizing s with
  | nil =>
    cases h
    exact (Nat.zero_add _).le
  | cons u ts ih =>
    obtain ⟨s₁, hstep, hrest⟩ := Option.bind_eq_some_iff.1 h
    obtain ⟨p, hp, hmoves, -⟩ := moves_of_step hstep
    have hle := ih hrest
    rw [hp] at hle
    by_cases hu : u = t
    · rw [hu] at hle hmoves ⊢
      rw [Function.update_self] at hle
      rw [List.count_cons_self, Nat.add_right_comm]
      exact (Nat.succ_le_succ hle).trans hmoves.left_lt
    · rw [Function.update_of_ne (Ne.symm hu)] at hle
      rw [List.count_cons_of_ne hu]
      exact hle

theorem held_of_step (hm : Function.Injective mutex) (hs : Held mutex s)
    (h : step code mutex s t = some s') : Held mutex s' := by
  obtain ⟨p, hp, hmoves, hlocked⟩ := moves_of_step h
  intro u hu
  rw [hlocked] at hu
  rw [hp]
  by_cases hut : u = t
  · rw [hut, Function.update_self] at hu ⊢
    exact hmoves.holds (hs t) hu
  · rw [Function.update_of_ne hut]
    rw [Function.update_of_ne fun heq => hut (hm heq)] at hu
    exact hs u hu

/-- A caller with a mutex of its own has an instruction to take until it has left, if its
    constructor returns. -/
theorem done_of_step_eq_none (hs : Held mutex s) (ho : (code.object t).isSome = true)
    (h : step code mutex s t = none) : ∃ r, s.place t = .done r := by
  rw [step] at h
  split at h <;> rename_i hp
  · split_ifs at h
    split at h <;> cases h
  · split_ifs at h with hlocked
    have hholds := hs t hlocked
    rw [hp] at hholds
    cases hholds
  · cases h
  · rw [Option.map_eq_none_iff.1 h] at ho
    cases ho
  · cases h
  · cases h
  · exact ⟨_, hp⟩

/-- Callers that each have a mutex of their own leave, if they go on. -/
theorem returns_of_exec (hm : Function.Injective mutex) (hs : Held mutex s)
    (ho : (code.object t).isSome = true) (h : exec (step code mutex) s ts = some s') :
    ts.count t ≤ (s.place t).left ∧ (step code mutex s' t = none → ∃ r, s'.place t = .done r) :=
  ⟨(Nat.le_add_right _ _).trans (count_le_of_exec h),
    done_of_step_eq_none (exec_inv (fun _ _ _ hs hstep => held_of_step hm hs hstep) hs h) ho⟩

end Return

end DoubleChecked
