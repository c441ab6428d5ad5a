import VsHttpServer.OneLoop
import Mathlib.Algebra.BigOperators.Group.Finset.Piecewise
import Mathlib.Algebra.Order.BigOperators.Group.Finset

/-!
# What becomes of the calls

With one event loop, and until a worker finds more than `m_AvailHigh` idle threads, the only
thing that can stop a call is a signal that was missed.

* `Inv.exists_work`, `Inv.exists_run`: what a worker or the loop has to do, it can do, unless
  it waits;
* `Inv.exec_crowded`: and so can a worker that removes threads while the loop holds it;
* `Inv.goesOn_of_missed`: as long as no signal has been missed, something that is left to do
  can be done;
* `allExecuted_iff`: all calls can still come to be executed if and only if no signal has
  been missed.
-/

namespace VsHttpServer

open Transition

/-- A sum in which one term has become at most `b`. -/
theorem sum_le_sum_add {ι : Type*} [DecidableEq ι] {S : Finset ι} {f g : ι → ℕ} {i : ι} {b : ℕ}
    (hi : f i ≤ b) (hne : ∀ j ≠ i, f j = g j) : ∑ j ∈ S, f j ≤ ∑ j ∈ S, g j + b :=
  calc ∑ j ∈ S, f j
    _ ≤ ∑ j ∈ S, (g j + if j = i then b else 0) := Finset.sum_le_sum fun j _ => by
      split_ifs with hj
      · exact hj ▸ hi.trans (Nat.le_add_left _ _)
      · exact (hne j hj).le
    _ = ∑ j ∈ S, g j + ∑ j ∈ S, (if j = i then b else 0) := Finset.sum_add_distrib
    _ ≤ ∑ j ∈ S, g j + b := by
      rw [Finset.sum_ite_eq']
      split_ifs
      · exact le_rfl
      · exact Nat.add_le_add_left (Nat.zero_le b) _

/-- How many steps a worker with a job has before it, before it has locked `m_WorkMutex`. -/
def WaitPhase.toGo : WaitPhase → Nat
  | .entering => 9
  | .waiting => 8
  | .testing => 7
  | .leaving => 6

namespace PoolWaits

variable {c : PoolNums} {d₀ : LoopId} {s s' : PoolWaits} {t : ThreadId}

/-! ## What is left to do -/

/-- How many steps a worker has before it, until it waits for its next job. -/
def weight (s : PoolWaits) (t : ThreadId) : Nat :=
  match s.dispatch.worker t with
  | .blocked => if (s.dispatch.job t).isSome then (s.wakeup.phase t).toGo else 0
  | .running => 5
  | .cleared => 4
  | .released => 1 + (s.toSignal t).length
  | .deleting _ => 0

/-- The steps that a call has before it: each of them leaves less to do, together with what
    it makes a worker do, where the pool has `n` as `m_InitNum`. -/
def callWeight (n : Nat) (s : PoolWaits) (d : LoopId) : Nat :=
  match s.dispatch.loop d with
  | .called _ => 80 + 10 * n
  | .maxWait _ =>
    60 + 10 * n + if s.entering d then 2 else if s.waiters .maxNum = [] then 0 else 1
  | .growing _ => 50 + 10 * n
  | .creating _ m => 40 + 10 * m
  | .fetching _ => 30
  | .holding _ _ => 20
  | .atRest => if (s.wakeup.setJob d).isSome then 10 else 0

theorem weight_congr {u : ThreadId} (hw : s'.dispatch.worker u = s.dispatch.worker u)
    (hj : s'.dispatch.job u = s.dispatch.job u) (hp : s'.wakeup.phase u = s.wakeup.phase u)
    (hs : s'.toSignal u = s.toSignal u) : s'.weight u = s.weight u := by
  rw [weight, weight, hw, hj, hp, hs]

theorem weight_mono {u : ThreadId} (hw : s'.dispatch.worker u = s.dispatch.worker u)
    (hj : s'.dispatch.job u = s.dispatch.job u)
    (hp : (s'.wakeup.phase u).toGo ≤ (s.wakeup.phase u).toGo)
    (hs : s'.toSignal u = s.toSignal u) : s'.weight u ≤ s.weight u := by
  rw [weight, weight, hw, hj, hs]
  cases s.dispatch.worker u with
  | blocked =>
    dsimp only
    split_ifs
    · exact hp
    · exact le_rfl
  | _ => exact le_rfl

/-- A step of the worker `t` that leaves it one step less, and nobody more. -/
structure Lowers (d₀ : LoopId) (t : ThreadId) (s s' : PoolWaits) : Prop where
  self : s'.weight t + 1 = s.weight t
  other : ∀ u ≠ t, s'.weight u = s.weight u
  created : s'.dispatch.pool.created = s.dispatch.pool.created
  loop : s'.dispatch.loop = s.dispatch.loop
  setJob : s'.wakeup.setJob = s.wakeup.setJob
  entering : s'.entering = s.entering
  waiters : s'.waiters .maxNum = s.waiters .maxNum ∨ s'.waiters .maxNum = []
  missedJob : ∀ u, s'.wakeup.MissedJob u → s.wakeup.MissedJob u
  hung : ¬s.entering d₀ → s'.Hung d₀ → s.Hung d₀

theorem Inv.lowers_signal (h : s.Inv c d₀) {k : PoolCond} {ks : List PoolCond}
    (ht : s.toSignal t = k :: ks) : Lowers d₀ t s (s.signal t k ks 0) := by
  obtain ⟨hshape, hw⟩ := (h.toSignal t).resolve_left (ht ▸ List.cons_ne_nil k ks)
  have hmaxNum : (s.signal t .maxNum ks 0).waiters .maxNum = [] := by
    rw [waiters_signal, if_pos rfl]
    rcases h.maxNum with hnil | ⟨hone, -⟩
    · rw [hnil, List.eraseIdx_nil]
    · rw [hone, Nat.zero_mod, List.eraseIdx_cons_zero]
  refine ⟨?_, fun u hu => ?_, rfl, rfl, rfl, rfl, ?_, fun u hu => hu, fun hent hhung => ?_⟩
  · have hw' : (s.signal t k ks 0).dispatch.worker t = .released := hw
    simp [weight, hw', hw, ht, Nat.add_assoc]
  · exact weight_congr rfl rfl rfl ((toSignal_signal t u k ks 0).trans (if_neg hu))
  · rw [ht] at hshape
    rcases hshape with he | he <;> cases he
    · exact .inr hmaxNum
    · exact .inl (by simp)
  · rw [ht] at hshape
    rcases hshape with he | he <;> cases he
    · -- the loop has been woken
      rcases hhung.waits with hd | hd
      · exact absurd hd hent
      · rw [hmaxNum] at hd
        cases hd
    · exact absurd (hhung.toSignal t) (by simp)

theorem lowers_proceed {w : Wakeup} (hself : (s.proceed t w).weight t + 1 = s.weight t)
    (hother : ∀ u ≠ t, w.dispatch.worker u = s.dispatch.worker u ∧
      w.dispatch.job u = s.dispatch.job u ∧ w.phase u = s.wakeup.phase u)
    (hcreated : w.dispatch.pool.created = s.dispatch.pool.created)
    (hloop : w.dispatch.loop = s.dispatch.loop) (hset : w.setJob = s.wakeup.setJob)
    (hmissed : w.MissedJob t → s.wakeup.MissedJob t)
    (hbusy : s.dispatch.worker t ≠ .cleared →
      w.dispatch.pool.busyList = s.dispatch.pool.busyList) : Lowers d₀ t s (s.proceed t w) := by
  refine ⟨hself, fun u hu => ?_, hcreated, hloop, hset, rfl, .inl rfl, fun u hm => ?_,
    fun _ hh => ?_⟩
  · obtain ⟨hw, hj, hp⟩ := hother u hu
    exact weight_congr hw hj hp ((toSignal_proceed t u w).trans (if_neg fun he => hu he.1))
  · by_cases hu : u = t
    · exact hu ▸ hmissed (hu ▸ hm)
    · obtain ⟨-, hj, hp⟩ := hother u hu
      obtain ⟨hphase, hjob, hno⟩ := hm
      exact ⟨hp ▸ hphase, hj ▸ hjob, hset ▸ hno⟩
  · -- at the end of `MoveToIdleList` there is a signal to come
    have hcleared : s.dispatch.worker t ≠ .cleared := fun hc =>
      absurd (hh.toSignal t) (by simp [hc])
    refine ⟨hloop ▸ hh.loop, hh.waits, hbusy hcleared ▸ hh.busyList, fun u => ?_⟩
    have := hh.toSignal u
    rwa [toSignal_proceed, if_neg fun hu => hcleared hu.2] at this

/-- A worker that has something to do can do it, if it does not wait on `m_JobCond`. -/
theorem Inv.lowers_work (h : s.Inv c d₀) (hne : s.weight t ≠ 0) (ht : s.toSignal t = [])
    (hgo : s.dispatch.worker t = .blocked → s.wakeup.phase t ≠ .waiting ∧
      (s.wakeup.phase t = .leaving → s.wakeup.workMutex t = none))
    (hcrowd : s.weight t = 1 → ¬s.dispatch.pool.isCrowded) :
    ∃ w, s.wakeup.work t = some w ∧ Lowers d₀ t s (s.proceed t w) := by
  cases hw : s.dispatch.worker t with
  | blocked =>
    have hjob : (s.dispatch.job t).isSome := by
      by_contra hnone
      exact hne (by simp [weight, hw, hnone])
    obtain ⟨hnot, hmutex⟩ := hgo hw
    cases hp : s.wakeup.phase t with
    | waiting => exact absurd hp hnot
    | entering =>
      refine ⟨s.wakeup.setPhase t .waiting, by rw [Wakeup.work, hw, hp], ?_⟩
      have hw' : (s.proceed t (s.wakeup.setPhase t .waiting)).dispatch.worker t = .blocked := hw
      have hj' : ((s.proceed t (s.wakeup.setPhase t .waiting)).dispatch.job t).isSome := hjob
      have hp' : (s.proceed t (s.wakeup.setPhase t .waiting)).wakeup.phase t = .waiting := by
        simp [proceed]
      refine lowers_proceed ?_ (fun u hu => ⟨rfl, rfl, by simp [hu]⟩) rfl rfl rfl (fun hm => ?_)
        fun _ => rfl
      · simp [weight, hw', hw, hp, hjob, hj', hp', WaitPhase.toGo]
      · exact ⟨.inl hp, hjob, hm.2.2⟩
    | testing =>
      refine ⟨s.wakeup.test t, by rw [Wakeup.work, hw, hp], ?_⟩
      have hw' : (s.proceed t (s.wakeup.test t)).dispatch.worker t = .blocked := hw
      have hj' : ((s.proceed t (s.wakeup.test t)).dispatch.job t).isSome := hjob
      have hnone : (s.dispatch.job t).isNone = false := by simp [hjob]
      have hp' : (s.proceed t (s.wakeup.test t)).wakeup.phase t = .leaving := by
        simp [proceed, hnone]
      refine lowers_proceed ?_ (fun u hu => ⟨rfl, rfl, by simp [hu]⟩) rfl rfl rfl (fun hm => ?_)
        fun _ => rfl
      · simp [weight, hw', hw, hp, hjob, hj', hp', WaitPhase.toGo]
      · rcases hm.1 with he | he <;> exact absurd (hp'.symm.trans he) (by simp)
    | leaving =>
      refine ⟨s.wakeup.take t, by rw [Wakeup.work, hw, hp]; exact if_pos (hmutex hp), ?_⟩
      have hw' : (s.proceed t (s.wakeup.take t)).dispatch.worker t = .running := by
        simp [proceed, dispatch]
      refine lowers_proceed ?_ (fun u hu => ⟨by simp [hu], rfl, by simp [hu]⟩) rfl rfl rfl
        (fun hm => ?_) fun _ => rfl
      · simp [weight, hw', hw, hp, hjob, WaitPhase.toGo]
      · rcases hm.1 with he | he <;> simp at he
  | running =>
    refine ⟨{ s.wakeup with dispatch := s.dispatch.complete t }, ?_, ?_⟩
    · rw [Wakeup.work, hw]
      simp [Dispatch.work, hw]
    have hw' : (s.proceed t { s.wakeup with dispatch := s.dispatch.complete t }).dispatch.worker t =
        .cleared := by simp [proceed, dispatch]
    refine lowers_proceed ?_ (fun u hu => ⟨by simp [hu], by simp [hu], rfl⟩) rfl rfl rfl
      (fun hm => ?_) fun _ => rfl
    · simp [weight, hw', hw]
    · exact absurd hm.2.1 (by simp)
  | cleared =>
    refine ⟨{ s.wakeup with dispatch := s.dispatch.release t }, ?_, ?_⟩
    · rw [Wakeup.work, hw]
      simp [Dispatch.work, hw]
    have hw' : (s.proceed t { s.wakeup with dispatch := s.dispatch.release t }).dispatch.worker t =
        .released := by simp [proceed, dispatch]
    refine lowers_proceed ?_ (fun u hu => ⟨by simp [hu], rfl, rfl⟩) rfl rfl rfl
      (fun hm => hm) fun hc => absurd hw hc
    simp [weight, hw', hw]
  | released =>
    have hmany := hcrowd (by simp [weight, hw, ht])
    refine ⟨{ s.wakeup with dispatch := s.dispatch.setWorker t .blocked }, ?_, ?_⟩
    · rw [Wakeup.work, hw]
      simp [Dispatch.work, hw, hmany]
    have hjob : s.dispatch.job t = none := by
      cases hj : s.dispatch.job t with
      | none => rfl
      | some j => exact absurd (h.calls.calls.hasJob t j hj) (by simp [hw, WorkerPhase.HasJob])
    have hw' : (s.proceed t
        { s.wakeup with dispatch := s.dispatch.setWorker t .blocked }).dispatch.worker t =
        .blocked := by simp [proceed, dispatch, Dispatch.worker_setWorker]
    have hj' : (s.proceed t
        { s.wakeup with dispatch := s.dispatch.setWorker t .blocked }).dispatch.job t = none := hjob
    refine lowers_proceed ?_ (fun u hu => ⟨?_, rfl, rfl⟩) rfl rfl rfl (fun hm => hm) fun _ => rfl
    · simp [weight, hw', hw, hj', ht]
    · rw [Dispatch.worker_setWorker, if_neg hu]
  | deleting num => exact absurd (by simp [weight, hw]) hne

theorem Inv.exists_work (h : s.Inv c d₀) (hne : s.weight t ≠ 0)
    (hgo : s.dispatch.worker t = .blocked → s.wakeup.phase t ≠ .waiting ∧
      (s.wakeup.phase t = .leaving → s.wakeup.workMutex t = none))
    (hcrowd : s.weight t = 1 → ¬s.dispatch.pool.isCrowded) :
    ∃ s', s.step (fun _ => d₀) (.work t 0) = some s' ∧ Lowers d₀ t s s' := by
  cases ht : s.toSignal t with
  | cons k ks =>
    refine ⟨s.signal t k ks 0, ?_, h.lowers_signal ht⟩
    rw [PoolWaits.step, PoolWaits.work, ht]
  | nil =>
    obtain ⟨w, hw, hlowers⟩ := h.lowers_work hne ht hgo hcrowd
    refine ⟨s.proceed t w, ?_, hlowers⟩
    rw [PoolWaits.step, PoolWaits.work, ht, hw]
    rfl

/-- What the workers have before them. -/
def workLeft (s : PoolWaits) : Nat := ∑ t ∈ Finset.range s.dispatch.pool.created, s.weight t

/-- A step of the loop `d₀` in a call, which gives at most one worker something to do. -/
structure Advances (c : PoolNums) (d₀ : LoopId) (s s' : PoolWaits) : Prop where
  callWeight : s'.callWeight c.initNum d₀ + 10 ≤ s.callWeight c.initNum d₀
  workLeft : s'.workLeft ≤ s.workLeft + 9
  maxWait : ∀ j, s'.dispatch.loop d₀ ≠ .maxWait j
  missedJob : ∀ t, s'.wakeup.MissedJob t → s.wakeup.MissedJob t
  worker : s'.dispatch.worker = s.dispatch.worker
  phase : ∀ t, s'.wakeup.phase t = s.wakeup.phase t ∨ s'.wakeup.phase t = .testing
  toSignal : s'.toSignal = s.toSignal
  busy : s'.dispatch.pool.busyList.length + (s'.dispatch.loop d₀).call.toList.length =
    s.dispatch.pool.busyList.length + (s.dispatch.loop d₀).call.toList.length

/-- The weight of a worker that signals nothing is small. -/
theorem weight_le (ht : s.toSignal t = []) : s.weight t ≤ 9 := by
  rw [weight]
  cases s.dispatch.worker t with
  | blocked =>
    dsimp only
    split_ifs
    · cases s.wakeup.phase t <;> simp [WaitPhase.toGo]
    · exact Nat.zero_le 9
  | released => simp [ht]
  | _ => simp

/-- A step to another place, which creates at most one thread. -/
theorem Inv.advances_setLoop (h : s.Inv c d₀) {must : Bool} {l : LoopPhase} {p : CThreadPool}
    {w : Wakeup} (hw : w = { s.wakeup with dispatch := { s.dispatch with pool := p }.setLoop d₀ l })
    (hl : ∀ j, l ≠ .maxWait j) (hcall : l.call = (s.dispatch.loop d₀).call)
    (hbusy : p.busyList = s.dispatch.pool.busyList)
    (hcreated : p.created = s.dispatch.pool.created ∨ p.created = s.dispatch.pool.created + 1)
    (hweight : (s.go d₀ must w).callWeight c.initNum d₀ + 10 ≤ s.callWeight c.initNum d₀) :
    Advances c d₀ s (s.go d₀ must w) := by
  subst hw
  have hself : ({ s.dispatch with pool := p }.setLoop d₀ l).loop d₀ = l := by
    rw [Dispatch.loop_setLoop, if_pos rfl]
  refine ⟨hweight, ?_, fun j => ?_, fun t ht => ht, rfl, fun t => .inl rfl, rfl, ?_⟩
  · change ∑ t ∈ Finset.range p.created, s.weight t ≤ _
    rcases hcreated with he | he
    · rw [he]
      exact Nat.le_add_right _ 9
    · rw [he, Finset.sum_range_succ]
      -- the new thread has nothing to signal
      refine Nat.add_le_add_left (weight_le ?_) _
      by_contra hsig
      have hmem := h.mem_idleList hsig
      exact (h.lossless.single.lt_created _ (List.mem_append_left _ hmem)).false
  · exact fun hj => hl j (hself.symm.trans hj)
  · change p.busyList.length +
      (({ s.dispatch with pool := p }.setLoop d₀ l).loop d₀).call.toList.length = _
    rw [hself, hbusy, hcall]

theorem run_eq {d : LoopId} {w : Wakeup} (hwait : d ∉ s.waiters .idle ++ s.waiters .maxNum)
    (hent : ¬s.entering d) (hidle : ∀ j, s.dispatch.loop d = .creating j 0 →
      s.dispatch.pool.idleList ≠ []) (hw : s.wakeup.run d = some w) :
    ∃ must, s.run d = some (s.go d must w) ∧ (must → ∃ j, s.dispatch.loop d = .called j) := by
  rw [PoolWaits.run, if_neg hwait, if_neg hent, hw]
  split
  case h_1 j hj => exact ⟨_, rfl, fun _ => ⟨j, hj⟩⟩
  case h_2 j hj =>
    rw [if_neg (hidle j hj)]
    exact ⟨false, rfl, by simp⟩
  case h_3 => exact ⟨false, rfl, by simp⟩

/-- The end of `SetJob`: if its worker waits, it will test `m_Job` again. -/
theorem Inv.advances_signal (h : s.Inv c d₀) {must : Bool} (ht : s.wakeup.setJob d₀ = some t)
    (hphase : s.wakeup.phase t ≠ .entering) :
    Advances c d₀ s (s.go d₀ must (s.wakeup.signal d₀ t)) := by
  have hrest := (h.setJob d₀ t ht).2
  have hrest' : (s.go d₀ must (s.wakeup.signal d₀ t)).dispatch.loop d₀ = .atRest := hrest
  have hset : (s.go d₀ must (s.wakeup.signal d₀ t)).wakeup.setJob d₀ = none := by
    simp [PoolWaits.go]
  have hgo : ∀ u, ((s.wakeup.signal d₀ t).phase u).toGo ≤ (s.wakeup.phase u).toGo := by
    intro u
    rw [Wakeup.phase_signal]
    split_ifs with hu
    · rw [hu.1, hu.2]
      decide
    · exact le_rfl
  refine ⟨?_, ?_, by simp [hrest'], fun u hu => ?_, rfl, fun u => ?_, rfl, rfl⟩
  · simp [PoolWaits.callWeight, hrest, hrest', hset, ht]
  · refine (Finset.sum_le_sum fun u _ => ?_).trans (Nat.le_add_right _ 9)
    exact weight_mono rfl rfl (hgo u) rfl
  · obtain ⟨hp, hjob, hno⟩ := hu
    change (s.wakeup.signal d₀ t).phase u = _ ∨ (s.wakeup.signal d₀ t).phase u = _ at hp
    rw [Wakeup.phase_signal] at hp
    split_ifs at hp with hut
    · rcases hp with he | he <;> cases he
    · refine ⟨hp, hjob, fun d hd => ?_⟩
      obtain rfl := (h.setJob d u hd).1
      -- the worker of the signal is about to wait, or waits
      obtain rfl : t = u := Option.some.inj (ht.symm.trans hd)
      rcases hp with he | he
      · exact hphase he
      · exact hut ⟨rfl, he⟩
  · change (s.wakeup.signal d₀ t).phase u = _ ∨ (s.wakeup.signal d₀ t).phase u = _
    rw [Wakeup.phase_signal]
    split_ifs
    · exact .inr rfl
    · exact .inl rfl

/-- The worker that the loop holds is given its job. -/
theorem Inv.advances_store (h : s.Inv c d₀) {must : Bool} {j : Call}
    (hl : s.dispatch.loop d₀ = .holding j t) (hw : s.dispatch.worker t = .blocked) :
    Advances c d₀ s (s.go d₀ must (s.wakeup.store d₀ j t)) := by
  have hrest : (s.dispatch.assign d₀ j t).loop d₀ = .atRest := by
    rw [Dispatch.loop_assign, if_pos rfl]
  have hrest' : (s.go d₀ must (s.wakeup.store d₀ j t)).dispatch.loop d₀ = .atRest := hrest
  have hset : (s.go d₀ must (s.wakeup.store d₀ j t)).wakeup.setJob d₀ = some t := by
    simp [PoolWaits.go]
  have hjob := h.lossless.job_eq_none hl
  have hother : ∀ u ≠ t, (s.dispatch.assign d₀ j t).job u = s.dispatch.job u := fun u hu => by
    rw [Dispatch.job_assign, if_neg hu]
  refine ⟨?_, ?_, by simp [hrest'], fun u hu => ?_, rfl, fun u => .inl rfl, rfl, ?_⟩
  · simp [PoolWaits.callWeight, hl, hrest', hset]
  · have hsig : s.toSignal t = [] := by
      by_contra hsig
      exact absurd (((h.toSignal t).resolve_left hsig).2.symm.trans hw) (by simp)
    change ∑ u ∈ Finset.range s.dispatch.pool.created,
      (s.go d₀ must (s.wakeup.store d₀ j t)).weight u ≤ _
    exact sum_le_sum_add (weight_le hsig) fun u hu => weight_congr rfl (hother u hu) rfl rfl
  · by_cases hut : u = t
    · exact absurd hset (hut ▸ hu.2.2 d₀)
    · obtain ⟨hp, hj, hno⟩ := hu
      have hnone := h.setJob_eq_none (by rw [hl]; simp)
      exact ⟨hp, hother u hut ▸ hj, fun d => by simp [hnone d]⟩
  · change (s.dispatch.pool.busyList ++ [t]).length + _ = _
    rw [hrest', hl, List.length_append]
    rfl

/-- No worker is in a `SetJob` if no loop is. -/
theorem Inv.workMutex_eq_none (h : s.Inv c d₀) (hset : ∀ d, s.wakeup.setJob d = none)
    (t : ThreadId) : s.wakeup.workMutex t = none := by
  cases hm : s.wakeup.workMutex t with
  | none => rfl
  | some d => exact absurd (((h.calls.paired d t).2 hm).symm.trans (hset d)) (by simp)

theorem Inv.growNum_le (h : s.Inv c d₀) : s.dispatch.pool.growNum ≤ c.initNum := by
  obtain ⟨hmax, hlow, hinit⟩ := h.lossless.bounded.nums
  have hle := h.whole.length_le h.lossless
  rw [h.whole.length, h.lossless.noneRemoved.created] at hle
  have hlt := c.maxNum_lt
  refine hinit ▸ (CThreadPool.growNum_le (hmax ▸ hlt) ?_ ?_ ?_).1
  · exact hinit ▸ c.initNum_le_maxNum.trans_lt hlt
  · rw [hlow, hinit]
    exact c.availLow_le
  · omega

/-- A loop that is in a call, and need not wait, can go on. -/
theorem Inv.exists_run (h : s.Inv c d₀) (hne : s.callWeight c.initNum d₀ ≠ 0)
    (hnot : ¬s.Waits d₀)
    (hcalled : ∀ j, s.dispatch.loop d₀ = .called j →
      s.dispatch.pool.busyList.length ≠ s.dispatch.pool.maxNum)
    (hholding : ∀ j t, s.dispatch.loop d₀ = .holding j t → s.dispatch.worker t = .blocked)
    (hsignal : ∀ t, s.wakeup.setJob d₀ = some t → s.wakeup.phase t ≠ .entering) :
    ∃ s', s.step (fun _ => d₀) (.run d₀) = some s' ∧ Advances c d₀ s s' := by
  have hwait : d₀ ∉ s.waiters .idle ++ s.waiters .maxNum := by
    rw [h.idle, List.nil_append]
    exact fun hmem => hnot (.inr hmem)
  have hidle : ∀ j, s.dispatch.loop d₀ = .creating j 0 → s.dispatch.pool.idleList ≠ [] := by
    intro j hj hnil
    have hsure := h.sure
    rw [Dispatch.Sure, hj, hnil] at hsure
    exact absurd hsure (lt_irrefl 0)
  suffices hw : ∃ w, s.wakeup.run d₀ = some w ∧ ∀ must, Advances c d₀ s (s.go d₀ must w) by
    obtain ⟨w, hw, hadv⟩ := hw
    obtain ⟨must, hs, -⟩ := run_eq hwait (fun he => hnot (.inl he)) hidle hw
    exact ⟨s.go d₀ must w, hs, hadv must⟩
  have hnone : s.dispatch.loop d₀ ≠ .atRest → s.wakeup.setJob d₀ = none := fun hl =>
    h.setJob_eq_none hl d₀
  -- all but the first and the last places are passed in the dispatch alone
  have hset : ∀ l p, s.dispatch.loop d₀ ≠ .atRest → (∀ j t, s.dispatch.loop d₀ ≠ .holding j t) →
      s.dispatch.run d₀ = some ({ s.dispatch with pool := p }.setLoop d₀ l) →
      s.wakeup.run d₀ =
        some { s.wakeup with dispatch := { s.dispatch with pool := p }.setLoop d₀ l } := by
    intro l p hrest hhold hd
    rw [Wakeup.run, hnone hrest]
    split
    case h_1 => contradiction
    case h_2 j t _ hl => exact absurd hl (hhold j t)
    case h_3 => rw [hd, Option.map_some]
  have hself : ∀ must l p,
      (s.go d₀ must { s.wakeup with
        dispatch := { s.dispatch with pool := p }.setLoop d₀ l }).dispatch.loop d₀ = l :=
    fun must l p => (Dispatch.loop_setLoop _ _ _).trans (if_pos rfl)
  cases hl : s.dispatch.loop d₀ with
  | atRest =>
    have hsome : (s.wakeup.setJob d₀).isSome := by
      by_contra hnot
      exact hne (by simp [PoolWaits.callWeight, hl, hnot])
    obtain ⟨t, ht⟩ := Option.isSome_iff_exists.1 hsome
    exact ⟨_, by rw [Wakeup.run, ht], fun must => h.advances_signal ht (hsignal t ht)⟩
  | called j =>
    refine ⟨_, hset (.growing j) s.dispatch.pool (by simp [hl]) (by simp [hl]) ?_, fun must =>
      h.advances_setLoop rfl (by simp) (by rw [hl]; rfl) rfl (.inl rfl) ?_⟩
    · rw [Dispatch.run, hl]
      simp [hcalled j hl]
    · simp only [PoolWaits.callWeight, hself, hl]
      omega
  | maxWait j =>
    refine ⟨_, hset (.growing j) s.dispatch.pool (by simp [hl]) (by simp [hl]) ?_, fun must =>
      h.advances_setLoop rfl (by simp) (by rw [hl]; rfl) rfl (.inl rfl) ?_⟩
    · rw [Dispatch.run, hl]
    · simp only [PoolWaits.callWeight, hself, hl]
      omega
  | growing j =>
    refine ⟨_, hset (.creating j s.dispatch.pool.growNum) s.dispatch.pool (by simp [hl])
      (by simp [hl]) ?_, fun must =>
      h.advances_setLoop rfl (by simp) (by rw [hl]; rfl) rfl (.inl rfl) ?_⟩
    · rw [Dispatch.run, hl]
    · have hgrow := h.growNum_le
      simp only [PoolWaits.callWeight, hself, hl]
      omega
  | creating j n =>
    cases n with
    | succ n =>
      refine ⟨_, hset (.creating j n) (CThreadPool.createLoop 1 s.dispatch.pool) (by simp [hl])
        (by simp [hl]) ?_, fun must =>
        h.advances_setLoop rfl (by simp) (by rw [hl]; rfl) rfl (.inr rfl) ?_⟩
      · rw [Dispatch.run, hl]
      · simp only [PoolWaits.callWeight, hself, hl]
        omega
    | zero =>
      refine ⟨_, hset (.fetching j) s.dispatch.pool (by simp [hl]) (by simp [hl]) ?_, fun must =>
        h.advances_setLoop rfl (by simp) (by rw [hl]; rfl) rfl (.inl rfl) ?_⟩
      · rw [Dispatch.run, hl]
        exact if_neg (hidle j hl)
      · simp only [PoolWaits.callWeight, hself, hl]
        omega
  | fetching j =>
    obtain ⟨u, idle, hu⟩ := List.exists_cons_of_ne_nil (h.lossless.fetching j hl)
    refine ⟨_, hset (.holding j u) s.dispatch.pool (by simp [hl]) (by simp [hl]) ?_, fun must =>
      h.advances_setLoop rfl (by simp) (by rw [hl]; rfl) rfl (.inl rfl) ?_⟩
    · rw [Dispatch.run, hl]
      simp only [hu]
    · simp only [PoolWaits.callWeight, hself, hl]
      omega
  | holding j t =>
    refine ⟨s.wakeup.store d₀ j t, ?_, fun must => h.advances_store hl (hholding j t hl)⟩
    have hm := h.workMutex_eq_none (h.setJob_eq_none (by simp [hl])) t
    rw [Wakeup.run, hnone (by simp [hl]), hl]
    exact if_pos ⟨hholding j t hl, hm⟩

/-! ## Every call is executed, if no signal is missed -/

/-- What is left to do. -/
def left (c : PoolNums) (d₀ : LoopId) (s : PoolWaits) : Nat :=
  s.workLeft + s.callWeight c.initNum d₀

/-- A worker with a job has at least to run it, and to go to the idle list. -/
theorem Inv.lt_weight (h : s.Inv c d₀) (hjob : (s.dispatch.job t).isSome) : 1 < s.weight t := by
  obtain ⟨j, hj⟩ := Option.isSome_iff_exists.1 hjob
  have hwork := h.calls.calls.hasJob t j hj
  rw [weight]
  cases hw : s.dispatch.worker t with
  | blocked =>
    dsimp only
    rw [if_pos hjob]
    cases s.wakeup.phase t <;> decide
  | running => exact Nat.one_lt_succ_succ 3
  | cleared | released | deleting => simp [hw, WorkerPhase.HasJob] at hwork

theorem Inv.lt_created (h : s.Inv c d₀) (hbusy : t ∈ s.dispatch.pool.busyList) :
    t < s.dispatch.pool.created :=
  h.lossless.single.lt_created t (List.mem_append_right _ hbusy)

theorem Inv.lt_weight_of_busy (h : s.Inv c d₀) (ht : t ∈ s.dispatch.pool.busyList) :
    1 < s.weight t := by
  rcases h.whole.busy t ht with hjob | hw
  · exact h.lt_weight hjob
  · simp [weight, hw]

/-- So has one that has still to signal. -/
theorem Inv.lt_weight_of_toSignal (h : s.Inv c d₀) (ht : s.toSignal t ≠ []) : 1 < s.weight t := by
  have hpos := List.length_pos_of_ne_nil ht
  rw [weight, ((h.toSignal t).resolve_left ht).2]
  exact Nat.lt_add_of_pos_right hpos

/-- Where no worker has more to do than to test the idle list, none has a job or a signal to
    send, and so none is busy. -/
theorem Inv.quiet (h : s.Inv c d₀) (hle : ∀ t < s.dispatch.pool.created, s.weight t ≤ 1) :
    (∀ t, s.dispatch.job t = none) ∧ s.dispatch.pool.busyList = [] ∧ ∀ t, s.toSignal t = [] := by
  have hbusy : s.dispatch.pool.busyList = [] := List.eq_nil_iff_forall_not_mem.2 fun t ht =>
    absurd (hle t (h.lt_created ht)) (not_le.2 (h.lt_weight_of_busy ht))
  refine ⟨fun t => ?_, hbusy, fun t => ?_⟩
  · cases hj : s.dispatch.job t with
    | none => rfl
    | some j =>
      have ht := h.calls.calls.mem_busyList t j hj
      rw [hbusy] at ht
      cases ht
  · by_contra hsig
    have hidle := List.mem_append_left s.dispatch.pool.busyList (h.mem_idleList hsig)
    exact absurd (hle t (h.lossless.single.lt_created t hidle))
      (not_le.2 (h.lt_weight_of_toSignal hsig))

/-- Where the workers have no jobs, all calls that were given to them have been executed. -/
theorem Inv.mem_executed (h : s.Inv c d₀) (hjob : ∀ t, s.dispatch.job t = none) {j : Call}
    (hj : j ∈ s.dispatch.assigned) : j ∈ s.dispatch.executed := by
  rcases h.calls.calls.kept h.whole.replaced hj with ⟨hcount, -⟩ | ⟨-, t, ht, -⟩
  · exact List.count_pos_iff.1 (by rw [hcount]; exact Nat.one_pos)
  · exact absurd ((hjob t).symm.trans ht) (by simp)

/-- If the loop is in no call either, nothing is left to do. -/
theorem Inv.allExecuted (h : s.Inv c d₀) (hjob : ∀ t, s.dispatch.job t = none)
    (hcall : s.callWeight c.initNum d₀ = 0) : s.AllExecuted := by
  have hrest : s.dispatch.loop d₀ = .atRest := by
    rw [PoolWaits.callWeight] at hcall
    split at hcall
    case h_7 hl => exact hl
    all_goals omega
  intro n hn
  rcases h.lossless.pending hn with ⟨j, hj, he⟩ | ⟨j, hj, -⟩
  · exact ⟨j, h.mem_executed hjob hj, he⟩
  · rw [hrest] at hj
    cases hj

theorem Lowers.left_lt (h : Lowers d₀ t s s') (ht : t < s.dispatch.pool.created) :
    s'.left c d₀ < s.left c d₀ := by
  refine Nat.add_lt_add_of_lt_of_le ?_ ?_
  · rw [workLeft, workLeft, h.created]
    refine Finset.sum_lt_sum (fun u _ => ?_) ⟨t, Finset.mem_range.2 ht, ?_⟩
    · by_cases hu : u = t
      · have := h.self
        rw [hu]
        omega
      · exact (h.other u hu).le
    · have := h.self
      omega
  · rw [PoolWaits.callWeight, PoolWaits.callWeight, h.loop, h.setJob, h.entering]
    cases s.dispatch.loop d₀ with
    | maxWait j =>
      dsimp only
      rcases h.waiters with he | he
      · rw [he]
      · rw [if_pos he]
        split_ifs
        · exact le_rfl
        · exact Nat.le_add_right _ _
        · exact Nat.le_add_right _ _
    | _ => exact le_rfl

theorem Lowers.missed (h : Lowers d₀ t s s') (hent : ¬s.entering d₀) (hm : s'.Missed d₀) :
    s.Missed d₀ :=
  hm.imp (fun ⟨u, hu⟩ => ⟨u, h.missedJob u hu⟩) (h.hung hent)

/-- A loop that has found that it must wait begins to. -/
theorem Inv.exists_wait (h : s.Inv c d₀) (hent : s.entering d₀) :
    ∃ s', s.step (fun _ => d₀) (.run d₀) = some s' ∧ s'.left c d₀ < s.left c d₀ ∧
      (s'.Missed d₀ → s.Missed d₀) := by
  obtain ⟨-, j, hl⟩ := h.waits d₀ (.inl hent)
  have hnil : s.waiters .maxNum = [] := h.maxNum.resolve_right fun hw => hw.2 hent
  refine ⟨s.wait d₀, ?_, Nat.add_lt_add_left ?_ _, fun hm => ?_⟩
  · rw [PoolWaits.step, PoolWaits.run, h.idle, hnil, if_neg (by simp), if_pos hent]
  · have hl' : (s.wait d₀).dispatch.loop d₀ = .maxWait j := hl
    have hent' : ¬(s.wait d₀).entering d₀ := by simp
    rw [PoolWaits.callWeight, PoolWaits.callWeight, hl, hl']
    dsimp only
    rw [if_pos hent, if_neg hent']
    split_ifs
    · omega
    · omega
  · exact hm.imp id fun hh => ⟨hh.loop, .inl hent, hh.busyList, hh.toSignal⟩

theorem Advances.left_lt (h : Advances c d₀ s s') : s'.left c d₀ < s.left c d₀ := by
  have hcall := h.callWeight
  have hwork := h.workLeft
  rw [left, left]
  omega

theorem Advances.missed (h : Advances c d₀ s s') (hm : s'.Missed d₀) : s.Missed d₀ := by
  rcases hm with ⟨t, ht⟩ | hh
  · exact .inl ⟨t, h.missedJob t ht⟩
  · obtain ⟨j, hj⟩ := hh.loop
    exact absurd hj (h.maxWait j)

/-! ## The last call -/

theorem work_proceed {w : Wakeup} (hsig : s.toSignal t = []) (hw : s.wakeup.work t = some w) :
    s.work t 0 = some (s.proceed t w) := by
  rw [PoolWaits.work, hsig, hw]
  rfl

/-- A worker that is to test `m_Job` executes it. -/
theorem exec_executed (owner : ConnId → LoopId) {j : Call} (hw : s.dispatch.worker t = .blocked)
    (hp : s.wakeup.phase t = .testing) (hm : s.wakeup.workMutex t = none)
    (hj : s.dispatch.job t = some j) (hsig : s.toSignal t = []) :
    ∃ s', exec (step owner) s [.work t 0, .work t 0, .work t 0] = some s' ∧
      s'.dispatch.nextCall = s.dispatch.nextCall ∧
      s'.dispatch.executed = s.dispatch.executed ++ [j] := by
  obtain ⟨s₁, hs₁⟩ : ∃ s₁, s₁ = s.proceed t (s.wakeup.test t) := ⟨_, rfl⟩
  have h₁ : s.work t 0 = some s₁ := by
    rw [hs₁]
    exact work_proceed hsig (by rw [Wakeup.work, hw, hp])
  have hw₁ : s₁.dispatch.worker t = .blocked := by
    rw [hs₁]
    exact hw
  have hp₁ : s₁.wakeup.phase t = .leaving := by simp [hs₁, proceed, hj]
  have hm₁ : s₁.wakeup.workMutex t = none := by
    rw [hs₁]
    exact hm
  have hsig₁ : s₁.toSignal t = [] := by simp [hs₁, hw, hsig]
  obtain ⟨s₂, hs₂⟩ : ∃ s₂, s₂ = s₁.proceed t (s₁.wakeup.take t) := ⟨_, rfl⟩
  have h₂ : s₁.work t 0 = some s₂ := by
    rw [hs₂]
    exact work_proceed hsig₁ (by rw [Wakeup.work, hw₁, hp₁]; exact if_pos hm₁)
  have hw₂ : s₂.dispatch.worker t = .running := by simp [hs₂, proceed, dispatch]
  have hsig₂ : s₂.toSignal t = [] := by simp [hs₂, hw₁, hsig₁]
  have h₃ : s₂.work t 0 =
      some (s₂.proceed t { s₂.wakeup with dispatch := s₂.dispatch.complete t }) :=
    work_proceed hsig₂ (by
      rw [Wakeup.work, hw₂]
      simp [Dispatch.work, hw₂])
  refine ⟨_, (exec_cons h₁ _).trans ((exec_cons h₂ _).trans (exec_cons h₃ _)), ?_, ?_⟩
  · rw [hs₂, hs₁]
    rfl
  · rw [hs₂, hs₁]
    change s.dispatch.executed ++ (s.dispatch.job t).toList = _
    rw [hj]
    rfl

/-- The last section of `Run`, and the job. -/
theorem exec_assigned {j : Call} (hl : s.dispatch.loop d₀ = .holding j t)
    (hw : s.dispatch.worker t = .blocked) (hp : s.wakeup.phase t = .testing)
    (hm : s.wakeup.workMutex t = none) (hset : s.wakeup.setJob d₀ = none)
    (hwait : d₀ ∉ s.waiters .idle ++ s.waiters .maxNum) (hent : ¬s.entering d₀)
    (hsig : s.toSignal t = []) :
    ∃ s', exec (step fun _ => d₀) s [.run d₀, .run d₀, .work t 0, .work t 0, .work t 0] = some s' ∧
      s'.dispatch.nextCall = s.dispatch.nextCall ∧
      s'.dispatch.executed = s.dispatch.executed ++ [j] := by
  obtain ⟨must, h₁, hmust⟩ := run_eq (w := s.wakeup.store d₀ j t) hwait hent (by simp [hl]) (by
    rw [Wakeup.run, hset, hl]
    exact if_pos ⟨hw, hm⟩)
  obtain ⟨s₁, hs₁⟩ : ∃ s₁, s₁ = s.go d₀ must (s.wakeup.store d₀ j t) := ⟨_, rfl⟩
  have h₁' : s.step (fun _ => d₀) (.run d₀) = some s₁ := hs₁ ▸ h₁
  have hent₁ : ¬s₁.entering d₀ := by
    rw [hs₁, entering_go, if_pos rfl]
    intro hm
    obtain ⟨k, hk⟩ := hmust hm
    exact absurd (hl.symm.trans hk) (by simp)
  have hset₁ : s₁.wakeup.setJob d₀ = some t := by simp [hs₁, go]
  have hl₁ : s₁.dispatch.loop d₀ = .atRest := by
    rw [hs₁]
    exact (Dispatch.loop_assign _ _ _ _).trans (if_pos rfl)
  obtain ⟨must₂, h₂, -⟩ := run_eq (s := s₁) (w := s₁.wakeup.signal d₀ t)
    (by rw [hs₁]; exact hwait) hent₁ (by simp [hl₁]) (by rw [Wakeup.run, hset₁])
  obtain ⟨s₂, hs₂⟩ : ∃ s₂, s₂ = s₁.go d₀ must₂ (s₁.wakeup.signal d₀ t) := ⟨_, rfl⟩
  have h₂' : s₁.step (fun _ => d₀) (.run d₀) = some s₂ := hs₂ ▸ h₂
  obtain ⟨s', h', hnext, hexec⟩ := exec_executed (fun _ => d₀) (s := s₂) (t := t) (j := j)
    (by rw [hs₂, hs₁]; exact hw) (by simp [hs₂, hs₁, go, Wakeup.store, hp]) (by simp [hs₂, go])
    (by rw [hs₂, hs₁]; exact (Dispatch.job_assign _ _ _ _).trans (if_pos rfl))
    (by rw [hs₂, hs₁]; exact hsig)
  refine ⟨s', (exec_cons h₁' _).trans ((exec_cons h₂' _).trans h'), ?_, ?_⟩
  · rw [hnext, hs₂, hs₁]
    rfl
  · rw [hexec, hs₂, hs₁]
    rfl

/-- The loop holds a worker that finds more than `m_AvailHigh` idle threads: this one removes
    some, itself among them, and is given the call all the same. -/
theorem Inv.exec_crowded (h : s.Inv c d₀) {j : Call} (hl : s.dispatch.loop d₀ = .holding j t)
    (hw : s.dispatch.worker t = .released) (hsig : s.toSignal t = [])
    (hcrowd : s.dispatch.pool.isCrowded) (hjob : ∀ u, s.dispatch.job u = none) :
    ∃ as s', exec (PoolWaits.step fun _ => d₀) s as = some s' ∧ s'.AllExecuted := by
  have hset := h.setJob_eq_none (by simp [hl])
  have hphase : s.wakeup.phase t = .testing := by
    by_contra hp
    exact absurd ((h.calls.blocked t hp).symm.trans hw) (by simp)
  have hnot : ∀ d, ¬s.Waits d := fun d hd => by
    obtain ⟨-, k, hk⟩ := h.waits d hd
    exact absurd (hl.symm.trans hk) (by simp)
  obtain ⟨p, hp⟩ : ∃ p, s.dispatch.pool.deleteIdleThread s.dispatch.pool.surplus = some p :=
    ⟨_, CThreadPool.deleteLoop_eq (h.whole.surplus_le h.lossless)⟩
  obtain ⟨s₁, hs₁⟩ : ∃ s₁, s₁ = s.proceed t { s.wakeup with
      dispatch := s.dispatch.setWorker t (.deleting s.dispatch.pool.surplus) } := ⟨_, rfl⟩
  have h₁ : s.step (fun _ => d₀) (.work t 0) = some s₁ := by
    rw [hs₁]
    refine work_proceed hsig ?_
    rw [Wakeup.work, hw]
    simp [Dispatch.work, hw, hcrowd]
  have hw₁ : s₁.dispatch.worker t = .deleting s.dispatch.pool.surplus := by
    rw [hs₁]
    exact (Dispatch.worker_setWorker _ _ _ _).trans (if_pos rfl)
  have hsig₁ : s₁.toSignal t = [] := by simp [hs₁, hw, hsig]
  obtain ⟨s₂, hs₂⟩ : ∃ s₂, s₂ = s₁.proceed t { s₁.wakeup with
      dispatch := { s₁.dispatch with pool := p }.setWorker t .blocked } := ⟨_, rfl⟩
  have h₂ : s₁.step (fun _ => d₀) (.work t 0) = some s₂ := by
    rw [hs₂]
    refine work_proceed hsig₁ ?_
    have hp₁ : s₁.dispatch.pool.deleteIdleThread s.dispatch.pool.surplus = some p := by
      rw [hs₁]
      exact hp
    rw [Wakeup.work, hw₁]
    simp [Dispatch.work, hw₁, hp₁]
  obtain ⟨s', h', hnext, hexec⟩ := exec_assigned (s := s₂) (j := j) (t := t)
    (by rw [hs₂, hs₁]; exact hl)
    (by rw [hs₂]; exact (Dispatch.worker_setWorker _ _ _ _).trans (if_pos rfl))
    (by rw [hs₂, hs₁]; exact hphase)
    (by rw [hs₂, hs₁]; exact h.workMutex_eq_none hset t)
    (by rw [hs₂, hs₁]; exact hset d₀)
    (by
      rw [hs₂, hs₁]
      change d₀ ∉ s.waiters .idle ++ s.waiters .maxNum
      rw [h.idle, List.nil_append]
      exact fun hmem => hnot d₀ (.inr hmem))
    (by rw [hs₂, hs₁]; exact fun he => hnot d₀ (.inl he))
    (by simp [hs₂, hw₁, hsig₁])
  refine ⟨_, s', (exec_cons h₁ _).trans ((exec_cons h₂ _).trans h'), fun n hn => ?_⟩
  have hnext' : s'.dispatch.nextCall = s.dispatch.nextCall := by
    rw [hnext, hs₂, hs₁]
    rfl
  have hexec' : s'.dispatch.executed = s.dispatch.executed ++ [j] := by
    rw [hexec, hs₂, hs₁]
    rfl
  rw [hexec']
  rcases h.lossless.pending (hnext' ▸ hn) with ⟨k, hk, he⟩ | ⟨k, hk, he⟩
  · exact ⟨k, List.mem_append_left _ (h.mem_executed hjob hk), he⟩
  · rw [hl] at hk
    cases hk
    exact ⟨j, List.mem_append_right _ (List.mem_singleton_self j), he⟩

/-! ## Every call is executed, if no signal is missed -/

/-- In some run, all calls are executed, or less is left to do and no signal is missed. -/
def GoesOn (c : PoolNums) (d₀ : LoopId) (s : PoolWaits) : Prop :=
  ∃ as s', exec (step fun _ => d₀) s as = some s' ∧
    (s'.AllExecuted ∨ s'.Inv c d₀ ∧ ¬s'.Missed d₀ ∧ s'.left c d₀ < s.left c d₀)

theorem Inv.goesOn {a : Action} (h : s.Inv c d₀) (hs : s.step (fun _ => d₀) a = some s')
    (hok : s.KeepsAll a) (hmissed : ¬s'.Missed d₀) (hlt : s'.left c d₀ < s.left c d₀) :
    s.GoesOn c d₀ :=
  ⟨[a], s', (exec_cons hs []).trans rfl, .inr ⟨h.step hok hs, hmissed, hlt⟩⟩

/-- The worker that the loop is about to wake, or the loop, can go on. -/
theorem Inv.goesOn_setJob (h : s.Inv c d₀) (hmissed : ¬s.Missed d₀) (hent : ¬s.entering d₀)
    (ht : s.wakeup.setJob d₀ = some t) : s.GoesOn c d₀ := by
  have hrest := (h.setJob d₀ t ht).2
  have hm : s.wakeup.workMutex t = some d₀ := (h.calls.paired d₀ t).1 ht
  obtain ⟨hw, hjob⟩ := h.calls.locked t (by rw [hm]; rfl)
  have hlt := h.lt_weight hjob
  by_cases hp : s.wakeup.phase t = .entering
  · -- the worker begins to wait before the signal
    obtain ⟨s', hs, hlow⟩ := h.exists_work (t := t) (Nat.ne_zero_of_lt hlt)
      (fun _ => by simp [hp]) fun hone => absurd hone hlt.ne'
    obtain ⟨j, hj⟩ := Option.isSome_iff_exists.1 hjob
    refine h.goesOn hs (fun _ hr => absurd (hw.symm.trans hr) (by simp))
      (mt (hlow.missed hent) hmissed) (hlow.left_lt (h.lt_created ?_))
    exact h.calls.calls.mem_busyList t j hj
  · obtain ⟨s', hs, hadv⟩ := h.exists_run (by simp [PoolWaits.callWeight, hrest, ht])
      (fun hwait => by
        obtain ⟨-, j, hj⟩ := h.waits d₀ hwait
        exact absurd (hrest.symm.trans hj) (by simp))
      (by simp [hrest]) (by simp [hrest])
      fun u hu => by
        obtain rfl : t = u := Option.some.inj (ht.symm.trans hu)
        exact hp
    exact h.goesOn hs trivial (mt hadv.missed hmissed) hadv.left_lt

/-- A worker that has a job, or a signal to send, can go on. -/
theorem Inv.goesOn_work (h : s.Inv c d₀) (hmissed : ¬s.Missed d₀) (hent : ¬s.entering d₀)
    (hset : ∀ d, s.wakeup.setJob d = none) (ht : t < s.dispatch.pool.created)
    (hlt : 1 < s.weight t) : s.GoesOn c d₀ := by
  have hnot : s.dispatch.worker t = .blocked → s.wakeup.phase t ≠ .waiting := fun hw hp => by
    have hjob : (s.dispatch.job t).isSome := by
      by_contra hjob
      exact absurd hlt (by simp [weight, hw, hjob])
    exact hmissed (.inl ⟨t, .inr hp, hjob, fun d => by simp [hset d]⟩)
  obtain ⟨s', hs, hlow⟩ := h.exists_work (Nat.ne_zero_of_lt hlt)
    (fun hw => ⟨hnot hw, fun _ => h.workMutex_eq_none hset t⟩) fun hone => absurd hone hlt.ne'
  -- it does not look at the idle list yet
  refine h.goesOn hs (fun hsig hw => ?_) (mt (hlow.missed hent) hmissed) (hlow.left_lt ht)
  exact absurd hlt (by simp [weight, hw, hsig])

/-- The loop can go on where the workers have no jobs. -/
theorem Inv.goesOn_run (h : s.Inv c d₀) (hmissed : ¬s.Missed d₀) (hent : ¬s.entering d₀)
    (hset : ∀ d, s.wakeup.setJob d = none) (hle : ∀ t < s.dispatch.pool.created, s.weight t ≤ 1)
    (hcall : s.callWeight c.initNum d₀ ≠ 0) : s.GoesOn c d₀ := by
  obtain ⟨hjob, hbusy, hsig⟩ := h.quiet hle
  have hnot : ¬s.Waits d₀ := fun hwait =>
    hmissed (.inr ⟨(h.waits d₀ hwait).2, hwait, hbusy, fun t => by simp [hsig t]⟩)
  have hmax : 0 < s.dispatch.pool.maxNum := by
    rw [h.lossless.bounded.nums.1]
    exact c.one_le_availLow.trans (c.availLow_le.trans c.initNum_le_maxNum)
  by_cases hheld : ∃ j t, s.dispatch.loop d₀ = .holding j t ∧ s.dispatch.worker t ≠ .blocked
  · -- the worker is between its job and the test of the idle list
    obtain ⟨j, t, hl, hne⟩ := hheld
    have ht := (h.lossless.single.holding d₀ j t hl).2.2
    have hw : s.dispatch.worker t = .released := by
      have hone := hle t ht
      rw [weight] at hone
      cases hw : s.dispatch.worker t with
      | blocked => exact absurd hw hne
      | released => rfl
      | deleting num => exact absurd hw (h.lossless.noneRemoved.worker t num)
      | _ => simp [hw] at hone
    by_cases hcrowd : s.dispatch.pool.isCrowded
    · obtain ⟨as, s', hs, hall⟩ := h.exec_crowded hl hw (hsig t) hcrowd hjob
      exact ⟨as, s', hs, .inl hall⟩
    · obtain ⟨s', hs, hlow⟩ := h.exists_work (t := t) (by simp [weight, hw])
        (fun hb => absurd hb hne) fun _ => hcrowd
      exact h.goesOn hs (fun _ _ => hcrowd) (mt (hlow.missed hent) hmissed) (hlow.left_lt ht)
  · obtain ⟨s', hs, hadv⟩ := h.exists_run hcall hnot (fun j _ => by simp [hbusy, hmax.ne])
      (fun j t hl => by
        by_contra hne
        exact hheld ⟨j, t, hl, hne⟩) (by simp [hset d₀])
    exact h.goesOn hs trivial (mt hadv.missed hmissed) hadv.left_lt

/-- As long as no signal has been missed, something that is left to do can be done. -/
theorem Inv.goesOn_of_missed (h : s.Inv c d₀) (hmissed : ¬s.Missed d₀) (hnot : ¬s.AllExecuted) :
    s.GoesOn c d₀ := by
  by_cases hent : s.entering d₀
  · obtain ⟨s', hs, hlt, hm⟩ := h.exists_wait hent
    exact h.goesOn hs trivial (mt hm hmissed) hlt
  by_cases hset : ∃ t, s.wakeup.setJob d₀ = some t
  · obtain ⟨t, ht⟩ := hset
    exact h.goesOn_setJob hmissed hent ht
  have hnone : ∀ d, s.wakeup.setJob d = none := by
    intro d
    cases hd : s.wakeup.setJob d with
    | none => rfl
    | some t => exact absurd ⟨t, (h.setJob d t hd).1 ▸ hd⟩ hset
  by_cases hwork : ∃ t < s.dispatch.pool.created, 1 < s.weight t
  · obtain ⟨t, ht, hlt⟩ := hwork
    exact h.goesOn_work hmissed hent hnone ht hlt
  have hle : ∀ t < s.dispatch.pool.created, s.weight t ≤ 1 := fun t ht => by
    by_contra hlt
    exact hwork ⟨t, ht, not_le.1 hlt⟩
  exact h.goesOn_run hmissed hent hnone hle fun hcall => hnot (h.allExecuted (h.quiet hle).1 hcall)

/-- With one event loop, and after any run in which no worker has found more than `m_AvailHigh`
    idle threads: there is a run in which all calls are executed if and only if no signal has
    been missed. -/
theorem allExecuted_iff (d₀ : LoopId) (c : PoolNums) {as : List Action}
    (hall : Along (step fun _ => d₀) KeepsAll (init c) as)
    (hs : exec (step fun _ => d₀) (init c) as = some s) :
    (∃ bs s', exec (step fun _ => d₀) s bs = some s' ∧ s'.AllExecuted) ↔ ¬s.Missed d₀ :=
  exists_exec_iff (J := OneLoop d₀) (I := Inv c d₀) (ν := left c d₀)
    (fun _ _ _ h hs => h.step hs) (fun _ _ _ h hm hs => h.missed_step hm hs)
    (fun _ h hm => h.not_allExecuted_of_missed hm) (fun _ h => h.oneLoop)
    (fun _ h hm hnot => h.goesOn_of_missed hm hnot) (inv_of_exec d₀ c hall hs)

/-- A worker tests `m_Job` before its job is stored, and waits after the signal: the call is
    never executed. -/
theorem allExecuted_iff_default :
    ∃ s, exec (step fun _ => 0) (init .default)
        ([.work 0 0, .readEvent 0 1] ++ List.replicate 6 (.run 0) ++ [.work 0 0]) = some s ∧
      ¬∃ bs s', exec (step fun _ => 0) s bs = some s' ∧ s'.AllExecuted := by
  obtain ⟨s, hs, he⟩ := Option.map_eq_some_iff.1 (show
    (exec (step fun _ => 0) (init .default)
      ([.work 0 0, .readEvent 0 1] ++ List.replicate 6 (.run 0) ++ [.work 0 0])).map
      (fun s => (s.wakeup.phase 0, s.dispatch.job 0, s.wakeup.workMutex 0)) =
      some (.waiting, some ⟨0, 0⟩, none) by decide)
  simp only [Prod.mk.injEq] at he
  obtain ⟨hp, hj, hm⟩ := he
  have hkeep : Along (step fun _ => 0) KeepsAll (init .default)
      ([.work 0 0, .readEvent 0 1] ++ List.replicate 6 (.run 0) ++ [.work 0 0]) := by decide
  have hinv := inv_of_exec 0 .default hkeep hs
  refine ⟨s, hs, fun hall => ?_⟩
  refine (allExecuted_iff 0 .default hkeep hs).1 hall (.inl ⟨0, .inr hp, by rw [hj]; rfl,
    fun d hd => ?_⟩)
  rw [hinv.calls.paired d 0, hm] at hd
  cases hd

end PoolWaits

end VsHttpServer
