import VsHttpServer.RoundRobin
import VsHttpServer.Server

/-!
# The balance of the listener

`ListenerEventCb` called for one accepted descriptor after the other, while the idle
list stays as it is: the threads of the list take turns, from the cursor
`idle_thread_count` on.

* `exec_listenerEventCb`: the pipes and the cursor after any number of calls;
* `nodup_idleList`: the threads of the idle list are different ones;
* `listenerEventCb_balanced`: each thread is given as many descriptors as the others, up to
  one, in the order in which they were accepted.
-/

namespace VsHttpServer

open Transition RoundRobin

namespace Server

/-- A call gives its descriptor to the thread at the cursor, which goes on to the next. -/
theorem listenerEventCb_of_lt {s : Server} (hcur : s.idleThreadCount < s.main.pool.idleList.length)
    (fd : Nat) :
    ∃ s', s.listenerEventCb fd = some s' ∧ s'.main = s.main ∧
      s'.idleThreadCount = (s.idleThreadCount + 1) % s.main.pool.idleList.length ∧
      s'.pipe = Function.update s.pipe s.main.pool.idleList[s.idleThreadCount]
        (s.pipe s.main.pool.idleList[s.idleThreadCount] ++ [(fd : Int)]) := by
  obtain ⟨s', h⟩ : ∃ s', s.listenerEventCb fd = some s' := by
    rw [listenerEventCb, if_neg (Nat.zero_lt_of_lt hcur).ne', List.getElem?_eq_getElem hcur]
    exact ⟨_, rfl⟩
  obtain ⟨t, ht, rfl⟩ := listenerEventCb_eq_some h
  obtain rfl : s.main.pool.idleList[s.idleThreadCount] = t :=
    Option.some.inj ((List.getElem?_eq_getElem hcur).symm.trans ht)
  exact ⟨_, h, rfl, rfl, rfl⟩

/-- Calls of `ListenerEventCb` for the descriptors `fds` give them out in turns. -/
theorem exec_listenerEventCb {s : Server} (hcur : s.idleThreadCount < s.main.pool.idleList.length)
    (fds : List Nat) :
    ∃ s', exec listenerEventCb s fds = some s' ∧ s'.main = s.main ∧
      s'.idleThreadCount < s.main.pool.idleList.length ∧
      ∀ t, s'.pipe t = s.pipe t ++
        (share fds (turns s.main.pool.idleList s.idleThreadCount fds.length) t).map Nat.cast := by
  induction fds generalizing s with
  | nil => exact ⟨s, rfl, rfl, hcur, fun t => (List.append_nil _).symm⟩
  | cons fd fds ih =>
    obtain ⟨s₁, hfirst, hmain₁, hcur₁, hpipe₁⟩ := listenerEventCb_of_lt hcur fd
    have hlt : s₁.idleThreadCount < s₁.main.pool.idleList.length := by
      rw [hcur₁, hmain₁]
      exact Nat.mod_lt _ (Nat.zero_lt_of_lt hcur)
    obtain ⟨s', hs', hmain, hcur', hpipe⟩ := ih hlt
    rw [hmain₁] at hmain hcur'
    refine ⟨s', ?_, hmain, hcur', fun t => ?_⟩
    · rw [exec, hfirst]
      exact hs'
    · rw [hpipe t, hmain₁, hcur₁, hpipe₁, List.length_cons, turns_succ hcur, share_cons,
        Function.update_apply]
      split_ifs with ht hu hu
      · rw [ht, List.append_assoc]
        rfl
      · exact absurd ht.symm hu
      · exact absurd hu.symm ht
      · rfl

/-- In every state that can be reached, a thread is idle once. -/
theorem nodup_idleList {initnum : Nat} (hpos : 0 < initnum) {s : Server} {as : List Action}
    (hs : exec step (init initnum) as = some s) : s.main.pool.idleList.Nodup :=
  (inv_of_exec hpos hs).main.partition.nodup_idleList

/-- Over consecutive calls of `ListenerEventCb`, each descriptor goes to the pipe of one idle
    thread, in the order of the calls, and each idle thread gets the whole share of them,
    rounded down or up. -/
theorem listenerEventCb_balanced {s : Server} (hnodup : s.main.pool.idleList.Nodup)
    (hcur : s.idleThreadCount < s.main.pool.idleList.length) (fds : List Nat) :
    ∃ s' ts, exec listenerEventCb s fds = some s' ∧ s'.main = s.main ∧
      s'.idleThreadCount < s.main.pool.idleList.length ∧
      ts.length = fds.length ∧ (∀ t ∈ ts, t ∈ s.main.pool.idleList) ∧
      (∀ t, s'.pipe t = s.pipe t ++ (share fds ts t).map Nat.cast) ∧
      ∀ t ∈ s.main.pool.idleList,
        (share fds ts t).length = fds.length / s.main.pool.idleList.length ∨
          (share fds ts t).length =
            (fds.length + s.main.pool.idleList.length - 1) / s.main.pool.idleList.length := by
  obtain ⟨s', hs', hmain, hcur', hpipe⟩ := exec_listenerEventCb hcur fds
  have hlen := length_turns (k := fds.length) hcur
  refine ⟨s', turns s.main.pool.idleList s.idleThreadCount fds.length, hs', hmain, hcur', hlen,
    fun t ht => mem_of_mem_turns ht, hpipe, fun t ht => ?_⟩
  rw [length_share hlen.symm]
  exact count_turns_balanced hnodup hcur ht

/-- Two threads are idle, the cursor is at the first. -/
theorem listenerEventCb_balanced_two :
    ∃ s' ts, exec listenerEventCb (init 2) [5, 6, 7] = some s' ∧ s'.main = (init 2).main ∧
      s'.idleThreadCount < 2 ∧ ts.length = 3 ∧ (∀ t ∈ ts, t ∈ [0, 1]) ∧
      (∀ t, s'.pipe t = (init 2).pipe t ++ (share [5, 6, 7] ts t).map Nat.cast) ∧
      ∀ t ∈ [0, 1], (share [5, 6, 7] ts t).length = 1 ∨ (share [5, 6, 7] ts t).length = 2 :=
  listenerEventCb_balanced (s := init 2) (by decide) (by decide) [5, 6, 7]

end Server

end VsHttpServer
