import VsHttpServer.DoublyLinked
import VsHttpServer.Pool.Main

/-!
# The connections of a thread in memory

A `ConnQueue` as the source has it: `Conn` objects in memory, linked by `m_Next` and
`m_Prev` between two sentinels. An object is the address that `new` has returned; an
address may be used again after `delete`. An access through a null pointer, or to an
object that was deleted, has no result.

* `LinkedQueue.insertConn_eq`, `LinkedQueue.deleteConn_eq`: the operations in terms of the
  pointers they change;
* `QueueRun.Inv`: the objects linked are those inserted and not deleted, latest first;
* `QueueRun.queue_represented`: what this means for every run, and for the destructor;
* `QueueRun.toQueue_insert`, `QueueRun.toQueue_delete`: the queues of `MainPool` are such
  queues, seen without the pointers.
-/

namespace VsHttpServer

open DoublyLinked Transition

/-- The address of an object. -/
abbrev Addr := Nat

/-- A `bufferevent`. -/
abbrev Bufferevent := Nat

/-- The fields of a `Conn` object that its queue uses, or sets. -/
structure ConnCell where
  fd : Int
  prev : Option Addr
  next : Option Addr
  thread : ThreadId
  bev : Bufferevent
  deriving Inhabited

/-- The `Conn` objects in memory. -/
structure ConnMemory where
  cell : Addr → ConnCell
  /-- The objects that `new` has made and `delete` has not yet removed. -/
  allocated : List Addr

namespace ConnMemory

/-- The object behind a pointer. -/
def load (m : ConnMemory) (p : Option Addr) : Option ConnCell :=
  p.bind fun a => if a ∈ m.allocated then some (m.cell a) else none

/-- The memory after a change of fields of the object at `a`. -/
def write (m : ConnMemory) (a : Addr) (f : ConnCell → ConnCell) : ConnMemory :=
  { m with cell := Function.update m.cell a (f (m.cell a)) }

/-- A store to fields of the object behind a pointer. -/
def store (m : ConnMemory) (p : Option Addr) (f : ConnCell → ConnCell) : Option ConnMemory :=
  p.bind fun a => if a ∈ m.allocated then some (m.write a f) else none

/-- `new Conn(fd)`, which returns `a`. -/
def new (m : ConnMemory) (a : Addr) (fd : Int) : ConnMemory where
  cell := Function.update m.cell a { m.cell a with fd := fd, prev := none, next := none }
  allocated := a :: m.allocated

/-- `delete`. -/
def delete (m : ConnMemory) (a : Addr) : Option ConnMemory :=
  if a ∈ m.allocated then some { m with allocated := m.allocated.erase a } else none

/-- The pointers of all objects. -/
def links (m : ConnMemory) : Links Addr := ⟨fun a => (m.cell a).next, fun a => (m.cell a).prev⟩

variable {m : ConnMemory} {a : Addr}

theorem load_some (a : Addr) :
    m.load (some a) = if a ∈ m.allocated then some (m.cell a) else none := rfl

theorem store_some (a : Addr) (f : ConnCell → ConnCell) :
    m.store (some a) f = if a ∈ m.allocated then some (m.write a f) else none := rfl

@[simp] theorem write_allocated (f : ConnCell → ConnCell) : (m.write a f).allocated = m.allocated := rfl

@[simp] theorem new_allocated (fd : Int) : (m.new a fd).allocated = a :: m.allocated := rfl

theorem write_cell (f : ConnCell → ConnCell) (x : Addr) :
    (m.write a f).cell x = if x = a then f (m.cell a) else m.cell x :=
  Function.update_apply _ _ _ _

theorem new_cell (fd : Int) (x : Addr) :
    (m.new a fd).cell x =
      if x = a then { m.cell a with fd := fd, prev := none, next := none } else m.cell x :=
  Function.update_apply _ _ _ _

end ConnMemory

/-- The fields of a `ConnQueue`. -/
structure LinkedQueue where
  head : Addr
  tail : Addr
  currentConnNum : Int

namespace LinkedQueue

/-- `ConnQueue::ConnQueue`, where `new` returns `h` and then `t`. -/
def construct (m : ConnMemory) (h t : Addr) : Option (ConnMemory × LinkedQueue) := do
  let m := (m.new h 0).new t 0
  let m ← m.store (some t) fun c => { c with next := none }
  let m ← m.store (some h) fun c => { c with prev := none }
  let m ← m.store (some h) fun c => { c with next := some t }
  let m ← m.store (some t) fun c => { c with prev := some h }
  return (m, ⟨h, t, 0⟩)

/-- The part of `ConnQueue::InsertConn` that is about the queue, where `new` returns `a`:
    the pointer it returns, which may be `NULL`. -/
def insertConn (m : ConnMemory) (q : LinkedQueue) (a : Addr) (fd : Int) (t : ThreadId)
    (bev : Bufferevent) : Option (Option Addr × ConnMemory × LinkedQueue) :=
  if q.currentConnNum < maxOpenFd then do
    let m := m.new a fd
    let m ← m.store (some a) fun c => { c with thread := t }
    let m ← m.store (some a) fun c => { c with bev := bev }
    let head ← m.load (some q.head)
    let next := head.next
    let m ← m.store (some a) fun c => { c with prev := some q.head }
    let head ← m.load (some q.head)
    let m ← m.store (some a) fun c => { c with next := head.next }
    let m ← m.store (some q.head) fun c => { c with next := some a }
    let m ← m.store next fun c => { c with prev := some a }
    return (some a, m, { q with currentConnNum := q.currentConnNum + 1 })
  else return (none, m, q)

/-- `ConnQueue::DeleteConn`. -/
def deleteConn (m : ConnMemory) (q : LinkedQueue) (c : Addr) : Option (ConnMemory × LinkedQueue) := do
  let conn ← m.load (some c)
  let m ← m.store conn.prev fun p => { p with next := conn.next }
  let conn ← m.load (some c)
  let m ← m.store conn.next fun n => { n with prev := conn.prev }
  let m ← m.delete c
  return (m, { q with currentConnNum := q.currentConnNum - 1 })

/-- The loop of `ConnQueue::~ConnQueue`, and the objects it deletes, in order. -/
def destroyLoop (m : ConnMemory) (tcur : Option Addr) : Option (ConnMemory × List Addr) :=
  match tcur with
  | none => some (m, [])
  | some a =>
    if _h : a ∈ m.allocated then
      (destroyLoop { m with allocated := m.allocated.erase a } (m.cell a).next).map fun r =>
        (r.1, a :: r.2)
    else none
termination_by m.allocated.length
decreasing_by
  rw [List.length_erase_of_mem _h]
  exact Nat.sub_lt (List.length_pos_of_mem _h) Nat.one_pos

/-- `ConnQueue::~ConnQueue`. -/
def destroy (m : ConnMemory) (q : LinkedQueue) : Option (ConnMemory × List Addr) :=
  destroyLoop m (some q.head)

variable {m : ConnMemory} {q : LinkedQueue} {a b c h t : Addr}

/-- The constructor links the sentinels. -/
theorem construct_eq (hth : t ≠ h) :
    ∃ m₀, construct m h t = some (m₀, ⟨h, t, 0⟩) ∧ m₀.allocated = t :: h :: m.allocated ∧
      IsList m₀.links [h, t] := by
  simp only [construct, ConnMemory.store_some, ConnMemory.write_allocated, ConnMemory.new_allocated,
    List.mem_cons, true_or, or_true, if_true, Option.bind_eq_bind, Option.bind_some]
  refine ⟨_, rfl, rfl, ⟨List.isChain_pair.2 ⟨?_, ?_⟩, ?_, ?_, ?_⟩⟩
  · simp [ConnMemory.links, ConnMemory.write_cell, hth.symm]
  · simp [ConnMemory.links, ConnMemory.write_cell]
  · simp [hth.symm]
  · simp [ConnMemory.links, ConnMemory.write_cell, hth.symm]
  · simp [ConnMemory.links, ConnMemory.write_cell, hth]

/-- `InsertConn` on a queue that is not full. -/
theorem insertConn_eq (hnum : q.currentConnNum < maxOpenFd) (ha : a ∉ m.allocated)
    (hhead : q.head ∈ m.allocated) (hnext : (m.cell q.head).next = some b) (hb : b ∈ m.allocated)
    (hbh : b ≠ q.head) (fd : Int) (t : ThreadId) (bev : Bufferevent) :
    ∃ m', insertConn m q a fd t bev =
        some (some a, m', { q with currentConnNum := q.currentConnNum + 1 }) ∧
      m'.links = m.links.insertAfter q.head a b ∧ m'.allocated = a :: m.allocated ∧
      ∀ x, (m'.cell x).fd = if x = a then fd else (m.cell x).fd := by
  have hha : q.head ≠ a := ne_of_mem_of_not_mem hhead ha
  have hba : b ≠ a := ne_of_mem_of_not_mem hb ha
  simp only [insertConn, if_pos hnum, ConnMemory.store_some, ConnMemory.load_some,
    ConnMemory.write_allocated, ConnMemory.new_allocated, List.mem_cons, true_or, hhead, hb, or_true,
    if_true, Option.bind_eq_bind, Option.bind_some, ConnMemory.write_cell, ConnMemory.new_cell, hha,
    hnext, if_false]
  refine ⟨_, rfl, Links.ext (funext fun x => ?_) (funext fun x => ?_), rfl, fun x => ?_⟩
  · -- the pointers to the next objects
    simp only [ConnMemory.links, Links.insertAfter, Function.update_apply, ConnMemory.write_cell,
      ConnMemory.new_cell, hha, hba, hbh, if_true, if_false]
    split_ifs <;> simp_all
  · simp only [ConnMemory.links, Links.insertAfter, Function.update_apply, ConnMemory.write_cell,
      ConnMemory.new_cell, hha, hba, hbh, if_true, if_false]
    split_ifs <;> simp_all
  · simp only [ConnMemory.write_cell, ConnMemory.new_cell]
    split_ifs <;> simp_all

/-- `DeleteConn` on an object that is linked. -/
theorem deleteConn_eq (hc : c ∈ m.allocated) (hprev : (m.cell c).prev = some a)
    (ha : a ∈ m.allocated) (hnext : (m.cell c).next = some b) (hb : b ∈ m.allocated) (hac : a ≠ c) :
    ∃ m', deleteConn m q c = some (m', { q with currentConnNum := q.currentConnNum - 1 }) ∧
      m'.links = m.links.join a b ∧ m'.allocated = m.allocated.erase c ∧
      ∀ x, (m'.cell x).fd = (m.cell x).fd := by
  simp only [deleteConn, ConnMemory.load_some, hc, if_true, Option.bind_eq_bind, Option.bind_some,
    hprev, hnext, ConnMemory.store_some, ha, hb, ConnMemory.write_allocated, ConnMemory.write_cell,
    hac.symm, if_false, ConnMemory.delete]
  refine ⟨_, rfl, Links.ext (funext fun x => ?_) (funext fun x => ?_), rfl, fun x => ?_⟩
  · -- the pointers to the next objects
    simp only [ConnMemory.links, Links.join, Function.update_apply, ConnMemory.write_cell]
    split_ifs <;> simp_all
  · simp only [ConnMemory.links, Links.join, Function.update_apply, ConnMemory.write_cell]
    split_ifs <;> simp_all
  · simp only [ConnMemory.write_cell]
    split_ifs <;> simp_all

/-- The loop of the destructor deletes the objects of a list, from where it begins. -/
theorem destroyLoop_eq {l : List Addr} (hl : Linked m.links l)
    (hlast : ∀ a ∈ l.getLast?, m.links.next a = none) (hnd : l.Nodup)
    (halloc : ∀ a ∈ l, a ∈ m.allocated) :
    destroyLoop m l.head? = some ({ m with allocated := m.allocated.diff l }, l) := by
  induction l generalizing m with
  | nil => rw [List.head?_nil, destroyLoop, List.diff_nil]
  | cons a l ih =>
    rw [List.forall_mem_cons] at halloc
    obtain ⟨hal, hnd⟩ := List.nodup_cons.1 hnd
    -- the pointer is read before its object is deleted
    have hnext : (m.cell a).next = l.head? := by
      cases l with
      | nil => exact hlast a rfl
      | cons b l => exact (List.isChain_cons_cons.1 hl).1.1
    have hrest := ih (m := { m with allocated := m.allocated.erase a }) hl.tail (fun b hb => ?_) hnd
      fun b hb => (List.mem_erase_of_ne (ne_of_mem_of_not_mem hb hal)).2 (halloc.2 b hb)
    · rw [List.head?_cons, destroyLoop, dif_pos halloc.1, hnext, hrest, Option.map_some,
        List.diff_cons]
    · refine hlast b ?_
      cases l with
      | nil => cases hb
      | cons c l => rwa [List.getLast?_cons_cons]

end LinkedQueue

/-! ## Runs -/

/-- A queue in memory, and the objects inserted and not yet deleted, latest first. -/
structure QueueRun where
  memory : ConnMemory
  queue : LinkedQueue
  conns : List Addr

namespace QueueRun

/-- A call of `InsertConn`, with the address that `new` returns if it is called, or of
    `DeleteConn`. -/
inductive Action
  | insert (a : Addr) (fd : Int) (t : ThreadId) (bev : Bufferevent)
  | delete (c : Addr)

/-- An address that `new` returns is not one of an object in memory; the objects deleted
    are linked. -/
def Enabled (s : QueueRun) : Action → Prop
  | .insert a _ _ _ => a ∉ s.memory.allocated
  | .delete c => c ∈ s.conns

instance (s : QueueRun) : DecidablePred s.Enabled
  | .insert a _ _ _ => inferInstanceAs (Decidable (a ∉ s.memory.allocated))
  | .delete c => inferInstanceAs (Decidable (c ∈ s.conns))

/-- A call, with no check of what it accesses. -/
def call (s : QueueRun) : Action → Option QueueRun
  | .insert a fd t bev => do
    let (c, m, q) ← LinkedQueue.insertConn s.memory s.queue a fd t bev
    return ⟨m, q, c.elim s.conns (· :: s.conns)⟩
  | .delete c => do
    let (m, q) ← LinkedQueue.deleteConn s.memory s.queue c
    return ⟨m, q, s.conns.erase c⟩

def step (s : QueueRun) (a : Action) : Option QueueRun := if s.Enabled a then s.call a else none

/-- The objects from `m_head` to `m_tail`. -/
def nodes (s : QueueRun) : List Addr := s.queue.head :: (s.conns ++ [s.queue.tail])

/-- The objects inserted and not yet deleted are those linked between the sentinels. -/
structure Inv (s : QueueRun) : Prop where
  isList : IsList s.memory.links s.nodes
  allocated : ∀ a ∈ s.nodes, a ∈ s.memory.allocated
  num : s.queue.currentConnNum = s.conns.length
  le : s.conns.length ≤ maxOpenFd

variable {s s' : QueueRun} {a : Action}

/-- `InsertConn`, if the queue is not full. -/
theorem Inv.insertConn (h : s.Inv) {a : Addr} (ha : a ∉ s.memory.allocated)
    (hnum : s.queue.currentConnNum < maxOpenFd) (fd : Int) (t : ThreadId) (bev : Bufferevent) :
    ∃ s', s.call (.insert a fd t bev) = some s' ∧ s'.Inv ∧ s'.conns = a :: s.conns ∧
      s'.queue.currentConnNum = s.queue.currentConnNum + 1 ∧
      ∀ x, (s'.memory.cell x).fd = if x = a then fd else (s.memory.cell x).fd := by
  -- `b` comes after `m_head`: the latest object, or `m_tail`
  obtain ⟨b, post, hb⟩ := List.exists_cons_of_ne_nil (l := s.conns ++ [s.queue.tail]) (by simp)
  have hnodes : s.nodes = s.queue.head :: b :: post := congrArg (_ :: ·) hb
  have hlist := h.isList
  have halloc := h.allocated
  rw [hnodes] at hlist halloc
  have hbh : b ≠ s.queue.head := fun he => (List.nodup_cons.1 hlist.nodup).1 (he ▸ List.mem_cons_self)
  obtain ⟨m', hcall, hlinks, hm', hfd⟩ := LinkedQueue.insertConn_eq hnum ha
    (halloc _ List.mem_cons_self) (List.isChain_cons_cons.1 hlist.linked).1.1
    (halloc b (by simp)) hbh fd t bev
  refine ⟨⟨m', { s.queue with currentConnNum := s.queue.currentConnNum + 1 }, a :: s.conns⟩, ?_,
    ⟨?_, ?_, ?_, ?_⟩, rfl, rfl, hfd⟩
  · simp [call, hcall]
  · rw [nodes, List.cons_append, hb, hlinks]
    rw [← List.nil_append (s.queue.head :: b :: post)] at hlist
    exact hlist.insertAfter fun hmem => ha (halloc a hmem)
  · intro x hx
    rw [nodes, List.cons_append, hb, List.mem_cons, List.mem_cons, or_left_comm] at hx
    rw [hm', List.mem_cons]
    exact hx.imp_right fun hx => halloc x (List.mem_cons.2 hx)
  · rw [h.num, List.length_cons]
    rfl
  · rw [h.num] at hnum
    rw [List.length_cons]
    omega

theorem call_insert_of_full (hnum : ¬s.queue.currentConnNum < maxOpenFd) (a : Addr) (fd : Int)
    (t : ThreadId) (bev : Bufferevent) :
    LinkedQueue.insertConn s.memory s.queue a fd t bev = some (none, s.memory, s.queue) ∧
      s.call (.insert a fd t bev) = some s := by
  rw [call, LinkedQueue.insertConn, if_neg hnum]
  exact ⟨rfl, rfl⟩

/-- An object that is linked, between its neighbours. -/
theorem Inv.neighbours (h : s.Inv) {c : Addr} (hc : c ∈ s.conns) :
    ∃ pre p n post, s.nodes = pre ++ p :: c :: n :: post ∧
      s.queue.head :: (s.conns.erase c ++ [s.queue.tail]) = pre ++ p :: n :: post := by
  obtain ⟨before, after, hconns⟩ := List.append_of_mem hc
  have hnd : s.conns.Nodup := (List.nodup_append.1 (List.nodup_cons.1 h.isList.nodup).2).1
  have herase : s.conns.erase c = before ++ after := by
    have hbefore : c ∉ before := fun hmem =>
      (List.nodup_append.1 (hconns ▸ hnd)).2.2 c hmem c List.mem_cons_self rfl
    rw [hconns, List.erase_append_right _ hbefore, List.erase_cons_head]
  -- before the first object there is `m_head`, and after the last one `m_tail`
  obtain ⟨pre, p, hpre⟩ : ∃ pre p, s.queue.head :: before = pre ++ [p] :=
    ⟨_, _, (List.dropLast_append_getLast (List.cons_ne_nil _ _)).symm⟩
  obtain ⟨n, post, hpost⟩ := List.exists_cons_of_ne_nil (l := after ++ [s.queue.tail]) (by simp)
  refine ⟨pre, p, n, post, ?_, ?_⟩
  · calc
      s.nodes
      _ = (s.queue.head :: before) ++ c :: (after ++ [s.queue.tail]) := by simp [nodes, hconns]
      _ = pre ++ p :: c :: n :: post := by simp [hpre, hpost]
  · calc
      s.queue.head :: (s.conns.erase c ++ [s.queue.tail])
      _ = (s.queue.head :: before) ++ (after ++ [s.queue.tail]) := by simp [herase]
      _ = pre ++ p :: n :: post := by simp [hpre, hpost]

/-- `DeleteConn` of an object that is linked. -/
theorem Inv.deleteConn (h : s.Inv) {c : Addr} (hc : c ∈ s.conns) :
    ∃ s', s.call (.delete c) = some s' ∧ s'.Inv ∧ s'.conns = s.conns.erase c ∧
      s'.queue.currentConnNum = s.queue.currentConnNum - 1 ∧
      ∀ x, (s'.memory.cell x).fd = (s.memory.cell x).fd := by
  obtain ⟨pre, p, n, post, hnodes, hjoined⟩ := h.neighbours hc
  have hlist := h.isList
  have halloc := h.allocated
  rw [hnodes] at hlist halloc
  obtain ⟨-, ⟨hpc, hcp⟩, hrest⟩ := List.isChain_append_cons_cons.1 hlist.linked
  have hnot : c ∉ pre ++ p :: n :: post := by
    have hnd := hlist.nodup
    rw [List.append_cons, List.nodup_middle, List.nodup_cons, ← List.append_cons] at hnd
    exact hnd.1
  have hne : p ≠ c := by
    rintro rfl
    exact hnot (by simp)
  obtain ⟨m', hcall, hlinks, hm', hfd⟩ := LinkedQueue.deleteConn_eq (q := s.queue)
    (halloc c (by simp)) hcp (halloc p (by simp)) (List.isChain_cons_cons.1 hrest).1.1
    (halloc n (by simp)) hne
  have hlist' := hlist.join
  rw [← hlinks, ← hjoined] at hlist'
  rw [← hjoined] at hnot
  have hlen := List.length_erase_of_mem hc
  have hpos := List.length_pos_of_mem hc
  refine ⟨⟨m', { s.queue with currentConnNum := s.queue.currentConnNum - 1 }, s.conns.erase c⟩, ?_,
    ⟨hlist', fun x hx => ?_, ?_, ?_⟩, rfl, rfl, hfd⟩
  · simp [call, hcall]
  · have hx' : x ∈ s.nodes := by
      refine List.mem_cons.2 ((List.mem_cons.1 hx).imp_right fun hx => ?_)
      exact List.mem_append.2 ((List.mem_append.1 hx).imp_left List.mem_of_mem_erase)
    rw [hm']
    exact (List.mem_erase_of_ne (ne_of_mem_of_not_mem hx hnot)).2 (h.allocated x hx')
  · simp only [h.num, hlen]
    omega
  · have := h.le
    simp only [hlen]
    omega

theorem Inv.call (h : s.Inv) (ha : s.Enabled a) : ∃ s', s.call a = some s' ∧ s'.Inv := by
  cases a with
  | insert a fd t bev =>
    by_cases hnum : s.queue.currentConnNum < maxOpenFd
    · obtain ⟨s', hs, hinv, -⟩ := h.insertConn ha hnum fd t bev
      exact ⟨s', hs, hinv⟩
    · exact ⟨s, (call_insert_of_full hnum a fd t bev).2, h⟩
  | delete c =>
    obtain ⟨s', hs, hinv, -⟩ := h.deleteConn ha
    exact ⟨s', hs, hinv⟩

theorem Inv.step (h : s.Inv) (hs : s.step a = some s') : s'.Inv := by
  rw [QueueRun.step] at hs
  split_ifs at hs with ha
  obtain ⟨s₁, hcall, hinv⟩ := h.call ha
  rw [hcall, Option.some.injEq] at hs
  exact hs ▸ hinv

/-- A queue in memory represents the list of the objects inserted and not yet deleted. -/
structure Represents (s : QueueRun) : Prop where
  /-- `m_Next` leads from `m_head` to each object once, the latest first, then to `m_tail`,
      and then to `NULL`. -/
  next : ∀ i, s.memory.links.walk (some s.queue.head) i = s.nodes[i]?
  nodup : s.nodes.Nodup
  /-- `m_Prev` is the inverse of `m_Next`. -/
  prev : ∀ a ∈ s.nodes, ∀ b ∈ s.nodes, (s.memory.cell a).next = some b ↔ (s.memory.cell b).prev = some a
  num : s.queue.currentConnNum = s.conns.length
  num_nonneg : 0 ≤ s.queue.currentConnNum
  num_le : s.queue.currentConnNum ≤ maxOpenFd
  /-- No call accesses anything but objects in memory. -/
  safe : ∀ a, s.Enabled a → ∃ s', s.call a = some s'
  /-- A full queue is left as it is. -/
  full : s.queue.currentConnNum = maxOpenFd → ∀ a fd t bev,
    LinkedQueue.insertConn s.memory s.queue a fd t bev = some (none, s.memory, s.queue)
  /-- The destructor deletes each object and the sentinels, once. -/
  destroyed : ∃ m, LinkedQueue.destroy s.memory s.queue = some (m, s.nodes)

theorem Inv.represents (h : s.Inv) : s.Represents where
  next := h.isList.walk
  nodup := h.isList.nodup
  prev a ha b hb := h.isList.next_eq_iff ha hb
  num := h.num
  num_nonneg := by
    rw [h.num]
    exact Int.natCast_nonneg _
  num_le := by
    rw [h.num]
    exact Int.ofNat_le.2 h.le
  safe a ha := (h.call ha).imp fun _ hs => hs.1
  full hnum a fd t bev := (call_insert_of_full (by rw [hnum]; exact lt_irrefl _) a fd t bev).1
  destroyed := ⟨_, LinkedQueue.destroyLoop_eq h.isList.linked h.isList.next_last h.isList.nodup
    h.allocated⟩

/-- Whatever the memory holds, and whichever addresses `new` returns: after any number of
    calls that insert connections and delete linked ones, the queue represents the list of
    those inserted and not deleted. -/
theorem queue_represented (m : ConnMemory) {h t : Addr} (hth : t ≠ h) :
    ∃ m₀ q₀, LinkedQueue.construct m h t = some (m₀, q₀) ∧
      ∀ (as : List Action) (s : QueueRun), exec step ⟨m₀, q₀, []⟩ as = some s → s.Represents := by
  obtain ⟨m₀, hm₀, halloc, hlist⟩ := LinkedQueue.construct_eq (m := m) hth
  refine ⟨m₀, _, hm₀, fun as s hs => Inv.represents ?_⟩
  refine exec_inv (I := Inv) (fun _ _ _ => Inv.step) ⟨hlist, fun a ha => ?_, rfl, Nat.zero_le _⟩ hs
  rw [halloc]
  rcases List.mem_pair.1 ha with rfl | rfl
  · exact List.mem_cons_of_mem _ List.mem_cons_self
  · exact List.mem_cons_self

/-- Two connections are inserted, and the first is deleted. -/
theorem queue_represented_two :
    ∃ m₀ q₀ s, LinkedQueue.construct ⟨default, []⟩ 0 1 = some (m₀, q₀) ∧
      exec step ⟨m₀, q₀, []⟩ [.insert 2 5 0 0, .insert 3 6 0 1, .delete 2] = some s ∧
        s.conns = [3] ∧ s.Represents := by
  obtain ⟨m₀, q₀, hq, h⟩ := queue_represented ⟨default, []⟩ (h := 0) (t := 1) (by decide)
  have hconns : (exec step ⟨m₀, q₀, []⟩ [.insert 2 5 0 0, .insert 3 6 0 1, .delete 2]).map conns =
      some [3] := by
    cases hq
    rfl
  obtain ⟨s, hs, hs'⟩ := Option.map_eq_some_iff.1 hconns
  exact ⟨m₀, q₀, s, hq, hs, hs', h _ s hs⟩

/-! ## Without the pointers -/

/-- The queue as `MainPool` has it. -/
def toQueue (s : QueueRun) : ConnQueue where
  conns := s.conns.map fun a => ⟨a, (s.memory.cell a).fd⟩
  currentConnNum := s.queue.currentConnNum

theorem Inv.toQueue_insert (h : s.Inv) {a : Addr} (ha : a ∉ s.memory.allocated)
    (hnum : s.queue.currentConnNum < maxOpenFd) {fd : Int} {t : ThreadId} {bev : Bufferevent}
    (hs : s.call (.insert a fd t bev) = some s') : s'.toQueue = s.toQueue.link ⟨a, fd⟩ := by
  obtain ⟨s₁, hcall, -, hconns, hnum', hfd⟩ := h.insertConn ha hnum fd t bev
  obtain rfl : s₁ = s' := Option.some.inj (hcall.symm.trans hs)
  have hold : ∀ x ∈ s.conns, (⟨x, (s₁.memory.cell x).fd⟩ : Conn) = ⟨x, (s.memory.cell x).fd⟩ := by
    intro x hx
    have hxa : x ≠ a := by
      rintro rfl
      exact ha (h.allocated x (by simp [nodes, hx]))
    rw [hfd, if_neg hxa]
  rw [toQueue, toQueue, ConnQueue.link, hconns, hnum', List.map_cons, hfd, if_pos rfl,
    List.map_congr_left hold]

theorem Inv.toQueue_delete (h : s.Inv) {c : Addr} (hc : c ∈ s.conns)
    (hs : s.call (.delete c) = some s') :
    s'.toQueue = s.toQueue.deleteConn ⟨c, (s.memory.cell c).fd⟩ := by
  obtain ⟨s₁, hcall, -, hconns, hnum', hfd⟩ := h.deleteConn hc
  obtain rfl : s₁ = s' := Option.some.inj (hcall.symm.trans hs)
  have hinj : Function.Injective fun x => (⟨x, (s.memory.cell x).fd⟩ : Conn) := fun x y hxy =>
    congrArg Conn.id hxy
  rw [toQueue, toQueue, ConnQueue.deleteConn, hconns, hnum']
  simp only [hfd, List.map_erase hinj]

end QueueRun

end VsHttpServer
