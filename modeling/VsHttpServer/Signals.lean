import VsHttpServer.Transition
import Mathlib.Data.List.Nodup
import Mathlib.Logic.Function.Basic

/-!
# Signals and timers

`AddSignalEvent` makes an event of libevent, adds it, and enters it in `m_SignalEvents`
in place of an earlier one for the same signal; `DeleteSignalEvent` takes it out. The
events of timers are handed to the caller, and are not in the map.

libevent is a parameter: the functions that the server calls, over the states of an
`event_base`, and what can be seen of the events there. Each of them may fail.

* `Libevent.Laws`: what its documentation says of them;
* `Inv.step`: the pending events of signals are those of the map, one for each signal;
* `handlers_iff`: what is called for a signal is the handler that was added last, and not
  deleted since, if and only if `event_del` leaves no event pending that the map loses.
-/

namespace VsHttpServer

open Transition

/-- The address of an `event` of libevent. -/
abbrev EventId := Nat

/-- A function that is called with an event. -/
abbrev Handler := Nat

/-- What an event was made for. -/
inductive Trigger
  | signal (sig : Int)
  /-- With `EV_PERSIST`, or without. -/
  | timer (persist : Bool)
  deriving DecidableEq

/-- What the server uses of libevent, over the states `B` of an `event_base`. -/
structure Libevent (B : Type) where
  /-- `evsignal_new`; `none` is `NULL`. -/
  evsignalNew : B → Int → Handler → Option EventId × B
  /-- `new event`, and `event_assign` without a descriptor. -/
  eventAssign : B → Bool → Handler → EventId × B
  eventAdd : B → EventId → Int × B
  eventDel : B → EventId → Int × B
  /-- The base runs its loop once. -/
  loop : B → B
  /-- What the event was made for; `none` where there is no event. -/
  trigger : B → EventId → Option Trigger
  handler : B → EventId → Handler
  /-- `event_pending`. -/
  pending : B → EventId → Bool
  /-- The events whose handlers are called when a signal arrives, in some order. -/
  called : B → Int → List EventId

namespace Libevent

variable {B : Type} (L : Libevent B)

/-- The event `ev` is new in `b'`, and not pending; the others are as in `b`. -/
structure Makes (b b' : B) (ev : EventId) (t : Trigger) (ptr : Handler) : Prop where
  unused : L.trigger b ev = none
  trigger : L.trigger b' ev = some t
  handler : L.handler b' ev = ptr
  pending : L.pending b' ev = false
  others : ∀ e ≠ ev, L.trigger b' e = L.trigger b e ∧ L.handler b' e = L.handler b e ∧
    L.pending b' e = L.pending b e

/-- The events of `b'` are those of `b`, and as many are pending, but for `ev`. -/
structure Keeps (b b' : B) (ev : EventId) : Prop where
  trigger : ∀ e, L.trigger b' e = L.trigger b e
  handler : ∀ e, L.handler b' e = L.handler b e
  pending : ∀ e ≠ ev, L.pending b' e = L.pending b e

/-- An event for the signal is pending. -/
def Waits (b : B) (sig : Int) (ev : EventId) : Prop :=
  L.trigger b ev = some (.signal sig) ∧ L.pending b ev = true

/-- What libevent is documented to do. -/
structure Laws : Prop where
  evsignalNew : ∀ b sig ptr ev b', L.evsignalNew b sig ptr = (some ev, b') →
    L.Makes b b' ev (.signal sig) ptr
  eventAssign : ∀ b persist ptr ev b', L.eventAssign b persist ptr = (ev, b') →
    L.Makes b b' ev (.timer persist) ptr
  /-- The event is pending, or an error is returned. -/
  eventAdd : ∀ b ev r b', L.trigger b ev ≠ none → L.eventAdd b ev = (r, b') →
    L.Keeps b b' ev ∧ L.pending b' ev = if r < 0 then L.pending b ev else true
  /-- An event that is not pending stays so. -/
  eventDel : ∀ b ev r b', L.trigger b ev ≠ none → L.eventDel b ev = (r, b') →
    L.Keeps b b' ev ∧ (L.pending b ev = false ∨ r = 0 → L.pending b' ev = false)
  /-- The events of signals stay pending, whatever arrives. -/
  loop : ∀ b sig ev, (L.Waits (L.loop b) sig ev ↔ L.Waits b sig ev) ∧
    (L.Waits b sig ev → L.handler (L.loop b) ev = L.handler b ev)
  called : ∀ b sig, (L.called b sig).Nodup ∧ ∀ ev, ev ∈ L.called b sig ↔ L.Waits b sig ev

variable {L} {b b' : B} {ev e : EventId} {sig : Int} {t : Trigger} {ptr : Handler}

/-- A new event waits for nothing yet. -/
theorem Makes.waits_iff (h : L.Makes b b' ev t ptr) : L.Waits b' sig e ↔ L.Waits b sig e := by
  by_cases he : e = ev
  · refine iff_of_false (fun hw => ?_) fun hw => ?_
    · exact absurd (h.pending.symm.trans (he ▸ hw.2)) Bool.false_ne_true
    · exact absurd (h.unused.symm.trans (he ▸ hw.1)) (Option.some_ne_none _).symm
  · obtain ⟨ht, -, hp⟩ := h.others e he
    rw [Waits, Waits, ht, hp]

theorem Keeps.waits_iff (h : L.Keeps b b' ev) (he : e ≠ ev) :
    L.Waits b' sig e ↔ L.Waits b sig e := by
  rw [Waits, Waits, h.trigger, h.pending e he]

/-- A handler is called for a signal that an event waits for. -/
theorem Waits.unique {sig' : Int} (h : L.Waits b sig ev) (h' : L.Waits b sig' ev) : sig = sig' :=
  Trigger.signal.inj (Option.some.inj (h.1.symm.trans h'.1))

end Libevent

/-! ## Events in a table -/

/-- An event in memory. -/
structure Slot where
  trigger : Trigger
  handler : Handler
  pending : Bool
  deriving DecidableEq

/-- There are signals from `0` to `64`. -/
def Trigger.Valid : Trigger → Prop
  | .signal sig => 0 ≤ sig ∧ sig ≤ 64
  | .timer _ => True

instance : DecidablePred Trigger.Valid
  | .signal sig => inferInstanceAs (Decidable (0 ≤ sig ∧ sig ≤ 64))
  | .timer _ => inferInstanceAs (Decidable True)

namespace Libevent

/-- The events are in a table, and are never freed. -/
def table : Libevent (List Slot) where
  evsignalNew b sig ptr := (some b.length, b ++ [⟨.signal sig, ptr, false⟩])
  eventAssign b persist ptr := (b.length, b ++ [⟨.timer persist, ptr, false⟩])
  eventAdd b ev :=
    if ∃ x ∈ b[ev]?, x.trigger.Valid then (0, b.modify ev fun x => { x with pending := true })
    else (-1, b)
  eventDel b ev := (0, b.modify ev fun x => { x with pending := false })
  loop b := b.map fun x => if x.trigger = .timer false then { x with pending := false } else x
  trigger b ev := (b[ev]?).map Slot.trigger
  handler b ev := (b[ev]?).elim 0 Slot.handler
  pending b ev := (b[ev]?).elim false Slot.pending
  called b sig := (List.range b.length).filter fun ev =>
    ∃ x ∈ b[ev]?, x.trigger = .signal sig ∧ x.pending

theorem table_makes (b : List Slot) (t : Trigger) (ptr : Handler) :
    table.Makes b (b ++ [⟨t, ptr, false⟩]) b.length t ptr where
  unused := by simp [table]
  trigger := by simp [table]
  handler := by simp [table]
  pending := by simp [table]
  others e he := by
    have hget : (b ++ [⟨t, ptr, false⟩])[e]? = b[e]? := by
      rcases Nat.lt_or_gt_of_ne he with hlt | hgt
      · exact List.getElem?_append_left hlt
      · have hlen : (b ++ [(⟨t, ptr, false⟩ : Slot)]).length ≤ e := by
          rw [List.length_append, List.length_singleton]
          exact hgt
        rw [List.getElem?_eq_none hlen, List.getElem?_eq_none hgt.le]
    simp only [table, hget, and_self]

theorem table_keeps (b : List Slot) (ev : EventId) (p : Bool) :
    table.Keeps b (b.modify ev fun x => { x with pending := p }) ev := by
  refine ⟨fun e => ?_, fun e => ?_, fun e he => ?_⟩
  · simp only [table, List.getElem?_modify]
    split_ifs <;> cases b[e]? <;> rfl
  · simp only [table, List.getElem?_modify]
    split_ifs <;> cases b[e]? <;> rfl
  · simp only [table, List.getElem?_modify, if_neg (Ne.symm he), Option.map_eq_map, Option.map_id']

theorem pending_modify {b : List Slot} {ev : EventId} (h : table.trigger b ev ≠ none) (p : Bool) :
    table.pending (b.modify ev fun x => { x with pending := p }) ev = p := by
  obtain ⟨x, hx⟩ : ∃ x, b[ev]? = some x := by
    cases hx : b[ev]? with
    | none => exact absurd (by rw [table]; simp [hx]) h
    | some x => exact ⟨x, rfl⟩
  simp [table, hx]

theorem table_waits {b : List Slot} {sig : Int} {ev : EventId} :
    table.Waits b sig ev ↔ ∃ x ∈ b[ev]?, x.trigger = .signal sig ∧ x.pending := by
  simp only [Waits, table]
  cases b[ev]? <;> simp

theorem table_laws : table.Laws where
  evsignalNew b sig ptr ev b' h := by
    cases h
    exact table_makes b _ ptr
  eventAssign b persist ptr ev b' h := by
    cases h
    exact table_makes b _ ptr
  eventAdd b ev r b' hev h := by
    simp only [table] at h
    split_ifs at h
    · cases h
      exact ⟨table_keeps b ev true, by rw [if_neg (by decide), pending_modify hev]⟩
    · cases h
      exact ⟨⟨fun _ => rfl, fun _ => rfl, fun _ _ => rfl⟩, by rw [if_pos (by decide)]⟩
  eventDel b ev r b' hev h := by
    cases h
    exact ⟨table_keeps b ev false, fun _ => pending_modify hev false⟩
  loop b sig ev := by
    rw [table_waits, table_waits]
    simp only [table, List.getElem?_map]
    cases b[ev]? with
    | none => simp
    | some x =>
      -- the event of a signal is no timer
      simp only [Option.map_some, Option.mem_some_iff, exists_eq_left', Option.elim_some]
      split_ifs with hx
      · simp [hx]
      · exact ⟨Iff.rfl, fun _ => rfl⟩
  called b sig := by
    refine ⟨List.nodup_range.filter _, fun ev => ?_⟩
    rw [table_waits, table, List.mem_filter, List.mem_range, decide_eq_true_iff]
    refine and_iff_right_of_imp fun ⟨x, hx, _⟩ => ?_
    exact (List.getElem?_eq_some_iff.1 hx).1

end Libevent

/-- The events of the server. -/
structure Events (B : Type) where
  /-- `m_MainBase->base`. -/
  base : B
  signalEvents : Int → Option EventId
  /-- The handlers as the callers mean them: for each signal the one that was added last, if it
      was not deleted since. -/
  registered : Int → Option Handler

namespace Events

variable {B : Type} (L : Libevent B)

/-- Before the first call. -/
def init (b : B) : Events B := ⟨b, fun _ => none, fun _ => none⟩

/-- `DeleteSignalEvent`. -/
def deleteSignalEvent (s : Events B) (sig : Int) : Bool × Events B :=
  match s.signalEvents sig with
  | none => (false, s)
  | some ev =>
    (true, { s with
      base := (L.eventDel s.base ev).2
      signalEvents := Function.update s.signalEvents sig none })

/-- `AddSignalEvent`; `none` where it calls `event_del` with `NULL`. -/
def addSignalEvent (s : Events B) (sig : Int) (ptr : Handler) : Option (Bool × Events B) :=
  match L.evsignalNew s.base sig ptr with
  | (none, _) => none
  | (some ev, base) =>
    let (res, base) := L.eventAdd base ev
    if res < 0 then some (false, { s with base := (L.eventDel base ev).2 })
    else
      let s := (deleteSignalEvent L { s with base := base } sig).2
      some (true, { s with signalEvents := Function.update s.signalEvents sig (some ev) })

/-- `AddTimerEvent`; the result `none` is `NULL`. -/
def addTimerEvent (s : Events B) (ptr : Handler) (once : Bool) : Option EventId × Events B :=
  let (ev, base) := L.eventAssign s.base (!once) ptr
  let (res, base) := L.eventAdd base ev
  if res < 0 then (none, { s with base := (L.eventDel base ev).2 })
  else (some ev, { s with base := base })

/-- `DeleteTImerEvent`. -/
def deleteTimerEvent (s : Events B) (ev : EventId) : Bool × Events B :=
  let (res, base) := L.eventDel s.base ev
  (0 == res, { s with base := base })

inductive Action
  | addSignalEvent (sig : Int) (ptr : Handler)
  | deleteSignalEvent (sig : Int)
  | addTimerEvent (ptr : Handler) (once : Bool)
  | deleteTimerEvent (ev : EventId)
  | loop

/-- The event is one that `AddTimerEvent` has made. -/
def IsTimer (s : Events B) (ev : EventId) : Prop :=
  L.trigger s.base ev = some (.timer true) ∨ L.trigger s.base ev = some (.timer false)

instance (s : Events B) (ev : EventId) : Decidable (s.IsTimer L ev) :=
  inferInstanceAs (Decidable
    (L.trigger s.base ev = some (.timer true) ∨ L.trigger s.base ev = some (.timer false)))

/-- A call, or the loop; `DeleteTImerEvent` is called with an event of a timer. -/
def step (s : Events B) : Action → Option (Events B)
  | .addSignalEvent sig ptr =>
    (s.addSignalEvent L sig ptr).map fun (added, s') =>
      if added then { s' with registered := Function.update s.registered sig (some ptr) } else s'
  | .deleteSignalEvent sig =>
    some { (s.deleteSignalEvent L sig).2 with registered := Function.update s.registered sig none }
  | .addTimerEvent ptr once => some (s.addTimerEvent L ptr once).2
  | .deleteTimerEvent ev => if s.IsTimer L ev then some (s.deleteTimerEvent L ev).2 else none
  | .loop => some { s with base := L.loop s.base }

/-- The handlers that are called when a signal arrives. -/
def handlers (s : Events B) (sig : Int) : List Handler :=
  (L.called s.base sig).map (L.handler s.base)

/-- For each signal, what is called is what was registered, and `DeleteSignalEvent` returns
    whether there is something. -/
def Agree (s : Events B) : Prop :=
  ∀ sig, s.handlers L sig = (s.registered sig).toList ∧
    (s.deleteSignalEvent L sig).1 = (s.registered sig).isSome

/-- `event_del` leaves no event pending that `DeleteSignalEvent` takes out of the map. -/
def Removes (s : Events B) (a : Action) : Prop :=
  match a with
  | .deleteSignalEvent sig =>
    ∀ old, s.signalEvents sig = some old → L.pending (L.eventDel s.base old).2 old = false
  | .addSignalEvent sig ptr =>
    ∀ old, s.signalEvents sig = some old →
      ∀ ev b r b', L.evsignalNew s.base sig ptr = (some ev, b) → L.eventAdd b ev = (r, b') →
        0 ≤ r → L.pending (L.eventDel b' old).2 old = false
  | .addTimerEvent _ _ | .deleteTimerEvent _ | .loop => True

/-! ## What the calls do -/

variable {L} {s s' : Events B} {sig : Int} {ptr : Handler}

theorem deleteSignalEvent_of_none (h : s.signalEvents sig = none) :
    s.deleteSignalEvent L sig = (false, s) := by
  rw [deleteSignalEvent, h]

theorem deleteSignalEvent_of_some {old : EventId} (h : s.signalEvents sig = some old) :
    s.deleteSignalEvent L sig = (true, { s with
      base := (L.eventDel s.base old).2
      signalEvents := Function.update s.signalEvents sig none }) := by
  rw [deleteSignalEvent, h]

theorem signalEvents_deleteSignalEvent :
    (s.deleteSignalEvent L sig).2.signalEvents = Function.update s.signalEvents sig none := by
  cases h : s.signalEvents sig with
  | none => rw [deleteSignalEvent_of_none h, ← h, Function.update_eq_self]
  | some old => rw [deleteSignalEvent_of_some h]

/-- The event of the signal is not waited for any more; the others are as they were. -/
theorem waits_deleteSignalEvent (hL : L.Laws)
    (hold : ∀ old, s.signalEvents sig = some old → L.Waits s.base sig old)
    (hrem : ∀ old, s.signalEvents sig = some old → L.pending (L.eventDel s.base old).2 old = false)
    (sig' : Int) (e : EventId) :
    (L.Waits (s.deleteSignalEvent L sig).2.base sig' e ↔
        L.Waits s.base sig' e ∧ s.signalEvents sig ≠ some e) ∧
      L.handler (s.deleteSignalEvent L sig).2.base e = L.handler s.base e := by
  cases h : s.signalEvents sig with
  | none =>
    rw [deleteSignalEvent_of_none h]
    exact ⟨(and_iff_left (Option.some_ne_none e).symm).symm, rfl⟩
  | some old =>
    have hkeeps := (hL.eventDel s.base old _ _ (by rw [(hold old h).1]; simp) rfl).1
    rw [deleteSignalEvent_of_some h]
    refine ⟨?_, hkeeps.handler e⟩
    by_cases he : e = old
    · rw [he]
      refine iff_of_false (fun hw => ?_) fun hw => hw.2 rfl
      exact absurd ((hrem old h).symm.trans hw.2) Bool.false_ne_true
    · rw [hkeeps.waits_iff he, and_iff_left fun hs => he (Option.some.inj hs).symm]

/-- An event that `event_del` has left pending still waits for its signal. -/
theorem waits_of_pending (hL : L.Laws) {old : EventId} (hold : L.Waits s.base sig old)
    (hsome : s.signalEvents sig = some old)
    (hleft : L.pending (L.eventDel s.base old).2 old ≠ false) :
    L.Waits (s.deleteSignalEvent L sig).2.base sig old := by
  have hkeeps := (hL.eventDel s.base old _ _ (by rw [hold.1]; simp) rfl).1
  rw [deleteSignalEvent_of_some hsome]
  exact ⟨(hkeeps.trigger old).trans hold.1, Bool.not_eq_false _ ▸ hleft⟩

/-- What `AddSignalEvent` can do. -/
theorem addSignalEvent_cases {added : Bool} (h : s.addSignalEvent L sig ptr = some (added, s')) :
    ∃ ev b r b', L.evsignalNew s.base sig ptr = (some ev, b) ∧ L.eventAdd b ev = (r, b') ∧
      (r < 0 ∧ added = false ∧ s' = { s with base := (L.eventDel b' ev).2 } ∨
        0 ≤ r ∧ added = true ∧
          s' = { (deleteSignalEvent L { s with base := b' } sig).2 with
            signalEvents := Function.update s.signalEvents sig (some ev) }) := by
  rw [addSignalEvent] at h
  split at h
  case h_1 => cases h
  case h_2 ev b hnew =>
    obtain ⟨⟨r, b'⟩, hadd⟩ : ∃ p, L.eventAdd b ev = p := ⟨_, rfl⟩
    refine ⟨ev, b, r, b', hnew, hadd, ?_⟩
    rw [hadd] at h
    simp only at h
    split_ifs at h with hr
    · obtain ⟨rfl, rfl⟩ := Prod.mk.inj (Option.some.inj h)
      exact .inl ⟨hr, rfl, rfl⟩
    · obtain ⟨rfl, rfl⟩ := Prod.mk.inj (Option.some.inj h)
      refine .inr ⟨not_lt.1 hr, rfl, ?_⟩
      rw [signalEvents_deleteSignalEvent, Function.update_idem]

/-! ## The handlers of the signals -/

/-- The events that wait for signals are those of the map, with the handlers registered. -/
structure Inv (L : Libevent B) (s : Events B) : Prop where
  waits_iff : ∀ sig ev, L.Waits s.base sig ev ↔ s.signalEvents sig = some ev
  handler : ∀ sig, (s.signalEvents sig).map (L.handler s.base) = s.registered sig

theorem init_inv (hL : L.Laws) {b : B} (hb : ∀ sig, L.called b sig = []) : (init b).Inv L where
  waits_iff sig ev := by
    have hnot : ¬L.Waits b sig ev := by
      rw [← (hL.called b sig).2, hb]
      exact List.not_mem_nil
    exact iff_of_false hnot nofun
  handler _ := rfl

theorem Inv.called_eq (hL : L.Laws) (h : s.Inv L) (sig : Int) :
    L.called s.base sig = (s.signalEvents sig).toList := by
  obtain ⟨hnodup, hmem⟩ := hL.called s.base sig
  have hperm : List.Perm (L.called s.base sig) (s.signalEvents sig).toList := by
    refine (List.perm_ext_iff_of_nodup hnodup ?_).2 fun ev => ?_
    · cases s.signalEvents sig with
      | none => exact List.nodup_nil
      | some ev => exact List.nodup_singleton ev
    · rw [hmem, h.waits_iff, Option.mem_toList]
  cases hev : s.signalEvents sig with
  | none =>
    rw [hev] at hperm
    exact List.perm_nil.1 hperm
  | some ev =>
    rw [hev] at hperm
    exact List.perm_singleton.1 hperm

theorem Inv.agree (hL : L.Laws) (h : s.Inv L) : s.Agree L := by
  intro sig
  rw [handlers, h.called_eq hL, ← h.handler sig, Option.isSome_map]
  cases hev : s.signalEvents sig with
  | none => exact ⟨rfl, by rw [deleteSignalEvent_of_none hev]; rfl⟩
  | some ev => exact ⟨rfl, by rw [deleteSignalEvent_of_some hev]; rfl⟩

/-- No two signals have the same event. -/
theorem Inv.unique (h : s.Inv L) {sig' : Int} {ev : EventId} (hsig : s.signalEvents sig = some ev)
    (hsig' : s.signalEvents sig' = some ev) : sig = sig' :=
  ((h.waits_iff sig ev).2 hsig).unique ((h.waits_iff sig' ev).2 hsig')

/-- A step in which the same events wait for signals. -/
theorem Inv.move (h : s.Inv L) {b : B} (hwaits : ∀ sig ev, L.Waits b sig ev ↔ L.Waits s.base sig ev)
    (hhandler : ∀ sig ev, L.Waits s.base sig ev → L.handler b ev = L.handler s.base ev) :
    Inv L { s with base := b } where
  waits_iff sig ev := (hwaits sig ev).trans (h.waits_iff sig ev)
  handler sig := by
    rw [← h.handler sig]
    exact Option.map_congr fun ev hev => hhandler sig ev ((h.waits_iff sig ev).2 hev)

theorem Inv.makes (h : s.Inv L) {b : B} {ev : EventId} {t : Trigger}
    (hnew : L.Makes s.base b ev t ptr) : Inv L { s with base := b } := by
  refine h.move (fun sig e => hnew.waits_iff) fun sig e he => (hnew.others e ?_).2.1
  rintro rfl
  exact absurd (hnew.unused.symm.trans he.1) (Option.some_ne_none _).symm

/-- An event comes or goes that waits for no signal. -/
theorem Inv.keeps (h : s.Inv L) {b : B} {ev : EventId} (hkeeps : L.Keeps s.base b ev)
    (hno : ∀ sig, ¬L.Waits s.base sig ev ∧ ¬L.Waits b sig ev) : Inv L { s with base := b } := by
  refine h.move (fun sig e => ?_) fun _ e _ => hkeeps.handler e
  by_cases he : e = ev
  · exact iff_of_false (he ▸ (hno sig).2) (he ▸ (hno sig).1)
  · exact hkeeps.waits_iff he

/-- A timer is deleted. -/
theorem Inv.eventDel (hL : L.Laws) (h : s.Inv L) {ev : EventId} (hev : s.IsTimer L ev) :
    Inv L { s with base := (L.eventDel s.base ev).2 } := by
  have hsome : L.trigger s.base ev ≠ none := by
    rcases hev with hev | hev <;> simp [hev]
  have hkeeps := (hL.eventDel s.base ev _ _ hsome rfl).1
  have hno : ∀ sig, L.trigger s.base ev ≠ some (.signal sig) := by
    rcases hev with hev | hev <;> simp [hev]
  exact h.keeps hkeeps fun sig => ⟨fun hw => hno sig hw.1, fun hw =>
    hno sig ((hkeeps.trigger ev).symm.trans hw.1)⟩

theorem Inv.deleteSignalEvent (hL : L.Laws) (h : s.Inv L)
    (hrem : ∀ old, s.signalEvents sig = some old → L.pending (L.eventDel s.base old).2 old = false) :
    Inv L { (s.deleteSignalEvent L sig).2 with
      registered := Function.update s.registered sig none } := by
  have hwaits := waits_deleteSignalEvent hL (fun old => (h.waits_iff sig old).2) hrem
  refine ⟨fun sig' e => ?_, fun sig' => ?_⟩
  · rw [(hwaits sig' e).1, h.waits_iff, signalEvents_deleteSignalEvent, Function.update_apply]
    split_ifs with hs
    · exact iff_of_false (fun he => he.2 (hs ▸ he.1)) nofun
    · exact and_iff_left_of_imp fun he hsig => hs (h.unique he hsig)
  · simp only [signalEvents_deleteSignalEvent, Function.update_apply]
    split_ifs with hs
    · rfl
    · rw [← h.handler sig']
      exact Option.map_congr fun ev _ => (hwaits sig' ev).2

/-- An event was added for a signal: what waits now is what is in the map, and the new event. -/
theorem Inv.waits_added (hL : L.Laws) (h : s.Inv L) {ev : EventId} {b b' : B} {r : Int}
    (hnew : L.evsignalNew s.base sig ptr = (some ev, b)) (hadd : L.eventAdd b ev = (r, b'))
    (hr : 0 ≤ r) :
    (∀ sig' e, L.Waits b' sig' e ↔ s.signalEvents sig' = some e ∨ e = ev ∧ sig' = sig) ∧
      ∀ sig', s.signalEvents sig' ≠ some ev := by
  have hmakes := hL.evsignalNew _ _ _ _ _ hnew
  obtain ⟨hkeeps, hpending⟩ := hL.eventAdd b ev r b' (by rw [hmakes.trigger]; simp) hadd
  rw [if_neg (not_lt.2 hr)] at hpending
  have hfresh : ∀ sig', s.signalEvents sig' ≠ some ev := fun sig' hev =>
    absurd (hmakes.unused.symm.trans ((h.waits_iff sig' ev).2 hev).1) (Option.some_ne_none _).symm
  refine ⟨fun sig' e => ?_, hfresh⟩
  by_cases he : e = ev
  · rw [he, or_iff_right (hfresh sig'), and_iff_right rfl, Libevent.Waits, hkeeps.trigger,
      hmakes.trigger, and_iff_left hpending, Option.some.injEq, Trigger.signal.injEq]
    exact eq_comm
  · rw [hkeeps.waits_iff he, hmakes.waits_iff, h.waits_iff, or_iff_left fun hev => he hev.1]

/-- The event added for a signal that has one replaces it. -/
theorem Inv.addSignalEvent (hL : L.Laws) (h : s.Inv L) {ev : EventId} {b b' : B} {r : Int}
    (hnew : L.evsignalNew s.base sig ptr = (some ev, b)) (hadd : L.eventAdd b ev = (r, b'))
    (hr : 0 ≤ r)
    (hrem : ∀ old, s.signalEvents sig = some old →
      L.pending (L.eventDel b' old).2 old = false) :
    Inv L { (Events.deleteSignalEvent L { s with base := b' } sig).2 with
      signalEvents := Function.update s.signalEvents sig (some ev)
      registered := Function.update s.registered sig (some ptr) } := by
  obtain ⟨hbefore, hfresh⟩ := h.waits_added hL hnew hadd hr
  have hmakes := hL.evsignalNew _ _ _ _ _ hnew
  have hkeeps := (hL.eventAdd b ev r b' (by rw [hmakes.trigger]; simp) hadd).1
  have hhandler : ∀ e, e ≠ ev → L.handler b' e = L.handler s.base e := fun e he =>
    (hkeeps.handler e).trans (hmakes.others e he).2.1
  have hwaits := waits_deleteSignalEvent hL (s := { s with base := b' })
    (fun old hold => (hbefore sig old).2 (.inl hold)) hrem
  refine ⟨fun sig' e => ?_, fun sig' => ?_⟩
  · rw [(hwaits sig' e).1, hbefore]
    simp only [Function.update_apply]
    split_ifs with hs
    · subst hs
      constructor
      · rintro ⟨hold | ⟨rfl, -⟩, hne⟩
        · exact absurd hold hne
        · rfl
      · intro he
        cases he
        exact ⟨.inr ⟨rfl, rfl⟩, hfresh sig'⟩
    · refine ⟨fun he => he.1.resolve_right fun hev => hs hev.2, fun he => ⟨.inl he, fun hsig => ?_⟩⟩
      exact hs (h.unique he hsig)
  · simp only [Function.update_apply]
    split_ifs with hs
    · rw [Option.map_some, (hwaits sig ev).2, hkeeps.handler, hmakes.handler]
    · rw [← h.handler sig']
      refine Option.map_congr fun e he => ?_
      rw [(hwaits sig' e).2]
      exact hhandler e fun hev => hfresh sig' (hev ▸ he)

/-- An event that could not be added is given up. -/
theorem Inv.discard (hL : L.Laws) (h : s.Inv L) {ev : EventId} {b b' : B} {t : Trigger} {r : Int}
    (hnew : L.Makes s.base b ev t ptr) (hadd : L.eventAdd b ev = (r, b')) (hr : r < 0) :
    Inv L { s with base := (L.eventDel b' ev).2 } := by
  obtain ⟨hkeeps, hpending⟩ := hL.eventAdd b ev r b' (by rw [hnew.trigger]; simp) hadd
  rw [if_pos hr, hnew.pending] at hpending
  obtain ⟨hkeeps', hpending'⟩ := hL.eventDel b' ev _ _
    (by rw [hkeeps.trigger, hnew.trigger]; simp) rfl
  have hno : ∀ {b₁ : B}, L.pending b₁ ev = false → ∀ sig, ¬L.Waits b₁ sig ev := fun hb _ hw =>
    absurd (hb.symm.trans hw.2) Bool.false_ne_true
  have hinv := (h.makes hnew).keeps hkeeps fun sig => ⟨hno hnew.pending sig, hno hpending sig⟩
  exact hinv.keeps hkeeps' fun sig => ⟨hno hpending sig, hno (hpending' (.inl hpending)) sig⟩

theorem Inv.addTimerEvent (hL : L.Laws) (h : s.Inv L) (ptr : Handler) (once : Bool) :
    Inv L (s.addTimerEvent L ptr once).2 := by
  obtain ⟨⟨ev, b⟩, hnew⟩ : ∃ p, L.eventAssign s.base (!once) ptr = p := ⟨_, rfl⟩
  obtain ⟨⟨r, b'⟩, hadd⟩ : ∃ p, L.eventAdd b ev = p := ⟨_, rfl⟩
  have hmakes := hL.eventAssign _ _ _ _ _ hnew
  rw [Events.addTimerEvent, hnew]
  simp only [hadd]
  split_ifs with hr
  · exact h.discard hL hmakes hadd hr
  · have hkeeps := (hL.eventAdd b ev r b' (by rw [hmakes.trigger]; simp) hadd).1
    refine (h.makes hmakes).keeps hkeeps fun sig => ⟨fun hw => ?_, fun hw => ?_⟩
    · cases hmakes.trigger.symm.trans hw.1
    · cases hmakes.trigger.symm.trans ((hkeeps.trigger ev).symm.trans hw.1)

theorem Inv.step (hL : L.Laws) {a : Action} (h : s.Inv L) (ha : s.Removes L a)
    (hs : s.step L a = some s') : s'.Inv L := by
  cases a with
  | addSignalEvent sig ptr =>
    obtain ⟨⟨added, s₁⟩, hadd, rfl⟩ := Option.map_eq_some_iff.1 hs
    obtain ⟨ev, b, r, b', hnew, hev, ⟨hr, rfl, rfl⟩ | ⟨hr, rfl, rfl⟩⟩ := addSignalEvent_cases hadd
    · exact h.discard hL (hL.evsignalNew _ _ _ _ _ hnew) hev hr
    · exact h.addSignalEvent hL hnew hev hr fun old hold => ha old hold ev b r b' hnew hev hr
  | deleteSignalEvent sig =>
    cases hs
    exact h.deleteSignalEvent hL ha
  | addTimerEvent ptr once =>
    cases hs
    exact h.addTimerEvent hL ptr once
  | deleteTimerEvent ev =>
    obtain ⟨hev, he⟩ := Option.ite_none_right_eq_some.1 hs
    cases he
    exact h.eventDel hL hev
  | loop =>
    cases hs
    exact h.move (fun sig ev => (hL.loop s.base sig ev).1) fun sig ev =>
      (hL.loop s.base sig ev).2

/-- Where they agree, a signal that an event waits for has a handler, and no other event waits
    for it. -/
theorem Agree.unique (hL : L.Laws) (h : s.Agree L) {e : EventId} (he : L.Waits s.base sig e) :
    s.registered sig ≠ none ∧ ∀ e', L.Waits s.base sig e' → e' = e := by
  have hlen := congrArg List.length (h sig).1
  have hmem := (hL.called s.base sig).2
  rw [handlers, List.length_map] at hlen
  cases hr : s.registered sig with
  | none =>
    rw [hr, Option.toList_none, List.length_nil, List.length_eq_zero_iff] at hlen
    exact absurd ((hmem e).2 he) (hlen ▸ List.not_mem_nil)
  | some ptr =>
    rw [hr, Option.toList_some, List.length_singleton, List.length_eq_one_iff] at hlen
    obtain ⟨e₀, hcalled⟩ := hlen
    have hone : ∀ e', L.Waits s.base sig e' → e' = e₀ := fun e' he' =>
      List.mem_singleton.1 (hcalled ▸ (hmem e').2 he')
    exact ⟨Option.some_ne_none ptr, fun e' he' => (hone e' he').trans (hone e he).symm⟩

/-- The handler of an event that was taken out of the map, and is still pending, is called. -/
theorem Inv.not_agree (hL : L.Laws) {a : Action} (h : s.Inv L) (ha : ¬s.Removes L a)
    (hs : s.step L a = some s') : ¬s'.Agree L := by
  cases a with
  | addSignalEvent sig ptr =>
    simp only [Removes, not_forall] at ha
    obtain ⟨old, hold, ev, b, r, b', hnew, hadd, hr, hleft⟩ := ha
    have hstep : s.addSignalEvent L sig ptr =
        some (true, { (Events.deleteSignalEvent L { s with base := b' } sig).2 with
          signalEvents := Function.update s.signalEvents sig (some ev) }) := by
      rw [Events.addSignalEvent, hnew]
      simp only [hadd, if_neg (not_lt.2 hr), signalEvents_deleteSignalEvent, Function.update_idem]
    rw [Events.step, hstep] at hs
    cases hs
    intro hagree
    -- the old event and the new one wait for the signal
    obtain ⟨hbefore, hfresh⟩ := h.waits_added hL hnew hadd hr
    have hwaits : L.Waits b' sig old := (hbefore sig old).2 (.inl hold)
    have hne : ev ≠ old := fun he => hfresh sig (he ▸ hold)
    have hkeeps := (hL.eventDel b' old _ _ (by rw [hwaits.1]; simp) rfl).1
    have hold' := waits_of_pending (s := { s with base := b' }) hL hwaits hold hleft
    have hev : L.Waits (Events.deleteSignalEvent L { s with base := b' } sig).2.base sig ev := by
      rw [deleteSignalEvent_of_some (s := { s with base := b' }) hold, hkeeps.waits_iff hne]
      exact (hbefore sig ev).2 (.inr ⟨rfl, rfl⟩)
    exact hne ((hagree.unique hL hold').2 ev hev)
  | deleteSignalEvent sig =>
    simp only [Removes, not_forall] at ha
    obtain ⟨old, hold, hleft⟩ := ha
    cases hs
    intro hagree
    have hwaits := waits_of_pending hL ((h.waits_iff sig old).2 hold) hold hleft
    exact (hagree.unique hL hwaits).1 (Function.update_self _ _ _)
  | addTimerEvent ptr once => exact absurd trivial ha
  | deleteTimerEvent ev => exact absurd trivial ha
  | loop => exact absurd trivial ha

/-- Where `event_del` reports no error, it leaves no event pending. -/
theorem Inv.removes (hL : L.Laws) (h : s.Inv L) (hdel : ∀ b ev, (L.eventDel b ev).1 = 0)
    (a : Action) : s.Removes L a := by
  cases a with
  | addSignalEvent sig ptr =>
    intro old hold ev b r b' hnew hadd hr
    have hwaits := ((h.waits_added hL hnew hadd hr).1 sig old).2 (.inl hold)
    exact (hL.eventDel b' old _ _ (by rw [hwaits.1]; simp) rfl).2 (.inr (hdel b' old))
  | deleteSignalEvent sig =>
    intro old hold
    have hwaits := (h.waits_iff sig old).2 hold
    exact (hL.eventDel s.base old _ _ (by rw [hwaits.1]; simp) rfl).2 (.inr (hdel s.base old))
  | addTimerEvent ptr once => trivial
  | deleteTimerEvent ev => trivial
  | loop => trivial

theorem Inv.along_removes (hL : L.Laws) (h : s.Inv L) (hdel : ∀ b ev, (L.eventDel b ev).1 = 0)
    (as : List Action) : Along (Events.step L) (Removes L) s as := by
  induction as generalizing s with
  | nil => trivial
  | cons a as ih =>
    intro s' hs'
    have ha := h.removes hL hdel a
    exact ⟨ha, ih (h.step hL ha hs')⟩

/-- In every run, whatever fails in it: the handlers that libevent calls when a signal arrives
    are, in every state, the one that was added last for it, if it was not deleted since, and no
    other, and `DeleteSignalEvent` returns whether there is one, if and only if `event_del` leaves
    no event pending that is taken out of the map. -/
theorem handlers_iff (hL : L.Laws) {b : B} (hb : ∀ sig, L.called b sig = []) (as : List Action) :
    Along (step L) (Removes L) (init b) as ↔ Throughout (step L) (Agree L) (init b) as :=
  along_iff_throughout (fun _ _ _ h ha hs => h.step hL ha hs) (fun _ h => h.agree hL)
    (fun _ _ _ h ha hs => h.not_agree hL ha hs) (init_inv hL hb)

/-- A handler is replaced, a signal that there is not cannot be added, and one that was not
    added is deleted. -/
theorem handlers_iff_table :
    (exec (step .table) (init []) [.addSignalEvent 2 7, .addTimerEvent 9 true,
      .addSignalEvent 2 8, .loop, .addSignalEvent 99 5, .deleteSignalEvent 3]).map
        (fun s => (s.handlers .table 2, s.handlers .table 99)) = some ([8], []) ∧
    Throughout (step .table) (Agree .table) (init []) [.addSignalEvent 2 7, .addTimerEvent 9 true,
      .addSignalEvent 2 8, .loop, .addSignalEvent 99 5, .deleteSignalEvent 3] := by
  have hempty : ∀ sig, Libevent.table.called [] sig = [] := fun _ => rfl
  refine ⟨by decide, (handlers_iff Libevent.table_laws hempty _).1 ?_⟩
  exact (init_inv Libevent.table_laws hempty).along_removes Libevent.table_laws (fun _ _ => rfl) _

end Events

end VsHttpServer
