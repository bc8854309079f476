-- SUMMARY: The registry of one-shot registrations that the event table stands for, and every operation as moves of it.
import Mathlib.Data.List.ProdSigma
import MyCoroutine.Lib.OneShot
import MyCoroutine.IOManager.Events

/-! # The registry behind the event table

What the table is for: at most one registration for each descriptor and event.
A `Registry` is that and nothing else. `Encodes` says how `m_fdContexts` and
`m_pendingEventCount` store it, `Represents` adds the interest set of the
kernel. Every operation of the source is shown to be a list of one-shot moves of
the registry, and to leave everything as it was when it reports a failure. -/

namespace IOManager

open Counting OneShot

/-! ## Registrations -/

inductive Continuation where
  | fiber (f : FiberId)
  | cb (c : CbId)
  deriving DecidableEq

/-- What a successful `addEvent` leaves behind. -/
structure Registration where
  scheduler : SchedulerId
  continuation : Continuation
  deriving DecidableEq

abbrev Slot := Nat × Event

abbrev Registry := Slot → Option Registration

/-- How a slot is stored. -/
def contextOf : Option Registration → EventContext
  | none => .empty
  | some ⟨scheduler, .fiber f⟩ => ⟨some scheduler, some f, none⟩
  | some ⟨scheduler, .cb c⟩ => ⟨some scheduler, none, some c⟩

/-- The mask of the two events. -/
def maskOf (read write : Bool) : Mask :=
  (if read then Event.read.bits else 0) ||| (if write then Event.write.bits else 0)

namespace Registry

variable (R : Registry) (fd : Nat)

def events : Mask :=
  maskOf (R (fd, .read)).isSome (R (fd, .write)).isSome

def fdContext : FdContext where
  read := contextOf (R (fd, .read))
  write := contextOf (R (fd, .write))
  fd := fd
  events := R.events fd

/-- The kernel watches what is registered. -/
def interest : Option Mask :=
  if R.events fd = 0 then none else some (epollEt ||| R.events fd)

end Registry

/-- The slots of a table of `n` contexts. -/
def slots (n : Nat) : List Slot :=
  (List.range n).product [.read, .write]

theorem mem_slots {n fd : Nat} {event : Event} :
    (fd, event) ∈ slots n ↔ fd < n ∧ event ≠ .none := by
  cases event <;> simp [slots]

theorem slots_nodup (n : Nat) : (slots n).Nodup :=
  List.nodup_range.product (by decide)

/-- The table and the counter store `R`. -/
structure Encodes (R : Registry) (m : IOManager) : Prop where
  table : ∀ fd c, m.fdContexts[fd]? = some c → c = R.fdContext fd
  outside : ∀ fd event, R (fd, event) ≠ none → fd < m.fdContexts.length ∧ event ≠ .none
  pending : m.pendingEventCount = (held (slots m.fdContexts.length) id R).length

/-- The interest set follows the table, and the tickle pipe is as the
constructor registered it. -/
structure Represents (R : Registry) (m : IOManager) : Prop extends Encodes R m where
  interest : ∀ fd, fd ≠ m.tickleFd → m.interest fd = R.interest fd
  tickle : m.interest m.tickleFd = some (epollIn ||| epollEt)
  noTickle : ∀ event, R (m.tickleFd, event) = none

variable {R R' : Registry} {m m' : IOManager} {fd : Nat} {event : Event}

theorem getElem?_contextResize (m : IOManager) (size i : Nat) :
    (m.contextResize size).fdContexts[i]? =
      if i < size then some ((m.fdContexts[i]?).getD (.new i)) else none := by
  by_cases hi : i < size <;> simp [contextResize, hi]

/-! ## Masks -/

@[simp] theorem maskOf_false : maskOf false false = 0#32 := by
  decide

section

variable (r w : Bool)

@[simp] theorem maskOf_eq_zero : maskOf r w = 0#32 ↔ r = false ∧ w = false := by
  revert r w; decide

@[simp] theorem maskOf_and_read : maskOf r w &&& Event.read.bits = 0#32 ↔ r = false := by
  revert r w; decide

@[simp] theorem maskOf_and_write : maskOf r w &&& Event.write.bits = 0#32 ↔ w = false := by
  revert r w; decide

theorem maskOf_and_both :
    maskOf r w &&& (Event.read.bits ||| Event.write.bits) = maskOf r w := by
  revert r w; decide

@[simp] theorem maskOf_or_read : maskOf r w ||| Event.read.bits = maskOf true w := by
  revert r w; decide

@[simp] theorem maskOf_or_write : maskOf r w ||| Event.write.bits = maskOf r true := by
  revert r w; decide

@[simp] theorem maskOf_clear_read : maskOf r w &&& ~~~Event.read.bits = maskOf false w := by
  revert r w; decide

@[simp] theorem maskOf_clear_write : maskOf r w &&& ~~~Event.write.bits = maskOf r false := by
  revert r w; decide

end

theorem realEvents_eq (events mask : Mask) : ∃ r w, realEvents events mask = maskOf r w := by
  unfold realEvents maskOf
  generalize (if mask &&& (epollErr ||| epollHup) ≠ 0 then
      mask ||| ((epollIn ||| epollOut) &&& events) else mask) = widened
  exact ⟨decide (widened &&& epollIn ≠ 0), decide (widened &&& epollOut ≠ 0), by simp⟩

theorem Registry.events_and_bits (R : Registry) (fd : Nat) (hevent : event ≠ .none) :
    R.events fd &&& event.bits = 0 ↔ R (fd, event) = none := by
  cases event with
  | none => exact absurd rfl hevent
  | read => simp [events]
  | write => simp [events]

theorem Registry.events_add (R : Registry) (fd : Nat) (hevent : event ≠ .none) (r : Registration) :
    Registry.events (Function.update R (fd, event) (some r)) fd = R.events fd ||| event.bits := by
  cases event with
  | none => exact absurd rfl hevent
  | read => simp [events]
  | write => simp [events]

theorem Registry.events_end (R : Registry) (fd : Nat) (hevent : event ≠ .none) :
    Registry.events (Function.update R (fd, event) none) fd = R.events fd &&& ~~~event.bits := by
  cases event with
  | none => exact absurd rfl hevent
  | read => simp [events]
  | write => simp [events]

/-! ## The constructor -/

theorem init_represents (tickleFd size : Nat) :
    Represents (fun _ => none) (init tickleFd size) := by
  have hinterest (fd : Nat) : (init tickleFd size).interest fd =
      if fd = (init tickleFd size).tickleFd then some (epollIn ||| epollEt) else none := by
    simp [init, contextResize, Function.update_apply]
  constructor
  · constructor
    · intro fd c hc
      rw [init, getElem?_contextResize] at hc
      by_cases hfd : fd < size
      · rw [if_pos hfd] at hc
        rw [← Option.some.inj hc]
        simp [FdContext.new, Registry.fdContext, Registry.events, contextOf]
      · rw [if_neg hfd] at hc
        cases hc
    · exact fun _ _ h => absurd rfl h
    · rw [held_eq_nil.mpr fun _ _ => rfl]
      rfl
  · intro fd hfd
    rw [hinterest, if_neg hfd]
    simp [Registry.interest, Registry.events]
  · exact (hinterest _).trans (if_pos rfl)
  · exact fun _ => rfl

/-! ## One slot changes -/

theorem Registry.fdContext_update_of_ne {fd' : Nat} (h : fd' ≠ fd) (b : Option Registration) :
    Registry.fdContext (Function.update R (fd, event) b) fd' = R.fdContext fd' := by
  simp [fdContext, events, h]

theorem Encodes.lookup (h : Encodes R m) (hfd : fd < m.fdContexts.length) :
    m.fdContexts[fd]? = some (R.fdContext fd) := by
  have hget : m.fdContexts[fd]? = some m.fdContexts[fd] := List.getElem?_eq_getElem hfd
  rw [hget, h.table fd _ hget]

/-- The `FdContext` of `fd` is stored anew, with one slot changed and counted. -/
theorem Encodes.set (h : Encodes R m) (hfd : fd < m.fdContexts.length) (hevent : event ≠ .none)
    (b : Option Registration)
    (htable : m'.fdContexts =
      m.fdContexts.set fd (Registry.fdContext (Function.update R (fd, event) b) fd))
    (hpending : (R (fd, event)).toList.length + m'.pendingEventCount =
      b.toList.length + m.pendingEventCount) :
    Encodes (Function.update R (fd, event) b) m' := by
  have hlength : m'.fdContexts.length = m.fdContexts.length := by rw [htable, List.length_set]
  constructor
  · intro fd' c hc
    rw [htable, List.getElem?_set] at hc
    by_cases hne : fd = fd'
    · subst hne
      simp only [if_true, if_pos hfd, Option.some.injEq] at hc
      exact hc.symm
    · rw [if_neg hne] at hc
      rw [Registry.fdContext_update_of_ne (Ne.symm hne)]
      exact h.table fd' c hc
  · intro fd' event' hsome
    rw [hlength]
    by_cases hslot : (fd', event') = (fd, event)
    · cases hslot
      exact ⟨hfd, hevent⟩
    · rw [Function.update_of_ne hslot] at hsome
      exact h.outside fd' event' hsome
  · have hperm := (held_update (slots_nodup m.fdContexts.length) (mem_slots.mpr ⟨hfd, hevent⟩) id R
      b).length_eq
    simp only [List.length_append, id_eq] at hperm
    rw [hlength]
    have := h.pending
    omega

/-- A successful `epoll_ctl` changes the entry of its descriptor. -/
theorem epollCtl_eq_some {interest interest' : Nat → Option Mask} {op : EpollOp} {mask : Mask}
    {granted : Bool} (h : epollCtl interest op fd mask granted = some interest') :
    interest' = Function.update interest fd (if op = .del then none else some mask) ∧
      (op = .add ↔ interest fd = none) := by
  unfold epollCtl at h
  split at h
  · split at h <;> cases h <;> simp_all
  · cases h

/-- The table stores `R'`, which differs from `R` in the slots of `fd` alone, and
the kernel was told so. -/
theorem Represents.of_encodes (h : Represents R m) (henc : Encodes R' m')
    (htickle : m'.tickleFd = m.tickleFd) (hfd : fd ≠ m.tickleFd)
    (hinterest : m'.interest = Function.update m.interest fd (R'.interest fd))
    (hother : ∀ fd', fd' ≠ fd → ∀ event, R' (fd', event) = R (fd', event)) :
    Represents R' m' where
  toEncodes := henc
  interest := by
    intro fd' hfd'
    rw [hinterest]
    by_cases hne : fd' = fd
    · subst hne
      exact Function.update_self ..
    · rw [Function.update_of_ne hne, h.interest fd' (htickle ▸ hfd')]
      simp [Registry.interest, Registry.events, hother fd' hne]
  tickle := by
    rw [hinterest, htickle, Function.update_of_ne (Ne.symm hfd)]
    exact h.tickle
  noTickle := by
    intro event
    rw [htickle, hother _ (Ne.symm hfd)]
    exact h.noTickle event

theorem Represents.ne_tickle (h : Represents R m) {r : Registration}
    (hr : R (fd, event) = some r) : fd ≠ m.tickleFd := by
  rintro rfl
  rw [h.noTickle event] at hr
  cases hr

theorem Encodes.pending_pos (h : Encodes R m) {r : Registration} (hr : R (fd, event) = some r) :
    0 < m.pendingEventCount := by
  rw [h.pending]
  refine List.length_pos_of_mem (mem_held.mpr ⟨(fd, event), mem_slots.mpr ?_, hr⟩)
  exact h.outside fd event (by rw [hr]; exact nofun)

/-! ## Triggers -/

/-- The push for a registration. -/
def Registration.trigger (r : Registration) (fd : Nat) (event : Event) : Trigger :=
  match r with
  | ⟨scheduler, .fiber f⟩ => ⟨fd, event, scheduler, some f, none⟩
  | ⟨scheduler, .cb c⟩ => ⟨fd, event, scheduler, none, some c⟩

theorem Registry.fdContext_getEventContext (R : Registry) (hevent : event ≠ .none) :
    (R.fdContext fd).getEventContext event = some (contextOf (R (fd, event))) := by
  cases event with
  | none => exact absurd rfl hevent
  | read => rfl
  | write => rfl

/-- Storing the context and the mask of a changed slot. -/
theorem Registry.fdContext_update (R : Registry) (hevent : event ≠ .none)
    (b : Option Registration) :
    Registry.fdContext (Function.update R (fd, event) b) fd =
      { (R.fdContext fd).setEventContext event (contextOf b) with
        events := Registry.events (Function.update R (fd, event) b) fd } := by
  cases event with
  | none => exact absurd rfl hevent
  | read => simp [fdContext, FdContext.setEventContext]
  | write => simp [fdContext, FdContext.setEventContext]

theorem triggerEvent_eq_some {t : Trigger} {c : FdContext}
    (h : (R.fdContext fd).triggerEvent event = some (t, c)) :
    ∃ r, R (fd, event) = some r ∧ t = r.trigger fd event ∧ event ≠ .none ∧
      c = Registry.fdContext (Function.update R (fd, event) none) fd := by
  unfold FdContext.triggerEvent at h
  split at h
  · cases h
  · rename_i hbit
    have hevent : event ≠ .none := by
      rintro rfl
      exact hbit BitVec.and_zero
    have hsome : R (fd, event) ≠ none := fun hnone =>
      hbit ((R.events_and_bits fd hevent).mpr hnone)
    obtain ⟨r, hr⟩ := Option.ne_none_iff_exists'.mp hsome
    have hc : Registry.fdContext (Function.update R (fd, event) none) fd =
        FdContext.resetEventContext
          { R.fdContext fd with events := R.events fd &&& ~~~event.bits } event := by
      rw [R.fdContext_update hevent, R.events_end fd hevent]
      cases event <;> rfl
    simp only [FdContext.getEventContext_events, R.fdContext_getEventContext hevent, hr,
      Option.bind_eq_bind, Option.bind_some] at h
    obtain ⟨scheduler, continuation⟩ := r
    cases continuation with
    | fiber f =>
      obtain ⟨rfl, rfl⟩ := Prod.mk.inj (Option.some.inj h)
      exact ⟨_, hr, rfl, hevent, hc.symm⟩
    | cb b =>
      obtain ⟨rfl, rfl⟩ := Prod.mk.inj (Option.some.inj h)
      exact ⟨_, hr, rfl, hevent, hc.symm⟩

theorem trigger_length {r : List Trigger × IOManager} (h : m.trigger fd event = some r) :
    r.2.fdContexts.length = m.fdContexts.length := by
  unfold IOManager.trigger at h
  obtain ⟨c, -, hrest⟩ := Option.bind_eq_some_iff.mp h
  obtain ⟨⟨t, c'⟩, -, hret⟩ := Option.bind_eq_some_iff.mp hrest
  cases hret
  exact List.length_set

/-- `trigger` pushes the registration of its slot and empties the slot. -/
theorem Encodes.trigger (h : Encodes R m) {ts : List Trigger}
    (hop : m.trigger fd event = some (ts, m')) :
    ∃ r, R (fd, event) = some r ∧ ts = [r.trigger fd event] ∧ event ≠ .none ∧
      Encodes (Function.update R (fd, event) none) m' ∧
      m.pendingEventCount = m'.pendingEventCount + 1 ∧
      m'.interest = m.interest ∧ m'.tickleFd = m.tickleFd := by
  unfold IOManager.trigger at hop
  simp only [Option.bind_eq_bind, Option.bind_eq_some_iff, Option.pure_def, Option.some.injEq,
    Prod.mk.injEq, Prod.exists] at hop
  obtain ⟨c, hc, t, c', htrigger, rfl, rfl⟩ := hop
  have hfd : fd < m.fdContexts.length := (List.getElem?_eq_some_iff.mp hc).1
  obtain rfl := h.table fd c hc
  obtain ⟨r, hr, rfl, hevent, rfl⟩ := triggerEvent_eq_some htrigger
  have hpred := pred64_of_pos (h.pending_pos hr)
  refine ⟨r, hr, rfl, hevent, h.set hfd hevent none rfl ?_, hpred.symm, rfl, rfl⟩
  simp only [hr, Option.toList_some, Option.toList_none, List.length_singleton, List.length_nil,
    setContext_pendingEventCount]
  omega

end IOManager
