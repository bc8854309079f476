-- SUMMARY: Every operation on the event table as moves of the registry, and what holds in every reachable state of the table.
import MyCoroutine.Lib.TransitionSystem
import MyCoroutine.IOManager.Registry

/-! # Operations refine the registry

One lemma for each operation of the source: on a table that stores a registry it
either reports failure and changes nothing, or the table stores the registry after
the moves that the operation makes, and the kernel was told. The moves are read off
the call and its result alone (`moves`), so a run of operations is a run of the
registry. -/

namespace IOManager

open Counting OneShot

variable {R : Registry} {m m' : IOManager} {fd : Nat} {event : Event} {granted : Bool}

/-- The registration that a successful `addEvent` makes. -/
def Caller.registration (caller : Caller) (cb : Option CbId) : Option Registration :=
  caller.scheduler.map fun scheduler =>
    ⟨scheduler, match cb with | some c => .cb c | none => .fiber caller.fiber⟩

/-! ## addEvent -/

theorem Registry.events_of_some {r : Registration} (hevent : event ≠ .none)
    (hr : R (fd, event) = some r) : R.events fd ≠ 0 := by
  intro hzero
  have hnone := (R.events_and_bits fd hevent).mp (by rw [hzero]; exact BitVec.zero_and)
  rw [hr] at hnone
  cases hnone

theorem Registry.interest_of_some {r : Registration} (hevent : event ≠ .none)
    (hr : R (fd, event) = some r) : R.interest fd = some (epollEt ||| R.events fd) :=
  if_neg (Registry.events_of_some hevent hr)

theorem Represents.events_tickle (h : Represents R m) : R.events m.tickleFd = 0 := by
  simp [Registry.events, h.noTickle]

/-- The table stores `R'`, which differs from `R` in the slots of `fd` alone, and the
kernel was told so. -/
structure Changes (R R' : Registry) (m m' : IOManager) (fd : Nat) : Prop where
  encodes : Encodes R' m'
  length : m'.fdContexts.length = m.fdContexts.length
  tickle : m'.tickleFd = m.tickleFd
  interest : m'.interest = Function.update m.interest fd (R'.interest fd)
  other : ∀ fd', fd' ≠ fd → ∀ event, R' (fd', event) = R (fd', event)
  /-- Something was registered for `fd`, or the kernel did not watch it. -/
  touched : R.events fd ≠ 0 ∨ m.interest fd = none

theorem Represents.of_changes (h : Represents R m) {R' : Registry} (hc : Changes R R' m m' fd) :
    Represents R' m' := by
  have hne : fd ≠ m.tickleFd := by
    rintro rfl
    rcases hc.touched with hevents | hfree
    · exact hevents h.events_tickle
    · rw [h.tickle] at hfree
      cases hfree
  exact h.of_encodes hc.encodes hc.tickle hne hc.interest hc.other

theorem Registry.update_other (R : Registry) (fd : Nat) (event : Event) (b : Option Registration)
    (fd' : Nat) (hfd' : fd' ≠ fd) (event' : Event) :
    Function.update R (fd, event) b (fd', event') = R (fd', event') :=
  Function.update_of_ne (fun heq => hfd' (congrArg Prod.fst heq)) ..

/-- The table shrinks to at most one context, and `fd` is outside it. -/
theorem addEvent_outside {caller : Caller} {cb : Option CbId}
    (hint : ¬ intOfSize m.fdContexts.length > fd) :
    m.addEvent caller fd event cb granted = none := by
  have hout : ¬ fd < if fd + fd > 1 then 1 else 0 := by
    split <;> omega
  unfold IOManager.addEvent
  simp only [if_neg hint, getElem?_contextResize]
  rw [if_neg hout]
  rfl

/-- An `addEvent` that the kernel granted, up to its last assignment. -/
theorem Encodes.add (h : Encodes R m) (hfd : fd < m.fdContexts.length)
    (hevent : event ≠ .none) (hfree : R (fd, event) = none) (r : Registration)
    {interest : Nat → Option Mask}
    (hctl : epollCtl m.interest (if R.events fd ≠ 0 then .mod else .add) fd
      (epollEt ||| R.events fd ||| event.bits) granted = some interest)
    (hinterest : m'.interest = interest) (htickle : m'.tickleFd = m.tickleFd)
    (hpending : m'.pendingEventCount = m.pendingEventCount + 1)
    (htable : m'.fdContexts = m.fdContexts.set fd
      { (R.fdContext fd).setEventContext event (contextOf (some r)) with
        events := R.events fd ||| event.bits }) :
    Changes R (Function.update R (fd, event) (some r)) m m' fd := by
  obtain ⟨hupdate, hop⟩ := epollCtl_eq_some hctl
  have hevents := R.events_add fd hevent r
  refine ⟨?_, by rw [htable, List.length_set], htickle, ?_, R.update_other fd event (some r), ?_⟩
  · apply h.set hfd hevent (some r)
    · rw [htable, R.fdContext_update hevent, hevents]
    · rw [hfree, hpending, Option.toList_none, Option.toList_some, List.length_nil,
        List.length_singleton, Nat.zero_add, Nat.add_comm]
  · -- `ADD` and `MOD` both leave the new mask with the kernel
    have hkind : (if R.events fd ≠ 0 then EpollOp.mod else EpollOp.add) ≠ .del := by
      split <;> exact nofun
    have hslot := Registry.interest_of_some hevent (Function.update_self (fd, event) (some r) R)
    rw [hinterest, hupdate, if_neg hkind, hslot, hevents, BitVec.or_assoc]
  · by_cases hzero : R.events fd = 0
    · exact .inr (hop.mp (if_neg (not_not_intro hzero)))
    · exact .inl hzero

/-- `addEvent` registers its continuation in an empty slot, or changes nothing. -/
theorem Encodes.addEvent (h : Encodes R m) {caller : Caller} {r : Registration}
    {cb : Option CbId} (hr : caller.registration cb = some r) {ret : Int}
    (hop : m.addEvent caller fd event cb granted = some (ret, m')) :
    (ret = -1 ∧ m' = m) ∨
      (ret = 0 ∧ R (fd, event) = none ∧ m'.pendingEventCount = m.pendingEventCount + 1 ∧
        Changes R (Function.update R (fd, event) (some r)) m m' fd) := by
  by_cases hint : intOfSize m.fdContexts.length > fd
  · unfold IOManager.addEvent at hop
    have hfd : fd < m.fdContexts.length := by
      have := intOfSize_le m.fdContexts.length
      omega
    simp only [if_pos hint, h.lookup hfd, Option.bind_eq_bind, Option.bind_some] at hop
    split at hop
    · cases hop
    rename_i hbit
    split at hop
    · cases hop
      exact .inl ⟨rfl, rfl⟩
    · rename_i interest hctl
      rcases eq_or_ne event .none with rfl | hevent
      · cases hop
      have hfree : R (fd, event) = none := (R.events_and_bits fd hevent).mp (not_not.mp hbit)
      simp only [FdContext.getEventContext_events, R.fdContext_getEventContext hevent, hfree,
        Option.bind_some, contextOf, EventContext.empty, Option.isSome_none, Bool.false_eq_true,
        or_self, if_false] at hop
      have hadd {m' : IOManager} (hm' : m' = { m with
          interest := interest, pendingEventCount := m.pendingEventCount + 1 }.setContext fd
            { (R.fdContext fd).setEventContext event (contextOf (some r)) with
              events := R.events fd ||| event.bits }) :
          Changes R (Function.update R (fd, event) (some r)) m m' fd := by
        subst hm'
        exact h.add hfd hevent hfree r hctl rfl rfl rfl rfl
      obtain ⟨scheduler, hscheduler, rfl⟩ := Option.map_eq_some_iff.mp hr
      cases cb with
      | some c =>
        cases hop
        refine .inr ⟨rfl, hfree, rfl, hadd ?_⟩
        rw [hscheduler]
        cases event <;> rfl
      | none =>
        simp only [Option.isSome_none, Bool.false_eq_true, if_false] at hop
        split at hop <;> cases hop
        refine .inr ⟨rfl, hfree, rfl, hadd ?_⟩
        rw [hscheduler]
        cases event <;> rfl
  · rw [addEvent_outside hint] at hop
    cases hop

/-- `addEvent` fails when `epoll_ctl` does. -/
theorem addEvent_refused {caller : Caller} {cb : Option CbId} {ret : Int}
    (hop : m.addEvent caller fd event cb false = some (ret, m')) : ret = -1 := by
  unfold IOManager.addEvent at hop
  obtain ⟨c, -, hrest⟩ := Option.bind_eq_some_iff.mp hop
  split at hrest
  · cases hrest
  · cases hrest
    rfl

/-! ## What ends events -/

/-- The `epoll_ctl` that takes `event` out of `events`. -/
def ctlLeft (m : IOManager) (fd : Nat) (event : Event) (granted : Bool) (events : Mask) :
    Option (Nat → Option Mask) :=
  epollCtl m.interest (if events &&& ~~~event.bits ≠ 0 then .mod else .del) fd
    (epollEt ||| events &&& ~~~event.bits) granted

/-- What `delEvent`, `cancelEvent` and `cancalAll` do first: where there is no context, none of
the events that they end is `held`, or `epoll_ctl` fails, they return and change nothing. -/
def ending {α : Type} (m : IOManager) (fd : Nat) (held : Mask → Mask)
    (ctl : Mask → Option (Nat → Option Mask)) (failed : α)
    (go : FdContext → (Nat → Option Mask) → Option α) : Option α :=
  if m.fdContexts.length ≤ fd then some failed
  else
    (m.fdContexts[fd]?).bind fun c =>
      if held c.events = 0 then some failed
      else
        match ctl c.events with
        | none => some failed
        | some interest => go c interest

theorem delEvent_eq (m : IOManager) (fd : Nat) (event : Event) (granted : Bool) :
    m.delEvent fd event granted =
      m.ending fd (· &&& event.bits) (m.ctlLeft fd event granted) (false, m) fun c interest => do
        let m := { m with
          interest := interest
          pendingEventCount := pred64 m.pendingEventCount }
        let c := { c with events := c.events &&& ~~~event.bits }
        let _ ← c.getEventContext event
        return (true, m.setContext fd (c.resetEventContext event)) := rfl

theorem cancelEvent_eq (m : IOManager) (fd : Nat) (event : Event) (granted : Bool) :
    m.cancelEvent fd event granted =
      m.ending fd (· &&& event.bits) (m.ctlLeft fd event granted) (false, [], m)
        fun _ interest => do
          let r ← { m with interest := interest }.trigger fd event
          return (true, r) := rfl

theorem cancalAll_eq (m : IOManager) (fd : Nat) (granted : Bool) :
    m.cancalAll fd granted =
      m.ending fd id (fun _ => epollCtl m.interest .del fd 0 granted) (false, [], m)
        (fun c interest => do
          let (t₁, m) ← { m with interest := interest }.triggerIf fd c.events .read
          let c ← m.fdContexts[fd]?
          let (t₂, m) ← m.triggerIf fd c.events .write
          let c ← m.fdContexts[fd]?
          if c.events = 0 then return (true, t₁ ++ t₂, m) else none) := rfl

section

variable {α : Type} {held : Mask → Mask} {ctl : Mask → Option (Nat → Option Mask)} {failed r : α}
  {go : FdContext → (Nat → Option Mask) → Option α} {c : FdContext}

theorem ending_cases (h : m.ending fd held ctl failed go = some r) :
    r = failed ∨ ∃ c interest, fd < m.fdContexts.length ∧ m.fdContexts[fd]? = some c ∧
      held c.events ≠ 0 ∧ ctl c.events = some interest ∧ go c interest = some r := by
  unfold ending at h
  split at h
  · cases h
    exact .inl rfl
  rename_i hlen
  obtain ⟨c, hc, hrest⟩ := Option.bind_eq_some_iff.mp h
  split at hrest
  · cases hrest
    exact .inl rfl
  rename_i hheld
  split at hrest
  · cases hrest
    exact .inl rfl
  · rename_i interest hctl
    exact .inr ⟨c, interest, Nat.lt_of_not_le hlen, hc, hheld, hctl, hrest⟩

theorem ending_of_le (h : m.fdContexts.length ≤ fd) :
    m.ending fd held ctl failed go = some failed :=
  if_pos h

theorem ending_of_context (hc : m.fdContexts[fd]? = some c) :
    m.ending fd held ctl failed go =
      if held c.events = 0 then some failed else (ctl c.events).elim (some failed) (go c) := by
  obtain ⟨hlt, -⟩ := List.getElem?_eq_some_iff.mp hc
  rw [ending, if_neg (Nat.not_le_of_lt hlt), hc, Option.bind_some]
  cases ctl c.events <;> rfl

theorem ending_of_refused (hc : m.fdContexts[fd]? = some c)
    (h : held c.events ≠ 0 → ctl c.events = none) :
    m.ending fd held ctl failed go = some failed := by
  rw [ending_of_context hc]
  split
  · rfl
  · rename_i hheld
    rw [h hheld]
    rfl

end

/-! ## delEvent and cancelEvent -/

/-- `MOD` for what is left, or `DEL` when nothing is. -/
theorem epollCtl_left {interest interest' : Nat → Option Mask} {left : Mask}
    (hctl : epollCtl interest (if left ≠ 0 then .mod else .del) fd (epollEt ||| left) granted =
      some interest') (hleft : R.events fd = left) :
    interest' = Function.update interest fd (R.interest fd) := by
  rw [(epollCtl_eq_some hctl).1, Registry.interest, hleft]
  by_cases hzero : left = 0 <;> simp [hzero]

/-- `delEvent` drops the registration of its slot, or changes nothing. -/
theorem Encodes.delEvent (h : Encodes R m) {ok : Bool}
    (hop : m.delEvent fd event granted = some (ok, m')) :
    (ok = false ∧ m' = m) ∨
      (ok = true ∧ (∃ r, R (fd, event) = some r) ∧
        m.pendingEventCount = m'.pendingEventCount + 1 ∧
        Changes R (Function.update R (fd, event) none) m m' fd) := by
  rw [delEvent_eq] at hop
  rcases ending_cases hop with hfailed | ⟨c, interest, hfd, hc, hbit, hctl, hdel⟩
  · cases hfailed
    exact .inl ⟨rfl, rfl⟩
  obtain rfl := h.table fd c hc
  have hevent : event ≠ .none := by
    rintro rfl
    exact hbit BitVec.and_zero
  obtain ⟨r, hr⟩ := Option.ne_none_iff_exists'.mp fun hnone =>
    hbit ((R.events_and_bits fd hevent).mpr hnone)
  simp only [FdContext.getEventContext_events, R.fdContext_getEventContext hevent,
    Option.bind_eq_bind, Option.bind_some] at hdel
  cases hdel
  have hend := R.events_end fd hevent
  have hpos := h.pending_pos hr
  refine .inr ⟨rfl, ⟨r, hr⟩, (pred64_of_pos hpos).symm, ?_, List.length_set, rfl, ?_,
    R.update_other fd event none, .inl (Registry.events_of_some hevent hr)⟩
  · apply h.set hfd hevent none
    · rw [R.fdContext_update hevent, hend]
      cases event <;> rfl
    · rw [hr]
      have := pred64_of_pos hpos
      simp only [Option.toList_some, Option.toList_none, List.length_singleton, List.length_nil,
        setContext_pendingEventCount]
      omega
  · exact epollCtl_left hctl hend

/-- `cancelEvent` pushes the registration of its slot, or changes nothing. -/
theorem Encodes.cancelEvent (h : Encodes R m) {ok : Bool} {ts : List Trigger}
    (hop : m.cancelEvent fd event granted = some (ok, ts, m')) :
    (ok = false ∧ ts = [] ∧ m' = m) ∨
      (ok = true ∧ ∃ r, R (fd, event) = some r ∧ ts = [r.trigger fd event] ∧
        m.pendingEventCount = m'.pendingEventCount + 1 ∧
        Changes R (Function.update R (fd, event) none) m m' fd) := by
  rw [cancelEvent_eq] at hop
  rcases ending_cases hop with hfailed | ⟨c, interest, hfd, hc, hbit, hctl, hcancel⟩
  · cases hfailed
    exact .inl ⟨rfl, rfl, rfl⟩
  obtain rfl := h.table fd c hc
  obtain ⟨⟨ts', m''⟩, htrigger, hret⟩ := Option.bind_eq_some_iff.mp hcancel
  cases hret
  have henc : Encodes R { m with interest := interest } := ⟨h.table, h.outside, h.pending⟩
  obtain ⟨r, hr, rfl, hevent, henc', hpending, hinterest, htickle⟩ := henc.trigger htrigger
  refine .inr ⟨rfl, r, hr, rfl, hpending, henc', trigger_length htrigger, htickle, ?_,
    R.update_other fd event none, .inl (Registry.events_of_some hevent hr)⟩
  rw [hinterest]
  exact epollCtl_left hctl (R.events_end fd hevent)

/-- The kernel can change or end what it watches. -/
theorem epollCtl_granted {interest : Nat → Option Mask} {left mask watched : Mask}
    (hwatched : interest fd = some watched) :
    epollCtl interest (if left ≠ 0 then .mod else .del) fd mask true ≠ none := by
  split <;> simp [epollCtl, hwatched]

/-- A `cancelEvent` that the kernel grants cancels what is registered. -/
theorem Represents.cancelEvent_granted (h : Represents R m) {r : Registration}
    (hr : R (fd, event) = some r) {ok : Bool} {ts : List Trigger}
    (hop : m.cancelEvent fd event true = some (ok, ts, m')) : ok = true := by
  obtain ⟨hfd, hevent⟩ := h.outside fd event (by rw [hr]; exact nofun)
  have hwatched : m.interest fd = some (epollEt ||| R.events fd) := by
    rw [h.interest fd (h.ne_tickle hr), Registry.interest_of_some hevent hr]
  rw [cancelEvent_eq, ending_of_context (h.lookup hfd)] at hop
  split at hop
  · rename_i hzero
    rw [(R.events_and_bits fd hevent).mp hzero] at hr
    cases hr
  · cases hctl : m.ctlLeft fd event true (R.fdContext fd).events with
    | none => exact absurd hctl (epollCtl_granted hwatched)
    | some interest =>
      rw [hctl] at hop
      obtain ⟨x, -, hret⟩ := Option.bind_eq_some_iff.mp hop
      cases hret
      rfl

/-! ## Operations on both events -/

/-- What a push takes out of its slot; a push of nothing takes nothing. -/
def Trigger.move (t : Trigger) : Option (Move Slot Registration) :=
  match t.cb, t.fiber with
  | some c, _ => some ⟨(t.fd, t.event), .fire ⟨t.scheduler, .cb c⟩⟩
  | none, some f => some ⟨(t.fd, t.event), .fire ⟨t.scheduler, .fiber f⟩⟩
  | none, none => none

@[simp] theorem Registration.move_trigger (r : Registration) (fd : Nat) (event : Event) :
    (r.trigger fd event).move = some ⟨(fd, event), .fire r⟩ := by
  obtain ⟨scheduler, f | c⟩ := r <;> rfl

theorem Registration.trigger_slot (r : Registration) (fd : Nat) (event : Event) :
    r.trigger fd event = r.trigger (r.trigger fd event).fd (r.trigger fd event).event := by
  obtain ⟨scheduler, f | c⟩ := r <;> rfl

/-- The registrations of `fd` that a list of pushes ended, as moves and in the table. -/
structure Fired (R R' : Registry) (m m' : IOManager) (fd : Nat) (ts : List Trigger) : Prop where
  run : Run Move.Step R (ts.filterMap Trigger.move) R'
  real : ∀ t ∈ ts, ∃ r : Registration, t = r.trigger t.fd t.event
  encodes : Encodes R' m'
  pending : m.pendingEventCount = m'.pendingEventCount + ts.length
  length : m'.fdContexts.length = m.fdContexts.length
  interest : m'.interest = m.interest
  tickle : m'.tickleFd = m.tickleFd
  other : ∀ fd', fd' ≠ fd → ∀ event, R' (fd', event) = R (fd', event)

theorem Fired.trans {R₁ R₂ : Registry} {m₁ m₂ : IOManager} {t₁ t₂ : List Trigger}
    (h₁ : Fired R R₁ m m₁ fd t₁) (h₂ : Fired R₁ R₂ m₁ m₂ fd t₂) :
    Fired R R₂ m m₂ fd (t₁ ++ t₂) where
  run := by
    rw [List.filterMap_append]
    exact run_append.mpr ⟨R₁, h₁.run, h₂.run⟩
  real := fun t ht => (List.mem_append.mp ht).elim (h₁.real t) (h₂.real t)
  encodes := h₂.encodes
  pending := by rw [h₁.pending, h₂.pending, List.length_append]; omega
  length := h₂.length.trans h₁.length
  interest := h₂.interest.trans h₁.interest
  tickle := h₂.tickle.trans h₁.tickle
  other := fun fd' hfd' event => (h₂.other fd' hfd' event).trans (h₁.other fd' hfd' event)

/-- A conditional trigger fires its slot when the mask asks for it. -/
theorem Encodes.triggerIf (h : Encodes R m) {mask : Mask} {ts : List Trigger}
    (hop : m.triggerIf fd mask event = some (ts, m')) :
    ∃ R', Fired R R' m m' fd ts ∧
      Registry.events R' fd = if mask &&& event.bits ≠ 0 then R.events fd &&& ~~~event.bits
        else R.events fd := by
  unfold IOManager.triggerIf at hop
  split at hop
  · rename_i hmask
    obtain ⟨r, hr, rfl, hevent, henc, hpending, hinterest, htickle⟩ := h.trigger hop
    refine ⟨Function.update R (fd, event) none,
      ⟨?_, ?_, henc, hpending, trigger_length hop, hinterest, htickle, ?_⟩, ?_⟩
    · simp only [List.filterMap_cons, Registration.move_trigger, List.filterMap_nil]
      exact ⟨_, .mk (hr ▸ .fire r), rfl⟩
    · intro t ht
      rw [List.mem_singleton.mp ht]
      exact ⟨r, r.trigger_slot fd event⟩
    · intro fd' hfd' event'
      exact Function.update_of_ne (fun heq => hfd' (congrArg Prod.fst heq)) ..
    · rw [R.events_end fd hevent, if_pos hmask]
  · rename_i hmask
    cases hop
    exact ⟨R, ⟨rfl, nofun, h, rfl, rfl, rfl, rfl, fun _ _ _ => rfl⟩, (if_neg hmask).symm⟩

/-- `cancalAll` pushes both registrations of `fd`, or changes nothing. -/
theorem Encodes.cancalAll (h : Encodes R m) {ok : Bool} {ts : List Trigger}
    (hop : m.cancalAll fd granted = some (ok, ts, m')) :
    (ok = false ∧ ts = [] ∧ m' = m) ∨
      (ok = true ∧ ∃ R', Run Move.Step R (ts.filterMap Trigger.move) R' ∧
        (∀ t ∈ ts, ∃ r : Registration, t = r.trigger t.fd t.event) ∧
        m.pendingEventCount = m'.pendingEventCount + ts.length ∧ Changes R R' m m' fd ∧
        Registry.events R' fd = 0) := by
  rw [cancalAll_eq] at hop
  rcases ending_cases hop with hfailed | ⟨c, interest, hfd, hc, hevents, hctl, hcancel⟩
  · cases hfailed
    exact .inl ⟨rfl, rfl, rfl⟩
  obtain rfl := h.table fd c hc
  have henc : Encodes R { m with interest := interest } := ⟨h.table, h.outside, h.pending⟩
  obtain ⟨⟨t₁, m₁⟩, hread, hrest₁⟩ := Option.bind_eq_some_iff.mp hcancel
  obtain ⟨c₁, -, hrest₂⟩ := Option.bind_eq_some_iff.mp hrest₁
  obtain ⟨⟨t₂, m₂⟩, hwrite, hrest₃⟩ := Option.bind_eq_some_iff.mp hrest₂
  obtain ⟨c₂, hc₂, hrest₄⟩ := Option.bind_eq_some_iff.mp hrest₃
  clear hop hrest₁ hrest₂ hrest₃
  obtain ⟨R₁, hfired₁, -⟩ := henc.triggerIf hread
  obtain ⟨R₂, hfired₂, -⟩ := hfired₁.encodes.triggerIf hwrite
  split at hrest₄ <;> cases hrest₄
  rename_i hzero
  have hfired := hfired₁.trans hfired₂
  rw [hfired.encodes.table fd c₂ hc₂] at hzero
  have hnone : R₂.interest fd = none := if_pos hzero
  refine .inr ⟨rfl, R₂, hfired.run, hfired.real, hfired.pending,
    ⟨hfired.encodes, hfired.length, hfired.tickle, ?_, hfired.other, .inl hevents⟩, hzero⟩
  rw [hfired.interest, (epollCtl_eq_some hctl).1, hnone]
  rfl

/-- Clearing the two events one after the other, as the mask asks. -/
theorem maskOf_clear (a b r w : Bool) :
    (if maskOf r w &&& Event.write.bits ≠ 0 then
      (if maskOf r w &&& Event.read.bits ≠ 0 then maskOf a b &&& ~~~Event.read.bits
        else maskOf a b) &&& ~~~Event.write.bits
      else if maskOf r w &&& Event.read.bits ≠ 0 then maskOf a b &&& ~~~Event.read.bits
        else maskOf a b) = maskOf a b &&& ~~~maskOf r w := by
  revert a b r w
  decide

/-- The kernel grants `EPOLL_CTL_DEL` of what it watches, so no slot of `fd` is left. -/
theorem Represents.cancalAll_granted (h : Represents R m) {ok : Bool} {ts : List Trigger}
    (hevents : R.events fd ≠ 0) (hop : m.cancalAll fd true = some (ok, ts, m')) : ok = true := by
  have hne : fd ≠ m.tickleFd := by
    rintro rfl
    exact hevents h.events_tickle
  have hwatched : m.interest fd = some (epollEt ||| R.events fd) :=
    (h.interest fd hne).trans (if_neg hevents)
  have hfd : fd < m.fdContexts.length := by
    by_contra hlen
    have hnone (event : Event) : R (fd, event) = none := by
      by_contra hsome
      exact hlen (h.outside fd event hsome).1
    simp [Registry.events, hnone] at hevents
  have hctl : epollCtl m.interest .del fd 0 true = some (Function.update m.interest fd none) := by
    simp [epollCtl, hwatched]
  have hheld : (R.fdContext fd).events ≠ 0 := hevents
  rw [cancalAll_eq, ending_of_context (h.lookup hfd), id, if_neg hheld, hctl] at hop
  obtain ⟨x₁, -, hrest₁⟩ := Option.bind_eq_some_iff.mp hop
  obtain ⟨c₁, -, hrest₂⟩ := Option.bind_eq_some_iff.mp hrest₁
  obtain ⟨x₂, -, hrest₃⟩ := Option.bind_eq_some_iff.mp hrest₂
  obtain ⟨c₂, -, hrest₄⟩ := Option.bind_eq_some_iff.mp hrest₃
  split at hrest₄ <;> cases hrest₄
  rfl

/-- The handler of one reported entry pushes the reported registrations of `fd`. -/
theorem Encodes.idleEntry (h : Encodes R m) {mask : Mask} {ts : List Trigger}
    (hop : m.idleEntry fd mask granted = some (ts, m')) :
    (ts = [] ∧ m' = m) ∨
      ∃ R', Run Move.Step R (ts.filterMap Trigger.move) R' ∧
        (∀ t ∈ ts, ∃ r : Registration, t = r.trigger t.fd t.event) ∧
        m.pendingEventCount = m'.pendingEventCount + ts.length ∧ Changes R R' m m' fd := by
  unfold IOManager.idleEntry at hop
  obtain ⟨c, hc, hrest⟩ := Option.bind_eq_some_iff.mp hop
  obtain rfl := h.table fd c hc
  dsimp only at hrest
  split at hrest
  · cases hrest
    exact .inl ⟨rfl, rfl⟩
  rename_i hmeet
  obtain ⟨interest, hctl, hrest₁⟩ := Option.bind_eq_some_iff.mp hrest
  have henc : Encodes R { m with interest := interest } := ⟨h.table, h.outside, h.pending⟩
  obtain ⟨⟨t₁, m₁⟩, hread, hrest₂⟩ := Option.bind_eq_some_iff.mp hrest₁
  obtain ⟨⟨t₂, m₂⟩, hwrite, hret⟩ := Option.bind_eq_some_iff.mp hrest₂
  cases hret
  clear hop hrest hrest₁ hrest₂
  obtain ⟨R₁, hfired₁, hleft₁⟩ := henc.triggerIf hread
  obtain ⟨R₂, hfired₂, hleft₂⟩ := hfired₁.encodes.triggerIf hwrite
  have hfired := hfired₁.trans hfired₂
  have hevents : R.events fd ≠ 0 := by
    intro hzero
    apply hmeet
    simp [Registry.fdContext, hzero]
  refine .inr ⟨R₂, hfired.run, hfired.real, hfired.pending, hfired.encodes, hfired.length,
    hfired.tickle, ?_, hfired.other, .inl hevents⟩
  rw [hfired.interest]
  refine epollCtl_left hctl ?_
  obtain ⟨r, w, hreal⟩ := realEvents_eq (R.fdContext fd).events mask
  rw [hleft₂, hleft₁, hreal]
  exact maskOf_clear ..

end IOManager
