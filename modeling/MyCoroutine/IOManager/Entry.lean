-- SUMMARY: The body of idle's loop for one reported entry: exactly when it serves the registered events that were reported.
import MyCoroutine.IOManager.Runs

/-! # One reported entry

`epoll_wait` computed the mask of an entry before `FdContext::mtx` was taken, so it
may name events that are no longer registered. The body widens it on an error or a
hang-up, and then tests only that it meets the registered events before it triggers
everything that it names. -/

namespace IOManager

open Counting OneShot

/-! ## What an entry asks for -/

/-- The mask names the event: `READ` is `EPOLLIN`, and `WRITE` is `EPOLLOUT`. -/
def reports (mask : Mask) (event : Event) : Bool :=
  decide (mask &&& event.bits ≠ 0)

/-- `EPOLLERR` or `EPOLLHUP`. -/
def hungUp (mask : Mask) : Bool :=
  decide (mask &&& (epollErr ||| epollHup) ≠ 0)

namespace Registry

variable (R : Registry) (fd : Nat)

/-- The registered events that the mask names, or all of them when it has an error
or a hang-up. -/
def due (mask : Mask) : List Event :=
  [Event.read, .write].filter fun event =>
    (R (fd, event)).isSome && (reports mask event || hungUp mask)

/-- `R` when these events of `fd` are no longer registered. -/
def without (events : List Event) : Registry :=
  fun slot => if slot.1 = fd ∧ slot.2 ∈ events then none else R slot

/-- The pushes for these events of `fd`. -/
def triggers (events : List Event) : List Trigger :=
  events.filterMap fun event => (R (fd, event)).map fun r => r.trigger fd event

/-- How many events of `fd` are registered. -/
def count : Nat :=
  (R (fd, .read)).toList.length + (R (fd, .write)).toList.length

end Registry

/-- The `FdContext` of `fd` stores what `R` has for it, and the counter counts it. -/
structure Held (R : Registry) (m : IOManager) (fd : Nat) : Prop where
  context : m.fdContexts[fd]? = some (R.fdContext fd)
  counted : R.count fd ≤ m.pendingEventCount

/-- And the kernel watches it, perhaps among other events. -/
structure Backed (R : Registry) (m : IOManager) (fd : Nat) : Prop extends Held R m fd where
  watched : ∀ event, event ≠ .none → R (fd, event) ≠ none →
    ∃ mask, m.interest fd = some mask ∧ mask &&& event.bits ≠ 0

/-- The body pushes the due events and takes them off the counter. The rest stays
registered with the `FdContext` and the kernel, and other descriptors are untouched. -/
structure Served (R : Registry) (m : IOManager) (fd : Nat) (mask : Mask) (ts : List Trigger)
    (m' : IOManager) : Prop where
  pushed : ts = R.triggers fd (R.due fd mask)
  rest : Backed (R.without fd (R.due fd mask)) m' fd
  counted : m'.pendingEventCount + ts.length = m.pendingEventCount
  contexts : ∀ fd', fd' ≠ fd → m'.fdContexts[fd']? = m.fdContexts[fd']?
  interest : ∀ fd', fd' ≠ fd → m'.interest fd' = m.interest fd'

variable {R : Registry} {m m' m₁ m₂ : IOManager} {fd : Nat} {event : Event} {mask : Mask}

/-! ## Registries -/

@[simp] theorem Registry.without_nil (R : Registry) (fd : Nat) : R.without fd [] = R := by
  funext slot
  simp [without]

theorem Registry.without_singleton (R : Registry) (fd : Nat) (event : Event) :
    R.without fd [event] = Function.update R (fd, event) none := by
  funext ⟨fd', event'⟩
  simp [without, Function.update_apply]

theorem Registry.without_append (R : Registry) (fd : Nat) (es₁ es₂ : List Event) :
    (R.without fd es₁).without fd es₂ = R.without fd (es₁ ++ es₂) := by
  funext slot
  simp only [without, List.mem_append]
  by_cases hfd : slot.1 = fd <;> by_cases h₁ : slot.2 ∈ es₁ <;> by_cases h₂ : slot.2 ∈ es₂ <;>
    simp [hfd, h₁, h₂]

theorem Registry.triggers_append (R : Registry) (fd : Nat) (es₁ es₂ : List Event) :
    R.triggers fd (es₁ ++ es₂) = R.triggers fd es₁ ++ R.triggers fd es₂ :=
  List.filterMap_append ..

/-- In every table that stores a registry, the count covers each descriptor. -/
theorem Encodes.held (h : Encodes R m) (hfd : fd < m.fdContexts.length) : Held R m fd := by
  refine ⟨h.lookup hfd, ?_⟩
  have hsub : [(fd, Event.read), (fd, .write)] ⊆ slots m.fdContexts.length := by
    intro slot hslot
    rcases List.mem_pair.mp hslot with rfl | rfl
    · exact mem_slots.mpr ⟨hfd, nofun⟩
    · exact mem_slots.mpr ⟨hfd, nofun⟩
  have hle := (List.subperm_of_subset (by simp) hsub).countP_le fun slot => (R slot).isSome
  rw [h.pending, Counting.held, List.length_filterMap_eq_countP]
  refine Nat.le_trans (Nat.le_of_eq ?_) hle
  cases hr : R (fd, .read) <;> cases hw : R (fd, .write) <;> simp [Registry.count, hr, hw]

/-- The kernel watches what is registered and nothing else. -/
theorem Held.backed (h : Held R m fd)
    (hinterest : R.events fd ≠ 0 → m.interest fd = R.interest fd) : Backed R m fd where
  toHeld := h
  watched := by
    intro event hevent hsome
    obtain ⟨r, hr⟩ := Option.ne_none_iff_exists'.mp hsome
    have hmask := (hinterest (Registry.events_of_some hevent hr)).trans
      (Registry.interest_of_some hevent hr)
    refine ⟨_, hmask, fun hzero => hsome ((R.events_and_bits fd hevent).mp ?_)⟩
    rw [BitVec.and_or_distrib_right] at hzero
    exact (BitVec.or_eq_zero_iff.mp hzero).2

theorem Represents.backed (h : Represents R m) (hfd : fd < m.fdContexts.length) :
    Backed R m fd := by
  refine (h.toEncodes.held hfd).backed fun hevents => h.interest fd ?_
  rintro rfl
  exact hevents h.events_tickle

/-! ## Masks -/

theorem reports_or (mask mask' : Mask) (event : Event) :
    reports (mask ||| mask') event = (reports mask event || reports mask' event) := by
  unfold reports
  rw [BitVec.and_or_distrib_right, ← Bool.decide_or, decide_eq_decide]
  exact (not_congr BitVec.or_eq_zero_iff).trans not_and_or

/-- An error or a hang-up adds what is registered to what the mask names. -/
theorem realEvents_maskOf (r w : Bool) (mask : Mask) :
    realEvents (maskOf r w) mask =
      maskOf (reports mask .read || hungUp mask && r)
        (reports mask .write || hungUp mask && w) := by
  have hread : reports ((epollIn ||| epollOut) &&& maskOf r w) .read = r := by
    revert r w
    decide
  have hwrite : reports ((epollIn ||| epollOut) &&& maskOf r w) .write = w := by
    revert r w
    decide
  have hreal (mask' : Mask) :
      ((if mask' &&& epollIn ≠ 0 then Event.read.bits else 0) |||
        if mask' &&& epollOut ≠ 0 then Event.write.bits else 0) =
      maskOf (reports mask' .read) (reports mask' .write) := by
    simp only [maskOf, reports, decide_eq_true_eq]
    rfl
  unfold realEvents
  rw [hreal]
  by_cases hhup : mask &&& (epollErr ||| epollHup) ≠ 0
  · rw [if_pos hhup, reports_or, reports_or, hread, hwrite, hungUp, decide_eq_true hhup,
      Bool.true_and, Bool.true_and]
  · rw [if_neg hhup, hungUp, decide_eq_false hhup, Bool.false_and, Bool.false_and, Bool.or_false,
      Bool.or_false]

/-- What `real_events` has a bit for. -/
def named (R : Registry) (fd : Nat) (mask : Mask) (event : Event) : Bool :=
  reports mask event || hungUp mask && (R (fd, event)).isSome

theorem realEvents_registry (R : Registry) (fd : Nat) (mask : Mask) :
    realEvents (R.events fd) mask = maskOf (named R fd mask .read) (named R fd mask .write) :=
  realEvents_maskOf ..

theorem maskOf_and (a b r w : Bool) : maskOf a b &&& maskOf r w = maskOf (a && r) (b && w) := by
  revert a b r w
  decide

theorem maskOf_and_read_ne (r w : Bool) : maskOf r w &&& Event.read.bits ≠ 0 ↔ r = true := by
  revert r w
  decide

theorem maskOf_and_write_ne (r w : Bool) : maskOf r w &&& Event.write.bits ≠ 0 ↔ w = true := by
  revert r w
  decide

theorem maskOf_clear_both (a b r w : Bool) :
    maskOf a b &&& ~~~maskOf r w = maskOf (a && !r) (b && !w) := by
  revert a b r w
  decide

/-! ## Triggers -/

theorem triggerEvent_of_some (hevent : event ≠ .none) {r : Registration}
    (hr : R (fd, event) = some r) :
    (R.fdContext fd).triggerEvent event =
      some (r.trigger fd event, Registry.fdContext (Function.update R (fd, event) none) fd) := by
  have hbit : (R.fdContext fd).events &&& event.bits ≠ 0 := by
    intro hzero
    rw [(R.events_and_bits fd hevent).mp hzero] at hr
    cases hr
  obtain ⟨⟨t, c⟩, htrigger⟩ : ∃ p, (R.fdContext fd).triggerEvent event = some p := by
    unfold FdContext.triggerEvent
    rw [if_neg hbit]
    simp only [FdContext.getEventContext_events, R.fdContext_getEventContext hevent, hr,
      Option.bind_eq_bind, Option.bind_some]
    obtain ⟨scheduler, f | c⟩ := r <;> exact ⟨_, rfl⟩
  obtain ⟨r', hr', rfl, -, rfl⟩ := triggerEvent_eq_some htrigger
  rw [hr] at hr'
  cases hr'
  exact htrigger

/-- These events of `fd` have been triggered, and the kernel was told nothing. -/
structure Emptied (R : Registry) (m : IOManager) (fd : Nat) (events : List Event)
    (m' : IOManager) : Prop where
  held : Held (R.without fd events) m' fd
  counted : m'.pendingEventCount + (R.triggers fd events).length = m.pendingEventCount
  contexts : ∀ fd', fd' ≠ fd → m'.fdContexts[fd']? = m.fdContexts[fd']?
  interest : m'.interest = m.interest

theorem Held.emptied_nil (h : Held R m fd) : Emptied R m fd [] m where
  held := by rwa [R.without_nil]
  counted := rfl
  contexts := fun _ _ => rfl
  interest := rfl

theorem Emptied.append {es₁ es₂ : List Event} (h₁ : Emptied R m fd es₁ m₁)
    (h₂ : Emptied (R.without fd es₁) m₁ fd es₂ m₂)
    (htriggers : (R.without fd es₁).triggers fd es₂ = R.triggers fd es₂) :
    Emptied R m fd (es₁ ++ es₂) m₂ where
  held := by
    rw [← R.without_append]
    exact h₂.held
  counted := by
    have h₁ := h₁.counted
    have h₂ := h₂.counted
    rw [htriggers] at h₂
    rw [R.triggers_append, List.length_append]
    omega
  contexts := fun fd' hfd' => (h₂.contexts fd' hfd').trans (h₁.contexts fd' hfd')
  interest := h₂.interest.trans h₁.interest

theorem Registry.count_end (hevent : event ≠ .none) {r : Registration}
    (hr : R (fd, event) = some r) :
    Registry.count (Function.update R (fd, event) none) fd + 1 = R.count fd := by
  cases event with
  | none => exact absurd rfl hevent
  | read => simp [Registry.count, hr]; omega
  | write => simp [Registry.count, hr]

/-- A registered event is pushed and no longer registered. -/
theorem Held.trigger (h : Held R m fd) (hevent : event ≠ .none) {r : Registration}
    (hr : R (fd, event) = some r) :
    ∃ m', m.trigger fd event = some ([r.trigger fd event], m') ∧ Emptied R m fd [event] m' := by
  have hcount := Registry.count_end hevent hr
  have hpending := h.counted
  have hpred := pred64_of_pos (show 0 < m.pendingEventCount by omega)
  have hfd : fd < m.fdContexts.length := (List.getElem?_eq_some_iff.mp h.context).1
  have hop : m.trigger fd event = some ([r.trigger fd event],
      { m.setContext fd (Registry.fdContext (Function.update R (fd, event) none) fd) with
        pendingEventCount := pred64 m.pendingEventCount }) := by
    unfold IOManager.trigger
    rw [h.context]
    simp only [Option.bind_eq_bind, Option.bind_some, triggerEvent_of_some hevent hr]
    rfl
  refine ⟨_, hop, ⟨?_, ?_⟩, ?_, ?_, ?_⟩
  · rw [R.without_singleton]
    exact List.getElem?_set_self hfd
  · rw [R.without_singleton]
    dsimp only
    omega
  · simp only [Registry.triggers, List.filterMap_cons, hr, Option.map_some, List.filterMap_nil,
      List.length_singleton]
    exact hpred
  · exact fun fd' hfd' => List.getElem?_set_ne (Ne.symm hfd')
  · rfl

/-- `triggerEvent`'s assertion. -/
theorem Held.trigger_unregistered (h : Held R m fd) (hevent : event ≠ .none)
    (hr : R (fd, event) = none) : m.trigger fd event = none := by
  have hbit : (R.fdContext fd).events &&& event.bits = 0 := (R.events_and_bits fd hevent).mpr hr
  unfold IOManager.trigger
  rw [h.context]
  simp only [Option.bind_eq_bind, Option.bind_some, FdContext.triggerEvent, if_pos hbit,
    Option.bind_none]

/-- One conditional trigger: it ends the run, or triggers what the mask asks for. -/
theorem Held.triggerIf (h : Held R m fd) (event : Event) (hevent : event ≠ .none) {a : Bool}
    (hmask : mask &&& event.bits ≠ 0 ↔ a = true) :
    (a = true ∧ R (fd, event) = none ∧ m.triggerIf fd mask event = none) ∨
      (a = true → R (fd, event) ≠ none) ∧ ∃ m', m.triggerIf fd mask event =
        some (R.triggers fd (if a then [event] else []), m') ∧
        Emptied R m fd (if a then [event] else []) m' := by
  unfold IOManager.triggerIf
  cases a with
  | false =>
    rw [if_neg (fun hbit => Bool.noConfusion (hmask.mp hbit))]
    exact .inr ⟨nofun, m, rfl, h.emptied_nil⟩
  | true =>
    rw [if_pos (hmask.mpr rfl)]
    cases hr : R (fd, event) with
    | none => exact .inl ⟨rfl, rfl, h.trigger_unregistered hevent hr⟩
    | some r =>
      obtain ⟨m', hop, hemptied⟩ := h.trigger hevent hr
      refine .inr ⟨fun _ => nofun, m', ?_, hemptied⟩
      rw [hop]
      simp [Registry.triggers, hr]

/-! ## The body -/

theorem Registry.mem_due (hevent : event ≠ .none) :
    event ∈ R.due fd mask ↔ R (fd, event) ≠ none ∧ named R fd mask event = true := by
  have hmem : event ∈ [Event.read, .write] := by
    cases event with
    | none => exact absurd rfl hevent
    | read => decide
    | write => decide
  cases hr : R (fd, event) <;> simp [Registry.due, named, hmem, hr]

theorem Registry.due_eq_nil_iff :
    R.due fd mask = [] ↔ R.events fd &&& realEvents (R.events fd) mask = 0 := by
  rw [realEvents_registry, Registry.events, maskOf_and, BitVec.ofNat_eq_ofNat, maskOf_eq_zero]
  cases hr : R (fd, .read) <;> cases hw : R (fd, .write) <;>
    simp [Registry.due, named, hr, hw]

/-- What the body is left with is what is not due. -/
theorem Registry.events_without_due :
    Registry.events (R.without fd (R.due fd mask)) fd =
      R.events fd &&& ~~~realEvents (R.events fd) mask := by
  have hslot (event : Event) (hevent : event ≠ .none) :
      (R.without fd (R.due fd mask) (fd, event)).isSome =
        ((R (fd, event)).isSome && !named R fd mask event) := by
    by_cases hdue : event ∈ R.due fd mask
    · have hnamed := ((R.mem_due hevent).mp hdue).2
      simp [Registry.without, hdue, hnamed]
    · simp only [Registry.without, hdue, and_false, if_false]
      have := mt (R.mem_due hevent).mpr hdue
      cases hr : R (fd, event) with
      | none => rfl
      | some r => simpa [hr] using this
  rw [realEvents_registry, Registry.events, Registry.events, maskOf_clear_both,
    hslot .read (by decide), hslot .write (by decide)]

/-- When nothing is named that is not registered, what is named is due. -/
theorem Registry.due_eq_append
    (hread : named R fd mask .read = true → R (fd, .read) ≠ none)
    (hwrite : named R fd mask .write = true → R (fd, .write) ≠ none) :
    R.due fd mask = (if named R fd mask .read then [.read] else []) ++
      (if named R fd mask .write then [.write] else []) := by
  have hslot (event : Event) (hevent : named R fd mask event = true → R (fd, event) ≠ none) :
      ((R (fd, event)).isSome && (reports mask event || hungUp mask)) = named R fd mask event := by
    cases hr : R (fd, event) with
    | none => exact (Bool.eq_false_iff.mpr fun hnamed => hevent hnamed hr).symm
    | some r => simp [named, hr]
  simp only [due, List.filter_cons, List.filter_nil, hslot .read hread, hslot .write hwrite]
  split <;> rfl

theorem Held.idleEntry_skip (h : Held R m fd) (hdue : R.due fd mask = []) {granted : Bool} :
    m.idleEntry fd mask granted = some ([], m) := by
  have hmeet : (R.fdContext fd).events &&& realEvents (R.fdContext fd).events mask = 0 :=
    Registry.due_eq_nil_iff.mp hdue
  unfold IOManager.idleEntry
  rw [h.context]
  simp only [Option.bind_eq_bind, Option.bind_some, if_pos hmeet]
  rfl

theorem Held.idleEntry_eq (h : Held R m fd) (hdue : R.due fd mask ≠ []) (granted : Bool) :
    let real := maskOf (named R fd mask .read) (named R fd mask .write)
    let left := R.events fd &&& ~~~real
    m.idleEntry fd mask granted =
      (epollCtl m.interest (if left ≠ 0 then .mod else .del) fd (epollEt ||| left) granted).bind
        fun interest => ({ m with interest := interest }.triggerIf fd real .read).bind fun r₁ =>
          (r₁.2.triggerIf fd real .write).bind fun r₂ => some (r₁.1 ++ r₂.1, r₂.2) := by
  have hmeet : ¬ (R.fdContext fd).events &&& realEvents (R.fdContext fd).events mask = 0 :=
    fun hzero => hdue (Registry.due_eq_nil_iff.mpr hzero)
  unfold IOManager.idleEntry
  rw [h.context]
  simp only [Option.bind_eq_bind, Option.bind_some, if_neg hmeet]
  rw [show (R.fdContext fd).events = R.events fd from rfl, realEvents_registry]
  rfl

theorem Served.skip (h : Backed R m fd) (hdue : R.due fd mask = []) : Served R m fd mask [] m where
  pushed := by rw [hdue]; rfl
  rest := by rwa [hdue, R.without_nil]
  counted := rfl
  contexts := fun _ _ => rfl
  interest := fun _ _ => rfl

/-- The kernel ends or changes its watch, since some registered event is due. -/
theorem Backed.watch_granted (h : Backed R m fd) (hdue : R.due fd mask ≠ []) (left mask' : Mask) :
    ∃ interest, epollCtl m.interest (if left ≠ 0 then .mod else .del) fd mask' true =
      some interest := by
  obtain ⟨event, hmem⟩ := List.exists_mem_of_ne_nil _ hdue
  have hevent : event ≠ .none := by
    rintro rfl
    simp [Registry.due] at hmem
  obtain ⟨watched, hwatched, -⟩ := h.watched event hevent ((R.mem_due hevent).mp hmem).1
  exact Option.ne_none_iff_exists'.mp (epollCtl_granted hwatched)

/-- The slot of `WRITE` is what it was when `READ` may have been triggered. -/
theorem Registry.without_read (b : Bool) :
    R.without fd (if b then [.read] else []) (fd, .write) = R (fd, .write) := by
  cases b <;> simp [without]

theorem Registry.triggers_without_read (R : Registry) (fd : Nat) (b b' : Bool) :
    (R.without fd (if b then [.read] else [])).triggers fd (if b' then [.write] else []) =
      R.triggers fd (if b' then [.write] else []) := by
  cases b'
  · rfl
  · simp only [triggers, if_true, List.filterMap_cons, List.filterMap_nil, R.without_read]

/-- A body that does not end the run serves its entry: it triggers `READ` and `WRITE`
as they are named, and neither is named without being registered. -/
theorem Backed.idleEntry (h : Backed R m fd) (hdue : R.due fd mask ≠ []) :
    m.idleEntry fd mask true = none ∧
        (∃ event : Event, event ≠ .none ∧ named R fd mask event = true ∧ R (fd, event) = none) ∨
      (∃ m', m.idleEntry fd mask true = some (R.triggers fd (R.due fd mask), m') ∧
        Served R m fd mask (R.triggers fd (R.due fd mask)) m') ∧
        ∀ event, event ≠ .none → named R fd mask event = true → R (fd, event) ≠ none := by
  have hbody := h.toHeld.idleEntry_eq hdue true
  obtain ⟨interest, hctl⟩ := h.watch_granted hdue
    (R.events fd &&& ~~~maskOf (named R fd mask .read) (named R fd mask .write)) _
  dsimp only at hbody
  rw [hctl, Option.bind_some] at hbody
  have hheld : Held R { m with interest := interest } fd := ⟨h.context, h.counted⟩
  rcases hheld.triggerIf .read nofun (maskOf_and_read_ne _ _) with
    ⟨hnamed, hnone, hstop⟩ | ⟨hread, m₁, hop₁, h₁⟩
  · rw [hstop] at hbody
    exact .inl ⟨hbody, .read, nofun, hnamed, hnone⟩
  rw [hop₁, Option.bind_some] at hbody
  rcases h₁.held.triggerIf .write nofun (maskOf_and_write_ne _ _) with
    ⟨hnamed, hnone, hstop⟩ | ⟨hwrite, m₂, hop₂, h₂⟩
  · rw [hstop] at hbody
    rw [Registry.without_read] at hnone
    exact .inl ⟨hbody, .write, nofun, hnamed, hnone⟩
  rw [hop₂, Option.bind_some] at hbody
  rw [Registry.without_read] at hwrite
  have htriggers := R.triggers_without_read fd (named R fd mask .read) (named R fd mask .write)
  have hes := R.due_eq_append hread hwrite
  have hemptied := h₁.append h₂ htriggers
  rw [← hes] at hemptied
  have hinterest := hemptied.interest.trans (epollCtl_left hctl
    (R.events_without_due.trans (by rw [realEvents_registry])))
  refine .inr ⟨⟨m₂, hbody.trans ?_, ⟨rfl, ?_, hemptied.counted, hemptied.contexts, ?_⟩⟩, ?_⟩
  · rw [htriggers, ← R.triggers_append, ← hes]
  · refine hemptied.held.backed fun _ => ?_
    rw [hinterest, Function.update_self]
  · intro fd' hfd'
    rw [hinterest, Function.update_of_ne hfd']
  · intro event hevent
    cases event with
    | none => exact absurd rfl hevent
    | read => exact hread
    | write => exact hwrite

/-- A refused `epoll_ctl` fails its assertion. -/
theorem Held.idleEntry_refused (h : Held R m fd) (hdue : R.due fd mask ≠ []) :
    m.idleEntry fd mask false = none :=
  h.idleEntry_eq hdue false

/-- An error or a hang-up names only what is registered. -/
theorem named_registered_iff :
    (named R fd mask event = true → R (fd, event) ≠ none) ↔
      (reports mask event = true → R (fd, event) ≠ none) := by
  cases hr : R (fd, event) <;> simp [named, hr]

/-- The body serves a reported entry exactly when nothing is due, or the kernel grants
its `epoll_ctl` and the mask names no event that is not registered. -/
theorem idleEntry_served_iff (h : Backed R m fd) (mask : Mask) (granted : Bool) :
    (∃ ts m', m.idleEntry fd mask granted = some (ts, m') ∧ Served R m fd mask ts m') ↔
      R.due fd mask = [] ∨ granted = true ∧
        ∀ event, event ≠ .none → reports mask event = true → R (fd, event) ≠ none := by
  by_cases hdue : R.due fd mask = []
  · exact iff_of_true ⟨[], m, h.toHeld.idleEntry_skip hdue, .skip h hdue⟩ (.inl hdue)
  rw [or_iff_right hdue]
  cases granted with
  | false =>
    rw [h.toHeld.idleEntry_refused hdue]
    exact iff_of_false (by rintro ⟨ts, m', hop, -⟩; cases hop) fun hgranted => nomatch hgranted.1
  | true =>
    rcases h.idleEntry hdue with ⟨hstop, event, hevent, hnamed, hnone⟩ | ⟨⟨m', hop, hserved⟩, hreg⟩
    · rw [hstop]
      refine iff_of_false (by rintro ⟨ts, m', hop, -⟩; cases hop) fun hall => ?_
      exact named_registered_iff.mpr (hall.2 event hevent) hnamed hnone
    · refine iff_of_true ⟨_, m', hop, hserved⟩ ⟨rfl, fun event hevent => ?_⟩
      exact named_registered_iff.mp (hreg event hevent)

/-- Every `FdContext` of every reachable table is such a one. -/
theorem backed_of_reachable {s : TableState} (h : tableSystem.Reachable properCalls s)
    (hfd : fd < s.io.fdContexts.length) : ∃ R, Backed R s.io fd := by
  obtain ⟨R, hR⟩ := recorded_of_reachable h
  exact ⟨R, hR.represents.backed hfd⟩

/-- `READ` and `WRITE` of descriptor 6 are registered, and `WRITE` is cancelled. -/
def outdatedRun : List (Call × Bool) :=
  let caller : Caller := ⟨some 0, .made 1, .running⟩
  [(.addEvent caller 6 .read none, true), (.addEvent caller 6 .write (some 9), true),
    (.cancelEvent 6 .write, true)]

theorem outdatedRun_backed {p : TableState → Bool}
    (h : (tableSystem.replay (fun s a => decide (properCalls s a)) ⟨init 5 32, []⟩ outdatedRun).any
      (fun s => decide (6 < s.io.fdContexts.length) && p s) = true) :
    ∃ s R, tableSystem.Reachable properCalls s ∧ Backed R s.io 6 ∧ p s = true := by
  obtain ⟨s, hs, hp⟩ := TransitionSystem.Reachable.of_replay (T := tableSystem) (G := properCalls)
    (fun _ _ h => of_decide_eq_true h) ⟨5, 32, rfl⟩ h
  rw [Bool.and_eq_true, decide_eq_true_iff] at hp
  obtain ⟨R, hR⟩ := backed_of_reachable hs hp.1
  exact ⟨s, R, hs, hR, hp.2⟩

/-- A hang-up is reported for descriptor 6. -/
theorem idleEntry_served_iff_outdatedRun :
    ∃ s R, tableSystem.Reachable properCalls s ∧ Backed R s.io 6 ∧
      (s.io.idleEntry 6 epollHup true).any (fun r => r.1.length == 1) = true ∧
      ∃ ts m', s.io.idleEntry 6 epollHup true = some (ts, m') ∧
        Served R s.io 6 epollHup ts m' := by
  obtain ⟨s, R, hs, hR, hp⟩ := outdatedRun_backed
    (p := fun s => (s.io.idleEntry 6 epollHup true).any fun r => r.1.length == 1) (by decide)
  refine ⟨s, R, hs, hR, hp, (idleEntry_served_iff hR epollHup true).mpr (.inr ⟨rfl, ?_⟩)⟩
  intro event hevent hreports
  cases event with
  | none => exact absurd rfl hevent
  | read => cases hreports
  | write => cases hreports

/-- What was reported before `WRITE` was cancelled: the second `triggerEvent` fails its
assertion. -/
theorem not_served_outdatedRun :
    ¬ ∀ R m fd mask, Backed R m fd →
      ∃ ts m', m.idleEntry fd mask true = some (ts, m') ∧ Served R m fd mask ts m' := by
  intro hall
  obtain ⟨s, R, -, hR, hp⟩ := outdatedRun_backed
    (p := fun s => (s.io.idleEntry 6 (epollIn ||| epollOut) true).isNone) (by decide)
  obtain ⟨ts, m', hop, -⟩ := hall R s.io 6 (epollIn ||| epollOut) hR
  rw [hop] at hp
  cases hp

/-! ## Which registrations a call pushes -/

/-- The slots whose registrations a call may push. -/
def Call.Takes : Call → Slot → Prop
  | .addEvent _ _ _ _, _ | .delEvent _ _, _ => False
  | .cancelEvent fd event, slot => slot = (fd, event)
  | .cancalAll fd, slot => slot.1 = fd
  | .idleEntry fd mask, slot => slot.1 = fd ∧ (reports mask slot.2 = true ∨ hungUp mask = true)

instance (call : Call) (slot : Slot) : Decidable (call.Takes slot) :=
  match call with
  | .addEvent _ _ _ _ | .delEvent _ _ => .isFalse id
  | .cancelEvent fd event => inferInstanceAs (Decidable (slot = (fd, event)))
  | .cancalAll fd => inferInstanceAs (Decidable (slot.1 = fd))
  | .idleEntry fd mask =>
    inferInstanceAs (Decidable (slot.1 = fd ∧ (reports mask slot.2 = true ∨ hungUp mask = true)))

theorem Registry.mem_triggers {t : Trigger} {events : List Event}
    (h : t ∈ R.triggers fd events) :
    ∃ event ∈ events, ∃ r, R (fd, event) = some r ∧ t = r.trigger fd event := by
  obtain ⟨event, hevent, htrigger⟩ := List.mem_filterMap.mp h
  obtain ⟨r, hr, rfl⟩ := Option.map_eq_some_iff.mp htrigger
  exact ⟨event, hevent, r, hr, rfl⟩

theorem Held.cancalAll (h : Held R m fd) {granted ok : Bool} {ts : List Trigger}
    (hop : m.cancalAll fd granted = some (ok, ts, m')) : ∃ events, ts = R.triggers fd events := by
  rw [cancalAll_eq] at hop
  rcases ending_cases hop with hfailed | ⟨c, interest, -, hc, -, -, hop⟩
  · cases hfailed
    exact ⟨[], rfl⟩
  obtain rfl : R.fdContext fd = c := Option.some.inj (h.context.symm.trans hc)
  have hheld : Held R { m with interest := interest } fd := ⟨h.context, h.counted⟩
  rcases hheld.triggerIf .read nofun (decide_eq_true_iff).symm with
    ⟨-, -, hstop⟩ | ⟨-, m₁, hop₁, h₁⟩
  · rw [hstop] at hop
    cases hop
  rw [hop₁] at hop
  simp only [Option.bind_eq_bind, Option.bind_some, h₁.held.context] at hop
  rcases h₁.held.triggerIf .write nofun (decide_eq_true_iff).symm with
    ⟨-, -, hstop⟩ | ⟨-, m₂, hop₂, h₂⟩
  · rw [hstop] at hop
    cases hop
  rw [hop₂] at hop
  simp only [Option.bind_some, h₂.held.context, Option.ite_none_right_eq_some] at hop
  cases hop.2
  rw [Registry.triggers_without_read, ← R.triggers_append]
  exact ⟨_, rfl⟩

theorem Backed.idleEntry_triggers (h : Backed R m fd) {granted : Bool} {ts : List Trigger}
    (hop : m.idleEntry fd mask granted = some (ts, m')) :
    ts = R.triggers fd (R.due fd mask) := by
  by_cases hdue : R.due fd mask = []
  · rw [h.toHeld.idleEntry_skip hdue] at hop
    cases hop
    rw [hdue]
    rfl
  · cases granted with
    | false =>
      rw [h.toHeld.idleEntry_refused hdue] at hop
      cases hop
    | true =>
      rcases h.idleEntry hdue with ⟨hstop, -⟩ | ⟨⟨m₁, hserved, -⟩, -⟩
      · rw [hstop] at hop
        cases hop
      · rw [hserved] at hop
        cases hop
        rfl

/-- What a call pushes was registered before it, in a slot that it takes. -/
theorem Represents.pushes (h : Represents R m) {call : Call} {granted : Bool} {out : Outcome}
    (hop : m.perform call granted = some (out, m')) {t : Trigger} (ht : t ∈ out.triggers) :
    ∃ (slot : Slot) (r : Registration), R slot = some r ∧ t = r.trigger slot.1 slot.2 ∧
      call.Takes slot := by
  unfold IOManager.perform at hop
  cases call with
  | addEvent caller fd event cb | delEvent fd event =>
    obtain ⟨r, -, heq⟩ := Option.map_eq_some_iff.mp hop
    cases heq
    cases ht
  | cancelEvent fd event =>
    obtain ⟨⟨ok, ts, m₁⟩, hcancel, heq⟩ := Option.map_eq_some_iff.mp hop
    cases heq
    rcases h.toEncodes.cancelEvent hcancel with ⟨-, rfl, -⟩ | ⟨-, r, hr, rfl, -⟩
    · cases ht
    · exact ⟨(fd, event), r, hr, List.mem_singleton.mp ht, rfl⟩
  | cancalAll fd =>
    obtain ⟨⟨ok, ts, m₁⟩, hcancel, heq⟩ := Option.map_eq_some_iff.mp hop
    cases heq
    by_cases hfd : fd < m.fdContexts.length
    · obtain ⟨events, rfl⟩ := (h.toEncodes.held hfd).cancalAll hcancel
      obtain ⟨event, -, r, hr, rfl⟩ := Registry.mem_triggers ht
      exact ⟨(fd, event), r, hr, rfl, rfl⟩
    · rw [cancalAll_eq, ending_of_le (Nat.le_of_not_lt hfd)] at hcancel
      cases hcancel
      cases ht
  | idleEntry fd mask =>
    obtain ⟨⟨ts, m₁⟩, hentry, heq⟩ := Option.map_eq_some_iff.mp hop
    cases heq
    by_cases hfd : fd < m.fdContexts.length
    · obtain rfl := (h.backed hfd).idleEntry_triggers hentry
      obtain ⟨event, hdue, r, hr, rfl⟩ := Registry.mem_triggers ht
      have hreported := (List.mem_filter.mp hdue).2
      rw [Bool.and_eq_true, Bool.or_eq_true] at hreported
      exact ⟨(fd, event), r, hr, rfl, rfl, hreported.2⟩
    · rw [IOManager.idleEntry, List.getElem?_eq_none (Nat.le_of_not_lt hfd)] at hentry
      cases hentry

end IOManager
