-- SUMMARY: Runs of the event table: its redundant state agrees in every reachable state, and every registration has exactly one fate.
import MyCoroutine.IOManager.Operations

/-! # Runs of the event table

Any sequence of operations, each atomic, with any answer of the kernel to each
`epoll_ctl`. A call on a descriptor outside the table finds nothing, or ends the
run when it is `addEvent`. The state keeps the record of the
calls and of what they returned; `moves` reads the registry's moves off it. The
invariant is that the table represents what those moves lead to. -/

namespace IOManager

open OneShot

/-! ## Calls -/

inductive Call where
  | addEvent (caller : Caller) (fd : Nat) (event : Event) (cb : Option CbId)
  | delEvent (fd : Nat) (event : Event)
  | cancelEvent (fd : Nat) (event : Event)
  | cancalAll (fd : Nat)
  /-- One entry that `idle` handles. -/
  | idleEntry (fd : Nat) (mask : Mask)
  deriving DecidableEq

/-- The descriptor a call is about. -/
def Call.fd : Call → Nat
  | .addEvent _ fd _ _ | .delEvent fd _ | .cancelEvent fd _ | .cancalAll fd | .idleEntry fd _ => fd

/-- What a call returns, and what it pushes. -/
structure Outcome where
  /-- The call returned 0, or true. -/
  ok : Bool
  triggers : List Trigger
  deriving DecidableEq

def perform (m : IOManager) (call : Call) (granted : Bool) : Option (Outcome × IOManager) :=
  match call with
  | .addEvent caller fd event cb =>
    (m.addEvent caller fd event cb granted).map fun r => (⟨r.1 = 0, []⟩, r.2)
  | .delEvent fd event => (m.delEvent fd event granted).map fun r => (⟨r.1, []⟩, r.2)
  | .cancelEvent fd event => (m.cancelEvent fd event granted).map fun r => (⟨r.1, r.2.1⟩, r.2.2)
  | .cancalAll fd => (m.cancalAll fd granted).map fun r => (⟨r.1, r.2.1⟩, r.2.2)
  | .idleEntry fd mask => (m.idleEntry fd mask granted).map fun r => (⟨true, r.1⟩, r.2)

/-- The registrations a call made. -/
def Outcome.added (out : Outcome) : Call → List (Move Slot Registration)
  | .addEvent caller fd event cb =>
    if out.ok then (caller.registration cb).toList.map fun r => ⟨(fd, event), .add r⟩ else []
  | _ => []

/-- The registrations a call discarded. -/
def Outcome.dropped (out : Outcome) : Call → List (Move Slot Registration)
  | .delEvent fd event => if out.ok then [⟨(fd, event), .drop⟩] else []
  | _ => []

/-- What a call did, read off the call and what it returned and pushed. -/
def moves (call : Call) (out : Outcome) : List (Move Slot Registration) :=
  out.added call ++ out.dropped call ++ out.triggers.filterMap Trigger.move

/-- `addEvent` is called on a thread of a scheduler. -/
def Call.Proper : Call → Prop
  | .addEvent caller _ _ _ => caller.scheduler.isSome = true
  | _ => True

instance : DecidablePred Call.Proper
  | .addEvent caller _ _ _ => inferInstanceAs (Decidable (caller.scheduler.isSome = true))
  | .delEvent _ _ | .cancelEvent _ _ | .cancalAll _ | .idleEntry _ _ => .isTrue trivial

variable {R : Registry} {m m' : IOManager} {call : Call} {out : Outcome} {granted : Bool}

/-- What every operation does to a table that stores a registry. -/
structure Logs (R : Registry) (m : IOManager) (call : Call) (out : Outcome) (m' : IOManager)
    (R' : Registry) : Prop where
  run : Run Move.Step R (moves call out) R'
  encodes : Encodes R' m'
  real : ∀ t ∈ out.triggers, ∃ r : Registration, t = r.trigger t.fd t.event
  pending : m.pendingEventCount + (out.added call).length =
    m'.pendingEventCount + (out.dropped call).length + out.triggers.length
  failed : out.ok = false → m' = m ∧ out.triggers = []
  /-- Nothing changes, or the slots of one descriptor and the kernel's entry for it do. -/
  changes : (R' = R ∧ m' = m) ∨ ∃ fd, Changes R R' m m' fd

theorem Encodes.unchanged (h : Encodes R m)
    (hmoves : out.added call = [] ∧ out.dropped call = []) (hts : out.triggers = []) :
    Logs R m call out m R where
  run := by simp [moves, hmoves, hts]
  encodes := h
  real := by simp [hts]
  pending := by simp [hmoves, hts]
  failed := fun _ => ⟨rfl, hts⟩
  changes := .inl ⟨rfl, rfl⟩

theorem Encodes.perform (h : Encodes R m) (hcall : call.Proper)
    (hop : m.perform call granted = some (out, m')) : ∃ R', Logs R m call out m' R' := by
  unfold IOManager.perform at hop
  cases call with
  | addEvent caller fd event cb =>
    obtain ⟨⟨ret, m₁⟩, hadd, heq⟩ := Option.map_eq_some_iff.mp hop
    cases heq
    have hscheduler : caller.scheduler.isSome = true := hcall
    obtain ⟨r, hr⟩ : ∃ r, caller.registration cb = some r :=
      Option.isSome_iff_exists.mp (by simp [Caller.registration, hscheduler])
    rcases h.addEvent hr hadd with ⟨rfl, rfl⟩ | ⟨rfl, hfree, hpending, hchanges⟩
    · exact ⟨R, h.unchanged ⟨by simp [Outcome.added], rfl⟩ rfl⟩
    · have hadded : Outcome.added ⟨decide ((0 : Int) = 0), []⟩ (.addEvent caller fd event cb) =
          [⟨(fd, event), .add r⟩] := by
        simp [Outcome.added, hr]
      refine ⟨_, ⟨?_, hchanges.encodes, fun _ ht => absurd ht List.not_mem_nil, ?_, by simp,
        .inr ⟨fd, hchanges⟩⟩⟩
      · rw [moves, hadded]
        exact ⟨_, .mk (hfree ▸ .add r), rfl⟩
      · rw [hadded, hpending]
        rfl
  | delEvent fd event =>
    obtain ⟨⟨ok, m₁⟩, hdel, heq⟩ := Option.map_eq_some_iff.mp hop
    cases heq
    rcases h.delEvent hdel with ⟨rfl, rfl⟩ | ⟨rfl, ⟨r, hr⟩, hpending, hchanges⟩
    · exact ⟨R, h.unchanged ⟨rfl, rfl⟩ rfl⟩
    · have hnone : ∀ t ∈ ([] : List Trigger), ∃ r : Registration, t = r.trigger t.fd t.event :=
        fun _ ht => absurd ht List.not_mem_nil
      exact ⟨_, ⟨_, .mk (hr ▸ .drop r), rfl⟩, hchanges.encodes, hnone, hpending, by simp,
        .inr ⟨fd, hchanges⟩⟩
  | cancelEvent fd event =>
    obtain ⟨⟨ok, ts, m₁⟩, hcancel, heq⟩ := Option.map_eq_some_iff.mp hop
    cases heq
    rcases h.cancelEvent hcancel with ⟨rfl, rfl, rfl⟩ | ⟨rfl, r, hr, rfl, hpending, hchanges⟩
    · exact ⟨R, h.unchanged ⟨rfl, rfl⟩ rfl⟩
    · refine ⟨_, ⟨?_, hchanges.encodes, ?_, hpending, by simp, .inr ⟨fd, hchanges⟩⟩⟩
      · simp only [moves, List.filterMap_cons, Registration.move_trigger, List.filterMap_nil]
        exact ⟨_, .mk (hr ▸ .fire r), rfl⟩
      · intro t ht
        rw [List.mem_singleton.mp ht]
        exact ⟨r, r.trigger_slot fd event⟩
  | cancalAll fd =>
    obtain ⟨⟨ok, ts, m₁⟩, hcancel, heq⟩ := Option.map_eq_some_iff.mp hop
    cases heq
    rcases h.cancalAll hcancel with ⟨rfl, rfl, rfl⟩ | ⟨rfl, R', hrun, hreal, hpending, hchanges, -⟩
    · exact ⟨R, h.unchanged ⟨rfl, rfl⟩ rfl⟩
    · exact ⟨R', ⟨hrun, hchanges.encodes, hreal, hpending, by simp, .inr ⟨fd, hchanges⟩⟩⟩
  | idleEntry fd mask =>
    obtain ⟨⟨ts, m₁⟩, hentry, heq⟩ := Option.map_eq_some_iff.mp hop
    cases heq
    rcases h.idleEntry hentry with ⟨rfl, rfl⟩ | ⟨R', hrun, hreal, hpending, hchanges⟩
    · exact ⟨R, h.unchanged ⟨rfl, rfl⟩ rfl⟩
    · exact ⟨R', ⟨hrun, hchanges.encodes, hreal, hpending, by simp, .inr ⟨fd, hchanges⟩⟩⟩

/-- A refused `addEvent` registers nothing. -/
theorem added_of_refused {caller : Caller} {fd : Nat} {event : Event} {cb : Option CbId}
    (hop : m.perform (.addEvent caller fd event cb) false = some (out, m')) :
    out.added (.addEvent caller fd event cb) = [] := by
  unfold IOManager.perform at hop
  obtain ⟨⟨ret, m₁⟩, hadd, heq⟩ := Option.map_eq_some_iff.mp hop
  cases heq
  obtain rfl := addEvent_refused hadd
  rfl

/-- What every operation does to a table that represents a registry. -/
structure Does (R : Registry) (m : IOManager) (call : Call) (out : Outcome) (m' : IOManager)
    (R' : Registry) : Prop where
  run : Run Move.Step R (moves call out) R'
  represents : Represents R' m'
  real : ∀ t ∈ out.triggers, ∃ r : Registration, t = r.trigger t.fd t.event
  pending : m.pendingEventCount + (out.added call).length =
    m'.pendingEventCount + (out.dropped call).length + out.triggers.length
  failed : out.ok = false → m' = m ∧ out.triggers = []

theorem Represents.of_logs (h : Represents R m) {R' : Registry}
    (hlogs : Logs R m call out m' R') : Represents R' m' := by
  rcases hlogs.changes with ⟨rfl, rfl⟩ | ⟨fd, hchanges⟩
  · exact h
  · exact h.of_changes hchanges

theorem Logs.length {R' : Registry} (h : Logs R m call out m' R') :
    m'.fdContexts.length = m.fdContexts.length := by
  rcases h.changes with ⟨-, rfl⟩ | ⟨fd, hchanges⟩
  · rfl
  · exact hchanges.length

theorem Logs.tickle {R' : Registry} (h : Logs R m call out m' R') : m'.tickleFd = m.tickleFd := by
  rcases h.changes with ⟨-, rfl⟩ | ⟨fd, hchanges⟩
  · rfl
  · exact hchanges.tickle

theorem Represents.perform (h : Represents R m) (hcall : call.Proper)
    (hop : m.perform call granted = some (out, m')) : ∃ R', Does R m call out m' R' := by
  obtain ⟨R', hlogs⟩ := h.toEncodes.perform hcall hop
  exact ⟨R', hlogs.run, h.of_logs hlogs, hlogs.real, hlogs.pending, hlogs.failed⟩

/-! ## Runs -/

structure TableState where
  io : IOManager
  /-- The calls so far, with what they returned and pushed. -/
  record : List (Call × Outcome)

/-- What the calls so far did to the registry. -/
def TableState.log (s : TableState) : List (Move Slot Registration) :=
  s.record.flatMap fun r => moves r.1 r.2

/-- The pushes so far. -/
def TableState.pushes (s : TableState) : List Trigger :=
  s.record.flatMap fun r => r.2.triggers

/-- A table of any size, and calls with the answers of the kernel. -/
def tableSystem : TransitionSystem TableState (Call × Bool) where
  init s := ∃ tickleFd size, s = ⟨init tickleFd size, []⟩
  step s a := (s.io.perform a.1 a.2).map fun r => ⟨r.2, s.record ++ [(a.1, r.1)]⟩

def properCalls (_ : TableState) (a : Call × Bool) : Prop :=
  a.1.Proper

instance (s : TableState) (a : Call × Bool) : Decidable (properCalls s a) :=
  inferInstanceAs (Decidable a.1.Proper)

/-- The table represents what the recorded moves lead to. -/
structure Recorded (R : Registry) (s : TableState) : Prop where
  run : Run Move.Step (fun _ => none) s.log R
  represents : Represents R s.io
  real : ∀ t ∈ s.pushes, ∃ r : Registration, t = r.trigger t.fd t.event

theorem recorded_of_reachable {s : TableState} (h : tableSystem.Reachable properCalls s) :
    ∃ R, Recorded R s := by
  refine TransitionSystem.Preserved.reachable (I := fun s => ∃ R, Recorded R s) ?_ ?_ h
  · rintro s ⟨call, granted⟩ t ⟨R, hR⟩ hproper hstep
    obtain ⟨⟨out, m'⟩, hop, rfl⟩ := Option.map_eq_some_iff.mp hstep
    obtain ⟨R', hdoes⟩ := hR.represents.perform hproper hop
    refine ⟨R', ?_, hdoes.represents, ?_⟩
    · simp only [TableState.log, List.flatMap_append, List.flatMap_singleton]
      exact run_append.mpr ⟨R, hR.run, hdoes.run⟩
    · intro t ht
      simp only [TableState.pushes, List.flatMap_append, List.flatMap_singleton,
        List.mem_append] at ht
      exact ht.elim (hR.real t) (hdoes.real t)
  · rintro s ⟨tickleFd, size, rfl⟩
    exact ⟨_, rfl, init_represents tickleFd size, fun _ ht => absurd ht List.not_mem_nil⟩

/-! ## The redundant state agrees -/

/-- The bit of the slot is set in `FdContext::events`. -/
def registered (m : IOManager) (slot : Slot) : Bool :=
  (m.fdContexts[slot.1]?).any fun c => decide (c.events &&& slot.2.bits ≠ 0)

/-- The counter, the masks, the event contexts and the kernel tell one story. -/
structure Consistent (m : IOManager) : Prop where
  counted : m.pendingEventCount = (slots m.fdContexts.length).countP m.registered
  filled : ∀ (fd : Nat) (c : FdContext) (event : Event) (ctx : EventContext),
    m.fdContexts[fd]? = some c → c.getEventContext event = some ctx →
    (c.events &&& event.bits ≠ 0 ↔ ctx.fiber.isSome ≠ ctx.cb.isSome)
  cleared : ∀ (fd : Nat) (c : FdContext) (event : Event) (ctx : EventContext),
    m.fdContexts[fd]? = some c → c.getEventContext event = some ctx →
    c.events &&& event.bits = 0 → ctx = .empty
  watched : ∀ (fd : Nat) (c : FdContext), m.fdContexts[fd]? = some c → fd ≠ m.tickleFd →
    m.interest fd = if c.events = 0 then none else some (epollEt ||| c.events)
  tickle : m.interest m.tickleFd = some (epollIn ||| epollEt) ∧
    ∀ c : FdContext, m.fdContexts[m.tickleFd]? = some c → c.events = 0

theorem contextOf_filled (b : Option Registration) :
    b ≠ none ↔ (contextOf b).fiber.isSome ≠ (contextOf b).cb.isSome := by
  rcases b with _ | ⟨scheduler, f | c⟩ <;> simp [contextOf, EventContext.empty]

theorem Encodes.registered (h : Encodes R m) {slot : Slot}
    (hslot : slot ∈ slots m.fdContexts.length) : m.registered slot = (R slot).isSome := by
  obtain ⟨fd, event⟩ := slot
  obtain ⟨hfd, hevent⟩ := mem_slots.mp hslot
  have hbits := R.events_and_bits fd hevent
  rw [IOManager.registered, h.lookup hfd, Option.any_some, Bool.eq_iff_iff, decide_eq_true_iff,
    Option.isSome_iff_ne_none]
  exact not_congr hbits

theorem Encodes.counted (h : Encodes R m) :
    m.pendingEventCount = (slots m.fdContexts.length).countP m.registered := by
  rw [h.pending, Counting.held, List.length_filterMap_eq_countP]
  exact List.countP_congr fun slot hslot => by rw [h.registered hslot]; rfl

theorem Represents.consistent (h : Represents R m) : Consistent m where
  counted := h.counted
  filled := by
    intro fd c event ctx hc hctx
    obtain rfl := h.table fd c hc
    have hevent : event ≠ .none := by
      rintro rfl
      cases hctx
    rw [R.fdContext_getEventContext hevent] at hctx
    cases hctx
    rw [← contextOf_filled]
    exact not_congr (R.events_and_bits fd hevent)
  cleared := by
    intro fd c event ctx hc hctx hbit
    obtain rfl := h.table fd c hc
    have hevent : event ≠ .none := by
      rintro rfl
      cases hctx
    rw [R.fdContext_getEventContext hevent, (R.events_and_bits fd hevent).mp hbit] at hctx
    cases hctx
    rfl
  watched := by
    intro fd c hc hfd
    obtain rfl := h.table fd c hc
    exact h.interest fd hfd
  tickle := by
    refine ⟨h.tickle, fun c hc => ?_⟩
    obtain rfl := h.table _ c hc
    exact h.events_tickle

/-- In every reachable state of a table of any size the pending count is the
number of registered events, a bit is set when its context holds exactly one of
fiber and callback and the context is empty otherwise, and the kernel watches
what is registered (the read end of the tickle pipe as the constructor left it).
Every operation counts what it registers and what it ends, without wrapping, and
one that reports failure has changed nothing. -/
theorem table_consistent {s : TableState} (h : tableSystem.Reachable properCalls s) :
    Consistent s.io ∧
      ∀ call granted out m', call.Proper → s.io.perform call granted = some (out, m') →
        s.io.pendingEventCount + (out.added call).length =
          m'.pendingEventCount + (out.dropped call).length + out.triggers.length ∧
        (out.ok = false → m' = s.io) := by
  obtain ⟨R, hR⟩ := recorded_of_reachable h
  refine ⟨hR.represents.consistent, fun call granted out m' hproper hop => ?_⟩
  obtain ⟨R', hdoes⟩ := hR.represents.perform hproper hop
  exact ⟨hdoes.pending, fun hfail => (hdoes.failed hfail).1⟩

/-- Both events of one descriptor are registered, one is cancelled and registered
again, the other is deleted when the kernel first refuses and then agrees. -/
def bothEventsRun : List (Call × Bool) :=
  let caller : Caller := ⟨some 0, .made 1, .running⟩
  [(.addEvent caller 3 .read none, true), (.addEvent caller 3 .write (some 9), true),
    (.cancelEvent 3 .read, true), (.addEvent caller 3 .read none, true),
    (.delEvent 3 .write, false), (.delEvent 3 .write, true)]

theorem bothEventsRun_reachable {p : TableState → Bool}
    (h : (tableSystem.replay (fun s a => decide (properCalls s a)) ⟨init 5 32, []⟩
      bothEventsRun).any p = true) : ∃ s, tableSystem.Reachable properCalls s ∧ p s = true :=
  TransitionSystem.Reachable.of_replay (fun _ _ h => of_decide_eq_true h) ⟨5, 32, rfl⟩ h

theorem table_consistent_bothEventsRun :
    ∃ s, tableSystem.Reachable properCalls s ∧ s.io.pendingEventCount = 1 ∧ Consistent s.io := by
  obtain ⟨s, hs, hp⟩ := bothEventsRun_reachable (p := fun s => s.io.pendingEventCount == 1)
    (by decide)
  exact ⟨s, hs, beq_iff_eq.mp hp, (table_consistent hs).1⟩

/-- The read end of the tickle pipe is watched although nothing is registered in
its `FdContext`. -/
theorem not_watched_tickleFd :
    ¬ ∀ s, tableSystem.Reachable properCalls s → ∀ (fd : Nat) (c : FdContext),
      s.io.fdContexts[fd]? = some c →
      s.io.interest fd = if c.events = 0 then none else some (epollEt ||| c.events) := by
  intro hall
  have := hall ⟨init 5 32, []⟩ (.of_init ⟨5, 32, rfl⟩) 5 (.new 5) (by decide)
  revert this
  decide

/-! ## The fate of a registration -/

/-- The registration is in the event context of its own slot. -/
def holds (m : IOManager) (slot : Slot) (r : Registration) : Prop :=
  ∃ c, m.fdContexts[slot.1]? = some c ∧ c.events &&& slot.2.bits ≠ 0 ∧
    c.getEventContext slot.2 = some (contextOf (some r))

theorem contextOf_injective : Function.Injective contextOf := by
  intro a b h
  rcases a with _ | ⟨s, f | c⟩ <;> rcases b with _ | ⟨s', f' | c'⟩ <;>
    simp_all [contextOf, EventContext.empty]

theorem Encodes.holds_iff (h : Encodes R m) (slot : Slot) (r : Registration) :
    m.holds slot r ↔ R slot = some r := by
  obtain ⟨fd, event⟩ := slot
  constructor
  · rintro ⟨c, hc, hbit, hctx⟩
    obtain rfl := h.table fd c hc
    have hevent : event ≠ .none := by
      rintro rfl
      cases hctx
    rw [R.fdContext_getEventContext hevent, Option.some.injEq] at hctx
    exact contextOf_injective hctx
  · intro hr
    obtain ⟨hfd, hevent⟩ := h.outside fd event (by rw [hr]; exact nofun)
    refine ⟨_, h.lookup hfd, ?_, ?_⟩
    · intro hzero
      rw [(R.events_and_bits fd hevent).mp hzero] at hr
      cases hr
    · rw [R.fdContext_getEventContext hevent, hr]

instance (m : IOManager) (slot : Slot) (r : Registration) : Decidable (m.holds slot r) :=
  decidable_of_iff ((m.fdContexts[slot.1]?).any (fun c => decide (c.events &&& slot.2.bits ≠ 0 ∧
      c.getEventContext slot.2 = some (contextOf (some r)))) = true) (by
    simp only [Option.any_eq_true, decide_eq_true_eq, holds])

/-- What is registered after a call was registered before, or the call added it. -/
theorem Logs.before {R' : Registry} (h : Logs R m call out m' R') {slot : Slot} {r : Registration}
    (hr : R' slot = some r) : R slot = some r ∨ ⟨slot, .add r⟩ ∈ out.added call := by
  have hrun := h.run.slot slot
  rw [hr] at hrun
  refine (of_occupied hrun).imp_right fun hmem => ?_
  have hmove := mem_of_mem_history hmem
  simp only [moves, List.mem_append, List.mem_filterMap] at hmove
  -- an `add` is no drop and no push, so it is what the call added
  rcases hmove with (hmove | hmove) | ⟨t, -, hmove⟩
  · exact hmove
  · unfold Outcome.dropped at hmove
    split at hmove
    · split at hmove
      · cases List.mem_singleton.mp hmove
      · cases hmove
    · cases hmove
  · unfold Trigger.move at hmove
    split at hmove <;> cases hmove

/-- A registration that a call did not make was held before the call. -/
theorem Encodes.held_before (h : Encodes R m) (hcall : call.Proper)
    (hop : m.perform call granted = some (out, m')) {slot : Slot} {r : Registration}
    (hadd : ⟨slot, .add r⟩ ∉ out.added call) (hheld : m'.holds slot r) : m.holds slot r := by
  obtain ⟨R', hlogs⟩ := h.perform hcall hop
  have hr := (hlogs.encodes.holds_iff slot r).mp hheld
  exact (h.holds_iff slot r).mpr ((hlogs.before hr).resolve_right hadd)

/-- Whatever the run did to a slot: after a registration, the registration is
still in the context of the slot, or the next thing is one push of exactly it to
its scheduler, or the next thing is a `delEvent` that discarded it. Nothing is
pushed or discarded that was not registered just before, every push is the push
of a registration, and a context holds what was registered last. -/
theorem registration_fate {s : TableState} (h : tableSystem.Reachable properCalls s) (slot : Slot) :
    (∀ l k r, history slot s.log = l ++ .add r :: k →
      (k = [] ∧ s.io.holds slot r) ∨ (∃ k', k = .fire r :: k') ∨ ∃ k', k = .drop :: k') ∧
    (∀ l k r, history slot s.log = l ++ .fire r :: k → ∃ l', l = l' ++ [.add r]) ∧
    (∀ l k, history slot s.log = l ++ .drop :: k → ∃ l' r, l = l' ++ [.add r]) ∧
    (∀ t ∈ s.pushes, ∃ r : Registration, t = r.trigger t.fd t.event) ∧
    (∀ r, s.io.holds slot r → ∃ l, history slot s.log = l ++ [.add r]) := by
  obtain ⟨R, hR⟩ := recorded_of_reachable h
  have hrun := hR.run.slot slot
  refine ⟨?_, ?_, ?_, hR.real, ?_⟩
  · intro l k r hl
    rw [hl] at hrun
    rcases after_add hrun with ⟨rfl, hr⟩ | hfire | hdrop
    · exact .inl ⟨rfl, (hR.represents.holds_iff slot r).mpr hr⟩
    · exact .inr (.inl hfire)
    · exact .inr (.inr hdrop)
  · intro l k r hl
    rw [hl] at hrun
    exact before_fire hrun
  · intro l k hl
    rw [hl] at hrun
    exact before_drop hrun
  · intro r hr
    rw [(hR.represents.holds_iff slot r).mp hr] at hrun
    exact last_add hrun

theorem registration_fate_bothEventsRun :
    let read : Registration := ⟨0, .fiber (.made 1)⟩
    ∃ s, tableSystem.Reachable properCalls s ∧
      history (3, .read) s.log = [.add read, .fire read, .add read] ∧
      history (3, .write) s.log = [.add ⟨0, .cb 9⟩, .drop] ∧
      ∀ l k r, history (3, .read) s.log = l ++ .add r :: k →
        (k = [] ∧ s.io.holds (3, .read) r) ∨ (∃ k', k = .fire r :: k') ∨ ∃ k', k = .drop :: k' := by
  intro read
  obtain ⟨s, hs, hp⟩ := bothEventsRun_reachable
    (p := fun s => history (3, .read) s.log == [.add read, .fire read, .add read] &&
      history (3, .write) s.log == [.add ⟨0, .cb 9⟩, .drop])
    (by decide)
  simp only [Bool.and_eq_true, beq_iff_eq] at hp
  exact ⟨s, hs, hp.1, hp.2, (registration_fate hs (3, .read)).1⟩

end IOManager
