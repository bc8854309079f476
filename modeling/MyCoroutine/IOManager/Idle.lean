-- SUMMARY: One iteration of IOManager::idle, and exactly when it delivers what epoll_wait reported.
import MyCoroutine.IOManager.Runs
import MyCoroutine.Timer

/-! # An iteration of idle

`idle` waits in `epoll_wait`, again after every `EINTR`, schedules the callbacks
of the expired timers, and then walks over `events[0..rt-1]`. The `int rt` that
receives the result of `epoll_wait` is declared inside the waiting loop; the
loop over the entries reads the one declared before it, which is still 0. -/

namespace IOManager

/-- An element of `events` as `epoll_wait` fills it in. `granted` is the answer
of the kernel to the `epoll_ctl` call that its handling may make. -/
inductive Entry where
  /-- `data.fd` is the read end of the tickle pipe. -/
  | tickle
  /-- `data.ptr` is the `FdContext` of `fd`. -/
  | context (fd : Nat) (mask : Mask) (granted : Bool)
  deriving DecidableEq

/-- One return of `epoll_wait`. -/
structure Poll where
  rt : Int
  /-- `errno == EINTR`. -/
  interrupted : Bool
  events : List Entry
  deriving DecidableEq

/-- What an iteration of `idle` works on. -/
structure IdleState where
  io : IOManager
  timers : TimerManager CbId
  /-- `m_tasks` of each scheduler, without the thread pins. -/
  tasks : SchedulerId → List (Option FiberId × Option CbId)
  /-- The scheduler that this manager is. -/
  self : SchedulerId
  /-- The bytes in the tickle pipe. -/
  pipe : Nat

namespace IdleState

/-- `schedule` on `scheduler`, which drops an empty task. -/
def schedule (s : IdleState) (scheduler : SchedulerId) (fiber : Option FiberId)
    (cb : Option CbId) : IdleState :=
  if fiber.isSome ∨ cb.isSome then
    { s with tasks := Function.update s.tasks scheduler (s.tasks scheduler ++ [(fiber, cb)]) }
  else s

def push (s : IdleState) (t : Trigger) : IdleState :=
  s.schedule t.scheduler t.fiber t.cb

/-- `listExpiredCb`, and `schedule` for what it collected. -/
def expire (s : IdleState) (now : Int) (probe : Nat) : IdleState :=
  let r := s.timers.listExpiredCb now probe
  r.1.foldl (fun s cb => s.schedule s.self none cb) { s with timers := r.2 }

/-- The body of the loop over the entries. -/
def handle (s : IdleState) : Entry → Option IdleState
  | .tickle => some { s with pipe := 0 }
  | .context fd mask granted =>
    (s.io.idleEntry fd mask granted).map fun r => r.1.foldl push { s with io := r.2 }

/-- The loop over the first entries. -/
def handleAll (s : IdleState) (events : List Entry) : Option IdleState :=
  events.foldlM handle s

end IdleState

/-- The waiting loop: the entries are in `events` when it ends, and `rt`, which
is not the variable that received the result, is what it was. -/
def waitLoop (rt : Int) : List Poll → Option (Int × List Entry)
  | [] => none
  | poll :: polls =>
    -- `int rt = epoll_wait(..)` shadows `rt` up to the end of the loop body
    if poll.rt < 0 ∧ poll.interrupted then waitLoop rt polls else some (rt, poll.events)

/-- An iteration of `idle` that does not stop, up to its `yield`: the state when
the loop over the entries begins, and the one when it has ended. `others` is
what the other threads do in the meantime. -/
def idleIteration (s : IdleState) (polls : List Poll) (now : Int) (probe : Nat)
    (others : IdleState → IdleState) : Option (IdleState × IdleState) := do
  let (rt, events) ← waitLoop 0 polls
  let before := others (s.expire now probe)
  let after ← before.handleAll (events.take rt.toNat)
  return (before, after)

/-- What the last `epoll_wait` of an iteration reported: `k` entries, filled in
from `events[0]` on. -/
def reported : List Poll → List Entry
  | [] => []
  | poll :: polls =>
    if poll.rt < 0 ∧ poll.interrupted then reported polls else poll.events.take poll.rt.toNat

/-! ## What the entries ask for -/

/-- The entry's mask, widened by an error or a hang-up, meets the event of the slot. -/
def Entry.asks (m : IOManager) : Entry → Slot → Bool
  | .tickle, _ => false
  | .context fd mask _, slot =>
    fd = slot.1 ∧ (m.fdContexts[fd]?).any fun c =>
      decide (c.events &&& realEvents c.events mask &&& slot.2.bits ≠ 0)

/-- The slots some entry asks for. -/
def asked (m : IOManager) (entries : List Entry) : List Slot :=
  (slots m.fdContexts.length).filter fun slot => entries.any fun e => e.asks m slot

/-- What `triggerEvent` would push for a slot, and to which scheduler. -/
def taskAt (m : IOManager) (slot : Slot) : Option (SchedulerId × Option FiberId × Option CbId) := do
  let c ← m.fdContexts[slot.1]?
  let ctx ← c.getEventContext slot.2
  let scheduler ← ctx.scheduler
  return (scheduler, if ctx.cb.isSome then (none, ctx.cb) else (ctx.fiber, none))

/-- All entries were processed: the pipe is drained, and every registration asked
for has moved to the queue of its scheduler and is no longer registered or counted. -/
structure Delivered (before after : IdleState) (entries : List Entry) : Prop where
  drained : .tickle ∈ entries → after.pipe = 0
  cleared : ∀ slot ∈ asked before.io entries, after.io.registered slot = false
  pushed : ∀ scheduler task, (after.tasks scheduler).count task =
    (before.tasks scheduler).count task +
      (asked before.io entries).countP fun slot => taskAt before.io slot = some (scheduler, task)
  counted : after.io.pendingEventCount + (asked before.io entries).length =
    before.io.pendingEventCount

/-- No entry asks for anything: the pipe of a tickle is empty already, and no
reported mask meets a registered event. -/
structure Vacuous (before : IdleState) (entries : List Entry) : Prop where
  pipe : .tickle ∈ entries → before.pipe = 0
  context : ∀ fd mask granted, .context fd mask granted ∈ entries → ∀ c : FdContext,
    before.io.fdContexts[fd]? = some c → c.events &&& realEvents c.events mask = 0

/-- A mask of real events that meets `events` meets it in one of the two events. -/
theorem exists_event {events mask : Mask} (h : events &&& realEvents events mask ≠ 0) :
    ∃ event : Event, event ≠ .none ∧ events &&& realEvents events mask &&& event.bits ≠ 0 := by
  by_contra hnone
  push Not at hnone
  have hread := hnone .read nofun
  have hwrite := hnone .write nofun
  obtain ⟨r, w, hreal⟩ := realEvents_eq events mask
  apply h
  calc events &&& realEvents events mask
      _ = events &&& realEvents events mask &&& (Event.read.bits ||| Event.write.bits) := by
        rw [hreal, BitVec.and_assoc, maskOf_and_both]
      _ = 0 := by rw [BitVec.and_or_distrib_left, hread, hwrite, BitVec.or_self]

theorem Vacuous.asked_eq_nil {s : IdleState} {entries : List Entry} (h : Vacuous s entries) :
    asked s.io entries = [] := by
  apply List.filter_eq_nil_iff.mpr
  intro slot _ hany
  obtain ⟨e, he, hasks⟩ := List.any_eq_true.mp hany
  cases e with
  | tickle => cases hasks
  | context fd mask granted =>
    simp only [Entry.asks, decide_eq_true_eq, Option.any_eq_true] at hasks
    obtain ⟨-, c, hc, hmeet⟩ := hasks
    rw [h.context fd mask granted he c hc] at hmeet
    exact hmeet BitVec.zero_and

/-- Nothing that was asked for is delivered by doing nothing. -/
theorem delivered_self_iff (s : IdleState) (entries : List Entry) :
    Delivered s s entries ↔ Vacuous s entries := by
  constructor
  · intro h
    have hasked : asked s.io entries = [] := by
      have := h.counted
      exact List.length_eq_zero_iff.mp (by omega)
    refine ⟨h.drained, fun fd mask granted he c hc => ?_⟩
    by_contra hmeet
    obtain ⟨event, hevent, hbit⟩ := exists_event hmeet
    have hslot : (fd, event) ∈ asked s.io entries := by
      refine List.mem_filter.mpr ⟨mem_slots.mpr ⟨?_, hevent⟩, ?_⟩
      · exact (List.getElem?_eq_some_iff.mp hc).1
      · refine List.any_eq_true.mpr ⟨_, he, ?_⟩
        simp only [Entry.asks, decide_eq_true_eq, Option.any_eq_true]
        exact ⟨trivial, c, hc, hbit⟩
    rw [hasked] at hslot
    cases hslot
  · intro h
    have hasked := h.asked_eq_nil
    constructor
    · exact h.pipe
    · rw [hasked]
      exact fun _ hslot => absurd hslot List.not_mem_nil
    · intro scheduler task
      rw [hasked]
      rfl
    · rw [hasked]
      rfl

/-! ## An iteration does nothing with the entries -/

/-- The waiting loop leaves the outer `rt` alone. -/
theorem waitLoop_rt {rt rt' : Int} {polls : List Poll} {events : List Entry}
    (h : waitLoop rt polls = some (rt', events)) : rt' = rt := by
  induction polls with
  | nil => cases h
  | cons poll polls ih =>
    simp only [waitLoop] at h
    split at h
    · exact ih h
    · cases h
      rfl

theorem idleIteration_eq {s before after : IdleState} {polls : List Poll} {now : Int} {probe : Nat}
    {others : IdleState → IdleState}
    (h : idleIteration s polls now probe others = some (before, after)) : after = before := by
  obtain ⟨⟨rt, events⟩, hwait, hrest⟩ := Option.bind_eq_some_iff.mp h
  obtain ⟨after', hall, hret⟩ := Option.bind_eq_some_iff.mp hrest
  cases hret
  -- the loop over the entries stops at the outer `rt`, which is 0
  rw [waitLoop_rt hwait] at hall
  cases hall
  rfl

/-- In every iteration, after any number of interrupted waits and any result of
the last one, what was reported is delivered exactly when it asks for nothing. -/
theorem idle_delivers_iff {s before after : IdleState} {polls : List Poll} {now : Int} {probe : Nat}
    {others : IdleState → IdleState}
    (h : idleIteration s polls now probe others = some (before, after)) :
    Delivered before after (reported polls) ↔ Vacuous before (reported polls) := by
  rw [idleIteration_eq h]
  exact delivered_self_iff before (reported polls)

/-- A manager on which fiber 1 waits to read from descriptor 6. -/
def oneReader : IdleState where
  io := (((init 5 32).addEvent ⟨some 0, .made 1, .running⟩ 6 .read none true).map Prod.snd).getD
    (init 5 32)
  timers := .init 0
  tasks := fun _ => []
  self := 0
  pipe := 0

/-- An interrupted wait, then a report for a descriptor without registrations and
one of an event that nobody registered. -/
def unaskedPolls : List Poll :=
  [⟨-1, true, []⟩, ⟨2, false, [.context 7 epollIn true, .context 6 epollOut true]⟩]

theorem idle_delivers_iff_unaskedPolls :
    ∃ before after, idleIteration oneReader unaskedPolls 0 0 id = some (before, after) ∧
      Delivered before after (reported unaskedPolls) := by
  refine ⟨_, _, rfl, (idle_delivers_iff rfl).mpr ⟨by decide, fun fd mask granted he c hc => ?_⟩⟩
  have hentries : (fd = 7 ∧ mask = epollIn ∧ granted = true) ∨
      (fd = 6 ∧ mask = epollOut ∧ granted = true) := by
    simp only [reported, unaskedPolls] at he
    simpa using he
  rcases hentries with ⟨rfl, rfl, rfl⟩ | ⟨rfl, rfl, rfl⟩ <;> cases hc <;> decide

/-- Descriptor 6 is reported readable; its reader stays registered and is not scheduled. -/
theorem not_delivered_oneReader :
    ¬ ∀ s polls now probe others before after,
      idleIteration s polls now probe others = some (before, after) →
      Delivered before after (reported polls) := by
  intro hall
  have h := hall oneReader [⟨1, false, [.context 6 epollIn true]⟩] 0 0 id _ _ rfl
  have hcleared := h.cleared (6, .read) (by decide)
  revert hcleared
  decide

end IOManager
