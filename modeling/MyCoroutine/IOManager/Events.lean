-- SUMMARY: The event table of IOManager: FdContext, epoll_ctl, and addEvent, delEvent, cancelEvent, cancalAll and idle's handling of one entry.
import MyCoroutine.Lib.Counting
import MyCoroutine.Scheduler.Task

/-! # The event table of IOManager

Each operation is one function from the manager to its result and the manager
after it. `none` stands for a run that ends there: a failed assertion, or an
access outside `m_fdContexts`. Every `epoll_ctl` call takes the answer of the
kernel as an argument. The tasks that `triggerEvent` hands to a scheduler are
returned, in order. -/

/-- A `Scheduler *`. -/
abbrev SchedulerId := Nat

/-! ## epoll -/

/-- An `events` mask. -/
abbrev Mask := BitVec 32

def epollIn : Mask := 0x001
def epollOut : Mask := 0x004
def epollErr : Mask := 0x008
def epollHup : Mask := 0x010
def epollEt : Mask := 0x80000000

inductive EpollOp where
  | add
  | mod
  | del
  deriving DecidableEq

/-- `epoll_ctl` on the interest set of `m_epfd`. It fails when the kernel does
not grant it, when `ADD` meets a registered descriptor, and when `MOD` or `DEL`
meets one that is not. -/
def epollCtl (interest : Nat → Option Mask) (op : EpollOp) (fd : Nat) (mask : Mask)
    (granted : Bool) : Option (Nat → Option Mask) :=
  if granted then
    match op, interest fd with
    | .add, none => some (Function.update interest fd (some mask))
    | .mod, some _ => some (Function.update interest fd (some mask))
    | .del, some _ => some (Function.update interest fd none)
    | .add, some _ | .mod, none | .del, none => none
  else none

namespace IOManager

/-! ## Data -/

/-- `IOManager::Event`. -/
inductive Event where
  | none
  | read
  | write
  deriving DecidableEq, Repr

def Event.bits : Event → Mask
  | .none => 0x0
  | .read => 0x1
  | .write => 0x4

/-- `FdContext::EventContext`. -/
structure EventContext where
  scheduler : Option SchedulerId
  fiber : Option FiberId
  cb : Option CbId
  deriving DecidableEq

/-- An `EventContext` without a continuation. -/
def EventContext.empty : EventContext where
  scheduler := none
  fiber := none
  cb := none

structure FdContext where
  read : EventContext
  write : EventContext
  fd : Nat
  events : Mask
  deriving DecidableEq

/-- One call of `schedule` in `triggerEvent`: on which scheduler, with what, and
for which event of which descriptor. -/
structure Trigger where
  fd : Nat
  event : Event
  scheduler : SchedulerId
  fiber : Option FiberId
  cb : Option CbId
  deriving DecidableEq

/-- The task it pushes. -/
def Trigger.task {τ : Type} (t : Trigger) : ScheduleTask τ :=
  if t.cb.isSome then .ofCb t.cb none else .ofFiber t.fiber none

namespace FdContext

def new (fd : Nat) : FdContext where
  read := .empty
  write := .empty
  fd := fd
  events := 0

/-- `getEventContext`; any other event fails the assertion. -/
def getEventContext (c : FdContext) : Event → Option EventContext
  | .read => some c.read
  | .write => some c.write
  | .none => none

@[simp] theorem getEventContext_events (c : FdContext) (events : Mask) (event : Event) :
    { c with events := events }.getEventContext event = c.getEventContext event := by
  cases event <;> rfl

/-- An assignment through the reference that `getEventContext` returns. -/
def setEventContext (c : FdContext) (event : Event) (ctx : EventContext) : FdContext :=
  match event with
  | .read => { c with read := ctx }
  | .write => { c with write := ctx }
  | .none => c

/-- `resetEventContext`. -/
def resetEventContext (c : FdContext) (event : Event) : FdContext :=
  c.setEventContext event .empty

/-- `triggerEvent`. -/
def triggerEvent (c : FdContext) (event : Event) : Option (Trigger × FdContext) := do
  if c.events &&& event.bits = 0 then none
  else
    let c := { c with events := c.events &&& ~~~event.bits }
    let ctx ← c.getEventContext event
    let scheduler ← ctx.scheduler
    let trigger : Trigger :=
      if ctx.cb.isSome then
        { fd := c.fd, event := event, scheduler := scheduler, fiber := none, cb := ctx.cb }
      else
        { fd := c.fd, event := event, scheduler := scheduler, fiber := ctx.fiber, cb := none }
    return (trigger, c.resetEventContext event)

end FdContext

/-- The thread that calls `addEvent`: its `Scheduler::GetThis()`, and its
`Fiber::GetThis()` with the state of that fiber. -/
structure Caller where
  scheduler : Option SchedulerId
  fiber : FiberId
  state : Fiber.State
  deriving DecidableEq

end IOManager

/-- The part of an `IOManager` that deals with events, and the interest set of
its epoll instance. -/
structure IOManager where
  /-- `m_tickleFds[0]`. -/
  tickleFd : Nat
  pendingEventCount : Nat
  fdContexts : List IOManager.FdContext
  /-- What the kernel watches, by descriptor. -/
  interest : Nat → Option Mask

namespace IOManager

/-- `contextResize`. -/
def contextResize (m : IOManager) (size : Nat) : IOManager :=
  { m with fdContexts := (List.range size).map fun i => (m.fdContexts[i]?).getD (.new i) }

/-- The constructor, with a table of any size. -/
def init (tickleFd size : Nat) : IOManager :=
  contextResize
    { tickleFd := tickleFd
      pendingEventCount := 0
      fdContexts := []
      interest := Function.update (fun _ => none) tickleFd (some (epollIn ||| epollEt)) }
    size

/-- The `FdContext` of `fd` after a change to it. -/
def setContext (m : IOManager) (fd : Nat) (c : FdContext) : IOManager :=
  { m with fdContexts := m.fdContexts.set fd c }

@[simp] theorem setContext_pendingEventCount (m : IOManager) (fd : Nat) (c : FdContext) :
    (m.setContext fd c).pendingEventCount = m.pendingEventCount := rfl
@[simp] theorem setContext_interest (m : IOManager) (fd : Nat) (c : FdContext) :
    (m.setContext fd c).interest = m.interest := rfl
@[simp] theorem setContext_tickleFd (m : IOManager) (fd : Nat) (c : FdContext) :
    (m.setContext fd c).tickleFd = m.tickleFd := rfl

/-- `fd_ctx->triggerEvent(event); --m_pendingEventCount;`. -/
def trigger (m : IOManager) (fd : Nat) (event : Event) : Option (List Trigger × IOManager) := do
  let c ← m.fdContexts[fd]?
  let (t, c) ← c.triggerEvent event
  let m := m.setContext fd c
  return ([t], { m with pendingEventCount := Counting.pred64 m.pendingEventCount })

/-! ## Operations -/

/-- `addEvent`, which returns 0 or -1. -/
def addEvent (m : IOManager) (caller : Caller) (fd : Nat) (event : Event) (cb : Option CbId)
    (granted : Bool) : Option (Int × IOManager) := do
  -- a descriptor beyond the table resizes it to `fd + fd > 1`, a truth value
  let m := if Counting.intOfSize m.fdContexts.length > fd then m
    else m.contextResize (if fd + fd > 1 then 1 else 0)
  let c ← m.fdContexts[fd]?
  if c.events &&& event.bits ≠ 0 then none
  else
    let op := if c.events ≠ 0 then EpollOp.mod else EpollOp.add
    match epollCtl m.interest op fd (epollEt ||| c.events ||| event.bits) granted with
    | none => return (-1, m)
    | some interest =>
      let m := { m with interest := interest, pendingEventCount := m.pendingEventCount + 1 }
      let c := { c with events := c.events ||| event.bits }
      let ctx ← c.getEventContext event
      if ctx.scheduler.isSome ∨ ctx.fiber.isSome ∨ ctx.cb.isSome then none
      else
        let ctx := { ctx with scheduler := caller.scheduler }
        if cb.isSome then
          return (0, m.setContext fd (c.setEventContext event { ctx with cb := cb }))
        else if caller.state = .running then
          let ctx := { ctx with fiber := some caller.fiber }
          return (0, m.setContext fd (c.setEventContext event ctx))
        else none

/-- `delEvent`. -/
def delEvent (m : IOManager) (fd : Nat) (event : Event) (granted : Bool) :
    Option (Bool × IOManager) := do
  if m.fdContexts.length ≤ fd then return (false, m)
  else
    let c ← m.fdContexts[fd]?
    if c.events &&& event.bits = 0 then return (false, m)
    else
      let newEvents := c.events &&& ~~~event.bits
      let op := if newEvents ≠ 0 then EpollOp.mod else EpollOp.del
      match epollCtl m.interest op fd (epollEt ||| newEvents) granted with
      | none => return (false, m)
      | some interest =>
        let m := { m with
          interest := interest
          pendingEventCount := Counting.pred64 m.pendingEventCount }
        let c := { c with events := newEvents }
        let _ ← c.getEventContext event
        return (true, m.setContext fd (c.resetEventContext event))

/-- `cancelEvent`. -/
def cancelEvent (m : IOManager) (fd : Nat) (event : Event) (granted : Bool) :
    Option (Bool × List Trigger × IOManager) := do
  if m.fdContexts.length ≤ fd then return (false, [], m)
  else
    let c ← m.fdContexts[fd]?
    if c.events &&& event.bits = 0 then return (false, [], m)
    else
      let newEvents := c.events &&& ~~~event.bits
      let op := if newEvents ≠ 0 then EpollOp.mod else EpollOp.del
      match epollCtl m.interest op fd (epollEt ||| newEvents) granted with
      | none => return (false, [], m)
      | some interest =>
        let r ← { m with interest := interest }.trigger fd event
        return (true, r)

/-- `if(mask & event) { triggerEvent(event); --m_pendingEventCount; }`. -/
def triggerIf (m : IOManager) (fd : Nat) (mask : Mask) (event : Event) :
    Option (List Trigger × IOManager) :=
  if mask &&& event.bits ≠ 0 then m.trigger fd event else some ([], m)

/-- `cancalAll`. The second test reads the mask that the first trigger left. -/
def cancalAll (m : IOManager) (fd : Nat) (granted : Bool) :
    Option (Bool × List Trigger × IOManager) := do
  if m.fdContexts.length ≤ fd then return (false, [], m)
  else
    let c ← m.fdContexts[fd]?
    if c.events = 0 then return (false, [], m)
    else
      match epollCtl m.interest .del fd 0 granted with
      | none => return (false, [], m)
      | some interest =>
        let (t₁, m) ← { m with interest := interest }.triggerIf fd c.events .read
        let c ← m.fdContexts[fd]?
        let (t₂, m) ← m.triggerIf fd c.events .write
        let c ← m.fdContexts[fd]?
        if c.events = 0 then return (true, t₁ ++ t₂, m) else none

/-- `real_events` of an entry reported with `mask` for a descriptor registered
with `events`: an error or a hang-up counts as every registered event. -/
def realEvents (events mask : Mask) : Mask :=
  let mask := if mask &&& (epollErr ||| epollHup) ≠ 0 then
      mask ||| ((epollIn ||| epollOut) &&& events)
    else mask
  (if mask &&& epollIn ≠ 0 then Event.read.bits else 0) |||
    (if mask &&& epollOut ≠ 0 then Event.write.bits else 0)

/-- The body of idle's loop over the entries, for an entry of the `FdContext` of
`fd`. A refused `epoll_ctl` fails its assertion. -/
def idleEntry (m : IOManager) (fd : Nat) (mask : Mask) (granted : Bool) :
    Option (List Trigger × IOManager) := do
  let c ← m.fdContexts[fd]?
  let real := realEvents c.events mask
  if c.events &&& real = 0 then return ([], m)
  else
    let leftEvents := c.events &&& ~~~real
    let op := if leftEvents ≠ 0 then EpollOp.mod else EpollOp.del
    let interest ← epollCtl m.interest op c.fd (epollEt ||| leftEvents) granted
    let (t₁, m) ← { m with interest := interest }.triggerIf fd real .read
    let (t₂, m) ← m.triggerIf fd real .write
    return (t₁ ++ t₂, m)

end IOManager
