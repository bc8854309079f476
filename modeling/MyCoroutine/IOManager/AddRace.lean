-- SUMMARY: addEvent step by step beside the other operations on its descriptor, and when some order of whole operations explains the result.
import MyCoroutine.IOManager.Runs
import MyCoroutine.Lib.Serial

/-! # addEvent without the lock

Every operation on an `FdContext` takes its `mtx`, but `addEvent` does not. Here it
takes its five steps on one descriptor one at a time: it reads `events`, calls
`epoll_ctl`, counts, writes `events`, and fills the `EventContext`. Between them come
the steps of an `addEvent` for the other event, and whole calls of the operations that
take the lock. -/

namespace AddRace

open Counting OneShot
open IOManager (Call Caller Event EventContext FdContext Outcome Registration Registry Represents
  contextOf realEvents)

/-! ## Data -/

/-- How far an `addEvent` has come. -/
inductive Stage where
  /-- It has read `events`. -/
  | read (events : Mask)
  /-- Its `epoll_ctl` has succeeded. -/
  | watched
  /-- `++m_pendingEventCount`. -/
  | counted
  /-- It has written `events`. -/
  | written
  deriving DecidableEq

/-- An `addEvent` with its arguments. -/
structure Adding where
  caller : Caller
  event : Event
  cb : Option CbId
  stage : Stage

/-- A finished call: the answer of the kernel to its `epoll_ctl`, what it returned and pushed. -/
structure Record where
  call : Call
  granted : Bool
  out : Outcome
  deriving DecidableEq

structure State where
  io : IOManager
  /-- The `addEvent` under way for an event. -/
  adds : Event → Option Adding
  /-- The calls that have returned, in this order. -/
  done : List Record
  /-- A handler has met a set bit with an empty `EventContext`. -/
  blank : Bool
  /-- A handler has skipped an event that the kernel was told to watch and reported. -/
  dropped : Bool
  /-- The call that has ended the run, by a failed assertion or an access outside the table. -/
  stopped : Option (Call × Bool)

inductive Label where
  | read (caller : Caller) (event : Event) (cb : Option CbId)
  | ctl (event : Event) (granted : Bool)
  | count (event : Event)
  | write (event : Event)
  | fill (event : Event)
  /-- An operation under `mtx`. -/
  | handle (call : Call) (granted : Bool)

/-- The events a descriptor has. -/
def events : List Event :=
  [.read, .write]

theorem mem_events {e : Event} : e ∈ events ↔ e ≠ .none := by
  cases e <;> simp [events]

def Adding.call (fd : Nat) (x : Adding) : Call :=
  .addEvent x.caller fd x.event x.cb

/-! ## The steps of addEvent -/

section

variable (fd : Nat) (s : State)

/-- On a worker, from the fiber that it runs; one call at a time for each event. -/
def readEvents (caller : Caller) (event : Event) (cb : Option CbId) : Option State :=
  let s' := { s with stopped := some (.addEvent caller fd event cb, false) }
  if event = .none ∨ (s.adds event).isSome ∨ caller.scheduler = none ∨ caller.state ≠ .running then
    none
  else if intOfSize s.io.fdContexts.length > fd then do
    let c ← s.io.fdContexts[fd]?
    if c.events &&& event.bits ≠ 0 then return s'
    else return { s with
      adds := Function.update s.adds event (some ⟨caller, event, cb, .read c.events⟩) }
  -- the table is made smaller, and its access fails
  else return s'

def epollCtlStep (event : Event) (granted : Bool) : Option State := do
  let x ← s.adds event
  match x.stage with
  | .read events =>
    let op := if events ≠ 0 then EpollOp.mod else EpollOp.add
    match epollCtl s.io.interest op fd (epollEt ||| events ||| event.bits) granted with
    | none => return { s with
        adds := Function.update s.adds event none
        done := s.done ++ [⟨x.call fd, granted, ⟨false, []⟩⟩] }
    | some interest => return { s with
        io := { s.io with interest := interest }
        adds := Function.update s.adds event (some { x with stage := .watched }) }
  | _ => none

def count (event : Event) : Option State := do
  let x ← s.adds event
  if x.stage = .watched then
    return { s with
      io := { s.io with pendingEventCount := s.io.pendingEventCount + 1 }
      adds := Function.update s.adds event (some { x with stage := .counted }) }
  else none

/-- `fd_ctx->events | event`, and its assignment. -/
def writeEvents (event : Event) : Option State := do
  let x ← s.adds event
  if x.stage = .counted then
    let c ← s.io.fdContexts[fd]?
    return { s with
      io := s.io.setContext fd { c with events := c.events ||| event.bits }
      adds := Function.update s.adds event (some { x with stage := .written }) }
  else none

def fillContext (event : Event) : Option State := do
  let x ← s.adds event
  if x.stage = .written then
    let c ← s.io.fdContexts[fd]?
    let ctx ← c.getEventContext event
    if ctx.scheduler.isSome ∨ ctx.fiber.isSome ∨ ctx.cb.isSome then
      return { s with stopped := some (x.call fd, true) }
    else
      let ctx := { ctx with scheduler := x.caller.scheduler }
      let ctx ←
        if x.cb.isSome then some { ctx with cb := x.cb }
        else if x.caller.state = .running then some { ctx with fiber := some x.caller.fiber }
        else none
      return { s with
        io := s.io.setContext fd (c.setEventContext event ctx)
        adds := Function.update s.adds event none
        done := s.done ++ [⟨x.call fd, true, ⟨true, []⟩⟩] }
  else none

/-! ## The operations under the lock -/

/-- The events that an operation looks for in `events`. -/
def looksFor (events : Mask) : Call → Mask
  | .addEvent _ _ _ _ => 0
  | .delEvent _ event | .cancelEvent _ event => event.bits
  | .cancalAll _ => events
  | .idleEntry _ mask => realEvents events mask

/-- The events of an entry that `epoll_wait` has reported, of those that are watched. -/
def reports (watched : Mask) : Call → Mask
  | .idleEntry _ mask => realEvents watched mask &&& watched
  | _ => 0

/-- An operation on `fd` that takes the lock. -/
def Locks (call : Call) : Prop :=
  call.fd = fd ∧ ∀ caller fd event cb, call ≠ .addEvent caller fd event cb

instance (call : Call) : Decidable (Locks fd call) :=
  match call with
  | .addEvent caller fd event cb => .isFalse fun h => h.2 caller fd event cb rfl
  | .delEvent fd' _ | .cancelEvent fd' _ | .cancalAll fd' | .idleEntry fd' _ =>
    decidable_of_iff (fd' = fd) ⟨fun h => ⟨h, nofun⟩, fun h => h.1⟩

/-- It ends an event whose bit is set and whose `EventContext` is empty. -/
def meetsBlank (call : Call) (granted : Bool) : Bool :=
  granted && (s.io.fdContexts[fd]?).any fun c => events.any fun e =>
    c.events &&& looksFor c.events call &&& e.bits ≠ 0 ∧ c.getEventContext e = some .empty

def reported (call : Call) (e : Event) : Bool :=
  (s.io.interest fd).any fun watched => reports watched call &&& e.bits ≠ 0

/-- It skips an event that the kernel was told to watch and has reported. -/
def drops (call : Call) : Bool :=
  (s.io.fdContexts[fd]?).any fun c => events.any fun e =>
    reported fd s call e ∧ c.events &&& e.bits = 0

def handle (call : Call) (granted : Bool) : Option State :=
  if Locks fd call then
    let s' := { s with
      blank := s.blank || meetsBlank fd s call granted
      dropped := s.dropped || drops fd s call }
    match s.io.perform call granted with
    | some (out, io) => some { s' with io := io, done := s.done ++ [⟨call, granted, out⟩] }
    | none => some { s' with stopped := some (call, granted) }
  else none

/-! ## The system -/

def step (label : Label) : Option State :=
  if s.stopped.isSome then none
  else
    match label with
    | .read caller event cb => readEvents fd s caller event cb
    | .ctl event granted => epollCtlStep fd s event granted
    | .count event => count s event
    | .write event => writeEvents fd s event
    | .fill event => fillContext fd s event
    | .handle call granted => handle fd s call granted

/-- No call is under way, and `fd` is not the pipe of the constructor. -/
structure Initial : Prop where
  io : ∃ R, Represents R s.io
  tickleFd : fd ≠ s.io.tickleFd
  adds : ∀ e, s.adds e = none
  done : s.done = []
  blank : s.blank = false
  dropped : s.dropped = false
  stopped : s.stopped = none

def system : TransitionSystem State Label where
  init := Initial fd
  step := step fd

end

/-! ## The property -/

/-- The call, taken whole. -/
def Whole (m : IOManager) (r : Record) (m' : IOManager) : Prop :=
  m.perform r.call r.granted = some (r.out, m')

/-- An `addEvent` for an event of `fd`. -/
def Record.Adds (fd : Nat) (r : Record) (e : Event) : Prop :=
  ∃ caller cb, r.call = .addEvent caller fd e cb

/-- When nothing is under way, some order of the calls explains what each of them returned,
and the table. Every `addEvent` that the kernel granted has succeeded, and its event is
registered unless another operation came. No handler met an empty context or lost a report,
and a call that ended the run ends it in some order as well. -/
structure Explained (fd : Nat) (start : IOManager) (s : State) : Prop where
  serial : (∀ e, s.adds e = none) → Serially Whole start s.done s.io
  succeeds : ∀ r ∈ s.done, ∀ e, r.Adds fd e → r.granted = true → r.out.ok = true
  registered : (∀ e, s.adds e = none) → (∀ r ∈ s.done, ∃ e, r.Adds fd e) →
    ∀ r ∈ s.done, ∀ e, r.Adds fd e → r.granted = true → s.io.registered (fd, e) = true
  blank : s.blank = false
  dropped : s.dropped = false
  stopped : ∀ call granted, s.stopped = some (call, granted) →
    ∃ l m, (∀ r ∈ l, ∃ e x, s.adds e = some x ∧ r.call = x.call fd) ∧
      Serially Whole start (s.done ++ l) m ∧ m.perform call granted = none

/-! ## The condition -/

/-- Between its `epoll_ctl` and its write of `events`. -/
def Adding.unseen (x : Adding) : Bool :=
  x.stage = .watched ∨ x.stage = .counted

def State.unseen (s : State) (e : Event) : Bool :=
  (s.adds e).any Adding.unseen

/-- The bit is written, the context is not filled. -/
def State.unfilled (s : State) (e : Event) : Bool :=
  (s.adds e).any fun x => x.stage = .written

/-- What an operation under the lock may meet. While an `addEvent` is between its `epoll_ctl`
and its write, it ends no event of `fd`, and the event that is being added is not reported.
Until the context is filled, it does not end that event. -/
def mayMeet (fd : Nat) (s : State) (call : Call) (granted : Bool) : Prop :=
  ∀ c ∈ s.io.fdContexts[fd]?, ∀ e ∈ events,
    (s.unseen e = true → (granted = true → c.events &&& looksFor c.events call = 0) ∧
        reported fd s call e = false) ∧
      (s.unfilled e = true → granted = true → looksFor c.events call &&& e.bits = 0)

/-- An `epoll_ctl` of `addEvent` that the kernel grants finds `events` as it was read, and no
other `addEvent` between its `epoll_ctl` and its write. -/
def apart (fd : Nat) (s : State) : Label → Prop
  | .ctl event granted => granted = true →
    (∀ x ∈ s.adds event, ∀ c ∈ s.io.fdContexts[fd]?, x.stage = .read c.events) ∧
      ∀ e ∈ events, s.unseen e = false
  | .handle call granted => mayMeet fd s call granted
  | _ => True

instance (fd : Nat) (s : State) (call : Call) (granted : Bool) :
    Decidable (mayMeet fd s call granted) :=
  inferInstanceAs (Decidable (∀ c ∈ s.io.fdContexts[fd]?, ∀ e ∈ events,
    (s.unseen e = true → (granted = true → c.events &&& looksFor c.events call = 0) ∧
        reported fd s call e = false) ∧
      (s.unfilled e = true → granted = true → looksFor c.events call &&& e.bits = 0)))

instance (fd : Nat) (s : State) : DecidablePred (apart fd s)
  | .ctl event granted => inferInstanceAs (Decidable (granted = true →
      (∀ x ∈ s.adds event, ∀ c ∈ s.io.fdContexts[fd]?, x.stage = .read c.events) ∧
        ∀ e ∈ events, s.unseen e = false))
  | .handle call granted => inferInstanceAs (Decidable (mayMeet fd s call granted))
  | .read _ _ _ | .count _ | .write _ | .fill _ => .isTrue trivial

end AddRace
