-- SUMMARY: do_io and connect_with_timeout as a transition system: the waiting fiber, its timer callbacks on other workers, and everyone else.
import MyCoroutine.IOManager.Runs
import MyCoroutine.Timer

/-! # Waiting for a descriptor

The system is one call of `do_io` or `connect_with_timeout` on a socket whose
user did not ask for non-blocking mode, from the first underlying call on. Its
fiber moves from one program point to the next. Beside it, workers collect
expired timers, schedule the callbacks and run them, each a step at a time;
other code calls the timer manager and the event table whenever it likes. The
timer manager and the event table are the real ones, with all their timers and
registrations.

The underlying calls that met `EAGAIN` (or `EINPROGRESS`) number the waits of
the call, and the callback of a timer carries the number of its wait. No step
reads these numbers. The lambdas of the source differ in nothing: they share one
`timer_info`. -/

namespace DoIo

open IOManager (Event Registration)

/-! ## errno -/

def eintr : Int := 4
def eagain : Int := 11
def etimedout : Int := 110
def einprogress : Int := 115

/-! ## Data -/

/-- Which function is running. -/
inductive Kind where
  | doIo
  | connectWithTimeout
  deriving DecidableEq

/-- What the call works on. -/
structure Config where
  kind : Kind
  fd : Nat
  event : Event
  /-- `to`, or `timeout_ms`; -1 is no timeout. -/
  timeout : Int
  scheduler : SchedulerId
  /-- The fiber that makes the call. -/
  fiber : FiberId

/-- The next thing the fiber does. -/
inductive Pc where
  /-- The underlying call. -/
  | call
  /-- `addConditionTimer`, if there is a timeout. -/
  | arm
  /-- `addEvent`. -/
  | register
  /-- `yield`, after `addEvent` returned 0. -/
  | registered
  /-- It has yielded. -/
  | parked
  /-- It was resumed; `timer->cancel()`. -/
  | woken
  /-- `addEvent` returned -1 and left `errno`; `timer->cancel()`. -/
  | failed (errno : Int)
  /-- The test of `tinfo->cancelled`. -/
  | check
  /-- `getsockopt(SO_ERROR)`. -/
  | soError
  /-- It has returned `ret`, with `errno`. -/
  | done (ret errno : Int)
  deriving DecidableEq

/-- The call has returned. -/
def Pc.isDone : Pc → Bool
  | .done _ _ => true
  | _ => false

/-- A callback in the timer manager: the one of this call's timer for a wait, or
somebody else's. -/
inductive Callback where
  | timeout (wait : Nat)
  | other (n : Nat)
  deriving DecidableEq

/-- The wait whose timer the callback belongs to. -/
def Callback.wait : Callback → Option Nat
  | .timeout w => some w
  | .other _ => none

/-- Where a callback of this call is, once its timer has expired. -/
inductive Stage where
  /-- In `cbs` of the worker that called `listExpiredCb`. -/
  | extracted
  /-- In the task queue. -/
  | queued
  /-- A worker runs it: `lock()`, in `OnTimer` and again in the lambda. -/
  | lock
  /-- `t->cancelled` is tested. -/
  | test
  /-- `t->cancelled = ETIMEDOUT`. -/
  | store
  /-- `iom->cancelEvent`. -/
  | cancel
  deriving DecidableEq

structure Flight where
  wait : Nat
  stage : Stage
  deriving DecidableEq

structure State where
  pc : Pc
  timers : TimerManager Callback
  io : IOManager
  /-- `timer` of the current pass, by its address. -/
  timer : Option Nat
  /-- `tinfo->cancelled`. -/
  cancelled : Int
  /-- The callbacks of this call between their expiry and their end. -/
  flights : List Flight
  /-- The entries of the fiber in a task queue. -/
  queued : Nat
  /-- The clock that `getNow` reads. -/
  clock : Int
  /-- The number of waits so far. -/
  wait : Nat
  /-- The reading of the clock when the underlying call last met `EAGAIN`. -/
  eagainAt : Int
  /-- The waits whose timer has expired. No step reads it. -/
  emitted : List Nat

/-- A step of the fiber, of a worker, or of somebody else. -/
inductive Label where
  /-- The underlying call returns `n`, with `errno`. -/
  | call (n errno : Int)
  /-- The timer is constructed at address `a`; its constructor read `now`. -/
  | arm (a : Nat) (now : Int)
  /-- `addEvent`; `errno` is what it leaves when it fails. -/
  | register (granted : Bool) (errno : Int)
  | yield
  | resume
  | cancelTimer
  | check
  /-- `getsockopt` reports an error (0 for none), or fails and leaves `errno`. -/
  | soError (error : Option Int) (errno : Int)
  /-- `listExpiredCb`, which read `now` before it took the lock. -/
  | expire (now : Int) (probe : Nat)
  /-- The next step of the `i`th callback. -/
  | callback (i : Nat) (granted : Bool)
  | tick (d : Nat)
  /-- Somebody else calls the timer manager. -/
  | timerCall (call : TimerManager.Call Callback) (now : Int)
  /-- Somebody else calls the event table. -/
  | eventCall (call : IOManager.Call) (granted : Bool)
  deriving DecidableEq

/-! ## Steps of the fiber -/

namespace Config

variable (c : Config)

/-- The slot the call waits on. -/
def slot : IOManager.Slot :=
  (c.fd, c.event)

/-- What its `addEvent` registers. -/
def registration : Registration :=
  ⟨c.scheduler, .fiber c.fiber⟩

/-- `addEvent(fd, event)`, with the running fiber as the continuation. -/
def addEvent : IOManager.Call :=
  .addEvent ⟨some c.scheduler, c.fiber, .running⟩ c.fd c.event none

/-- `cancelEvent(fd, event)`. -/
def cancelEvent : IOManager.Call :=
  .cancelEvent c.fd c.event

/-- How many of the pushes put the fiber into a queue. -/
def wakes (triggers : List IOManager.Trigger) : Nat :=
  triggers.countP fun t => t.fiber = some c.fiber

/-- The underlying call returned `n` with `errno`. -/
def callReturned (s : State) (n errno : Int) : State :=
  match c.kind with
  | .doIo =>
    if n = -1 ∧ errno = eintr then s
    -- `Timer::ptr timer` is declared anew in every pass, `tinfo` is not
    else if n = -1 ∧ errno = eagain then
      { s with pc := .arm, timer := none, wait := s.wait + 1, eagainAt := s.clock }
    else { s with pc := .done n errno }
  | .connectWithTimeout =>
    if n = -1 ∧ errno = einprogress then
      { s with pc := .arm, timer := none, wait := s.wait + 1, eagainAt := s.clock }
    else { s with pc := .done n errno }

def armTimer (s : State) (a : Nat) (now : Int) : Option State :=
  if c.timeout = -1 then some { s with pc := .register }
  else if s.eagainAt ≤ now ∧ now ≤ s.clock then
    (s.timers.addTimer a now c.timeout (some (.timeout s.wait)) false).map fun r =>
      { s with pc := .register, timers := r.2, timer := some a }
  else none

def register (s : State) (granted : Bool) (errno : Int) : Option State :=
  (s.io.perform c.addEvent granted).map fun r =>
    { s with pc := if r.1.ok then .registered else .failed errno, io := r.2 }

/-- `if(timer) timer->cancel();`. -/
def cancelTimer (s : State) : Option State :=
  match s.timer with
  | none => some s
  | some a => (s.timers.cancel a).map fun r => { s with timers := r.2 }

/-- After the `cancel` that follows a failed `addEvent`. -/
def afterFailed (s : State) (errno : Int) : State :=
  match c.kind with
  | .doIo => { s with pc := .done (-1) errno }
  | .connectWithTimeout => { s with pc := .soError }

/-- `if(tinfo->cancelled) { errno = tinfo->cancelled; return -1; }`, and what follows it. -/
def checkCancelled (s : State) : State :=
  if s.cancelled ≠ 0 then { s with pc := .done (-1) s.cancelled }
  else
    match c.kind with
    | .doIo => { s with pc := .call }
    | .connectWithTimeout => { s with pc := .soError }

/-- `getsockopt(SO_ERROR)` and the two returns after it. -/
def soErrorReturned (s : State) (error : Option Int) (errno : Int) : State :=
  match error with
  | none => { s with pc := .done (-1) errno }
  | some error =>
    if error = 0 then { s with pc := .done 0 errno } else { s with pc := .done (-1) error }

/-! ## Steps of the workers and of the others -/

/-- `listExpiredCb`. Of what it collects, the callbacks of this call are kept track of. -/
def expire (s : State) (now : Int) (probe : Nat) : State :=
  let r := s.timers.listExpiredCb now probe
  let waits := r.1.filterMap fun cb => cb.bind Callback.wait
  { s with
    timers := r.2
    flights := s.flights ++ waits.map fun w => ⟨w, .extracted⟩
    emitted := s.emitted ++ waits }

/-- `tinfo` exists: the call has not returned, or a callback has locked it. -/
def infoAlive (s : State) : Bool :=
  !s.pc.isDone || s.flights.any fun f => f.stage = .test ∨ f.stage = .store ∨ f.stage = .cancel

/-- The callback number `i` goes on. -/
def runCallback (s : State) (i : Nat) (granted : Bool) : Option State :=
  match s.flights[i]? with
  | none => none
  | some f =>
    let goOn (stage : Stage) : State := { s with flights := s.flights.set i ⟨f.wait, stage⟩ }
    let endIt : State := { s with flights := s.flights.eraseIdx i }
    match f.stage with
    | .extracted => some (goOn .queued)
    | .queued => some (goOn .lock)
    -- `OnTimer` and the lambda find `tinfo` destroyed once the call has returned
    | .lock => some (if infoAlive s then goOn .test else endIt)
    | .test => some (if s.cancelled ≠ 0 then endIt else goOn .store)
    | .store => some { goOn .cancel with cancelled := etimedout }
    | .cancel =>
      (s.io.perform c.cancelEvent granted).map fun r =>
        { endIt with io := r.2, queued := s.queued + c.wakes r.1.triggers }

/-- A call that nobody but the fiber itself can make: on its timer, or with its callback. -/
def foreignTimer (s : State) : TimerManager.Call Callback → Bool
  | .addTimer _ _ cb _ => (cb.bind Callback.wait).isNone
  | .cancel a | .refresh a | .reset a _ _ => s.timer ≠ some a

/-- A call by another fiber, on a thread of a scheduler. -/
def foreignEvent : IOManager.Call → Bool
  | .addEvent caller _ _ _ => caller.scheduler.isSome ∧ caller.fiber ≠ c.fiber
  | _ => true

/-! ## The system -/

def step (s : State) (a : Label) : Option State :=
  match a, s.pc with
  | .call n errno, .call => some (c.callReturned s n errno)
  | .arm a now, .arm => c.armTimer s a now
  | .register granted errno, .register => c.register s granted errno
  | .yield, .registered => some { s with pc := .parked }
  -- a worker takes one of its entries out of a task queue
  | .resume, .parked =>
    if 0 < s.queued then some { s with pc := .woken, queued := s.queued - 1 } else none
  | .cancelTimer, .woken => (cancelTimer s).map fun s => { s with pc := .check }
  | .cancelTimer, .failed errno => (cancelTimer s).map fun s => c.afterFailed s errno
  | .check, .check => some (c.checkCancelled s)
  | .soError error errno, .soError => some (soErrorReturned s error errno)
  | .expire now probe, _ => if now ≤ s.clock then some (expire s now probe) else none
  | .callback i granted, _ => c.runCallback s i granted
  | .tick d, _ => some { s with clock := s.clock + d }
  | .timerCall call now, _ =>
    if foreignTimer s call then
      (s.timers.perform call now).map fun timers => { s with timers := timers }
    else none
  | .eventCall call granted, _ =>
    if c.foreignEvent call then
      (s.io.perform call granted).map fun r =>
        { s with io := r.2, queued := s.queued + c.wakes r.1.triggers }
    else none
  | _, _ => none

/-- The call is about to make the underlying call for the first time; `tinfo` is
new, and no timer of another call has one of its callbacks. -/
structure Initial (s : State) : Prop where
  pc : s.pc = .call
  io : ∃ R, IOManager.Represents R s.io
  callbacks : ∀ a t, s.timers.timer a = some t → t.cb.bind Callback.wait = none
  cancelled : s.cancelled = 0
  flights : s.flights = []
  emitted : s.emitted = []
  timer : s.timer = none

def system : TransitionSystem State Label where
  init := Initial
  step := c.step

/-! ## What a step can do -/

/-- The step relation, one constructor for each way a step can go. -/
inductive Step (c : Config) (s : State) : Label → State → Prop where
  | again (n errno : Int) (hpc : s.pc = .call) : Step c s (.call n errno) s
  | wait (n errno : Int) (hpc : s.pc = .call) :
      Step c s (.call n errno)
        { s with pc := .arm, timer := none, wait := s.wait + 1, eagainAt := s.clock }
  | returned (n errno : Int) (hpc : s.pc = .call) :
      Step c s (.call n errno) { s with pc := .done n errno }
  | skipTimer (a : Nat) (now : Int) (hpc : s.pc = .arm) (hto : c.timeout = -1) :
      Step c s (.arm a now) { s with pc := .register }
  | armed (a : Nat) (now : Int) (timers : TimerManager Callback) (hpc : s.pc = .arm)
      (hfrom : s.eagainAt ≤ now)
      (hadd : TimerManager.Adds a ⟨false, c.timeout, now + c.timeout, some (.timeout s.wait)⟩
        s.timers timers) :
      Step c s (.arm a now) { s with pc := .register, timers := timers, timer := some a }
  | registered (granted : Bool) (errno : Int) (out : IOManager.Outcome) (io : IOManager)
      (hpc : s.pc = .register) (hio : s.io.perform c.addEvent granted = some (out, io)) :
      Step c s (.register granted errno) { s with pc := .registered, io := io }
  | refused (granted : Bool) (errno : Int) (out : IOManager.Outcome) (io : IOManager)
      (hpc : s.pc = .register) (hio : s.io.perform c.addEvent granted = some (out, io)) :
      Step c s (.register granted errno) { s with pc := .failed errno, io := io }
  | yield (hpc : s.pc = .registered) : Step c s .yield { s with pc := .parked }
  | resume (hpc : s.pc = .parked) (hqueued : 0 < s.queued) :
      Step c s .resume { s with pc := .woken, queued := s.queued - 1 }
  | cancelTimer (t : State) (hpc : s.pc = .woken) (ht : Config.cancelTimer s = some t) :
      Step c s .cancelTimer { t with pc := .check }
  | giveUp (errno : Int) (t : State) (hpc : s.pc = .failed errno)
      (ht : Config.cancelTimer s = some t) : Step c s .cancelTimer (c.afterFailed t errno)
  | timedOut (hpc : s.pc = .check) (hcancelled : s.cancelled ≠ 0) :
      Step c s .check { s with pc := .done (-1) s.cancelled }
  | retry (hpc : s.pc = .check) (hcancelled : s.cancelled = 0) (hkind : c.kind = .doIo) :
      Step c s .check { s with pc := .call }
  | connected (hpc : s.pc = .check) (hkind : c.kind = .connectWithTimeout) :
      Step c s .check { s with pc := .soError }
  | soError (error : Option Int) (errno ret errno' : Int) (hpc : s.pc = .soError) :
      Step c s (.soError error errno) { s with pc := .done ret errno' }
  | expire (now : Int) (probe : Nat) (hnow : now ≤ s.clock) :
      Step c s (.expire now probe) (Config.expire s now probe)
  | callbackGoesOn (i : Nat) (granted : Bool) (f : Flight) (stage : Stage)
      (hf : s.flights[i]? = some f) :
      Step c s (.callback i granted) { s with flights := s.flights.set i ⟨f.wait, stage⟩ }
  | callbackEnds (i : Nat) (granted : Bool) (f : Flight) (hf : s.flights[i]? = some f)
      (hwhy : (f.stage = .lock ∧ infoAlive s = false) ∨ (f.stage = .test ∧ s.cancelled ≠ 0)) :
      Step c s (.callback i granted) { s with flights := s.flights.eraseIdx i }
  | callbackStores (i : Nat) (granted : Bool) (f : Flight) (hf : s.flights[i]? = some f)
      (hstage : f.stage = .store) :
      Step c s (.callback i granted)
        { s with flights := s.flights.set i ⟨f.wait, .cancel⟩, cancelled := etimedout }
  | callbackCancels (i : Nat) (granted : Bool) (f : Flight) (out : IOManager.Outcome)
      (io : IOManager) (hf : s.flights[i]? = some f) (hstage : f.stage = .cancel)
      (hio : s.io.perform c.cancelEvent granted = some (out, io)) :
      Step c s (.callback i granted)
        { s with
          flights := s.flights.eraseIdx i
          io := io
          queued := s.queued + c.wakes out.triggers }
  | tick (d : Nat) : Step c s (.tick d) { s with clock := s.clock + d }
  | timerCall (call : TimerManager.Call Callback) (now : Int) (timers : TimerManager Callback)
      (hforeign : foreignTimer s call = true) (ht : s.timers.perform call now = some timers) :
      Step c s (.timerCall call now) { s with timers := timers }
  | eventCall (call : IOManager.Call) (granted : Bool) (out : IOManager.Outcome) (io : IOManager)
      (hforeign : c.foreignEvent call = true)
      (hio : s.io.perform call granted = some (out, io)) :
      Step c s (.eventCall call granted)
        { s with io := io, queued := s.queued + c.wakes out.triggers }

variable {c : Config} {s s' : State} {a : Label}

theorem callReturned_step (n errno : Int) (hpc : s.pc = .call) :
    Step c s (.call n errno) (c.callReturned s n errno) := by
  unfold callReturned
  split
  · split
    · exact .again n errno hpc
    · split
      · exact .wait n errno hpc
      · exact .returned n errno hpc
  · split
    · exact .wait n errno hpc
    · exact .returned n errno hpc

theorem armTimer_step {a : Nat} {now : Int} (hpc : s.pc = .arm) (h : c.armTimer s a now = some s') :
    Step c s (.arm a now) s' := by
  unfold armTimer at h
  split at h
  · rename_i hto
    cases h
    exact .skipTimer a now hpc hto
  · split at h
    · rename_i hnow
      obtain ⟨r, hadd, rfl⟩ := Option.map_eq_some_iff.mp h
      exact .armed a now r.2 hpc hnow.1 (TimerManager.addTimer_adds hadd)
    · cases h

theorem register_step {granted : Bool} {errno : Int} (hpc : s.pc = .register)
    (h : c.register s granted errno = some s') : Step c s (.register granted errno) s' := by
  obtain ⟨⟨out, io⟩, hio, rfl⟩ := Option.map_eq_some_iff.mp h
  dsimp only
  split
  · exact .registered granted errno out io hpc hio
  · exact .refused granted errno out io hpc hio

theorem checkCancelled_step (hpc : s.pc = .check) : Step c s .check (c.checkCancelled s) := by
  unfold checkCancelled
  split
  · rename_i hcancelled
    exact .timedOut hpc hcancelled
  · rename_i hcancelled
    split
    · rename_i hkind
      exact .retry hpc (not_not.mp hcancelled) hkind
    · rename_i hkind
      exact .connected hpc hkind

theorem soErrorReturned_step (error : Option Int) (errno : Int) (hpc : s.pc = .soError) :
    Step c s (.soError error errno) (soErrorReturned s error errno) := by
  unfold soErrorReturned
  split
  · exact .soError none errno _ _ hpc
  · split <;> exact .soError _ errno _ _ hpc

theorem runCallback_step {i : Nat} {granted : Bool} (h : c.runCallback s i granted = some s') :
    Step c s (.callback i granted) s' := by
  unfold runCallback at h
  split at h
  · cases h
  rename_i f hf
  dsimp only at h
  split at h
  · cases h; exact .callbackGoesOn i granted f _ hf
  · cases h; exact .callbackGoesOn i granted f _ hf
  · rename_i hstage
    cases h
    cases halive : infoAlive s with
    | true => exact .callbackGoesOn i granted f _ hf
    | false => exact .callbackEnds i granted f hf (.inl ⟨hstage, halive⟩)
  · rename_i hstage
    cases h
    split
    · rename_i hcancelled
      exact .callbackEnds i granted f hf (.inr ⟨hstage, hcancelled⟩)
    · exact .callbackGoesOn i granted f _ hf
  · rename_i hstage
    cases h
    exact .callbackStores i granted f hf hstage
  · rename_i hstage
    obtain ⟨⟨out, io⟩, hio, rfl⟩ := Option.map_eq_some_iff.mp h
    exact .callbackCancels i granted f out io hf hstage hio

theorem step_cases (h : c.system.step s a = some s') : Step c s a s' := by
  change c.step s a = some s' at h
  unfold Config.step at h
  split at h
  case h_1 n errno hpc => cases h; exact callReturned_step n errno hpc
  case h_2 b now hpc => exact armTimer_step hpc h
  case h_3 granted errno hpc => exact register_step hpc h
  case h_4 hpc => cases h; exact .yield hpc
  case h_5 hpc =>
    split at h
    · rename_i hqueued
      cases h
      exact .resume hpc hqueued
    · cases h
  case h_6 hpc =>
    obtain ⟨t, ht, rfl⟩ := Option.map_eq_some_iff.mp h
    exact .cancelTimer t hpc ht
  case h_7 errno hpc =>
    obtain ⟨t, ht, rfl⟩ := Option.map_eq_some_iff.mp h
    exact .giveUp errno t hpc ht
  case h_8 hpc => cases h; exact checkCancelled_step hpc
  case h_9 error errno hpc => cases h; exact soErrorReturned_step error errno hpc
  case h_10 now probe =>
    split at h
    · rename_i hnow
      cases h
      exact .expire now probe hnow
    · cases h
  case h_11 i granted => exact runCallback_step h
  case h_12 d => cases h; exact .tick d
  case h_13 call now =>
    split at h
    · rename_i hforeign
      obtain ⟨timers, ht, rfl⟩ := Option.map_eq_some_iff.mp h
      exact .timerCall call now timers hforeign ht
    · cases h
  case h_14 call granted =>
    split at h
    · rename_i hforeign
      obtain ⟨⟨out, io⟩, hio, rfl⟩ := Option.map_eq_some_iff.mp h
      exact .eventCall call granted out io hforeign hio
    · cases h
  case h_15 => cases h

end Config

/-! ## Two calls -/

/-- Fiber 1 reads from descriptor 6; `do_io` never has a timeout (`Hook.doIo_timeout`). -/
def reading : Config where
  kind := .doIo
  fd := 6
  event := .read
  timeout := -1
  scheduler := 0
  fiber := .made 1

/-- Fiber 1 connects descriptor 6, with the default timeout. -/
def connecting : Config where
  kind := .connectWithTimeout
  fd := 6
  event := .write
  timeout := 3000
  scheduler := 0
  fiber := .made 1

/-- Nothing is registered, and there are no timers. -/
def beforeCall : State where
  pc := .call
  timers := .init 0
  io := .init 5 32
  timer := none
  cancelled := 0
  flights := []
  queued := 0
  clock := 0
  wait := 0
  eagainAt := 0
  emitted := []

theorem beforeCall_initial : Config.Initial beforeCall where
  pc := rfl
  io := ⟨_, IOManager.init_represents 5 32⟩
  callbacks := nofun
  cancelled := rfl
  flights := rfl
  emitted := rfl
  timer := rfl

end DoIo
