-- SUMMARY: What each function does that other threads can notice: the mutexes it takes, the shared fields it accesses, and its writes to the tickle pipe.
import MyCoroutine.FdManager
import MyCoroutine.IOManager.Idle
import MyCoroutine.Lib.Locks

/-! # Locks, fields and pipes

Each function of the library is here a program of `Lib/Locks`. Its branches are the ones of the
source, on what the function finds under its locks, which is an argument. A call ends where
the thread may go over to another fiber: `run` up to the `resume`, one round of `idle` up to the
`yield`. The counters are atomic and are left out, and so are fields that never change after
the constructor, and the context of a thread's own main or scheduling fiber, which only that
thread saves and restores. -/

namespace Threads

open IOManager Locking

inductive Mutex where
  /-- `Scheduler::m_mutex`. -/
  | scheduler (s : SchedulerId)
  /-- `IOManager::m_mutex`. -/
  | table (s : SchedulerId)
  /-- `FdContext::mtx`. -/
  | context (s : SchedulerId) (fd : Nat)
  /-- `TimerManager::m_mutex`. -/
  | timers (s : SchedulerId)
  /-- `FdManager::m_mutex`. -/
  | datas
  deriving DecidableEq

inductive Field where
  /-- `m_tasks`. -/
  | tasks (s : SchedulerId)
  /-- `m_threads` and `m_threadIds`. -/
  | threads (s : SchedulerId)
  /-- `m_stopping`. -/
  | stopping (s : SchedulerId)
  /-- `Fiber::m_state`. -/
  | state (f : FiberId)
  /-- `Fiber::m_ctx`. -/
  | ctx (f : FiberId)
  /-- `Fiber::m_cb`. -/
  | cb (f : FiberId)
  /-- `m_fdContexts`. -/
  | fdContexts (s : SchedulerId)
  /-- The events of an `FdContext`, and its two `EventContext`s. -/
  | context (s : SchedulerId) (fd : Nat)
  /-- `m_timers`. -/
  | timers (s : SchedulerId)
  /-- `m_tickled`. -/
  | tickled (s : SchedulerId)
  /-- `m_previouseTime`. -/
  | previouseTime (s : SchedulerId)
  /-- `m_next` and `m_cb` of a timer. -/
  | timer (s : SchedulerId) (a : Nat)
  /-- `m_ms` of a timer. -/
  | ms (s : SchedulerId) (a : Nat)
  /-- `m_datas`. -/
  | datas
  /-- The flags and timeouts of an `FdCtx`. -/
  | fdCtx (p : CtxId)
  /-- `cancelled` of the `timer_info` number `i`. -/
  | cancelled (i : Nat)
  deriving DecidableEq

/-- A pipe is known by the manager whose `m_tickleFds` it is. -/
abbrev Acts := Program Mutex Field SchedulerId

variable {τ : Type} [DecidableEq τ]

/-! ## Fiber -/

def getState (f : FiberId) : Acts :=
  [.read (.state f)]

/-- `resume`; `swapcontext` goes on with the context of the fiber. -/
def resume (f : FiberId) : Acts :=
  [.read (.state f), .write (.state f), .read (.ctx f)]

/-- `yield`; `swapcontext` saves the context of the fiber. -/
def yield (f : FiberId) (ended : Bool) : Acts :=
  .read (.state f) :: (if ended then [] else [.write (.state f)]) ++ [.write (.ctx f)]

/-- `MainFunc` calls `m_cb`. -/
def mainFunc (f : FiberId) : Acts :=
  [.read (.cb f)]

/-- The end of `MainFunc`. -/
def mainFuncEnd (f : FiberId) : Acts :=
  .write (.cb f) :: .write (.state f) :: yield f true

/-- `Fiber::reset`. -/
def resetFiber (f : FiberId) : Acts :=
  [.read (.state f), .write (.cb f), .write (.ctx f), .write (.state f)]

/-! ## FdManager and FdCtx -/

/-- `FdManager::get`, for `fd` other than -1. -/
def get (m : FdManager) (fd : Nat) (autoCreate : Bool) (stray : Option CtxId) : Acts :=
  locked .datas .shared [.read .datas] ++
    if Counting.intOfSize m.datas.length ≤ fd ∧ (autoCreate = false ∨ (m.read fd stray).1.isSome)
    then []
    else locked .datas .exclusive [.read .datas, .write .datas]

/-- `FdManager::del`. -/
def del (m : FdManager) (fd : Nat) : Acts :=
  locked .datas .exclusive
    (.read .datas :: if Counting.intOfSize m.datas.length ≤ fd then [] else [.write .datas])

/-- The functions of `FdCtx` that only read. -/
def readCtx (p : CtxId) : Acts :=
  [.read (.fdCtx p)]

/-- `setUserNoBlock`, `setSysNoBlock`, `setTimeout`. -/
def updateCtx (p : CtxId) : Acts :=
  [.write (.fdCtx p)]

/-! ## Hook -/

/-- What a hooked function finds: `t_hook_enable`, and the table of descriptors. -/
structure Hooked where
  hookEnable : Bool
  fdm : FdManager

/-- `do_io`, up to the underlying call. -/
def doIo (fd : Nat) (found : Hooked) : Acts :=
  if found.hookEnable then
    get found.fdm fd false none ++ (found.fdm.get fd false none).1.elim [] readCtx
  else []

/-- The callback of the timer of a wait, up to its `cancelEvent`. -/
def onTimeout (i : Nat) (cancelled : Bool) : Acts :=
  .read (.cancelled i) :: if cancelled then [] else [.write (.cancelled i)]

/-- What a wait looks at when its fiber has been resumed. -/
def readCancelled (i : Nat) : Acts :=
  [.read (.cancelled i)]

/-! ## Scheduler -/

/-- What `tickle` finds: whether `hasIdleThreads()`, the write end of the pipe, and what the
hooked `write` finds. -/
structure Wake extends Hooked where
  idle : Bool
  pipe : Nat

/-- What a call finds in `m_tasks`, and in its `tickle`. -/
structure Moment (τ : Type) where
  tasks : List (TaskEntry τ)
  wake : Wake

/-- `IOManager::tickle`. Its `write` is the one of `Hook.cpp`. -/
def tickle (s : SchedulerId) (found : Wake) : Acts :=
  if found.idle then doIo found.pipe found.toHooked ++ [.put s] else []

def schedule (s : SchedulerId) (task : ScheduleTask τ) (found : Moment τ) : Acts :=
  locked (.scheduler s) .exclusive
      (.read (.tasks s) :: if task.nonEmpty then [.write (.tasks s)] else []) ++
    if found.tasks.isEmpty then tickle s found.wake else []

/-- The fibers whose state the loop over `m_tasks` reads: of those it passes over because they
are `RUNNING`, and of the task it takes. -/
def examined (me : τ) (state : FiberId → Fiber.State) : List (TaskEntry τ) → List FiberId
  | [] => []
  | it :: rest =>
    if it.task.thread ≠ none ∧ it.task.thread ≠ some me then examined me state rest
    else
      match it.task.fiber with
      | none => []
      | some f => f :: if state f = .running then examined me state rest else []

/-- One turn of `run` on thread `me`, up to the `resume`. Nobody else knows the fiber of a
callback, or the idle fiber. -/
def run (s : SchedulerId) (me : τ) (state : FiberId → Fiber.State) (found : Moment τ) : Acts :=
  let r := Scheduler.scan me state found.tasks
  locked (.scheduler s) .exclusive
      (.read (.tasks s) :: ((examined me state found.tasks).map fun f => .read (.state f)) ++
        if r.task.isSome then [.write (.tasks s)] else []) ++
    (if r.tickleMe then tickle s found.wake else []) ++
    ((r.task.bind fun e => e.task.fiber).elim [] resume)

def start (s : SchedulerId) (stopping : Bool) : Acts :=
  locked (.scheduler s) .exclusive
    (.read (.stopping s) :: if stopping then [] else [.read (.threads s), .write (.threads s)])

/-- `Scheduler::stopping`. -/
def schedulerStopping (s : SchedulerId) (stopping : Bool) : Acts :=
  locked (.scheduler s) .exclusive
    (.read (.stopping s) :: if stopping then [.read (.tasks s)] else [])

/-! ## TimerManager and Timer -/

variable (s : SchedulerId) (m : TimerManager CbId) (a : Nat)

/-- `find`, `insert` and `lower_bound` may compare any timer of the set. -/
def compared : Acts :=
  m.timers.map fun a => .read (.timer s a)

/-- `addTimer(Timer::ptr, WriteLock&)`, up to `unlock`. -/
def inserted : Acts :=
  compared s m ++ .write (.timers s) ::
    if (m.insert a).timers.head? = some a then
      .read (.tickled s) :: if m.tickled then [] else [.write (.tickled s)]
    else []

/-- `addTimer(ms, cb, recurring)`, which has constructed the timer at `a`. -/
def addTimer (found : Wake) : Acts :=
  locked (.timers s) .exclusive (inserted s m a) ++
    if (m.addTimerPtr a).1 then tickle s found else []

/-- `Timer::cancel`. -/
def cancel : Acts :=
  locked (.timers s) .exclusive
    (.read (.timer s a) ::
      if ((m.timer a).bind Timer.cb).isSome then
        .write (.timer s a) :: compared s m ++ [.write (.timers s)]
      else [])

/-- `Timer::refresh`. -/
def refresh : Acts :=
  locked (.timers s) .exclusive
    (.read (.timer s a) ::
      if ((m.timer a).bind Timer.cb).isSome then
        compared s m ++
          if (m.erase a).isSome then
            [.write (.timers s), .read (.ms s a), .write (.timer s a)] ++ compared s m ++
              [.write (.timers s)]
          else []
      else [])

/-- `Timer::reset`: the test of `m_ms` comes before the lock. -/
def reset (now ms : Int) (fromNow : Bool) (found : Wake) : Acts :=
  .read (.ms s a) ::
    match m.timer a with
    | none => []
    | some t =>
      if t.ms = ms ∧ fromNow = false then []
      else
        locked (.timers s) .exclusive
            (.read (.timer s a) ::
              if t.cb.isSome then
                compared s m ++
                  match m.erase a with
                  | none => []
                  | some m =>
                    let start := if fromNow then now else t.next - ms
                    [.write (.timers s), .write (.ms s a), .write (.timer s a)] ++
                      inserted s (m.setTimer a { t with ms := ms, next := start + ms }) a
              else []) ++
          if (m.reset a now ms fromNow).any fun r => r.2.1 then tickle s found else []

/-- `hasTimer`. -/
def hasTimer : Acts :=
  locked (.timers s) .shared [.read (.timers s)]

/-- `getNextTimer`, which clears `m_tickled` under the shared lock. -/
def getNextTimer : Acts :=
  locked (.timers s) .shared
    (.write (.tickled s) :: .read (.timers s) ::
      match m.timers with
      | [] => []
      | first :: _ => [.read (.timer s first)])

/-- The loop over the expired timers, for the one at `a`. -/
def emitted : Acts :=
  .read (.timer s a) ::
    if (m.timer a).any Timer.recurring then
      [.read (.ms s a), .write (.timer s a)] ++ compared s m ++ [.write (.timers s)]
    else [.write (.timer s a)]

/-- `listExpiredCb`, which looks twice: at `m` first, and then at `m'`. -/
def listExpiredCb (m' : TimerManager CbId) (now : Int) (probe : Nat) : Acts :=
  locked (.timers s) .shared [.read (.timers s)] ++
    match m.timers with
    | [] => []
    | _ :: _ =>
      locked (.timers s) .exclusive
        (.read (.timers s) ::
          match m'.timers with
          | [] => []
          | first :: _ =>
            let r := m'.detectClockRollover now
            .read (.previouseTime s) :: .write (.previouseTime s) ::
              (if r.1 then [] else [.read (.timer s first)]) ++
              if r.1 = false ∧ m'.next first > now then []
              else
                compared s m' ++ .write (.timers s) ::
                  (r.2.splitExpired r.1 now probe).1.flatMap (emitted s m'))

/-! ## IOManager -/

/-- `stopping(timeout)`. -/
def stopping (now : Int) (pending : Nat) (stopping : Bool) : Acts :=
  getNextTimer s m ++
    if (m.getNextTimer now).1 = -1 ∧ pending = 0 then schedulerStopping s stopping else []

/-- `stop`, up to the `resume` of the root fiber; one tickle for each thread, and one for that. -/
def stop (now : Int) (pending : Nat) (stopped answer : Bool) (found : List Wake) : Acts :=
  stopping s m now pending stopped ++
    if answer then [] else .write (.stopping s) :: found.flatMap (tickle s)

/-- The rest of `stop`, up to the first `join`. -/
def stopJoin : Acts :=
  locked (.scheduler s) .exclusive [.read (.threads s), .write (.threads s)]

variable (io : IOManager) (fd : Nat)

/-- `addEvent` takes no lock of the `FdContext`. -/
def addEvent (caller : Caller) (event : Event) (cb : Option CbId) (granted : Bool) : Acts :=
  locked (.table s) .shared [.read (.fdContexts s)] ++
    (if Counting.intOfSize io.fdContexts.length > fd then []
      else locked (.table s) .exclusive [.write (.fdContexts s), .read (.fdContexts s)]) ++
    .read (.context s fd) ::
      if (io.addEvent caller fd event cb granted).any fun r => r.1 = 0 then
        .write (.context s fd) :: if cb.isSome then [] else [.read (.state caller.fiber)]
      else []

/-- `delEvent`, `cancelEvent` and `cancalAll` up to the lock of the `FdContext`, and with what
they do under it. -/
def withContext (p : Acts) : Acts :=
  locked (.table s) .shared [.read (.fdContexts s)] ++
    if io.fdContexts.length ≤ fd then []
    else locked (.context s fd) .exclusive (.read (.context s fd) :: p)

def delEvent (event : Event) (granted : Bool) : Acts :=
  withContext s io fd
    (if (io.delEvent fd event granted).any fun r => r.1 then [.write (.context s fd)] else [])

/-- `triggerEvent`, once for each trigger; the call of `schedule` number `i` finds `found i`. -/
def triggered (ts : List Trigger) (found : Nat → Moment τ) : Acts :=
  ts.zipIdx.flatMap fun (t, i) =>
    .read (.context s fd) :: .write (.context s fd) ::
      schedule t.scheduler t.task (found i) ++ [.write (.context s fd)]

def cancelEvent (event : Event) (granted : Bool) (found : Nat → Moment τ) : Acts :=
  withContext s io fd
    (triggered s fd (((io.cancelEvent fd event granted).map fun r => r.2.1).getD []) found)

def cancalAll (granted : Bool) (found : Nat → Moment τ) : Acts :=
  withContext s io fd
    (triggered s fd (((io.cancalAll fd granted).map fun r => r.2.1).getD []) found)

/-- The loop over the entries, for one of them; `reads` are the hooked reads of the pipe. -/
def handle (reads : List (Nat × Hooked)) (found : Nat → Moment τ) : Entry → Acts
  | .tickle => reads.flatMap (fun (fd, found) => doIo fd found) ++ [.drain s]
  | .context fd mask granted =>
    locked (.context s fd) .exclusive
      (.read (.context s fd) ::
        triggered s fd (((io.idleEntry fd mask granted).map fun r => r.1).getD []) found)

/-- What one round of `idle` meets: `m` and the first of `now` in `stopping`, then `m'` and `m''`
in `listExpiredCb`. -/
structure Round (τ : Type) where
  m : TimerManager CbId
  now : Int
  pending : Nat
  stopping : Bool
  polls : List Poll
  m' : TimerManager CbId
  m'' : TimerManager CbId
  now' : Int
  probe : Nat
  found : Nat → Moment τ
  io : Nat → IOManager
  reads : Nat → List (Nat × Hooked)
  triggered : Nat → Nat → Moment τ

/-- The callbacks that `listExpiredCb` collects. -/
def Round.cbs (r : Round τ) : List (Option CbId) :=
  if r.m'.timers = [] then [] else (r.m''.listExpiredCb r.now' r.probe).1

/-- The entries that the loop over them comes to. -/
def Round.entries (r : Round τ) : List Entry :=
  (waitLoop 0 r.polls).elim [] fun (rt, events) => events.take rt.toNat

/-- One round of `idle` that goes on, up to the `yield`. -/
def idle (r : Round τ) : Acts :=
  stopping s r.m r.now r.pending r.stopping ++
    listExpiredCb s r.m' r.m'' r.now' r.probe ++
    (r.cbs.zipIdx.flatMap fun (cb, i) => schedule s (.ofCb cb none) (r.found i)) ++
    r.entries.zipIdx.flatMap fun (entry, i) =>
      handle s (r.io i) (r.reads i) (r.triggered i) entry

/-! ## All calls -/

/-- The calls that a thread makes, one after the other: whatever they find, and on any manager. -/
inductive Called (τ : Type) [DecidableEq τ] : Acts → Prop where
  | getState (f : FiberId) : Called τ (getState f)
  | resume (f : FiberId) : Called τ (resume f)
  | yield (f : FiberId) (ended : Bool) : Called τ (yield f ended)
  | mainFunc (f : FiberId) : Called τ (mainFunc f)
  | mainFuncEnd (f : FiberId) : Called τ (mainFuncEnd f)
  | resetFiber (f : FiberId) : Called τ (resetFiber f)
  | schedule (s : SchedulerId) (task : ScheduleTask τ) (found : Moment τ) :
      Called τ (schedule s task found)
  | run (s : SchedulerId) (me : τ) (state : FiberId → Fiber.State) (found : Moment τ) :
      Called τ (run s me state found)
  | start (s : SchedulerId) (stopping : Bool) : Called τ (start s stopping)
  | addTimer (s : SchedulerId) (m : TimerManager CbId) (a : Nat) (found : Wake) :
      Called τ (addTimer s m a found)
  | cancel (s : SchedulerId) (m : TimerManager CbId) (a : Nat) : Called τ (cancel s m a)
  | refresh (s : SchedulerId) (m : TimerManager CbId) (a : Nat) : Called τ (refresh s m a)
  | reset (s : SchedulerId) (m : TimerManager CbId) (a : Nat) (now ms : Int)
      (fromNow : Bool) (found : Wake) : Called τ (reset s m a now ms fromNow found)
  | hasTimer (s : SchedulerId) : Called τ (hasTimer s)
  | getNextTimer (s : SchedulerId) (m : TimerManager CbId) : Called τ (getNextTimer s m)
  | listExpiredCb (s : SchedulerId) (m m' : TimerManager CbId) (now : Int) (probe : Nat) :
      Called τ (listExpiredCb s m m' now probe)
  | stopping (s : SchedulerId) (m : TimerManager CbId) (now : Int) (pending : Nat)
      (stopped : Bool) : Called τ (stopping s m now pending stopped)
  | stop (s : SchedulerId) (m : TimerManager CbId) (now : Int) (pending : Nat)
      (stopped answer : Bool) (found : List Wake) :
      Called τ (stop s m now pending stopped answer found)
  | stopJoin (s : SchedulerId) : Called τ (stopJoin s)
  | addEvent (s : SchedulerId) (io : IOManager) (fd : Nat) (caller : Caller) (event : Event)
      (cb : Option CbId) (granted : Bool) : Called τ (addEvent s io fd caller event cb granted)
  | delEvent (s : SchedulerId) (io : IOManager) (fd : Nat) (event : Event) (granted : Bool) :
      Called τ (delEvent s io fd event granted)
  | cancelEvent (s : SchedulerId) (io : IOManager) (fd : Nat) (event : Event) (granted : Bool)
      (found : Nat → Moment τ) : Called τ (cancelEvent s io fd event granted found)
  | cancalAll (s : SchedulerId) (io : IOManager) (fd : Nat) (granted : Bool)
      (found : Nat → Moment τ) : Called τ (cancalAll s io fd granted found)
  | idle (s : SchedulerId) (r : Round τ) : Called τ (idle s r)
  | get (m : FdManager) (fd : Nat) (autoCreate : Bool) (stray : Option CtxId) :
      Called τ (get m fd autoCreate stray)
  | del (m : FdManager) (fd : Nat) : Called τ (del m fd)
  | doIo (fd : Nat) (found : Hooked) : Called τ (doIo fd found)
  | onTimeout (i : Nat) (cancelled : Bool) : Called τ (onTimeout i cancelled)
  | readCancelled (i : Nat) : Called τ (readCancelled i)
  | readCtx (p : CtxId) : Called τ (readCtx p)
  | updateCtx (p : CtxId) : Called τ (updateCtx p)

end Threads
