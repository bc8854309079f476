-- SUMMARY: The base scheduler as a transition system: schedule calls from anywhere, and the program points of every thread inside Scheduler::run.
import MyCoroutine.Lib.TransitionSystem
import MyCoroutine.Lib.Counting
import MyCoroutine.Scheduler.Task

/-! # Scheduler::run on many threads

One step is what a thread does between two points where another thread can come
in between: the scan under `m_mutex`, the switch into a fiber, the store of
`m_state` in `yield`, the saving of the context, the decrement of
`m_activeThreadCount`. `Scheduler::stopping` reads its three values under
`m_mutex`; it is one step, since the queue and every increment of the counter
wait for the lock. `tickle` does nothing in the base class. The fibers that user
code constructs are there from the start; the one of a callback is constructed
when a thread runs the callback. -/

namespace Scheduler

variable {τ : Type}

/-! ## States -/

/-- Where a thread is inside `Scheduler::run`. -/
inductive Pc (τ : Type) where
  /-- At the top of `for(;;)`. -/
  | scan
  /-- It took `e` out of the queue and has released the lock. -/
  | took (e : TaskEntry τ)
  /-- The fiber `f` of the task `e` is executing on it. -/
  | exec (e : TaskEntry τ) (f : FiberId)
  /-- `f` has stored `m_state` in `yield`; `swapcontext` has not saved its context. -/
  | saving (e : TaskEntry τ) (f : FiberId)
  /-- `resume` has returned; `--m_activeThreadCount` is next. -/
  | returned (e : TaskEntry τ)
  /-- Its idle fiber was resumed. -/
  | idle
  /-- It has left `run`. -/
  | left
  deriving DecidableEq

namespace Pc

/-- The task in the hands of the thread: taken out, its completion not counted. -/
def holding : Pc τ → Option (TaskEntry τ)
  | .took e | .exec e _ | .saving e _ | .returned e => some e
  | .scan | .idle | .left => none

/-- The fiber whose stack the thread is on. -/
def onStack : Pc τ → Option FiberId
  | .exec _ f | .saving _ f => some f
  | .scan | .took _ | .returned _ | .idle | .left => none

end Pc

structure State (τ : Type) where
  /-- `m_tasks`. -/
  tasks : List (TaskEntry τ)
  activeThreadCount : Nat
  idleThreadCount : Nat
  /-- `m_stopping`. -/
  stopping : Bool
  /-- The fiber objects; `none` is one that is not constructed. -/
  fiber : FiberId → Option Fiber
  pc : τ → Pc τ
  /-- The idle fiber of the thread is `TERM`. -/
  idleTerm : τ → Bool
  /-- Every non-empty task pushed so far; `seq` counts into this list. No step reads it. -/
  pushed : List (ScheduleTask τ)
  /-- The pushes whose task is completed, in order of completion. No step reads it. -/
  finished : List Nat
  /-- The fiber was put into the queue since it was last resumed. No step reads it. -/
  put : FiberId → Bool

/-- One step of one party. -/
inductive Label (τ : Type) where
  /-- `schedule(task)`, from a running task on a thread or from outside the scheduler. -/
  | schedule (caller : Option τ) (task : ScheduleTask τ)
  | scan (t : τ)
  | resume (t : τ)
  | yield (t : τ)
  | finish (t : τ)
  | save (t : τ)
  | complete (t : τ)
  | idle (t : τ)
  /-- `stop()` sets `m_stopping`. -/
  | stop
  /-- Another scheduler, or user code that resets it, changes a fiber. -/
  | outside (f : FiberId) (x : Fiber)
  deriving DecidableEq

/-- The fiber a task runs on: its own, or the one constructed for its callback. -/
def TaskEntry.runsOn (e : TaskEntry τ) : Option FiberId :=
  match e.task.fiber with
  | some f => some f
  | none => if e.task.cb.isSome then some (.forTask e.seq) else none

namespace State

variable [DecidableEq τ]

def setPc (s : State τ) (t : τ) (pc : Pc τ) : State τ :=
  { s with pc := Function.update s.pc t pc }

def setFiber (s : State τ) (f : FiberId) (x : Fiber) : State τ :=
  { s with fiber := Function.update s.fiber f (some x) }

@[simp] theorem setPc_pc (s : State τ) (t : τ) (pc : Pc τ) (u : τ) :
    (s.setPc t pc).pc u = if u = t then pc else s.pc u :=
  Function.update_apply ..
@[simp] theorem setPc_tasks (s : State τ) (t : τ) (pc : Pc τ) :
    (s.setPc t pc).tasks = s.tasks := rfl
@[simp] theorem setPc_fiber (s : State τ) (t : τ) (pc : Pc τ) (f : FiberId) :
    (s.setPc t pc).fiber f = s.fiber f := rfl
@[simp] theorem setPc_put (s : State τ) (t : τ) (pc : Pc τ) (f : FiberId) :
    (s.setPc t pc).put f = s.put f := rfl
@[simp] theorem setPc_pushed (s : State τ) (t : τ) (pc : Pc τ) :
    (s.setPc t pc).pushed = s.pushed := rfl
@[simp] theorem setPc_idleTerm (s : State τ) (t : τ) (pc : Pc τ) (u : τ) :
    (s.setPc t pc).idleTerm u = s.idleTerm u := rfl

omit [DecidableEq τ] in
@[simp] theorem setFiber_fiber (s : State τ) (f : FiberId) (x : Fiber) (g : FiberId) :
    (s.setFiber f x).fiber g = if g = f then some x else s.fiber g :=
  Function.update_apply ..
omit [DecidableEq τ] in
@[simp] theorem setFiber_tasks (s : State τ) (f : FiberId) (x : Fiber) :
    (s.setFiber f x).tasks = s.tasks := rfl
omit [DecidableEq τ] in
@[simp] theorem setFiber_pc (s : State τ) (f : FiberId) (x : Fiber) (t : τ) :
    (s.setFiber f x).pc t = s.pc t := rfl
omit [DecidableEq τ] in
@[simp] theorem setFiber_put (s : State τ) (f : FiberId) (x : Fiber) (g : FiberId) :
    (s.setFiber f x).put g = s.put g := rfl

omit [DecidableEq τ] in
@[simp] theorem setFiber_pushed (s : State τ) (f : FiberId) (x : Fiber) :
    (s.setFiber f x).pushed = s.pushed := rfl

/-- What the scan sees of the fibers. -/
def fiberState (s : State τ) (f : FiberId) : Fiber.State :=
  ((s.fiber f).map Fiber.state).getD .term

/-- The `Fiber::ptr` of the task, if any, points to a fiber. -/
def pointsToFiber (s : State τ) (task : ScheduleTask τ) : Bool :=
  task.fiber.all fun f => (s.fiber f).isSome

/-- `Scheduler::schedule` up to the tickle. -/
def schedule (s : State τ) (task : ScheduleTask τ) : State τ :=
  { s with
    tasks := (scheduleNoLock s.tasks s.pushed.length task).2
    pushed := if task.nonEmpty then s.pushed ++ [task] else s.pushed
    put := match task.fiber with
      | some f => Function.update s.put f true
      | none => s.put }

omit [DecidableEq τ] in
theorem mem_schedule {s : State τ} {task : ScheduleTask τ} {e : TaskEntry τ}
    (h : e ∈ (s.schedule task).tasks) : e ∈ s.tasks ∨ e = ⟨s.pushed.length, task⟩ := by
  simp only [schedule, scheduleNoLock] at h
  split at h
  · simpa using h
  · exact .inl h

/-- The locked scan, and the branch on what it found. -/
def scanTasks (s : State τ) (t : τ) : State τ :=
  let r := scan t s.fiberState s.tasks
  match r.task with
  | some e =>
    -- the task is counted before the lock is released
    { s with tasks := r.tasks, activeThreadCount := s.activeThreadCount + 1 }.setPc t (.took e)
  | none =>
    -- `idle_fiber->getState() == Fiber::TERM` is the only way out of the loop
    if s.idleTerm t then s.setPc t .left
    else { s with idleThreadCount := s.idleThreadCount + 1 }.setPc t .idle

/-- `task.fiber->resume()`, or the fresh `cb_fiber` and its `resume()`. -/
def resumeTask (s : State τ) (t : τ) (e : TaskEntry τ) : Option (State τ) :=
  match TaskEntry.runsOn e with
  | none => none
  | some f =>
    -- a fiber keeps its own state; a callback starts in a fresh one
    match (if e.task.fiber.isSome then s.fiber f else some Fiber.new).bind Fiber.resume with
    | none => none
    | some x =>
      some ({ s with put := Function.update s.put f false }.setFiber f x |>.setPc t (.exec e f))

/-- `Scheduler::stopping`. -/
def stoppingNow (s : State τ) : Bool :=
  s.stopping && s.tasks.isEmpty && s.activeThreadCount == 0

/-- One turn of `Scheduler::idle`: it ends when `stopping()` says so, and yields otherwise. -/
def idleTurn (s : State τ) (t : τ) : State τ :=
  let s' := { s with idleThreadCount := Counting.pred64 s.idleThreadCount }.setPc t .scan
  if s.stoppingNow then { s' with idleTerm := Function.update s.idleTerm t true } else s'

end State

/-! ## After an update -/

section

variable [DecidableEq τ] {s : State τ}

theorem setPc_eq {t u : τ} {pc q : Pc τ} (h : (s.setPc t pc).pc u = q) :
    (u = t ∧ pc = q) ∨ (u ≠ t ∧ s.pc u = q) := by
  rw [State.setPc_pc] at h
  split at h
  · rename_i hut
    exact .inl ⟨hut, h⟩
  · rename_i hut
    exact .inr ⟨hut, h⟩

theorem onStack_setPc {t u : τ} {pc : Pc τ} {f : FiberId}
    (h : ((s.setPc t pc).pc u).onStack = some f) :
    (u = t ∧ pc.onStack = some f) ∨ (u ≠ t ∧ (s.pc u).onStack = some f) := by
  rw [State.setPc_pc] at h
  split at h
  · rename_i hut
    exact .inl ⟨hut, h⟩
  · rename_i hut
    exact .inr ⟨hut, h⟩

omit [DecidableEq τ] in
theorem setFiber_eq {f g : FiberId} {x y : Fiber} (h : (s.setFiber f x).fiber g = some y) :
    (g = f ∧ x = y) ∨ (g ≠ f ∧ s.fiber g = some y) := by
  rw [State.setFiber_fiber] at h
  split at h
  · rename_i hgf
    exact .inl ⟨hgf, Option.some.inj h⟩
  · rename_i hgf
    exact .inr ⟨hgf, h⟩

end

/-! ## Steps -/

variable [DecidableEq τ]

/-- One step of thread `t`, according to where it is. -/
def threadStep (s : State τ) (t : τ) (a : Label τ) : Option (State τ) :=
  match a, s.pc t with
  | .schedule _ task, .exec _ _ => if s.pointsToFiber task then some (s.schedule task) else none
  | .scan _, .scan => some (s.scanTasks t)
  | .resume _, .took e => s.resumeTask t e
  | .yield _, .exec e f =>
    ((s.fiber f).bind Fiber.yieldStore).map fun x => (s.setFiber f x).setPc t (.saving e f)
  -- the callback of the fiber has returned; `MainFunc` ends with a `yield`
  | .finish _, .exec e f =>
    ((s.fiber f).bind Fiber.mainFuncEnd).map fun x => (s.setFiber f x).setPc t (.saving e f)
  | .save _, .saving e f =>
    (s.fiber f).map fun x => (s.setFiber f x.yieldSave).setPc t (.returned e)
  | .complete _, .returned e =>
    some ({ s with
      activeThreadCount := Counting.pred64 s.activeThreadCount
      finished := s.finished ++ [e.seq] }.setPc t .scan)
  | .idle _, .idle => some (s.idleTurn t)
  | _, _ => none

/-- The thread a step belongs to. -/
def Label.thread : Label τ → Option τ
  | .schedule caller _ => caller
  | .scan t | .resume t | .yield t | .finish t | .save t | .complete t | .idle t => some t
  | .stop | .outside _ _ => none

/-- One step of the threads `W` and of what surrounds them. -/
def step (W : List τ) (s : State τ) (a : Label τ) : Option (State τ) :=
  match a.thread with
  | some t => if t ∈ W then threadStep s t a else none
  | none =>
    match a with
    | .schedule _ task => if s.pointsToFiber task then some (s.schedule task) else none
    | .stop => some { s with stopping := true }
    | .outside f x => some (s.setFiber f x)
    | _ => none

/-! ## What a step can do -/

/-- The step relation, one constructor for each way a step can go. -/
inductive Step (W : List τ) (s : State τ) : Label τ → State τ → Prop where
  | schedule (caller : Option τ) (task : ScheduleTask τ)
      (hcaller : ∀ t, caller = some t → t ∈ W ∧ ∃ e f, s.pc t = .exec e f)
      (hfiber : s.pointsToFiber task = true) :
      Step W s (.schedule caller task) (s.schedule task)
  | take (t : τ) (e : TaskEntry τ) (ht : t ∈ W) (hpc : s.pc t = .scan)
      (he : (scan t s.fiberState s.tasks).task = some e) :
      Step W s (.scan t)
        ({ s with
          tasks := (scan t s.fiberState s.tasks).tasks
          activeThreadCount := s.activeThreadCount + 1 }.setPc t (.took e))
  | leave (t : τ) (ht : t ∈ W) (hpc : s.pc t = .scan)
      (hnone : (scan t s.fiberState s.tasks).task = none) (hterm : s.idleTerm t = true) :
      Step W s (.scan t) (s.setPc t .left)
  | rest (t : τ) (ht : t ∈ W) (hpc : s.pc t = .scan)
      (hnone : (scan t s.fiberState s.tasks).task = none) (hterm : s.idleTerm t = false) :
      Step W s (.scan t)
        ({ s with idleThreadCount := s.idleThreadCount + 1 }.setPc t .idle)
  | resume (t : τ) (e : TaskEntry τ) (f : FiberId) (x : Fiber) (ht : t ∈ W)
      (hpc : s.pc t = .took e) (hf : TaskEntry.runsOn e = some f)
      (hx : (if e.task.fiber.isSome then s.fiber f else some .new).bind Fiber.resume = some x) :
      Step W s (.resume t)
        (({ s with put := Function.update s.put f false }.setFiber f x).setPc t (.exec e f))
  | yield (t : τ) (e : TaskEntry τ) (f : FiberId) (x : Fiber) (ht : t ∈ W)
      (hpc : s.pc t = .exec e f) (hf : s.fiber f = some x)
      (y : Fiber) (hy : x.yieldStore = some y) :
      Step W s (.yield t) ((s.setFiber f y).setPc t (.saving e f))
  | finish (t : τ) (e : TaskEntry τ) (f : FiberId) (x : Fiber) (ht : t ∈ W)
      (hpc : s.pc t = .exec e f) (hf : s.fiber f = some x) :
      Step W s (.finish t) ((s.setFiber f { x with state := .term }).setPc t (.saving e f))
  | save (t : τ) (e : TaskEntry τ) (f : FiberId) (x : Fiber) (ht : t ∈ W)
      (hpc : s.pc t = .saving e f) (hf : s.fiber f = some x) :
      Step W s (.save t) ((s.setFiber f x.yieldSave).setPc t (.returned e))
  | complete (t : τ) (e : TaskEntry τ) (ht : t ∈ W) (hpc : s.pc t = .returned e) :
      Step W s (.complete t)
        ({ s with
          activeThreadCount := Counting.pred64 s.activeThreadCount
          finished := s.finished ++ [e.seq] }.setPc t .scan)
  | idle (t : τ) (ht : t ∈ W) (hpc : s.pc t = .idle) : Step W s (.idle t) (s.idleTurn t)
  | stop : Step W s .stop { s with stopping := true }
  | outside (f : FiberId) (x : Fiber) : Step W s (.outside f x) (s.setFiber f x)

theorem scanTasks_step {W : List τ} {s : State τ} {t : τ} (ht : t ∈ W) (hpc : s.pc t = .scan) :
    Step W s (.scan t) (s.scanTasks t) := by
  cases he : (scan t s.fiberState s.tasks).task with
  | some e =>
    simp only [State.scanTasks, he]
    exact .take t e ht hpc he
  | none =>
    cases hterm : s.idleTerm t with
    | true =>
      simp only [State.scanTasks, he, hterm, if_true]
      exact .leave t ht hpc he hterm
    | false =>
      simp only [State.scanTasks, he, hterm, Bool.false_eq_true, if_false]
      exact .rest t ht hpc he hterm

theorem resumeTask_step {W : List τ} {s s' : State τ} {t : τ} {e : TaskEntry τ} (ht : t ∈ W)
    (hpc : s.pc t = .took e) (h : s.resumeTask t e = some s') : Step W s (.resume t) s' := by
  unfold State.resumeTask at h
  cases hf : TaskEntry.runsOn e with
  | none => simp [hf] at h
  | some f =>
    simp only [hf] at h
    cases hx : (if e.task.fiber.isSome then s.fiber f else some .new).bind Fiber.resume with
    | none => simp [hx] at h
    | some x =>
      simp only [hx, Option.some.injEq] at h
      exact h ▸ .resume t e f x ht hpc hf hx

theorem threadStep_step {W : List τ} {s s' : State τ} {t : τ} {a : Label τ} (ht : t ∈ W)
    (ha : a.thread = some t) (h : threadStep s t a = some s') : Step W s a s' := by
  unfold threadStep at h
  split at h
  case h_1 caller task e f hpc =>
    split at h <;> cases h
    rename_i hfiber
    refine .schedule caller task (fun u hu => ?_) hfiber
    have hut : u = t := by simpa [Label.thread, hu] using ha
    exact hut ▸ ⟨ht, e, f, hpc⟩
  case h_2 u hpc => cases ha; cases h; exact scanTasks_step ht hpc
  case h_3 u e hpc => cases ha; exact resumeTask_step ht hpc h
  case h_4 u e f hpc =>
    cases ha
    obtain ⟨y, hy, rfl⟩ := Option.map_eq_some_iff.mp h
    obtain ⟨x, hx, hy⟩ := Option.bind_eq_some_iff.mp hy
    exact .yield t e f x ht hpc hx y hy
  case h_5 u e f hpc =>
    cases ha
    obtain ⟨y, hy, rfl⟩ := Option.map_eq_some_iff.mp h
    obtain ⟨x, hx, hy⟩ := Option.bind_eq_some_iff.mp hy
    rw [Fiber.mainFuncEnd_eq] at hy
    cases hy
    exact .finish t e f x ht hpc hx
  case h_6 u e f hpc =>
    cases ha
    obtain ⟨x, hx, rfl⟩ := Option.map_eq_some_iff.mp h
    exact .save t e f x ht hpc hx
  case h_7 u e hpc => cases ha; cases h; exact .complete t e ht hpc
  case h_8 u hpc => cases ha; cases h; exact .idle t ht hpc
  case h_9 => cases h

/-! ## The system -/

/-- The queue is empty, every thread is about to enter `run`, nothing happened yet. -/
structure Initial (s : State τ) : Prop where
  tasks : s.tasks = []
  active : s.activeThreadCount = 0
  idle : s.idleThreadCount = 0
  stopping : s.stopping = false
  pc : ∀ t, s.pc t = .scan
  idleTerm : ∀ t, s.idleTerm t = false
  pushed : s.pushed = []
  finished : s.finished = []
  put : ∀ f, s.put f = false
  /-- A fiber that can be resumed has a context. -/
  saved : ∀ f x, s.fiber f = some x → x.state = .ready → x.saved = true
  forTask : ∀ k, s.fiber (.forTask k) = none

/-- The scheduler whose threads are `W`. -/
def system (W : List τ) : TransitionSystem (State τ) (Label τ) where
  init := Initial
  step := step W

/-- Everything a step of the scheduler can do. -/
theorem step_cases {W : List τ} {s s' : State τ} {a : Label τ} (h : (system W).step s a = some s') :
    Step W s a s' := by
  change step W s a = some s' at h
  unfold step at h
  cases ha : a.thread with
  | some t =>
    simp only [ha] at h
    split at h
    · rename_i ht
      exact threadStep_step ht ha h
    · cases h
  | none =>
    simp only [ha] at h
    cases a with
    | schedule caller task =>
      simp only at h
      split at h <;> cases h
      rename_i hfiber
      exact .schedule caller task (fun t ht => by simp [Label.thread, ht] at ha) hfiber
    | stop => cases h; exact .stop
    | outside f x => cases h; exact .outside f x
    | _ => cases ha

/-- The state a scheduler of fresh fibers starts in. -/
def start : State τ where
  tasks := []
  activeThreadCount := 0
  idleThreadCount := 0
  stopping := false
  fiber
    | .made _ => some .new
    | .forTask _ => none
  pc := fun _ => .scan
  idleTerm := fun _ => false
  pushed := []
  finished := []
  put := fun _ => false

omit [DecidableEq τ] in
theorem start_initial : Initial (start : State τ) where
  tasks := rfl
  active := rfl
  idle := rfl
  stopping := rfl
  pc := fun _ => rfl
  idleTerm := fun _ => rfl
  pushed := rfl
  finished := rfl
  put := fun _ => rfl
  saved := by
    intro f x hf _
    cases f <;> cases hf
    rfl
  forTask := fun _ => rfl

end Scheduler
