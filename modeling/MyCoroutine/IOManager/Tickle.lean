-- SUMMARY: The wake-up of idle workers: tickle, the idle count it goes by, and when no task is left to sleeping workers.
import MyCoroutine.Scheduler.Machine

/-! # Tickles

`IOManager::tickle` writes a byte into a pipe that the workers watch with
`epoll_wait`, unless `m_idleThreadCount` is 0. `schedule` calls it when the queue was
empty before the push, and a scan calls it when it passed an entry over or left one
behind. A worker counts itself idle only after it has released the queue, so the
steps of `tickle`, of the scan and of `idle` are taken apart here. What a task does
in between is that of `Scheduler::run`. -/

namespace IOManager

open Scheduler (eligible)

variable {τ : Type}

/-! ## States -/

/-- Where a worker is, within one program point of `Scheduler::run`. -/
inductive Stage where
  /-- At the top of `for(;;)`, or with its task. -/
  | turn
  /-- `if(tickle_me) tickle();` after the scan; `counted` once there was an idle thread. -/
  | tickle (counted : Bool)
  /-- The scan found no task; the idle fiber is next. -/
  | empty
  /-- `stopping(next_timeout)` in `idle`. -/
  | check
  /-- In `epoll_wait`. -/
  | wait
  /-- `epoll_wait` has returned. -/
  | woken
  deriving DecidableEq

/-- A call of `tickle` under way. -/
structure Tickle (τ : Type) where
  /-- The worker that makes it, if any. -/
  caller : Option τ
  /-- It follows a push. -/
  push : Bool
  /-- `hasIdleThreads()` has answered true; the byte is next. -/
  counted : Bool
  deriving DecidableEq

structure TickleState (τ : Type) where
  sched : Scheduler.State τ
  stage : τ → Stage
  due : List (Tickle τ)
  /-- A call of `epoll_wait` returns at once. -/
  ready : Bool
  /-- The number of pushes before the last byte. No step reads it. -/
  tickled : Nat

/-- One step of one party. `caller` is the worker that makes the call, or `none`
for code outside the scheduler. -/
inductive TickleLabel (τ : Type) where
  /-- `schedule`, up to its `tickle`. -/
  | schedule (caller : Option τ) (task : ScheduleTask τ)
  /-- A `tickle` without a push: `onTimerInsertedAtFront`, or `stop`. -/
  | poke (caller : Option τ)
  /-- `hasIdleThreads()`, in the `i`th tickle under way. -/
  | hasIdleThreads (i : Nat)
  | write (i : Nat)
  | scan (t : τ)
  /-- The next step of the tickle after the scan. -/
  | tickle (t : τ)
  /-- The scan found nothing: the worker breaks, or counts itself idle. -/
  | enter (t : τ)
  /-- A step of the task of `t`. -/
  | run (t : τ) (a : Scheduler.Label τ)
  /-- `stopping`; `quiet` if it found no timer and no pending event. -/
  | stopping (t : τ) (quiet : Bool)
  /-- `epoll_wait` returns with events; `left` if some are left for another call. -/
  | wake (t : τ) (left : Bool)
  | timeout (t : τ)
  /-- `idle` yields. -/
  | leave (t : τ)
  /-- A watched descriptor becomes ready. -/
  | event
  /-- `stop()` sets `m_stopping`. -/
  | stop
  /-- Another scheduler, or user code that resets it, changes a fiber. -/
  | outside (f : FiberId) (x : Fiber)
  deriving DecidableEq

namespace TickleState

/-- The push, and whether a tickle follows. -/
def schedule (s : TickleState τ) (caller : Option τ) (task : ScheduleTask τ) : TickleState τ :=
  { s with
    sched := s.sched.schedule task
    due := if s.sched.tasks.isEmpty then s.due ++ [⟨caller, true, false⟩] else s.due }

/-- `write(m_tickleFds[1], "T", 1)`. -/
def byte (s : TickleState τ) : TickleState τ :=
  { s with ready := true, tickled := s.sched.pushed.length }

/-- `hasIdleThreads` in the tickle number `i`. -/
def hasIdleThreads (s : TickleState τ) (i : Nat) (k : Tickle τ) : TickleState τ :=
  if 0 < s.sched.idleThreadCount then { s with due := s.due.set i { k with counted := true } }
  else { s with due := s.due.eraseIdx i }

variable [DecidableEq τ]

def setStage (s : TickleState τ) (t : τ) (stage : Stage) : TickleState τ :=
  { s with stage := Function.update s.stage t stage }

/-- The worker `t` is not inside a call of `tickle` that its task or `idle` made. -/
def free (s : TickleState τ) (t : τ) : Bool :=
  !s.due.any fun k => k.caller = some t

/-- The stage after the tickle of a scan, or after a scan without one. -/
def afterScan (s : TickleState τ) (t : τ) : Stage :=
  if s.sched.pc t = .scan then .empty else .turn

/-- The locked scan. -/
def scan (s : TickleState τ) (t : τ) : TickleState τ :=
  let r := Scheduler.scan t s.sched.fiberState s.sched.tasks
  let sched := match r.task with
    | some e =>
      { s.sched with
        tasks := r.tasks
        activeThreadCount := s.sched.activeThreadCount + 1 }.setPc t (.took e)
    | none => s.sched
  let s := { s with sched := sched }
  s.setStage t (if r.tickleMe then .tickle false else s.afterScan t)

/-- The next step of the tickle after the scan. -/
def tickle (s : TickleState τ) (t : τ) (counted : Bool) : TickleState τ :=
  if counted then s.byte.setStage t (s.afterScan t)
  else if 0 < s.sched.idleThreadCount then s.setStage t (.tickle true)
  else s.setStage t (s.afterScan t)

/-- The branch of `run` that finds no task. -/
def enter (s : TickleState τ) (t : τ) : TickleState τ :=
  if s.sched.idleTerm t then { s with sched := s.sched.setPc t .left }
  else
    { s with sched := { s.sched with
        idleThreadCount := s.sched.idleThreadCount + 1 }.setPc t .idle }.setStage t .check

/-- `idle` has yielded or ended, and `run` has counted it out. -/
def leave (s : TickleState τ) (t : τ) : TickleState τ :=
  { s with sched := { s.sched with
      idleThreadCount := Counting.pred64 s.sched.idleThreadCount }.setPc t .scan }.setStage t .turn

end TickleState

/-! ## Steps -/

variable [DecidableEq τ]

/-- The code of `caller` is running: a task, or `idle` after `epoll_wait`. -/
def TickleState.mayCall (W : List τ) (s : TickleState τ) : Option τ → Bool
  | none => true
  | some t => decide (t ∈ W) && s.free t && match s.sched.pc t, s.stage t with
    | .exec _ _, _ | .idle, .woken => true
    | _, _ => false

/-- The steps of a task in the hands of its worker. -/
def ofTask : Scheduler.Label τ → Bool
  | .resume _ | .yield _ | .finish _ | .save _ | .complete _ => true
  | .schedule _ _ | .scan _ | .idle _ | .stop | .outside _ _ => false

/-- One step of worker `t`. -/
def workerStep (s : TickleState τ) (t : τ) (a : TickleLabel τ) : Option (TickleState τ) :=
  match a, s.sched.pc t, s.stage t with
  | .scan _, .scan, .turn => some (s.scan t)
  | .tickle _, .scan, .tickle counted | .tickle _, .took _, .tickle counted =>
    some (s.tickle t counted)
  | .enter _, .scan, .empty => some (s.enter t)
  | .run _ a, _, .turn =>
    if ofTask a ∧ a.thread = some t then
      (Scheduler.threadStep s.sched t a).map fun q => { s with sched := q }
    else none
  | .stopping _ quiet, .idle, .check =>
    if quiet && s.sched.stoppingNow then
      let s := s.leave t
      some { s with sched := { s.sched with idleTerm := Function.update s.sched.idleTerm t true } }
    else some (s.setStage t .wait)
  | .wake _ left, .idle, .wait =>
    if s.ready then some ({ s with ready := left }.setStage t .woken) else none
  | .timeout _, .idle, .wait => some (s.setStage t .woken)
  | .leave _, .idle, .woken => some (s.leave t)
  | _, _, _ => none

/-- The worker whose step it is. -/
def TickleLabel.worker : TickleLabel τ → Option τ
  | .scan t | .tickle t | .enter t | .run t _ | .stopping t _ | .wake t _ | .timeout t
  | .leave t => some t
  | .schedule _ _ | .poke _ | .hasIdleThreads _ | .write _ | .event | .stop | .outside _ _ => none

def tickleStep (W : List τ) (s : TickleState τ) (a : TickleLabel τ) : Option (TickleState τ) :=
  match a with
  | .schedule caller task =>
    if s.mayCall W caller ∧ s.sched.pointsToFiber task then some (s.schedule caller task) else none
  | .poke caller =>
    if s.mayCall W caller then some { s with due := s.due ++ [⟨caller, false, false⟩] } else none
  | .hasIdleThreads i =>
    match s.due[i]? with
    | some k => if k.counted then none else some (s.hasIdleThreads i k)
    | none => none
  | .write i =>
    match s.due[i]? with
    | some k => if k.counted then some { s.byte with due := s.due.eraseIdx i } else none
    | none => none
  | .event => some { s with ready := true }
  | .stop => some { s with sched := { s.sched with stopping := true } }
  | .outside f x => some { s with sched := s.sched.setFiber f x }
  | .scan t | .tickle t | .enter t | .run t _ | .stopping t _ | .wake t _ | .timeout t | .leave t =>
    if t ∈ W ∧ s.free t then workerStep s t a else none

/-- The workers `W` are about to enter `run`; nothing happened yet. -/
def tickleSystem (W : List τ) : TransitionSystem (TickleState τ) (TickleLabel τ) where
  init s := Scheduler.Initial s.sched ∧ (∀ t, s.stage t = .turn) ∧ s.due = [] ∧
    s.ready = false ∧ s.tickled = 0
  step := tickleStep W

/-! ## Lost wake-ups -/

namespace TickleState

variable (W : List τ) (s : TickleState τ)

/-- `t` is in `epoll_wait`, which does not return before something happens. -/
def Blocked (t : τ) : Prop :=
  s.sched.pc t = .idle ∧ s.stage t = .wait ∧ s.ready = false

/-- Some worker may take `e`, and no byte was written since it was pushed. -/
def Waiting (e : TaskEntry τ) : Prop :=
  s.tickled ≤ e.seq ∧ ∃ t ∈ W, eligible t s.sched.fiberState e = true

/-- Every worker sleeps beside a task that one of them may take, and neither a byte
nor a `schedule` that may still write one will wake it. -/
structure Lost : Prop where
  blocked : ∀ t ∈ W, s.Blocked t
  pushed : ∀ k ∈ s.due, k.push = false
  task : ∃ e ∈ s.sched.tasks, s.Waiting W e

/-- `t` will scan the queue before it sleeps, or is in a tickle. -/
def scansAgain (t : τ) : Bool :=
  match s.sched.pc t, s.stage t with
  | .scan, .turn | .scan, .tickle _ | .idle, .woken => true
  | .took _, _ | .exec _ _, _ | .saving _ _, _ | .returned _, _ => true
  | _, _ => false

/-- Some worker will scan the queue, some call of `epoll_wait` will return, or the
tickle of a push is under way. -/
def Attended : Prop :=
  (∃ t ∈ W, s.scansAgain t = true) ∨ s.ready = true ∨ ∃ k ∈ s.due, k.push = true

/-- No task waits that nothing attends to. -/
def Covered : Prop :=
  s.Attended W ∨ ∀ e ∈ s.sched.tasks, ¬ s.Waiting W e

/-- The steps after which no tickle follows though a task may have come within
reach: a tickle that finds no idle thread, a push onto a queue that is not empty,
and a fiber changed from outside. -/
def silent : TickleLabel τ → Bool
  | .hasIdleThreads i => decide (s.sched.idleThreadCount = 0) && (s.due[i]?).any Tickle.push
  | .tickle t =>
    decide (s.sched.idleThreadCount = 0 ∧ s.sched.pc t = .scan ∧ s.stage t = .tickle false)
  | .schedule _ _ => !s.sched.tasks.isEmpty
  | .outside _ _ => true
  | _ => false

/-- Somebody attends to the tasks besides the scan or the tickle whose step `a` is. -/
def AttendedBeside (a : TickleLabel τ) : Prop :=
  (∃ t ∈ W, a ≠ .tickle t ∧ s.scansAgain t = true) ∨ s.ready = true ∨
    ∃ i k, a ≠ .hasIdleThreads i ∧ s.due[i]? = some k ∧ k.push = true

/-- A task waits, or will once `a` is taken: the one that `a` pushes, or one that the
change of a fiber brings within reach. -/
def WaitsFor : TickleLabel τ → Prop
  | .schedule _ task => (∃ e ∈ s.sched.tasks, s.Waiting W e) ∨
      ∃ t ∈ W, eligible t s.sched.fiberState ⟨s.sched.pushed.length, task⟩ = true
  | .outside f x => ∃ e ∈ s.sched.tasks, s.tickled ≤ e.seq ∧
      ∃ t ∈ W, eligible t (s.sched.setFiber f x).fiberState e = true
  | _ => ∃ e ∈ s.sched.tasks, s.Waiting W e

end TickleState

/-- A silent step is taken only where somebody else attends to the tasks, or none waits. -/
def Heedful (W : List τ) (s : TickleState τ) (a : TickleLabel τ) : Prop :=
  s.silent a = true → s.AttendedBeside W a ∨ ¬ s.WaitsFor W a

namespace TickleState

variable {W : List τ} {s s' : TickleState τ} {t : τ}

theorem Covered.not_lost (h : s.Covered W) : ¬ s.Lost W := by
  intro hlost
  obtain ⟨e, he, hwaiting⟩ := hlost.task
  rcases h with (⟨t, ht, hscans⟩ | hready | ⟨k, hk, hpush⟩) | hnone
  · obtain ⟨hpc, hstage, -⟩ := hlost.blocked t ht
    simp [scansAgain, hpc, hstage] at hscans
  · obtain ⟨t, ht, -⟩ := hwaiting.2
    obtain ⟨-, -, hnot⟩ := hlost.blocked t ht
    rw [hready] at hnot
    cases hnot
  · rw [hlost.pushed k hk] at hpush
    cases hpush
  · exact hnone e he hwaiting

/-! ## What each step leaves behind -/

theorem covered_of_scansAgain (ht : t ∈ W) (h : s.scansAgain t = true) : s.Covered W :=
  .inl (.inl ⟨t, ht, h⟩)

/-- A worker that would not have scanned again goes on, and all else stays. -/
theorem Covered.congr (h : s.Covered W)
    (hscans : ∀ t, s.scansAgain t = true → s'.scansAgain t = true) (hready : s'.ready = s.ready)
    (hdue : ∀ k ∈ s.due, k.push = true → ∃ k' ∈ s'.due, k'.push = true)
    (htasks : s'.sched.tasks = s.sched.tasks) (hfiber : s'.sched.fiber = s.sched.fiber)
    (htickled : s'.tickled = s.tickled) : s'.Covered W := by
  rcases h with (⟨t, ht, hagain⟩ | hr | ⟨k, hk, hpush⟩) | hnone
  · exact .inl (.inl ⟨t, ht, hscans t hagain⟩)
  · exact .inl (.inr (.inl (hready.trans hr)))
  · exact .inl (.inr (.inr (hdue k hk hpush)))
  · right
    intro e he hwaiting
    rw [htasks] at he
    have hstate : s'.sched.fiberState = s.sched.fiberState := by
      funext f
      simp only [Scheduler.State.fiberState, hfiber]
    apply hnone e he
    rwa [Waiting, hstate, htickled] at hwaiting

@[simp] theorem setStage_stage (s : TickleState τ) (t : τ) (stage : Stage) (u : τ) :
    (s.setStage t stage).stage u = if u = t then stage else s.stage u :=
  Function.update_apply ..
@[simp] theorem setStage_sched (s : TickleState τ) (t : τ) (stage : Stage) :
    (s.setStage t stage).sched = s.sched := rfl
@[simp] theorem setStage_ready (s : TickleState τ) (t : τ) (stage : Stage) :
    (s.setStage t stage).ready = s.ready := rfl

theorem scan_covered (ht : t ∈ W) (hpc : s.sched.pc t = .scan) : (s.scan t).Covered W := by
  cases htask : (Scheduler.scan t s.sched.fiberState s.sched.tasks).task with
  | some e =>
    apply covered_of_scansAgain ht
    simp [scan, htask, scansAgain]
  | none =>
    cases htickle : (Scheduler.scan t s.sched.fiberState s.sched.tasks).tickleMe with
    | true =>
      apply covered_of_scansAgain ht
      simp [scan, htask, htickle, scansAgain, hpc]
    | false =>
      right
      simp only [scan, htask]
      rintro e he ⟨-, u, -, hu⟩
      have hnot := Scheduler.scan_quiet htask htickle e he u
      simp only [setStage_sched] at hu
      rw [hnot] at hu
      cases hu

/-- A byte in the pipe wakes a worker. -/
theorem covered_of_ready (h : s.ready = true) : s.Covered W :=
  .inl (.inr (.inl h))

theorem enter_covered (h : s.Covered W) (hpc : s.sched.pc t = .scan) (hstage : s.stage t = .empty) :
    (s.enter t).Covered W := by
  have hscans (s₁ : TickleState τ) (hothers : ∀ u, u ≠ t → s₁.sched.pc u = s.sched.pc u ∧
      s₁.stage u = s.stage u) (u : τ) (hu : s.scansAgain u = true) : s₁.scansAgain u = true := by
    rcases eq_or_ne u t with rfl | hne
    · simp [scansAgain, hpc, hstage] at hu
    · obtain ⟨hpc', hstage'⟩ := hothers u hne
      rwa [scansAgain, hpc', hstage']
  unfold enter
  split
  · refine h.congr (hscans _ fun u hu => ?_) rfl (fun k hk hpush => ⟨k, hk, hpush⟩) rfl rfl rfl
    simp [hu]
  · refine h.congr (hscans _ fun u hu => ?_) rfl (fun k hk hpush => ⟨k, hk, hpush⟩) rfl rfl rfl
    simp [hu]

theorem leave_covered (ht : t ∈ W) : (s.leave t).Covered W := by
  apply covered_of_scansAgain ht
  simp [leave, scansAgain]

theorem tickle_covered {counted : Bool} (ht : t ∈ W)
    (hpc : s.sched.pc t = .scan ∨ ∃ e, s.sched.pc t = .took e)
    (hstage : s.stage t = .tickle counted)
    (hloud : s.silent (.tickle t) = false) : (s.tickle t counted).Covered W := by
  cases counted with
  | true => exact covered_of_ready rfl
  | false =>
    apply covered_of_scansAgain ht
    simp only [tickle, Bool.false_eq_true, if_false]
    rcases hpc with hpc | ⟨e, hpc⟩
    · have hidle : 0 < s.sched.idleThreadCount := by
        apply Nat.pos_of_ne_zero
        intro hzero
        simp [silent, hzero, hpc, hstage] at hloud
      simp [if_pos hidle, scansAgain, hpc]
    · split <;> simp [scansAgain, hpc]

theorem run_covered {a : Scheduler.Label τ} {q : Scheduler.State τ} (ht : t ∈ W)
    (hstage : s.stage t = .turn) (ha : ofTask a = true) (hthread : a.thread = some t)
    (h : Scheduler.threadStep s.sched t a = some q) :
    Covered W { s with sched := q } := by
  apply covered_of_scansAgain ht
  have hstep := Scheduler.threadStep_step ht hthread h
  cases hstep with
  | resume | yield | finish | save | complete => 
    cases hthread
    simp [scansAgain, hstage]
  | schedule | take | leave | rest | idle | stop | outside => cases ha

theorem hasIdleThreads_covered {i : Nat} {k : Tickle τ} (h : s.Covered W) (hk : s.due[i]? = some k)
    (hloud : s.silent (.hasIdleThreads i) = false) : (s.hasIdleThreads i k).Covered W := by
  obtain ⟨hi, hget⟩ := List.getElem?_eq_some_iff.mp hk
  unfold hasIdleThreads
  split
  · refine h.congr (fun _ hu => hu) rfl ?_ rfl rfl rfl
    intro k' hk' hpush
    rcases List.mem_iff_getElem?.mp hk' with ⟨j, hj⟩
    rcases eq_or_ne i j with rfl | hne
    · -- the same tickle, counted
      rw [hk] at hj
      cases hj
      exact ⟨_, List.mem_set hi _, hpush⟩
    · refine ⟨k', List.mem_of_getElem? (i := j) ?_, hpush⟩
      rw [List.getElem?_set_ne hne]
      exact hj
  · rename_i hidle
    have hnot : k.push = false := by
      have hzero : s.sched.idleThreadCount = 0 := Nat.eq_zero_of_not_pos hidle
      simpa [silent, hzero, hk] using hloud
    refine h.congr (fun _ hu => hu) rfl ?_ rfl rfl rfl
    intro k' hk' hpush
    refine ⟨k', ?_, hpush⟩
    have hne : k' ≠ k := by
      rintro rfl
      rw [hnot] at hpush
      cases hpush
    rw [List.mem_eraseIdx_iff_getElem?]
    obtain ⟨j, hj⟩ := List.mem_iff_getElem?.mp hk'
    refine ⟨j, ?_, hj⟩
    rintro rfl
    rw [hk] at hj
    exact hne (Option.some.inj hj).symm

theorem workerStep_covered {a : TickleLabel τ} (h : s.Covered W) (hloud : s.silent a = false)
    (ht : t ∈ W) (ha : a.worker = some t) (hstep : workerStep s t a = some s') : s'.Covered W := by
  have hsame {stage : Stage} (hpc : s.sched.pc t = .idle) (hstage : s.stage t = .check) :
      (s.setStage t stage).Covered W := by
    refine h.congr (fun u hu => ?_) rfl (fun k hk hpush => ⟨k, hk, hpush⟩) rfl rfl rfl
    rcases eq_or_ne u t with rfl | hne
    · simp [scansAgain, hpc, hstage] at hu
    · simpa [scansAgain, hne] using hu
  have hwoken (s₁ : TickleState τ) (hpc : s₁.sched.pc t = .idle) :
      (s₁.setStage t .woken).Covered W := by
    apply covered_of_scansAgain ht
    simp [scansAgain, hpc]
  unfold workerStep at hstep
  split at hstep
  case h_1 hpc hstage =>
    cases hstep
    exact scan_covered ht hpc
  case h_2 hpc hstage =>
    cases ha
    cases hstep
    exact tickle_covered ht (.inl hpc) hstage hloud
  case h_3 hpc hstage =>
    cases ha
    cases hstep
    exact tickle_covered ht (.inr ⟨_, hpc⟩) hstage hloud
  case h_4 hpc hstage =>
    cases hstep
    exact enter_covered h hpc hstage
  case h_5 hstage =>
    split at hstep
    · rename_i hrun
      obtain ⟨q, hq, rfl⟩ := Option.map_eq_some_iff.mp hstep
      exact run_covered ht hstage hrun.1 hrun.2 hq
    · cases hstep
  case h_6 hpc hstage =>
    split at hstep
    · cases hstep
      apply covered_of_scansAgain ht
      simp [leave, scansAgain]
    · cases hstep
      exact hsame hpc hstage
  case h_7 hpc hstage =>
    split at hstep
    · cases hstep
      exact hwoken _ hpc
    · cases hstep
  case h_8 hpc hstage =>
    cases hstep
    exact hwoken _ hpc
  case h_9 hpc hstage =>
    cases hstep
    exact leave_covered ht
  case h_10 => cases hstep

theorem schedule_covered {caller : Option τ} {task : ScheduleTask τ}
    (hloud : s.silent (.schedule caller task) = false) : (s.schedule caller task).Covered W := by
  have hempty : s.sched.tasks.isEmpty = true := by
    simpa [silent] using hloud
  refine .inl (.inr (.inr ⟨⟨caller, true, false⟩, ?_, rfl⟩))
  simp [schedule, hempty]

/-! ## Silent steps -/

/-- Who attends to the tasks besides the step still does so after it. -/
theorem AttendedBeside.covered {a : TickleLabel τ} (h : s.AttendedBeside W a)
    (hscans : ∀ t, a ≠ .tickle t → s.scansAgain t = true → s'.scansAgain t = true)
    (hready : s'.ready = s.ready)
    (hdue : ∀ i k, a ≠ .hasIdleThreads i → s.due[i]? = some k → k ∈ s'.due) : s'.Covered W := by
  rcases h with ⟨t, ht, hother, hagain⟩ | hr | ⟨i, k, hother, hk, hpush⟩
  · exact .inl (.inl ⟨t, ht, hscans t hother hagain⟩)
  · exact .inl (.inr (.inl (hready.trans hr)))
  · exact .inl (.inr (.inr ⟨k, hdue i k hother hk, hpush⟩))

theorem hasIdleThreads_heedful {i : Nat} {k : Tickle τ} (hzero : s.sched.idleThreadCount = 0)
    (hg : s.AttendedBeside W (.hasIdleThreads i) ∨ ¬ s.WaitsFor W (.hasIdleThreads i)) :
    (s.hasIdleThreads i k).Covered W := by
  have hs : s.hasIdleThreads i k = { s with due := s.due.eraseIdx i } := by
    rw [hasIdleThreads, if_neg (by rw [hzero]; exact Nat.lt_irrefl 0)]
  rw [hs]
  rcases hg with hbeside | hnone
  · refine hbeside.covered (fun _ _ hu => hu) rfl fun j k' hother hk' => ?_
    rw [List.mem_eraseIdx_iff_getElem?]
    exact ⟨j, fun hji => hother (hji ▸ rfl), hk'⟩
  · exact .inr fun e he hwaiting => hnone ⟨e, he, hwaiting⟩

theorem tickle_heedful (hzero : s.sched.idleThreadCount = 0)
    (hg : s.AttendedBeside W (.tickle t) ∨ ¬ s.WaitsFor W (.tickle t)) :
    (s.tickle t false).Covered W := by
  have hs : s.tickle t false = s.setStage t (s.afterScan t) := by
    simp [tickle, hzero]
  rw [hs]
  rcases hg with hbeside | hnone
  · refine hbeside.covered (fun u hother hu => ?_) rfl fun j k' _ hk' => List.mem_of_getElem? hk'
    have hut : u ≠ t := by
      rintro rfl
      exact hother rfl
    simpa [scansAgain, hut] using hu
  · exact .inr fun e he hwaiting => hnone ⟨e, he, hwaiting⟩

theorem schedule_heedful {caller : Option τ} {task : ScheduleTask τ}
    (hsilent : s.silent (.schedule caller task) = true)
    (hg : s.AttendedBeside W (.schedule caller task) ∨ ¬ s.WaitsFor W (.schedule caller task)) :
    (s.schedule caller task).Covered W := by
  have hdue : (s.schedule caller task).due = s.due := by
    have hempty : s.sched.tasks.isEmpty = false := by
      simpa [silent] using hsilent
    simp only [schedule, hempty, Bool.false_eq_true, if_false]
  rcases hg with hbeside | hnone
  · refine hbeside.covered (fun _ _ hu => hu) rfl fun j k' _ hk' => ?_
    rw [hdue]
    exact List.mem_of_getElem? hk'
  · right
    intro e he hwaiting
    rcases Scheduler.State.mem_schedule he with hold | rfl
    · exact hnone (.inl ⟨e, hold, hwaiting⟩)
    · exact hnone (.inr hwaiting.2)

theorem outside_heedful {f : FiberId} {x : Fiber}
    (hg : s.AttendedBeside W (.outside f x) ∨ ¬ s.WaitsFor W (.outside f x)) :
    Covered W { s with sched := s.sched.setFiber f x } := by
  rcases hg with hbeside | hnone
  · exact hbeside.covered (fun _ _ hu => hu) rfl fun j k' _ hk' => List.mem_of_getElem? hk'
  · exact .inr fun e he hwaiting => hnone ⟨e, he, hwaiting⟩

end TickleState

open TickleState in
/-- One heedful step leaves no task that nothing attends to. -/
theorem covered_step {W : List τ} {s s' : TickleState τ} {a : TickleLabel τ} (h : s.Covered W)
    (hg : Heedful W s a) (hstep : tickleStep W s a = some s') : s'.Covered W := by
  cases hsilent : s.silent a with
  | true =>
    have hheed := hg hsilent
    cases a with
    | hasIdleThreads i =>
      simp only [silent, Bool.and_eq_true, decide_eq_true_eq] at hsilent
      simp only [tickleStep] at hstep
      split at hstep
      · split at hstep
        · cases hstep
        · cases hstep
          exact hasIdleThreads_heedful hsilent.1 hheed
      · cases hstep
    | tickle t =>
      simp only [silent, decide_eq_true_eq] at hsilent
      obtain ⟨hzero, hpc, hstage⟩ := hsilent
      simp only [tickleStep, workerStep, hpc, hstage] at hstep
      split at hstep
      · cases hstep
        exact tickle_heedful hzero hheed
      · cases hstep
    | schedule caller task =>
      simp only [tickleStep] at hstep
      split at hstep
      · cases hstep
        exact schedule_heedful hsilent hheed
      · cases hstep
    | outside f x =>
      cases hstep
      exact outside_heedful hheed
    | poke | write | scan | enter | run | stopping | wake | timeout | leave | event | stop =>
      cases hsilent
  | false =>
    have hworker {t : τ} (ha : a.worker = some t)
        (hstep : (if t ∈ W ∧ s.free t then workerStep s t a else none) = some s') :
        s'.Covered W := by
      split at hstep
      · rename_i ht
        exact workerStep_covered h hsilent ht.1 ha hstep
      · cases hstep
    cases a with
    | schedule caller task =>
      simp only [tickleStep] at hstep
      split at hstep
      · cases hstep
        exact schedule_covered hsilent
      · cases hstep
    | poke caller =>
      simp only [tickleStep] at hstep
      split at hstep
      · cases hstep
        exact h.congr (fun _ hu => hu) rfl
          (fun k hk hpush => ⟨k, List.mem_append_left _ hk, hpush⟩) rfl rfl rfl
      · cases hstep
    | hasIdleThreads i =>
      simp only [tickleStep] at hstep
      split at hstep
      · rename_i k hk
        split at hstep
        · cases hstep
        · cases hstep
          exact hasIdleThreads_covered h hk hsilent
      · cases hstep
    | write i =>
      simp only [tickleStep] at hstep
      split at hstep
      · split at hstep
        · cases hstep
          exact covered_of_ready rfl
        · cases hstep
      · cases hstep
    | event =>
      cases hstep
      exact covered_of_ready rfl
    | stop =>
      cases hstep
      exact h.congr (fun _ hu => hu) rfl (fun k hk hpush => ⟨k, hk, hpush⟩) rfl rfl rfl
    | outside => cases hsilent
    | scan | tickle | enter | run | stopping | wake | timeout | leave => exact hworker rfl hstep

/-- In a run whose silent steps are all taken where somebody else attends to the tasks,
or none waits, no wake-up is lost. -/
theorem not_lost_of_reachable {W : List τ} {s : TickleState τ}
    (h : (tickleSystem W).Reachable (Heedful W) s) : ¬ s.Lost W := by
  have hpreserved : (tickleSystem W).Preserved (Heedful W) fun s => s.Covered W :=
    fun s a t hs hg hstep => covered_step hs hg hstep
  apply TickleState.Covered.not_lost
  refine hpreserved.reachable ?_ h
  rintro s₀ ⟨hinit, -⟩
  right
  intro e he
  rw [hinit.tasks] at he
  cases he

/-! One worker, and a callback scheduled from outside. -/

def oneWorker : TickleState Nat where
  sched := Scheduler.start
  stage := fun _ => .turn
  due := []
  ready := false
  tickled := 0

theorem oneWorker_init : (tickleSystem [0]).init oneWorker :=
  ⟨Scheduler.start_initial, fun _ => rfl, rfl, rfl, rfl⟩

/-- The worker sleeps already: it is counted, and the byte is written. -/
def sleepingRun : List (TickleLabel Nat) :=
  [.scan 0, .enter 0, .stopping 0 false, .schedule none (.ofCb (some 7) none), .hasIdleThreads 0,
    .write 0]

theorem not_lost_of_reachable_sleepingRun :
    ∃ s, (tickleSystem [0]).Reachable (Heedful [0]) s ∧ ¬ s.Lost [0] ∧
      s.sched.pc 0 = .idle ∧ s.sched.tasks.length = 1 := by
  obtain ⟨s, hs, hend⟩ := TransitionSystem.Reachable.of_replay (T := tickleSystem [0])
    (G := Heedful [0]) (g := fun s a => !s.silent a)
    (fun s a hg hsilent => by simp [hsilent] at hg) (l := sleepingRun)
    (p := fun s => s.sched.pc 0 = .idle ∧ s.sched.tasks.length = 1) oneWorker_init (by decide)
  exact ⟨s, hs, not_lost_of_reachable hs, of_decide_eq_true hend⟩

/-- The worker has scanned the empty queue and is not counted idle yet, so the
tickle is skipped. -/
def fallingAsleepRun : List (TickleLabel Nat) :=
  [.scan 0, .schedule none (.ofCb (some 7) none), .hasIdleThreads 0, .enter 0, .stopping 0 false]

theorem lost_fallingAsleepRun :
    ¬ ∀ s, (tickleSystem [0]).Reachable TransitionSystem.free s → ¬ s.Lost [0] := by
  intro hall
  obtain ⟨s, hs, hend⟩ := TransitionSystem.Reachable.of_replay (T := tickleSystem [0])
    (G := TransitionSystem.free) (g := fun _ _ => true) (fun _ _ _ => trivial)
    (l := fallingAsleepRun)
    (p := fun s => (s.sched.pc 0 = .idle ∧ s.stage 0 = .wait ∧ s.ready = false) ∧
      s.due = [] ∧ s.tickled = 0 ∧ s.sched.tasks = [⟨0, .ofCb (some 7) none⟩]) oneWorker_init
    (by decide)
  obtain ⟨hblocked, hdue, htickled, htasks⟩ := of_decide_eq_true hend
  apply hall s hs
  refine ⟨?_, ?_, ⟨0, .ofCb (some 7) none⟩, ?_, Nat.le_of_eq htickled, 0, ?_, rfl⟩
  · simpa [TickleState.Blocked] using hblocked
  · simp [hdue]
  · simp [htasks]
  · simp

end IOManager
