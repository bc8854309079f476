-- SUMMARY: The task queue of the scheduler: ScheduleTask, scheduleNoLock, and the locked scan of Scheduler::run.
import Mathlib.Data.List.Basic
import MyCoroutine.Fiber

/-! # Tasks and the queue

`m_tasks` is a list with the next task first. Each entry carries, beside the
`ScheduleTask` of the source, the number of the push that made it. No step reads
that number; it tells two equal tasks apart when a theorem says where each push
is. Thread identifiers are of any type `τ`. -/

/-- A `std::function<void()>`, by identity. -/
abbrev CbId := Nat

/-- `Scheduler::ScheduleTask`; `thread = none` is `std::thread::id(-1)`. -/
structure ScheduleTask (τ : Type) where
  fiber : Option FiberId
  cb : Option CbId
  thread : Option τ
  deriving DecidableEq, Repr

namespace ScheduleTask

variable {τ : Type}

/-- `ScheduleTask(Fiber::ptr f, std::thread::id thr)`. -/
def ofFiber (f : Option FiberId) (thr : Option τ) : ScheduleTask τ :=
  { fiber := f, cb := none, thread := thr }

/-- `ScheduleTask(std::function<void()> f, std::thread::id thr)`. -/
def ofCb (f : Option CbId) (thr : Option τ) : ScheduleTask τ :=
  { fiber := none, cb := f, thread := thr }

/-- `task.fiber || task.cb`. -/
def nonEmpty (t : ScheduleTask τ) : Bool :=
  t.fiber.isSome || t.cb.isSome

end ScheduleTask

/-- One element of `m_tasks`, with the number of its push. -/
structure TaskEntry (τ : Type) where
  seq : Nat
  task : ScheduleTask τ
  deriving DecidableEq, Repr

namespace Scheduler

variable {τ : Type}

/-- `Scheduler::scheduleNoLock`: whether a tickle is needed, and the queue after. -/
def scheduleNoLock (tasks : List (TaskEntry τ)) (seq : Nat) (task : ScheduleTask τ) :
    Bool × List (TaskEntry τ) :=
  (tasks.isEmpty, if task.nonEmpty then tasks ++ [⟨seq, task⟩] else tasks)

/-! ## The locked scan -/

/-- What the locked part of one turn of `Scheduler::run` leaves behind. -/
structure Scan (τ : Type) where
  task : Option (TaskEntry τ)
  tasks : List (TaskEntry τ)
  tickleMe : Bool

variable [DecidableEq τ]

/-- The loop over `m_tasks` in `Scheduler::run` on thread `me`. An entry pinned
to another thread is passed over and marks `tickle_me`; an entry whose fiber is
still `RUNNING` is passed over; the first other entry is taken out, and
`tickle_me` is set when the iterator then does not stand at the end. -/
def scan (me : τ) (state : FiberId → Fiber.State) : List (TaskEntry τ) → Scan τ
  | [] => ⟨none, [], false⟩
  | it :: rest =>
    -- `-1` in the source is any thread
    if it.task.thread ≠ none ∧ it.task.thread ≠ some me then
      let r := scan me state rest
      ⟨r.task, it :: r.tasks, true⟩
    else if it.task.fiber.any (fun f => state f = .running) then
      let r := scan me state rest
      ⟨r.task, it :: r.tasks, r.tickleMe⟩
    else ⟨some it, rest, !rest.isEmpty⟩

/-- The entries a scan by `me` takes: unpinned or pinned to `me`, and without a
`RUNNING` fiber. -/
def eligible (me : τ) (state : FiberId → Fiber.State) (e : TaskEntry τ) : Bool :=
  (e.task.thread = none ∨ e.task.thread = some me) ∧
    ¬ e.task.fiber.any (fun f => state f = .running) = true

theorem scan_cons_of_eligible {me : τ} {state : FiberId → Fiber.State} {it : TaskEntry τ}
    (h : eligible me state it = true) (rest : List (TaskEntry τ)) :
    scan me state (it :: rest) = ⟨some it, rest, !rest.isEmpty⟩ := by
  simp only [eligible, decide_eq_true_eq] at h
  have hpin : ¬ (it.task.thread ≠ none ∧ it.task.thread ≠ some me) := by tauto
  simp only [scan, if_neg hpin, if_neg h.2]

theorem scan_cons_of_not_eligible {me : τ} {state : FiberId → Fiber.State} {it : TaskEntry τ}
    (h : eligible me state it = false) (rest : List (TaskEntry τ)) :
    (scan me state (it :: rest)).task = (scan me state rest).task ∧
      (scan me state (it :: rest)).tasks = it :: (scan me state rest).tasks := by
  simp only [eligible, decide_eq_false_iff_not] at h
  by_cases hpin : it.task.thread ≠ none ∧ it.task.thread ≠ some me
  · simp only [scan, if_pos hpin, and_self]
  · have hrun : it.task.fiber.any (fun f => state f = .running) = true := by tauto
    simp only [scan, if_neg hpin, if_pos hrun, and_self]

/-- The scan is the search for, and the removal of, the first eligible entry. -/
theorem scan_eq (me : τ) (state : FiberId → Fiber.State) (q : List (TaskEntry τ)) :
    (scan me state q).task = q.find? (eligible me state) ∧
      (scan me state q).tasks = q.eraseP (eligible me state) := by
  induction q with
  | nil => exact ⟨rfl, rfl⟩
  | cons it rest ih =>
    cases he : eligible me state it with
    | true => simp [scan_cons_of_eligible he, he]
    | false =>
      obtain ⟨htask, htasks⟩ := scan_cons_of_not_eligible he rest
      simp [htask, htasks, he, ih]

/-- A scan that takes an entry takes the first eligible one and leaves every
other entry in place. -/
theorem scan_some {me : τ} {state : FiberId → Fiber.State} {q : List (TaskEntry τ)}
    {e : TaskEntry τ} (h : (scan me state q).task = some e) :
    ∃ pre post, q = pre ++ e :: post ∧ (scan me state q).tasks = pre ++ post ∧
      (∀ x ∈ pre, eligible me state x = false) ∧ eligible me state e = true := by
  rw [(scan_eq me state q).1] at h
  obtain ⟨he, pre, post, rfl, hpre⟩ := List.find?_eq_some_iff_append.mp h
  refine ⟨pre, post, rfl, ?_, fun x hx => by simpa using hpre x hx, he⟩
  rw [(scan_eq _ _ _).2, List.eraseP_append_right _ (fun x hx => by simpa using hpre x hx),
    List.eraseP_cons_of_pos he]

/-- A scan that takes nothing leaves the queue as it was, and nothing in it was
eligible. -/
theorem scan_none {me : τ} {state : FiberId → Fiber.State} {q : List (TaskEntry τ)}
    (h : (scan me state q).task = none) :
    (scan me state q).tasks = q ∧ ∀ x ∈ q, eligible me state x = false := by
  rw [(scan_eq me state q).1, List.find?_eq_none] at h
  refine ⟨?_, fun x hx => by simpa using h x hx⟩
  rw [(scan_eq _ _ _).2, List.eraseP_of_forall_not fun x hx => by simpa using h x hx]

/-- A scan that takes nothing and asks for no tickle has passed over entries with
`RUNNING` fibers only, and no other scan takes one of those. -/
theorem scan_quiet {me : τ} {state : FiberId → Fiber.State} {q : List (TaskEntry τ)}
    (hnone : (scan me state q).task = none) (hquiet : (scan me state q).tickleMe = false) :
    ∀ e ∈ q, ∀ t, eligible t state e = false := by
  induction q with
  | nil => simp
  | cons it rest ih =>
    have hnot : eligible me state it = false := (scan_none hnone).2 it List.mem_cons_self
    have hpin : ¬ (it.task.thread ≠ none ∧ it.task.thread ≠ some me) := by
      intro hpin
      simp [scan, if_pos hpin] at hquiet
    have hrunning : it.task.fiber.any (fun f => state f = .running) = true := by
      simp only [eligible, decide_eq_false_iff_not] at hnot
      tauto
    simp only [scan, if_neg hpin, if_pos hrunning] at hnone hquiet
    intro e he t
    rcases List.mem_cons.mp he with rfl | he
    · simp [eligible, hrunning]
    · exact ih hnone hquiet e he t

end Scheduler
