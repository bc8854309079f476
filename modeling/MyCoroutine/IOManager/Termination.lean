-- SUMMARY: When stop() of an IOManager returns: the exact condition on the tasks, the timers and the events under which all workers leave run().
import MyCoroutine.IOManager.Accounting
import MyCoroutine.Scheduler.Termination

/-! # The end of every worker

The base scheduler waits for its tasks. An `IOManager` waits for its timers and its events
too, and its idle fibers do the waiting: they go round through the reads of `stopping`, through
`epoll_wait`, the callbacks of the timers and the entries, and back to the scan. Once nobody
calls anything any more and the timers have run out, the work that is left stands still in the
end (`ShutdownState.unfinished`), and the workers only go round. -/

namespace IOManager

open Counting Filter Scheduler TransitionSystem

variable {τ : Type} {W : List τ} {m n : ℕ}

/-- The worker a step belongs to; for a call, the one whose task makes it. -/
def ShutdownLabel.worker : ShutdownLabel τ → Option τ
  | .run a => a.thread
  | .timer caller _ _ | .event caller _ _ => caller
  | .nextTimer t _ | .pendingCount t | .stopping t | .wait t _ | .expire t _ _ | .push t
  | .handle t => some t

/-- A call of `schedule`, of a timer function or of an event function. -/
def ShutdownLabel.calls : ShutdownLabel τ → Bool
  | .run (.schedule _ _) | .timer _ _ _ | .event _ _ _ => true
  | .run _ | .nextTimer _ _ | .pendingCount _ | .stopping _ | .wait _ _ | .expire _ _ _
  | .push _ | .handle _ => false

/-- The steps that remain to the tasks there are, and to those that idle fibers have collected. -/
def ShutdownState.unfinished (W : List τ) (s : ShutdownState τ) : Nat :=
  s.sched.unfinished W + 6 * (W.map fun t => ((s.idle t).collected (τ := τ)).length).sum

/-- The steps of an idle fiber up to its yield, when there is no timer. -/
def IdlePc.toYield : IdlePc → Nat
  | .timers => 6
  | .pending => 5
  | .scheduler => 4
  | .wait => 3
  | .expire _ _ => 2
  | .push cbs _ _ => cbs.length + 1
  | .handle _ => 0

/-- The steps up to its end, when `stopping` finds nothing to wait for. -/
def IdlePc.toEnd : IdlePc → Nat
  | .scheduler => 2
  | .pending => 3
  | .timers => 4
  -- it yields, and comes back by a scan
  | pc => pc.toYield + 6

variable [DecidableEq τ] {G : ShutdownState τ → ShutdownLabel τ → Prop} {s s' : ShutdownState τ}
  {a : ShutdownLabel τ} {t u : τ}

/-! ## One step -/

theorem IdleStep.worker (h : IdleStep s t a s') : a.worker = some t := by
  cases h <;> rfl

/-- The other workers stay where they are. -/
theorem WorkStep.others (h : WorkStep W s a s') (hother : a.worker ≠ some u) :
    s'.idle u = s.idle u ∧ s'.sched.pc u = s.sched.pc u ∧
      s'.sched.idleTerm u = s.sched.idleTerm u := by
  cases h with
  | run b q hb hq => exact ⟨rfl, hq.pc_other hother⟩
  | timer caller call now m hop => exact ⟨rfl, rfl, rfl⟩
  | event caller call granted out m hown hop =>
    obtain ⟨hpcs, hterm, -⟩ := schedule_all (W := W) s.sched (s.ownTasks out.triggers)
    exact ⟨rfl, congrFun hpcs u, congrFun hterm u⟩
  | idle t a s' ht hpc hidle =>
    exact hidle.others fun hut => hother (by rw [hidle.worker, hut])

/-- A worker goes round: from a scan that found nothing, or through its idle fiber. -/
inductive Turns (s : ShutdownState τ) (t : τ) (s' : ShutdownState τ) : Prop where
  | scan (hpc : s.sched.pc t = .scan)
      (hnone : ∀ e ∈ s.sched.tasks, eligible t s.sched.fiberState e = false)
      (hnext : s'.sched.pc t = if s.sched.idleTerm t then .left else .idle)
      (hsame : s'.idle t = s.idle t)
  | idle (a : ShutdownLabel τ) (hpc : s.sched.pc t = .idle) (h : IdleStep s t a s')

theorem listExpiredCb_nil {m : TimerManager CbId} (h : m.timers = []) (now : Int) (probe : Nat) :
    (m.listExpiredCb now probe).1 = [] := by
  rw [TimerManager.listExpiredCb, h]

/-- A worker comes out of its idle fiber. -/
theorem unfinished_leaveIdle (hW : W.Nodup) (ht : t ∈ W) (hpc : s.sched.pc t = .idle)
    {q : Scheduler.State τ} (htasks : q.tasks = s.sched.tasks)
    (hpcs : q.pc = Function.update s.sched.pc t .scan) :
    q.unfinished W = s.sched.unfinished W := by
  have hsum := sum_update hW ht Pc.weight s.sched.pc .scan
  rw [hpc] at hsum
  change _ + 0 = _ + 0 at hsum
  rw [Scheduler.State.unfinished, Scheduler.State.unfinished, htasks, hpcs]
  omega

omit [DecidableEq τ] in
theorem tasks_schedule_le (q : Scheduler.State τ) (task : ScheduleTask τ) :
    (q.schedule task).tasks.length ≤ q.tasks.length + 1 := by
  unfold Scheduler.State.schedule scheduleNoLock
  dsimp only
  split <;> simp

/-- An idle fiber that schedules a callback makes the work smaller; else it only goes round. -/
theorem IdleStep.unfinished (hW : W.Nodup) (h : IdleStep s t a s') (ht : t ∈ W)
    (hpc : s.sched.pc t = .idle) (hunfed : (s.idle t).unfed) (htimers : s.timers.timers = []) :
    s'.unfinished W < s.unfinished W ∨
      s'.unfinished W = s.unfinished W ∧ s'.sched.tasks = s.sched.tasks := by
  have goes {s' : ShutdownState τ} {pc : IdlePc}
      (hsched : s'.sched.unfinished W = s.sched.unfinished W)
      (hidle : s'.idle = Function.update s.idle t pc)
      (hlength : (pc.collected (τ := τ)).length = ((s.idle t).collected (τ := τ)).length) :
      s'.unfinished W = s.unfinished W := by
    have hsum := sum_update hW ht (fun pc : IdlePc => (pc.collected (τ := τ)).length) s.idle pc
    rw [ShutdownState.unfinished, ShutdownState.unfinished, hsched, hidle]
    omega
  cases h with
  | push cb cbs rt events hpc' =>
    left
    have hsum := sum_update hW ht (fun pc : IdlePc => (pc.collected (τ := τ)).length) s.idle
      (.push cbs rt events)
    have htasks := tasks_schedule_le s.sched (.ofCb cb none)
    have hpcs : (s.sched.schedule (.ofCb cb none)).pc = s.sched.pc := rfl
    have hbefore : ((s.idle t).collected (τ := τ)).length =
        ((IdlePc.push cbs rt events).collected (τ := τ)).length + 1 := by
      simp [hpc', IdlePc.collected]
    simp only [ShutdownState.unfinished, Scheduler.State.unfinished, ShutdownState.setIdle, hpcs]
    omega
  | entry fd mask granted entries ts m hpc' hop =>
    rw [hpc'] at hunfed
    cases hunfed
  | nextTimer now hpc' | pendingCount hpc' =>
    refine .inr ⟨goes rfl rfl ?_, rfl⟩
    rw [hpc']
    split <;> rfl
  | ends hpc' hstop =>
    have hturn : (s.sched.idleTurn t).pc = Function.update s.sched.pc t .scan := by
      unfold Scheduler.State.idleTurn
      split <;> rfl
    have hsched : (s.sched.idleTurn t).unfinished W = s.sched.unfinished W :=
      unfinished_leaveIdle hW ht hpc (idleTurn_tasks ..) hturn
    refine .inr ⟨?_, idleTurn_tasks ..⟩
    rw [ShutdownState.unfinished, ShutdownState.unfinished, hsched]
  | yields hpc' =>
    refine .inr ⟨goes (unfinished_leaveIdle hW ht hpc rfl rfl) rfl ?_, rfl⟩
    rw [hpc']
    rfl
  | expire now probe rt events hpc' =>
    refine .inr ⟨goes rfl rfl ?_, rfl⟩
    rw [hpc', listExpiredCb_nil htimers]
    rfl
  | goesOn hpc' hstop | wait polls events hpc' | pushed rt events hpc' | tickle entries hpc' =>
    refine .inr ⟨goes rfl rfl ?_, rfl⟩
    rw [hpc']
    rfl

/-- A step that calls nothing, while there is no timer, makes the work smaller or leaves it as
it was, and then the worker only goes round. -/
theorem WorkStep.unfinished (hW : W.Nodup) (h : WorkStep W s a s') (hcalls : a.calls = false)
    (hunfed : ∀ t, (s.idle t).unfed) (htimers : s.timers.timers = []) :
    s'.unfinished W < s.unfinished W ∨ s'.unfinished W = s.unfinished W ∧
      s'.sched.tasks = s.sched.tasks ∧ ∀ t, a.worker = some t → Turns s t s' := by
  cases h with
  | run b q hb hq =>
    have hnot (caller : Option τ) (task : ScheduleTask τ) : b ≠ .schedule caller task := by
      rintro rfl
      cases hcalls
    obtain hlt | ⟨heq, hstill⟩ := hq.unfinished hW hnot
    · exact .inl (Nat.add_lt_add_right hlt _)
    · refine .inr ⟨congrArg (· + _) heq, ?_⟩
      cases hstill with
      | scan u _ hpc hnone htasks hnext =>
        refine ⟨htasks, fun t ht => ?_⟩
        cases ht
        exact .scan hpc hnone hnext rfl
      | idle u => exact absurd rfl (hb u)
      | other _ _ hthread htasks =>
        refine ⟨htasks, fun t ht => ?_⟩
        rw [ShutdownLabel.worker, hthread] at ht
        cases ht
  | timer caller call now m hop => cases hcalls
  | event caller call granted out m hown hop => cases hcalls
  | idle t a s' ht hpc hidle =>
    refine (hidle.unfinished hW ht hpc (hunfed t) htimers).imp id fun hstill => ?_
    refine ⟨hstill.1, hstill.2, fun u hu => ?_⟩
    cases hidle.worker.symm.trans hu
    exact .idle a hpc hidle

/-! ## Going round -/

/-- `stopping` finds nothing to wait for. -/
structure Idling (s : ShutdownState τ) : Prop where
  timers : s.timers.timers = []
  pending : s.io.pendingEventCount = 0
  stopping : s.sched.stoppingNow = true

theorem IdleStep.toYield (h : IdleStep s t a s') (hunfed : (s.idle t).unfed)
    (htimers : s.timers.timers = []) :
    s'.sched.pc t = .scan ∨ (s'.idle t).toYield < (s.idle t).toYield := by
  have goes {s' : ShutdownState τ} {pc : IdlePc} (hidle : s'.idle = Function.update s.idle t pc)
      (hlt : pc.toYield < (s.idle t).toYield) : (s'.idle t).toYield < (s.idle t).toYield := by
    rwa [hidle, Function.update_self]
  cases h with
  | ends hpc hstop => exact .inl (idleTurn_pc ..)
  | yields hpc => exact .inl (Function.update_self ..)
  | tickle entries hpc | entry fd mask granted entries ts m hpc hop =>
    rw [hpc] at hunfed
    cases hunfed
  | nextTimer now hpc | pendingCount hpc =>
    refine .inr (goes rfl ?_)
    rw [hpc]
    split <;> simp [IdlePc.toYield]
  | expire now probe rt events hpc =>
    refine .inr (goes rfl ?_)
    simp [hpc, listExpiredCb_nil htimers, IdlePc.toYield]
  | goesOn hpc hstop | wait polls events hpc | push cb cbs rt events hpc | pushed rt events hpc =>
    refine .inr (goes rfl ?_)
    simp [hpc, IdlePc.toYield]

/-- The steps of a worker up to its end, when `stopping` finds nothing to wait for. -/
def ShutdownState.toLeave (s : ShutdownState τ) (t : τ) : Nat :=
  match s.sched.pc t with
  | .left => 0
  | .scan => if s.sched.idleTerm t then 1 else (s.idle t).toEnd + 1
  | _ => (s.idle t).toEnd

theorem IdleStep.toLeave (h : IdleStep s t a s') (hpc : s.sched.pc t = .idle)
    (hunfed : (s.idle t).unfed) (hidling : Idling s) : s'.toLeave t < (s.idle t).toEnd := by
  have goes {s' : ShutdownState τ} {pc : IdlePc} (hpcs : s'.sched.pc = s.sched.pc)
      (hidle : s'.idle = Function.update s.idle t pc) (hlt : pc.toEnd < (s.idle t).toEnd) :
      s'.toLeave t < (s.idle t).toEnd := by
    simpa [ShutdownState.toLeave, hpcs, hpc, hidle] using hlt
  cases h with
  | nextTimer now hpc' =>
    refine goes rfl rfl ?_
    simp [hpc', TimerManager.getNextTimer, hidling.timers, IdlePc.toEnd]
  | pendingCount hpc' =>
    refine goes rfl rfl ?_
    simp [hpc', hidling.pending, IdlePc.toEnd]
  | ends hpc' hstop =>
    simp [ShutdownState.toLeave, idleTurn_pc, idleTurn_idleTerm t hstop, hpc', IdlePc.toEnd]
  | goesOn hpc' hstop =>
    rw [hidling.stopping] at hstop
    cases hstop
  | wait polls events hpc' | push cb cbs rt events hpc' | pushed rt events hpc' =>
    refine goes rfl rfl ?_
    simp [hpc', IdlePc.toEnd, IdlePc.toYield]
  | expire now probe rt events hpc' =>
    refine goes rfl rfl ?_
    simp [hpc', listExpiredCb_nil hidling.timers, IdlePc.toEnd, IdlePc.toYield]
  | tickle entries hpc' | entry fd mask granted entries ts m hpc' hop =>
    rw [hpc'] at hunfed
    cases hunfed
  | yields hpc' =>
    simp only [ShutdownState.toLeave, ShutdownState.leaveIdle, ShutdownState.setIdle, hpc',
      Scheduler.State.setPc_pc, if_true, Function.update_self]
    split <;> simp [IdlePc.toEnd, IdlePc.toYield]

theorem Turns.toLeave (h : Turns s t s') (hunfed : (s.idle t).unfed) (hidling : Idling s) :
    s'.toLeave t < s.toLeave t := by
  cases h with
  | scan hpc hnone hnext hsame =>
    cases hterm : s.sched.idleTerm t with
    | true => simp [ShutdownState.toLeave, hpc, hnext, hterm]
    | false => simp [ShutdownState.toLeave, hpc, hnext, hterm, hsame]
  | idle a hpc h =>
    have hlt := h.toLeave hpc hunfed hidling
    simpa [ShutdownState.toLeave, hpc] using hlt

/-! ## Every run -/

/-- A worker that has not left `run` moves again and again; none of its assertions fails. -/
def FairWorkers (W : List τ) (r : (shutdownSystem W).Run G) : Prop :=
  ∀ t ∈ W, (∃ n, (r.state n).sched.pc t = .left) ∨
    ∃ᶠ n in atTop, r.MovesAt ShutdownLabel.worker t n

/-- What `stop` waits for. -/
structure Closes (W : List τ) (r : (shutdownSystem W).Run G) : Prop where
  /-- `stop` is called. -/
  stopped : ∃ n, (r.state n).sched.stopping = true
  /-- Nobody calls `schedule`, a timer function or an event function for ever. -/
  drains : ∀ᶠ n in atTop, ∀ a, r.label n = some a → a.calls = false
  /-- The timers run out. -/
  timers : ∀ᶠ n in atTop, (r.state n).timers.timers = []
  /-- No event stays registered. -/
  events : ∀ᶠ n in atTop, (r.state n).io.pendingEventCount = 0
  /-- A fiber in the queue does not stay `RUNNING` off the workers. -/
  parked : ∀ᶠ n in atTop, ∀ e ∈ (r.state n).sched.tasks, ∀ f, e.task.fiber = some f →
    (r.state n).sched.fiberState f = .running →
      ∃ t ∈ W, ∃ x, (r.state n).sched.pc t = .exec x f
  /-- No task waits for a thread that is no worker, or is one no longer. -/
  pinned : ∀ n, ∀ e ∈ (r.state n).sched.tasks, ∀ u, e.task.thread = some u →
    u ∈ W ∧ (r.state n).sched.pc u ≠ .left

theorem WorkStep.left_kept (h : WorkStep W s a s') (hleft : s.sched.pc t = .left) :
    s'.sched.pc t = .left := by
  cases h with
  | run b q hb hq => exact hq.left_kept hleft
  | timer caller call now m hop => exact hleft
  | event caller call granted out m hown hop =>
    exact (congrFun (schedule_all (W := W) s.sched (s.ownTasks out.triggers)).1 t).trans hleft
  | idle u a s' hu hpc hidle =>
    have htu : t ≠ u := by
      rintro rfl
      rw [hleft] at hpc
      cases hpc
    rw [(hidle.others htu).2.1, hleft]

omit [DecidableEq τ] in
theorem stopping_schedule (q : Scheduler.State τ) (tasks : List (ScheduleTask τ)) :
    (tasks.foldl Scheduler.State.schedule q).stopping = q.stopping := by
  induction tasks generalizing q with
  | nil => rfl
  | cons task tasks ih => exact ih (q.schedule task)

theorem WorkStep.stopping_kept (h : WorkStep W s a s') (hstop : s.sched.stopping = true) :
    s'.sched.stopping = true := by
  cases h with
  | run b q hb hq => exact hq.stopping_kept hstop
  | timer caller call now m hop => exact hstop
  | event caller call granted out m hown hop => exact (stopping_schedule ..).trans hstop
  | idle u a s' hu hpc hidle =>
    cases hidle with
    | ends hpc' hends =>
      unfold Scheduler.State.idleTurn
      split <;> exact hstop
    | entry fd mask granted entries ts m hpc' hop => exact (stopping_schedule ..).trans hstop
    | nextTimer | pendingCount | goesOn | wait | expire | push | pushed | tickle | yields =>
      exact hstop

section

variable (r : (shutdownSystem W).Run G)

theorem left_mono (h : (r.state m).sched.pc t = .left) (hmn : m ≤ n) :
    (r.state n).sched.pc t = .left :=
  r.always (I := fun s => s.sched.pc t = .left)
    (fun _ _ _ h _ hstep => (work_cases hstep).left_kept h) h hmn

theorem stopping_mono (h : (r.state m).sched.stopping = true) (hmn : m ≤ n) :
    (r.state n).sched.stopping = true :=
  r.always (I := fun s => s.sched.stopping = true)
    (fun _ _ _ h _ hstep => (work_cases hstep).stopping_kept h) h hmn

/-- At moment `n` there is no timer and no event, and what happens, if anything, leaves the work
as it was: a worker that moves goes round. -/
structure StillAt (n : ℕ) : Prop where
  timers : (r.state n).timers.timers = []
  pending : (r.state n).io.pendingEventCount = 0
  tasks : (r.state (n + 1)).sched.tasks = (r.state n).sched.tasks
  turns : ∀ t, r.MovesAt ShutdownLabel.worker t n → Turns (r.state n) t (r.state (n + 1))

variable {r}

theorem Closes.eventually_still (hW : W.Nodup) (h : Closes W r) :
    ∀ᶠ n in atTop, StillAt r n := by
  have hstep {n : ℕ} {a : ShutdownLabel τ} (hdrains : ∀ a, r.label n = some a → a.calls = false)
      (htimers : (r.state n).timers.timers = []) (hlabel : r.label n = some a) :=
    (work_cases (r.step_of_some hlabel).2).unfinished hW (hdrains a hlabel)
      (unfed_of_run (r.reachable n)) htimers
  have hle : ∀ᶠ n in atTop, (r.state (n + 1)).unfinished W ≤ (r.state n).unfinished W := by
    refine (h.drains.and h.timers).mono fun n ⟨hdrains, htimers⟩ => ?_
    cases hlabel : r.label n with
    | none => rw [r.state_of_none hlabel]
    | some a =>
      obtain hlt | ⟨heq, -⟩ := hstep hdrains htimers hlabel
      · exact Nat.le_of_lt hlt
      · exact Nat.le_of_eq heq
  -- where the work stays the same, each step is a still one
  have hsettled : ∀ᶠ m in atTop, ∀ n, m ≤ n →
      (r.state n).unfinished W = (r.state m).unfinished W := settles hle
  refine (hsettled.and (h.drains.and (h.timers.and h.events))).mono
    fun n ⟨hconst, hdrains, htimers, hevents⟩ => ?_
  have hstill (a : ShutdownLabel τ) (hlabel : r.label n = some a) :=
    (hstep hdrains htimers hlabel).resolve_left
      (by rw [hconst (n + 1) (Nat.le_succ n)]; exact Nat.lt_irrefl _)
  refine ⟨htimers, hevents, ?_, fun t hmoves => ?_⟩
  · cases hlabel : r.label n with
    | none => rw [r.state_of_none hlabel]
    | some a => exact (hstill a hlabel).2.1
  · obtain ⟨a, hlabel, ha⟩ := Option.bind_eq_some_iff.mp hmoves
    exact (hstill a hlabel).2.2 t ha

theorem same_of_not_moves (h : ¬ r.MovesAt ShutdownLabel.worker t n) :
    (r.state (n + 1)).idle t = (r.state n).idle t ∧
      (r.state (n + 1)).sched.pc t = (r.state n).sched.pc t ∧
      (r.state (n + 1)).sched.idleTerm t = (r.state n).sched.idleTerm t := by
  cases hlabel : r.label n with
  | none =>
    rw [r.state_of_none hlabel]
    exact ⟨rfl, rfl, rfl⟩
  | some a =>
    refine (work_cases (r.step_of_some hlabel).2).others fun ha => h ?_
    rw [Run.MovesAt, hlabel]
    exact ha

/-- A worker is where it was when it moves next. -/
theorem exists_move (r : (shutdownSystem W).Run G)
    (hmoves : ∃ᶠ n in atTop, r.MovesAt ShutdownLabel.worker t n) (m : ℕ) :
    ∃ n, m ≤ n ∧ (r.state n).sched.pc t = (r.state m).sched.pc t ∧
      r.MovesAt ShutdownLabel.worker t n := by
  refine exists_of_kept (I := fun n => (r.state n).sched.pc t = (r.state m).sched.pc t) hmoves rfl
    fun n _ hkept hnot => ?_
  rw [(same_of_not_moves hnot).2.1, hkept]

theorem IdleStep.rests (h : IdleStep s t a s') (hpc : s.sched.pc t = .idle) :
    (s'.sched.pc t).holding = none := by
  have stays (hpcs : s'.sched.pc = s.sched.pc) : (s'.sched.pc t).holding = none := by
    rw [hpcs, hpc]
    rfl
  cases h with
  | ends hpc' hstop =>
    dsimp only
    rw [idleTurn_pc]
    rfl
  | yields hpc' => simp [ShutdownState.leaveIdle, Pc.holding]
  | entry fd mask granted entries ts m hpc' hop =>
    exact stays (schedule_all (W := []) s.sched (s.ownTasks ts)).1
  | nextTimer | pendingCount | goesOn | wait | expire | push | pushed | tickle => exact stays rfl

theorem Turns.rests (h : Turns s t s') : (s'.sched.pc t).holding = none := by
  cases h with
  | scan hpc hnone hnext =>
    rw [hnext]
    split <;> rfl
  | idle a hpc h => exact h.rests hpc

section Still

variable (hstill : ∀ n, m ≤ n → StillAt r n)
include hstill

theorem tasks_of_still (hmn : m ≤ n) :
    (r.state n).sched.tasks = (r.state m).sched.tasks := by
  induction n, hmn using Nat.le_induction with
  | base => rfl
  | succ n hmn ih => rw [(hstill n hmn).tasks, ih]

theorem rests_of_still (hmoves : ∃ᶠ n in atTop, r.MovesAt ShutdownLabel.worker t n) :
    ∀ᶠ n in atTop, ((r.state n).sched.pc t).holding = none := by
  obtain ⟨k, hmk, -, hmove⟩ := exists_move r hmoves m
  refine eventually_atTop.mpr ⟨k + 1, fun n hkn => ?_⟩
  induction n, hkn using Nat.le_induction with
  | base => exact ((hstill k hmk).turns t hmove).rests
  | succ n hkn ih =>
    by_cases hmoves : r.MovesAt ShutdownLabel.worker t n
    · exact ((hstill n (by omega)).turns t hmoves).rests
    · rw [(same_of_not_moves hmoves).2.1, ih]

/-- The idle fiber of a worker that goes on moving yields or ends, and its scan is next. -/
theorem exists_scan (hmoves : ∃ᶠ n in atTop, r.MovesAt ShutdownLabel.worker t n) :
    ∃ n, m ≤ n ∧ (r.state n).sched.pc t = .scan ∧ r.MovesAt ShutdownLabel.worker t n := by
  have turns {n : ℕ} (hmn : m ≤ n)
      (hnot : ¬ ((r.state n).sched.pc t = .scan ∨ (r.state (n + 1)).sched.pc t = .scan))
      (hmove : r.MovesAt ShutdownLabel.worker t n) :
      ((r.state (n + 1)).idle t).toYield < ((r.state n).idle t).toYield := by
    push Not at hnot
    cases (hstill n hmn).turns t hmove with
    | scan hpc => exact absurd hpc hnot.1
    | idle a hpc h =>
      exact (h.toYield (unfed_of_run (r.reachable n) t) (hstill n hmn).timers).resolve_left hnot.2
  obtain ⟨n, hmn, hscan⟩ : ∃ n, m ≤ n ∧
      ((r.state n).sched.pc t = .scan ∨ (r.state (n + 1)).sched.pc t = .scan) := by
    refine exists_of_measure (f := fun n => ((r.state n).idle t).toYield) (fun n hmn hnot => ?_) ?_
    · by_cases hmove : r.MovesAt ShutdownLabel.worker t n
      · exact Nat.le_of_lt (turns hmn hnot hmove)
      · exact Nat.le_of_eq (congrArg IdlePc.toYield (same_of_not_moves hmove).1)
    · exact (hmoves.and_eventually (eventually_ge_atTop m)).mono
        fun n ⟨hmove, hmn⟩ hnot => turns hmn hnot hmove
  obtain ⟨i, hmi, hpc⟩ : ∃ i, m ≤ i ∧ (r.state i).sched.pc t = .scan := by
    obtain hpc | hpc := hscan
    · exact ⟨n, hmn, hpc⟩
    · exact ⟨n + 1, by omega, hpc⟩
  obtain ⟨j, hij, hkept, hmove⟩ := exists_move r hmoves i
  exact ⟨j, Nat.le_trans hmi hij, hkept.trans hpc, hmove⟩

/-- A worker that goes on moving leaves when `stopping` finds nothing to wait for any more. -/
theorem exists_left (hmoves : ∃ᶠ n in atTop, r.MovesAt ShutdownLabel.worker t n)
    (hstop : ∀ n, m ≤ n → (r.state n).sched.stoppingNow = true) :
    ∃ n, (r.state n).sched.pc t = .left := by
  have shrinks {n : ℕ} (hmn : m ≤ n) (hmove : r.MovesAt ShutdownLabel.worker t n) :
      (r.state (n + 1)).toLeave t < (r.state n).toLeave t := by
    have hidling : Idling (r.state n) :=
      ⟨(hstill n hmn).timers, (hstill n hmn).pending, hstop n hmn⟩
    exact ((hstill n hmn).turns t hmove).toLeave (unfed_of_run (r.reachable n) t) hidling
  obtain ⟨n, -, hleft⟩ : ∃ n, m ≤ n ∧ (r.state n).sched.pc t = .left := by
    refine exists_of_measure (f := fun n => (r.state n).toLeave t) (fun n hmn _ => ?_) ?_
    · by_cases hmove : r.MovesAt ShutdownLabel.worker t n
      · exact Nat.le_of_lt (shrinks hmn hmove)
      · obtain ⟨hidle, hpc, hterm⟩ := same_of_not_moves hmove
        exact Nat.le_of_eq (by rw [ShutdownState.toLeave, ShutdownState.toLeave, hidle, hpc, hterm])
    · exact (hmoves.and_eventually (eventually_ge_atTop m)).mono
        fun n ⟨hmove, hmn⟩ _ => shrinks hmn hmove
  exact ⟨n, hleft⟩

end Still

end

/-! ## The condition -/

/-- A task that no worker will take. -/
structure Stuck (W : List τ) (e : TaskEntry τ) (s : ShutdownState τ) : Prop where
  queued : e ∈ s.sched.tasks
  pinned : e.task.thread ≠ none
  nobody : ∀ t ∈ W, e.task.thread = some t → s.sched.pc t = .left

omit [DecidableEq τ] in
theorem mem_tasks_schedule (q : Scheduler.State τ) (tasks : List (ScheduleTask τ))
    {e : TaskEntry τ} (he : e ∈ q.tasks) :
    e ∈ (tasks.foldl Scheduler.State.schedule q).tasks := by
  induction tasks generalizing q with
  | nil => exact he
  | cons task tasks ih =>
    apply ih
    unfold Scheduler.State.schedule scheduleNoLock
    dsimp only
    split
    · exact List.mem_append_left _ he
    · exact he

theorem Stuck.step {e : TaskEntry τ} (h : Stuck W e s) (hstep : WorkStep W s a s') :
    Stuck W e s' := by
  refine ⟨?_, h.pinned, fun t ht hpin => hstep.left_kept (h.nobody t ht hpin)⟩
  cases hstep with
  | run b q hb hq =>
    cases hq with
    | schedule caller task => exact mem_tasks_schedule s.sched [task] h.queued
    | take t x ht hpc hx =>
      obtain ⟨pre, post, htasks, hrest, -, helig⟩ := scan_some hx
      have hne : e ≠ x := by
        rintro rfl
        simp only [eligible, decide_eq_true_eq] at helig
        have hleft := h.nobody t ht (helig.1.resolve_left h.pinned)
        rw [hpc] at hleft
        cases hleft
      have hmem := h.queued
      rw [htasks] at hmem
      change e ∈ (scan t s.sched.fiberState s.sched.tasks).tasks
      rw [hrest]
      simpa [hne] using hmem
    | idle t => exact absurd rfl (hb t)
    | leave | rest | resume | yield | finish | save | complete | stop | outside => exact h.queued
  | timer caller call now m hop => exact h.queued
  | event caller call granted out m hown hop =>
    exact mem_tasks_schedule s.sched (s.ownTasks out.triggers) h.queued
  | idle t a s' ht hpc hidle =>
    cases hidle with
    | ends hpc' hstop =>
      dsimp only
      rw [idleTurn_tasks]
      exact h.queued
    | push cb cbs rt events hpc' => exact mem_tasks_schedule s.sched [.ofCb cb none] h.queued
    | entry fd mask granted entries ts m hpc' hop =>
      exact mem_tasks_schedule s.sched (s.ownTasks ts) h.queued
    | nextTimer | pendingCount | goesOn | wait | expire | pushed | tickle | yields =>
      exact h.queued

omit [DecidableEq τ] in
theorem allEnded_of_left (h : Winding W s.sched) (hleft : ∀ t ∈ W, s.sched.pc t = .left) :
    AllEnded W s.sched := by
  intro t ht
  have hagree := h.agree t ht
  rwa [hleft t ht] at hagree

/-- After the last idle fiber ended, nobody calls anything. -/
theorem Winding.calls_nothing (h : Winding W s.sched) (hall : AllEnded W s.sched)
    (hg : onlyTasksCreate s a) (hstep : (shutdownSystem W).step s a = some s') :
    a.calls = false := by
  have nobody (caller : Option τ) (hcaller : callerRuns W s caller = true)
      (hnone : caller = none → a.fromOutside = true) : False := by
    refine h.no_caller hall hcaller fun hstop hcaller => ?_
    have houtside := hg hstop
    rw [hnone hcaller] at houtside
    cases houtside
  cases shutdown_cases hstep with
  | run b q hb hq =>
    cases hq with
    | schedule caller task hcaller =>
      refine (nobody caller ?_ fun hnone => by rw [hnone]; rfl).elim
      cases caller with
      | none => rfl
      | some t =>
        obtain ⟨ht, e, f, hpc⟩ := hcaller t rfl
        simp [callerRuns, ht, hpc]
    | _ => rfl
  | timer caller call now m hcaller =>
    exact (nobody caller hcaller fun hnone => by rw [hnone]; rfl).elim
  | event caller call granted m tasks hcaller =>
    exact (nobody caller hcaller fun hnone => by rw [hnone]; rfl).elim
  | idle t a s' ht hpc hmoves => exact (h.not_allEnded ht hpc hall).elim

/-- When all workers have left and nothing is dropped, what `stop` waits for has come about. -/
theorem closes_of_left (hW : W.Nodup) (hne : W ≠ []) (r : (shutdownSystem W).Run onlyTasksCreate)
    (hleft : ∀ t ∈ W, (r.state n).sched.pc t = .left)
    (htimers : (r.state n).timers.timers = []) (hevents : (r.state n).io.pendingEventCount = 0) :
    Closes W r := by
  have hwinding (i : ℕ) : Winding W (r.state i).sched := winding_of_reachable hW hne (r.reachable i)
  have hended {i : ℕ} (hni : n ≤ i) : AllEnded W (r.state i).sched :=
    allEnded_of_left (hwinding i) fun t ht => left_mono r (hleft t ht) hni
  have htasks {i : ℕ} (hni : n ≤ i) : (r.state i).sched.tasks = [] :=
    ((hwinding i).quiet (hended hni)).tasks
  have hbehind {i : ℕ} (hni : n ≤ i) :
      (r.state i).timers = (r.state n).timers ∧ (r.state i).io = (r.state n).io :=
    left_behind hW (hwinding n) (hended (Nat.le_refl n)) (r.path hni)
  refine ⟨⟨n, ((hwinding n).quiet (hended (Nat.le_refl n))).stopping⟩, ?_, ?_, ?_, ?_, ?_⟩
  · refine eventually_atTop.mpr ⟨n, fun i hni a hlabel => ?_⟩
    obtain ⟨hg, hstep⟩ := r.step_of_some hlabel
    exact (hwinding i).calls_nothing (hended hni) hg hstep
  · exact eventually_atTop.mpr ⟨n, fun i hni => by rw [(hbehind hni).1, htimers]⟩
  · exact eventually_atTop.mpr ⟨n, fun i hni => by rw [(hbehind hni).2, hevents]⟩
  · refine eventually_atTop.mpr ⟨n, fun i hni e he => ?_⟩
    rw [htasks hni] at he
    cases he
  · -- a task that no worker will take would be in the queue to the end
    intro i e he u hu
    by_contra hnobody
    push Not at hnobody
    have hstuck : Stuck W e (r.state i) := by
      refine ⟨he, by simp [hu], fun t ht hpin => ?_⟩
      cases hu.symm.trans hpin
      exact hnobody ht
    have hmax := r.always (n := max i n) (fun _ _ _ h _ hstep => h.step (work_cases hstep)) hstuck
      (Nat.le_max_left i n)
    have hmem := hmax.queued
    rw [htasks (Nat.le_max_right i n)] at hmem
    cases hmem

/-- When what `stop` waits for comes about, every worker leaves. -/
theorem Closes.leaves (hW : W.Nodup) {r : (shutdownSystem W).Run onlyTasksCreate}
    (hfair : FairWorkers W r) (h : Closes W r) :
    ∃ n, ∀ t ∈ W, (r.state n).sched.pc t = .left := by
  obtain ⟨N, hN⟩ := eventually_atTop.mp ((h.eventually_still hW).and h.parked)
  have hrests : ∀ t ∈ W, ∀ᶠ n in atTop, ((r.state n).sched.pc t).holding = none := by
    intro t ht
    obtain ⟨k, hleft⟩ | hmoves := hfair t ht
    · refine eventually_atTop.mpr ⟨k, fun n hkn => ?_⟩
      rw [left_mono r hleft hkn]
      rfl
    · exact rests_of_still (fun n hn => (hN n hn).1) hmoves
  obtain ⟨k, hk⟩ := h.stopped
  -- from `m` on nothing is in hand and every step is a still one
  obtain ⟨m, hm⟩ := eventually_atTop.mp (((eventually_all_finite W.finite_toSet).mpr hrests).and
    ((eventually_ge_atTop N).and (eventually_ge_atTop k)))
  have hstill (n : ℕ) (hmn : m ≤ n) : StillAt r n := (hN n (hm n hmn).2.1).1
  by_contra hstays
  push Not at hstays
  have htasks : (r.state m).sched.tasks = [] := by
    by_contra hsome
    obtain ⟨e, he⟩ := List.exists_mem_of_ne_nil _ hsome
    have he (n : ℕ) (hmn : m ≤ n) : e ∈ (r.state n).sched.tasks := by
      rwa [tasks_of_still hstill hmn]
    -- somebody who goes on moving may take it
    obtain ⟨u, hpin, hmoves⟩ : ∃ u, (e.task.thread = none ∨ e.task.thread = some u) ∧
        ∃ᶠ n in atTop, r.MovesAt ShutdownLabel.worker u n := by
      cases hthread : e.task.thread with
      | none =>
        by_contra hnobody
        have hleft : ∀ t ∈ W, ∀ᶠ n in atTop, (r.state n).sched.pc t = .left := by
          intro t ht
          obtain ⟨k, hk⟩ := (hfair t ht).resolve_right fun hmoves =>
            hnobody ⟨t, .inl rfl, hmoves⟩
          exact eventually_atTop.mpr ⟨k, fun n hkn => left_mono r hk hkn⟩
        obtain ⟨n, hn⟩ := ((eventually_all_finite W.finite_toSet).mpr hleft).exists
        obtain ⟨t, ht, hnot⟩ := hstays n
        exact hnot (hn t ht)
      | some u =>
        obtain ⟨hu, -⟩ := h.pinned m e (he m (Nat.le_refl m)) u hthread
        refine ⟨u, .inr rfl, (hfair u hu).resolve_left fun ⟨k, hleft⟩ => ?_⟩
        have hmax := Nat.le_max_left m k
        exact (h.pinned _ e (he _ hmax) u hthread).2 (left_mono r hleft (Nat.le_max_right m k))
    have helig (n : ℕ) (hmn : m ≤ n) : eligible u (r.state n).sched.fiberState e = true := by
      simp only [eligible, decide_eq_true_eq]
      refine ⟨hpin, fun hrunning => ?_⟩
      obtain ⟨f, hf, hrunning⟩ := (Option.any_eq_true _ _).mp hrunning
      obtain ⟨t, ht, x, hpc⟩ :=
        (hN n (hm n hmn).2.1).2 e (he n hmn) f hf (of_decide_eq_true hrunning)
      have hnone := (hm n hmn).1 t ht
      rw [hpc] at hnone
      cases hnone
    obtain ⟨n, hmn, hpc, hmove⟩ := exists_scan hstill hmoves
    cases (hstill n hmn).turns u hmove with
    | scan hscan hnone =>
      have hnot := hnone e (he n hmn)
      rw [helig n hmn] at hnot
      cases hnot
    | idle a hidle =>
      rw [hpc] at hidle
      cases hidle
  have hstop (n : ℕ) (hmn : m ≤ n) : (r.state n).sched.stoppingNow = true := by
    have hhands : (r.state n).sched.inHands W = [] := held_eq_nil.mpr (hm n hmn).1
    have hactive := (conserved_of_run hW (r.reachable n)).active
    rw [hhands] at hactive
    simp [Scheduler.State.stoppingNow, stopping_mono r hk (hm n hmn).2.2,
      tasks_of_still hstill hmn, htasks, hactive]
  have hleft : ∀ t ∈ W, ∀ᶠ n in atTop, (r.state n).sched.pc t = .left := by
    intro t ht
    obtain ⟨k, hk⟩ : ∃ k, (r.state k).sched.pc t = .left :=
      (hfair t ht).elim id fun hmoves => exists_left hstill hmoves hstop
    exact eventually_atTop.mpr ⟨k, fun n hkn => left_mono r hk hkn⟩
  obtain ⟨n, hn⟩ := ((eventually_all_finite W.finite_toSet).mpr hleft).exists
  obtain ⟨t, ht, hnot⟩ := hstays n
  exact hnot (hn t ht)

/-- Workers that go on moving all leave `run`, with no timer and no event dropped, if and only
if `stop` is called, the calls end, the timers run out, no event stays registered, no fiber in
the queue stays `RUNNING` off the workers and no task is pinned to a worker that has left. -/
theorem closed_iff (hW : W.Nodup) (hne : W ≠ []) (r : (shutdownSystem W).Run onlyTasksCreate)
    (hfair : FairWorkers W r) :
    (∃ n, (∀ t ∈ W, (r.state n).sched.pc t = .left) ∧ (r.state n).timers.timers = [] ∧
      (r.state n).io.pendingEventCount = 0) ↔ Closes W r := by
  constructor
  · rintro ⟨n, hleft, htimers, hevents⟩
    exact closes_of_left hW hne r hleft htimers hevents
  · intro h
    obtain ⟨m, hleft⟩ := h.leaves hW hfair
    obtain ⟨n, htimers, hevents, hmn⟩ :=
      (h.timers.and (h.events.and (eventually_ge_atTop m))).exists
    exact ⟨n, fun t ht => left_mono r (hleft t ht) hmn, htimers, hevents⟩

/-- The run of `freshRun`, which then rests. -/
theorem closed_iff_freshRun :
    ∃ r : (shutdownSystem [0, 1]).Run onlyTasksCreate, FairWorkers [0, 1] r ∧
      ((∃ n, (∀ t ∈ [0, 1], (r.state n).sched.pc t = .left) ∧ (r.state n).timers.timers = [] ∧
        (r.state n).io.pendingEventCount = 0) ↔ Closes [0, 1] r) := by
  obtain ⟨r, hr⟩ := TransitionSystem.Run.exists_of_replay (T := shutdownSystem [0, 1])
    (G := onlyTasksCreate) (g := fun s a => decide (onlyTasksCreate s a))
    (fun _ _ => of_decide_eq_true) (l := freshRun) (shutdownStart_init [0, 1]) (by decide)
  have hfair : FairWorkers [0, 1] r := by
    have hleft := (hr 24).2 (fun s => [0, 1].all fun t => s.sched.pc t == .left) (by decide)
    intro t ht
    exact .inl ⟨24, by simpa using List.all_eq_true.mp hleft t ht⟩
  exact ⟨r, hfair, closed_iff (by decide) (by decide) r hfair⟩

end IOManager
