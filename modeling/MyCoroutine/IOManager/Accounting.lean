-- SUMMARY: What becomes of the requests made to an IOManager: every task asked for is in one place, and is completed when run() is left; and what an event that nobody ends does to shutdown.
import MyCoroutine.IOManager.Entry
import MyCoroutine.IOManager.Shutdown

/-! # What becomes of requests

A task reaches the queue of an `IOManager` on three ways: somebody calls `schedule`, an event
is triggered, or `idle` collects the callback of an expired timer and schedules it later. The
first part follows every such request through the run. The second is about the registrations
that no call ends: `idle` triggers none of them, and they keep every worker in `run()`. -/

namespace IOManager

open Counting Scheduler TransitionSystem

variable {τ : Type} [DecidableEq τ] {W : List τ} {s s' : ShutdownState τ} {a : ShutdownLabel τ}

/-! ## What a step does -/

/-- The tasks that the triggers hand to this scheduler. -/
def ShutdownState.ownTasks (s : ShutdownState τ) (ts : List Trigger) : List (ScheduleTask τ) :=
  (ts.filter fun t => t.scheduler = s.self).map Trigger.task

inductive IdleStep (s : ShutdownState τ) (t : τ) : ShutdownLabel τ → ShutdownState τ → Prop where
  | nextTimer (now : Int) (hpc : s.idle t = .timers) :
      IdleStep s t (.nextTimer t now) ({ s with timers := (s.timers.getNextTimer now).2 }.setIdle t
        (if (s.timers.getNextTimer now).1 = -1 then .pending else .wait))
  | pendingCount (hpc : s.idle t = .pending) :
      IdleStep s t (.pendingCount t)
        (s.setIdle t (if s.io.pendingEventCount = 0 then .scheduler else .wait))
  | ends (hpc : s.idle t = .scheduler) (hstop : s.sched.stoppingNow = true) :
      IdleStep s t (.stopping t) { s with sched := s.sched.idleTurn t }
  | goesOn (hpc : s.idle t = .scheduler) (hstop : s.sched.stoppingNow = false) :
      IdleStep s t (.stopping t) (s.setIdle t .wait)
  | wait (polls : List Poll) (events : List Entry) (hpc : s.idle t = .wait) :
      IdleStep s t (.wait t polls) (s.setIdle t (.expire 0 events))
  | expire (now : Int) (probe : Nat) (rt : Int) (events : List Entry)
      (hpc : s.idle t = .expire rt events) :
      IdleStep s t (.expire t now probe)
        ({ s with timers := (s.timers.listExpiredCb now probe).2 }.setIdle t
          (.push (s.timers.listExpiredCb now probe).1 rt events))
  | push (cb : Option CbId) (cbs : List (Option CbId)) (rt : Int) (events : List Entry)
      (hpc : s.idle t = .push (cb :: cbs) rt events) :
      IdleStep s t (.push t)
        ({ s with sched := s.sched.schedule (.ofCb cb none) }.setIdle t (.push cbs rt events))
  | pushed (rt : Int) (events : List Entry) (hpc : s.idle t = .push [] rt events) :
      IdleStep s t (.push t) (s.setIdle t (.handle (events.take rt.toNat)))
  | tickle (entries : List Entry) (hpc : s.idle t = .handle (.tickle :: entries)) :
      IdleStep s t (.handle t) (s.setIdle t (.handle entries))
  | entry (fd : Nat) (mask : Mask) (granted : Bool) (entries : List Entry) (ts : List Trigger)
      (m : IOManager) (hpc : s.idle t = .handle (.context fd mask granted :: entries))
      (hop : s.io.idleEntry fd mask granted = some (ts, m)) :
      IdleStep s t (.handle t)
        ({ s with sched := s.pushOwn ts, io := m }.setIdle t (.handle entries))
  | yields (hpc : s.idle t = .handle []) :
      IdleStep s t (.handle t) ((s.setIdle t .timers).leaveIdle t)

theorem idleStep_cases {t : τ} (ha : a.idler = some t) (h : idleStep s t a = some s') :
    IdleStep s t a s' := by
  unfold idleStep at h
  split at h
  case h_1 now hpc =>
    cases ha
    cases h
    exact .nextTimer now hpc
  case h_2 hpc =>
    cases ha
    cases h
    exact .pendingCount hpc
  case h_3 hpc =>
    cases ha
    cases h
    unfold ShutdownState.idleStopping
    split
    · rename_i hstop
      exact .ends hpc hstop
    · rename_i hstop
      exact .goesOn hpc (Bool.eq_false_iff.mpr hstop)
  case h_4 polls hpc =>
    cases ha
    obtain ⟨⟨rt, events⟩, hwait, rfl⟩ := Option.map_eq_some_iff.mp h
    obtain rfl := waitLoop_rt hwait
    exact .wait polls events hpc
  case h_5 now probe rt events hpc =>
    cases ha
    cases h
    exact .expire now probe rt events hpc
  case h_6 rt events hpc =>
    cases ha
    cases h
    exact .pushed rt events hpc
  case h_7 cb cbs rt events hpc =>
    cases ha
    cases h
    exact .push cb cbs rt events hpc
  case h_8 entries hpc =>
    cases ha
    cases entries with
    | nil =>
      cases h
      exact .yields hpc
    | cons e entries =>
      cases e with
      | tickle =>
        cases h
        exact .tickle entries hpc
      | context fd mask granted =>
        obtain ⟨⟨ts, m⟩, hop, rfl⟩ := Option.map_eq_some_iff.mp h
        exact .entry fd mask granted entries ts m hpc hop
  case h_9 => cases h

/-- The idle fiber of one worker leaves the other workers alone. -/
theorem IdleStep.others {t u : τ} (h : IdleStep s t a s') (hut : u ≠ t) :
    s'.idle u = s.idle u ∧ s'.sched.pc u = s.sched.pc u ∧
      s'.sched.idleTerm u = s.sched.idleTerm u := by
  have hset (s : ShutdownState τ) (pc : IdlePc) : (s.setIdle t pc).idle u = s.idle u :=
    Function.update_of_ne hut ..
  cases h with
  | ends hpc hstop =>
    unfold Scheduler.State.idleTurn
    rw [if_pos hstop]
    exact ⟨rfl, Function.update_of_ne hut .., Function.update_of_ne hut ..⟩
  | yields hpc => exact ⟨hset _ _, Function.update_of_ne hut .., rfl⟩
  | entry fd mask granted entries ts m hpc hop =>
    obtain ⟨hpcs, hterm, -⟩ := schedule_all (W := []) s.sched (s.ownTasks ts)
    exact ⟨hset _ _, congrFun hpcs u, congrFun hterm u⟩
  | nextTimer | pendingCount | goesOn | wait | expire | push | pushed | tickle =>
    exact ⟨hset _ _, rfl, rfl⟩

/-- As `ShutdownStep`, with what the step does to timers, events and idle fibers. -/
inductive WorkStep (W : List τ) (s : ShutdownState τ) :
    ShutdownLabel τ → ShutdownState τ → Prop where
  | run (a : Scheduler.Label τ) (q : Scheduler.State τ) (ha : ∀ t, a ≠ .idle t)
      (h : Step W s.sched a q) : WorkStep W s (.run a) { s with sched := q }
  | timer (caller : Option τ) (call : TimerManager.Call CbId) (now : Int) (m : TimerManager CbId)
      (hop : s.timers.perform call now = some m) :
      WorkStep W s (.timer caller call now) { s with timers := m }
  | event (caller : Option τ) (call : Call) (granted : Bool) (out : Outcome) (m : IOManager)
      (hown : callIsOwn s caller call = true) (hop : s.io.perform call granted = some (out, m)) :
      WorkStep W s (.event caller call granted)
        { s with sched := s.pushOwn out.triggers, io := m }
  | idle (t : τ) (a : ShutdownLabel τ) (s' : ShutdownState τ) (ht : t ∈ W)
      (hpc : s.sched.pc t = .idle) (h : IdleStep s t a s') : WorkStep W s a s'

theorem work_cases (h : (shutdownSystem W).step s a = some s') : WorkStep W s a s' := by
  change shutdownStep W s a = some s' at h
  have idle {t : τ} (ha : a.idler = some t)
      (h : (if t ∈ W ∧ s.sched.pc t = .idle then idleStep s t a else none) = some s') :
      WorkStep W s a s' := by
    obtain ⟨⟨ht, hpc⟩, h⟩ := Option.ite_none_right_eq_some.mp h
    exact .idle t a s' ht hpc (idleStep_cases ha h)
  cases a with
  | run b =>
    have hb : ∀ t, b ≠ .idle t := by
      rintro t rfl
      cases h
    have hrun : ((Scheduler.system W).step s.sched b).map (fun q => { s with sched := q }) =
        some s' := by
      cases b with
      | idle t => exact absurd rfl (hb t)
      | _ => exact h
    obtain ⟨q, hq, rfl⟩ := Option.map_eq_some_iff.mp hrun
    exact .run b q hb (step_cases hq)
  | timer caller call now =>
    obtain ⟨-, h⟩ := Option.ite_none_right_eq_some.mp h
    obtain ⟨m, hop, rfl⟩ := Option.map_eq_some_iff.mp h
    exact .timer caller call now m hop
  | event caller call granted =>
    obtain ⟨⟨-, hown⟩, h⟩ := Option.ite_none_right_eq_some.mp h
    obtain ⟨⟨out, m⟩, hop, rfl⟩ := Option.map_eq_some_iff.mp h
    exact .event caller call granted out m hown hop
  | nextTimer t now => exact idle rfl h
  | pendingCount t => exact idle rfl h
  | stopping t => exact idle rfl h
  | wait t polls => exact idle rfl h
  | expire t now probe => exact idle rfl h
  | push t => exact idle rfl h
  | handle t => exact idle rfl h

/-! ## The entries of idle -/

/-- The loop over the entries has nothing to do. -/
def IdlePc.unfed : IdlePc → Prop
  | .expire rt _ | .push _ rt _ => rt = 0
  | .handle entries => entries = []
  | .timers | .pending | .scheduler | .wait => True

theorem IdleStep.unfed {t : τ} (h : IdleStep s t a s') (hunfed : (s.idle t).unfed) :
    (s'.idle t).unfed := by
  have goes {s' : ShutdownState τ} {pc : IdlePc} (hidle : s'.idle = Function.update s.idle t pc)
      (hpc : pc.unfed) : (s'.idle t).unfed := by
    rwa [hidle, Function.update_self]
  cases h with
  | nextTimer now hpc | pendingCount hpc =>
    refine goes rfl ?_
    split <;> trivial
  | ends hpc hstop => exact hunfed
  | goesOn hpc hstop | yields hpc => exact goes rfl trivial
  | wait polls events hpc => exact goes rfl rfl
  | expire now probe rt events hpc | push cb cbs rt events hpc =>
    rw [hpc] at hunfed
    exact goes rfl hunfed
  | pushed rt events hpc =>
    rw [hpc] at hunfed
    obtain rfl : rt = 0 := hunfed
    exact goes rfl rfl
  | tickle entries hpc | entry fd mask granted entries ts m hpc hop =>
    rw [hpc] at hunfed
    cases hunfed

theorem WorkStep.unfed (h : WorkStep W s a s') (hunfed : ∀ t, (s.idle t).unfed) (t : τ) :
    (s'.idle t).unfed := by
  cases h with
  | run | timer | event => exact hunfed t
  | idle u a s' hu hpc hidle =>
    by_cases htu : t = u
    · exact htu ▸ hidle.unfed (hunfed u)
    · rw [(hidle.others htu).1]
      exact hunfed t

theorem unfed_of_run {G : ShutdownState τ → ShutdownLabel τ → Prop}
    (h : (shutdownSystem W).Reachable G s) (t : τ) : (s.idle t).unfed :=
  Preserved.reachable (I := fun s => ∀ t, (s.idle t).unfed)
    (fun _ _ _ hs _ hstep => (work_cases hstep).unfed hs)
    (fun s hs t => by rw [hs.2.2.2 t]; trivial) h t

/-! ## Every request -/

/-- The callbacks that an idle fiber has collected and not scheduled yet. -/
def IdlePc.collected : IdlePc → List (ScheduleTask τ)
  | .push cbs _ _ => cbs.map (.ofCb · none)
  | .timers | .pending | .scheduler | .wait | .expire _ _ | .handle _ => []

/-- The tasks that a step asks the scheduler to run. -/
def requests (s : ShutdownState τ) : ShutdownLabel τ → List (ScheduleTask τ)
  | .run (.schedule _ task) => [task]
  | .event _ call granted =>
    (s.io.perform call granted).elim [] fun r => s.ownTasks r.1.triggers
  | .expire t now probe =>
    match s.idle t with
    | .expire _ _ => (s.timers.listExpiredCb now probe).1.map (.ofCb · none)
    | _ => []
  | .handle t =>
    match s.idle t with
    | .handle (.context fd mask granted :: _) =>
      (s.io.idleEntry fd mask granted).elim [] fun r => s.ownTasks r.1
    | _ => []
  | .run _ | .timer _ _ _ | .nextTimer _ _ | .pendingCount _ | .stopping _ | .wait _ _
  | .push _ => []

/-- Every task pushed, or about to be, was asked for: as often, and in no other way. -/
def Asked (W : List τ) (s : ShutdownState τ) (asked : List (ScheduleTask τ)) : Prop :=
  ∀ task : ScheduleTask τ, task.nonEmpty = true → asked.count task =
    s.sched.pushed.count task + (W.map fun t => (s.idle t).collected.count task).sum

theorem count_pushed (q : Scheduler.State τ) (tasks : List (ScheduleTask τ))
    {task : ScheduleTask τ} (hne : task.nonEmpty = true) :
    (tasks.foldl Scheduler.State.schedule q).pushed.count task =
      q.pushed.count task + tasks.count task := by
  induction tasks generalizing q with
  | nil => rfl
  | cons x tasks ih =>
    rw [List.foldl_cons, ih, List.count_cons]
    dsimp only [Scheduler.State.schedule]
    split
    · rw [List.count_append, List.count_singleton]
      omega
    · rename_i hempty
      have hx : (x == task) = false := by
        rw [beq_eq_false_iff_ne]
        rintro rfl
        exact hempty hne
      rw [hx]
      simp

/-- An idle fiber goes on: what it asks for is pushed, or it collects it. -/
theorem Asked.idle (hW : W.Nodup) {asked new : List (ScheduleTask τ)} (h : Asked W s asked)
    {t : τ} (ht : t ∈ W) {pc : IdlePc} (hidle : s'.idle = Function.update s.idle t pc)
    (hpushed : ∀ task : ScheduleTask τ, task.nonEmpty = true →
      s'.sched.pushed.count task + pc.collected.count task =
        s.sched.pushed.count task + (s.idle t).collected.count task + new.count task) :
    Asked W s' (asked ++ new) := by
  intro task hne
  have hsum := sum_update hW ht (fun pc : IdlePc => pc.collected.count task) s.idle pc
  have hbefore := h task hne
  have hstep := hpushed task hne
  rw [List.count_append, hidle]
  omega

theorem Asked.step (hW : W.Nodup) {asked : List (ScheduleTask τ)} (h : Asked W s asked)
    (hstep : WorkStep W s a s') : Asked W s' (asked ++ requests s a) := by
  -- the idle fibers stay where they are
  have stays {q : Scheduler.State τ} {io : IOManager} {new : List (ScheduleTask τ)}
      (hpushed : ∀ task : ScheduleTask τ, task.nonEmpty = true →
        q.pushed.count task = s.sched.pushed.count task + new.count task) :
      Asked W { s with sched := q, io := io } (asked ++ new) := by
    intro task hne
    have hbefore := h task hne
    have hstep := hpushed task hne
    rw [List.count_append]
    dsimp only
    omega
  cases hstep with
  | run b q hb hq =>
    cases hq with
    | schedule caller task hcaller hfiber =>
      exact stays fun x hx => count_pushed s.sched [task] hx
    | idle t => exact absurd rfl (hb t)
    | take | leave | rest | resume | yield | finish | save | complete | stop | outside =>
      exact stays fun _ _ => rfl
  | timer caller call now m hop =>
    rw [requests, List.append_nil]
    exact h
  | event caller call granted out m hown hop =>
    have hnew : requests s (.event caller call granted) = s.ownTasks out.triggers := by
      simp [requests, hop]
    rw [hnew]
    exact stays fun x hx => count_pushed s.sched _ hx
  | idle t a s' ht hpc hidle =>
    cases hidle with
    | nextTimer now hpc | pendingCount hpc =>
      refine h.idle hW ht rfl fun x hx => ?_
      rw [hpc]
      split <;> rfl
    | ends hpc hstop =>
      have hpushed : (s.sched.idleTurn t).pushed = s.sched.pushed := by
        unfold Scheduler.State.idleTurn
        split <;> rfl
      exact stays fun x hx => by rw [hpushed]; rfl
    | goesOn hpc hstop | wait polls events hpc | pushed rt events hpc | tickle entries hpc
    | yields hpc | expire now probe rt events hpc =>
      refine h.idle hW ht rfl fun x hx => ?_
      simp [hpc, requests, IdlePc.collected, ShutdownState.setIdle, ShutdownState.leaveIdle]
    | push cb cbs rt events hpc =>
      refine h.idle hW ht rfl fun x hx => ?_
      have hcount := count_pushed s.sched [.ofCb cb none] hx
      simp only [hpc, requests, IdlePc.collected, ShutdownState.setIdle, List.map_cons,
        List.count_cons, List.count_nil, List.foldl_cons, List.foldl_nil] at hcount ⊢
      omega
    | entry fd mask granted entries ts m hpc hop =>
      refine h.idle hW ht rfl fun x hx => ?_
      have hnew : requests s (.handle t) = s.ownTasks ts := by
        simp [requests, hpc, hop]
      rw [hnew, hpc]
      exact count_pushed s.sched _ hx

/-! ## Where the tasks are -/

theorem conserved_work (hW : W.Nodup) (h : Conserved W s.sched) (hstep : WorkStep W s a s') :
    Conserved W s'.sched := by
  cases hstep with
  | run b q hb hq => exact h.step hW hq
  | timer caller call now m hop => exact h
  | event caller call granted out m hown hop => exact (schedule_all s.sched _).2.2 h
  | idle t a s' ht hpc hidle =>
    cases hidle with
    | ends hpc' hstop => exact h.step hW (.idle t ht hpc)
    | push cb cbs rt events hpc => exact h.schedule _
    | entry fd mask granted entries ts m hpc hop => exact (schedule_all s.sched _).2.2 h
    | nextTimer | pendingCount | goesOn | wait | expire | pushed | tickle => exact h
    | yields hpc' =>
      have hhold (u : τ) : ((s.sched.setPc t .scan).pc u).holding = (s.sched.pc u).holding :=
        holding_setPc (by rw [hpc]; rfl) u
      exact h.of_same rfl rfl rfl rfl hhold

/-- Only an idle fiber that was resumed has collected callbacks. -/
def CollectsInside (s : ShutdownState τ) : Prop :=
  ∀ t, s.sched.pc t ≠ .idle → (s.idle t).collected (τ := τ) = []

/-- A worker leaves its idle fiber by a step of that. -/
theorem idle_kept {q q' : Scheduler.State τ} {b : Scheduler.Label τ} (hb : ∀ t, b ≠ .idle t)
    (hstep : Step W q b q') {t : τ} (h : q.pc t = .idle) : q'.pc t = .idle := by
  have moved {u : τ} {pc : Pc τ} (hu : q.pc u ≠ .idle) :
      Function.update q.pc u pc t = .idle := by
    rw [Function.update_of_ne, h]
    rintro rfl
    exact hu h
  cases hstep with
  | schedule | stop | outside => exact h
  | idle t => exact absurd rfl (hb t)
  | take u e hu hpc | leave u hu hpc | rest u hu hpc | resume u e f x hu hpc
  | yield u e f x hu hpc | finish u e f x hu hpc | save u e f x hu hpc | complete u e hu hpc =>
    exact moved (by rw [hpc]; simp)

theorem CollectsInside.step (h : CollectsInside s) (hstep : WorkStep W s a s') :
    CollectsInside s' := by
  cases hstep with
  | run b q hb hq => exact fun t ht => h t fun hpc => ht (idle_kept hb hq hpc)
  | timer caller call now m hop => exact h
  | event caller call granted out m hown hop =>
    intro t ht
    exact h t fun hpc => ht (by rw [← hpc]; exact congrFun (schedule_all (W := W) s.sched _).1 t)
  | idle t a s' ht hpc hidle =>
    intro u hu
    by_cases hut : u = t
    · subst hut
      cases hidle with
      | ends hpc' hstop => rw [hpc']; rfl
      | yields hpc' => simp [ShutdownState.leaveIdle, ShutdownState.setIdle, IdlePc.collected]
      | nextTimer | pendingCount | goesOn | wait | expire | pushed | tickle => exact absurd hpc hu
      | push cb cbs rt events hpc' => exact absurd hpc hu
      | entry fd mask granted entries ts m hpc' hop =>
        refine absurd ?_ hu
        rw [← hpc]
        exact congrFun (schedule_all (W := W) s.sched _).1 u
    · obtain ⟨hsame, hpcs, -⟩ := hidle.others hut
      rw [hsame]
      exact h u (hpcs ▸ hu)

section

variable {G : ShutdownState τ → ShutdownLabel τ → Prop}
  {r : ShutdownState τ × List (ScheduleTask τ)}

theorem conserved_of_run (hW : W.Nodup) (h : (shutdownSystem W).Reachable G s) :
    Conserved W s.sched :=
  Preserved.reachable (T := shutdownSystem W) (I := fun s => Conserved W s.sched)
    (fun _ _ _ hs _ hstep => conserved_work hW hs (work_cases hstep)) (fun _ hs => hs.1.conserved) h

theorem collectsInside_of_run (h : (shutdownSystem W).Reachable G s) : CollectsInside s :=
  Preserved.reachable (I := CollectsInside) (fun _ _ _ hs _ hstep => hs.step (work_cases hstep))
    (fun s hs t _ => by rw [hs.2.2.2 t]; rfl) h

theorem asked_of_run (hW : W.Nodup)
    (h : ((shutdownSystem W).recording requests).Reachable (fun r a => G r.1 a) r) :
    Asked W r.1 r.2 := by
  refine Preserved.reachable (I := fun r => Asked W r.1 r.2) ?_ ?_ h
  · intro r a r' hr _ hstep
    obtain ⟨hmove, hrecord⟩ := recording_step hstep
    rw [hrecord]
    exact hr.step hW (work_cases hmove)
  · rintro r ⟨⟨hsched, -, -, hidle⟩, hrecord⟩ task -
    simp [hrecord, hsched.pushed, hidle, IdlePc.collected]

end

/-- In every run, every task that was asked for (by `schedule`, by a trigger, by an expired
timer) is as often as it was asked for collected by an idle fiber, in the queue, in the hands of
a worker, or completed: none is lost, and none runs twice. -/
theorem requests_conserved (hW : W.Nodup) {r : ShutdownState τ × List (ScheduleTask τ)}
    (h : ((shutdownSystem W).recording requests).Reachable free r) (task : ScheduleTask τ)
    (hne : task.nonEmpty = true) :
    r.2.count task = (W.map fun t => (r.1.idle t).collected.count task).sum +
      (r.1.sched.tasks.map TaskEntry.task).count task +
      ((r.1.sched.inHands W).map TaskEntry.task).count task +
      r.1.sched.completed.count task := by
  have hasked := asked_of_run (G := free) hW h task hne
  have hplaces := (conserved_of_run (G := free) hW h.of_recording).count_task task
  omega

/-- Worker 0 has collected the callbacks 7 and 8 of two due timers and has scheduled the first;
worker 1 runs it. -/
def collectingRun : List (ShutdownLabel Nat) :=
  [.timer none (.addTimer 0 0 (some 7) false) 0, .timer none (.addTimer 1 0 (some 8) false) 0,
    .run (.scan 0), .nextTimer 0 1, .wait 0 [⟨0, false, []⟩], .expire 0 1 9, .push 0,
    .run (.scan 1), .run (.resume 1)]

def secondTask : ScheduleTask Nat := .ofCb (some 8) none

theorem requests_conserved_collectingRun :
    ∃ r, ((shutdownSystem [0, 1]).recording requests).Reachable free r ∧
      r.2 = [.ofCb (some 7) none, secondTask] ∧
      r.2.count secondTask = ([0, 1].map fun t => (r.1.idle t).collected.count secondTask).sum +
        (r.1.sched.tasks.map TaskEntry.task).count secondTask +
        ((r.1.sched.inHands [0, 1]).map TaskEntry.task).count secondTask +
        r.1.sched.completed.count secondTask := by
  obtain ⟨r, hr, hp⟩ := Reachable.of_replay (T := (shutdownSystem [0, 1]).recording requests)
    (G := free) (g := fun _ _ => true) (fun _ _ _ => trivial) (s := (shutdownStart, []))
    (l := collectingRun)
    (p := fun r => r.2 == [.ofCb (some 7) none, secondTask])
    ⟨shutdownStart_init [0, 1], rfl⟩ (by decide)
  exact ⟨r, hr, by simpa using hp, requests_conserved (by decide) hr _ rfl⟩

/-- When every worker has left `run()`, and after `stop()` only tasks created work, every task
that was asked for is completed, as often as it was asked for, and nothing is left in the queue,
in the hands of a worker or among the callbacks that an idle fiber has collected. -/
theorem requests_completed (hW : W.Nodup) (hne : W ≠ [])
    {r : ShutdownState τ × List (ScheduleTask τ)}
    (h : ((shutdownSystem W).recording requests).Reachable (fun r a => onlyTasksCreate r.1 a) r)
    (hleft : ∀ t ∈ W, r.1.sched.pc t = .left) :
    (∀ task, task.nonEmpty = true → r.2.count task = r.1.sched.completed.count task) ∧
      r.1.sched.tasks = [] ∧ r.1.sched.inHands W = [] ∧
      ∀ t ∈ W, (r.1.idle t).collected (τ := τ) = [] := by
  have hrun := h.of_recording
  have hwinding := winding_of_reachable hW hne hrun
  have hquiet : Quiet W r.1.sched := by
    refine hwinding.quiet fun t ht => ?_
    have hagree := hwinding.agree t ht
    rwa [hleft t ht] at hagree
  have hhands : r.1.sched.inHands W = [] := held_eq_nil.mpr hquiet.idleHands
  have hnone : ∀ t ∈ W, (r.1.idle t).collected (τ := τ) = [] := fun t ht =>
    collectsInside_of_run hrun t (by rw [hleft t ht]; simp)
  refine ⟨fun task hsome => ?_, hquiet.tasks, hhands, hnone⟩
  have hasked := asked_of_run hW h task hsome
  have hplaces := hwinding.conserved.count_task task
  have hcollected : (W.map fun t => (r.1.idle t).collected.count task).sum = 0 := by
    refine List.sum_eq_zero_iff_forall_eq_nat.mpr fun n hn => ?_
    obtain ⟨t, ht, rfl⟩ := List.mem_map.mp hn
    rw [hnone t ht]
    rfl
  rw [hquiet.tasks, hhands] at hplaces
  simpa [hcollected, hplaces] using hasked

theorem requests_completed_freshRun :
    ∃ r, ((shutdownSystem [0, 1]).recording requests).Reachable (fun r a => onlyTasksCreate r.1 a)
        r ∧ r.2 = [.ofCb (some 7) none] ∧
      (∀ task, task.nonEmpty = true → r.2.count task = r.1.sched.completed.count task) ∧
      r.1.sched.tasks = [] ∧ r.1.sched.inHands [0, 1] = [] ∧
      ∀ t ∈ [0, 1], (r.1.idle t).collected (τ := Nat) = [] := by
  obtain ⟨r, hr, hp⟩ := Reachable.of_replay (T := (shutdownSystem [0, 1]).recording requests)
    (G := fun r a => onlyTasksCreate r.1 a) (g := fun r a => decide (onlyTasksCreate r.1 a))
    (fun _ _ => of_decide_eq_true) (s := (shutdownStart, [])) (l := freshRun)
    (p := fun r => r.2 == [.ofCb (some 7) none] && r.1.sched.pc 0 == .left &&
      r.1.sched.pc 1 == .left)
    ⟨shutdownStart_init [0, 1], rfl⟩ (by decide)
  simp only [Bool.and_eq_true, beq_iff_eq] at hp
  exact ⟨r, hr, hp.1.1, requests_completed (by decide) (by decide) hr (by simp [hp.1.2, hp.2])⟩

/-! ## Registrations that nobody ends -/

/-- The call may end the registration of the slot. -/
def Call.Ends (call : Call) (slot : Slot) : Prop :=
  call.Takes slot ∨ call = .delEvent slot.1 slot.2

instance (call : Call) (slot : Slot) : Decidable (call.Ends slot) :=
  inferInstanceAs (Decidable (_ ∨ _))

section

variable {R R' : Registry} {m m' : IOManager} {call : Call} {granted : Bool} {out : Outcome}
  {slot : Slot} {r : Registration}

/-- What leaves a slot leaves it by a call that ends its registration. -/
theorem ends_of_mem (h : Represents R m) (hop : m.perform call granted = some (out, m'))
    {act : OneShot.Act Registration} (hmem : ⟨slot, act⟩ ∈ moves call out)
    (hact : ∀ c, act ≠ .add c) : call.Ends slot := by
  simp only [moves, List.mem_append] at hmem
  obtain (hadded | hdropped) | hfired := hmem
  · unfold Outcome.added at hadded
    split at hadded
    · split at hadded
      · obtain ⟨c, -, heq⟩ := List.mem_map.mp hadded
        cases heq
        exact absurd rfl (hact c)
      · cases hadded
    · cases hadded
  · unfold Outcome.dropped at hdropped
    split at hdropped
    · split at hdropped
      · cases List.mem_singleton.mp hdropped
        exact .inr rfl
      · cases hdropped
    · cases hdropped
  · obtain ⟨t, ht, hmove⟩ := List.mem_filterMap.mp hfired
    obtain ⟨slot', r', -, rfl, htakes⟩ := h.pushes hop ht
    rw [Registration.move_trigger] at hmove
    cases hmove
    exact .inl htakes

/-- A registration stays through the calls that do not end it. -/
theorem Does.keeps (hdoes : Does R m call out m' R') (h : Represents R m)
    (hends : ¬ call.Ends slot) (hr : R slot = some r)
    (hop : m.perform call granted = some (out, m')) : R' slot = some r := by
  have hrun := hdoes.run.slot slot
  cases hhistory : OneShot.history slot (moves call out) with
  | nil =>
    rw [hhistory] at hrun
    exact (OneShot.run_nil.mp hrun).trans hr
  | cons act acts =>
    rw [hhistory, hr] at hrun
    obtain ⟨b, hstep, -⟩ := hrun
    have hmem : ⟨slot, act⟩ ∈ moves call out :=
      OneShot.mem_of_mem_history (by rw [hhistory]; exact List.mem_cons_self)
    refine absurd (ends_of_mem h hop hmem ?_) hends
    rintro c rfl
    cases hstep

theorem Encodes.taskAt (h : Encodes R m) (hr : R slot = some r) :
    taskAt m slot = some (r.scheduler, (r.trigger slot.1 slot.2).fiber,
      (r.trigger slot.1 slot.2).cb) := by
  obtain ⟨fd, event⟩ := slot
  obtain ⟨hfd, hevent⟩ := h.outside fd event (by rw [hr]; simp)
  simp only [IOManager.taskAt, h.lookup hfd, Option.bind_eq_bind, Option.bind_some,
    R.fdContext_getEventContext hevent, hr]
  obtain ⟨scheduler, f | c⟩ := r <;> rfl

theorem Encodes.registered_iff (h : Encodes R m) :
    m.registered slot = true ↔ ∃ r, R slot = some r := by
  obtain ⟨fd, event⟩ := slot
  by_cases hslot : (fd, event) ∈ slots m.fdContexts.length
  · rw [h.registered hslot, Option.isSome_iff_exists]
  · constructor
    · intro hregistered
      obtain ⟨c, hc, hbits⟩ := (Option.any_eq_true _ _).mp hregistered
      refine absurd (mem_slots.mpr ⟨(List.getElem?_eq_some_iff.mp hc).1, ?_⟩) hslot
      rintro rfl
      simp [Event.bits] at hbits
    · rintro ⟨r, hr⟩
      exact absurd (mem_slots.mpr (h.outside fd event (by rw [hr]; simp))) hslot

end

/-- `addEvent` is called on threads of schedulers. -/
def properEvents (_ : ShutdownState τ) : ShutdownLabel τ → Prop
  | .event _ call _ => call.Proper
  | _ => True

/-- And no call ends the registration of `slot`. -/
def sparing (slot : Slot) (_ : ShutdownState τ) : ShutdownLabel τ → Prop
  | .event _ call _ => call.Proper ∧ ¬ call.Ends slot
  | _ => True

omit [DecidableEq τ] in
theorem proper_of_sparing {slot : Slot} (h : sparing slot s a) : properEvents s a := by
  cases a with
  | event caller call granted => exact h.1
  | _ => trivial

instance (s : ShutdownState τ) : DecidablePred (properEvents s)
  | .event _ call _ => inferInstanceAs (Decidable call.Proper)
  | .run _ | .timer _ _ _ | .nextTimer _ _ | .pendingCount _ | .stopping _ | .wait _ _
  | .expire _ _ _ | .push _ | .handle _ => .isTrue trivial

instance (slot : Slot) (s : ShutdownState τ) : DecidablePred (sparing slot s)
  | .event _ call _ => inferInstanceAs (Decidable (call.Proper ∧ ¬ call.Ends slot))
  | .run _ | .timer _ _ _ | .nextTimer _ _ | .pendingCount _ | .stopping _ | .wait _ _
  | .expire _ _ _ | .push _ | .handle _ => .isTrue trivial

/-- What holds of the events in every run: the table represents a registry, and no idle fiber
handles an entry; a worker leaves `run()` after its idle fiber has ended. -/
structure Watching (W : List τ) (R : Registry) (s : ShutdownState τ) : Prop where
  represents : Represents R s.io
  unfed : ∀ t, (s.idle t).unfed
  agree : ∀ t ∈ W, agrees (s.sched.pc t) (s.sched.idleTerm t)

variable {R : Registry}

/-- An idle fiber goes on and leaves the events alone: it has no entry to handle. -/
theorem Watching.idle (h : Watching W R s) {t : τ} (ht : t ∈ W) (hpc : s.sched.pc t = .idle)
    (hstep : IdleStep s t a s') : Watching W R s' := by
  have hunfed := (WorkStep.idle t a s' ht hpc hstep).unfed h.unfed
  have hbefore := h.unfed t
  cases hstep with
  | nextTimer | pendingCount | goesOn | wait | expire | push | pushed | tickle =>
    exact ⟨h.represents, hunfed, h.agree⟩
  | entry fd mask granted entries ts m hpc' hop =>
    rw [hpc'] at hbefore
    cases hbefore
  | yields hpc' =>
    exact ⟨h.represents, hunfed, agrees_update h.agree rfl rfl trivial⟩
  | ends hpc' hstop =>
    refine ⟨h.represents, hunfed, fun u hu => ?_⟩
    by_cases hut : u = t
    · subst hut
      simp [Scheduler.State.idleTurn, hstop, agrees]
    · simpa [Scheduler.State.idleTurn, hstop, hut] using h.agree u hu

theorem Watching.step (h : Watching W R s) (hg : properEvents s a) (hstep : WorkStep W s a s') :
    ∃ R', Watching W R' s' ∧
      ∀ slot r, sparing slot s a → R slot = some r → R' slot = some r := by
  cases hstep with
  | run b q hb hq =>
    exact ⟨R, ⟨h.represents, h.unfed, run_agrees hb h.agree hq⟩, fun _ _ _ hr => hr⟩
  | timer caller call now m hop =>
    exact ⟨R, ⟨h.represents, h.unfed, h.agree⟩, fun _ _ _ hr => hr⟩
  | event caller call granted out m hown hop =>
    obtain ⟨hpcs, hterm, -⟩ := schedule_all (W := W) s.sched (s.ownTasks out.triggers)
    have hagree : ∀ t ∈ W, agrees ((s.pushOwn out.triggers).pc t)
        ((s.pushOwn out.triggers).idleTerm t) := by
      intro t ht
      have hbefore := h.agree t ht
      rwa [← hpcs, ← hterm] at hbefore
    obtain ⟨R', hdoes⟩ := h.represents.perform hg hop
    refine ⟨R', ⟨hdoes.represents, h.unfed, hagree⟩, fun slot r hsparing hr => ?_⟩
    exact hdoes.keeps h.represents hsparing.2 hr hop
  | idle t a s' ht hpc hidle => exact ⟨R, h.idle ht hpc hidle, fun _ _ _ hr => hr⟩

theorem watching_of_reachable (h : (shutdownSystem W).Reachable properEvents s) :
    ∃ R, Watching W R s := by
  refine Preserved.reachable (I := fun s => ∃ R, Watching W R s) ?_ ?_ h
  · rintro s a s' ⟨R, hR⟩ hg hstep
    obtain ⟨R', hR', -⟩ := hR.step hg (work_cases hstep)
    exact ⟨R', hR'⟩
  · rintro s ⟨hsched, -, ⟨tickleFd, size, hio⟩, hidle⟩
    refine ⟨_, hio ▸ init_represents tickleFd size, fun t => ?_, fun t _ => ?_⟩
    · rw [hidle t]
      trivial
    · rw [hsched.pc t]
      trivial

/-- The idle fiber of `t` has neither ended nor found that no event is pending. -/
def Pending (t : τ) (s : ShutdownState τ) : Prop :=
  s.sched.idleTerm t = false ∧ s.idle t ≠ .scheduler

/-- While an event is registered, no worker gets past the second read of `stopping`. -/
theorem Pending.step {t : τ} (h : Pending t s) (hpending : s.io.pendingEventCount ≠ 0)
    (hstep : WorkStep W s a s') : Pending t s' := by
  cases hstep with
  | run b q hb hq => exact ⟨by rw [run_idleTerm hb hq]; exact h.1, h.2⟩
  | timer caller call now m hop => exact h
  | event caller call granted out m hown hop =>
    obtain ⟨-, hterm, -⟩ := schedule_all (W := W) s.sched (s.ownTasks out.triggers)
    exact ⟨(congrFun hterm t).trans h.1, h.2⟩
  | idle u a s' hu hpc hidle =>
    by_cases htu : t = u
    · subst htu
      have goes {s' : ShutdownState τ} {pc : IdlePc} (hterm : s'.sched.idleTerm = s.sched.idleTerm)
          (hidle : s'.idle = Function.update s.idle t pc) (hpc : pc ≠ .scheduler) :
          Pending t s' :=
        ⟨(congrFun hterm t).trans h.1, by rwa [hidle, Function.update_self]⟩
      cases hidle with
      | ends hpc' hstop => exact absurd hpc' h.2
      | goesOn hpc' hstop => exact absurd hpc' h.2
      | pendingCount hpc' => exact goes rfl rfl (by simp [hpending])
      | nextTimer now hpc' =>
        refine goes rfl rfl ?_
        split <;> simp
      | entry fd mask granted entries ts m hpc' hop =>
        exact goes (schedule_all (W := W) s.sched (s.ownTasks ts)).2.1 rfl (by simp)
      | wait | expire | push | pushed | tickle | yields => exact goes rfl rfl (by simp)
    · obtain ⟨hsame, -, hterm⟩ := hidle.others htu
      exact ⟨hterm.trans h.1, hsame ▸ h.2⟩

/-- Whatever `epoll_wait` reports: as long as no call of `delEvent`, `cancelEvent` or `cancalAll`
ends a registration, it stays as it was made, its continuation is not scheduled, and no worker
whose idle fiber had not come past the count of the pending events leaves `run()`. -/
theorem undelivered {slot : Slot} (hs : (shutdownSystem W).Reachable properEvents s)
    (hslot : s.io.registered slot = true) (hpath : (shutdownSystem W).Path (sparing slot) s s') :
    s'.io.registered slot = true ∧ taskAt s'.io slot = taskAt s.io slot ∧
      ∀ t ∈ W, s.sched.idleTerm t = false → s.idle t ≠ .scheduler →
        s'.sched.idleTerm t = false ∧ s'.sched.pc t ≠ .left := by
  obtain ⟨R, hR⟩ := watching_of_reachable hs
  obtain ⟨r, hr⟩ := hR.represents.registered_iff.mp hslot
  have hkept : (shutdownSystem W).Preserved (sparing slot) fun u =>
      (∃ R', Watching W R' u ∧ R' slot = some r) ∧ ∀ t, Pending t s → Pending t u := by
    rintro u a v ⟨⟨R₁, hR₁, hr₁⟩, hpending⟩ hg hstep
    have hwork := work_cases hstep
    obtain ⟨R₂, hR₂, hspared⟩ := hR₁.step (proper_of_sparing hg) hwork
    refine ⟨⟨R₂, hR₂, hspared slot r hg hr₁⟩, fun t ht => (hpending t ht).step ?_ hwork⟩
    exact Nat.ne_of_gt (hR₁.represents.pending_pos hr₁)
  obtain ⟨⟨R', hR', hr'⟩, hpending⟩ := hkept.path hpath ⟨⟨R, hR, hr⟩, fun _ ht => ht⟩
  refine ⟨hR'.represents.registered_iff.mpr ⟨r, hr'⟩, ?_, fun t ht hterm hidle => ?_⟩
  · rw [hR.represents.taskAt hr, hR'.represents.taskAt hr']
  · have hended := (hpending t ⟨hterm, hidle⟩).1
    refine ⟨hended, fun hleft => ?_⟩
    have hagree := hR'.agree t ht
    rw [hleft, hended] at hagree
    cases hagree

/-- A task on worker 0 registers a reader of descriptor 6. -/
def registeringRun : List (ShutdownLabel Nat) :=
  [.run (.schedule none (.ofCb (some 7) none)), .run (.scan 0), .run (.resume 0),
    .event (some 0) (.addEvent ⟨some 0, .forTask 0, .running⟩ 6 .read (some 8)) true]

/-- `stop()` is called, the descriptor is reported readable, and worker 0 is back at its scan. -/
def reportingRun : List (ShutdownLabel Nat) :=
  [.run .stop, .run (.finish 0), .run (.save 0), .run (.complete 0), .run (.scan 0),
    .nextTimer 0 1, .pendingCount 0, .wait 0 [⟨1, false, [.context 6 epollIn true]⟩],
    .expire 0 1 9, .push 0, .handle 0]

theorem undelivered_reportingRun :
    ∃ s s', (shutdownSystem [0]).Reachable properEvents s ∧
      (shutdownSystem [0]).Path (sparing (6, .read)) s s' ∧ s'.sched.stopping = true ∧
      s'.io.registered (6, .read) = true ∧ s'.sched.pc 0 ≠ .left := by
  obtain ⟨s, s', hs, hpath, hp⟩ := Reachable.of_replays (T := shutdownSystem [0])
    (G := properEvents) (H := sparing (6, .read)) (fun _ _ h => of_decide_eq_true h)
    (fun _ _ h => of_decide_eq_true h)
    (k := registeringRun) (l := reportingRun)
    (p := fun s s' => s.io.registered (6, .read) && s'.sched.stopping && !s.sched.idleTerm 0 &&
      s.idle 0 != .scheduler) (shutdownStart_init [0]) (by decide)
  simp only [Bool.and_eq_true, Bool.not_eq_true', bne_iff_ne] at hp
  have hkept := undelivered hs hp.1.1.1 hpath
  exact ⟨s, s', hs, hpath, hp.1.1.2, hkept.1, (hkept.2.2 0 (by simp) hp.1.2 hp.2).2⟩

end IOManager
