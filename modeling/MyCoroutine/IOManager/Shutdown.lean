-- SUMMARY: Shutdown of the IOManager: idle's separate reads in IOManager::stopping, and when no timer or event is dropped.
import MyCoroutine.IOManager.Idle
import MyCoroutine.Scheduler.Shutdown

/-! # Shutdown of the IOManager

The workers of an `IOManager` run `Scheduler::run`, with `IOManager::idle` as
their idle fiber. `IOManager::stopping` reads the timers, the counter and the
scheduler one after the other, without a lock that covers all three; each read
is a step of its own here. So is everything else in `idle` between which another
worker can come in: `listExpiredCb`, each `schedule` of a callback it collected,
each entry of `epoll_wait`. -/

namespace IOManager

open Scheduler (Pc Quiet Conserved)

variable {τ : Type}

/-! ## States -/

/-- Where the idle fiber of a worker is, or where it goes on when it is resumed. -/
inductive IdlePc where
  /-- `getNextTimer` in `stopping(next_timeout)`. -/
  | timers
  /-- There was no timer; `m_pendingEventCount` is next. -/
  | pending
  /-- No event was pending; `Scheduler::stopping` is next. -/
  | scheduler
  /-- `stopping` answered false. -/
  | wait
  /-- The waiting loop is over, with this outer `rt` and these entries. -/
  | expire (rt : Int) (events : List Entry)
  /-- These callbacks were collected and are not scheduled yet. -/
  | push (cbs : List (Option CbId)) (rt : Int) (events : List Entry)
  /-- The loop over the entries has these left. -/
  | handle (entries : List Entry)
  deriving DecidableEq

structure ShutdownState (τ : Type) where
  sched : Scheduler.State τ
  timers : TimerManager CbId
  io : IOManager
  idle : τ → IdlePc
  /-- The scheduler that this manager is. -/
  self : SchedulerId

/-- One step of one party. `caller` is the worker whose task makes the call, or
`none` for code outside the scheduler. -/
inductive ShutdownLabel (τ : Type) where
  /-- A step of `Scheduler::run`, of a task in it, or of `stop`. -/
  | run (a : Scheduler.Label τ)
  | timer (caller : Option τ) (call : TimerManager.Call CbId) (now : Int)
  | event (caller : Option τ) (call : Call) (granted : Bool)
  | nextTimer (t : τ) (now : Int)
  | pendingCount (t : τ)
  | stopping (t : τ)
  | wait (t : τ) (polls : List Poll)
  | expire (t : τ) (now : Int) (probe : Nat)
  | push (t : τ)
  | handle (t : τ)
  deriving DecidableEq

namespace ShutdownState

/-- What triggers push onto the queue of this scheduler. -/
def pushOwn (s : ShutdownState τ) (ts : List Trigger) : Scheduler.State τ :=
  let own := ts.filter fun t => t.scheduler = s.self
  (own.map Trigger.task).foldl Scheduler.State.schedule s.sched

variable [DecidableEq τ]

def setIdle (s : ShutdownState τ) (t : τ) (pc : IdlePc) : ShutdownState τ :=
  { s with idle := Function.update s.idle t pc }

/-- `idle` has yielded or ended, and `run` has counted it out. -/
def leaveIdle (s : ShutdownState τ) (t : τ) : ShutdownState τ :=
  { s with sched := { s.sched with
      idleThreadCount := Counting.pred64 s.sched.idleThreadCount }.setPc t .scan }

/-- The last read of `stopping`, and the branch on it. -/
def idleStopping (s : ShutdownState τ) (t : τ) : ShutdownState τ :=
  if s.sched.stoppingNow then { s with sched := s.sched.idleTurn t }
  else s.setIdle t .wait

/-- One entry of the loop over the entries, and the yield after the last. -/
def idleHandle (s : ShutdownState τ) (t : τ) : List Entry → Option (ShutdownState τ)
  | [] => some ((s.setIdle t .timers).leaveIdle t)
  | .tickle :: entries => some (s.setIdle t (.handle entries))
  | .context fd mask granted :: entries =>
    (s.io.idleEntry fd mask granted).map fun r =>
      { s with sched := s.pushOwn r.1, io := r.2 }.setIdle t (.handle entries)

end ShutdownState

/-! ## Steps -/

variable [DecidableEq τ]

/-- A call is made by a running task or from outside. -/
def callerRuns (W : List τ) (s : ShutdownState τ) : Option τ → Bool
  | none => true
  | some t => decide (t ∈ W) && match s.sched.pc t with
    | .exec _ _ => true
    | _ => false

/-- A task that calls `addEvent` passes its own fiber and this scheduler; the
entries that `idle` handles are nobody's call. -/
def callIsOwn (s : ShutdownState τ) (caller : Option τ) : Call → Bool
  | .addEvent c _ _ _ =>
    match caller with
    | none => true
    | some t =>
      match s.sched.pc t with
      | .exec _ f => c = ⟨some s.self, f, s.sched.fiberState f⟩
      | _ => false
  | .idleEntry _ _ => false
  | .delEvent _ _ | .cancelEvent _ _ | .cancalAll _ => true

/-- One step of `idle` on worker `t`. -/
def idleStep (s : ShutdownState τ) (t : τ) (a : ShutdownLabel τ) : Option (ShutdownState τ) :=
  match a, s.idle t with
  -- a delay other than -1 makes the conjunction false at once
  | .nextTimer _ now, .timers =>
    let r := s.timers.getNextTimer now
    some ({ s with timers := r.2 }.setIdle t (if r.1 = -1 then .pending else .wait))
  | .pendingCount _, .pending =>
    some (s.setIdle t (if s.io.pendingEventCount = 0 then .scheduler else .wait))
  | .stopping _, .scheduler => some (s.idleStopping t)
  -- whatever `epoll_wait` answered, the outer `rt` is still 0
  | .wait _ polls, .wait => (waitLoop 0 polls).map fun r => s.setIdle t (.expire r.1 r.2)
  | .expire _ now probe, .expire rt events =>
    let r := s.timers.listExpiredCb now probe
    some ({ s with timers := r.2 }.setIdle t (.push r.1 rt events))
  | .push _, .push [] rt events => some (s.setIdle t (.handle (events.take rt.toNat)))
  | .push _, .push (cb :: cbs) rt events =>
    some ({ s with sched := s.sched.schedule (.ofCb cb none) }.setIdle t (.push cbs rt events))
  | .handle _, .handle entries => s.idleHandle t entries
  | _, _ => none

/-- The worker whose idle fiber takes the step. -/
def ShutdownLabel.idler : ShutdownLabel τ → Option τ
  | .nextTimer t _ | .pendingCount t | .stopping t | .wait t _ | .expire t _ _ | .push t
  | .handle t => some t
  | .run _ | .timer _ _ _ | .event _ _ _ => none

def shutdownStep (W : List τ) (s : ShutdownState τ) (a : ShutdownLabel τ) :
    Option (ShutdownState τ) :=
  match a with
  | .run (.idle _) => none
  | .run a => ((Scheduler.system W).step s.sched a).map fun q => { s with sched := q }
  | .timer caller call now =>
    if callerRuns W s caller then
      (s.timers.perform call now).map fun m => { s with timers := m }
    else none
  | .event caller call granted =>
    if callerRuns W s caller ∧ callIsOwn s caller call then
      (s.io.perform call granted).map fun r => { s with sched := s.pushOwn r.1.triggers, io := r.2 }
    else none
  | .nextTimer t _ | .pendingCount t | .stopping t | .wait t _ | .expire t _ _ | .push t
  | .handle t => if t ∈ W ∧ s.sched.pc t = .idle then idleStep s t a else none

/-- An `IOManager` whose workers are `W`; nothing happened yet. -/
def shutdownSystem (W : List τ) : TransitionSystem (ShutdownState τ) (ShutdownLabel τ) where
  init s := Scheduler.Initial s.sched ∧ (∃ now, s.timers = .init now) ∧
    (∃ tickleFd size, s.io = init tickleFd size) ∧ ∀ t, s.idle t = .timers
  step := shutdownStep W

/-! ## What a step can do -/

variable {W : List τ} {s s' : ShutdownState τ} {a : ShutdownLabel τ}

/-- What a step of the idle fiber of `t` does to the scheduler: it schedules
something, or leaves the idle fiber, or ends it. -/
inductive IdleMoves (s s' : ShutdownState τ) (t : τ) (a : ShutdownLabel τ) : Prop where
  | schedules (tasks : List (ScheduleTask τ))
      (h : s'.sched = tasks.foldl Scheduler.State.schedule s.sched)
  | yields (h : s' = (s.setIdle t .timers).leaveIdle t)
  | ends (ha : a = .stopping t) (hstop : s.sched.stoppingNow = true)
      (h : s' = { s with sched := s.sched.idleTurn t })

theorem idleHandle_moves {t : τ} {entries : List Entry} (h : s.idleHandle t entries = some s') :
    IdleMoves s s' t a := by
  cases entries with
  | nil => cases h; exact .yields rfl
  | cons e entries =>
    cases e with
    | tickle => cases h; exact .schedules [] rfl
    | context fd mask granted =>
      obtain ⟨r, -, rfl⟩ := Option.map_eq_some_iff.mp h
      exact .schedules _ rfl

theorem idleStep_moves {t : τ} (ha : a.idler = some t) (h : idleStep s t a = some s') :
    IdleMoves s s' t a := by
  unfold idleStep at h
  split at h
  case h_1 | h_2 | h_5 | h_6 => cases h; exact .schedules [] rfl
  case h_3 =>
    cases ha
    cases h
    cases hstop : s.sched.stoppingNow with
    | true => exact .ends rfl hstop (by simp [ShutdownState.idleStopping, hstop])
    | false =>
      exact .schedules [] (by simp [ShutdownState.idleStopping, hstop, ShutdownState.setIdle])
  case h_4 =>
    obtain ⟨r, -, rfl⟩ := Option.map_eq_some_iff.mp h
    exact .schedules [] rfl
  case h_7 cb cbs rt events _ =>
    cases h
    exact .schedules [.ofCb cb none] rfl
  case h_8 => exact idleHandle_moves h
  case h_9 => cases h

inductive ShutdownStep (W : List τ) (s : ShutdownState τ) :
    ShutdownLabel τ → ShutdownState τ → Prop where
  | run (a : Scheduler.Label τ) (q : Scheduler.State τ) (ha : ∀ t, a ≠ .idle t)
      (h : Scheduler.Step W s.sched a q) : ShutdownStep W s (.run a) { s with sched := q }
  | timer (caller : Option τ) (call : TimerManager.Call CbId) (now : Int) (m : TimerManager CbId)
      (hcaller : callerRuns W s caller = true) :
      ShutdownStep W s (.timer caller call now) { s with timers := m }
  | event (caller : Option τ) (call : Call) (granted : Bool) (m : IOManager)
      (tasks : List (ScheduleTask τ)) (hcaller : callerRuns W s caller = true) :
      ShutdownStep W s (.event caller call granted)
        { s with sched := tasks.foldl Scheduler.State.schedule s.sched, io := m }
  | idle (t : τ) (a : ShutdownLabel τ) (s' : ShutdownState τ) (ht : t ∈ W)
      (hpc : s.sched.pc t = .idle) (h : IdleMoves s s' t a) : ShutdownStep W s a s'

theorem shutdown_cases (h : (shutdownSystem W).step s a = some s') : ShutdownStep W s a s' := by
  change shutdownStep W s a = some s' at h
  have idle {t : τ} (ha : a.idler = some t)
      (h : (if t ∈ W ∧ s.sched.pc t = .idle then idleStep s t a else none) = some s') :
      ShutdownStep W s a s' := by
    split at h
    · rename_i hi
      exact .idle t a s' hi.1 hi.2 (idleStep_moves ha h)
    · cases h
  cases a with
  | run b =>
    have hb : ∀ t, b ≠ .idle t := by
      rintro t rfl
      cases h
    have h' : ((Scheduler.system W).step s.sched b).map (fun q => { s with sched := q }) =
        some s' := by
      cases b with
      | idle t => exact absurd rfl (hb t)
      | _ => exact h
    obtain ⟨q, hq, rfl⟩ := Option.map_eq_some_iff.mp h'
    exact .run b q hb (Scheduler.step_cases hq)
  | timer caller call now =>
    simp only [shutdownStep] at h
    split at h
    · rename_i hcaller
      obtain ⟨m, -, rfl⟩ := Option.map_eq_some_iff.mp h
      exact .timer caller call now m hcaller
    · cases h
  | event caller call granted =>
    simp only [shutdownStep] at h
    split at h
    · rename_i hcaller
      obtain ⟨r, -, rfl⟩ := Option.map_eq_some_iff.mp h
      exact .event caller call granted r.2 _ hcaller.1
    · cases h
  | nextTimer t now => exact idle rfl h
  | pendingCount t => exact idle rfl h
  | stopping t => exact idle rfl h
  | wait t polls => exact idle rfl h
  | expire t now probe => exact idle rfl h
  | push t => exact idle rfl h
  | handle t => exact idle rfl h

/-! ## The end of the idle fibers -/

/-- Every worker's idle fiber is `TERM`. -/
def AllEnded (W : List τ) (q : Scheduler.State τ) : Prop :=
  ∀ t ∈ W, q.idleTerm t = true

/-- A worker leaves after its idle fiber ended, and is inside it only before. -/
def agrees : Pc τ → Bool → Prop
  | .left, term => term = true
  | .idle, term => term = false
  | .scan, _ | .took _, _ | .exec _ _, _ | .saving _ _, _ | .returned _, _ => True

structure Winding (W : List τ) (q : Scheduler.State τ) : Prop where
  conserved : Conserved W q
  agree : ∀ t ∈ W, agrees (q.pc t) (q.idleTerm t)
  quiet : AllEnded W q → Quiet W q

/-- A call that is not made by a task of this scheduler. -/
def ShutdownLabel.fromOutside : ShutdownLabel τ → Bool
  | .run (.schedule none _) | .timer none _ _ | .event none _ _ => true
  | _ => false

/-- Once `m_stopping` is set, only tasks create work. -/
def onlyTasksCreate (s : ShutdownState τ) (a : ShutdownLabel τ) : Prop :=
  s.sched.stopping = true → a.fromOutside = false

instance (s : ShutdownState τ) (a : ShutdownLabel τ) : Decidable (onlyTasksCreate s a) :=
  inferInstanceAs (Decidable (s.sched.stopping = true → a.fromOutside = false))

omit [DecidableEq τ] in
theorem schedule_all (q : Scheduler.State τ) (tasks : List (ScheduleTask τ)) :
    (tasks.foldl Scheduler.State.schedule q).pc = q.pc ∧
      (tasks.foldl Scheduler.State.schedule q).idleTerm = q.idleTerm ∧
      (Conserved W q → Conserved W (tasks.foldl Scheduler.State.schedule q)) := by
  induction tasks generalizing q with
  | nil => exact ⟨rfl, rfl, id⟩
  | cons task tasks ih =>
    obtain ⟨hpc, hterm, hconserved⟩ := ih (q.schedule task)
    exact ⟨hpc, hterm, fun h => hconserved (h.schedule task)⟩

variable {q q' : Scheduler.State τ}

/-- The steps of `run` end no idle fiber. -/
theorem run_idleTerm {b : Scheduler.Label τ} (hb : ∀ t, b ≠ .idle t)
    (h : Scheduler.Step W q b q') : q'.idleTerm = q.idleTerm := by
  cases h with
  | idle t => exact absurd rfl (hb t)
  | _ => rfl

theorem agrees_update {t : τ} {pc : Pc τ} (h : ∀ u ∈ W, agrees (q.pc u) (q.idleTerm u))
    (hpcs : q'.pc = Function.update q.pc t pc) (hterms : q'.idleTerm = q.idleTerm)
    (hpc : agrees pc (q.idleTerm t)) : ∀ u ∈ W, agrees (q'.pc u) (q'.idleTerm u) := by
  intro u hu
  rw [hpcs, hterms]
  rcases eq_or_ne u t with rfl | hut
  · simpa using hpc
  · simpa [hut] using h u hu

theorem run_agrees {b : Scheduler.Label τ} (hb : ∀ t, b ≠ .idle t)
    (hq : ∀ u ∈ W, agrees (q.pc u) (q.idleTerm u)) (h : Scheduler.Step W q b q') :
    ∀ u ∈ W, agrees (q'.pc u) (q'.idleTerm u) := by
  cases h with
  | schedule | stop | outside => exact hq
  | idle t => exact absurd rfl (hb t)
  | leave t ht hpc hnone hterm => exact agrees_update hq rfl rfl hterm
  | rest t ht hpc hnone hterm => exact agrees_update hq rfl rfl hterm
  | take | resume | yield | finish | save | complete => exact agrees_update hq rfl rfl trivial

omit [DecidableEq τ] in
theorem Winding.of_initial (hne : W ≠ []) (h : Scheduler.Initial q) : Winding W q := by
  refine ⟨h.conserved, fun t _ => ?_, fun hall => ?_⟩
  · rw [h.pc t]
    trivial
  · obtain ⟨t, ht⟩ := List.exists_mem_of_ne_nil W hne
    have hterm := hall t ht
    rw [h.idleTerm t] at hterm
    cases hterm

omit [DecidableEq τ] in
/-- A worker inside its idle fiber has not ended it. -/
theorem Winding.not_allEnded (h : Winding W q) {t : τ} (ht : t ∈ W) (hpc : q.pc t = .idle)
    (hall : AllEnded W q) : False := by
  have hagree := h.agree t ht
  rw [hpc, hall t ht] at hagree
  cases hagree

omit [DecidableEq τ] in
/-- What the idle fiber does without ending. -/
theorem Winding.of_running (h : Winding W q) {t : τ} (ht : t ∈ W) (hpc : q.pc t = .idle)
    (hconserved : Conserved W q') (hagree : ∀ u ∈ W, agrees (q'.pc u) (q'.idleTerm u))
    (hterm : q'.idleTerm = q.idleTerm) : Winding W q' ∧ ¬ AllEnded W q' := by
  have hnot : ¬ AllEnded W q' := by
    intro hall
    rw [AllEnded, hterm] at hall
    exact h.not_allEnded ht hpc hall
  exact ⟨⟨hconserved, hagree, fun hall => absurd hall hnot⟩, hnot⟩

/-- After the last idle fiber ended, nobody is left who could create work. -/
theorem Winding.no_caller (h : Winding W s.sched) (hall : AllEnded W s.sched) {caller : Option τ}
    (hcaller : callerRuns W s caller = true)
    (hnone : s.sched.stopping = true → caller ≠ none) : False := by
  have hquiet := h.quiet hall
  cases caller with
  | none => exact hnone hquiet.stopping rfl
  | some t =>
    simp only [callerRuns, Bool.and_eq_true, decide_eq_true_eq] at hcaller
    obtain ⟨ht, hexec⟩ := hcaller
    have hhand := hquiet.idleHands t ht
    split at hexec
    · rename_i e f hpc
      rw [hpc] at hhand
      cases hhand
    · cases hexec

/-- The step is the last read of the last idle fiber to end. -/
def LastIdleEnds (W : List τ) (s : ShutdownState τ) (a : ShutdownLabel τ) : Prop :=
  ∃ t, a = .stopping t ∧ s.sched.stoppingNow = true ∧ ∀ u ∈ W, u ≠ t → s.sched.idleTerm u = true

/-- What every step does once it is seen from the end: when all idle fibers are
`TERM` after it, it left the timers and the events alone, and they were `TERM`
before it or the last of them has just ended. -/
structure Winds (W : List τ) (s : ShutdownState τ) (a : ShutdownLabel τ) (s' : ShutdownState τ) :
    Prop where
  winding : Winding W s'.sched
  stays : AllEnded W s.sched → AllEnded W s'.sched
  kept : AllEnded W s'.sched → s'.timers = s.timers ∧ s'.io = s.io
  last : AllEnded W s'.sched → AllEnded W s.sched ∨ LastIdleEnds W s a

omit [DecidableEq τ] in
theorem Winding.winds_running (h : Winding W s.sched) {t : τ} (ht : t ∈ W)
    (hpc : s.sched.pc t = .idle) (hconserved : Conserved W s'.sched)
    (hagree : ∀ u ∈ W, agrees (s'.sched.pc u) (s'.sched.idleTerm u))
    (hterm : s'.sched.idleTerm = s.sched.idleTerm) : Winds W s a s' := by
  obtain ⟨hwinding, hnot⟩ := h.of_running ht hpc hconserved hagree hterm
  exact ⟨hwinding, fun hall => (h.not_allEnded ht hpc hall).elim, fun hall => absurd hall hnot,
    fun hall => absurd hall hnot⟩

/-- The last read of `stopping` answers true on worker `t`. -/
theorem Winding.winds_ending (hW : W.Nodup) (h : Winding W s.sched) {t : τ} (ht : t ∈ W)
    (hpc : s.sched.pc t = .idle) (hstop : s.sched.stoppingNow = true) :
    Winds W s (.stopping t) { s with sched := s.sched.idleTurn t } := by
  have hstep : Scheduler.Step W s.sched (.idle t) (s.sched.idleTurn t) := .idle t ht hpc
  have hquiet : Quiet W (s.sched.idleTurn t) :=
    (h.conserved.quiet hstop).step (fun _ _ heq => by cases heq) hstep
  have hterm : (s.sched.idleTurn t).idleTerm = Function.update s.sched.idleTerm t true := by
    simp [Scheduler.State.idleTurn, hstop]
  have hpcs : (s.sched.idleTurn t).pc = Function.update s.sched.pc t .scan := by
    simp only [Scheduler.State.idleTurn, hstop, if_true]
    rfl
  refine ⟨⟨h.conserved.step hW hstep, fun u hu => ?_, fun _ => hquiet⟩,
    fun hall => (h.not_allEnded ht hpc hall).elim, fun _ => ⟨rfl, rfl⟩, fun hall => .inr ?_⟩
  · rw [hterm, hpcs]
    rcases eq_or_ne u t with rfl | hut
    · simp [agrees]
    · simpa [hut] using h.agree u hu
  · refine ⟨t, rfl, hstop, fun u hu hut => ?_⟩
    have hu' := hall u hu
    rwa [hterm, Function.update_of_ne hut] at hu'

theorem Winding.step (hW : W.Nodup) (h : Winding W s.sched) (hg : onlyTasksCreate s a)
    (hstep : ShutdownStep W s a s') : Winds W s a s' := by
  cases hstep with
  | run b q hb hq =>
    have hterm := run_idleTerm hb hq
    have hsame : AllEnded W q → AllEnded W s.sched := fun hall => by rwa [AllEnded, hterm] at hall
    have honly : Scheduler.onlyTasksSchedule s.sched b := by
      rintro hstop task rfl
      cases hg hstop
    exact ⟨⟨h.conserved.step hW hq, run_agrees hb h.agree hq, fun hall =>
        (h.quiet (hsame hall)).step honly hq⟩,
      fun hall => by rwa [AllEnded, hterm], fun _ => ⟨rfl, rfl⟩, fun hall => .inl (hsame hall)⟩
  | timer caller call now m hcaller =>
    -- a caller is a task in somebody's hands, or it comes from outside before `stop`
    have hno : ¬ AllEnded W s.sched := fun hall =>
      h.no_caller hall hcaller fun hstop hnone => by subst hnone; cases hg hstop
    exact ⟨h, id, fun hall => absurd hall hno, fun hall => absurd hall hno⟩
  | event caller call granted m tasks hcaller =>
    obtain ⟨hpc, hterm, hconserved⟩ := schedule_all (W := W) s.sched tasks
    have hno : ¬ AllEnded W s.sched := fun hall =>
      h.no_caller hall hcaller fun hstop hnone => by subst hnone; cases hg hstop
    have hno' : ¬ AllEnded W (tasks.foldl Scheduler.State.schedule s.sched) := by
      rwa [AllEnded, hterm]
    have hagree : ∀ t ∈ W, agrees ((tasks.foldl Scheduler.State.schedule s.sched).pc t)
        ((tasks.foldl Scheduler.State.schedule s.sched).idleTerm t) := by
      rw [hpc, hterm]
      exact h.agree
    exact ⟨⟨hconserved h.conserved, hagree, fun hall => absurd hall hno'⟩,
      fun hall => absurd hall hno, fun hall => absurd hall hno', fun hall => absurd hall hno'⟩
  | idle t a s' ht hpc hmoves =>
    cases hmoves with
    | schedules tasks hsched =>
      obtain ⟨hpcs, hterm, hconserved⟩ := schedule_all (W := W) s.sched tasks
      refine h.winds_running ht hpc ?_ ?_ ?_ <;> rw [hsched]
      · exact hconserved h.conserved
      · rw [hpcs, hterm]
        exact h.agree
      · exact hterm
    | yields hyield =>
      subst hyield
      refine h.winds_running ht hpc ?_ ?_ rfl
      · have hhold (u : τ) : ((s.sched.setPc t .scan).pc u).holding = (s.sched.pc u).holding :=
          Scheduler.holding_setPc (by rw [hpc]; rfl) u
        exact h.conserved.of_same rfl rfl rfl rfl hhold
      · exact agrees_update h.agree rfl rfl trivial
    | ends ha hstop hend =>
      subst ha
      subst hend
      exact h.winds_ending hW ht hpc hstop

/-! ## Every run -/

/-- When the last idle fiber to end finds `Scheduler::stopping` true, the two
values that its `stopping` read before, no timer and no pending event, are still so. -/
def lastReadsFresh (W : List τ) (s : ShutdownState τ) : ShutdownLabel τ → Prop
  | .stopping t => s.sched.stoppingNow = true →
    (∀ u ∈ W, u ≠ t → s.sched.idleTerm u = true) →
    s.timers.timers = [] ∧ s.io.pendingEventCount = 0
  | _ => True

instance (W : List τ) (s : ShutdownState τ) : DecidablePred (lastReadsFresh W s)
  | .stopping t => inferInstanceAs (Decidable (s.sched.stoppingNow = true →
      (∀ u ∈ W, u ≠ t → s.sched.idleTerm u = true) →
      s.timers.timers = [] ∧ s.io.pendingEventCount = 0))
  | .run _ | .timer _ _ _ | .event _ _ _ | .nextTimer _ _ | .pendingCount _ | .wait _ _
  | .expire _ _ _ | .push _ | .handle _ => .isTrue trivial

theorem winding_of_reachable (hW : W.Nodup) (hne : W ≠ [])
    (h : (shutdownSystem W).Reachable onlyTasksCreate s) : Winding W s.sched :=
  TransitionSystem.Preserved.reachable (I := fun s => Winding W s.sched)
    (fun _ _ _ hs hg hstep => (hs.step hW hg (shutdown_cases hstep)).winding)
    (fun _ hs => .of_initial hne hs.1) h

/-- Once all idle fibers are `TERM`, no step touches a timer or an event again:
what the last of them overlooked stays where it is. -/
theorem left_behind (hW : W.Nodup) (h : Winding W s.sched) (hall : AllEnded W s.sched)
    (hpath : (shutdownSystem W).Path onlyTasksCreate s s') :
    s'.timers = s.timers ∧ s'.io = s.io := by
  have hinv : (shutdownSystem W).Preserved onlyTasksCreate fun u =>
      (Winding W u.sched ∧ AllEnded W u.sched) ∧ u.timers = s.timers ∧ u.io = s.io := by
    rintro u a v ⟨⟨hwinding, hended⟩, htimers, hio⟩ hg hstep
    have hwinds := hwinding.step hW hg (shutdown_cases hstep)
    have hended' := hwinds.stays hended
    obtain ⟨hkt, hki⟩ := hwinds.kept hended'
    exact ⟨⟨hwinds.winding, hended'⟩, hkt.trans htimers, hki.trans hio⟩
  exact (hinv.path hpath ⟨⟨h, hall⟩, rfl, rfl⟩).2

/-- A step that is not fresh ends the last idle fiber, and what it overlooked is
dropped for good. -/
theorem stale_reads_drop (hW : W.Nodup) (hne : W ≠ [])
    (h : (shutdownSystem W).Reachable onlyTasksCreate s)
    (hstep : (shutdownSystem W).step s a = some s') (hstale : ¬ lastReadsFresh W s a)
    {u : ShutdownState τ} (hpath : (shutdownSystem W).Path onlyTasksCreate s' u) :
    ¬ (u.timers.timers = [] ∧ u.io.pendingEventCount = 0) := by
  cases a with
  | stopping t =>
    simp only [lastReadsFresh, Classical.not_imp] at hstale
    obtain ⟨hstop, hothers, hwork⟩ := hstale
    have hwinding : Winding W s'.sched := winding_of_reachable hW hne (h.tail (fun _ => rfl) hstep)
    have hidle : idleStep s t (.stopping t) = some s' := (Option.ite_none_right_eq_some.mp hstep).2
    have hs' : s' = { s with sched := s.sched.idleTurn t } := by
      simp only [idleStep] at hidle
      split at hidle <;> simp_all [ShutdownState.idleStopping]
    -- with this step the last idle fiber is `TERM`, and nobody is left to look again
    have hall : AllEnded W s'.sched := by
      intro v hv
      rcases eq_or_ne v t with rfl | hvt
      · simp [hs', Scheduler.State.idleTurn, hstop]
      · simpa [hs', Scheduler.State.idleTurn, hstop, hvt] using hothers v hv hvt
    have hleft := left_behind hW hwinding hall hpath
    rw [hleft.1, hleft.2, hs']
    exact hwork
  | _ => exact absurd trivial hstale

/-- In every run in which only tasks create work after `stop`, and in which the
last idle fiber to end does not act on stale reads: when every worker has left
`run()`, no task, no timer and no pending event is left. -/
theorem shutdown_drops_nothing (hW : W.Nodup) (hne : W ≠ [])
    (h : (shutdownSystem W).Reachable (fun s a => onlyTasksCreate s a ∧ lastReadsFresh W s a) s)
    (hleft : ∀ t ∈ W, s.sched.pc t = .left) :
    s.sched.tasks = [] ∧ s.timers.timers = [] ∧ s.io.pendingEventCount = 0 := by
  have hinv : (shutdownSystem W).Preserved (fun s a => onlyTasksCreate s a ∧ lastReadsFresh W s a)
      fun s => Winding W s.sched ∧
        (AllEnded W s.sched → s.timers.timers = [] ∧ s.io.pendingEventCount = 0) := by
    rintro s a s' ⟨hwinding, hdrained⟩ ⟨honly, hfresh⟩ hstep
    have hwinds := hwinding.step hW honly (shutdown_cases hstep)
    refine ⟨hwinds.winding, fun hall => ?_⟩
    obtain ⟨htimers, hio⟩ := hwinds.kept hall
    rw [htimers, hio]
    rcases hwinds.last hall with hbefore | ⟨t, rfl, hstop, hothers⟩
    · exact hdrained hbefore
    · exact hfresh hstop hothers
  obtain ⟨hwinding, hdrained⟩ := hinv.reachable (fun s hs => by
    have hw : Winding W s.sched := .of_initial hne hs.1
    refine ⟨hw, fun hall => ?_⟩
    have hstop := (hw.quiet hall).stopping
    rw [hs.1.stopping] at hstop
    cases hstop) h
  have hall : AllEnded W s.sched := by
    intro t ht
    have hagree := hwinding.agree t ht
    rwa [hleft t ht] at hagree
  exact ⟨(hwinding.quiet hall).tasks, hdrained hall⟩

/-! ## A timer that is dropped -/

/-- Two workers that nothing happened to. -/
def shutdownStart : ShutdownState Nat where
  sched := Scheduler.start
  timers := .init 0
  io := init 5 32
  idle := fun _ => .timers
  self := 0

theorem shutdownStart_init (W : List Nat) : (shutdownSystem W).init shutdownStart :=
  ⟨Scheduler.start_initial, ⟨0, rfl⟩, ⟨5, 32, rfl⟩, fun _ => rfl⟩

/-- The callback 7 of a due timer is extracted by worker 0. Worker 1 then finds
no timer, no event and an empty scheduler, and ends its idle fiber. It takes the
callback nevertheless; before the callback adds another timer, worker 0 reads
that there is none. -/
def staleRun : List (ShutdownLabel Nat) :=
  [.timer none (.addTimer 0 0 (some 7) false) 0, .run .stop, .run (.scan 0), .nextTimer 0 1,
    .wait 0 [⟨0, false, []⟩], .expire 0 1 9, .run (.scan 1), .nextTimer 1 1, .pendingCount 1,
    .stopping 1, .push 0, .push 0, .handle 0, .run (.scan 1), .run (.resume 1), .run (.scan 0),
    .nextTimer 0 1, .timer (some 1) (.addTimer 1 1000 (some 8) false) 1, .run (.finish 1),
    .run (.save 1), .run (.complete 1), .pendingCount 0, .stopping 0, .run (.scan 0),
    .run (.scan 1)]

/-- Both workers have left, and timer 1 is still in the set. -/
theorem not_drained_staleRun :
    ¬ ∀ s, (shutdownSystem [0, 1]).Reachable onlyTasksCreate s →
      (∀ t ∈ [0, 1], s.sched.pc t = .left) →
      s.sched.tasks = [] ∧ s.timers.timers = [] ∧ s.io.pendingEventCount = 0 := by
  intro hall
  obtain ⟨s, hs, hp⟩ := TransitionSystem.Reachable.of_replay (T := shutdownSystem [0, 1])
    (G := onlyTasksCreate) (g := fun s a => decide (onlyTasksCreate s a))
    (fun _ _ => of_decide_eq_true) (l := staleRun)
    (p := fun s => s.sched.pc 0 == .left && s.sched.pc 1 == .left && s.timers.timers == [1])
    (shutdownStart_init [0, 1]) (by decide)
  simp only [Bool.and_eq_true, beq_iff_eq] at hp
  have hdrained := (hall s hs (by simp [hp.1.1, hp.1.2])).2.1
  rw [hp.2] at hdrained
  cases hdrained

/-- The same, but worker 0 reads the timers when the callback is done. -/
def freshRun : List (ShutdownLabel Nat) :=
  [.timer none (.addTimer 0 0 (some 7) false) 0, .run .stop, .run (.scan 0), .nextTimer 0 1,
    .wait 0 [⟨0, false, []⟩], .expire 0 1 9, .run (.scan 1), .nextTimer 1 1, .pendingCount 1,
    .stopping 1, .push 0, .push 0, .handle 0, .run (.scan 1), .run (.resume 1), .run (.finish 1),
    .run (.save 1), .run (.complete 1), .run (.scan 0), .nextTimer 0 1, .pendingCount 0,
    .stopping 0, .run (.scan 0), .run (.scan 1)]

theorem shutdown_drops_nothing_freshRun :
    ∃ s, (shutdownSystem [0, 1]).Reachable (fun s a => onlyTasksCreate s a ∧
        lastReadsFresh [0, 1] s a) s ∧ s.sched.finished = [0] ∧
      s.sched.tasks = [] ∧ s.timers.timers = [] ∧ s.io.pendingEventCount = 0 := by
  obtain ⟨s, hs, hp⟩ := TransitionSystem.Reachable.of_replay (T := shutdownSystem [0, 1])
    (G := fun s a => onlyTasksCreate s a ∧ lastReadsFresh [0, 1] s a)
    (g := fun s a => decide (onlyTasksCreate s a ∧ lastReadsFresh [0, 1] s a))
    (fun _ _ => of_decide_eq_true) (l := freshRun)
    (p := fun s => s.sched.pc 0 == .left && s.sched.pc 1 == .left && s.sched.finished == [0])
    (shutdownStart_init [0, 1]) (by decide)
  simp only [Bool.and_eq_true, beq_iff_eq] at hp
  exact ⟨s, hs, hp.2, shutdown_drops_nothing (by decide) (by decide) hs (by simp [hp.1.1, hp.1.2])⟩

end IOManager
