-- SUMMARY: Shutdown of the base scheduler: once Scheduler::stopping answers true nothing is left, and nothing comes back.
import MyCoroutine.Scheduler.Conservation

/-! # Shutdown of the base scheduler

`Scheduler::stopping` looks at the queue and at `m_activeThreadCount` under one
lock. A taken task is counted before the lock is released and stays counted
until its `resume` has returned, so its own `schedule` calls come before the
decrement. An empty queue and a zero count are therefore final as long as only
running tasks schedule. -/

namespace Scheduler

open Counting

variable {τ : Type} {W : List τ} {s s' : State τ} {a : Label τ}

/-- After `m_stopping` is set, `schedule` is called only from running tasks. -/
def onlyTasksSchedule (s : State τ) (a : Label τ) : Prop :=
  s.stopping = true → ∀ task, a ≠ .schedule none task

/-- Nothing is left to run, and `m_stopping` is set. -/
structure Quiet (W : List τ) (s : State τ) : Prop where
  stopping : s.stopping = true
  tasks : s.tasks = []
  idleHands : ∀ t ∈ W, (s.pc t).holding = none

theorem Quiet.scan_task [DecidableEq τ] (h : Quiet W s) (t : τ) :
    (scan t s.fiberState s.tasks).task = none := by
  rw [h.tasks]
  rfl

theorem Conserved.quiet (h : Conserved W s) (hstop : s.stoppingNow = true) : Quiet W s := by
  simp only [State.stoppingNow, Bool.and_eq_true, beq_iff_eq, List.isEmpty_iff] at hstop
  obtain ⟨⟨hset, htasks⟩, hactive⟩ := hstop
  -- the counter counts exactly the tasks in the hands
  rw [h.active, List.length_eq_zero_iff] at hactive
  exact ⟨hset, htasks, held_eq_nil.mp hactive⟩

/-- A thread whose idle fiber is `TERM` saw `stopping()` answer true. -/
structure Retired (W : List τ) (s : State τ) : Prop where
  left : ∀ t ∈ W, s.pc t = .left → s.idleTerm t = true
  quiet : ∀ t ∈ W, s.idleTerm t = true → Quiet W s

theorem Initial.retired (h : Initial s) : Retired W s := by
  constructor
  · intro t _ ht
    rw [h.pc t] at ht
    cases ht
  · intro t _ ht
    rw [h.idleTerm t] at ht
    cases ht

variable [DecidableEq τ]

theorem Quiet.setPc (h : Quiet W s) {t : τ} {pc : Pc τ} (hpc : pc.holding = none) :
    Quiet W (s.setPc t pc) := by
  refine ⟨h.stopping, h.tasks, ?_⟩
  intro u hu
  by_cases hut : u = t
  · subst hut
    simpa [State.setPc] using hpc
  · simpa [State.setPc, Function.update_of_ne hut] using h.idleHands u hu

omit [DecidableEq τ] in
theorem Quiet.of_same (h : Quiet W s) (hstop : s'.stopping = s.stopping)
    (htasks : s'.tasks = s.tasks) (hpc : s'.pc = s.pc) : Quiet W s' :=
  ⟨hstop.trans h.stopping, htasks.trans h.tasks, by rw [hpc]; exact h.idleHands⟩

/-- With nothing in the queue and nothing in anyone's hands, the only steps left
are the turns of the idle fibers and the ends of the threads. -/
theorem Quiet.step (h : Quiet W s) (hg : onlyTasksSchedule s a) (hstep : Step W s a s') :
    Quiet W s' := by
  have busy {t : τ} {e : TaskEntry τ} (ht : t ∈ W) (hpc : (s.pc t).holding = some e) : False := by
    rw [h.idleHands t ht] at hpc
    cases hpc
  cases hstep with
  | schedule caller task hcaller _ =>
    cases hc : caller with
    | none =>
      subst hc
      exact absurd rfl (hg h.stopping task)
    | some t =>
      obtain ⟨ht, e, f, hpc⟩ := hcaller t hc
      exact (busy ht (by rw [hpc]; rfl)).elim
  | take t e _ _ he =>
    rw [h.scan_task t] at he
    cases he
  | leave t => exact h.setPc rfl
  | rest t =>
    have hcount : Quiet W { s with idleThreadCount := s.idleThreadCount + 1 } :=
      h.of_same rfl rfl rfl
    exact hcount.setPc rfl
  | resume t e f x ht hpc => exact (busy ht (by rw [hpc]; rfl)).elim
  | yield t e f x ht hpc => exact (busy ht (by rw [hpc]; rfl)).elim
  | finish t e f x ht hpc => exact (busy ht (by rw [hpc]; rfl)).elim
  | save t e f x ht hpc => exact (busy ht (by rw [hpc]; rfl)).elim
  | complete t e ht hpc => exact (busy ht (by rw [hpc]; rfl)).elim
  | idle t =>
    have hturn : Quiet W (s.setPc t .scan) := h.setPc rfl
    unfold State.idleTurn
    split <;> exact hturn.of_same rfl rfl rfl
  | stop => exact ⟨rfl, h.tasks, h.idleHands⟩
  | outside f x => exact h.of_same rfl rfl rfl

theorem quiet_preserved : (system W).Preserved onlyTasksSchedule (Quiet W) :=
  fun _ _ _ h hg hstep => h.step hg (step_cases hstep)

omit [DecidableEq τ] in
/-- Steps that end no thread and no idle fiber. -/
theorem Retired.of_same (h : Retired W s) (hquiet : Quiet W s → Quiet W s')
    (hterm : s'.idleTerm = s.idleTerm) (hleft : ∀ t ∈ W, s'.pc t = .left → s.pc t = .left) :
    Retired W s' :=
  ⟨fun t ht hl => hterm ▸ h.left t ht (hleft t ht hl),
    fun t ht hi => hquiet (h.quiet t ht (hterm ▸ hi))⟩

theorem left_of_setPc {s : State τ} {t : τ} {pc : Pc τ} (hpc : pc ≠ .left) (u : τ)
    (h : (s.setPc t pc).pc u = .left) : s.pc u = .left := by
  by_cases hut : u = t
  · subst hut
    exact absurd (by simpa [State.setPc] using h) hpc
  · simpa [State.setPc, Function.update_of_ne hut] using h

theorem Retired.step (hc : Conserved W s) (h : Retired W s) (hg : onlyTasksSchedule s a)
    (hstep : Step W s a s') : Retired W s' := by
  have hquiet : Quiet W s → Quiet W s' := fun hq => hq.step hg hstep
  cases hstep with
  | schedule | stop | outside => exact h.of_same hquiet rfl fun _ _ hl => hl
  | take t | rest t | resume t | yield t | finish t | save t | complete t =>
    exact h.of_same hquiet rfl fun u _ => left_of_setPc (by simp) u
  | leave t ht _ _ hterm =>
    refine ⟨fun u hu hl => ?_, fun u hu hi => hquiet (h.quiet u hu hi)⟩
    by_cases hut : u = t
    · exact hut ▸ hterm
    · exact h.left u hu (by simpa [State.setPc, Function.update_of_ne hut] using hl)
  | idle t ht hpc =>
    -- only a turn that finds `stopping()` true ends the idle fiber
    cases hstop : s.stoppingNow with
    | true =>
      have hq : Quiet W (s.idleTurn t) := hquiet (hc.quiet hstop)
      refine ⟨fun u hu hl => ?_, fun _ _ _ => hq⟩
      simp only [State.idleTurn, hstop, if_true] at hl ⊢
      have hsl : s.pc u = .left := left_of_setPc (by simp) u hl
      have hut : u ≠ t := by
        rintro rfl
        rw [hpc] at hsl
        cases hsl
      simpa [Function.update_of_ne hut] using h.left u hu hsl
    | false =>
      apply h.of_same hquiet
      · simp [State.idleTurn, hstop, State.setPc]
      · intro u _ hl
        simp only [State.idleTurn, hstop, Bool.false_eq_true, if_false] at hl
        exact left_of_setPc (by simp) u hl

theorem retired_of_reachable (hW : W.Nodup) (h : (system W).Reachable onlyTasksSchedule s) :
    Retired W s := by
  have hconserved : (system W).Preserved onlyTasksSchedule (Conserved W) :=
    fun _ _ _ hc _ hstep => hc.step hW (step_cases hstep)
  have hboth : (system W).Preserved onlyTasksSchedule fun s => Conserved W s ∧ Retired W s :=
    hconserved.and_of fun _ _ _ hc hr hg hstep => hr.step hc hg (step_cases hstep)
  exact (hboth.reachable (fun _ hs => ⟨Initial.conserved hs, Initial.retired hs⟩) h).2

/-- As soon as `Scheduler::stopping()` would answer true, the queue is empty and
no thread holds a task, now and in every later state; so when all threads have
left `run()`, every non-empty task ever pushed has been completed once. -/
theorem stopping_final (hW : W.Nodup) (hne : W ≠ [])
    (h : (system W).Reachable onlyTasksSchedule s) :
    (s.stoppingNow = true → ∀ s', (system W).Path onlyTasksSchedule s s' →
      s'.tasks = [] ∧ ∀ t ∈ W, (s'.pc t).holding = none) ∧
    ((∀ t ∈ W, s.pc t = .left) → ∀ k < s.pushed.length, s.finished.count k = 1) := by
  have hc : Conserved W s := conserved_of_reachable hW h
  constructor
  · intro hstop s' hpath
    have hq : Quiet W s' := quiet_preserved.path hpath (hc.quiet hstop)
    exact ⟨hq.tasks, hq.idleHands⟩
  · intro hleft k hk
    obtain ⟨t, ht⟩ := List.exists_mem_of_ne_nil W hne
    have hr := retired_of_reachable hW h
    have hq : Quiet W s := hr.quiet t ht (hr.left t ht (hleft t ht))
    have hhands : s.inHands W = [] := held_eq_nil.mpr hq.idleHands
    have hcount := hc.count hk
    simpa [State.queued, hq.tasks, hhands] using hcount

/-- Two threads; the task scheduled before `stop` schedules another one while it
runs, pinned to the other thread, and both threads leave. -/
def stopRun : List (Label Nat) :=
  [.schedule none (.ofCb (some 5) none), .stop, .scan 0, .resume 0, .scan 1, .idle 1,
    .schedule (some 0) (.ofCb (some 6) (some 1)), .finish 0, .save 0, .complete 0, .scan 1,
    .resume 1, .finish 1, .save 1, .scan 0, .idle 0, .complete 1, .scan 1, .idle 1, .scan 1,
    .scan 0, .idle 0, .scan 0]

theorem stopping_final_stopRun :
    ∃ s, (system [0, 1]).Reachable onlyTasksSchedule s ∧ s.pushed.length = 2 ∧
      (∀ t ∈ [0, 1], s.pc t = .left) ∧ ∀ k < s.pushed.length, s.finished.count k = 1 := by
  obtain ⟨s, hs, hp⟩ := TransitionSystem.Reachable.of_replay (T := system [0, 1])
    (G := onlyTasksSchedule)
    (g := fun s a => !s.stopping || match a with | .schedule none _ => false | _ => true)
    (fun s a hg hstop task ha => by simp [hstop, ha] at hg) (l := stopRun)
    (p := fun s => s.pushed.length == 2 && s.pc 0 == .left && s.pc 1 == .left)
    start_initial (by decide)
  simp only [Bool.and_eq_true, beq_iff_eq] at hp
  have hleft : ∀ t ∈ [0, 1], s.pc t = .left := by simp [hp.1.2, hp.2]
  exact ⟨s, hs, hp.1.1, hleft, (stopping_final (by decide) (by decide) hs).2 hleft⟩

end Scheduler
