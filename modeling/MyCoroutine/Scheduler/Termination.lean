-- SUMMARY: When Scheduler::stop returns: the exact condition on the tasks under which all threads leave Scheduler::run with every task completed.
import Mathlib.Order.Filter.Finite
import MyCoroutine.Scheduler.Overtaking
import MyCoroutine.Scheduler.Shutdown

/-! # The end of every thread

`stop` sets `m_stopping` and joins the threads, so it returns when each of them has left
`run()`. Taking a task and every step towards its completion make the rest of the work
smaller (`State.unfinished`), and only `schedule` makes it larger. Once nobody schedules
any more the work stands still in the end, and threads that go on moving then only turn
between the scan and the idle fiber. -/

namespace Scheduler

open Counting Filter TransitionSystem

variable {τ : Type} {W : List τ} {G : State τ → Label τ → Prop} {m n : ℕ}

/-- The steps that remain to the task in hand. -/
def Pc.weight : Pc τ → Nat
  | .took _ => 4
  | .exec _ _ => 3
  | .saving _ _ => 2
  | .returned _ => 1
  | .scan | .idle | .left => 0

/-- The steps that remain to the tasks there are. -/
def State.unfinished (W : List τ) (s : State τ) : Nat :=
  5 * s.tasks.length + (W.map fun t => (s.pc t).weight).sum

variable [DecidableEq τ] {s s' : State τ} {a : Label τ} {t u : τ}

/-! ## One step -/

theorem unfinished_setPc (hW : W.Nodup) (ht : t ∈ W) (s : State τ) (pc : Pc τ) :
    (s.setPc t pc).unfinished W + (s.pc t).weight = s.unfinished W + pc.weight := by
  have := sum_update hW ht Pc.weight s.pc pc
  unfold State.unfinished State.setPc
  dsimp only
  omega

/-- A step that leaves the work as it was. -/
inductive Still (s : State τ) : Label τ → State τ → Prop where
  /-- The thread found nothing to take. -/
  | scan (t : τ) (s' : State τ) (hpc : s.pc t = .scan)
      (hnone : ∀ e ∈ s.tasks, eligible t s.fiberState e = false) (htasks : s'.tasks = s.tasks)
      (hnext : s'.pc t = if s.idleTerm t then .left else .idle) : Still s (.scan t) s'
  | idle (t : τ) (s' : State τ) (hpc : s.pc t = .idle) (hturn : s' = s.idleTurn t) :
      Still s (.idle t) s'
  | other (a : Label τ) (s' : State τ) (ha : a.thread = none) (htasks : s'.tasks = s.tasks) :
      Still s a s'

/-- A step that schedules nothing makes the work smaller or leaves it as it was. -/
theorem Step.unfinished (hW : W.Nodup) (h : Step W s a s')
    (hnot : ∀ caller task, a ≠ .schedule caller task) :
    s'.unfinished W < s.unfinished W ∨ s'.unfinished W = s.unfinished W ∧ Still s a s' := by
  have moves {t : τ} {s₁ : State τ} {pc : Pc τ} (ht : t ∈ W) (htasks : s₁.tasks = s.tasks)
      (hpc : s₁.pc = s.pc) :
      (s₁.setPc t pc).unfinished W + (s.pc t).weight = s.unfinished W + pc.weight := by
    have := unfinished_setPc hW ht s₁ pc
    simpa only [State.unfinished, htasks, hpc] using this
  have less {t : τ} {s₁ : State τ} {pc : Pc τ} (ht : t ∈ W) (htasks : s₁.tasks = s.tasks)
      (hpc : s₁.pc = s.pc) (hlt : pc.weight < (s.pc t).weight) :
      (s₁.setPc t pc).unfinished W < s.unfinished W := by
    have hmove : (s₁.setPc t pc).unfinished W + _ = _ := moves ht htasks hpc
    omega
  have same {t : τ} {s₁ : State τ} {pc : Pc τ} (ht : t ∈ W) (htasks : s₁.tasks = s.tasks)
      (hpc : s₁.pc = s.pc) (heq : pc.weight = (s.pc t).weight) :
      (s₁.setPc t pc).unfinished W = s.unfinished W := by
    have hmove : (s₁.setPc t pc).unfinished W + _ = _ := moves ht htasks hpc
    omega
  cases h with
  | schedule caller task => exact absurd rfl (hnot caller task)
  | take t e ht hpc he =>
    obtain ⟨pre, post, htasks, hrest, -⟩ := scan_some he
    have hmove := unfinished_setPc hW ht { s with
      tasks := (scan t s.fiberState s.tasks).tasks
      activeThreadCount := s.activeThreadCount + 1 } (.took e)
    have hlength : s.tasks.length = (scan t s.fiberState s.tasks).tasks.length + 1 := by
      rw [hrest, htasks]
      simp [Nat.add_assoc]
    simp only [State.unfinished, hpc, Pc.weight] at hmove ⊢
    omega
  | leave t ht hpc hnone hterm =>
    exact .inr ⟨same ht rfl rfl (by rw [hpc]; rfl),
      .scan t _ hpc (scan_none hnone).2 rfl (by simp [hterm])⟩
  | rest t ht hpc hnone hterm =>
    exact .inr ⟨same ht rfl rfl (by rw [hpc]; rfl),
      .scan t _ hpc (scan_none hnone).2 rfl (by simp [hterm])⟩
  | resume t e f x ht hpc => exact .inl (less ht rfl rfl (by simp [hpc, Pc.weight]))
  | yield t e f x ht hpc _ y => exact .inl (less ht rfl rfl (by simp [hpc, Pc.weight]))
  | finish t e f x ht hpc => exact .inl (less ht rfl rfl (by simp [hpc, Pc.weight]))
  | save t e f x ht hpc => exact .inl (less ht rfl rfl (by simp [hpc, Pc.weight]))
  | complete t e ht hpc => exact .inl (less ht rfl rfl (by simp [hpc, Pc.weight]))
  | idle t ht hpc =>
    refine .inr ⟨?_, .idle t _ hpc rfl⟩
    have hturn : (s.setPc t .scan).unfinished W = s.unfinished W :=
      same ht rfl rfl (by rw [hpc]; rfl)
    unfold State.idleTurn
    split <;> exact hturn
  | stop => exact .inr ⟨rfl, .other _ _ rfl rfl⟩
  | outside f x => exact .inr ⟨rfl, .other _ _ rfl rfl⟩

/-- The other threads stay where they are. -/
theorem Step.pc_other (h : Step W s a s') (hother : a.thread ≠ some u) :
    s'.pc u = s.pc u ∧ s'.idleTerm u = s.idleTerm u := by
  have apart {t : τ} {s₁ : State τ} {pc : Pc τ} (hut : u ≠ t) (hpc : s₁.pc = s.pc)
      (hterm : s₁.idleTerm = s.idleTerm) :
      (s₁.setPc t pc).pc u = s.pc u ∧ (s₁.setPc t pc).idleTerm u = s.idleTerm u := by
    rw [State.setPc_pc, if_neg hut, State.setPc_idleTerm, hpc, hterm]
    exact ⟨rfl, rfl⟩
  have ne {t : τ} (h : some t ≠ some u) : u ≠ t := fun hut => h (congrArg some hut.symm)
  cases h with
  | schedule | stop | outside => exact ⟨rfl, rfl⟩
  | take | leave | rest | resume | yield | finish | save | complete =>
    exact apart (ne hother) rfl rfl
  | idle t =>
    have hturn : (s.setPc t .scan).pc u = s.pc u ∧ (s.setPc t .scan).idleTerm u = s.idleTerm u :=
      apart (ne hother) rfl rfl
    unfold State.idleTurn
    split
    · exact ⟨hturn.1, Function.update_of_ne (ne hother) _ _⟩
    · exact hturn

/-- A thread that has left is left for good. -/
theorem Step.left_kept (h : Step W s a s') (hleft : s.pc t = .left) : s'.pc t = .left := by
  by_cases hother : a.thread = some t
  · cases h with
    | schedule caller task hcaller =>
      exact hleft
    | stop | outside => cases hother
    | take _ _ _ hpc | leave _ _ hpc | rest _ _ hpc | resume _ _ _ _ _ hpc | yield _ _ _ _ _ hpc
    | finish _ _ _ _ _ hpc | save _ _ _ _ _ hpc | complete _ _ _ hpc | idle _ _ hpc =>
      cases hother
      rw [hleft] at hpc
      cases hpc
  · rw [(h.pc_other hother).1, hleft]

theorem Step.pushed_same (h : Step W s a s') (hnot : ∀ caller task, a ≠ .schedule caller task) :
    s'.pushed = s.pushed := by
  cases h with
  | schedule caller task => exact absurd rfl (hnot caller task)
  | idle =>
    unfold State.idleTurn
    split <;> rfl
  | _ => rfl

theorem Step.stopping_kept (h : Step W s a s') (hstop : s.stopping = true) :
    s'.stopping = true := by
  cases h with
  | stop => rfl
  | idle =>
    unfold State.idleTurn
    split <;> exact hstop
  | _ => exact hstop

theorem idleTurn_pc (s : State τ) (t : τ) : (s.idleTurn t).pc t = .scan := by
  unfold State.idleTurn
  split <;> simp

theorem idleTurn_tasks (s : State τ) (t : τ) : (s.idleTurn t).tasks = s.tasks := by
  unfold State.idleTurn
  split <;> rfl

theorem idleTurn_idleTerm (t : τ) (hstop : s.stoppingNow = true) :
    (s.idleTurn t).idleTerm t = true := by
  simp [State.idleTurn, hstop]

/-! ## Every run -/

/-- A thread that has not left `run` moves again and again; none of its assertions fails. -/
def Fair (W : List τ) (r : (system W).Run G) : Prop :=
  ∀ t ∈ W, (∃ n, (r.state n).pc t = .left) ∨ ∃ᶠ n in atTop, r.MovesAt Label.thread t n

/-- What `stop` waits for. -/
structure Winds (W : List τ) (r : (system W).Run G) : Prop where
  /-- `stop` is called. -/
  stopped : ∃ n, (r.state n).stopping = true
  /-- The tasks do not schedule for ever. -/
  drains : ∀ᶠ n in atTop, ∀ caller task, r.label n ≠ some (.schedule caller task)
  /-- A fiber in the queue does not stay `RUNNING` off the threads. -/
  parked : ∀ᶠ n in atTop, ∀ e ∈ (r.state n).tasks, ∀ f, e.task.fiber = some f →
    (r.state n).fiberState f = .running → ∃ t ∈ W, ∃ x, (r.state n).pc t = .exec x f
  /-- No task waits for a thread that does not run the scheduler. -/
  pinned : ∀ n, ∀ task ∈ (r.state n).pushed, ∀ u, task.thread = some u → u ∈ W

theorem left_mono (r : (system W).Run G) (h : (r.state m).pc t = .left) (hmn : m ≤ n) :
    (r.state n).pc t = .left :=
  r.always (I := fun s => s.pc t = .left)
    (fun _ _ _ h _ hstep => (step_cases hstep).left_kept h) h hmn

theorem stopping_mono (r : (system W).Run G) (h : (r.state m).stopping = true) (hmn : m ≤ n) :
    (r.state n).stopping = true :=
  r.always (I := fun s => s.stopping = true)
    (fun _ _ _ h _ hstep => (step_cases hstep).stopping_kept h) h hmn

/-- What happens at moment `n`, if anything, leaves the work as it was. -/
def StillAt (r : (system W).Run G) (n : ℕ) : Prop :=
  ∀ a, r.label n = some a → Still (r.state n) a (r.state (n + 1))

theorem eventually_still (hW : W.Nodup) (r : (system W).Run G)
    (hdrains : ∀ᶠ n in atTop, ∀ caller task, r.label n ≠ some (.schedule caller task)) :
    ∀ᶠ n in atTop, StillAt r n := by
  have hstep {n : ℕ} {a : Label τ} (hnot : ∀ caller task, r.label n ≠ some (.schedule caller task))
      (hlabel : r.label n = some a) :
      (r.state (n + 1)).unfinished W < (r.state n).unfinished W ∨
        (r.state (n + 1)).unfinished W = (r.state n).unfinished W ∧
          Still (r.state n) a (r.state (n + 1)) :=
    (step_cases (r.step_of_some hlabel).2).unfinished hW
      fun caller task ha => hnot caller task (ha ▸ hlabel)
  have hle : ∀ᶠ n in atTop, (r.state (n + 1)).unfinished W ≤ (r.state n).unfinished W := by
    refine hdrains.mono fun n hnot => ?_
    cases hlabel : r.label n with
    | none => rw [r.state_of_none hlabel]
    | some a =>
      rcases hstep hnot hlabel with hlt | ⟨heq, -⟩
      · exact Nat.le_of_lt hlt
      · exact Nat.le_of_eq heq
  -- where the work stays the same, each step is a still one
  have hsettled : ∀ᶠ m in atTop, ∀ n, m ≤ n →
      (r.state n).unfinished W = (r.state m).unfinished W := settles hle
  refine (hsettled.and hdrains).mono fun n ⟨hconst, hnot⟩ a hlabel => ?_
  rcases hstep hnot hlabel with hlt | ⟨-, hstill⟩
  · rw [hconst (n + 1) (Nat.le_succ n)] at hlt
    exact absurd hlt (Nat.lt_irrefl _)
  · exact hstill

theorem StillAt.tasks {r : (system W).Run G} (h : StillAt r n) :
    (r.state (n + 1)).tasks = (r.state n).tasks := by
  cases hlabel : r.label n with
  | none => rw [r.state_of_none hlabel]
  | some a =>
    cases h a hlabel with
    | scan t _ _ _ htasks => exact htasks
    | idle t _ _ hturn => rw [hturn, idleTurn_tasks]
    | other _ _ _ htasks => exact htasks

/-- In a still step, the thread that moves turns between the scan and the idle fiber. -/
theorem StillAt.turns {r : (system W).Run G} (h : StillAt r n)
    (hmoves : r.MovesAt Label.thread t n) :
    ((r.state n).pc t = .scan ∧
        (∀ e ∈ (r.state n).tasks, eligible t (r.state n).fiberState e = false) ∧
        (r.state (n + 1)).pc t = if (r.state n).idleTerm t then .left else .idle) ∨
      ((r.state n).pc t = .idle ∧ r.state (n + 1) = (r.state n).idleTurn t) := by
  obtain ⟨a, hlabel, ha⟩ := Option.bind_eq_some_iff.mp hmoves
  cases h a hlabel with
  | scan u _ hpc hnone _ hnext =>
    cases ha
    exact .inl ⟨hpc, hnone, hnext⟩
  | idle u _ hpc hturn =>
    cases ha
    exact .inr ⟨hpc, hturn⟩
  | other _ _ hthread =>
    rw [hthread] at ha
    cases ha

theorem pc_of_not_moves {r : (system W).Run G} (h : ¬ r.MovesAt Label.thread t n) :
    (r.state (n + 1)).pc t = (r.state n).pc t ∧
      (r.state (n + 1)).idleTerm t = (r.state n).idleTerm t := by
  cases hlabel : r.label n with
  | none =>
    rw [r.state_of_none hlabel]
    exact ⟨rfl, rfl⟩
  | some a =>
    refine (step_cases (r.step_of_some hlabel).2).pc_other fun ha => h ?_
    rw [Run.MovesAt, hlabel]
    exact ha

/-- A thread is where it was when it moves next. -/
theorem exists_turn (r : (system W).Run G) (hmoves : ∃ᶠ n in atTop, r.MovesAt Label.thread t n)
    (m : ℕ) :
    ∃ n, m ≤ n ∧ ((r.state n).pc t = (r.state m).pc t ∧
      (r.state n).idleTerm t = (r.state m).idleTerm t) ∧ r.MovesAt Label.thread t n := by
  apply exists_of_kept hmoves ⟨rfl, rfl⟩
  intro n _ hkept hnot
  obtain ⟨hpc, hterm⟩ := pc_of_not_moves hnot
  exact ⟨hpc.trans hkept.1, hterm.trans hkept.2⟩

theorem StillAt.rests {r : (system W).Run G} (h : StillAt r n)
    (hnone : ((r.state n).pc t).holding = none) :
    ((r.state (n + 1)).pc t).holding = none := by
  by_cases hmoves : r.MovesAt Label.thread t n
  · obtain ⟨-, -, hpc⟩ | ⟨-, hturn⟩ := h.turns hmoves
    · rw [hpc]
      split <;> rfl
    · rw [hturn, idleTurn_pc]
      rfl
  · rw [(pc_of_not_moves hmoves).1, hnone]

section Still

variable {r : (system W).Run G} (hstill : ∀ n, m ≤ n → StillAt r n)
include hstill

theorem tasks_of_still (hmn : m ≤ n) : (r.state n).tasks = (r.state m).tasks := by
  induction n, hmn using Nat.le_induction with
  | base => rfl
  | succ n hmn ih => rw [(hstill n hmn).tasks, ih]

theorem rests_of_still (hmoves : ∃ᶠ n in atTop, r.MovesAt Label.thread t n) :
    ∀ᶠ n in atTop, ((r.state n).pc t).holding = none := by
  obtain ⟨n, hmn, -, hmove⟩ := exists_turn r hmoves m
  refine eventually_atTop.mpr ⟨n, fun i hni => ?_⟩
  induction i, hni using Nat.le_induction with
  | base =>
    obtain ⟨hpc, -⟩ | ⟨hpc, -⟩ := (hstill n hmn).turns hmove <;>
      · rw [hpc]
        rfl
  | succ i hni ih => exact (hstill i (Nat.le_trans hmn hni)).rests ih

theorem exists_scan (hmoves : ∃ᶠ n in atTop, r.MovesAt Label.thread t n) :
    ∃ n, m ≤ n ∧ (r.state n).pc t = .scan ∧ r.MovesAt Label.thread t n := by
  obtain ⟨n, hmn, -, hmove⟩ := exists_turn r hmoves m
  obtain ⟨hpc, -⟩ | ⟨-, hturn⟩ := (hstill n hmn).turns hmove
  · exact ⟨n, hmn, hpc, hmove⟩
  · obtain ⟨i, hni, ⟨hpc, -⟩, hmove⟩ := exists_turn r hmoves (n + 1)
    rw [hturn, idleTurn_pc] at hpc
    exact ⟨i, by omega, hpc, hmove⟩

/-- A thread that finds `stopping()` true again and again leaves. -/
theorem exists_left (hmoves : ∃ᶠ n in atTop, r.MovesAt Label.thread t n)
    (hstop : ∀ n, m ≤ n → (r.state n).stoppingNow = true) :
    ∃ n, (r.state n).pc t = .left := by
  have leaves (i : ℕ) (hmi : m ≤ i) (hpc : (r.state i).pc t = .scan)
      (hterm : (r.state i).idleTerm t = true) : ∃ n, (r.state n).pc t = .left := by
    obtain ⟨j, hij, ⟨hpcj, htermj⟩, hmove⟩ := exists_turn r hmoves i
    obtain ⟨-, -, hnext⟩ | ⟨hidle, -⟩ := (hstill j (Nat.le_trans hmi hij)).turns hmove
    · rw [htermj, hterm] at hnext
      exact ⟨j + 1, hnext⟩
    · rw [hpcj, hpc] at hidle
      cases hidle
  have ends (i : ℕ) (hmi : m ≤ i) (hpc : (r.state i).pc t = .idle) :
      ∃ n, (r.state n).pc t = .left := by
    obtain ⟨j, hij, ⟨hpcj, -⟩, hmove⟩ := exists_turn r hmoves i
    obtain ⟨hscan, -⟩ | ⟨-, hturn⟩ := (hstill j (Nat.le_trans hmi hij)).turns hmove
    · rw [hpcj, hpc] at hscan
      cases hscan
    · apply leaves (j + 1) (by omega)
      · rw [hturn, idleTurn_pc]
      · rw [hturn]
        exact idleTurn_idleTerm t (hstop j (Nat.le_trans hmi hij))
  obtain ⟨n, hmn, -, hmove⟩ := exists_turn r hmoves m
  obtain ⟨-, -, hnext⟩ | ⟨hidle, -⟩ := (hstill n hmn).turns hmove
  · cases hterm : (r.state n).idleTerm t with
    | true =>
      rw [hterm] at hnext
      exact ⟨n + 1, hnext⟩
    | false =>
      rw [hterm] at hnext
      exact ends (n + 1) (by omega) hnext
  · exact ends n hmn hidle

end Still

/-! ## The condition -/

/-- Completed tasks were pinned to threads that run the scheduler. -/
def PinsHeld (W : List τ) (s : State τ) : Prop :=
  ∀ k ∈ s.finished, ∀ task, s.pushed[k]? = some task → ∀ u, task.thread = some u → u ∈ W

theorem PinsHeld.step (hc : Conserved W s) (h : PinsHeld W s) (hstep : Step W s a s') :
    PinsHeld W s' := by
  have same (hfinished : s'.finished = s.finished) : PinsHeld W s' := by
    intro k hk task htask
    rw [hfinished] at hk
    have hlt : k < s.pushed.length := List.mem_range.mp (hc.places.subset (by simp [hk]))
    obtain ⟨l, hl⟩ := hstep.pushed_grows
    rw [← hl, List.getElem?_append_left hlt] at htask
    exact h k hk task htask
  cases hstep with
  | complete t e ht hpc =>
    intro k hk task htask u hu
    obtain hk | hk := List.mem_append.mp hk
    · exact h k hk task htask u hu
    · -- the task was in the hands of `t`
      cases List.mem_singleton.mp hk
      have he : (s.pc t).holding = some e := by rw [hpc]; rfl
      have hentry : s.pushed[e.seq]? = some e.task :=
        hc.entry e (List.mem_append_right _ (mem_held.mpr ⟨t, ht, he⟩))
      cases hentry.symm.trans htask
      obtain hpin | hpin := hc.pinned t ht e he
      · rw [hpin] at hu
        cases hu
      · rw [hpin] at hu
        cases hu
        exact ht
  | idle t =>
    apply same
    unfold State.idleTurn
    split <;> rfl
  | _ => exact same rfl

theorem pinsHeld_of_reachable (hW : W.Nodup) (h : (system W).Reachable G s) : PinsHeld W s := by
  have hconserved : (system W).Preserved G (Conserved W) :=
    fun _ _ _ hc _ hstep => hc.step hW (step_cases hstep)
  have hboth : (system W).Preserved G fun s => Conserved W s ∧ PinsHeld W s :=
    hconserved.and_of fun _ _ _ hc hp _ hstep => hp.step hc (step_cases hstep)
  refine (hboth.reachable (fun s hs => ⟨Initial.conserved hs, ?_⟩) h).2
  intro k hk
  rw [hs.finished] at hk
  cases hk

theorem quiet_of_left (hW : W.Nodup) (r : (system W).Run onlyTasksSchedule) (ht : t ∈ W)
    (h : (r.state n).pc t = .left) : Quiet W (r.state n) := by
  have hr := retired_of_reachable hW (r.reachable n)
  exact hr.quiet t ht (hr.left t ht h)

theorem Quiet.not_schedule (h : Quiet W s) {caller : Option τ} {task : ScheduleTask τ}
    (hg : onlyTasksSchedule s (.schedule caller task))
    (hstep : Step W s (.schedule caller task) s') :
    False := by
  cases hstep with
  | schedule _ _ hcaller =>
    cases caller with
    | none => exact hg h.stopping task rfl
    | some u =>
      obtain ⟨hu, e, f, hpc⟩ := hcaller u rfl
      have hnone := h.idleHands u hu
      rw [hpc] at hnone
      cases hnone

/-- When every thread has left, what `stop` waits for has come about. -/
theorem winds_of_left (hW : W.Nodup) (hne : W ≠ []) (r : (system W).Run onlyTasksSchedule)
    (hleft : ∀ t ∈ W, (r.state n).pc t = .left)
    (hfinished : ∀ k < (r.state n).pushed.length, (r.state n).finished.count k = 1) :
    Winds W r := by
  obtain ⟨t, ht⟩ := List.exists_mem_of_ne_nil W hne
  have hquiet {i : ℕ} (hni : n ≤ i) : Quiet W (r.state i) :=
    quiet_preserved.path (r.path hni) (quiet_of_left hW r ht (hleft t ht))
  have hnot {i : ℕ} (hni : n ≤ i) (caller : Option τ) (task : ScheduleTask τ) :
      r.label i ≠ some (.schedule caller task) := by
    intro hlabel
    obtain ⟨hg, hstep⟩ := r.step_of_some hlabel
    exact (hquiet hni).not_schedule hg (step_cases hstep)
  have hpushed {i : ℕ} (hni : n ≤ i) : (r.state i).pushed = (r.state n).pushed := by
    induction i, hni using Nat.le_induction with
    | base => rfl
    | succ i hni ih =>
      cases hlabel : r.label i with
      | none => rw [r.state_of_none hlabel, ih]
      | some a =>
        rw [← ih]
        exact (step_cases (r.step_of_some hlabel).2).pushed_same
          fun caller task ha => hnot hni caller task (ha ▸ hlabel)
  refine ⟨⟨n, (hquiet (Nat.le_refl n)).stopping⟩, ?_, ?_, ?_⟩
  · exact eventually_atTop.mpr ⟨n, fun i hni caller task => hnot hni caller task⟩
  · refine eventually_atTop.mpr ⟨n, fun i hni e he => ?_⟩
    rw [(hquiet hni).tasks] at he
    cases he
  · intro i task htask u hu
    have hmem : task ∈ (r.state n).pushed := by
      obtain hin | hni := Nat.le_total i n
      · exact (pushed_mono r hin).subset htask
      · rwa [← hpushed hni]
    obtain ⟨k, hk, rfl⟩ := List.mem_iff_getElem.mp hmem
    have hcount := hfinished k hk
    exact pinsHeld_of_reachable hW (r.reachable n) k (List.count_pos_iff.mp (by omega)) _
      (List.getElem?_eq_getElem hk) u hu

/-- When what `stop` waits for comes about, every thread leaves. -/
theorem Winds.leaves (hW : W.Nodup) (hne : W ≠ []) {r : (system W).Run onlyTasksSchedule}
    (hfair : Fair W r) (h : Winds W r) : ∃ n, ∀ t ∈ W, (r.state n).pc t = .left := by
  obtain ⟨N, hN⟩ := eventually_atTop.mp ((eventually_still hW r h.drains).and h.parked)
  have hrests : ∀ t ∈ W, ∀ᶠ n in atTop, ((r.state n).pc t).holding = none := by
    intro t ht
    obtain ⟨k, hleft⟩ | hmoves := hfair t ht
    · refine eventually_atTop.mpr ⟨k, fun n hkn => ?_⟩
      rw [left_mono r hleft hkn]
      rfl
    · exact rests_of_still (fun n hn => (hN n hn).1) hmoves
  obtain ⟨k, hk⟩ := h.stopped
  -- from `m` on nothing is in hand and every step is a still one
  obtain ⟨m, hm⟩ := eventually_atTop.mp (((eventually_all_finite W.finite_toSet).mpr hrests).and
    ((eventually_ge_atTop N).and (eventually_ge_atTop k)))
  have hstill (n : ℕ) (hmn : m ≤ n) : StillAt r n := (hN n (hm n hmn).2.1).1
  have htasks : (r.state m).tasks = [] := by
    by_contra hsome
    obtain ⟨e, he⟩ := List.exists_mem_of_ne_nil _ hsome
    have he (n : ℕ) (hmn : m ≤ n) : e ∈ (r.state n).tasks := by
      rwa [tasks_of_still hstill hmn]
    -- somebody may take it
    obtain ⟨u, hu, hpin⟩ : ∃ u ∈ W, e.task.thread = none ∨ e.task.thread = some u := by
      cases hthread : e.task.thread with
      | none =>
        obtain ⟨u, hu⟩ := List.exists_mem_of_ne_nil W hne
        exact ⟨u, hu, .inl rfl⟩
      | some u =>
        have hentry := (conserved_of_reachable hW (r.reachable m)).entry e
          (List.mem_append_left _ (he m (Nat.le_refl m)))
        exact ⟨u, h.pinned m _ (List.mem_of_getElem? hentry) u hthread, .inr rfl⟩
    have helig (n : ℕ) (hmn : m ≤ n) : eligible u (r.state n).fiberState e = true := by
      simp only [eligible, decide_eq_true_eq]
      refine ⟨hpin, fun hrunning => ?_⟩
      obtain ⟨f, hf, hrunning⟩ := (Option.any_eq_true _ _).mp hrunning
      obtain ⟨t, ht, x, hpc⟩ :=
        (hN n (hm n hmn).2.1).2 e (he n hmn) f hf (of_decide_eq_true hrunning)
      have hnone := (hm n hmn).1 t ht
      rw [hpc] at hnone
      cases hnone
    obtain ⟨k, hleft⟩ | hmoves := hfair u hu
    · have hmem := he (max m k) (Nat.le_max_left _ _)
      rw [(quiet_of_left hW r hu (left_mono r hleft (Nat.le_max_right m k))).tasks] at hmem
      cases hmem
    · obtain ⟨n, hmn, hpc, hmove⟩ := exists_scan hstill hmoves
      obtain ⟨-, hnone, -⟩ | ⟨hidle, -⟩ := (hstill n hmn).turns hmove
      · have hnot := hnone e (he n hmn)
        rw [helig n hmn] at hnot
        cases hnot
      · rw [hpc] at hidle
        cases hidle
  have hstop (n : ℕ) (hmn : m ≤ n) : (r.state n).stoppingNow = true := by
    have hhands : (r.state n).inHands W = [] := held_eq_nil.mpr (hm n hmn).1
    have hactive := (conserved_of_reachable hW (r.reachable n)).active
    rw [hhands] at hactive
    simp [State.stoppingNow, stopping_mono r hk (hm n hmn).2.2, tasks_of_still hstill hmn, htasks,
      hactive]
  have hleft : ∀ t ∈ W, ∀ᶠ n in atTop, (r.state n).pc t = .left := by
    intro t ht
    obtain ⟨k, hk⟩ : ∃ k, (r.state k).pc t = .left :=
      (hfair t ht).elim id fun hmoves => exists_left hstill hmoves hstop
    exact eventually_atTop.mpr ⟨k, fun n hkn => left_mono r hk hkn⟩
  exact ((eventually_all_finite W.finite_toSet).mpr hleft).exists

/-- Threads that go on moving all leave `run`, with every task completed once, if and only
if `stop` is called, the tasks do not schedule for ever, no fiber in the queue stays
`RUNNING` off the threads and no task is pinned to a thread that does not run the scheduler. -/
theorem leaves_iff (hW : W.Nodup) (hne : W ≠ []) (r : (system W).Run onlyTasksSchedule)
    (hfair : Fair W r) :
    (∃ n, (∀ t ∈ W, (r.state n).pc t = .left) ∧
      ∀ k < (r.state n).pushed.length, (r.state n).finished.count k = 1) ↔ Winds W r := by
  constructor
  · rintro ⟨n, hleft, hfinished⟩
    exact winds_of_left hW hne r hleft hfinished
  · intro h
    obtain ⟨n, hleft⟩ := h.leaves hW hne hfair
    obtain ⟨t, ht⟩ := List.exists_mem_of_ne_nil W hne
    have hq := quiet_of_left hW r ht (hleft t ht)
    have hhands : (r.state n).inHands W = [] := held_eq_nil.mpr hq.idleHands
    refine ⟨n, hleft, fun k hk => ?_⟩
    have hcount := (conserved_of_reachable hW (r.reachable n)).count hk
    simpa [State.queued, hq.tasks, hhands] using hcount

/-- The run of `stopRun`, which then rests. -/
theorem leaves_iff_stopRun :
    ∃ r : (system [0, 1]).Run onlyTasksSchedule, Fair [0, 1] r ∧
      ((∃ n, (∀ t ∈ [0, 1], (r.state n).pc t = .left) ∧
        ∀ k < (r.state n).pushed.length, (r.state n).finished.count k = 1) ↔ Winds [0, 1] r) := by
  obtain ⟨r, hr⟩ := Run.exists_of_replay (T := system [0, 1]) (G := onlyTasksSchedule)
    (g := fun s a => !s.stopping || match a with | .schedule none _ => false | _ => true)
    (fun s a hg hstop task ha => by simp [hstop, ha] at hg) (l := stopRun) start_initial
    (by decide)
  have hfair : Fair [0, 1] r := by
    have hleft := (hr 23).2 (fun s => [0, 1].all fun t => s.pc t == .left) (by decide)
    intro t ht
    exact .inl ⟨23, by simpa using List.all_eq_true.mp hleft t ht⟩
  exact ⟨r, hfair, leaves_iff (by decide) (by decide) r hfair⟩

end Scheduler
