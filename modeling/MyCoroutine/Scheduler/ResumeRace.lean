-- SUMMARY: From the scan to the resume: a fiber is READY and on no other thread when it is resumed, as long as no scan takes one that is over and no two threads have it in hand.
import MyCoroutine.Scheduler.Stacks

/-! # From the scan to the resume

The scan passes over `RUNNING` fibers and takes all others, `TERM` ones too, and
the resume comes after the lock is released. Two entries for one fiber can be in
the hands of two threads at once. `Resuming` is what holds when no scan takes an
entry of a fiber that is over, and no thread resumes a fiber that another thread
has taken an entry for or has not left yet. -/

namespace Scheduler

variable {τ : Type} {W : List τ} {s s' : State τ} {a : Label τ}

/-! ## What the runs are about -/

/-- The fiber of the task that the thread has taken and not resumed. -/
def Pc.waiting : Pc τ → Option FiberId
  | .took e => e.task.fiber
  | .scan | .exec _ _ | .saving _ _ | .returned _ | .idle | .left => none

/-- Every fiber that a thread is about to resume is `READY`, so that its assertion
holds, and no fiber is on the stacks of two threads. -/
structure ResumeSafe (s : State τ) : Prop where
  ready : ∀ t f, (s.pc t).waiting = some f →
    ∃ x, s.fiber f = some x ∧ x.state = .ready ∧ x.resume ≠ none
  alone : ∀ t u f, (s.pc t).onStack = some f → (s.pc u).onStack = some f → t = u

/-- Fibers are run by the threads of the scheduler alone. -/
def inside : Label τ → Prop
  | .outside _ _ => False
  | .schedule _ _ | .scan _ | .resume _ | .yield _ | .finish _ | .save _ | .complete _ | .idle _
  | .stop => True

variable [DecidableEq τ]

/-- The first entry that a scan may take belongs to no fiber that is over, and a
fiber is resumed when no other thread has taken an entry for it or is on its stack. -/
def awaited (W : List τ) (s : State τ) : Label τ → Prop
  | .scan t => ∀ e ∈ s.tasks.find? (eligible t s.fiberState), ∀ f ∈ e.task.fiber,
      s.fiberState f ≠ .term
  | .resume t => ∀ f ∈ (s.pc t).waiting, ∀ u ∈ W, u ≠ t →
      (s.pc u).waiting ≠ some f ∧ (s.pc u).onStack ≠ some f
  | .schedule _ _ | .yield _ | .finish _ | .save _ | .complete _ | .idle _ | .stop
  | .outside _ _ => True

/-- The steps of the runs in which the scan and the resume agree. -/
def resumeGuard (W : List τ) (s : State τ) (a : Label τ) : Prop :=
  inside a ∧ awaited W s a

omit [DecidableEq τ] in
instance : DecidablePred (inside : Label τ → Prop)
  | .outside _ _ => .isFalse id
  | .schedule _ _ | .scan _ | .resume _ | .yield _ | .finish _ | .save _ | .complete _ | .idle _
  | .stop => .isTrue trivial

instance (W : List τ) (s : State τ) : DecidablePred (awaited W s)
  | .scan t => inferInstanceAs (Decidable (∀ e ∈ s.tasks.find? (eligible t s.fiberState),
      ∀ f ∈ e.task.fiber, s.fiberState f ≠ .term))
  | .resume t => inferInstanceAs (Decidable (∀ f ∈ (s.pc t).waiting, ∀ u ∈ W, u ≠ t →
      (s.pc u).waiting ≠ some f ∧ (s.pc u).onStack ≠ some f))
  | .schedule _ _ | .yield _ | .finish _ | .save _ | .complete _ | .idle _ | .stop
  | .outside _ _ => .isTrue trivial

instance (W : List τ) (s : State τ) (a : Label τ) : Decidable (resumeGuard W s a) :=
  inferInstanceAs (Decidable (_ ∧ _))

/-! ## The invariant -/

omit [DecidableEq τ] in
/-- Beside the stacks: a fiber that waits for its resume is `READY`. -/
structure Resuming (W : List τ) (s : State τ) : Prop extends Stacks W s where
  waiting : ∀ t f, (s.pc t).waiting = some f → ∃ x, s.fiber f = some x ∧ x.state = .ready

omit [DecidableEq τ] in
theorem Resuming.resumeSafe (h : Resuming W s) : ResumeSafe s := by
  refine ⟨fun t f hf => ?_, h.alone⟩
  obtain ⟨x, hx, hready⟩ := h.waiting t f hf
  exact ⟨x, hx, hready, Fiber.resume_ne_none hready⟩

omit [DecidableEq τ] in
theorem Initial.resuming (h : Initial s) : Resuming W s where
  toStacks := h.stacks
  waiting := by
    intro t f hf
    rw [h.pc t] at hf
    cases hf

omit [DecidableEq τ] in
/-- Steps that move no fiber and no task. -/
theorem Resuming.of_same (h : Resuming W s) (htasks : s'.tasks = s.tasks)
    (hfiber : s'.fiber = s.fiber) (hpushed : s'.pushed = s.pushed) (hpc : s'.pc = s.pc) :
    Resuming W s' := by
  constructor
  · exact h.toStacks.of_same htasks hfiber hpushed hpc
  · rw [hpc, hfiber]; exact h.waiting

omit [DecidableEq τ] in
theorem Resuming.schedule (h : Resuming W s) (task : ScheduleTask τ) :
    Resuming W (s.schedule task) where
  toStacks := h.toStacks.schedule task
  waiting := h.waiting

theorem waiting_setPc {t u : τ} {pc : Pc τ} {f : FiberId}
    (h : ((s.setPc t pc).pc u).waiting = some f) :
    (u = t ∧ pc.waiting = some f) ∨ (u ≠ t ∧ (s.pc u).waiting = some f) := by
  rw [State.setPc_pc] at h
  split at h
  · rename_i hut
    exact .inl ⟨hut, h⟩
  · rename_i hut
    exact .inr ⟨hut, h⟩

omit [DecidableEq τ] in
theorem Pc.waiting_eq_none {pc : Pc τ} (htook : ∀ e, pc ≠ .took e) : pc.waiting = none := by
  cases pc with
  | took e => exact absurd rfl (htook e)
  | _ => rfl

/-- A thread moves to a point where it has no task that waits for its resume. -/
theorem waiting_of_setPc {t u : τ} {pc : Pc τ} {f : FiberId} (htook : ∀ e, pc ≠ .took e)
    (hu : ((s.setPc t pc).pc u).waiting = some f) : (s.pc u).waiting = some f := by
  rcases waiting_setPc hu with ⟨-, hpc⟩ | ⟨-, hu⟩
  · rw [Pc.waiting_eq_none htook] at hpc
    cases hpc
  · exact hu

theorem Resuming.setPc (h : Resuming W s) {t : τ} {pc : Pc τ} (ht : t ∈ W)
    (htook : ∀ e, pc ≠ .took e) (hstack : pc.onStack = none) : Resuming W (s.setPc t pc) where
  toStacks := h.toStacks.setPc ht htook hstack
  waiting := fun u f hu => h.waiting u f (waiting_of_setPc htook hu)

/-- A thread takes out an entry whose fiber is not over. -/
theorem Resuming.take (h : Resuming W s) {t : τ} (ht : t ∈ W) {e : TaskEntry τ}
    {rest : List (TaskEntry τ)} (hrest : ∀ x ∈ rest, x ∈ s.tasks) (he : e ∈ s.tasks)
    (helig : eligible t s.fiberState e = true)
    (hterm : ∀ f, e.task.fiber = some f → s.fiberState f ≠ .term) (n : Nat) :
    Resuming W ({ s with tasks := rest, activeThreadCount := n }.setPc t (.took e)) := by
  have hready : ∀ f, e.task.fiber = some f → ∃ x, s.fiber f = some x ∧ x.state = .ready := by
    intro f hf
    have hnotTerm := hterm f hf
    have hnotRunning : s.fiberState f ≠ .running := by
      intro hrun
      simp [eligible, hf, hrun] at helig
    cases hx : s.fiber f with
    | none => simp [State.fiberState, hx] at hnotTerm
    | some x =>
      simp only [State.fiberState, hx, Option.map_some, Option.getD_some] at hnotTerm hnotRunning
      refine ⟨x, rfl, ?_⟩
      cases hstate : x.state with
      | ready => rfl
      | running => exact absurd hstate hnotRunning
      | term => exact absurd hstate hnotTerm
  refine ⟨h.toStacks.take ht hrest he n, fun u f hu => ?_⟩
  rcases waiting_setPc hu with ⟨-, hf⟩ | ⟨-, hu⟩
  · exact hready f hf
  · exact h.waiting u f hu

theorem Resuming.switchIn (h : Resuming W s) {t : τ} (ht : t ∈ W) {e : TaskEntry τ}
    {f : FiberId} (hfree : Apart s t f) (hwaits : ∀ u, u ≠ t → (s.pc u).waiting ≠ some f)
    {x : Fiber} (hrun : x.state = .running) :
    Resuming W (({ s with put := Function.update s.put f false }.setFiber f x).setPc t
      (.exec e f)) := by
  refine ⟨h.toStacks.switchIn ht hfree hrun, fun u g hu => ?_⟩
  rcases waiting_setPc hu with ⟨-, hnone⟩ | ⟨hut, hu⟩
  · cases hnone
  · have hgf : g ≠ f := by
      rintro rfl
      exact hwaits u hut hu
    obtain ⟨y, hy, hready⟩ := h.waiting u g hu
    exact ⟨y, (Function.update_of_ne hgf ..).trans hy, hready⟩

/-- The fiber that a thread has on its stack leaves: it stores to `m_state`, or has
its context saved and leaves the stack. -/
theorem Resuming.switchOut (h : Resuming W s) {t : τ} (ht : t ∈ W) {f : FiberId} {y : Fiber}
    {pc : Pc τ} (hstack : (s.pc t).onStack = some f) (htook : ∀ e, pc ≠ .took e)
    (hexec : ∀ e g, pc ≠ .exec e g) (hpc : pc.onStack = some f ∨ pc.onStack = none)
    (hready : ∀ u x, (s.pc u).waiting = some f → s.fiber f = some x → y.state = .ready) :
    Resuming W ((s.setFiber f y).setPc t pc) := by
  refine ⟨h.toStacks.switchOut ht hstack htook hexec hpc, fun u g hu => ?_⟩
  have hwait : (s.pc u).waiting = some g := waiting_of_setPc (s := s.setFiber f y) htook hu
  obtain ⟨x, hx, hxready⟩ := h.waiting u g hwait
  by_cases hgf : g = f
  · subst hgf
    exact ⟨y, Function.update_self .., hready u x hwait hx⟩
  · exact ⟨x, (Function.update_of_ne hgf ..).trans hx, hxready⟩

/-! ## Every run -/

theorem Resuming.step (h : Resuming W s) (hc : Conserved W s) (hg : resumeGuard W s a)
    (hstep : Step W s a s') : Resuming W s' := by
  cases hstep with
  | schedule caller task => exact h.schedule task
  | take t e ht hpc he =>
    obtain ⟨pre, post, htasks, hrest, -, helig⟩ := scan_some he
    have hsub : ∀ x ∈ (scan t s.fiberState s.tasks).tasks, x ∈ s.tasks := by
      intro x hx
      rw [hrest] at hx
      simp only [htasks, List.mem_append, List.mem_cons] at hx ⊢
      tauto
    rw [(scan_eq t s.fiberState s.tasks).1] at he
    exact h.take ht hsub (List.mem_of_find?_eq_some he) helig (fun f hf => hg.2 e he f hf) _
  | leave t ht => exact h.setPc ht (by simp) rfl
  | rest t ht => exact Resuming.of_same (h.setPc ht (by simp) rfl) rfl rfl rfl rfl
  | resume t e f x ht hpc hf hx =>
    obtain ⟨y, hresume, hown⟩ := resumed_cases hf hx
    have hrun := (Fiber.resume_eq_some hresume).2.1
    rcases hown with ⟨hfiber, hy⟩ | rfl
    · -- the guard is about the threads of the scheduler; the others have nothing in hand
      have hothers : ∀ u, u ≠ t → (s.pc u).waiting ≠ some f ∧ (s.pc u).onStack ≠ some f := by
        intro u hut
        by_cases hu : u ∈ W
        · exact hg.2 f (by rw [hpc]; exact hfiber) u hu hut
        · rw [h.members u hu]
          exact ⟨by simp [Pc.waiting], by simp [Pc.onStack]⟩
      exact h.switchIn ht (h.apart_of_fiber hy fun u hut => (hothers u hut).2)
        (fun u hut => (hothers u hut).1) hrun
    · refine h.switchIn ht (h.apart_forTask hc ht hpc) (fun u _ hu => ?_) hrun
      obtain ⟨z, hz, -⟩ := h.waiting u _ hu
      exact h.fiber_forTask hpc z hz
  | yield t e f x ht hpc hf y hy =>
    have hstack : (s.pc t).onStack = some f := by rw [hpc]; rfl
    refine h.switchOut ht hstack (by simp) (by simp) (.inl rfl) fun u z hu hz => ?_
    obtain ⟨w, hw, hrun⟩ := h.exec t e f hpc
    obtain rfl : x = w := Option.some.inj (hf.symm.trans hw)
    rw [Fiber.yieldStore_state hy, hrun]
    rfl
  | finish t e f x ht hpc hf =>
    have hstack : (s.pc t).onStack = some f := by rw [hpc]; rfl
    refine h.switchOut ht hstack (by simp) (by simp) (.inl rfl) fun u z hu hz => ?_
    -- a fiber that waits is not running
    obtain ⟨w, hw, hrun⟩ := h.exec t e f hpc
    obtain ⟨w', hw', hready⟩ := h.waiting u f hu
    obtain rfl : w = w' := Option.some.inj (hw.symm.trans hw')
    cases hrun.symm.trans hready
  | save t e f x ht hpc hf =>
    have hstack : (s.pc t).onStack = some f := by rw [hpc]; rfl
    refine h.switchOut ht hstack (by simp) (by simp) (.inr rfl) fun u z hu hz => ?_
    obtain ⟨w, hw, hready⟩ := h.waiting u f hu
    obtain rfl : x = w := Option.some.inj (hf.symm.trans hw)
    exact hready
  | complete t e ht => exact Resuming.of_same (h.setPc ht (by simp) rfl) rfl rfl rfl rfl
  | idle t ht =>
    have hback : Resuming W (s.setPc t .scan) := h.setPc ht (by simp) rfl
    unfold State.idleTurn
    split <;> exact Resuming.of_same hback rfl rfl rfl rfl
  | stop => exact h.of_same rfl rfl rfl rfl
  | outside f x => exact hg.1.elim

/-- A step that the guard leaves out breaks it. -/
theorem not_resumeSafe_of_step (hin : inside a) (hg : ¬ awaited W s a) (hstep : Step W s a s') :
    ¬ ResumeSafe s' := by
  intro hsafe
  cases hstep with
  | take t e ht hpc he =>
    simp only [awaited, not_forall, not_not] at hg
    obtain ⟨e', he', f, hf, hterm⟩ := hg
    rw [(scan_eq t s.fiberState s.tasks).1] at he
    obtain rfl : e = e' := Option.some.inj (he.symm.trans he')
    obtain ⟨x, hx, hready, -⟩ := hsafe.ready t f (by simpa [Pc.waiting] using hf)
    have hx' : s.fiber f = some x := hx
    simp [State.fiberState, hx', hready] at hterm
  | leave t ht hpc hnone =>
    refine hg fun e he => ?_
    rw [(scan_eq t s.fiberState s.tasks).1] at hnone
    cases hnone.symm.trans he
  | rest t ht hpc hnone =>
    refine hg fun e he => ?_
    rw [(scan_eq t s.fiberState s.tasks).1] at hnone
    cases hnone.symm.trans he
  | resume t e f x ht hpc hf hx =>
    simp only [awaited, not_forall] at hg
    obtain ⟨g, hg, u, hu, hut, hboth⟩ := hg
    have hfiber : e.task.fiber = some g := by
      rw [hpc] at hg
      exact hg
    obtain rfl : f = g := by
      simp only [TaskEntry.runsOn, hfiber, Option.some.injEq] at hf
      exact hf.symm
    have hpcu : State.pc (State.setPc (State.setFiber { s with
        put := Function.update s.put f false } f x) t (.exec e f)) u = s.pc u := by
      rw [State.setPc_pc, if_neg hut]
      rfl
    obtain ⟨y, hy, hresume⟩ := Option.bind_eq_some_iff.mp hx
    by_cases hwait : (s.pc u).waiting = some f
    · obtain ⟨z, hz, hready, -⟩ := hsafe.ready u f (by rw [hpcu]; exact hwait)
      rw [State.setPc_fiber, State.setFiber_fiber, if_pos rfl] at hz
      cases hz
      cases hready.symm.trans (Fiber.resume_eq_some hresume).2.1
    · have hstack : (s.pc u).onStack = some f := by
        by_contra hstack
        exact hboth ⟨hwait, hstack⟩
      refine hut (hsafe.alone u t f (by rw [hpcu]; exact hstack) ?_)
      rw [State.setPc_pc, if_pos rfl]
      rfl
  | outside => exact hin
  | _ => exact hg trivial

/-- In every run of schedule calls and of the threads' steps in which no scan takes an
entry of a fiber that is over, and no thread resumes a fiber that another thread has
taken an entry for or still has on its stack: every fiber is `READY` when it is about
to be resumed, and no fiber is on two threads. The next step keeps it so exactly if
it is such a step. -/
theorem resumeSafe_iff (hW : W.Nodup) (h : (system W).Reachable (resumeGuard W) s) :
    ResumeSafe s ∧ ∀ a s', inside a → (system W).step s a = some s' →
      (ResumeSafe s' ↔ awaited W s a) := by
  have hinv : (system W).Preserved (resumeGuard W) fun s => Conserved W s ∧ Resuming W s :=
    TransitionSystem.Preserved.and_of
      (fun _ _ _ hs _ hstep => hs.step hW (step_cases hstep))
      (fun _ _ _ hc hs hg hstep => hs.step hc hg (step_cases hstep))
  obtain ⟨hc, hs⟩ := hinv.reachable (fun _ hs => ⟨hs.conserved, hs.resuming⟩) h
  refine ⟨hs.resumeSafe, fun a s' hin hstep => ⟨fun hsafe => ?_, fun hg => ?_⟩⟩
  · by_contra hg
    exact not_resumeSafe_of_step hin hg (step_cases hstep) hsafe
  · exact (hs.step hc ⟨hin, hg⟩ (step_cases hstep)).resumeSafe

/-- One fiber runs twice, on one thread and then on the other, and in between it is put
into the queue a second time before it is taken. -/
def twiceRun : List (Label Nat) :=
  [.schedule none (.ofFiber (some (.made 0)) none), .scan 0, .resume 0,
    .schedule none (.ofFiber (some (.made 0)) none), .schedule none (.ofCb (some 7) none),
    .yield 0, .save 0, .complete 0, .scan 1, .scan 0, .resume 0]

theorem resumeSafe_iff_twiceRun :
    ∃ s, (system [0, 1]).Reachable (resumeGuard [0, 1]) s ∧
      (s.pc 1).waiting = some (.made 0) ∧ (s.pc 0).onStack = some (.forTask 2) ∧
      ResumeSafe s := by
  obtain ⟨s, hs, hp⟩ := TransitionSystem.Reachable.of_replay (T := system [0, 1])
    (G := resumeGuard [0, 1]) (g := fun s a => decide (resumeGuard [0, 1] s a))
    (fun _ _ h => of_decide_eq_true h) (l := twiceRun)
    (p := fun s => (s.pc 1).waiting == some (.made 0) && (s.pc 0).onStack == some (.forTask 2))
    start_initial (by decide)
  simp only [Bool.and_eq_true, beq_iff_eq] at hp
  exact ⟨s, hs, hp.1, hp.2, (resumeSafe_iff (by decide) hs).1⟩

/-! ## A run that breaks it -/

/-- A fiber is put into the queue twice; two threads take the entries, and one resumes. -/
def doubleRun : List (Label Nat) :=
  [.schedule none (.ofFiber (some (.made 0)) none),
    .schedule none (.ofFiber (some (.made 0)) none), .scan 0, .scan 1, .resume 0]

/-- The other thread is about to resume a `RUNNING` fiber. -/
theorem not_resumeSafe_doubleRun :
    ¬ ∀ W : List Nat, W.Nodup → ∀ s,
      (system W).Reachable (fun _ a => inside a) s → ResumeSafe s := by
  intro hall
  obtain ⟨s, hs, hp⟩ := TransitionSystem.Reachable.of_replay (T := system [0, 1])
    (G := fun _ a => inside a) (g := fun _ a => decide (inside a))
    (fun _ _ h => of_decide_eq_true h) (l := doubleRun)
    (p := fun s => (s.pc 1).waiting == some (.made 0) && s.fiberState (.made 0) == .running)
    start_initial (by decide)
  simp only [Bool.and_eq_true, beq_iff_eq] at hp
  obtain ⟨x, hx, hready, -⟩ := (hall [0, 1] (by decide) s hs).ready 1 _ hp.1
  simp [State.fiberState, hx, hready] at hp

end Scheduler
