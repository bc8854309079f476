-- SUMMARY: Switching into fibers: the window between the READY store and the saved context in yield, and what holds when no scan falls into it.
import MyCoroutine.Scheduler.Stacks

/-! # The window inside yield

`yield` stores `m_state = READY` and only then saves the context. The scan tests
`m_state` alone, so between the two it takes a fiber that is still on another
thread's stack. The invariant `Switching` says what keeps a fiber on one stack
when no scan does that: a fiber put into the queue at most once per resume is
waiting in one place only, and a waiting fiber is not running. -/

namespace Scheduler

variable {τ : Type} {W : List τ} {s s' : State τ} {a : Label τ}

/-! ## What the runs are about -/

/-- A fiber is put into the queue at most once between two resumes, and only the
threads of the scheduler run fibers. -/
def oncePerYield (s : State τ) : Label τ → Prop
  | .schedule _ task => ∀ f ∈ task.fiber, s.put f = false
  | .outside _ _ => False
  | _ => True

/-- No thread switches into a fiber whose latest yield has not saved its context,
and no fiber is on the stacks of two threads. -/
structure SwitchSafe (s : State τ) : Prop where
  saved : ∀ t e f x, s.pc t = .took e → e.task.fiber = some f → s.fiber f = some x →
    x.resume.isSome = true → x.saved = true
  alone : ∀ t u f, (s.pc t).onStack = some f → (s.pc u).onStack = some f → t = u

section

variable [DecidableEq τ]

/-- The first entry that `t` may take belongs to no fiber that is `READY` while
its context is still unsaved. -/
def noUnsavedScan (s : State τ) : Label τ → Prop
  | .scan t => ∀ e ∈ s.tasks.find? (eligible t s.fiberState), ∀ f ∈ e.task.fiber,
      ∀ x ∈ s.fiber f, x.state = .ready → x.saved = true
  | _ => True

/-- The steps of the runs in which no scan falls into the window. -/
def switchGuard (s : State τ) (a : Label τ) : Prop :=
  oncePerYield s a ∧ noUnsavedScan s a

omit [DecidableEq τ] in
instance (s : State τ) : DecidablePred (oncePerYield s)
  | .schedule _ task => inferInstanceAs (Decidable (∀ f ∈ task.fiber, s.put f = false))
  | .outside _ _ => .isFalse id
  | .scan _ | .resume _ | .yield _ | .finish _ | .save _ | .complete _ | .idle _ | .stop =>
    .isTrue trivial

instance (s : State τ) : DecidablePred (noUnsavedScan s)
  | .scan t => inferInstanceAs (Decidable (∀ e ∈ s.tasks.find? (eligible t s.fiberState),
      ∀ f ∈ e.task.fiber, ∀ x ∈ s.fiber f, x.state = .ready → x.saved = true))
  | .schedule _ _ | .outside _ _ | .resume _ | .yield _ | .finish _ | .save _ | .complete _
  | .idle _ | .stop => .isTrue trivial

instance (s : State τ) (a : Label τ) : Decidable (switchGuard s a) :=
  inferInstanceAs (Decidable (_ ∧ _))

end

/-! ## The invariant -/

/-- Where fibers wait and where they run. -/
structure Switching (W : List τ) (s : State τ) : Prop where
  members : ∀ t, t ∉ W → s.pc t = .scan
  queueOnce : s.tasks.Pairwise fun a b => ∀ f, a.task.fiber = some f → b.task.fiber ≠ some f
  tookQueue : ∀ t e f, s.pc t = .took e → e.task.fiber = some f →
    ∀ x ∈ s.tasks, x.task.fiber ≠ some f
  tookOnce : ∀ t u e e' f, s.pc t = .took e → s.pc u = .took e' → e.task.fiber = some f →
    e'.task.fiber = some f → t = u
  putQueue : ∀ e ∈ s.tasks, ∀ f, e.task.fiber = some f → s.put f = true
  putTook : ∀ t e f, s.pc t = .took e → e.task.fiber = some f → s.put f = true
  putExists : ∀ f, s.put f = true → ∃ x, s.fiber f = some x
  tookReady : ∀ t e f x, s.pc t = .took e → e.task.fiber = some f → s.fiber f = some x →
    x.state ≠ .running ∧ (x.state = .ready → x.saved = true)
  exec : ∀ t e f, s.pc t = .exec e f → ∃ x, s.fiber f = some x ∧ x.state = .running
  onStack : ∀ t f, (s.pc t).onStack = some f → ∃ x, s.fiber f = some x ∧ x.saved = false
  alone : ∀ t u f, (s.pc t).onStack = some f → (s.pc u).onStack = some f → t = u
  unmadeQueue : ∀ k x, s.fiber (.forTask k) = some x → ∀ e ∈ s.tasks, e.seq ≠ k
  unmadeTook : ∀ k x, s.fiber (.forTask k) = some x → ∀ t e, s.pc t = .took e → e.seq ≠ k
  unmadeNext : ∀ k x, s.fiber (.forTask k) = some x → k < s.pushed.length

theorem Switching.switchSafe (h : Switching W s) : SwitchSafe s := by
  refine ⟨fun t e f x hpc hf hx hresume => ?_, h.alone⟩
  obtain ⟨y, hy⟩ := Option.isSome_iff_exists.mp hresume
  exact (h.tookReady t e f x hpc hf hx).2 (Fiber.resume_eq_some hy).1

theorem Switching.stacks (h : Switching W s) : Stacks W s :=
  { h with
    stack := fun t f ht =>
      let ⟨x, hx, _⟩ := h.onStack t f ht
      ⟨x, hx⟩ }

theorem Initial.switching (h : Initial s) : Switching W s := by
  have hpc := h.pc
  constructor <;> simp [h.tasks, hpc, h.put, h.forTask, Pc.onStack]

theorem Switching.schedule (h : Switching W s) {task : ScheduleTask τ}
    (honce : ∀ f, task.fiber = some f → s.put f = false) (hfiber : s.pointsToFiber task = true) :
    Switching W (s.schedule task) := by
  have hput : ∀ f, (s.schedule task).put f = true ↔ s.put f = true ∨ task.fiber = some f := by
    intro f
    cases hf : task.fiber with
    | none => simp [State.schedule, hf]
    | some g =>
      by_cases hfg : f = g
      · simp [State.schedule, hf, hfg]
      · simp [State.schedule, hf, hfg, Ne.symm hfg]
  have hexists : ∀ f, task.fiber = some f → ∃ x, s.fiber f = some x := by
    intro f hf
    simp only [State.pointsToFiber, hf, Option.all_some] at hfiber
    exact Option.isSome_iff_exists.mp hfiber
  have hnone : ∀ f, task.fiber = some f → ∀ x ∈ s.tasks, x.task.fiber ≠ some f := by
    intro f hf x hx hxf
    simpa [honce f hf] using h.putQueue x hx f hxf
  exact { h.stacks.schedule task, h with
    queueOnce := by
      simp only [State.schedule, scheduleNoLock]
      split
      · rw [List.pairwise_append]
        refine ⟨h.queueOnce, List.pairwise_singleton _ _, fun x hx y hy f hxf hyf => ?_⟩
        rw [List.mem_singleton.mp hy] at hyf
        exact hnone f hyf x hx hxf
      · exact h.queueOnce
    tookQueue := by
      intro t e f hpc hf x hx hxf
      rcases State.mem_schedule hx with hx | rfl
      · exact h.tookQueue t e f hpc hf x hx hxf
      · simpa [honce f hxf] using h.putTook t e f hpc hf
    putQueue := by
      intro x hx f hxf
      rcases State.mem_schedule hx with hx | rfl
      · exact (hput f).mpr (.inl (h.putQueue x hx f hxf))
      · exact (hput f).mpr (.inr hxf)
    putTook := fun t e f hpc hf => (hput f).mpr (.inl (h.putTook t e f hpc hf))
    putExists := fun f hf => ((hput f).mp hf).elim (h.putExists f) (hexists f) }

variable [DecidableEq τ]

/-- A thread moves to a point where it has no task in its hands that waits for
its resume, and no fiber on its stack. -/
theorem Switching.setPc (h : Switching W s) {t : τ} {pc : Pc τ} (ht : t ∈ W)
    (htook : ∀ e, pc ≠ .took e) (hstack : pc.onStack = none) : Switching W (s.setPc t pc) := by
  have hkeep {u : τ} {e : TaskEntry τ} (hu : (s.setPc t pc).pc u = .took e) :
      s.pc u = .took e := by
    rcases setPc_eq hu with ⟨-, hpc⟩ | ⟨-, hu⟩
    · exact absurd hpc (htook e)
    · exact hu
  exact { h.stacks.setPc ht htook hstack, h with
    tookQueue := fun u e f hu => h.tookQueue u e f (hkeep hu)
    tookOnce := fun u v e e' f hu hv => h.tookOnce u v e e' f (hkeep hu) (hkeep hv)
    putTook := fun u e f hu => h.putTook u e f (hkeep hu)
    tookReady := fun u e f x hu => h.tookReady u e f x (hkeep hu)
    onStack := fun u f hu => h.onStack u f (onStack_of_setPc hstack hu) }

theorem Switching.take (h : Switching W s) {t : τ} (ht : t ∈ W) {e : TaskEntry τ}
    {pre post : List (TaskEntry τ)} (htasks : s.tasks = pre ++ e :: post)
    (helig : eligible t s.fiberState e = true)
    (hsaved : ∀ f x, e.task.fiber = some f → s.fiber f = some x → x.state = .ready →
      x.saved = true) (n : Nat) :
    Switching W
      ({ s with tasks := pre ++ post, activeThreadCount := n }.setPc t (.took e)) := by
  have hmem : ∀ x ∈ pre ++ post, x ∈ s.tasks := by
    intro x hx
    simp only [htasks, List.mem_append, List.mem_cons] at hx ⊢
    tauto
  have hmem_e : e ∈ s.tasks := by simp [htasks]
  have hsub : (pre ++ post).Sublist s.tasks := by simp [htasks]
  have hother : ∀ x ∈ pre ++ post, ∀ f, e.task.fiber = some f → x.task.fiber ≠ some f := by
    have hpair := h.queueOnce
    rw [htasks, List.pairwise_append, List.pairwise_cons] at hpair
    intro x hx f hf hxf
    rcases List.mem_append.mp hx with hx | hx
    · exact hpair.2.2 x hx e List.mem_cons_self f hxf hf
    · exact hpair.2.1.1 x hx f hf hxf
  -- the scan has passed over `RUNNING` fibers
  have hrun : ∀ f x, e.task.fiber = some f → s.fiber f = some x → x.state ≠ .running := by
    intro f x hf hx hrun
    simp [eligible, hf, State.fiberState, hx, hrun] at helig
  exact { h.stacks.take ht hmem hmem_e n with
    queueOnce := List.Pairwise.sublist hsub h.queueOnce
    tookQueue := by
      intro u e' f hu hf x hx
      rcases setPc_eq hu with ⟨-, heq⟩ | ⟨-, hu⟩
      · cases heq
        exact hother x hx f hf
      · exact h.tookQueue u e' f hu hf x (hmem x hx)
    tookOnce := by
      intro u v e₁ e₂ f hu hv hf₁ hf₂
      rcases setPc_eq hu with ⟨hut, heq⟩ | ⟨-, hu'⟩ <;>
        rcases setPc_eq hv with ⟨hvt, heq'⟩ | ⟨-, hv'⟩
      · exact hut.trans hvt.symm
      · cases heq
        exact absurd hf₁ (h.tookQueue v e₂ f hv' hf₂ _ hmem_e)
      · cases heq'
        exact absurd hf₂ (h.tookQueue u e₁ f hu' hf₁ _ hmem_e)
      · exact h.tookOnce u v e₁ e₂ f hu' hv' hf₁ hf₂
    putQueue := fun x hx => h.putQueue x (hmem x hx)
    putTook := by
      intro u e' f hu hf
      rcases setPc_eq hu with ⟨-, heq⟩ | ⟨-, hu⟩
      · cases heq
        exact h.putQueue _ hmem_e f hf
      · exact h.putTook u e' f hu hf
    putExists := h.putExists
    tookReady := by
      intro u e' f x hu hf hx
      rcases setPc_eq hu with ⟨-, heq⟩ | ⟨-, hu⟩
      · cases heq
        exact ⟨hrun f x hf hx, hsaved f x hf hx⟩
      · exact h.tookReady u e' f x hu hf hx
    onStack := fun u f hu => h.onStack u f
      (onStack_of_setPc (s := { s with tasks := pre ++ post, activeThreadCount := n }) rfl hu) }

/-! ## Switching in and out -/

/-- A fiber that a taken task may switch into is on no stack, in no other hands
and in no queue entry; a fresh one belongs to the taken push alone. -/
structure Unused (s : State τ) (t : τ) (f : FiberId) : Prop where
  stack : ∀ u, (s.pc u).onStack ≠ some f
  queue : ∀ y ∈ s.tasks, y.task.fiber ≠ some f
  took : ∀ u e, u ≠ t → s.pc u = .took e → e.task.fiber ≠ some f
  seqQueue : ∀ k, f = .forTask k → ∀ y ∈ s.tasks, y.seq ≠ k
  seqTook : ∀ k, f = .forTask k → ∀ u e, u ≠ t → s.pc u = .took e → e.seq ≠ k
  seqLt : ∀ k, f = .forTask k → k < s.pushed.length

omit [DecidableEq τ] in
theorem Unused.apart {t : τ} {f : FiberId} (h : Unused s t f) : Apart s t f :=
  { h with stack := fun u _ => h.stack u }

omit [DecidableEq τ] in
theorem Switching.unused_of_fiber (h : Switching W s) {t : τ} {e : TaskEntry τ} {f : FiberId}
    {x y : Fiber} (hpc : s.pc t = .took e) (hf : e.task.fiber = some f) (hx : s.fiber f = some x)
    (hy : x.resume = some y) : Unused s t f := by
  have hstack : ∀ u, (s.pc u).onStack ≠ some f := by
    intro u hu
    obtain ⟨z, hz, hsaved⟩ := h.onStack u f hu
    -- a fiber on a stack has no saved context, and this one could be resumed
    have hxz : x = z := Option.some.inj (hx.symm.trans hz)
    have := (h.tookReady t e f x hpc hf hx).2 (Fiber.resume_eq_some hy).1
    simp [hxz, hsaved] at this
  exact { h.stacks.apart_of_fiber hx fun u _ => hstack u with
    stack := hstack
    queue := h.tookQueue t e f hpc hf
    took := fun u e' hut hu hf' => hut (h.tookOnce u t e' e f hu hpc hf' hf) }

omit [DecidableEq τ] in
theorem Switching.unused_forTask (h : Switching W s) (hc : Conserved W s) {t : τ} (ht : t ∈ W)
    {e : TaskEntry τ} (hpc : s.pc t = .took e) : Unused s t (.forTask e.seq) := by
  have hput : s.put (.forTask e.seq) ≠ true := fun hput =>
    let ⟨x, hx⟩ := h.putExists _ hput
    h.stacks.fiber_forTask hpc x hx
  have hstack : ∀ u, (s.pc u).onStack ≠ some (.forTask e.seq) := by
    intro u hu
    obtain ⟨x, hx, -⟩ := h.onStack u _ hu
    exact h.stacks.fiber_forTask hpc x hx
  exact { h.stacks.apart_forTask hc ht hpc with
    stack := hstack
    queue := fun y hy hyf => hput (h.putQueue y hy _ hyf)
    took := fun u e' _ hu hf' => hput (h.putTook u e' _ hu hf') }

theorem Switching.switchIn (h : Switching W s) {t : τ} (ht : t ∈ W) {e : TaskEntry τ}
    {f : FiberId} (hfree : Unused s t f) {x : Fiber} (hrun : x.state = .running)
    (hsaved : x.saved = false) :
    Switching W (({ s with put := Function.update s.put f false }.setFiber f x).setPc t
      (.exec e f)) := by
  have hkeep {u : τ} {e' : TaskEntry τ} (hu : State.pc (State.setPc
      (State.setFiber { s with put := Function.update s.put f false } f x) t (.exec e f)) u =
        .took e') : u ≠ t ∧ s.pc u = .took e' := by
    rcases setPc_eq hu with ⟨-, heq⟩ | hu
    · cases heq
    · exact hu
  have hother {u : τ} {g : FiberId} (hu : (s.pc u).onStack = some g) : g ≠ f := by
    rintro rfl
    exact hfree.stack u hu
  exact { h.stacks.switchIn ht hfree.apart hrun with
    queueOnce := h.queueOnce
    tookQueue := fun u e' g hu => h.tookQueue u e' g (hkeep hu).2
    tookOnce := fun u v e₁ e₂ g hu hv => h.tookOnce u v e₁ e₂ g (hkeep hu).2 (hkeep hv).2
    putQueue := by
      intro y hy g hg
      have hgf : g ≠ f := by
        rintro rfl
        exact hfree.queue y hy hg
      exact (Function.update_of_ne hgf ..).trans (h.putQueue y hy g hg)
    putTook := by
      intro u e' g hu hg
      have hgf : g ≠ f := by
        rintro rfl
        exact hfree.took u e' (hkeep hu).1 (hkeep hu).2 hg
      exact (Function.update_of_ne hgf ..).trans (h.putTook u e' g (hkeep hu).2 hg)
    putExists := by
      intro g hg
      have hg : Function.update s.put f false g = true := hg
      have hgf : g ≠ f := by
        rintro rfl
        rw [Function.update_self] at hg
        cases hg
      rw [Function.update_of_ne hgf] at hg
      obtain ⟨y, hy⟩ := h.putExists g hg
      exact ⟨y, (Function.update_of_ne hgf ..).trans hy⟩
    tookReady := by
      intro u e' g y hu hg hy
      obtain ⟨hut, hu'⟩ := hkeep hu
      rcases setFiber_eq hy with ⟨hgf, -⟩ | ⟨-, hy⟩
      · exact absurd (hgf ▸ hg) (hfree.took u e' hut hu')
      · exact h.tookReady u e' g y hu' hg hy
    onStack := by
      intro u g hu
      rcases onStack_setPc hu with ⟨-, heq⟩ | ⟨-, hu⟩
      · cases heq
        exact ⟨x, Function.update_self .., hsaved⟩
      · obtain ⟨y, hy, hysaved⟩ := h.onStack u g hu
        exact ⟨y, (Function.update_of_ne (hother hu) ..).trans hy, hysaved⟩ }

/-- A thread that has a fiber on its stack stores to it and goes to a point where no other task
is in its hands. -/
theorem Switching.switchStore (h : Switching W s) {t : τ} (ht : t ∈ W) {f : FiberId} {x y : Fiber}
    {pc : Pc τ} (hstack : (s.pc t).onStack = some f) (hx : s.fiber f = some x)
    (htook : ∀ e, pc ≠ .took e) (hexec : ∀ e g, pc ≠ .exec e g)
    (hkeeps : pc.onStack = some f ∧ y.saved = false ∨ pc.onStack = none)
    (hready : ∀ u e, s.pc u = .took e → e.task.fiber = some f →
      y.state ≠ .running ∧ (y.state = .ready → y.saved = true)) :
    Switching W ((s.setFiber f y).setPc t pc) := by
  have hkeep {u : τ} {e : TaskEntry τ}
      (hu : ((s.setFiber f y).setPc t pc).pc u = .took e) : s.pc u = .took e := by
    rcases setPc_eq hu with ⟨-, heq⟩ | ⟨-, hu⟩
    · exact absurd heq (htook e)
    · exact hu
  -- the fiber is on no other stack
  have hother {u : τ} {g : FiberId} (hut : u ≠ t) (hu : (s.pc u).onStack = some g) : g ≠ f := by
    rintro rfl
    exact hut (h.alone u t g hu hstack)
  exact { h.stacks.switchOut ht hstack htook hexec (hkeeps.imp_left And.left) with
    queueOnce := h.queueOnce
    tookQueue := fun u e g hu => h.tookQueue u e g (hkeep hu)
    tookOnce := fun u v e₁ e₂ g hu hv => h.tookOnce u v e₁ e₂ g (hkeep hu) (hkeep hv)
    putQueue := h.putQueue
    putTook := fun u e g hu => h.putTook u e g (hkeep hu)
    putExists := by
      intro g hg
      rcases eq_or_ne g f with rfl | hgf
      · exact ⟨y, Function.update_self ..⟩
      · obtain ⟨z, hz⟩ := h.putExists g hg
        exact ⟨z, (Function.update_of_ne hgf ..).trans hz⟩
    tookReady := by
      intro u e g z hu hg hz
      rcases setFiber_eq hz with ⟨rfl, rfl⟩ | ⟨-, hz⟩
      · exact hready u e (hkeep hu) hg
      · exact h.tookReady u e g z (hkeep hu) hg hz
    onStack := by
      intro u g hu
      rcases onStack_setPc hu with ⟨-, heq⟩ | ⟨hut, hu⟩
      · rcases hkeeps with ⟨hpc, hsaved⟩ | hpc <;> rw [hpc] at heq <;> cases heq
        exact ⟨y, Function.update_self .., hsaved⟩
      · obtain ⟨z, hz, hsaved⟩ := h.onStack u g hu
        exact ⟨z, (Function.update_of_ne (hother hut hu) ..).trans hz, hsaved⟩ }

/-- The two ways out of a fiber up to `swapcontext`: its context is not saved. -/
theorem Switching.switchOut (h : Switching W s) {t : τ} (ht : t ∈ W) {e : TaskEntry τ}
    {f : FiberId} (hpc : s.pc t = .exec e f) {y : Fiber} (hsaved : y.saved = false) :
    Switching W ((s.setFiber f y).setPc t (.saving e f)) := by
  obtain ⟨x, hx, hrun⟩ := h.exec t e f hpc
  refine h.switchStore ht (by rw [hpc]; rfl) hx (by simp) (by simp) (.inl ⟨rfl, hsaved⟩) ?_
  intro u e' hu hf
  exact absurd hrun (h.tookReady u e' f x hu hf hx).1

theorem Switching.save (h : Switching W s) {t : τ} (ht : t ∈ W) {e : TaskEntry τ}
    {f : FiberId} (hpc : s.pc t = .saving e f) {x y : Fiber} (hx : s.fiber f = some x)
    (hstate : y.state = x.state) (hsaved : y.saved = true) :
    Switching W ((s.setFiber f y).setPc t (.returned e)) := by
  refine h.switchStore ht (by rw [hpc]; rfl) hx (by simp) (by simp) (.inr rfl) ?_
  intro u e' hu hf
  rw [hstate]
  exact ⟨(h.tookReady u e' f x hu hf hx).1, fun _ => hsaved⟩

/-! ## Every run -/

omit [DecidableEq τ] in
/-- What the invariant says is said of the queue, the fibers and the program points. -/
theorem Switching.of_same (h : Switching W s) (htasks : s'.tasks = s.tasks)
    (hfiber : s'.fiber = s.fiber) (hput : s'.put = s.put) (hpc : s'.pc = s.pc)
    (hpushed : s'.pushed = s.pushed) : Switching W s' := by
  obtain ⟨members, queueOnce, tookQueue, tookOnce, putQueue, putTook, putExists, tookReady, exec,
    onStack, alone, unmadeQueue, unmadeTook, unmadeNext⟩ := h
  constructor <;> simpa only [htasks, hfiber, hput, hpc, hpushed]

theorem Switching.step (h : Switching W s) (hc : Conserved W s) (hg : switchGuard s a)
    (hstep : Step W s a s') : Switching W s' := by
  cases hstep with
  | schedule caller task hcaller hfiber => exact h.schedule hg.1 hfiber
  | take t e ht hpc he =>
    obtain ⟨pre, post, htasks, hrest, -, helig⟩ := scan_some he
    rw [hrest]
    rw [(scan_eq t s.fiberState s.tasks).1] at he
    exact h.take ht htasks helig (fun f x hf hx => hg.2 e he f hf x hx) _
  | leave t ht => exact h.setPc ht (by simp) rfl
  | rest t ht =>
    exact Switching.of_same (h.setPc ht (by simp) rfl) rfl rfl rfl rfl rfl
  | resume t e f x ht hpc hf hx =>
    obtain ⟨y, hresume, hown⟩ := resumed_cases hf hx
    have hfree : Unused s t f := by
      rcases hown with ⟨hfiber, hy⟩ | rfl
      · exact h.unused_of_fiber hpc hfiber hy hresume
      · exact h.unused_forTask hc ht hpc
    exact h.switchIn ht hfree (Fiber.resume_eq_some hresume).2.1
      (Fiber.resume_eq_some hresume).2.2
  | yield t e f x ht hpc hf y hy =>
    obtain ⟨z, hz, hsaved⟩ := h.onStack t f (by rw [hpc]; rfl)
    have hxz : x = z := Option.some.inj (hf.symm.trans hz)
    exact h.switchOut ht hpc ((Fiber.yieldStore_saved hy).trans (hxz ▸ hsaved))
  | finish t e f x ht hpc hf =>
    obtain ⟨z, hz, hsaved⟩ := h.onStack t f (by rw [hpc]; rfl)
    have hxz : x = z := Option.some.inj (hf.symm.trans hz)
    exact h.switchOut ht hpc (hxz ▸ hsaved)
  | save t e f x ht hpc hf => exact h.save ht hpc hf rfl rfl
  | complete t e ht => exact Switching.of_same (h.setPc ht (by simp) rfl) rfl rfl rfl rfl rfl
  | idle t ht =>
    have hback : Switching W (s.setPc t .scan) := h.setPc ht (by simp) rfl
    unfold State.idleTurn
    split <;> exact Switching.of_same hback rfl rfl rfl rfl rfl
  | stop => exact h.of_same rfl rfl rfl rfl rfl
  | outside f x => exact hg.1.elim

/-- In every run in which a fiber is put into the queue at most once per resume,
and in which no scan meets a fiber between the two steps of its yield, no thread
switches into a fiber whose context is not saved, and no fiber is on two threads. -/
theorem switchSafe_of_reachable (hW : W.Nodup) (h : (system W).Reachable switchGuard s) :
    SwitchSafe s := by
  have hinv : (system W).Preserved switchGuard fun s => Conserved W s ∧ Switching W s :=
    TransitionSystem.Preserved.and_of
      (fun _ _ _ hs _ hstep => hs.step hW (step_cases hstep))
      (fun _ _ _ hc hs hg hstep => hs.step hc hg (step_cases hstep))
  exact (hinv.reachable (fun _ hs => ⟨hs.conserved, hs.switching⟩) h).2.switchSafe

/-- Thread 0 runs a fiber that schedules itself and yields; after its context is
saved, thread 1 takes it and switches into it. -/
def handOverRun : List (Label Nat) :=
  [.schedule none (.ofFiber (some (.made 0)) none), .scan 0, .resume 0,
    .schedule (some 0) (.ofFiber (some (.made 0)) none), .yield 0, .save 0, .scan 1, .resume 1]

theorem switchSafe_of_reachable_handOverRun :
    ∃ s, (system [0, 1]).Reachable switchGuard s ∧ (s.pc 1).onStack = some (.made 0) ∧
      SwitchSafe s := by
  obtain ⟨s, hs, hp⟩ := TransitionSystem.Reachable.of_replay (T := system [0, 1])
    (G := switchGuard) (g := fun s a => decide (switchGuard s a))
    (fun _ _ h => of_decide_eq_true h) (l := handOverRun)
    (p := fun s => (s.pc 1).onStack == some (.made 0)) start_initial (by decide)
  exact ⟨s, hs, beq_iff_eq.mp hp, switchSafe_of_reachable (by decide) hs⟩

/-! ## The run that falls into the window -/

/-- A scan that meets such a fiber first is enough for the race: the guard asks no
more than it must. -/
theorem not_switchSafe_of_unsavedScan {t : τ} (hg : ¬ noUnsavedScan s (.scan t))
    (hstep : (system W).step s (.scan t) = some s') : ¬ SwitchSafe s' := by
  simp only [noUnsavedScan, not_forall] at hg
  obtain ⟨e, he, f, hf, x, hx, hready, hsaved⟩ := hg
  intro hsafe
  have htask : (scan t s.fiberState s.tasks).task = some e := by
    rw [(scan_eq t s.fiberState s.tasks).1]
    exact he
  cases step_cases hstep with
  | take _ e' ht hpc he' =>
    obtain rfl : e = e' := Option.some.inj (htask.symm.trans he')
    refine hsaved (hsafe.saved t e f x (by simp) hf hx ?_)
    simp [Fiber.resume, hready]
  | leave _ _ _ hnone => rw [htask] at hnone; cases hnone
  | rest _ _ _ hnone => rw [htask] at hnone; cases hnone

/-- The same fiber, but thread 1 scans the queue before the context is saved. -/
def windowRun : List (Label Nat) :=
  [.schedule none (.ofFiber (some (.made 0)) none), .scan 0, .resume 0,
    .schedule (some 0) (.ofFiber (some (.made 0)) none), .yield 0, .scan 1, .resume 1]

theorem not_switchSafe_windowRun :
    ¬ ∀ W : List Nat, W.Nodup → ∀ s, (system W).Reachable oncePerYield s → SwitchSafe s := by
  intro hall
  obtain ⟨s, hs, hp⟩ := TransitionSystem.Reachable.of_replay (T := system [0, 1])
    (G := oncePerYield) (g := fun s a => decide (oncePerYield s a))
    (fun _ _ h => of_decide_eq_true h) (l := windowRun)
    (p := fun s => (s.pc 0).onStack == some (.made 0) && (s.pc 1).onStack == some (.made 0))
    start_initial (by decide)
  simp only [Bool.and_eq_true, beq_iff_eq] at hp
  have := (hall [0, 1] (by decide) s hs).alone 0 1 _ hp.1 hp.2
  cases this

end Scheduler
