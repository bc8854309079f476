-- SUMMARY: The stacks of the threads: where fibers run, and when the fibers of callbacks are constructed.
import MyCoroutine.Scheduler.Conservation

/-! # Stacks

What both races between a scan and a resume start from: a thread that executes a
fiber has a `RUNNING` one, no fiber is on two stacks, and the fiber of a callback
is constructed when its task is resumed, not before. `Stacks` is kept by every step
in which a thread switches into a fiber that is on no other stack (`Apart`). -/

namespace Scheduler

variable {τ : Type} {W : List τ} {s s' : State τ}

structure Stacks (W : List τ) (s : State τ) : Prop where
  members : ∀ t, t ∉ W → s.pc t = .scan
  exec : ∀ t e f, s.pc t = .exec e f → ∃ x, s.fiber f = some x ∧ x.state = .running
  stack : ∀ t f, (s.pc t).onStack = some f → ∃ x, s.fiber f = some x
  alone : ∀ t u f, (s.pc t).onStack = some f → (s.pc u).onStack = some f → t = u
  unmadeQueue : ∀ k x, s.fiber (.forTask k) = some x → ∀ e ∈ s.tasks, e.seq ≠ k
  unmadeTook : ∀ k x, s.fiber (.forTask k) = some x → ∀ t e, s.pc t = .took e → e.seq ≠ k
  unmadeNext : ∀ k x, s.fiber (.forTask k) = some x → k < s.pushed.length

/-- `f` is on the stack of no other thread, and no task that is left is the one it is
constructed for. -/
structure Apart (s : State τ) (t : τ) (f : FiberId) : Prop where
  stack : ∀ u, u ≠ t → (s.pc u).onStack ≠ some f
  seqQueue : ∀ k, f = .forTask k → ∀ y ∈ s.tasks, y.seq ≠ k
  seqTook : ∀ k, f = .forTask k → ∀ u e, u ≠ t → s.pc u = .took e → e.seq ≠ k
  seqLt : ∀ k, f = .forTask k → k < s.pushed.length

theorem Initial.stacks (h : Initial s) : Stacks W s := by
  have hpc := h.pc
  constructor <;> simp [h.tasks, hpc, h.forTask, Pc.onStack]

theorem Stacks.schedule (h : Stacks W s) (task : ScheduleTask τ) : Stacks W (s.schedule task) := by
  have hlen : s.pushed.length ≤ (s.schedule task).pushed.length := by
    simp only [State.schedule]
    split <;> simp
  exact { h with
    unmadeQueue := by
      intro k x hx e he
      rcases State.mem_schedule he with he | rfl
      · exact h.unmadeQueue k x hx e he
      · exact Nat.ne_of_gt (h.unmadeNext k x hx)
    unmadeNext := fun k x hx => Nat.lt_of_lt_of_le (h.unmadeNext k x hx) hlen }

/-- What `Stacks` says is said of the queue, the fibers and the program points. -/
theorem Stacks.of_same (h : Stacks W s) (htasks : s'.tasks = s.tasks) (hfiber : s'.fiber = s.fiber)
    (hpushed : s'.pushed = s.pushed) (hpc : s'.pc = s.pc) : Stacks W s' := by
  obtain ⟨members, exec, stack, alone, unmadeQueue, unmadeTook, unmadeNext⟩ := h
  constructor <;> simpa only [htasks, hfiber, hpushed, hpc]

theorem Stacks.apart_of_fiber (h : Stacks W s) {t : τ} {f : FiberId} {x : Fiber}
    (hx : s.fiber f = some x) (hstack : ∀ u, u ≠ t → (s.pc u).onStack ≠ some f) :
    Apart s t f where
  stack := hstack
  seqQueue := fun k hk => h.unmadeQueue k x (hk ▸ hx)
  seqTook := fun k hk u e _ hu => h.unmadeTook k x (hk ▸ hx) u e hu
  seqLt := fun k hk => h.unmadeNext k x (hk ▸ hx)

/-- The fiber of a callback that a thread has in its hands is not constructed yet. -/
theorem Stacks.fiber_forTask (h : Stacks W s) {t : τ} {e : TaskEntry τ} (hpc : s.pc t = .took e)
    (x : Fiber) : s.fiber (.forTask e.seq) ≠ some x :=
  fun hx => h.unmadeTook e.seq x hx t e hpc rfl

theorem Stacks.apart_forTask (h : Stacks W s) (hc : Conserved W s) {t : τ} (ht : t ∈ W)
    {e : TaskEntry τ} (hpc : s.pc t = .took e) : Apart s t (.forTask e.seq) := by
  have hhold : (s.pc t).holding = some e := by rw [hpc]; rfl
  constructor
  case stack =>
    intro u _ hu
    obtain ⟨x, hx⟩ := h.stack u _ hu
    exact h.fiber_forTask hpc x hx
  case seqQueue =>
    rintro k ⟨⟩ y hy
    exact hc.hand_not_queued ht hhold y hy
  case seqTook =>
    rintro k ⟨⟩ u e' hut hu hseq
    have huW : u ∈ W := by
      by_contra hnot
      simp [h.members u hnot] at hu
    exact hut (hc.hand_unique huW ht (by rw [hu]; rfl) hhold hseq)
  case seqLt =>
    rintro k ⟨⟩
    have := hc.entry e (List.mem_append_right _ (Counting.mem_held.mpr ⟨t, ht, hhold⟩))
    exact (List.getElem?_eq_some_iff.mp this).1

/-- What a thread resumes: the fiber of its task, or a fresh one for a callback. -/
theorem resumed_cases {e : TaskEntry τ} {f : FiberId} {x : Fiber}
    (hf : TaskEntry.runsOn e = some f)
    (hx : (if e.task.fiber.isSome then s.fiber f else some .new).bind Fiber.resume = some x) :
    ∃ y, y.resume = some x ∧
      (e.task.fiber = some f ∧ s.fiber f = some y ∨ f = .forTask e.seq) := by
  obtain ⟨y, hy, hresume⟩ := Option.bind_eq_some_iff.mp hx
  refine ⟨y, hresume, ?_⟩
  unfold TaskEntry.runsOn at hf
  cases hfiber : e.task.fiber with
  | some g =>
    simp only [hfiber, Option.some.injEq] at hf
    simp only [hfiber, Option.isSome_some, if_true] at hy
    exact .inl ⟨congrArg some hf, hy⟩
  | none =>
    simp only [hfiber] at hf
    split at hf <;> cases hf
    exact .inr rfl

/-! ## The moves of a thread -/

variable [DecidableEq τ]

/-- A thread that goes to a point with no fiber on its stack leaves the stacks of the others. -/
theorem onStack_of_setPc {t u : τ} {pc : Pc τ} {f : FiberId} (hstack : pc.onStack = none)
    (hu : ((s.setPc t pc).pc u).onStack = some f) : (s.pc u).onStack = some f := by
  rcases onStack_setPc hu with ⟨-, hpc⟩ | ⟨-, hu⟩
  · rw [hstack] at hpc
    cases hpc
  · exact hu

theorem Stacks.members_setPc (h : Stacks W s) {t : τ} (ht : t ∈ W) (pc : Pc τ)
    (hsame : s'.pc = s.pc) (u : τ) (hu : u ∉ W) : (s'.setPc t pc).pc u = .scan := by
  have hut : u ≠ t := by
    rintro rfl
    exact hu ht
  rw [State.setPc_pc, if_neg hut, hsame]
  exact h.members u hu

/-- A thread moves to a point where it has no task in its hands that waits for its
resume, and no fiber on its stack. -/
theorem Stacks.setPc (h : Stacks W s) {t : τ} {pc : Pc τ} (ht : t ∈ W)
    (htook : ∀ e, pc ≠ .took e) (hstack : pc.onStack = none) : Stacks W (s.setPc t pc) :=
  { h with
    members := h.members_setPc ht pc rfl
    exec := by
      intro u e f hu
      rcases setPc_eq hu with ⟨-, rfl⟩ | ⟨-, hu⟩
      · cases hstack
      · exact h.exec u e f hu
    stack := fun u f hu => h.stack u f (onStack_of_setPc hstack hu)
    alone := fun u v f hu hv =>
      h.alone u v f (onStack_of_setPc hstack hu) (onStack_of_setPc hstack hv)
    unmadeTook := by
      intro k x hx u e hu
      rcases setPc_eq hu with ⟨-, hpc⟩ | ⟨-, hu⟩
      · exact absurd hpc (htook e)
      · exact h.unmadeTook k x hx u e hu }

theorem Stacks.take (h : Stacks W s) {t : τ} (ht : t ∈ W) {e : TaskEntry τ}
    {rest : List (TaskEntry τ)} (hrest : ∀ x ∈ rest, x ∈ s.tasks) (he : e ∈ s.tasks) (n : Nat) :
    Stacks W ({ s with tasks := rest, activeThreadCount := n }.setPc t (.took e)) := by
  have hstays {u : τ} {f : FiberId} (hu : (State.pc (State.setPc { s with
      tasks := rest, activeThreadCount := n } t (.took e)) u).onStack = some f) :
      (s.pc u).onStack = some f :=
    onStack_of_setPc (s := { s with tasks := rest, activeThreadCount := n }) rfl hu
  exact {
    members := h.members_setPc ht _ rfl
    exec := by
      intro u e' f hu
      rcases setPc_eq hu with ⟨-, heq⟩ | ⟨-, hu⟩
      · cases heq
      · exact h.exec u e' f hu
    stack := fun u f hu => h.stack u f (hstays hu)
    alone := fun u v f hu hv => h.alone u v f (hstays hu) (hstays hv)
    unmadeQueue := fun k x hx y hy => h.unmadeQueue k x hx y (hrest y hy)
    unmadeTook := by
      intro k x hx u e' hu
      rcases setPc_eq hu with ⟨-, heq⟩ | ⟨-, hu⟩
      · cases heq
        exact h.unmadeQueue k x hx e he
      · exact h.unmadeTook k x hx u e' hu
    unmadeNext := h.unmadeNext }

theorem Stacks.switchIn (h : Stacks W s) {t : τ} (ht : t ∈ W) {e : TaskEntry τ} {f : FiberId}
    (hfree : Apart s t f) {x : Fiber} (hrun : x.state = .running) :
    Stacks W (({ s with put := Function.update s.put f false }.setFiber f x).setPc t
      (.exec e f)) := by
  have hfiber : ∀ g, g ≠ f → (({ s with put := Function.update s.put f false }.setFiber f x).setPc t
      (.exec e f)).fiber g = s.fiber g := fun g hg => Function.update_of_ne hg _ _
  have hother {u : τ} {g : FiberId} (hut : u ≠ t) (hu : (s.pc u).onStack = some g) : g ≠ f := by
    rintro rfl
    exact hfree.stack u hut hu
  exact {
    members := h.members_setPc ht _ rfl
    exec := by
      intro u e' g hu
      rcases setPc_eq hu with ⟨-, heq⟩ | ⟨hut, hu⟩
      · cases heq
        exact ⟨x, Function.update_self .., hrun⟩
      · rw [hfiber g (hother hut (congrArg Pc.onStack hu))]
        exact h.exec u e' g hu
    stack := by
      intro u g hu
      rcases onStack_setPc hu with ⟨-, heq⟩ | ⟨hut, hu⟩
      · cases heq
        exact ⟨x, Function.update_self ..⟩
      · rw [hfiber g (hother hut hu)]
        exact h.stack u g hu
    alone := by
      intro u v g hu hv
      rcases onStack_setPc hu with ⟨hut, heq⟩ | ⟨hut, hu⟩ <;>
        rcases onStack_setPc hv with ⟨hvt, heq'⟩ | ⟨hvt, hv⟩
      · exact hut.trans hvt.symm
      · cases heq
        exact absurd hv (hfree.stack v hvt)
      · cases heq'
        exact absurd hu (hfree.stack u hut)
      · exact h.alone u v g hu hv
    unmadeQueue := by
      intro k y hy e' he'
      rcases setFiber_eq hy with ⟨hkf, -⟩ | ⟨-, hy⟩
      · exact hfree.seqQueue k hkf.symm e' he'
      · exact h.unmadeQueue k y hy e' he'
    unmadeTook := by
      intro k y hy u e' hu
      rcases setPc_eq hu with ⟨-, heq⟩ | ⟨hut, hu⟩
      · cases heq
      · rcases setFiber_eq hy with ⟨hkf, -⟩ | ⟨-, hy⟩
        · exact hfree.seqTook k hkf.symm u e' hut hu
        · exact h.unmadeTook k y hy u e' hu
    unmadeNext := by
      intro k y hy
      rcases setFiber_eq hy with ⟨hkf, -⟩ | ⟨-, hy⟩
      · exact hfree.seqLt k hkf.symm
      · exact h.unmadeNext k y hy }

/-- A thread stores to the fiber on its stack, and keeps it there or leaves it. -/
theorem Stacks.switchOut (h : Stacks W s) {t : τ} (ht : t ∈ W) {f : FiberId} {y : Fiber}
    {pc : Pc τ} (hstack : (s.pc t).onStack = some f) (htook : ∀ e, pc ≠ .took e)
    (hexec : ∀ e g, pc ≠ .exec e g) (hpc : pc.onStack = some f ∨ pc.onStack = none) :
    Stacks W ((s.setFiber f y).setPc t pc) := by
  have hmade {g : FiberId} {z : Fiber} (hz : ((s.setFiber f y).setPc t pc).fiber g = some z) :
      ∃ z', s.fiber g = some z' := by
    rcases setFiber_eq hz with ⟨rfl, -⟩ | ⟨-, hz⟩
    · exact h.stack t g hstack
    · exact ⟨z, hz⟩
  have hstays {u : τ} {g : FiberId}
      (hu : (((s.setFiber f y).setPc t pc).pc u).onStack = some g) : (s.pc u).onStack = some g := by
    rcases onStack_setPc hu with ⟨rfl, heq⟩ | ⟨-, hu⟩
    · rcases hpc with hpc | hpc
      · rw [hstack, ← hpc, heq]
      · rw [hpc] at heq
        cases heq
    · exact hu
  exact {
    members := h.members_setPc ht pc rfl
    exec := by
      intro u e g hu
      rcases setPc_eq hu with ⟨-, heq⟩ | ⟨hut, hu⟩
      · exact absurd heq (hexec e g)
      · have hgf : g ≠ f := by
          rintro rfl
          exact hut (h.alone u t g (congrArg Pc.onStack hu) hstack)
        obtain ⟨x, hx, hrun⟩ := h.exec u e g hu
        exact ⟨x, (Function.update_of_ne hgf ..).trans hx, hrun⟩
    stack := by
      intro u g hu
      obtain ⟨x, hx⟩ := h.stack u g (hstays hu)
      by_cases hgf : g = f
      · exact ⟨y, hgf ▸ Function.update_self ..⟩
      · exact ⟨x, (Function.update_of_ne hgf ..).trans hx⟩
    alone := fun u v g hu hv => h.alone u v g (hstays hu) (hstays hv)
    unmadeQueue := fun k z hz => let ⟨z', hz'⟩ := hmade hz; h.unmadeQueue k z' hz'
    unmadeTook := by
      intro k z hz u e hu
      obtain ⟨z', hz'⟩ := hmade hz
      rcases setPc_eq hu with ⟨-, heq⟩ | ⟨-, hu⟩
      · exact absurd heq (htook e)
      · exact h.unmadeTook k z' hz' u e hu
    unmadeNext := fun k z hz => let ⟨z', hz'⟩ := hmade hz; h.unmadeNext k z' hz' }

end Scheduler
