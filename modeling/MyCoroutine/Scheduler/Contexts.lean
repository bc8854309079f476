-- SUMMARY: t_fiber and the fiber whose context a thread executes, over the switches that stop, run and the fibers themselves make.
import Mathlib.Logic.Function.Basic
import MyCoroutine.Fiber
import MyCoroutine.Lib.TransitionSystem

/-! # Contexts

Each thread has three pointers of its own: `t_fiber`, the fiber that `GetThis`
reports, `t_thread_fiber`, its main fiber, and `t_scheduler_fiber`. What it
executes is decided by `swapcontext` alone, which stores the execution into one
`m_ctx` and goes on with what it finds in another. `resume` and `yield` set
`t_fiber` and then choose the other side of the switch by `m_runInScheduler`.

A `resume` and a `yield` are one step each. What other threads do between the
stores of a `yield`, and `Fiber::reset`, show in `m_state` only: `store` puts any
state there at any time. -/

namespace Contexts

variable {τ : Type}

/-! ## States -/

/-- A fiber object. -/
inductive Ref (τ : Type) where
  /-- The main fiber of a thread, which its first `GetThis` constructs. -/
  | main (t : τ)
  /-- `m_rootFiber`. -/
  | root
  /-- `idle_fiber` in `Scheduler::run`. -/
  | idle (t : τ)
  /-- A fiber of a task. -/
  | task (f : FiberId)
  deriving DecidableEq

/-- The fibers that `run` on thread `t` resumes. -/
def Ref.scheduledOn [DecidableEq τ] (t : τ) : Ref τ → Bool
  | .task _ => true
  | .idle u => u = t
  | .main _ | .root => false

structure Object (τ : Type) where
  /-- `m_state`. -/
  state : Fiber.State
  /-- `m_runInScheduler`. -/
  runInScheduler : Bool
  /-- `m_ctx`: the fiber whose execution is stored in it. -/
  ctx : Ref τ

structure State (τ : Type) where
  /-- The fiber objects; `none` is one that is not constructed. -/
  fiber : Ref τ → Option (Object τ)
  /-- `t_fiber` of each thread. -/
  tFiber : τ → Option (Ref τ)
  /-- `t_thread_fiber` of each thread. -/
  threadFiber : τ → Option (Ref τ)
  /-- `t_scheduler_fiber` of each thread. -/
  schedulerFiber : τ → Option (Ref τ)
  /-- The fiber whose context is executing on the thread. -/
  executing : τ → Ref τ

namespace State

variable [DecidableEq τ]

def setFiber (s : State τ) (f : Ref τ) (x : Object τ) : State τ :=
  { s with fiber := Function.update s.fiber f (some x) }

/-- `Fiber::SetThis`. -/
def setThis (s : State τ) (t : τ) (f : Option (Ref τ)) : State τ :=
  { s with tFiber := Function.update s.tFiber t f }

/-- `Fiber::GetThis`; the first call on a thread constructs its main fiber. -/
def getThis (s : State τ) (t : τ) : Ref τ × State τ :=
  match s.tFiber t with
  | some f => (f, s)
  | none =>
    -- `Fiber()` leaves `m_runInScheduler` uninitialised; no switch below reads it
    let s := (s.setThis t (some (.main t))).setFiber (.main t) ⟨.running, false, .main t⟩
    (.main t, { s with threadFiber := Function.update s.threadFiber t (some (.main t)) })

/-- `swapcontext(&oucp->m_ctx, &ucp->m_ctx)` on thread `t`. -/
def swapcontext (s : State τ) (t : τ) (oucp ucp : Ref τ) : Option (State τ) := do
  let old ← s.fiber oucp
  let s := s.setFiber oucp { old with ctx := s.executing t }
  let new ← s.fiber ucp
  return { s with executing := Function.update s.executing t new.ctx }

/-- The fiber on the other side of a switch of `x`. -/
def other (s : State τ) (t : τ) (x : Object τ) : Option (Ref τ) :=
  if x.runInScheduler then s.schedulerFiber t else s.threadFiber t

/-- `Fiber::resume` of `f` on thread `t`. -/
def resume (s : State τ) (t : τ) (f : Ref τ) : Option (State τ) := do
  let x ← s.fiber f
  if x.state ≠ .term ∧ x.state ≠ .running then
    let target ← s.other t x
    ((s.setThis t (some f)).setFiber f { x with state := .running }).swapcontext t target f
  else none

/-- `Fiber::yield` of `f` on thread `t`. -/
def yield (s : State τ) (t : τ) (f : Ref τ) : Option (State τ) := do
  let x ← s.fiber f
  if x.state = .running ∨ x.state = .term then
    let target ← s.other t x
    let state := if x.state ≠ .term then .ready else x.state
    ((s.setThis t (s.threadFiber t)).setFiber f { x with state := state }).swapcontext t f target
  else none

/-- The end of `Fiber::MainFunc` of `f` on thread `t`. -/
def mainFuncEnd (s : State τ) (t : τ) (f : Ref τ) : Option (State τ) := do
  let x ← s.fiber f
  (s.setFiber f { x with state := .term }).yield t f

/-- The root fiber executes on the caller thread; a worker has just been started. -/
def beforeRun (s : State τ) (rootThread : Option τ) (t : τ) : Bool :=
  if rootThread = some t then s.executing t = .root else (s.tFiber t).isNone

/-- The head of `Scheduler::run` on thread `t`. -/
def enterRun (s : State τ) (rootThread : Option τ) (t : τ) : State τ :=
  let s :=
    if rootThread ≠ some t then
      let r := s.getThis t
      { r.2 with schedulerFiber := Function.update r.2.schedulerFiber t (some r.1) }
    else s
  s.setFiber (.idle t) ⟨.ready, true, .idle t⟩

end State

/-! ## Steps -/

inductive Label (τ : Type) where
  /-- Thread `t` begins `Scheduler::run`. -/
  | enterRun (t : τ)
  /-- A fiber of a task is constructed with this `run_in_scheduler`. -/
  | construct (f : FiberId) (runInScheduler : Bool)
  /-- `Scheduler::stop` resumes `m_rootFiber`. -/
  | stop (t : τ)
  /-- `Scheduler::run` resumes `f`. -/
  | resume (t : τ) (f : Ref τ)
  /-- The executing fiber calls `Fiber::GetThis()->yield()`. -/
  | yield (t : τ)
  /-- The callback of the executing fiber has returned. -/
  | finish (t : τ)
  /-- Another thread or `Fiber::reset` changes `m_state` of `f`. -/
  | store (f : Ref τ) (state : Fiber.State)
  deriving DecidableEq

variable [DecidableEq τ]

/-- One step of a scheduler whose caller thread, if it uses one, is `rootThread`. -/
def step (rootThread : Option τ) (s : State τ) : Label τ → Option (State τ)
  | .enterRun t =>
    if (s.fiber (.idle t)).isNone ∧ s.beforeRun rootThread t then some (s.enterRun rootThread t)
    else none
  | .construct f runInScheduler =>
    if (s.fiber (.task f)).isNone then some (s.setFiber (.task f) ⟨.ready, runInScheduler, .task f⟩)
    else none
  | .stop t =>
    if rootThread = some t ∧ s.executing t = .main t then s.resume t .root else none
  | .resume t f =>
    -- `run` is what the scheduling fiber executes
    if f.scheduledOn t ∧ s.schedulerFiber t = some (s.executing t) then s.resume t f else none
  | .yield t =>
    if (s.executing t).scheduledOn t then
      let r := s.getThis t
      r.2.yield t r.1
    else none
  | .finish t =>
    -- `cur` was `GetThis()` when the fiber was first resumed
    if (s.executing t).scheduledOn t ∨ s.executing t = .root then s.mainFuncEnd t (s.executing t)
    else none
  | .store f state => (s.fiber f).map fun x => s.setFiber f { x with state := state }

/-- No fiber is constructed yet. -/
def blank : State τ where
  fiber := fun _ => none
  tFiber := fun _ => none
  threadFiber := fun _ => none
  schedulerFiber := fun _ => none
  executing := .main

/-- `Scheduler::Scheduler` with `use_caller` on thread `t`, or without it. -/
def start : Option τ → State τ
  | none => blank
  | some t =>
    let s := (blank.getThis t).2.setFiber .root ⟨.ready, false, .root⟩
    { s with schedulerFiber := Function.update s.schedulerFiber t (some .root) }

def system (rootThread : Option τ) : TransitionSystem (State τ) (Label τ) where
  init s := s = start rootThread
  step := step rootThread

/-- On every thread `GetThis` returns the fiber whose context is executing. -/
def State.Tracks (s : State τ) : Prop :=
  ∀ t, (s.getThis t).1 = s.executing t

/-- A task or idle fiber switches away only where the scheduling fiber is the main fiber. -/
def homeward (s : State τ) : Label τ → Prop
  | .yield t | .finish t =>
    (s.executing t).scheduledOn t = true → s.schedulerFiber t = s.threadFiber t
  | .enterRun _ | .construct _ _ | .stop _ | .resume _ _ | .store _ _ => True

/-! ## What a switch does -/

variable {rootThread : Option τ} {s s' : State τ} {t u : τ} {f g : Ref τ} {a : Label τ}

namespace State

omit [DecidableEq τ] in
/-- What the `m_ctx` of `f` holds. -/
def ctx (s : State τ) (f : Ref τ) : Option (Ref τ) :=
  (s.fiber f).map Object.ctx

omit [DecidableEq τ] in
/-- `m_runInScheduler` of `f`. -/
def inScheduler (s : State τ) (f : Ref τ) : Option Bool :=
  (s.fiber f).map Object.runInScheduler

@[simp] theorem setFiber_executing (s : State τ) (f : Ref τ) (x : Object τ) :
    (s.setFiber f x).executing = s.executing := rfl

theorem setFiber_ctx (s : State τ) (f : Ref τ) (x : Object τ) (g : Ref τ) :
    (s.setFiber f x).ctx g = if g = f then some x.ctx else s.ctx g := by
  by_cases h : g = f <;> simp [ctx, setFiber, h]

theorem setFiber_inScheduler (s : State τ) (f : Ref τ) (x : Object τ) (g : Ref τ) :
    (s.setFiber f x).inScheduler g = if g = f then some x.runInScheduler else s.inScheduler g := by
  by_cases h : g = f <;> simp [inScheduler, setFiber, h]

end State

/-- The two states differ in `m_state` of fibers alone. -/
structure Alike (s s' : State τ) : Prop where
  ctx : ∀ f, s'.ctx f = s.ctx f
  inScheduler : ∀ f, s'.inScheduler f = s.inScheduler f
  tFiber : s'.tFiber = s.tFiber
  threadFiber : s'.threadFiber = s.threadFiber
  schedulerFiber : s'.schedulerFiber = s.schedulerFiber
  executing : s'.executing = s.executing

theorem alike_setFiber {x : Object τ} (hf : s.fiber f = some x) (state : Fiber.State) :
    Alike s (s.setFiber f { x with state := state }) where
  ctx g := by
    rw [State.setFiber_ctx]
    split
    · rename_i hgf
      simp [State.ctx, hgf, hf]
    · rfl
  inScheduler g := by
    rw [State.setFiber_inScheduler]
    split
    · rename_i hgf
      simp [State.inScheduler, hgf, hf]
    · rfl
  tFiber := rfl
  threadFiber := rfl
  schedulerFiber := rfl
  executing := rfl

/-- Thread `t` has set `t_fiber` to `now` and switched from the `m_ctx` of `save` to
that of `load`. -/
structure Switches (t : τ) (now : Option (Ref τ)) (save load : Ref τ) (s s' : State τ) : Prop where
  tFiber : ∀ u, s'.tFiber u = if u = t then now else s.tFiber u
  loaded : s.ctx load = some (s'.executing t)
  others : ∀ u, u ≠ t → s'.executing u = s.executing u
  saved : s'.ctx save = some (s.executing t)
  ctx : ∀ f, f ≠ save → s'.ctx f = s.ctx f
  inScheduler : ∀ f, s'.inScheduler f = s.inScheduler f
  threadFiber : s'.threadFiber = s.threadFiber
  schedulerFiber : s'.schedulerFiber = s.schedulerFiber

theorem swapcontext_switches {s₁ : State τ} (hs₁ : Alike s s₁) (now : Option (Ref τ))
    (h : (s₁.setThis t now).swapcontext t f g = some s') (hne : g ≠ f) :
    Switches t now f g s s' := by
  unfold State.swapcontext at h
  obtain ⟨old, hold, h⟩ := Option.bind_eq_some_iff.mp h
  obtain ⟨new, hnew, h⟩ := Option.bind_eq_some_iff.mp h
  cases h
  have hold' : s₁.fiber f = some old := hold
  have hnew' : s₁.fiber g = some new := by
    rw [← hnew]
    exact (Function.update_of_ne hne _ _).symm
  constructor
  · intro u
    simp only [State.setFiber, State.setThis, Function.update_apply, hs₁.tFiber]
  · rw [← hs₁.ctx, State.ctx, hnew']
    simp
  · intro u hu
    simp only [State.setFiber, State.setThis, Function.update_of_ne hu, hs₁.executing]
  · have := State.setFiber_ctx (s₁.setThis t now) f { old with ctx := s₁.executing t } f
    rw [if_pos rfl] at this
    exact this.trans (by rw [hs₁.executing])
  · intro k hk
    have := State.setFiber_ctx (s₁.setThis t now) f { old with ctx := s₁.executing t } k
    rw [if_neg hk] at this
    exact this.trans (hs₁.ctx k)
  · intro k
    have := State.setFiber_inScheduler (s₁.setThis t now) f { old with ctx := s₁.executing t } k
    refine Eq.trans this ?_
    split
    · rename_i hkf
      rw [← hs₁.inScheduler, State.inScheduler, hkf, hold']
      rfl
    · exact hs₁.inScheduler k
  · exact hs₁.threadFiber
  · exact hs₁.schedulerFiber

/-- The other side of a switch of `f` on thread `t`. -/
def Side (s : State τ) (t : τ) (f target : Ref τ) : Prop :=
  ∃ b, s.inScheduler f = some b ∧ (if b then s.schedulerFiber t else s.threadFiber t) = some target

theorem resume_switches (h : s.resume t f = some s')
    (hne : ∀ target, Side s t f target → f ≠ target) :
    ∃ target, Side s t f target ∧ Switches t (some f) target f s s' := by
  unfold State.resume at h
  obtain ⟨x, hx, h⟩ := Option.bind_eq_some_iff.mp h
  split at h
  case isFalse => cases h
  obtain ⟨target, htarget, h⟩ := Option.bind_eq_some_iff.mp h
  have hside : Side s t f target := ⟨x.runInScheduler, by simp [State.inScheduler, hx], htarget⟩
  exact ⟨target, hside, swapcontext_switches (alike_setFiber hx .running) _ h (hne target hside)⟩

theorem yield_switches (h : s.yield t f = some s')
    (hne : ∀ target, Side s t f target → f ≠ target) :
    ∃ target, Side s t f target ∧ Switches t (s.threadFiber t) f target s s' := by
  unfold State.yield at h
  obtain ⟨x, hx, h⟩ := Option.bind_eq_some_iff.mp h
  split at h
  case isFalse => cases h
  obtain ⟨target, htarget, h⟩ := Option.bind_eq_some_iff.mp h
  have hside : Side s t f target := ⟨x.runInScheduler, by simp [State.inScheduler, hx], htarget⟩
  have hswap := swapcontext_switches (alike_setFiber hx _) _ h (hne target hside).symm
  exact ⟨target, hside, hswap⟩

theorem Alike.switches {s₁ : State τ} (hs₁ : Alike s s₁) {now : Option (Ref τ)}
    (h : Switches t now f g s₁ s') : Switches t now f g s s' where
  tFiber u := by rw [h.tFiber, hs₁.tFiber]
  loaded := by rw [← hs₁.ctx, h.loaded]
  others u hu := by rw [h.others u hu, hs₁.executing]
  saved := by rw [h.saved, hs₁.executing]
  ctx k hk := by rw [h.ctx k hk, hs₁.ctx]
  inScheduler k := by rw [h.inScheduler, hs₁.inScheduler]
  threadFiber := by rw [h.threadFiber, hs₁.threadFiber]
  schedulerFiber := by rw [h.schedulerFiber, hs₁.schedulerFiber]

omit [DecidableEq τ] in
theorem Alike.side {s₁ : State τ} (hs₁ : Alike s s₁) (h : Side s₁ t f g) : Side s t f g := by
  rwa [Side, hs₁.inScheduler, hs₁.schedulerFiber, hs₁.threadFiber] at h

theorem mainFuncEnd_switches (h : s.mainFuncEnd t f = some s')
    (hne : ∀ target, Side s t f target → f ≠ target) :
    ∃ target, Side s t f target ∧ Switches t (s.threadFiber t) f target s s' := by
  unfold State.mainFuncEnd at h
  obtain ⟨x, hx, h⟩ := Option.bind_eq_some_iff.mp h
  have halike := alike_setFiber hx .term
  obtain ⟨target, hside, hswitches⟩ := yield_switches h fun g hg => hne g (halike.side hg)
  rw [halike.threadFiber] at hswitches
  exact ⟨target, halike.side hside, halike.switches hswitches⟩

/-! ## The invariant -/

/-- Where the executions are while no task or idle fiber has left the caller thread. -/
structure Switched (rootThread : Option τ) (s : State τ) : Prop where
  current : ∀ t f, s.tFiber t = some f → s.executing t = f
  fresh : ∀ t, s.tFiber t = none →
    s.executing t = .main t ∧ rootThread ≠ some t ∧ s.schedulerFiber t = none
  threadFiber : ∀ t f, s.tFiber t = some f → s.threadFiber t = some (.main t)
  worker : ∀ t f, s.tFiber t = some f → rootThread ≠ some t → s.schedulerFiber t = some (.main t)
  caller : ∀ t, rootThread = some t → s.schedulerFiber t = some .root
  executing : ∀ t, s.executing t = .main t ∨ (s.executing t).scheduledOn t = true ∨
    (rootThread = some t ∧ s.executing t = .root)
  made : ∀ t, (s.executing t).scheduledOn t = true → s.ctx (s.executing t) ≠ none
  /-- A fiber that is no main fiber stores its own execution. -/
  ctx : ∀ f g, (∀ t, f ≠ .main t) → s.ctx f = some g → g = f
  mainCtx : ∀ t g, s.executing t ≠ .main t → (rootThread = some t → s.executing t = .root) →
    s.ctx (.main t) = some g → g = .main t
  /-- Under a task that does not run in the scheduler, the main fiber of the caller
  thread stores the execution of the root fiber. -/
  asideCtx : ∀ t g, rootThread = some t → (s.executing t).scheduledOn t = true →
    s.inScheduler (s.executing t) = some false → s.ctx (.main t) = some g → g = .root
  rootFlag : ∀ b, s.inScheduler .root = some b → b = false

theorem getThis_of_some (hf : s.tFiber t = some f) : (s.getThis t).1 = f := by
  simp [State.getThis, hf]

theorem Switched.tracks (h : Switched rootThread s) : s.Tracks := by
  intro t
  cases ht : s.tFiber t with
  | some f => rw [getThis_of_some ht, h.current t f ht]
  | none =>
    -- a thread that has not called `GetThis` yet executes its main fiber
    rw [(h.fresh t ht).1]
    simp [State.getThis, ht]

theorem Switched.of_alike (h : Switched rootThread s) (ha : Alike s s') :
    Switched rootThread s' := by
  constructor
  · intro t f
    rw [ha.tFiber, ha.executing]
    exact h.current t f
  · intro t
    rw [ha.tFiber, ha.executing, ha.schedulerFiber]
    exact h.fresh t
  · intro t f
    rw [ha.tFiber, ha.threadFiber]
    exact h.threadFiber t f
  · intro t f
    rw [ha.tFiber, ha.schedulerFiber]
    exact h.worker t f
  · intro t
    rw [ha.schedulerFiber]
    exact h.caller t
  · intro t
    rw [ha.executing]
    exact h.executing t
  · intro t
    rw [ha.executing, ha.ctx]
    exact h.made t
  · intro f g
    rw [ha.ctx]
    exact h.ctx f g
  · intro t g
    rw [ha.executing, ha.ctx]
    exact h.mainCtx t g
  · intro t g
    rw [ha.executing, ha.ctx, ha.inScheduler]
    exact h.asideCtx t g
  · intro b
    rw [ha.inScheduler]
    exact h.rootFlag b

/-- A fiber that is no main fiber is constructed. -/
theorem Switched.construct (h : Switched rootThread s) (hnone : s.fiber f = none)
    (hmain : ∀ t, f ≠ .main t) (hroot : f ≠ .root) (state : Fiber.State) (b : Bool) :
    Switched rootThread (s.setFiber f ⟨state, b, f⟩) := by
  have hctx : s.ctx f = none := by simp [State.ctx, hnone]
  have hexec : ∀ t, (s.executing t).scheduledOn t = true → s.executing t ≠ f := by
    rintro t ht rfl
    exact h.made t ht hctx
  exact { h with
    made := by
      intro t ht
      rw [State.setFiber_executing] at ht ⊢
      rw [State.setFiber_ctx, if_neg (hexec t ht)]
      exact h.made t ht
    ctx := by
      intro g k hg hk
      rw [State.setFiber_ctx] at hk
      split at hk
      · rename_i hgf
        exact (Option.some.inj hk).symm.trans hgf.symm
      · exact h.ctx g k hg hk
    mainCtx := by
      intro t g hne honly hg
      rw [State.setFiber_ctx, if_neg (hmain t).symm] at hg
      exact h.mainCtx t g hne honly hg
    asideCtx := by
      intro t g ht hsched hflag hg
      rw [State.setFiber_ctx, if_neg (hmain t).symm] at hg
      rw [State.setFiber_executing] at hsched hflag
      rw [State.setFiber_inScheduler, if_neg (hexec t hsched)] at hflag
      exact h.asideCtx t g ht hsched hflag hg
    rootFlag := by
      intro c hc
      rw [State.setFiber_inScheduler, if_neg hroot.symm] at hc
      exact h.rootFlag c hc }

/-- A worker has begun `run`: its main fiber is its scheduling fiber. -/
structure Enters (t : τ) (s s' : State τ) : Prop where
  tFiber : ∀ u, s'.tFiber u = if u = t then some (.main t) else s.tFiber u
  threadFiber : ∀ u, s'.threadFiber u = if u = t then some (.main t) else s.threadFiber u
  schedulerFiber : ∀ u, s'.schedulerFiber u = if u = t then some (.main t) else s.schedulerFiber u
  ctx : ∀ f, s'.ctx f = if f = .main t then some (.main t) else s.ctx f
  inScheduler : ∀ f, f ≠ .main t → s'.inScheduler f = s.inScheduler f
  executing : s'.executing = s.executing

theorem getThis_enters (hnone : s.tFiber t = none) :
    let r := s.getThis t
    Enters t s { r.2 with schedulerFiber := Function.update r.2.schedulerFiber t (some r.1) } := by
  simp only [State.getThis, hnone]
  exact {
    tFiber := Function.update_apply _ _ _
    threadFiber := Function.update_apply _ _ _
    schedulerFiber := Function.update_apply _ _ _
    ctx := State.setFiber_ctx s (.main t) ⟨.running, false, .main t⟩
    inScheduler := fun f hf =>
      (State.setFiber_inScheduler s (.main t) ⟨.running, false, .main t⟩ f).trans (if_neg hf)
    executing := rfl }

theorem Switched.of_enters (h : Switched rootThread s) (hnone : s.tFiber t = none)
    (he : Enters t s s') : Switched rootThread s' := by
  obtain ⟨hexec, hworker, -⟩ := h.fresh t hnone
  have hmain {u : τ} (hu : (s.executing u).scheduledOn u = true) : s.executing u ≠ .main t := by
    intro heq
    rw [heq] at hu
    cases hu
  constructor
  · intro u f hu
    rw [he.tFiber] at hu
    rw [he.executing]
    split at hu
    · rename_i hut
      rw [hut, hexec, Option.some.inj hu]
    · exact h.current u f hu
  · intro u hu
    rw [he.tFiber] at hu
    rw [he.executing, he.schedulerFiber]
    split at hu
    · cases hu
    · rename_i hut
      rw [if_neg hut]
      exact h.fresh u hu
  · intro u f hu
    rw [he.tFiber] at hu
    rw [he.threadFiber]
    split at hu
    · rename_i hut
      rw [if_pos hut, hut]
    · rename_i hut
      rw [if_neg hut]
      exact h.threadFiber u f hu
  · intro u f hu hne
    rw [he.tFiber] at hu
    rw [he.schedulerFiber]
    split at hu
    · rename_i hut
      rw [if_pos hut, hut]
    · rename_i hut
      rw [if_neg hut]
      exact h.worker u f hu hne
  · intro u hu
    have hut : u ≠ t := by
      rintro rfl
      exact hworker hu
    rw [he.schedulerFiber, if_neg hut]
    exact h.caller u hu
  · intro u
    rw [he.executing]
    exact h.executing u
  · intro u hu
    rw [he.executing] at hu ⊢
    rw [he.ctx, if_neg (hmain hu)]
    exact h.made u hu
  · intro f g hf hg
    rw [he.ctx, if_neg (hf t)] at hg
    exact h.ctx f g hf hg
  · intro u g hne honly hg
    rw [he.executing] at hne honly
    rw [he.ctx] at hg
    split at hg
    · rename_i hut
      cases hut
      exact absurd hexec hne
    · exact h.mainCtx u g hne honly hg
  · intro u g hu hsched hflag hg
    have hut : u ≠ t := by
      rintro rfl
      exact hworker hu
    rw [he.executing] at hsched hflag
    rw [he.inScheduler _ (hmain hsched)] at hflag
    rw [he.ctx, if_neg fun heq => hut (Ref.main.inj heq)] at hg
    exact h.asideCtx u g hu hsched hflag hg
  · intro b hb
    rw [he.inScheduler .root nofun] at hb
    exact h.rootFlag b hb

/-! ## Switches -/

/-- A switch after which thread `t` executes the fiber that it has put into `t_fiber`. -/
theorem Switched.of_switches (h : Switched rootThread s) {save load : Ref τ}
    (hs : Switches t (some f) save load s s') (hknown : s.tFiber t ≠ none)
    (hexec : s'.executing t = f)
    (hf : f = .main t ∨ f.scheduledOn t = true ∨ (rootThread = some t ∧ f = .root))
    (hmade : f.scheduledOn t = true → s'.ctx f ≠ none)
    (hsave : (∀ u, save ≠ .main u) → s.executing t = save)
    (hmine : ∀ u, save = .main u → u = t)
    (hmain : f ≠ .main t → (rootThread = some t → f = .root) →
      ∀ g, s'.ctx (.main t) = some g → g = .main t)
    (haside : rootThread = some t → f.scheduledOn t = true → s.inScheduler f = some false →
      ∀ g, s'.ctx (.main t) = some g → g = .root) : Switched rootThread s' := by
  -- no main fiber of another thread is touched
  have hothers : ∀ u, u ≠ t → s'.ctx (.main u) = s.ctx (.main u) := fun u hu =>
    hs.ctx _ fun heq => hu (hmine u heq.symm)
  have hknown' : ∀ u g, s'.tFiber u = some g → ∃ k, s.tFiber u = some k := by
    intro u g hu
    rw [hs.tFiber] at hu
    split at hu
    · rename_i hut
      exact hut ▸ Option.ne_none_iff_exists'.mp hknown
    · exact ⟨g, hu⟩
  constructor
  · intro u g hu
    rw [hs.tFiber] at hu
    split at hu
    · rename_i hut
      rw [hut, hexec]
      exact Option.some.inj hu
    · rename_i hut
      rw [hs.others u hut]
      exact h.current u g hu
  · intro u hu
    rw [hs.tFiber] at hu
    split at hu
    · cases hu
    · rename_i hut
      rw [hs.others u hut, hs.schedulerFiber]
      exact h.fresh u hu
  · intro u g hu
    obtain ⟨k, hk⟩ := hknown' u g hu
    rw [hs.threadFiber]
    exact h.threadFiber u k hk
  · intro u g hu hne
    obtain ⟨k, hk⟩ := hknown' u g hu
    rw [hs.schedulerFiber]
    exact h.worker u k hk hne
  · intro u hu
    rw [hs.schedulerFiber]
    exact h.caller u hu
  · intro u
    by_cases hut : u = t
    · rw [hut, hexec]
      exact hf
    · rw [hs.others u hut]
      exact h.executing u
  · intro u hu
    by_cases hut : u = t
    · rw [hut, hexec] at hu ⊢
      exact hmade hu
    · rw [hs.others u hut] at hu ⊢
      by_cases hsaved : s.executing u = save
      · rw [hsaved, hs.saved]
        exact Option.some_ne_none _
      · rw [hs.ctx _ hsaved]
        exact h.made u hu
  · intro k g hk hg
    by_cases hsaved : k = save
    · rw [hsaved, hs.saved, hsave (hsaved ▸ hk)] at hg
      rw [hsaved, Option.some.inj hg]
    · rw [hs.ctx k hsaved] at hg
      exact h.ctx k g hk hg
  · intro u g hne honly hg
    by_cases hut : u = t
    · rw [hut, hexec] at hne honly
      rw [hut] at hg ⊢
      exact hmain hne honly g hg
    · rw [hs.others u hut] at hne honly
      rw [hothers u hut] at hg
      exact h.mainCtx u g hne honly hg
  · intro u g hu hsched hflag hg
    rw [hs.inScheduler] at hflag
    by_cases hut : u = t
    · rw [hut] at hu hg
      rw [hut, hexec] at hsched hflag
      exact haside hu hsched hflag g hg
    · rw [hs.others u hut] at hsched hflag
      rw [hothers u hut] at hg
      exact h.asideCtx u g hu hsched hflag hg
  · intro b hb
    rw [hs.inScheduler] at hb
    exact h.rootFlag b hb

/-- The main fiber of a thread that has called `GetThis`. -/
theorem Switched.known_of_scheduler (h : Switched rootThread s)
    (hsched : s.schedulerFiber t = some f) : ∃ g, s.tFiber t = some g := by
  cases hg : s.tFiber t with
  | some g => exact ⟨g, rfl⟩
  | none =>
    rw [(h.fresh t hg).2.2] at hsched
    cases hsched

/-- `stop` switches from the main fiber of the caller thread into the root fiber. -/
theorem Switched.stop (h : Switched rootThread s) (hcaller : rootThread = some t)
    (hexec : s.executing t = .main t) (hres : s.resume t .root = some s') :
    Switched rootThread s' := by
  obtain ⟨g, hg⟩ := h.known_of_scheduler (h.caller t hcaller)
  have hthread := h.threadFiber t g hg
  have htarget : ∀ target, Side s t .root target → target = .main t := by
    rintro target ⟨b, hb, htgt⟩
    rw [h.rootFlag b hb, if_neg Bool.false_ne_true, hthread] at htgt
    exact (Option.some.inj htgt).symm
  obtain ⟨target, hside, hs⟩ := resume_switches hres fun target hside => by
    rw [htarget target hside]
    exact nofun
  rw [htarget target hside] at hs
  have hloaded : s'.executing t = .root := h.ctx .root _ nofun hs.loaded
  refine h.of_switches hs (by simp [hg]) hloaded (.inr (.inr ⟨hcaller, rfl⟩)) nofun
    (fun hne => absurd rfl (hne t)) (fun u hu => (Ref.main.inj hu).symm) (fun _ _ g hg => ?_) nofun
  rw [hs.saved, hexec] at hg
  exact (Option.some.inj hg).symm

/-- `run` switches from the scheduling fiber into a task or idle fiber. -/
theorem Switched.resume (h : Switched rootThread s) (hf : f.scheduledOn t = true)
    (hsched : s.schedulerFiber t = some (s.executing t)) (hres : s.resume t f = some s') :
    Switched rootThread s' := by
  obtain ⟨g, hg⟩ := h.known_of_scheduler hsched
  have hthread := h.threadFiber t g hg
  have hmain : ∀ u, f ≠ .main u := by
    rintro u rfl
    cases hf
  have hroot : f ≠ .root := by
    rintro rfl
    cases hf
  have htarget : ∀ target, Side s t f target → (target = .main t ∧ (s.executing t = .main t ∨
      (rootThread = some t ∧ s.executing t = .root))) ∨
      (target = .root ∧ s.executing t = .root ∧ s.inScheduler f = some true) := by
    rintro target ⟨b, hb, htgt⟩
    by_cases hcaller : rootThread = some t
    · have hexec : s.executing t = .root :=
        Option.some.inj (hsched.symm.trans (h.caller t hcaller))
      cases b with
      | true =>
        rw [if_pos rfl, hsched, hexec] at htgt
        exact .inr ⟨(Option.some.inj htgt).symm, hexec, hb⟩
      | false =>
        rw [if_neg Bool.false_ne_true, hthread] at htgt
        exact .inl ⟨(Option.some.inj htgt).symm, .inr ⟨hcaller, hexec⟩⟩
    · have hworker := h.worker t g hg hcaller
      rw [hworker, hthread, ite_self] at htgt
      exact .inl ⟨(Option.some.inj htgt).symm, .inl (Option.some.inj (hsched.symm.trans hworker))⟩
  obtain ⟨target, hside, hs⟩ := resume_switches hres fun target hside => by
    rcases htarget target hside with ⟨rfl, -⟩ | ⟨rfl, -⟩
    · exact hmain t
    · exact hroot
  have hne : f ≠ target := by
    rcases htarget target hside with ⟨rfl, -⟩ | ⟨rfl, -⟩
    · exact hmain t
    · exact hroot
  have hloaded : s'.executing t = f := h.ctx f _ hmain hs.loaded
  refine h.of_switches hs (by simp [hg]) hloaded (.inr (.inl hf)) (fun _ => ?_) (fun hsave => ?_)
    (fun u hu => ?_) (fun _ honly k hk => ?_) fun hcaller _ hflag k hk => ?_
  · rw [hs.ctx f hne, hs.loaded]
    exact Option.some_ne_none _
  · rcases htarget target hside with ⟨rfl, -⟩ | ⟨rfl, hexec, -⟩
    · exact absurd rfl (hsave t)
    · exact hexec
  · rcases htarget target hside with ⟨rfl, -⟩ | ⟨rfl, -⟩
    · exact (Ref.main.inj hu).symm
    · cases hu
  · rcases htarget target hside with ⟨rfl, hexec | ⟨hcaller, -⟩⟩ | ⟨rfl, hexec, -⟩
    · rw [hs.saved, hexec] at hk
      exact (Option.some.inj hk).symm
    · exact absurd (honly hcaller) hroot
    · -- only the caller thread executes the root fiber
      rcases h.executing t with hm | hm | ⟨hcaller, -⟩
      · cases hexec.symm.trans hm
      · rw [hexec] at hm
        cases hm
      · exact absurd (honly hcaller) hroot
  · rcases htarget target hside with ⟨rfl, hexec⟩ | ⟨rfl, -, htrue⟩
    · have hexec : s.executing t = .root :=
        Option.some.inj (hsched.symm.trans (h.caller t hcaller))
      rw [hs.saved, hexec] at hk
      exact (Option.some.inj hk).symm
    · cases htrue.symm.trans hflag

/-- A fiber that is no main fiber switches back to the main fiber of the thread. -/
theorem Switched.home (h : Switched rootThread s) (hexec : s.executing t = f)
    (hmain : ∀ u, f ≠ .main u) (hthread : s.threadFiber t = some (.main t))
    (hknown : s.tFiber t ≠ none) (honly : rootThread = some t → f = .root)
    (hs : Switches t (s.threadFiber t) f (.main t) s s') : Switched rootThread s' := by
  have hloaded : s'.executing t = .main t :=
    h.mainCtx t _ (hexec ▸ hmain t) (fun hcaller => hexec.trans (honly hcaller)) hs.loaded
  rw [hthread] at hs
  exact h.of_switches hs hknown hloaded (.inl rfl) nofun (fun _ => hexec)
    (fun u hu => absurd hu (hmain u)) (fun hne => absurd rfl hne) nofun

/-- The executing fiber is what `GetThis` returns to it. -/
theorem Switched.getThis (h : Switched rootThread s) (hmain : s.executing t ≠ .main t) :
    s.getThis t = (s.executing t, s) ∧ s.tFiber t = some (s.executing t) := by
  cases hg : s.tFiber t with
  | none => exact absurd (h.fresh t hg).1 hmain
  | some g =>
    have hexec := h.current t g hg
    simp [State.getThis, hg, hexec]

/-- Where a task or idle fiber goes when it leaves. -/
theorem Switched.side_of_scheduled (h : Switched rootThread s) {target : Ref τ}
    (hsched : (s.executing t).scheduledOn t = true) (hside : Side s t (s.executing t) target) :
    s.executing t ≠ target ∧
    (s.schedulerFiber t = s.threadFiber t → rootThread ≠ some t ∧ target = .main t) ∧
    (s.schedulerFiber t ≠ s.threadFiber t → ∀ g, s.ctx target = some g → g = .root) := by
  have hmain : s.executing t ≠ .main t := by
    intro heq
    rw [heq] at hsched
    cases hsched
  have hknown := (h.getThis hmain).2
  have hthread := h.threadFiber t _ hknown
  obtain ⟨b, hb, htgt⟩ := hside
  refine ⟨?_, fun hsame => ?_, fun hdiff g hg => ?_⟩
  · rintro rfl
    by_cases hcaller : rootThread = some t
    · rw [h.caller t hcaller, hthread] at htgt
      cases b with
      | true =>
        rw [← Option.some.inj htgt] at hsched
        cases hsched
      | false => exact hmain (Option.some.inj htgt).symm
    · rw [h.worker t _ hknown hcaller, hthread, ite_self] at htgt
      exact hmain (Option.some.inj htgt).symm
  · rw [hsame, ite_self, hthread] at htgt
    refine ⟨fun hcaller => ?_, (Option.some.inj htgt).symm⟩
    rw [h.caller t hcaller, hthread] at hsame
    cases hsame
  · have hcaller : rootThread = some t := by
      by_contra hcaller
      rw [h.worker t _ hknown hcaller, hthread] at hdiff
      exact hdiff rfl
    cases b with
    | true =>
      rw [if_pos rfl, h.caller t hcaller] at htgt
      cases htgt
      exact h.ctx .root g nofun hg
    | false =>
      rw [if_neg Bool.false_ne_true, hthread] at htgt
      cases htgt
      exact h.asideCtx t g hcaller hsched hb hg

/-- A task or idle fiber leaves. -/
theorem Switched.leaves (h : Switched rootThread s) {target : Ref τ}
    (hsched : (s.executing t).scheduledOn t = true) (hside : Side s t (s.executing t) target)
    (hs : Switches t (s.threadFiber t) (s.executing t) target s s') :
    (s.schedulerFiber t = s.threadFiber t → Switched rootThread s') ∧
    (s.schedulerFiber t ≠ s.threadFiber t → ¬ s'.Tracks) := by
  have hmain : ∀ u, s.executing t ≠ .main u := by
    intro u heq
    rw [heq] at hsched
    cases hsched
  have hknown := (h.getThis (hmain t)).2
  have hthread := h.threadFiber t _ hknown
  obtain ⟨-, hsame, hdiff⟩ := h.side_of_scheduled hsched hside
  refine ⟨fun heq => ?_, fun hne htracks => ?_⟩
  · obtain ⟨hworker, rfl⟩ := hsame heq
    exact h.home rfl hmain hthread (by simp [hknown]) (fun hcaller => absurd hcaller hworker) hs
  · have hroot := hdiff hne _ hs.loaded
    have hnow : (s'.getThis t).1 = .main t :=
      getThis_of_some (by rw [hs.tFiber, if_pos rfl, hthread])
    cases hroot.symm.trans ((htracks t).symm.trans hnow)

theorem Switched.finishRoot (h : Switched rootThread s) (hexec : s.executing t = .root)
    (hend : s.mainFuncEnd t .root = some s') : Switched rootThread s' := by
  have hknown := (h.getThis (t := t) (by rw [hexec]; exact nofun)).2
  have hthread := h.threadFiber t _ hknown
  have htarget : ∀ target, Side s t .root target → target = .main t := by
    rintro target ⟨b, hb, htgt⟩
    rw [h.rootFlag b hb, if_neg Bool.false_ne_true, hthread] at htgt
    exact (Option.some.inj htgt).symm
  obtain ⟨target, hside, hs⟩ := mainFuncEnd_switches hend fun target hside => by
    rw [htarget target hside]
    exact nofun
  rw [htarget target hside] at hs
  exact h.home hexec nofun hthread (by simp [hknown]) (fun _ => rfl) hs

/-! ## Every run -/

/-- A step keeps the executions where they belong if it is one of the guard, and
else parts `t_fiber` from what is executing. -/
theorem Switched.step (h : Switched rootThread s) (hstep : step rootThread s a = some s') :
    (homeward s a → Switched rootThread s') ∧ (¬ homeward s a → ¬ s'.Tracks) := by
  cases a with
  | enterRun t =>
    refine ⟨fun _ => ?_, fun hnot => absurd trivial hnot⟩
    simp only [Contexts.step] at hstep
    split at hstep
    case isFalse => cases hstep
    rename_i hcond
    cases hstep
    obtain ⟨hidle, hwhere⟩ := hcond
    have hnone : s.fiber (.idle t) = none := Option.isNone_iff_eq_none.mp hidle
    unfold State.enterRun
    by_cases hcaller : rootThread = some t
    · rw [if_neg (by simp [hcaller])]
      exact h.construct hnone nofun nofun _ _
    · rw [State.beforeRun, if_neg hcaller, Option.isNone_iff_eq_none] at hwhere
      rw [if_pos hcaller]
      refine Switched.construct (f := .idle t) (h.of_enters hwhere (getThis_enters hwhere)) ?_
        nofun nofun _ _
      have hne : (Ref.idle t : Ref τ) ≠ .main t := nofun
      simp only [State.getThis, hwhere, State.setFiber, State.setThis]
      rw [Function.update_of_ne hne, hnone]
  | construct f runInScheduler =>
    refine ⟨fun _ => ?_, fun hnot => absurd trivial hnot⟩
    simp only [Contexts.step] at hstep
    split at hstep
    · rename_i hnone
      cases hstep
      exact h.construct (Option.isNone_iff_eq_none.mp hnone) nofun nofun _ _
    · cases hstep
  | stop t =>
    refine ⟨fun _ => ?_, fun hnot => absurd trivial hnot⟩
    simp only [Contexts.step] at hstep
    split at hstep
    · rename_i hcond
      exact h.stop hcond.1 hcond.2 hstep
    · cases hstep
  | resume t f =>
    refine ⟨fun _ => ?_, fun hnot => absurd trivial hnot⟩
    simp only [Contexts.step] at hstep
    split at hstep
    · rename_i hcond
      exact h.resume hcond.1 hcond.2 hstep
    · cases hstep
  | yield t =>
    simp only [Contexts.step] at hstep
    split at hstep
    case isFalse => cases hstep
    rename_i hsched
    have hmain : s.executing t ≠ .main t := by
      intro heq
      rw [heq] at hsched
      cases hsched
    rw [(h.getThis hmain).1] at hstep
    obtain ⟨target, hside, hs⟩ := yield_switches hstep fun target hside =>
      (h.side_of_scheduled hsched hside).1
    obtain ⟨hhome, haway⟩ := h.leaves hsched hside hs
    exact ⟨fun hg => hhome (hg hsched), fun hnot => haway fun heq => hnot fun _ => heq⟩
  | finish t =>
    simp only [Contexts.step] at hstep
    split at hstep
    case isFalse => cases hstep
    rename_i hcond
    by_cases hsched : (s.executing t).scheduledOn t = true
    · obtain ⟨target, hside, hs⟩ := mainFuncEnd_switches hstep fun target hside =>
        (h.side_of_scheduled hsched hside).1
      obtain ⟨hhome, haway⟩ := h.leaves hsched hside hs
      exact ⟨fun hg => hhome (hg hsched), fun hnot => haway fun heq => hnot fun _ => heq⟩
    · have hroot := hcond.resolve_left hsched
      rw [hroot] at hstep
      have hg : homeward s (.finish t) := fun hs => absurd hs hsched
      exact ⟨fun _ => h.finishRoot hroot hstep, fun hnot => absurd hg hnot⟩
  | store f state =>
    refine ⟨fun _ => ?_, fun hnot => absurd trivial hnot⟩
    obtain ⟨x, hx, rfl⟩ := Option.map_eq_some_iff.mp hstep
    exact h.of_alike (alike_setFiber hx state)

theorem blank_switched : Switched none (blank : State τ) := by
  constructor <;> simp [blank, State.ctx, State.inScheduler, Ref.scheduledOn]

/-- The constructor with `use_caller`. -/
theorem start_switched (t : τ) : Switched (some t) (start (some t)) := by
  have hctx : ∀ f, (start (some t)).ctx f =
      if f = .root then some .root else if f = .main t then some (.main t) else none := by
    intro f
    simp only [start, State.getThis, blank, State.ctx, State.setFiber, State.setThis,
      Function.update_apply]
    split
    · rfl
    · split <;> rfl
  have hflag : (start (some t)).inScheduler .root = some false := by
    simp [start, State.inScheduler, State.setFiber]
  have htFiber : ∀ u, (start (some t)).tFiber u = if u = t then some (.main t) else none := by
    intro u
    simp only [start, State.getThis, blank, State.setFiber, State.setThis, Function.update_apply]
  have hsched : ∀ u, (start (some t)).schedulerFiber u = if u = t then some .root else none := by
    intro u
    simp only [start, State.getThis, blank, State.setFiber, State.setThis, Function.update_apply]
  have hthread : ∀ u, (start (some t)).threadFiber u = if u = t then some (.main t) else none := by
    intro u
    simp only [start, State.getThis, blank, State.setFiber, State.setThis, Function.update_apply]
  have hexec : ∀ u, (start (some t)).executing u = .main u := fun _ => rfl
  constructor
  · intro u f hu
    rw [htFiber] at hu
    split at hu
    · rename_i hut
      rw [hexec, hut]
      exact Option.some.inj hu
    · cases hu
  · intro u hu
    rw [htFiber] at hu
    split at hu
    · cases hu
    · rename_i hut
      refine ⟨hexec u, fun heq => hut (Option.some.inj heq).symm, ?_⟩
      rw [hsched, if_neg hut]
  · intro u f hu
    rw [htFiber] at hu
    rw [hthread]
    split at hu
    · rename_i hut
      rw [if_pos hut, hut]
    · cases hu
  · intro u f hu hne
    rw [htFiber] at hu
    split at hu
    · rename_i hut
      exact absurd (congrArg some hut.symm) hne
    · cases hu
  · intro u hu
    rw [hsched, if_pos (Option.some.inj hu).symm]
  · exact fun u => .inl (hexec u)
  · intro u hu
    rw [hexec] at hu
    cases hu
  · intro f g hf hg
    rw [hctx, if_neg (hf t)] at hg
    split at hg
    · rename_i hroot
      rw [hroot, Option.some.inj hg]
    · cases hg
  · exact fun u g hne => absurd (hexec u) hne
  · intro u g _ hu
    rw [hexec] at hu
    cases hu
  · intro b hb
    exact (Option.some.inj (hflag.symm.trans hb)).symm

/-- In every run in which task and idle fibers switch away only where the scheduling
fiber is the main fiber, on every thread `GetThis` returns the fiber whose context is
executing, and the next step keeps it so exactly if it is such a step: when a task
or idle fiber yields or ends on the caller thread, `t_fiber` becomes the main fiber
there while the root fiber goes on. -/
theorem tracks_iff (h : (system rootThread).Reachable homeward s) :
    s.Tracks ∧ ∀ a s', (system rootThread).step s a = some s' → (s'.Tracks ↔ homeward s a) := by
  have hs : Switched rootThread s := by
    refine TransitionSystem.Preserved.reachable ?_ ?_ h
    · exact fun s a s' hs hg hstep => (hs.step hstep).1 hg
    · rintro s rfl
      cases rootThread with
      | none => exact blank_switched
      | some t => exact start_switched t
  refine ⟨hs.tracks, fun a s' hstep => ?_⟩
  obtain ⟨hkeeps, hparts⟩ := hs.step hstep
  refine ⟨fun htracks => ?_, fun hg => (hkeeps hg).tracks⟩
  by_contra hnot
  exact hparts hnot htracks

/-! ## Concrete runs -/

instance (s : State τ) (a : Label τ) : Decidable (homeward s a) := by
  unfold homeward
  cases a <;> infer_instance

/-- Thread 0 uses the scheduler as caller, thread 1 is a worker: it runs a task to its
end, and the task of the caller thread goes on when the run ends. -/
def workerRun : List (Label Nat) :=
  [.construct (.made 0) true, .construct (.made 1) true, .enterRun 1, .resume 1 (.task (.made 0)),
    .stop 0, .yield 1, .enterRun 0, .resume 1 (.task (.made 0)), .resume 0 (.task (.made 1)),
    .finish 1, .resume 1 (.idle 1)]

theorem tracks_iff_workerRun :
    ∃ s : State Nat, (system (some 0)).Reachable homeward s ∧
      s.tFiber 0 = some (.task (.made 1)) ∧ s.executing 0 = .task (.made 1) ∧
      s.tFiber 1 = some (.idle 1) ∧ s.executing 1 = .idle 1 := by
  obtain ⟨s, hs, hp⟩ := TransitionSystem.Reachable.of_replay (T := system (some 0))
    (G := homeward) (g := fun s a => decide (homeward s a)) (fun _ _ h => of_decide_eq_true h)
    (l := workerRun)
    (p := fun s => s.tFiber 0 == some (.task (.made 1)) && s.tFiber 1 == some (.idle 1)) rfl
    (by decide)
  simp only [Bool.and_eq_true, beq_iff_eq] at hp
  have htracks := (tracks_iff hs).1
  exact ⟨s, hs, hp.1, (htracks 0).symm.trans (getThis_of_some hp.1), hp.2,
    (htracks 1).symm.trans (getThis_of_some hp.2)⟩

/-- The caller thread runs one task, which yields. -/
def callerRun : List (Label Nat) :=
  [.construct (.made 0) true, .stop 0, .enterRun 0, .resume 0 (.task (.made 0)), .yield 0]

/-- After the yield the root fiber executes `run`, and `GetThis` reports the main fiber. -/
theorem not_tracks_callerRun :
    ¬ ∀ s : State Nat, (system (some 0)).Reachable TransitionSystem.free s → s.Tracks := by
  intro hall
  obtain ⟨s, hs, hp⟩ := TransitionSystem.Reachable.of_replay (T := system (some 0))
    (G := TransitionSystem.free) (g := fun _ _ => true) (fun _ _ _ => trivial) (l := callerRun)
    (p := fun s => s.tFiber 0 == some (.main 0) && s.executing 0 == .root) rfl (by decide)
  simp only [Bool.and_eq_true, beq_iff_eq] at hp
  have hnow := (getThis_of_some hp.1).symm.trans (hall s hs 0)
  rw [hp.2] at hnow
  cases hnow

end Contexts
