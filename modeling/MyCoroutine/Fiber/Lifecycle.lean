-- SUMMARY: The life of fiber objects from constructor to destructor, over any memory they are constructed in, and what holds of them in every run.
import Mathlib.Data.List.Range
import MyCoroutine.Fiber
import MyCoroutine.Lib.Counting
import MyCoroutine.Lib.TransitionSystem

/-! # The life of a fiber

`Fiber()` and `Fiber(cb, ...)` write different members of the object, and the destructor
takes a fiber for a main fiber when its `m_stack` is null. The operations are called in any
order, on any thread and on any object that lives; `none` is a failed assertion, or a switch
through a null or dangling pointer. Of a context it matters here whether it is the entry of
`MainFunc`. Callbacks are of any type `κ`, and none that is handed in is empty. -/

namespace Lifecycle

variable {κ τ : Type}

/-! ## Objects -/

/-- What `m_ctx` holds. -/
inductive Ctx where
  /-- The entry of `MainFunc`, made by `makecontext`. -/
  | entry
  /-- What `getcontext` or `swapcontext` stored. -/
  | stored
  deriving DecidableEq

/-- The members of `Fiber`. -/
structure Object (κ : Type) where
  id : Nat
  stacksize : Nat
  state : Fiber.State
  ctx : Ctx
  /-- 0 is the null pointer. -/
  stack : Nat
  /-- `none` is the empty function. -/
  cb : Option κ
  runInScheduler : Bool

/-- `g_fiber_stack_size`. -/
def fiberStackSize : Nat := 128 * 1024

namespace Object

/-- `Fiber::Fiber()`, in memory that holds `mem`; it leaves `m_stack` and `m_runInScheduler`. -/
def mainFiber (mem : Object κ) (id : Nat) : Object κ :=
  { mem with id := id, stacksize := 0, state := .running, ctx := .stored, cb := none }

/-- `Fiber::Fiber(cb, stacksize, run_in_scheduler)`, in memory that holds `mem`; `stack` is
what `Alloc` returns. `m_stacksize` has 32 bits. -/
def taskFiber (mem : Object κ) (id : Nat) (cb : κ) (stacksize : Nat) (runInScheduler : Bool)
    (stack : Nat) : Object κ :=
  { mem with
    id := id
    stacksize := (if stacksize ≠ 0 then stacksize else fiberStackSize) % 0x100000000
    state := .ready
    ctx := .entry
    stack := stack
    cb := some cb
    runInScheduler := runInScheduler }

/-- `Fiber::~Fiber`: the stack that it gives to `Dealloc`, if any. -/
def destructor (x : Object κ) : Option (Option Nat) :=
  if x.stack ≠ 0 then
    if x.state = .term then some (some x.stack) else none
  else
    if x.cb = none ∧ x.state = .running then some none else none

end Object

/-- Which constructor made an object. -/
inductive Origin where
  | main
  /-- `Alloc` returned `stack`. -/
  | task (stack : Nat)
  deriving DecidableEq

/-- The stack that was allocated for the object. -/
def Origin.allocated : Origin → Option Nat
  | .main => none
  | .task stack => some stack

/-- An object, and what became of it. -/
structure Cell (κ : Type) where
  object : Object κ
  origin : Origin
  alive : Bool
  /-- The callback that `MainFunc` is in. -/
  running : Option κ
  /-- The callback of the last `reset`, up to the next `resume`. No step depends on it. -/
  awaits : Option κ

structure State (κ τ : Type) where
  /-- Every object constructed so far, in order; a pointer is a position. -/
  fibers : List (Cell κ)
  /-- `s_fiber_id`. -/
  fiberId : Nat
  /-- `s_fiber_count`. -/
  fiberCount : Nat
  /-- `t_fiber` of each thread. -/
  tFiber : τ → Option Nat
  /-- `t_thread_fiber` of each thread. -/
  threadFiber : τ → Option Nat
  /-- `t_scheduler_fiber` of each thread. -/
  schedulerFiber : τ → Option Nat
  /-- For each `resume` after a `reset`: the callback of the `reset`, and the one that
  `MainFunc` begins. No step reads it. -/
  restarts : List (κ × Option κ)

/-! ## Operations -/

namespace State

/-- What a pointer leads to. -/
def live (s : State κ τ) (f : Nat) : Option (Cell κ) :=
  (s.fibers[f]?).filter Cell.alive

def set (s : State κ τ) (f : Nat) (x : Cell κ) : State κ τ :=
  { s with fibers := s.fibers.set f x }

/-- The part that the constructors share. -/
def construct (s : State κ τ) (x : Object κ) (origin : Origin) : State κ τ :=
  { s with
    fibers := s.fibers ++ [⟨x, origin, true, none, none⟩]
    fiberId := Counting.succ64 s.fiberId
    fiberCount := Counting.succ64 s.fiberCount }

variable [DecidableEq τ]

/-- `Fiber::SetThis`. -/
def setThis (s : State κ τ) (t : τ) (f : Option Nat) : State κ τ :=
  { s with tFiber := Function.update s.tFiber t f }

/-- `Fiber::GetThis` on a thread without a fiber. -/
def getThis (s : State κ τ) (t : τ) (mem : Object κ) : Option (State κ τ) :=
  match s.tFiber t with
  | some _ => none
  | none =>
    let f := s.fibers.length
    let s := (s.construct (.mainFiber mem s.fiberId) .main).setThis t (some f)
    some { s with threadFiber := Function.update s.threadFiber t (some f) }

omit [DecidableEq τ] in
/-- The other side of a switch of `x`. -/
def side (s : State κ τ) (t : τ) (x : Object κ) : Option Nat :=
  if x.runInScheduler then s.schedulerFiber t else s.threadFiber t

omit [DecidableEq τ] in
/-- `swapcontext` stores the execution into `m_ctx` of `f`. -/
def store (s : State κ τ) (f : Nat) : Option (State κ τ) :=
  (s.live f).map fun x => s.set f { x with object := { x.object with ctx := .stored } }

/-- `Fiber::resume`, on thread `t`. -/
def resume (s : State κ τ) (t : τ) (f : Nat) : Option (State κ τ) := do
  let x ← s.live f
  if x.object.state ≠ .term ∧ x.object.state ≠ .running then
    let s := (s.setThis t (some f)).set f
      { x with object := { x.object with state := .running }, awaits := none }
    let side ← s.side t x.object
    let s ← s.store side
    let y ← s.live f
    -- `MainFunc` calls `m_cb` of the fiber that `GetThis` finds in `t_fiber`
    let began := if y.object.ctx = .entry then y.object.cb else none
    let s := s.set f { y with running := if y.object.ctx = .entry then began else y.running }
    return { s with restarts := s.restarts ++ x.awaits.toList.map fun cb => (cb, began) }
  else none

/-- `Fiber::yield`, on thread `t`. -/
def yield (s : State κ τ) (t : τ) (f : Nat) : Option (State κ τ) := do
  let x ← s.live f
  if x.object.state = .running ∨ x.object.state = .term then
    let state := if x.object.state ≠ .term then .ready else x.object.state
    let s := s.setThis t (s.threadFiber t)
    let side ← s.side t x.object
    let _ ← s.live side
    return s.set f { x with object := { x.object with state := state, ctx := .stored } }
  else none

/-- The callback of `f` has returned, on thread `t`: the end of `Fiber::MainFunc`. -/
def finish (s : State κ τ) (t : τ) (f : Nat) : Option (State κ τ) := do
  let x ← s.live f
  if x.running.isSome then
    let object := { x.object with cb := none, state := .term }
    (s.set f { x with object := object, running := none }).yield t f
  else none

omit [DecidableEq τ] in
/-- `Fiber::reset`. -/
def reset (s : State κ τ) (f : Nat) (cb : κ) : Option (State κ τ) := do
  let x ← s.live f
  if x.object.stack ≠ 0 ∧ x.object.state = .term then
    let object := { x.object with cb := some cb, ctx := .entry, state := .ready }
    return s.set f { x with object := object, awaits := some cb }
  else none

/-- `delete`, on thread `t`. -/
def destroy (s : State κ τ) (t : τ) (f : Nat) : Option (State κ τ) := do
  let x ← s.live f
  let _ ← x.object.destructor
  let s := { s.set f { x with alive := false } with fiberCount := Counting.pred64 s.fiberCount }
  return if x.object.stack = 0 ∧ s.tFiber t = some f then s.setThis t none else s

end State

/-! ## The system -/

inductive Label (κ τ : Type) where
  /-- The first `GetThis` of a thread, in memory that holds `mem`. -/
  | getThis (t : τ) (mem : Object κ)
  /-- A task fiber is constructed; `Alloc` returns `stack`. -/
  | create (cb : κ) (stacksize : Nat) (runInScheduler : Bool) (stack : Nat) (mem : Object κ)
  /-- The scheduler sets `t_scheduler_fiber`. -/
  | setScheduler (t : τ) (f : Nat)
  | resume (t : τ) (f : Nat)
  | yield (t : τ) (f : Nat)
  | finish (t : τ) (f : Nat)
  | reset (f : Nat) (cb : κ)
  | destroy (t : τ) (f : Nat)

variable [DecidableEq τ]

def step (s : State κ τ) : Label κ τ → Option (State κ τ)
  | .getThis t mem => s.getThis t mem
  | .create cb stacksize runInScheduler stack mem =>
    some (s.construct (.taskFiber mem s.fiberId cb stacksize runInScheduler stack) (.task stack))
  | .setScheduler t f =>
    some { s with schedulerFiber := Function.update s.schedulerFiber t (some f) }
  | .resume t f => s.resume t f
  | .yield t f => s.yield t f
  | .finish t f => s.finish t f
  | .reset f cb => s.reset f cb
  | .destroy t f => s.destroy t f

omit [DecidableEq τ] in
/-- The process starts. -/
def start : State κ τ where
  fibers := []
  fiberId := 0
  fiberCount := 0
  tFiber := fun _ => none
  threadFiber := fun _ => none
  schedulerFiber := fun _ => none
  restarts := []

def system (κ τ : Type) [DecidableEq τ] : TransitionSystem (State κ τ) (Label κ τ) where
  init s := s = start
  step := step

/-! ## The property -/

/-- Ids are distinct and the live objects are counted; a task fiber has no callback exactly
when it is `TERM`, and one that was reset begins its new callback; the destructor releases
the stack that was allocated for the object and no other, and does not fail on a main fiber
that is `RUNNING`. -/
structure State.Holds (s : State κ τ) : Prop where
  ids : (s.fibers.map fun x => x.object.id).Nodup
  count : s.fiberCount = s.fibers.countP Cell.alive
  callback : ∀ x ∈ s.fibers, x.alive = true → x.origin ≠ .main →
    (x.object.cb = none ↔ x.object.state = .term)
  restarts : ∀ r ∈ s.restarts, r.2 = some r.1
  stack : ∀ x ∈ s.fibers, x.alive = true → ∀ released, x.object.destructor = some released →
    released = x.origin.allocated
  main : ∀ x ∈ s.fibers, x.alive = true → x.origin = .main → x.object.state = .running →
    x.object.destructor = some none

/-- The counters have room for one more object. -/
def State.Room (s : State κ τ) : Prop :=
  s.fibers.length < 0x10000000000000000 ∧
    s.fibers.countP Cell.alive + 1 < 0x10000000000000000

/-- A main fiber is constructed where `m_stack` happens to be null; the counters do not wrap;
and `resume` does not store into the context of a fiber that was reset and not resumed since. -/
def given (s : State κ τ) : Label κ τ → Prop
  | .getThis _ mem => mem.stack = 0 ∧ s.Room
  | .create _ _ _ _ _ => s.Room
  | .resume t f => ∀ x ∈ s.live f, ∀ side ∈ s.side t x.object, ∀ y ∈ s.live side, y.awaits = none
  | .setScheduler _ _ | .yield _ _ | .finish _ _ | .reset _ _ | .destroy _ _ => True

/-! ## The invariant -/

/-- What holds of an object from its constructor on. -/
structure Cell.Sound (x : Cell κ) : Prop where
  main : x.origin = .main → x.object.stack = 0 ∧ x.object.cb = none ∧ x.running = none ∧
    x.object.ctx = .stored
  task : ∀ stack, x.origin = .task stack → x.object.stack = stack ∧
    (x.object.cb = none ↔ x.object.state = .term)
  term : x.object.state = .term → x.running = none
  awaits : ∀ cb, x.awaits = some cb → x.object.ctx = .entry ∧ x.object.cb = some cb ∧
    x.object.state = .ready ∧ x.running = none

/-- What holds in every run. -/
structure State.Sound (s : State κ τ) : Prop where
  cells : ∀ (f : Nat) (x : Cell κ), s.fibers[f]? = some x → x.Sound ∧ x.object.id = f
  fiberId : s.fiberId = s.fibers.length % 0x10000000000000000
  fiberCount : s.fiberCount = s.fibers.countP Cell.alive
  restarts : ∀ r ∈ s.restarts, r.2 = some r.1

/-! ## One object -/

section

variable {x : Cell κ}

theorem Cell.Sound.origin_ne_main (h : x.Sound) (hstack : x.object.stack ≠ 0) :
    x.origin ≠ .main := fun hmain => hstack (h.main hmain).1

/-- The destructor tells the two kinds of fibers apart by `m_stack`. -/
theorem Cell.Sound.destructor (h : x.Sound) {released : Option Nat}
    (hd : x.object.destructor = some released) : released = x.origin.allocated := by
  unfold Object.destructor at hd
  cases horigin : x.origin with
  | main =>
    rw [if_neg (not_not_intro (h.main horigin).1)] at hd
    split at hd
    · exact (Option.some.inj hd).symm
    · cases hd
  | task stack =>
    obtain ⟨hstack, hterm⟩ := h.task stack horigin
    split at hd
    · split at hd
      · rw [← Option.some.inj hd, hstack]
        rfl
      · cases hd
    · split at hd
      · rename_i hmain
        -- without a callback the fiber is `TERM`
        rw [hterm.mp hmain.1] at hmain
        cases hmain.2
      · cases hd

theorem Cell.Sound.destructor_main (h : x.Sound) (horigin : x.origin = .main)
    (hrunning : x.object.state = .running) : x.object.destructor = some none := by
  obtain ⟨hstack, hcb, -⟩ := h.main horigin
  rw [Object.destructor, if_neg (not_not_intro hstack), if_pos ⟨hcb, hrunning⟩]

/-- A context that is stored goes to no fiber that was reset. -/
theorem Cell.Sound.store (h : x.Sound) (hawaits : x.awaits = none) :
    Cell.Sound { x with object := { x.object with ctx := .stored } } where
  main hmain := ⟨(h.main hmain).1, (h.main hmain).2.1, (h.main hmain).2.2.1, rfl⟩
  task := h.task
  term := h.term
  awaits cb hcb := by
    rw [hawaits] at hcb
    cases hcb

theorem Cell.Sound.resumed (h : x.Sound) (hterm : x.object.state ≠ .term) :
    Cell.Sound { x with object := { x.object with state := .running }, awaits := none } where
  main := h.main
  task stack horigin := by
    obtain ⟨hstack, hcb⟩ := h.task stack horigin
    exact ⟨hstack, iff_of_false (fun hnone => hterm (hcb.mp hnone)) nofun⟩
  term := nofun
  awaits := nofun

/-- `MainFunc` begins, or the execution that was stored goes on. -/
theorem Cell.Sound.switched (h : x.Sound) (hrunning : x.object.state = .running)
    (began : Option κ) :
    Cell.Sound { x with running := if x.object.ctx = .entry then began else x.running } where
  main hmain := by
    obtain ⟨hstack, hcb, hrun, hctx⟩ := h.main hmain
    refine ⟨hstack, hcb, ?_, hctx⟩
    rw [hctx]
    exact hrun
  task := h.task
  term hterm := by
    rw [hrunning] at hterm
    cases hterm
  awaits cb hcb := by
    have hready := (h.awaits cb hcb).2.2.1
    rw [hrunning] at hready
    cases hready

theorem Cell.Sound.yielded (h : x.Sound)
    (hstate : x.object.state = .running ∨ x.object.state = .term) :
    Cell.Sound { x with
      object := { x.object with
        state := if x.object.state ≠ .term then .ready else x.object.state
        ctx := .stored } } := by
  have hnone : x.awaits = none := by
    refine Option.eq_none_iff_forall_ne_some.mpr fun cb hcb => ?_
    have hready := (h.awaits cb hcb).2.2.1
    rcases hstate with hstate | hstate <;> rw [hready] at hstate <;> cases hstate
  have hterm : (if x.object.state ≠ .term then Fiber.State.ready else x.object.state) = .term ↔
      x.object.state = .term := by
    split
    · rename_i hne
      exact iff_of_false nofun hne
    · exact Iff.rfl
  constructor
  · exact fun hmain => ⟨(h.main hmain).1, (h.main hmain).2.1, (h.main hmain).2.2.1, rfl⟩
  · exact fun stack horigin => ⟨(h.task stack horigin).1, (h.task stack horigin).2.trans hterm.symm⟩
  · exact fun hover => h.term (hterm.mp hover)
  · intro cb hcb
    rw [hnone] at hcb
    cases hcb

theorem Cell.Sound.finished (h : x.Sound) (hrunning : x.running.isSome = true) :
    Cell.Sound { x with
      object := { x.object with cb := none, state := .term }
      running := none } where
  main hmain := by
    rw [(h.main hmain).2.2.1] at hrunning
    cases hrunning
  task stack horigin := ⟨(h.task stack horigin).1, iff_of_true rfl rfl⟩
  term _ := rfl
  awaits cb hcb := by
    rw [(h.awaits cb hcb).2.2.2] at hrunning
    cases hrunning

theorem Cell.Sound.reset (h : x.Sound) (hstack : x.object.stack ≠ 0)
    (hterm : x.object.state = .term) (cb : κ) :
    Cell.Sound { x with
      object := { x.object with cb := some cb, ctx := .entry, state := .ready }
      awaits := some cb } where
  main hmain := absurd hmain (h.origin_ne_main hstack)
  task stack horigin := ⟨(h.task stack horigin).1, iff_of_false nofun nofun⟩
  term := nofun
  awaits _ hcb := ⟨rfl, hcb, rfl, h.term hterm⟩

theorem Cell.Sound.main_of_null {mem : Object κ} (hnull : mem.stack = 0) (id : Nat) :
    Cell.Sound ⟨.mainFiber mem id, .main, true, none, none⟩ where
  main _ := ⟨hnull, rfl, rfl, rfl⟩
  task := nofun
  term := nofun
  awaits := nofun

theorem Cell.Sound.new_task (mem : Object κ) (id : Nat) (cb : κ) (stacksize : Nat)
    (runInScheduler : Bool) (stack : Nat) :
    Cell.Sound ⟨.taskFiber mem id cb stacksize runInScheduler stack, .task stack, true, none,
      none⟩ where
  main := nofun
  task _ horigin := ⟨Origin.task.inj horigin, iff_of_false nofun nofun⟩
  term := nofun
  awaits := nofun

end

/-! ## The heap -/

namespace State

variable {s s' : State κ τ} {f g : Nat} {x y : Cell κ} {t : τ}

omit [DecidableEq τ] in
theorem live_eq_some : s.live f = some x ↔ s.fibers[f]? = some x ∧ x.alive = true := by
  rw [live, Option.filter_eq_some_iff]

omit [DecidableEq τ] in
theorem fibers_set (hx : s.live f = some x) (y : Cell κ) (g : Nat) :
    (s.set f y).fibers[g]? = if g = f then some y else s.fibers[g]? := by
  have hlt := (List.getElem?_eq_some_iff.mp (live_eq_some.mp hx).1).1
  rw [set, List.getElem?_set]
  split
  · rename_i hfg
    rw [if_pos hfg.symm]
  · rename_i hfg
    rw [if_neg (Ne.symm hfg)]

omit [DecidableEq τ] in
theorem live_set_self (hx : s.live f = some x) (y : Cell κ) (halive : y.alive = true) :
    (s.set f y).live f = some y := by
  rw [live_eq_some, fibers_set hx, if_pos rfl]
  exact ⟨rfl, halive⟩

omit [DecidableEq τ] in
theorem live_set_of_ne (hx : s.live f = some x) (hgf : g ≠ f) : (s.set f y).live g = s.live g := by
  rw [live, fibers_set hx, if_neg hgf, live]

omit [DecidableEq τ] in
theorem Sound.live (h : s.Sound) (hx : s.live f = some x) : x.Sound :=
  (h.cells f x (live_eq_some.mp hx).1).1

omit [DecidableEq τ] in
theorem fiberId_set (h : s.Sound) (f : Nat) (y : Cell κ) :
    s.fiberId = (s.set f y).fibers.length % 0x10000000000000000 := by
  rw [h.fiberId, State.set, List.length_set]

omit [DecidableEq τ] in
theorem Sound.cells_set (h : s.Sound) (hx : s.live f = some x) (hy : y.Sound)
    (hid : y.object.id = x.object.id) (z : Cell κ) (hz : (s.set f y).fibers[g]? = some z) :
    z.Sound ∧ z.object.id = g := by
  rw [fibers_set hx] at hz
  split at hz
  · rename_i hgf
    cases hz
    exact ⟨hy, hid.trans ((h.cells f x (live_eq_some.mp hx).1).2.trans hgf.symm)⟩
  · exact h.cells g z hz

omit [DecidableEq τ] in
/-- An object that lives counts for one until it is destroyed. -/
theorem countP_set (hx : s.live f = some x) (y : Cell κ) :
    (s.set f y).fibers.countP Cell.alive + 1 =
      s.fibers.countP Cell.alive + if y.alive then 1 else 0 := by
  obtain ⟨hf, hlive⟩ := live_eq_some.mp hx
  obtain ⟨hlt, hget⟩ := List.getElem?_eq_some_iff.mp hf
  have hpos : 0 < s.fibers.countP Cell.alive :=
    List.countP_pos_iff.mpr ⟨x, List.mem_of_getElem? hf, hlive⟩
  rw [set, List.countP_set hlt, hget, if_pos hlive]
  omega

omit [DecidableEq τ] in
/-- An object that goes on living changes. -/
theorem Sound.set (h : s.Sound) (hx : s.live f = some x) (hy : y.Sound)
    (hid : y.object.id = x.object.id) (halive : y.alive = true) : (s.set f y).Sound := by
  refine ⟨fun g z hz => h.cells_set hx hy hid z hz, fiberId_set h f y, ?_, h.restarts⟩
  have hcount := countP_set hx y
  rw [if_pos halive] at hcount
  exact h.fiberCount.trans (Nat.succ.inj hcount).symm

/-- The pointers of the threads do not matter. -/
theorem Sound.setThis (h : s.Sound) (t : τ) (f : Option Nat) : (s.setThis t f).Sound :=
  ⟨h.cells, h.fiberId, h.fiberCount, h.restarts⟩

omit [DecidableEq τ] in
theorem Sound.construct (h : s.Sound) (hroom : s.Room) {x : Object κ} {origin : Origin}
    (hx : Cell.Sound ⟨x, origin, true, none, none⟩) (hid : x.id = s.fiberId) :
    (s.construct x origin).Sound := by
  refine ⟨fun g z hz => ?_, ?_, ?_, h.restarts⟩
  · simp only [State.construct, List.getElem?_append] at hz
    split at hz
    · exact h.cells g z hz
    · rename_i hge
      have hindex : g - s.fibers.length < 1 := (List.getElem?_eq_some_iff.mp hz).1
      obtain rfl := List.mem_singleton.mp (List.mem_of_getElem? hz)
      refine ⟨hx, hid.trans ?_⟩
      rw [h.fiberId, Nat.mod_eq_of_lt hroom.1]
      omega
  · simp [State.construct, Counting.succ64, h.fiberId]
  · have hcount : (s.construct x origin).fibers.countP Cell.alive =
        s.fibers.countP Cell.alive + 1 := by simp [State.construct]
    rw [hcount]
    change Counting.succ64 s.fiberCount = _
    rw [h.fiberCount, Counting.succ64_of_lt hroom.2]

/-! ## Every operation -/

theorem Sound.getThis (h : s.Sound) (hroom : s.Room) {mem : Object κ} (hnull : mem.stack = 0)
    (hop : s.getThis t mem = some s') : s'.Sound := by
  unfold State.getThis at hop
  split at hop
  · cases hop
  · cases hop
    have hmade := h.construct hroom (Cell.Sound.main_of_null hnull s.fiberId) rfl
    exact ⟨hmade.cells, hmade.fiberId, hmade.fiberCount, hmade.restarts⟩

omit [DecidableEq τ] in
theorem Sound.store (h : s.Sound) (hawaits : ∀ x, s.live f = some x → x.awaits = none)
    (hop : s.store f = some s') : s'.Sound := by
  obtain ⟨x, hx, rfl⟩ := Option.map_eq_some_iff.mp hop
  exact h.set hx ((h.live hx).store (hawaits x hx)) rfl (live_eq_some.mp hx).2

omit [DecidableEq τ] in
/-- `swapcontext` changes `m_ctx` on the side that it leaves, and nothing else. -/
theorem live_store (hx : s.live f = some x) (hop : s.store g = some s')
    (hy : s'.live f = some y) :
    y.object.state = x.object.state ∧ y.object.cb = x.object.cb ∧ (g ≠ f → y = x) := by
  obtain ⟨z, hz, rfl⟩ := Option.map_eq_some_iff.mp hop
  rcases eq_or_ne f g with rfl | hfg
  · cases hx.symm.trans hz
    rw [live_set_self hz { x with object := { x.object with ctx := .stored } }
      (live_eq_some.mp hz).2] at hy
    cases hy
    exact ⟨rfl, rfl, fun hne => absurd rfl hne⟩
  · cases hx.symm.trans ((live_set_of_ne hz hfg).symm.trans hy)
    exact ⟨rfl, rfl, fun _ => rfl⟩

/-- A fiber that was reset has the entry of `MainFunc` in its context when it is resumed. -/
theorem Sound.resume (h : s.Sound) (hg : given s (.resume t f)) (hop : s.resume t f = some s') :
    s'.Sound := by
  obtain ⟨x, hx, hop⟩ := Option.bind_eq_some_iff.mp hop
  split at hop
  case isFalse => cases hop
  rename_i hstate
  obtain ⟨side, hside, hop⟩ := Option.bind_eq_some_iff.mp hop
  obtain ⟨s₂, hstore, hop⟩ := Option.bind_eq_some_iff.mp hop
  obtain ⟨y, hy, hop⟩ := Option.bind_eq_some_iff.mp hop
  cases hop
  have hlive := (live_eq_some.mp hx).2
  have hfree (z : Cell κ) (hz : s.live side = some z) : z.awaits = none := hg x hx side hside z hz
  have hsound₁ := (h.setThis t (some f)).set hx ((h.live hx).resumed hstate.1) rfl hlive
  have hx₁ := live_set_self (s := s.setThis t (some f)) hx
    { x with object := { x.object with state := .running }, awaits := none } hlive
  have hsound₂ : s₂.Sound := by
    refine hsound₁.store (fun z hz => ?_) hstore
    rcases eq_or_ne side f with rfl | hne
    · cases hx₁.symm.trans hz
      rfl
    · rw [live_set_of_ne (s := s.setThis t (some f)) hx hne] at hz
      exact hfree z hz
  obtain ⟨hrunning, hcb, hsame⟩ := live_store hx₁ hstore hy
  have hsound₃ := hsound₂.set hy ((hsound₂.live hy).switched hrunning
    (if y.object.ctx = .entry then y.object.cb else none)) rfl (live_eq_some.mp hy).2
  refine ⟨hsound₃.cells, hsound₃.fiberId, hsound₃.fiberCount, fun r hr => ?_⟩
  rcases List.mem_append.mp hr with hold | hnew
  · exact hsound₃.restarts r hold
  · obtain ⟨cb, hawaits, rfl⟩ := List.mem_map.mp hnew
    obtain ⟨hentry, hxcb, -⟩ := (h.live hx).awaits cb (Option.mem_toList.mp hawaits)
    -- the switch does not store into the context that it is about to take
    have hne : side ≠ f := by
      rintro rfl
      rw [hfree x hx] at hawaits
      cases hawaits
    obtain rfl := hsame hne
    exact (if_pos hentry).trans hxcb

theorem Sound.yield (h : s.Sound) (hop : s.yield t f = some s') : s'.Sound := by
  obtain ⟨x, hx, hop⟩ := Option.bind_eq_some_iff.mp hop
  split at hop
  · rename_i hstate
    obtain ⟨side, -, hop⟩ := Option.bind_eq_some_iff.mp hop
    obtain ⟨y, -, hop⟩ := Option.bind_eq_some_iff.mp hop
    cases hop
    exact (h.setThis t (s.threadFiber t)).set hx ((h.live hx).yielded hstate) rfl
      (live_eq_some.mp hx).2
  · cases hop

theorem Sound.finish (h : s.Sound) (hop : s.finish t f = some s') : s'.Sound := by
  obtain ⟨x, hx, hop⟩ := Option.bind_eq_some_iff.mp hop
  split at hop
  · rename_i hrunning
    exact (h.set hx ((h.live hx).finished hrunning) rfl (live_eq_some.mp hx).2).yield hop
  · cases hop

omit [DecidableEq τ] in
theorem Sound.reset (h : s.Sound) {cb : κ} (hop : s.reset f cb = some s') : s'.Sound := by
  obtain ⟨x, hx, hop⟩ := Option.bind_eq_some_iff.mp hop
  split at hop
  · rename_i hmay
    cases hop
    exact h.set hx ((h.live hx).reset hmay.1 hmay.2 cb) rfl (live_eq_some.mp hx).2
  · cases hop

theorem Sound.destroy (h : s.Sound) (hop : s.destroy t f = some s') : s'.Sound := by
  obtain ⟨x, hx, hop⟩ := Option.bind_eq_some_iff.mp hop
  obtain ⟨released, -, hop⟩ := Option.bind_eq_some_iff.mp hop
  have hsound := h.live hx
  have hdead : Cell.Sound { x with alive := false } :=
    ⟨hsound.main, hsound.task, hsound.term, hsound.awaits⟩
  have hgone : State.Sound { s.set f { x with alive := false } with
      fiberCount := Counting.pred64 s.fiberCount } := by
    refine ⟨fun g z hz => h.cells_set hx hdead rfl z hz, fiberId_set h f _, ?_, h.restarts⟩
    have hcount := h.fiberCount.trans (countP_set hx { x with alive := false }).symm
    exact (congrArg Counting.pred64 hcount).trans (Counting.pred64_succ _)
  simp only [Option.pure_def, Option.some.injEq] at hop
  split at hop
  · rw [← hop]
    exact hgone.setThis t none
  · rw [← hop]
    exact hgone

end State

/-! ## Every run -/

variable {s s' : State κ τ} {l : Label κ τ}

theorem State.Sound.step (h : s.Sound) (hg : given s l) (hstep : step s l = some s') :
    s'.Sound := by
  cases l with
  | getThis t mem => exact h.getThis hg.2 hg.1 hstep
  | create cb stacksize runInScheduler stack mem =>
    cases hstep
    exact h.construct hg (.new_task mem s.fiberId cb stacksize runInScheduler stack) rfl
  | setScheduler t f =>
    cases hstep
    exact ⟨h.cells, h.fiberId, h.fiberCount, h.restarts⟩
  | resume t f => exact h.resume hg hstep
  | yield t f => exact h.yield hstep
  | finish t f => exact h.finish hstep
  | reset f cb => exact h.reset hstep
  | destroy t f => exact h.destroy hstep

omit [DecidableEq τ] in
theorem State.Sound.holds (h : s.Sound) : s.Holds := by
  have hcell {x : Cell κ} (hx : x ∈ s.fibers) : x.Sound := by
    obtain ⟨f, hf⟩ := List.mem_iff_getElem?.mp hx
    exact (h.cells f x hf).1
  constructor
  · have hids : (s.fibers.map fun x => x.object.id) = List.range s.fibers.length := by
      refine List.ext_getElem (by simp) fun f hf _ => ?_
      rw [List.length_map] at hf
      rw [List.getElem_map, List.getElem_range]
      exact (h.cells f _ (List.getElem?_eq_getElem hf)).2
    rw [hids]
    exact List.nodup_range
  · exact h.fiberCount
  · intro x hx _ horigin
    cases hkind : x.origin with
    | main => exact absurd hkind horigin
    | task stack => exact ((hcell hx).task stack hkind).2
  · exact h.restarts
  · exact fun x hx _ released hd => (hcell hx).destructor hd
  · exact fun x hx _ horigin hrunning => (hcell hx).destructor_main horigin hrunning

/-- In every run in which main fibers are constructed where `m_stack` is null, the counters do
not wrap and no `resume` stores into the context of a fiber that was reset, the objects are
what they were constructed as. -/
theorem holds_of_reachable (h : (system κ τ).Reachable given s) : s.Holds := by
  have hsound : s.Sound := by
    refine TransitionSystem.Preserved.reachable (I := State.Sound) ?_ ?_ h
    · exact fun _ _ _ hs hg hstep => hs.step hg hstep
    · rintro s rfl
      exact ⟨nofun, rfl, rfl, nofun⟩
  exact hsound.holds

/-! ## A main fiber that is taken for a task fiber -/

/-- Memory whose bytes at `m_stack` read as `stack`. -/
def memory (stack : Nat) : Object Nat where
  id := 5
  stacksize := 5
  state := .term
  ctx := .stored
  stack := stack
  cb := some 5
  runInScheduler := true

instance (s : State Nat Nat) : DecidablePred (given s)
  | .getThis _ mem => inferInstanceAs (Decidable (mem.stack = 0 ∧ _ ∧ _))
  | .create _ _ _ _ _ => inferInstanceAs (Decidable (_ ∧ _))
  | .resume t f => inferInstanceAs (Decidable (∀ x ∈ s.live f, ∀ side ∈ s.side t x.object,
      ∀ y ∈ s.live side, y.awaits = none))
  | .setScheduler _ _ | .yield _ _ | .finish _ _ | .reset _ _ | .destroy _ _ => .isTrue trivial

/-- A task fiber yields, ends, is reset, ends again and is destroyed, and so is the main fiber. -/
def lifeRun : List (Label Nat Nat) :=
  [.getThis 0 (memory 0), .create 7 0 false 64 (memory 9), .resume 0 1, .yield 0 1, .resume 0 1,
    .finish 0 1, .reset 1 8, .resume 0 1, .finish 0 1, .destroy 0 1, .destroy 0 0]

theorem holds_of_reachable_lifeRun :
    ∃ s, (system Nat Nat).Reachable given s ∧ s.fibers.length = 2 ∧ s.fiberCount = 0 ∧
      s.restarts = [(8, some 8)] ∧ s.Holds := by
  obtain ⟨s, hs, hp⟩ := TransitionSystem.Reachable.of_replay (T := system Nat Nat) (G := given)
    (g := fun s a => decide (given s a)) (fun _ _ => of_decide_eq_true) (l := lifeRun)
    (p := fun s => s.fibers.length == 2 && s.fiberCount == 0 && s.restarts == [(8, some 8)])
    rfl (by decide)
  simp only [Bool.and_eq_true, beq_iff_eq] at hp
  obtain ⟨⟨hlength, hcount⟩, hrestarts⟩ := hp
  exact ⟨s, hs, hlength, hcount, hrestarts, holds_of_reachable hs⟩

/-- A main fiber in memory that is not null at `m_stack` is not destroyed. -/
theorem not_holds_memory :
    ¬ ∀ s : State Nat Nat, (system Nat Nat).Reachable TransitionSystem.free s → s.Holds := by
  intro hall
  obtain ⟨s, hs, hp⟩ := TransitionSystem.Reachable.of_replay (T := system Nat Nat)
    (G := TransitionSystem.free) (g := fun _ _ => true) (fun _ _ _ => trivial)
    (l := [.getThis 0 (memory 9)])
    (p := fun s => s.fibers.any fun x => x.alive && x.origin == .main &&
      x.object.state == .running && x.object.destructor == none) rfl (by decide)
  obtain ⟨x, hx, hp⟩ := List.any_eq_true.mp hp
  simp only [Bool.and_eq_true, beq_iff_eq] at hp
  obtain ⟨⟨⟨halive, horigin⟩, hrunning⟩, hfails⟩ := hp
  rw [(hall s hs).main x hx halive horigin hrunning] at hfails
  cases hfails

end Lifecycle
