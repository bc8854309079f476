-- SUMMARY: Who keeps a fiber alive: the use counts of Fiber::ptr over runs of the scheduler, when the destructor of a fiber runs, and which fibers it never runs for.
import MyCoroutine.Lib.SharedPtr
import MyCoroutine.Scheduler.YieldRace

/-! # The owners of fibers

A `Fiber::ptr` is in the queue, in `task` or `cb_fiber` of a thread in `run`, in an
`EventContext`, in the hands of user code (arguments of calls and callbacks of timers
included), and in `cur` of `MainFunc`: a fiber that is inside its callback keeps itself
alive from its own stack. The steps are those of the scheduler, each with what it does to
the pointers, and the steps of the other owners. Main fibers and the idle fibers, which
their thread keeps while it is in `run`, are left out. -/

namespace Ownership

open Counting Scheduler TransitionSystem
open scoped List

variable {τ : Type}

/-! ## States -/

/-- The fiber that `task` or `cb_fiber` of a thread in `run` points to. -/
def refers : Pc τ → Option FiberId
  | .took e => e.task.fiber
  | .exec _ f | .saving _ f => some f
  | .returned e => TaskEntry.runsOn e
  | .scan | .idle | .left => none

structure State (τ : Type) where
  sched : Scheduler.State τ
  /-- The fiber objects; the destructor finds `m_state`. -/
  object : FiberId → SharedPtr.Object Fiber.State
  /-- `cur` of each fiber inside `MainFunc`. -/
  curs : List FiberId
  /-- `EventContext::fiber` of the registered events. -/
  waiting : List FiberId
  /-- The pointers in the hands of others. -/
  handles : List FiberId
  /-- The fiber was resumed. No step reads it. -/
  started : FiberId → Bool
  /-- The fiber whose destructor failed its assertion. -/
  failed : Option FiberId

inductive Label (τ : Type) where
  /-- `new Fiber(cb)` in user code. -/
  | make (n : Nat)
  | copy (f : FiberId)
  | drop (f : FiberId)
  /-- `Fiber::GetThis()` in the fiber that `t` executes. -/
  | getThis (t : τ)
  /-- `addEvent` without a callback, in the fiber that `t` executes. -/
  | addEvent (t : τ)
  /-- `triggerEvent` on the event context number `i`. -/
  | triggerEvent (i : Nat)
  /-- `delEvent` on the event context number `i`. -/
  | delEvent (i : Nat)
  | sched (a : Scheduler.Label τ)
  deriving DecidableEq

namespace State

def retain (s : State τ) (f : FiberId) : Option (State τ) :=
  (SharedPtr.retain s.object f).map fun object => { s with object := object }

/-- A pointer is dropped; with the last one, `Fiber::~Fiber` asserts `m_state == TERM`. -/
def release (s : State τ) (f : FiberId) : Option (State τ) :=
  let state := s.sched.fiberState f
  (SharedPtr.release s.object f state).map fun object =>
    { s with
      object := object
      failed := if object f = .destroyed state ∧ state ≠ .term then some f else s.failed }

def addHandle (s : State τ) (f : FiberId) : State τ :=
  { s with handles := f :: s.handles }

/-- The entry of `MainFunc` takes `cur`; a fiber that was suspended goes on with the one it has. -/
def mainFunc (s : State τ) (f : FiberId) : Option (State τ) :=
  if f ∈ s.curs then some s
  else (s.retain f).map fun s =>
    { s with curs := f :: s.curs, started := Function.update s.started f true }

/-- `cb_fiber.reset(new Fiber(task.cb))`, for a callback. -/
def makeCbFiber (s : State τ) (e : TaskEntry τ) (f : FiberId) : Option (State τ) :=
  if e.task.fiber.isSome then some s
  else (SharedPtr.make s.object f).map fun object => { s with object := object }

/-- What the step `a` of the scheduler, which leads to `sched`, does to the pointers. -/
def follow (s : State τ) (a : Scheduler.Label τ) (sched : Scheduler.State τ) : Option (State τ) :=
  let s' := { s with sched := sched }
  match a with
  | .schedule _ task =>
    -- the argument is a pointer that the caller has
    match task.fiber with
    | none => some s'
    | some f => if f ∈ s.handles then s'.retain f else none
  | .resume t =>
    match sched.pc t with
    | .exec e f => (s'.makeCbFiber e f).bind fun s => s.mainFunc f
    | _ => none
  | .finish t =>
    match s.sched.pc t with
    -- `cur.reset()`, before the last `yield`
    | .exec _ f => { s' with curs := s.curs.erase f }.release f
    | _ => none
  | .complete t =>
    match s.sched.pc t with
    -- `task.reset()`, or `cb_fiber.reset()`
    | .returned e => (TaskEntry.runsOn e).bind s'.release
    | _ => none
  -- `scan` moves the pointer of the entry that it takes
  | .scan _ | .yield _ | .save _ | .idle _ | .stop => some s'
  | .outside _ _ => none

variable [DecidableEq τ]

/-- The fiber that executes on `t`. -/
def executing (W : List τ) (s : State τ) (t : τ) : Option FiberId :=
  match s.sched.pc t with
  | .exec _ f => if t ∈ W then some f else none
  | _ => none

def step (W : List τ) (s : State τ) (a : Label τ) : Option (State τ) :=
  if s.failed.isSome then none
  else match a with
  | .make n =>
    (SharedPtr.make s.object (.made n)).map fun object =>
      { s with object := object }.addHandle (.made n)
  | .copy f => if f ∈ s.handles then (s.retain f).map (addHandle · f) else none
  | .drop f => if f ∈ s.handles then { s with handles := s.handles.erase f }.release f else none
  | .getThis t => (s.executing W t).bind fun f => (s.retain f).map (addHandle · f)
  | .addEvent t => (s.executing W t).bind fun f =>
      (s.retain f).map fun s => { s with waiting := s.waiting ++ [f] }
  | .triggerEvent i => s.waiting[i]?.bind fun f =>
      (Scheduler.step W s.sched (.schedule none (.ofFiber (some f) none))).bind fun sched =>
        ({ s with sched := sched }.retain f).bind fun s =>
          { s with waiting := s.waiting.eraseIdx i }.release f
  | .delEvent i => s.waiting[i]?.bind fun f =>
      { s with waiting := s.waiting.eraseIdx i }.release f
  | .sched a => (Scheduler.step W s.sched a).bind (s.follow a)

end State

/-- Nothing has been made, and no pointer is there. -/
structure Initial (s : State τ) : Prop where
  sched : Scheduler.Initial s.sched
  made : ∀ n, s.sched.fiber (.made n) = some .new
  object : s.object = fun _ => .raw
  curs : s.curs = []
  waiting : s.waiting = []
  handles : s.handles = []
  started : ∀ f, s.started f = false
  failed : s.failed = none

def start : State τ where
  sched := Scheduler.start
  object := fun _ => .raw
  curs := []
  waiting := []
  handles := []
  started := fun _ => false
  failed := none

theorem start_initial : Initial (start : State τ) where
  sched := Scheduler.start_initial
  made := fun _ => rfl
  object := rfl
  curs := rfl
  waiting := rfl
  handles := rfl
  started := fun _ => rfl
  failed := rfl

def system [DecidableEq τ] (W : List τ) : TransitionSystem (State τ) (Label τ) where
  init := Initial
  step := State.step W

/-! ## What a step can do -/

inductive Moves [DecidableEq τ] (W : List τ) (s : State τ) : Label τ → State τ → Prop where
  | make (n : Nat) (object : FiberId → SharedPtr.Object Fiber.State)
      (hmake : SharedPtr.make s.object (.made n) = some object) :
      Moves W s (.make n) ({ s with object := object }.addHandle (.made n))
  | copy (f : FiberId) (object : FiberId → SharedPtr.Object Fiber.State) (hf : f ∈ s.handles)
      (hretain : SharedPtr.retain s.object f = some object) :
      Moves W s (.copy f) ({ s with object := object }.addHandle f)
  | drop (f : FiberId) (s' : State τ) (hf : f ∈ s.handles)
      (hrelease : { s with handles := s.handles.erase f }.release f = some s') :
      Moves W s (.drop f) s'
  | getThis (t : τ) (f : FiberId) (object : FiberId → SharedPtr.Object Fiber.State)
      (hf : s.executing W t = some f) (hretain : SharedPtr.retain s.object f = some object) :
      Moves W s (.getThis t) ({ s with object := object }.addHandle f)
  | addEvent (t : τ) (f : FiberId) (object : FiberId → SharedPtr.Object Fiber.State)
      (hf : s.executing W t = some f) (hretain : SharedPtr.retain s.object f = some object) :
      Moves W s (.addEvent t) { s with object := object, waiting := s.waiting ++ [f] }
  | triggerEvent (i : Nat) (f : FiberId) (object : FiberId → SharedPtr.Object Fiber.State)
      (s' : State τ) (hf : s.waiting[i]? = some f)
      (hsched : Step W s.sched (.schedule none (.ofFiber (some f) none))
        (s.sched.schedule (.ofFiber (some f) none)))
      (hretain : SharedPtr.retain s.object f = some object)
      (hrelease : { s with
        sched := s.sched.schedule (.ofFiber (some f) none), object := object,
        waiting := s.waiting.eraseIdx i }.release f = some s') :
      Moves W s (.triggerEvent i) s'
  | delEvent (i : Nat) (f : FiberId) (s' : State τ) (hf : s.waiting[i]? = some f)
      (hrelease : { s with waiting := s.waiting.eraseIdx i }.release f = some s') :
      Moves W s (.delEvent i) s'
  | sched (a : Scheduler.Label τ) (c' : Scheduler.State τ) (s' : State τ)
      (hsched : Step W s.sched a c') (hfollow : s.follow a c' = some s') :
      Moves W s (.sched a) s'

theorem moves_of_step [DecidableEq τ] {W : List τ} {s s' : State τ} {a : Label τ}
    (h : (system W).step s a = some s') : Moves W s a s' := by
  change s.step W a = some s' at h
  unfold State.step at h
  split at h
  · cases h
  cases a with
  | make n =>
    obtain ⟨object, hmake, rfl⟩ := Option.map_eq_some_iff.mp h
    exact .make n object hmake
  | copy f =>
    dsimp only at h
    split at h
    · rename_i hf
      obtain ⟨s₁, hs₁, rfl⟩ := Option.map_eq_some_iff.mp h
      obtain ⟨object, hretain, rfl⟩ := Option.map_eq_some_iff.mp hs₁
      exact .copy f object hf hretain
    · cases h
  | drop f =>
    dsimp only at h
    split at h
    · rename_i hf
      exact .drop f s' hf h
    · cases h
  | getThis t =>
    obtain ⟨f, hf, h⟩ := Option.bind_eq_some_iff.mp h
    obtain ⟨s₁, hs₁, rfl⟩ := Option.map_eq_some_iff.mp h
    obtain ⟨object, hretain, rfl⟩ := Option.map_eq_some_iff.mp hs₁
    exact .getThis t f object hf hretain
  | addEvent t =>
    obtain ⟨f, hf, h⟩ := Option.bind_eq_some_iff.mp h
    obtain ⟨s₁, hs₁, rfl⟩ := Option.map_eq_some_iff.mp h
    obtain ⟨object, hretain, rfl⟩ := Option.map_eq_some_iff.mp hs₁
    exact .addEvent t f object hf hretain
  | triggerEvent i =>
    obtain ⟨f, hf, h⟩ := Option.bind_eq_some_iff.mp h
    obtain ⟨c', hsched, h⟩ := Option.bind_eq_some_iff.mp h
    obtain ⟨s₁, hs₁, hrelease⟩ := Option.bind_eq_some_iff.mp h
    obtain ⟨object, hretain, rfl⟩ := Option.map_eq_some_iff.mp hs₁
    have hschedule : Step W s.sched (.schedule none (.ofFiber (some f) none)) c' :=
      step_cases hsched
    obtain rfl : c' = s.sched.schedule (.ofFiber (some f) none) := by
      cases hschedule
      rfl
    exact .triggerEvent i f object s' hf hschedule hretain hrelease
  | delEvent i =>
    obtain ⟨f, hf, h⟩ := Option.bind_eq_some_iff.mp h
    exact .delEvent i f s' hf h
  | sched a =>
    obtain ⟨c', hsched, hfollow⟩ := Option.bind_eq_some_iff.mp h
    exact .sched a c' s' (step_cases hsched) hfollow

/-! ## What the runs are about -/

/-- The runs in which no thread switches into a fiber that is still on another one: a fiber is
put into the queue once per resume, and no scan meets it between the two steps of its yield. -/
def guard [DecidableEq τ] (s : State τ) : Label τ → Prop
  | .sched a => switchGuard s.sched a
  | .triggerEvent i => ∀ f ∈ s.waiting[i]?, s.sched.put f = false
  | .make _ | .copy _ | .drop _ | .getThis _ | .addEvent _ | .delEvent _ => True

instance [DecidableEq τ] (s : State τ) : DecidablePred (guard s)
  | .sched a => inferInstanceAs (Decidable (switchGuard s.sched a))
  | .triggerEvent i => inferInstanceAs (Decidable (∀ f ∈ s.waiting[i]?, s.sched.put f = false))
  | .make _ | .copy _ | .drop _ | .getThis _ | .addEvent _ | .delEvent _ =>
    inferInstanceAs (Decidable True)

/-- The pointers that others than the fiber itself have. -/
def State.holders (W : List τ) (s : State τ) : List FiberId :=
  s.sched.tasks.filterMap (·.task.fiber) ++ held W refers s.sched.pc ++ s.waiting ++ s.handles

/-- Every `Fiber::ptr` there is. -/
def State.pointers (W : List τ) (s : State τ) : List FiberId :=
  s.holders W ++ s.curs

/-! ## Inside callbacks -/

/-- What `cur` says of a fiber: it was resumed, and its callback has not returned. -/
structure Inside (s : Scheduler.State τ) (curs : List FiberId) (started : FiberId → Bool) :
    Prop where
  nodup : curs.Nodup
  inside : ∀ f ∈ curs, started f = true ∧ s.fiberState f ≠ .term
  exec : ∀ t e f, s.pc t = .exec e f → f ∈ curs
  onStack : ∀ t f, (s.pc t).onStack = some f → started f = true
  runs : ∀ t e f, (s.pc t).holding = some e → (s.pc t).onStack = some f →
    TaskEntry.runsOn e = some f
  completes : ∀ t e, s.pc t = .returned e → (TaskEntry.runsOn e).isSome = true
  returned : ∀ f, started f = true → f ∈ curs ∨ s.fiberState f = .term
  fresh : ∀ f x, started f = false → s.fiber f = some x → x.state = .ready

variable {W : List τ} {c c' : Scheduler.State τ} {curs : List FiberId} {started : FiberId → Bool}
  {t : τ} {f : FiberId}

/-- Steps that leave the fibers alone and switch into none. -/
theorem Inside.of_same (h : Inside c curs started) (hfiber : c'.fiber = c.fiber)
    (hpc : ∀ t, c'.pc t = c.pc t ∨ (c'.pc t).onStack = none ∧ ∀ e, c'.pc t ≠ .returned e) :
    Inside c' curs started := by
  have hstate : c'.fiberState = c.fiberState := by
    funext f
    simp [Scheduler.State.fiberState, hfiber]
  have hback {t : τ} {f : FiberId} (ht : (c'.pc t).onStack = some f) : c'.pc t = c.pc t :=
    (hpc t).resolve_right fun hnone => by simp [hnone.1] at ht
  exact {
    nodup := h.nodup
    inside := by rw [hstate]; exact h.inside
    exec := fun t e f ht => h.exec t e f (hback (by rw [ht]; rfl) ▸ ht)
    onStack := fun t f ht => h.onStack t f (hback ht ▸ ht)
    runs := fun t e f he ht => h.runs t e f (hback ht ▸ he) (hback ht ▸ ht)
    completes := fun t e ht =>
      h.completes t e ((hpc t).resolve_right (fun hnot => hnot.2 e ht) ▸ ht)
    returned := by rw [hstate]; exact h.returned
    fresh := by rw [hfiber]; exact h.fresh }

variable [DecidableEq τ]

omit [DecidableEq τ] in
theorem fiberState_setFiber (c : Scheduler.State τ) (f : FiberId) (x : Fiber) (g : FiberId) :
    (c.setFiber f x).fiberState g = if g = f then x.state else c.fiberState g := by
  rw [Scheduler.State.fiberState, Scheduler.State.setFiber_fiber]
  split <;> rfl

omit [DecidableEq τ] in
theorem fiberState_of_fiber {x : Fiber} (hx : c.fiber f = some x) : c.fiberState f = x.state := by
  rw [Scheduler.State.fiberState, hx]
  rfl

theorem Inside.resume (h : Inside c curs started) {e : TaskEntry τ} {x : Fiber}
    {put : FiberId → Bool} (hf : TaskEntry.runsOn e = some f) (hx : x.state = .running)
    {curs' : List FiberId} (hcurs : curs' = if f ∈ curs then curs else f :: curs) :
    Inside (({ c with put := put }.setFiber f x).setPc t (.exec e f)) curs'
      (Function.update started f true) := by
  have hstate (g : FiberId) : (({ c with put := put }.setFiber f x).setPc t
      (.exec e f)).fiberState g = if g = f then x.state else c.fiberState g :=
    fiberState_setFiber { c with put := put } f x g
  have hmem {g : FiberId} : g ∈ curs' ↔ g = f ∨ g ∈ curs := by
    rw [hcurs]
    split
    · rename_i hmem
      exact ⟨.inr, fun hg => hg.elim (fun heq => heq ▸ hmem) id⟩
    · exact List.mem_cons
  constructor
  case nodup =>
    rw [hcurs]
    split
    · exact h.nodup
    · rename_i hnot
      exact List.nodup_cons.mpr ⟨hnot, h.nodup⟩
  case inside =>
    intro g hg
    rw [hstate]
    by_cases hgf : g = f
    · rw [if_pos hgf, hx, hgf, Function.update_self]
      exact ⟨rfl, by simp⟩
    · rw [if_neg hgf, Function.update_of_ne hgf]
      exact h.inside g ((hmem.mp hg).resolve_left hgf)
  case exec =>
    intro u e' g hu
    rcases setPc_eq hu with ⟨-, heq⟩ | ⟨-, hu⟩
    · cases heq
      exact hmem.mpr (.inl rfl)
    · exact hmem.mpr (.inr (h.exec u e' g hu))
  case onStack =>
    intro u g hu
    rcases onStack_setPc hu with ⟨-, heq⟩ | ⟨-, hu⟩
    · cases heq
      exact Function.update_self ..
    · by_cases hgf : g = f
      · rw [hgf, Function.update_self]
      · rw [Function.update_of_ne hgf]
        exact h.onStack u g hu
  case runs =>
    intro u e' g he hu
    rw [Scheduler.State.setPc_pc] at he hu
    split at he
    · rename_i hut
      rw [if_pos hut] at hu
      cases he
      cases hu
      exact hf
    · rename_i hut
      rw [if_neg hut] at hu
      exact h.runs u e' g he hu
  case completes =>
    intro u e' hu
    rcases setPc_eq hu with ⟨-, heq⟩ | ⟨-, hu⟩
    · cases heq
    · exact h.completes u e' hu
  case returned =>
    intro g hg
    rw [hstate, hmem]
    by_cases hgf : g = f
    · exact .inl (.inl hgf)
    · rw [Function.update_of_ne hgf] at hg
      rw [if_neg hgf]
      exact (h.returned g hg).imp_left .inr
  case fresh =>
    intro g y hg hy
    have hgf : g ≠ f := by
      rintro rfl
      rw [Function.update_self] at hg
      cases hg
    rw [Function.update_of_ne hgf] at hg
    exact h.fresh g y hg ((setFiber_eq hy).resolve_left fun heq => hgf heq.1).2

/-- The thread that has `f` on its stack stores to it, and the callback of `f` goes on or has
returned before. -/
theorem Inside.store (h : Inside c curs started) {e : TaskEntry τ} {x : Fiber} {pc : Pc τ}
    (hon : (c.pc t).onStack = some f) (hf : TaskEntry.runsOn e = some f)
    (hpc : pc = .saving e f ∨ pc = .returned e)
    (hx : x.state = c.fiberState f ∨ f ∈ curs ∧ x.state ≠ .term) :
    Inside ((c.setFiber f x).setPc t pc) curs started := by
  have hstate (g : FiberId) : ((c.setFiber f x).setPc t pc).fiberState g =
      if g = f then x.state else c.fiberState g := fiberState_setFiber c f x g
  have hstack {u : τ} {g : FiberId}
      (hu : (((c.setFiber f x).setPc t pc).pc u).onStack = some g) : (c.pc u).onStack = some g := by
    rcases onStack_setPc hu with ⟨hut, heq⟩ | ⟨-, hu⟩
    · rcases hpc with rfl | rfl
      · cases heq
        rwa [hut]
      · cases heq
    · exact hu
  constructor
  case nodup => exact h.nodup
  case inside =>
    intro g hg
    refine ⟨(h.inside g hg).1, ?_⟩
    rw [hstate]
    split
    · rename_i hgf
      rcases hx with hx | ⟨-, hx⟩
      · rw [hx, ← hgf]
        exact (h.inside g hg).2
      · exact hx
    · exact (h.inside g hg).2
  case exec =>
    intro u e' g hu
    rcases setPc_eq hu with ⟨-, heq⟩ | ⟨-, hu⟩
    · rcases hpc with rfl | rfl <;> cases heq
    · exact h.exec u e' g hu
  case onStack => exact fun u g hu => h.onStack u g (hstack hu)
  case runs =>
    intro u e' g he hu
    rw [Scheduler.State.setPc_pc] at he hu
    split at he
    · rename_i hut
      rw [if_pos hut] at hu
      rcases hpc with rfl | rfl
      · cases he
        cases hu
        exact hf
      · cases hu
    · rename_i hut
      rw [if_neg hut] at hu
      exact h.runs u e' g he hu
  case completes =>
    intro u e' hu
    rcases setPc_eq hu with ⟨-, heq⟩ | ⟨-, hu⟩
    · rcases hpc with rfl | rfl
      · cases heq
      · cases heq
        rw [hf]
        rfl
    · exact h.completes u e' hu
  case returned =>
    intro g hg
    rw [hstate]
    split
    · rename_i hgf
      rcases hx with hx | ⟨hmem, -⟩
      · rw [hx, ← hgf]
        exact h.returned g hg
      · exact .inl (hgf ▸ hmem)
    · exact h.returned g hg
  case fresh =>
    intro g y hg hy
    rcases setFiber_eq hy with ⟨rfl, -⟩ | ⟨-, hy⟩
    · rw [h.onStack t g hon] at hg
      cases hg
    · exact h.fresh g y hg hy

/-- The callback of `f` has returned. -/
theorem Inside.finish (h : Inside c curs started) (halone : ∀ u, (c.pc u).onStack = some f → u = t)
    {e : TaskEntry τ} {x : Fiber} (hpc : c.pc t = .exec e f) (hx : x.state = .term) :
    Inside ((c.setFiber f x).setPc t (.saving e f)) (curs.erase f) started := by
  have hon : (c.pc t).onStack = some f := by rw [hpc]; rfl
  have hstate (g : FiberId) : ((c.setFiber f x).setPc t (.saving e f)).fiberState g =
      if g = f then x.state else c.fiberState g := fiberState_setFiber c f x g
  constructor
  case nodup => exact h.nodup.erase f
  case inside =>
    intro g hg
    obtain ⟨hgf, hg⟩ := h.nodup.mem_erase_iff.mp hg
    rw [hstate, if_neg hgf]
    exact h.inside g hg
  case exec =>
    intro u e' g hu
    rcases setPc_eq hu with ⟨-, heq⟩ | ⟨hut, hu⟩
    · cases heq
    · have hgf : g ≠ f := by
        rintro rfl
        exact hut (halone u (congrArg Pc.onStack hu))
      exact (List.mem_erase_of_ne hgf).mpr (h.exec u e' g hu)
  case onStack =>
    intro u g hu
    rcases onStack_setPc hu with ⟨-, heq⟩ | ⟨-, hu⟩
    · cases heq
      exact h.onStack t f hon
    · exact h.onStack u g hu
  case runs =>
    intro u e' g he hu
    rw [Scheduler.State.setPc_pc] at he hu
    split at he
    · rename_i hut
      rw [if_pos hut] at hu
      cases he
      cases hu
      exact h.runs t e f (by rw [hpc]; rfl) hon
    · rename_i hut
      rw [if_neg hut] at hu
      exact h.runs u e' g he hu
  case completes =>
    intro u e' hu
    rcases setPc_eq hu with ⟨-, heq⟩ | ⟨-, hu⟩
    · cases heq
    · exact h.completes u e' hu
  case returned =>
    intro g hg
    rw [hstate]
    by_cases hgf : g = f
    · rw [if_pos hgf]
      exact .inr hx
    · rw [if_neg hgf, List.mem_erase_of_ne hgf]
      exact h.returned g hg
  case fresh =>
    intro g y hg hy
    rcases setFiber_eq hy with ⟨rfl, -⟩ | ⟨-, hy⟩
    · rw [h.onStack t g hon] at hg
      cases hg
    · exact h.fresh g y hg hy

/-! ## The pointers and their counts -/

/-- What holds of the pointers and the objects in every run; `l` are the pointers that are
just going from one place to another. -/
structure Owned (W : List τ) (l : List FiberId) (s : State τ) : Prop where
  inside : Inside s.sched s.curs s.started
  counts : SharedPtr.Counts (l ++ s.pointers W) s.object
  destroyed : ∀ f state, s.object f = .destroyed state →
    state = .term ∨ state = .ready ∧ s.started f = false
  failed : ∀ f, s.failed = some f → s.object f = .destroyed .ready ∧ s.started f = false
  unmade : ∀ k, s.sched.fiber (.forTask k) = none → s.object (.forTask k) = .raw

variable {l l' : List FiberId} {s s' : State τ}

omit [DecidableEq τ] in
theorem count_pointers (s : State τ) (g : FiberId) :
    (s.pointers W).count g = (s.sched.tasks.filterMap (·.task.fiber)).count g +
      (held W refers s.sched.pc).count g + s.curs.count g + s.waiting.count g +
      s.handles.count g := by
  simp only [State.pointers, State.holders, List.count_append]
  omega

theorem count_held (hW : W.Nodup) (ht : t ∈ W) (pcs : τ → Pc τ) (pc : Pc τ) (g : FiberId) :
    (refers (pcs t)).toList.count g + (held W refers (Function.update pcs t pc)).count g =
      (refers pc).toList.count g + (held W refers pcs).count g := by
  have hcount := (held_update hW ht refers pcs pc).count_eq g
  rwa [List.count_append, List.count_append] at hcount

omit [DecidableEq τ] in
theorem Owned.retain (h : Owned W l s) (hf : f ∈ l ++ s.pointers W) :
    ∃ object, SharedPtr.retain s.object f = some object ∧
      Owned W (f :: l) { s with object := object } := by
  obtain ⟨object, hretain, hcounts, hother, hself⟩ := h.counts.retain hf
  have hkept {g : FiberId} (hg : ∀ n, s.object g ≠ .live n) : object g = s.object g :=
    SharedPtr.kept_of_live (h.counts.live hf) hother hg
  have hdestroyed (g : FiberId) (state : Fiber.State) (hg : object g = .destroyed state) :
      s.object g = .destroyed state := by
    rw [← hg, hother g]
    rintro rfl
    rw [hself] at hg
    cases hg
  refine ⟨object, hretain, h.inside, hcounts, fun g state hg =>
    h.destroyed g state (hdestroyed g state hg), fun g hg => ?_, fun k hk => ?_⟩
  · obtain ⟨hobject, hfresh⟩ := h.failed g hg
    exact ⟨(hkept (by simp [hobject])).trans hobject, hfresh⟩
  · have hraw := h.unmade k hk
    exact (hkept (by simp [hraw])).trans hraw

omit [DecidableEq τ] in
/-- With the last pointer goes a fiber that is over, or one that was never resumed. -/
theorem Owned.release (h : Owned W (f :: l) s) :
    ∃ object failed, s.release f = some { s with object := object, failed := failed } ∧
      Owned W l { s with object := object, failed := failed } := by
  obtain ⟨object, hrelease, hcounts, hother, hself⟩ :=
    SharedPtr.Counts.release h.counts (s.sched.fiberState f)
  have hkept {g : FiberId} (hg : ∀ n, s.object g ≠ .live n) : object g = s.object g :=
    SharedPtr.kept_of_live (h.counts.live List.mem_cons_self) hother hg
  have hlast (state : Fiber.State) (hf : object f = .destroyed state) :
      s.sched.fiberState f = state ∧ (state = .term ∨ state = .ready ∧ s.started f = false) := by
    rw [hself] at hf
    split at hf
    · cases hf
    · rename_i hnot
      cases hf
      refine ⟨rfl, ?_⟩
      cases hstarted : s.started f with
      | true =>
        -- a fiber inside its callback has a pointer to itself
        refine .inl ((h.inside.returned f hstarted).resolve_left fun hmem => hnot ?_)
        simp [State.pointers, State.holders, hmem]
      | false =>
        cases hx : s.sched.fiber f with
        | none => exact .inl (by simp [Scheduler.State.fiberState, hx])
        | some x =>
          rw [fiberState_of_fiber hx]
          exact .inr ⟨h.inside.fresh f x hstarted hx, rfl⟩
  have hdestroyed (g : FiberId) (state : Fiber.State) (hg : object g = .destroyed state) :
      state = .term ∨ state = .ready ∧ s.started g = false := by
    by_cases hgf : g = f
    · rw [hgf] at hg ⊢
      exact (hlast state hg).2
    · rw [hother g hgf] at hg
      exact h.destroyed g state hg
  refine ⟨object, _, by rw [State.release, hrelease]; rfl, h.inside, hcounts, hdestroyed,
    fun g hg => ?_, fun k hk => ?_⟩
  · dsimp only at hg ⊢
    split at hg
    · rename_i hfails
      cases hg
      obtain hterm | ⟨hready, hfresh⟩ := (hlast _ hfails.1).2
      · exact absurd hterm hfails.2
      · exact ⟨hready ▸ hfails.1, hfresh⟩
    · obtain ⟨hobject, hfresh⟩ := h.failed g hg
      exact ⟨(hkept (by simp [hobject])).trans hobject, hfresh⟩
  · have hraw := h.unmade k hk
    exact (hkept (by simp [hraw])).trans hraw

/-! ## The steps of the scheduler -/

omit [DecidableEq τ] in
/-- The scheduler takes a step that passes the pointers on. -/
theorem Owned.passes (h : Owned W l s) (hinside : Inside c' s.curs s.started)
    (hcount : ∀ g, l'.count g + (c'.tasks.filterMap (·.task.fiber)).count g +
        (held W refers c'.pc).count g =
      l.count g + (s.sched.tasks.filterMap (·.task.fiber)).count g +
        (held W refers s.sched.pc).count g)
    (hmade : ∀ k, c'.fiber (.forTask k) = none → s.sched.fiber (.forTask k) = none) :
    Owned W l' { s with sched := c' } := by
  refine { h with
    inside := hinside
    counts := h.counts.perm (List.perm_iff_count.mpr fun g => ?_)
    unmade := fun k hk => h.unmade k (hmade k hk) }
  rw [List.count_append, List.count_append, count_pointers, count_pointers]
  have := hcount g
  dsimp only
  omega

/-- A thread goes to a point with the pointer that it has. -/
theorem Owned.moves (hW : W.Nodup) (h : Owned W l s) (ht : t ∈ W) {pc : Pc τ}
    (hinside : Inside c' s.curs s.started) (htasks : c'.tasks = s.sched.tasks)
    (hpc : c'.pc = Function.update s.sched.pc t pc) (hrefers : refers pc = refers (s.sched.pc t))
    (hmade : ∀ k, c'.fiber (.forTask k) = none → s.sched.fiber (.forTask k) = none) :
    Owned W l { s with sched := c' } := by
  refine h.passes hinside (fun g => ?_) hmade
  have hheld := count_held hW ht s.sched.pc pc g
  rw [hrefers] at hheld
  rw [htasks, hpc]
  omega

/-- A thread goes to a point with no fiber on its stack. -/
theorem Inside.rests (h : Inside c curs started) {pc : Pc τ} (hfiber : c'.fiber = c.fiber)
    (hpc : c'.pc = Function.update c.pc t pc) (hstack : pc.onStack = none)
    (hreturned : ∀ e, pc ≠ .returned e) : Inside c' curs started := by
  refine h.of_same hfiber fun u => ?_
  rw [hpc, Function.update_apply]
  split
  · exact .inr ⟨hstack, hreturned⟩
  · exact .inl rfl

omit [DecidableEq τ] in
theorem made_setFiber {x : Fiber} (k : Nat) (h : (c.setFiber f x).fiber (.forTask k) = none) :
    c.fiber (.forTask k) = none := by
  rw [Scheduler.State.setFiber_fiber] at h
  split at h
  · cases h
  · exact h

omit [DecidableEq τ] in
theorem fibers_schedule (c : Scheduler.State τ) (task : ScheduleTask τ) :
    (c.schedule task).tasks.filterMap (·.task.fiber) =
      c.tasks.filterMap (·.task.fiber) ++ task.fiber.toList := by
  unfold Scheduler.State.schedule scheduleNoLock
  dsimp only
  cases hf : task.fiber <;> split <;> simp_all [ScheduleTask.nonEmpty]

omit [DecidableEq τ] in
/-- `schedule` passes a pointer to the queue. -/
theorem Owned.push {task : ScheduleTask τ} (h : Owned W task.fiber.toList s) :
    Owned W [] { s with sched := s.sched.schedule task } := by
  refine h.passes (h.inside.of_same rfl fun _ => .inl rfl) (fun g => ?_) fun _ hk => hk
  have hpcs : (s.sched.schedule task).pc = s.sched.pc := rfl
  rw [fibers_schedule, List.count_append, hpcs, List.count_nil]
  omega

omit [DecidableEq τ] in
theorem Owned.schedule (h : Owned W [] s) {task : ScheduleTask τ}
    (hhas : ∀ f ∈ task.fiber, f ∈ s.handles) (caller : Option τ) :
    ∃ s', s.follow (.schedule caller task) (s.sched.schedule task) = some s' ∧
      Owned W [] s' := by
  cases hf : task.fiber with
  | none =>
    have hpush : Owned W task.fiber.toList s := by rwa [hf]
    exact ⟨_, by simp only [State.follow, hf], hpush.push⟩
  | some f =>
    have hmem := hhas f hf
    obtain ⟨object, hretain, howned⟩ := h.retain (f := f) (by
      simp [State.pointers, State.holders, hmem])
    have hpush : Owned W task.fiber.toList { s with object := object } := by rwa [hf]
    exact ⟨_, by simp [State.follow, hf, hmem, State.retain, hretain], hpush.push⟩

theorem Owned.take (hW : W.Nodup) (h : Owned W [] s) (ht : t ∈ W) (hpc : s.sched.pc t = .scan)
    {e : TaskEntry τ} {pre post : List (TaskEntry τ)} (htasks : s.sched.tasks = pre ++ e :: post)
    (n : Nat) :
    Owned W [] { s with sched :=
      { s.sched with tasks := pre ++ post, activeThreadCount := n }.setPc t (.took e) } := by
  refine h.passes ?_ (fun g => ?_) fun _ hk => hk
  · exact h.inside.rests rfl rfl rfl (by simp)
  · have hheld := count_held hW ht s.sched.pc (.took e) g
    have hentry : (pre ++ e :: post).filterMap (·.task.fiber) =
        pre.filterMap (·.task.fiber) ++ (e.task.fiber.toList ++ post.filterMap (·.task.fiber)) := by
      cases hf : e.task.fiber <;> simp [hf]
    simp only [hpc, refers, Option.toList_none, List.count_nil] at hheld
    simp only [htasks, hentry, Scheduler.State.setPc, List.filterMap_append, List.count_append,
      List.count_nil]
    omega

omit [DecidableEq τ] in
/-- The fiber of a callback is made when its task is resumed. -/
theorem Owned.makeCbFiber (h : Owned W [] s) (hs : Stacks W s.sched) (ht : t ∈ W) {e : TaskEntry τ}
    (hpc : s.sched.pc t = .took e) (hf : TaskEntry.runsOn e = some f) :
    ∃ object, (∀ s' : State τ, s'.object = s.object → s'.makeCbFiber e f =
        some { s' with object := object }) ∧
      SharedPtr.Counts ((if e.task.fiber.isSome then [] else [f]) ++ s.pointers W) object ∧
      (∀ g, g ≠ f → object g = s.object g) ∧ (∃ n, object f = .live n) ∧
      ∀ state, s.object f ≠ .destroyed state := by
  cases hfiber : e.task.fiber with
  | some g =>
    have hgf : g = f := by simpa [TaskEntry.runsOn, hfiber] using hf
    have hmem : f ∈ s.pointers W := by
      have hheld : f ∈ held W refers s.sched.pc :=
        mem_held.mpr ⟨t, ht, by rw [hpc, ← hgf]; exact hfiber⟩
      simp [State.pointers, State.holders, hheld]
    have hlive := h.counts.live hmem
    refine ⟨s.object, fun s' hs' => ?_, h.counts, fun _ _ => rfl, ⟨_, hlive⟩, ?_⟩
    · simp [State.makeCbFiber, hfiber, ← hs']
    · rw [hlive]
      simp
  | none =>
    have hforTask : f = .forTask e.seq := by
      simp only [TaskEntry.runsOn, hfiber] at hf
      split at hf <;> cases hf
      rfl
    have hraw : s.object f = .raw := by
      rw [hforTask]
      exact h.unmade e.seq (Option.eq_none_iff_forall_ne_some.mpr (hs.fiber_forTask hpc))
    obtain ⟨object, hmake, hcounts, hother, hself⟩ := h.counts.make hraw
    refine ⟨object, fun s' hs' => ?_, hcounts, hother, ⟨_, hself⟩, ?_⟩
    · simp [State.makeCbFiber, hfiber, hs', hmake]
    · rw [hraw]
      simp

theorem Owned.resume (hW : W.Nodup) (h : Owned W [] s) (hs : Stacks W s.sched) (ht : t ∈ W)
    {e : TaskEntry τ} (hpc : s.sched.pc t = .took e) (hf : TaskEntry.runsOn e = some f)
    {x : Fiber} (hx : x.state = .running) (put : FiberId → Bool) :
    ∃ s', s.follow (.resume t) (({ s.sched with put := put }.setFiber f x).setPc t (.exec e f)) =
      some s' ∧ Owned W [] s' := by
  set c' := ({ s.sched with put := put }.setFiber f x).setPc t (.exec e f) with hc'
  obtain ⟨object, hmake, hcounts, hother, ⟨n, hself⟩, hdead⟩ := h.makeCbFiber hs ht hpc hf
  have hfollow : s.follow (.resume t) c' =
      State.mainFunc { s with sched := c', object := object } f := by
    have hpc' : c'.pc t = .exec e f := by simp [hc']
    simp only [State.follow, hpc', hmake { s with sched := c' } rfl, Option.bind_some]
  -- the thread has the pointer that it has resumed the fiber with
  have hheld (g : FiberId) : (if e.task.fiber.isSome then [] else [f]).count g +
      (held W refers s.sched.pc).count g = (held W refers c'.pc).count g := by
    have hpcs : c'.pc = Function.update s.sched.pc t (.exec e f) := rfl
    have hcount := count_held hW ht s.sched.pc (.exec e f) g
    rw [hpc] at hcount
    rw [hpcs]
    cases hfiber : e.task.fiber with
    | none =>
      simp only [refers, hfiber, Option.toList_none, Option.toList_some, List.count_nil,
        Nat.zero_add] at hcount
      exact hcount.symm
    | some g' =>
      have hgf : g' = f := by simpa [TaskEntry.runsOn, hfiber] using hf
      simp only [refers, hfiber, hgf, Option.toList_some] at hcount
      rw [Option.isSome_some, if_pos rfl, List.count_nil]
      omega
  have hcount (g : FiberId) (curs : List FiberId) :
      (State.pointers W { s with sched := c', curs := curs }).count g + s.curs.count g =
        ((if e.task.fiber.isSome then [] else [f]) ++ s.pointers W).count g + curs.count g := by
    have htasks : c'.tasks = s.sched.tasks := rfl
    have := hheld g
    rw [List.count_append, count_pointers, count_pointers]
    dsimp only
    rw [htasks]
    omega
  have hfinal {object' : FiberId → SharedPtr.Object Fiber.State} {curs : List FiberId}
      (hcurs : curs = if f ∈ s.curs then s.curs else f :: s.curs)
      (hcounts : SharedPtr.Counts (State.pointers W { s with sched := c', curs := curs }) object')
      (hother : ∀ g, g ≠ f → object' g = s.object g) (hlive : ∃ n, object' f = .live n) :
      Owned W [] { s with
        sched := c', object := object', curs := curs,
        started := Function.update s.started f true } := by
    obtain ⟨n, hlive⟩ := hlive
    refine ⟨h.inside.resume hf hx hcurs, hcounts, fun g state (hg : object' g = _) => ?_,
      fun g hg => ?_, fun k hk => ?_⟩
    · have hgf : g ≠ f := by
        rintro rfl
        rw [hlive] at hg
        cases hg
      simpa only [Function.update_of_ne hgf] using h.destroyed g state (hother g hgf ▸ hg)
    · obtain ⟨hobject, hfresh⟩ := h.failed g hg
      have hgf : g ≠ f := by
        rintro rfl
        exact hdead _ hobject
      simpa only [hother g hgf, Function.update_of_ne hgf] using ⟨hobject, hfresh⟩
    · have hkf : .forTask k ≠ f := by
        rintro rfl
        simp [hc'] at hk
      exact (hother _ hkf).trans (h.unmade k (made_setFiber k hk))
  rw [hfollow, State.mainFunc]
  by_cases hmem : f ∈ s.curs
  · rw [if_pos hmem]
    have hsame : Function.update s.started f true = s.started :=
      Function.update_eq_self_iff.mpr (h.inside.inside f hmem).1.symm
    have howned := hfinal (if_pos hmem).symm
      (hcounts.perm (List.perm_iff_count.mpr fun g => Nat.add_right_cancel (hcount g s.curs)))
      hother ⟨n, hself⟩
    rw [hsame] at howned
    exact ⟨_, rfl, howned⟩
  · rw [if_neg hmem]
    obtain ⟨object', hretain, hcounts', hother', hself'⟩ :=
      hcounts.retain (hcounts.mem_of_live hself)
    have hperm : State.pointers W { s with sched := c', curs := f :: s.curs } ~
        f :: ((if e.task.fiber.isSome then [] else [f]) ++ s.pointers W) := by
      refine List.perm_iff_count.mpr fun g => ?_
      have := hcount g (f :: s.curs)
      rw [List.count_cons] at this ⊢
      omega
    exact ⟨_, by simp only [State.retain, hretain, Option.map_some],
      hfinal (if_neg hmem).symm (hcounts'.perm hperm)
        (fun g hg => (hother' g hg).trans (hother g hg)) ⟨_, hself'⟩⟩

theorem Owned.finish (hW : W.Nodup) (h : Owned W [] s) (hs : Stacks W s.sched) (ht : t ∈ W)
    {e : TaskEntry τ} (hpc : s.sched.pc t = .exec e f) {x : Fiber} (hx : x.state = .term) :
    ∃ s', s.follow (.finish t) ((s.sched.setFiber f x).setPc t (.saving e f)) = some s' ∧
      Owned W [] s' := by
  have hmem := h.inside.exec t e f hpc
  have hinside := h.inside.finish (fun u hu => hs.alone u t f hu (by rw [hpc]; rfl)) hpc hx
  have hstored : Owned W [f] { s with
      sched := (s.sched.setFiber f x).setPc t (.saving e f), curs := s.curs.erase f } := by
    refine { h with
      inside := hinside
      counts := h.counts.perm (List.perm_iff_count.mpr fun g => ?_)
      unmade := fun k hk => h.unmade k (made_setFiber k hk) }
    have hheld := count_held hW ht s.sched.pc (.saving e f) g
    have hcurs := (List.perm_cons_erase hmem).count_eq g
    rw [hpc] at hheld
    rw [List.count_cons] at hcurs
    rw [List.count_append, List.count_append, count_pointers, count_pointers, List.count_singleton]
    dsimp only [refers, Scheduler.State.setPc, Scheduler.State.setFiber] at hheld ⊢
    rw [List.count_nil]
    omega
  obtain ⟨object, failed, hrelease, howned⟩ := hstored.release
  exact ⟨_, by simp only [State.follow, hpc, hrelease], howned⟩

theorem Owned.complete (hW : W.Nodup) (h : Owned W [] s) (ht : t ∈ W) {e : TaskEntry τ}
    (hpc : s.sched.pc t = .returned e) (n : Nat) (l : List Nat) :
    ∃ s', s.follow (.complete t)
      ({ s.sched with activeThreadCount := n, finished := l }.setPc t .scan) = some s' ∧
      Owned W [] s' := by
  obtain ⟨f, hf⟩ := Option.isSome_iff_exists.mp (h.inside.completes t e hpc)
  have hgone : Owned W [f] { s with
      sched := { s.sched with activeThreadCount := n, finished := l }.setPc t .scan } := by
    refine h.passes (h.inside.rests rfl rfl rfl (by simp)) (fun g => ?_) fun _ hk => hk
    have hheld := count_held hW ht s.sched.pc .scan g
    simp only [hpc, refers, hf, Option.toList_some, Option.toList_none, List.count_nil] at hheld
    dsimp only [Scheduler.State.setPc]
    rw [List.count_nil]
    omega
  obtain ⟨object, failed, hrelease, howned⟩ := hgone.release
  exact ⟨_, by simp only [State.follow, hpc, hf, Option.bind_some, hrelease], howned⟩

/-- Whatever the scheduler does but `schedule`, it has the pointers that it uses. -/
theorem Owned.follow (hW : W.Nodup) (h : Owned W [] s) (hs : Stacks W s.sched)
    {a : Scheduler.Label τ} (hstep : Step W s.sched a c')
    (hhas : ∀ caller task, a = .schedule caller task → ∀ f ∈ task.fiber, f ∈ s.handles)
    (hnot : ∀ f x, a ≠ .outside f x) : ∃ s', s.follow a c' = some s' ∧ Owned W [] s' := by
  cases hstep with
  | schedule caller task => exact h.schedule (hhas caller task rfl) caller
  | take t e ht hpc he =>
    obtain ⟨pre, post, htasks, hrest, -⟩ := scan_some he
    rw [hrest]
    exact ⟨_, rfl, h.take hW ht hpc htasks _⟩
  | leave t ht hpc =>
    exact ⟨_, rfl, h.moves hW ht (h.inside.rests rfl rfl rfl (by simp)) rfl rfl (by rw [hpc]; rfl)
      fun _ hk => hk⟩
  | rest t ht hpc =>
    exact ⟨_, rfl, h.moves hW ht (h.inside.rests rfl rfl rfl (by simp)) rfl rfl (by rw [hpc]; rfl)
      fun _ hk => hk⟩
  | resume t e f x ht hpc hf hx =>
    obtain ⟨y, hresume, -⟩ := resumed_cases hf hx
    exact h.resume hW hs ht hpc hf (Fiber.resume_eq_some hresume).2.1 _
  | yield t e f x ht hpc hf y hy =>
    have hon : (s.sched.pc t).onStack = some f := by rw [hpc]; rfl
    have hready : y.state ≠ .term := by
      obtain ⟨z, hz, hrun⟩ := hs.exec t e f hpc
      cases hf.symm.trans hz
      rw [Fiber.yieldStore_state hy, if_pos (by simp [hrun])]
      simp
    exact ⟨_, rfl, h.moves hW ht (h.inside.store hon (h.inside.runs t e f (by rw [hpc]; rfl) hon)
      (.inl rfl) (.inr ⟨h.inside.exec t e f hpc, hready⟩)) rfl rfl (by rw [hpc]; rfl)
      made_setFiber⟩
  | finish t e f x ht hpc hf =>
    exact h.finish hW hs ht hpc rfl
  | save t e f x ht hpc hf =>
    have hon : (s.sched.pc t).onStack = some f := by rw [hpc]; rfl
    have hruns := h.inside.runs t e f (by rw [hpc]; rfl) hon
    exact ⟨_, rfl, h.moves hW ht (h.inside.store hon hruns (.inr rfl)
      (.inl (fiberState_of_fiber hf).symm)) rfl rfl (by rw [hpc]; exact hruns) made_setFiber⟩
  | complete t e ht hpc => exact h.complete hW ht hpc _ _
  | idle t ht hpc =>
    have hturn : (s.sched.idleTurn t).tasks = s.sched.tasks ∧
        (s.sched.idleTurn t).fiber = s.sched.fiber ∧
        (s.sched.idleTurn t).pc = Function.update s.sched.pc t .scan := by
      unfold Scheduler.State.idleTurn
      split <;> exact ⟨rfl, rfl, rfl⟩
    exact ⟨_, rfl, h.moves hW ht (h.inside.rests hturn.2.1 hturn.2.2 rfl (by simp)) hturn.1
      hturn.2.2 (by rw [hpc]; rfl) fun _ hk => by rwa [← hturn.2.1]⟩
  | stop =>
    exact ⟨_, rfl, h.passes (h.inside.of_same rfl fun _ => .inl rfl) (fun _ => rfl) fun _ hk => hk⟩
  | outside f x => exact absurd rfl (hnot f x)

/-! ## The other owners -/

omit [DecidableEq τ] in
/-- The pointers of the other owners change as the pointers in transit do. -/
theorem Owned.others (h : Owned W l s) {waiting handles : List FiberId}
    (hcount : ∀ g, l'.count g + waiting.count g + handles.count g =
      l.count g + s.waiting.count g + s.handles.count g) :
    Owned W l' { s with waiting := waiting, handles := handles } := by
  refine { h with counts := h.counts.perm (List.perm_iff_count.mpr fun g => ?_) }
  rw [List.count_append, List.count_append, count_pointers, count_pointers]
  have := hcount g
  dsimp only
  omega

omit [DecidableEq τ] in
theorem raw_of_make {object : FiberId → SharedPtr.Object Fiber.State}
    (h : SharedPtr.make s.object f = some object) : s.object f = .raw := by
  unfold SharedPtr.make at h
  split at h
  · assumption
  · cases h
  · cases h

omit [DecidableEq τ] in
theorem Owned.make (h : Owned W [] s) {n : Nat} {object : FiberId → SharedPtr.Object Fiber.State}
    (hmake : SharedPtr.make s.object (.made n) = some object) :
    Owned W [] ({ s with object := object }.addHandle (.made n)) := by
  have hraw := raw_of_make hmake
  obtain ⟨object', hmake', hcounts, hother, hself⟩ := h.counts.make hraw
  cases hmake.symm.trans hmake'
  have hne (g : FiberId) (state : Fiber.State) (hg : s.object g = .destroyed state) :
      g ≠ .made n := by
    rintro rfl
    rw [hraw] at hg
    cases hg
  have hmade : Owned W [.made n] { s with object := object } := by
    refine ⟨h.inside, hcounts, fun g state (hg : object g = _) => ?_, fun g hg => ?_,
      fun k hk => (hother _ (by simp)).trans (h.unmade k hk)⟩
    · by_cases hgn : g = .made n
      · rw [hgn, hself] at hg
        cases hg
      · exact h.destroyed g state (hother g hgn ▸ hg)
    · obtain ⟨hobject, hfresh⟩ := h.failed g hg
      exact ⟨(hother g (hne g _ hobject)).trans hobject, hfresh⟩
  refine hmade.others fun g => ?_
  rw [List.count_cons, List.count_singleton, List.count_nil]
  dsimp only
  omega

omit [DecidableEq τ] in
theorem Owned.eraseIdx (h : Owned W [] s) {i : Nat} (hf : s.waiting[i]? = some f) :
    Owned W [f] { s with waiting := s.waiting.eraseIdx i } := by
  obtain ⟨hi, rfl⟩ := List.getElem?_eq_some_iff.mp hf
  have hperm := List.getElem_cons_eraseIdx_perm hi
  refine h.others fun g => ?_
  have := hperm.count_eq g
  rw [List.count_cons] at this
  rw [List.count_singleton, List.count_nil]
  omega

theorem mem_of_executing (hf : s.executing W t = some f) : f ∈ s.holders W := by
  unfold State.executing at hf
  split at hf
  · rename_i e g hpc
    split at hf
    · rename_i ht
      cases hf
      have hheld : f ∈ held W refers s.sched.pc := mem_held.mpr ⟨t, ht, by rw [hpc]; rfl⟩
      simp [State.holders, hheld]
    · cases hf
  · cases hf

omit [DecidableEq τ] in
/-- Somebody takes a copy of a pointer that there is. -/
theorem Owned.copied (h : Owned W [] s) (hf : f ∈ s.pointers W)
    {object : FiberId → SharedPtr.Object Fiber.State}
    (hretain : SharedPtr.retain s.object f = some object) :
    Owned W [] ({ s with object := object }.addHandle f) := by
  obtain ⟨object', hretain', howned⟩ := h.retain hf
  cases hretain.symm.trans hretain'
  refine howned.others fun g => ?_
  rw [List.count_cons, List.count_singleton, List.count_nil]
  dsimp only
  omega

omit [DecidableEq τ] in
theorem Owned.released (h : Owned W [f] s) (hrelease : s.release f = some s') :
    Owned W [] s' := by
  obtain ⟨object, failed, hrelease', howned⟩ := h.release
  cases hrelease.symm.trans hrelease'
  exact howned

theorem Owned.step (hW : W.Nodup) (h : Owned W [] s) (hs : Stacks W s.sched) {a : Label τ}
    (hstep : Moves W s a s') : Owned W [] s' := by
  cases hstep with
  | make n object hmake => exact h.make hmake
  | copy f object hf hretain =>
    exact h.copied (by simp [State.pointers, State.holders, hf]) hretain
  | drop f s' hf hrelease =>
    have hdrop : Owned W [f] { s with handles := s.handles.erase f } := by
      refine h.others fun g => ?_
      have := (List.perm_cons_erase hf).count_eq g
      rw [List.count_cons] at this
      rw [List.count_singleton, List.count_nil]
      omega
    exact hdrop.released hrelease
  | getThis t f object hf hretain =>
    exact h.copied (List.mem_append_left _ (mem_of_executing hf)) hretain
  | addEvent t f object hf hretain =>
    obtain ⟨object', hretain', howned⟩ :=
      h.retain (List.mem_append_left s.curs (mem_of_executing hf))
    cases hretain.symm.trans hretain'
    refine howned.others fun g => ?_
    rw [List.count_append, List.count_nil]
    dsimp only
    omega
  | triggerEvent i f object s' hf hsched hretain hrelease =>
    obtain ⟨object', hretain', howned⟩ := h.retain (f := f) (by
      simp [State.pointers, State.holders, List.mem_of_getElem? hf])
    cases hretain.symm.trans hretain'
    have hpush : Owned W (ScheduleTask.ofFiber (some f) none : ScheduleTask τ).fiber.toList
        { s with object := object } := howned
    exact (hpush.push.eraseIdx hf).released hrelease
  | delEvent i f s' hf hrelease => exact (h.eraseIdx hf).released hrelease
  | sched a c' s' hsched hfollow =>
    have hhas (caller : Option τ) (task : ScheduleTask τ) (ha : a = .schedule caller task) :
        ∀ f ∈ task.fiber, f ∈ s.handles := by
      intro f hf
      by_contra hnot
      rw [ha, State.follow, Option.mem_def.mp hf] at hfollow
      simp [hnot] at hfollow
    have hinside (f : FiberId) (x : Fiber) : a ≠ .outside f x := by
      rintro rfl
      cases hfollow
    obtain ⟨s'', hs'', howned⟩ := h.follow hW hs hsched hhas hinside
    cases hfollow.symm.trans hs''
    exact howned

/-! ## Every run -/

omit [DecidableEq τ] in
theorem retain_eq (h : s.retain f = some s') : ∃ object, s' = { s with object := object } := by
  obtain ⟨object, -, rfl⟩ := Option.map_eq_some_iff.mp h
  exact ⟨object, rfl⟩

omit [DecidableEq τ] in
theorem release_eq (h : s.release f = some s') :
    ∃ object failed, s' = { s with object := object, failed := failed } := by
  obtain ⟨object, -, rfl⟩ := Option.map_eq_some_iff.mp h
  exact ⟨object, _, rfl⟩

omit [DecidableEq τ] in
/-- What a step of the scheduler does beside it: a callback begins or returns. -/
theorem follow_eq {a : Scheduler.Label τ} (h : s.follow a c' = some s') :
    s'.sched = c' ∧ s'.waiting = s.waiting ∧ s'.handles = s.handles ∧
      (s.curs ⊆ s'.curs ∨ ∃ t e f, s.sched.pc t = .exec e f ∧ s'.curs = s.curs.erase f) := by
  cases a with
  | schedule caller task =>
    simp only [State.follow] at h
    split at h
    · cases h
      exact ⟨rfl, rfl, rfl, .inl (List.Subset.refl _)⟩
    · split at h
      · obtain ⟨object, rfl⟩ := retain_eq h
        exact ⟨rfl, rfl, rfl, .inl (List.Subset.refl _)⟩
      · cases h
  | resume t =>
    simp only [State.follow] at h
    split at h
    · obtain ⟨s₁, hmake, hmain⟩ := Option.bind_eq_some_iff.mp h
      obtain ⟨object, rfl⟩ : ∃ object, s₁ = { s with sched := c', object := object } := by
        unfold State.makeCbFiber at hmake
        split at hmake
        · cases hmake
          exact ⟨s.object, rfl⟩
        · obtain ⟨object, -, rfl⟩ := Option.map_eq_some_iff.mp hmake
          exact ⟨object, rfl⟩
      unfold State.mainFunc at hmain
      split at hmain
      · cases hmain
        exact ⟨rfl, rfl, rfl, .inl (List.Subset.refl _)⟩
      · obtain ⟨s₂, hretain, rfl⟩ := Option.map_eq_some_iff.mp hmain
        obtain ⟨object', rfl⟩ := retain_eq hretain
        exact ⟨rfl, rfl, rfl, .inl (List.subset_cons_self _ _)⟩
    · cases h
  | finish t =>
    simp only [State.follow] at h
    split at h
    · rename_i e f hpc
      obtain ⟨object, failed, rfl⟩ := release_eq h
      exact ⟨rfl, rfl, rfl, .inr ⟨t, e, f, hpc, rfl⟩⟩
    · cases h
  | complete t =>
    simp only [State.follow] at h
    split at h
    · obtain ⟨f, -, hrelease⟩ := Option.bind_eq_some_iff.mp h
      obtain ⟨object, failed, rfl⟩ := release_eq hrelease
      exact ⟨rfl, rfl, rfl, .inl (List.Subset.refl _)⟩
    · cases h
  | outside f x => cases h
  | scan | yield | save | idle | stop =>
    cases h
    exact ⟨rfl, rfl, rfl, .inl (List.Subset.refl _)⟩

/-- Every step is one of the scheduler, or leaves it as it is. -/
theorem Moves.sched_eq {a : Label τ} (h : Moves W s a s') :
    s'.sched = s.sched ∨ ∃ b, Step W s.sched b s'.sched ∧ (guard s a → switchGuard s.sched b) := by
  cases h with
  | make | copy | getThis | addEvent => exact .inl rfl
  | drop f s' hf hrelease | delEvent i f s' hf hrelease =>
    obtain ⟨object, failed, rfl⟩ := release_eq hrelease
    exact .inl rfl
  | triggerEvent i f object s' hf hsched hretain hrelease =>
    obtain ⟨object', failed, rfl⟩ := release_eq hrelease
    refine .inr ⟨_, hsched, fun hg => ⟨?_, trivial⟩⟩
    intro g hgf
    cases hgf
    exact hg f hf
  | sched b c' s' hsched hfollow =>
    obtain ⟨rfl, -⟩ := follow_eq hfollow
    exact .inr ⟨b, hsched, id⟩

/-- What keeps the scheduler from switching into a fiber that is on another thread. -/
structure Sound (W : List τ) (s : State τ) : Prop where
  conserved : Conserved W s.sched
  switching : Switching W s.sched
  owned : Owned W [] s

omit [DecidableEq τ] in
theorem Initial.sound (h : Initial s) : Sound W s := by
  refine ⟨h.sched.conserved, h.sched.switching, ?_⟩
  have hpc := h.sched.pc
  have hheld : held W refers s.sched.pc = [] := held_eq_nil.mpr fun t _ => by rw [hpc t]; rfl
  constructor
  case inside =>
    constructor
    case nodup => simp [h.curs]
    case inside => simp [h.curs]
    case exec => simp [hpc]
    case onStack => simp [hpc, Pc.onStack]
    case runs => simp [hpc, Pc.holding]
    case completes => simp [hpc]
    case returned => simp [h.started]
    case fresh =>
      intro f x _ hx
      cases f with
      | made n =>
        cases (h.made n).symm.trans hx
        rfl
      | forTask k =>
        rw [h.sched.forTask k] at hx
        cases hx
  case counts =>
    rw [h.object, State.pointers, State.holders, hheld, h.sched.tasks, h.curs, h.waiting, h.handles]
    exact .of_raw
  case destroyed => simp [h.object]
  case failed => simp [h.failed]
  case unmade => simp [h.object]

theorem Sound.step (hW : W.Nodup) (h : Sound W s) {a : Label τ} (hg : guard s a)
    (hstep : Moves W s a s') : Sound W s' := by
  have howned := h.owned.step hW h.switching.stacks hstep
  obtain hsame | ⟨b, hsched, hguard⟩ := hstep.sched_eq
  · exact ⟨hsame ▸ h.conserved, hsame ▸ h.switching, howned⟩
  · exact ⟨h.conserved.step hW hsched, h.switching.step h.conserved (hguard hg) hsched, howned⟩

theorem sound_preserved (hW : W.Nodup) : (system W).Preserved guard (Sound W) :=
  fun _ _ _ h hg hstep => h.step hW hg (moves_of_step hstep)

theorem sound_of_reachable (hW : W.Nodup) (h : (system W).Reachable guard s) : Sound W s :=
  (sound_preserved hW).reachable (fun _ hs => hs.sound) h

/-- The pointers are counted and none dangles; a fiber is alive while it is on a stack and
while it is suspended inside its callback; the destructor of a fiber runs when its callback
has returned, and it fails its assertion only for a fiber that was never resumed; and no
thread of the scheduler meets a pointer that dangles. -/
structure Safe (W : List τ) (s : State τ) : Prop where
  useCount : ∀ f, (s.object f).useCount = (s.pointers W).count f
  alive : ∀ f ∈ s.pointers W, ∃ n, s.object f = .live n
  stack : ∀ t f, (s.sched.pc t).onStack = some f → ∃ n, s.object f = .live n
  suspended : ∀ f, s.started f = true → s.sched.fiberState f ≠ .term →
    ∃ n, s.object f = .live n
  destroyed : ∀ f state, s.object f = .destroyed state →
    state = .term ∨ state = .ready ∧ s.started f = false
  failed : ∀ f, s.failed = some f → s.object f = .destroyed .ready ∧ s.started f = false
  goesOn : s.failed = none → ∀ a c', (∀ caller task, a ≠ .schedule caller task) →
    (∀ f x, a ≠ .outside f x) → Scheduler.step W s.sched a = some c' →
    (s.step W (.sched a)).isSome = true

/-- Only the threads of the scheduler run tasks, each in the fiber of its task. -/
structure Works (W : List τ) (c : Scheduler.State τ) : Prop where
  members : ∀ t, t ∉ W → c.pc t = .scan
  runs : ∀ t e f, (c.pc t).holding = some e → (c.pc t).onStack = some f →
    TaskEntry.runsOn e = some f

omit [DecidableEq τ] in
theorem Sound.works (h : Sound W s) : Works W s.sched :=
  ⟨h.switching.members, h.owned.inside.runs⟩

omit [DecidableEq τ] in
theorem Works.held_of_refers (h : Works W c) (hf : refers (c.pc t) = some f) :
    f ∈ held W refers c.pc := by
  refine mem_held.mpr ⟨t, ?_, hf⟩
  by_contra hnot
  rw [h.members t hnot] at hf
  cases hf

omit [DecidableEq τ] in
/-- A fiber that is on a stack is in `task` or `cb_fiber` of its thread. -/
theorem Works.mem_held_of_onStack (h : Works W c) (hf : (c.pc t).onStack = some f) :
    f ∈ held W refers c.pc := by
  refine h.held_of_refers (t := t) ?_
  cases hpc : c.pc t <;> rw [hpc] at hf <;> first | exact hf | cases hf

theorem Sound.safe (hW : W.Nodup) (h : Sound W s) : Safe W s := by
  have howned := h.owned
  constructor
  case useCount => exact howned.counts.useCount
  case alive => exact fun f hf => ⟨_, howned.counts.live hf⟩
  case stack =>
    intro t f hf
    have hheld := h.works.mem_held_of_onStack hf
    exact ⟨_, howned.counts.live (by simp [State.pointers, State.holders, hheld])⟩
  case suspended =>
    intro f hstarted hstate
    have hmem := (howned.inside.returned f hstarted).resolve_right hstate
    exact ⟨_, howned.counts.live (by simp [State.pointers, State.holders, hmem])⟩
  case destroyed => exact howned.destroyed
  case failed => exact howned.failed
  case goesOn =>
    intro hnone a c' hnot houtside hsched
    obtain ⟨s', hs', -⟩ := howned.follow hW h.switching.stacks (step_cases hsched)
      (fun caller task ha => absurd ha (hnot caller task)) houtside
    simp [State.step, hnone, hsched, hs']

theorem pointers_safe (hW : W.Nodup) (h : (system W).Reachable guard s) : Safe W s :=
  (sound_of_reachable hW h).safe hW

/-- Thread 0 runs a fiber that registers an event and yields; the event wakes it, thread 1 runs it
to the end, and the fiber is destroyed when user code drops its pointer. -/
def wokenRun : List (Label Nat) :=
  [.make 0, .sched (.schedule none (.ofFiber (some (.made 0)) none)), .sched (.scan 0),
    .sched (.resume 0), .addEvent 0, .sched (.yield 0), .sched (.save 0), .sched (.complete 0),
    .triggerEvent 0, .sched (.scan 1), .sched (.resume 1), .sched (.finish 1), .sched (.save 1),
    .sched (.complete 1), .drop (.made 0)]

theorem pointers_safe_wokenRun :
    ∃ s, (system [0, 1]).Reachable guard s ∧ s.object (.made 0) = .destroyed .term ∧
      s.failed = none ∧ Safe [0, 1] s := by
  obtain ⟨s, hs, hp⟩ := Reachable.of_replay (T := system [0, 1]) (G := guard)
    (g := fun s a => decide (guard s a)) (fun _ _ h => of_decide_eq_true h) (l := wokenRun)
    (p := fun s => s.object (.made 0) == .destroyed .term && s.failed == none)
    start_initial (by decide)
  simp only [Bool.and_eq_true, beq_iff_eq] at hp
  exact ⟨s, hs, hp.1, hp.2, pointers_safe (by decide) hs⟩

/-! ## Fibers that nobody wakes -/

/-- The step resumes a callback in the fiber `f` that is made for it. -/
def Makes (b : Scheduler.Label τ) (c' : Scheduler.State τ) (f : FiberId) : Prop :=
  ∃ t e, b = .resume t ∧ c'.pc t = .exec e f ∧ e.task.fiber = none

omit [DecidableEq τ] in
theorem Makes.raw {b : Scheduler.Label τ} (h : Makes b c' f) (hfollow : s.follow b c' = some s') :
    s.object f = .raw := by
  obtain ⟨t, e, rfl, hpc, hnone⟩ := h
  simp only [State.follow, hpc] at hfollow
  obtain ⟨s₁, hmake, -⟩ := Option.bind_eq_some_iff.mp hfollow
  rw [State.makeCbFiber, hnone, if_neg (by simp)] at hmake
  obtain ⟨object, hobject, -⟩ := Option.map_eq_some_iff.mp hmake
  exact raw_of_make hobject

theorem mem_held_update {pcs : τ → Pc τ} {pc : Pc τ}
    (h : f ∈ held W refers (Function.update pcs t pc)) :
    refers pc = some f ∨ f ∈ held W refers pcs := by
  obtain ⟨u, hu, hf⟩ := mem_held.mp h
  rw [Function.update_apply] at hf
  split at hf
  · exact .inl hf
  · exact .inr (mem_held.mpr ⟨u, hu, hf⟩)

/-- A thread goes to a point where it runs nothing, or the fiber of its task. -/
theorem Works.update (h : Works W c) {pc : Pc τ} (ht : t ∈ W)
    (hpc : c'.pc = Function.update c.pc t pc)
    (hruns : ∀ e g, pc.holding = some e → pc.onStack = some g → TaskEntry.runsOn e = some g) :
    Works W c' := by
  constructor
  case members =>
    intro u hu
    have hne : u ≠ t := by
      rintro rfl
      exact hu ht
    rw [hpc, Function.update_of_ne hne]
    exact h.members u hu
  case runs =>
    intro u e g
    rw [hpc, Function.update_apply]
    split
    · exact hruns e g
    · exact h.runs u e g

theorem Works.step (h : Works W c) {b : Scheduler.Label τ} (hstep : Step W c b c') :
    Works W c' := by
  cases hstep with
  | schedule | stop | outside => exact ⟨h.members, h.runs⟩
  | take t e ht | leave t ht | rest t ht | complete t e ht => exact h.update ht rfl nofun
  | save t e g x ht => exact h.update ht rfl nofun
  | idle t ht =>
    have hpc : (c.idleTurn t).pc = Function.update c.pc t .scan := by
      unfold Scheduler.State.idleTurn
      split <;> rfl
    exact h.update ht hpc nofun
  | resume t e g x ht hpc hruns =>
    refine h.update ht rfl fun e' g' he hg => ?_
    cases he
    cases hg
    exact hruns
  | yield t e g x ht hpc | finish t e g x ht hpc =>
    refine h.update ht rfl fun e' g' he hg => h.runs t e' g' ?_ ?_
    · rw [hpc]
      exact he
    · rw [hpc]
      exact hg

/-- The scheduler works with the pointers that it is given and with the fibers that it makes. -/
theorem Works.given_or_made (h : Works W c) {b : Scheduler.Label τ} (hstep : Step W c b c')
    (hf : f ∈ c'.tasks.filterMap (·.task.fiber) ++ held W refers c'.pc) :
    f ∈ c.tasks.filterMap (·.task.fiber) ++ held W refers c.pc ∨
      (∃ caller task, b = .schedule caller task ∧ task.fiber = some f) ∨ Makes b c' f := by
  have had {t : τ} {pc : Pc τ} (ht : t ∈ W) (hpc : c.pc t = pc) (hrefers : refers pc = some f) :
      f ∈ c.tasks.filterMap (·.task.fiber) ++ held W refers c.pc :=
    List.mem_append_right _ (mem_held.mpr ⟨t, ht, by rw [hpc, hrefers]⟩)
  -- the queue stays, and one thread goes to another point
  have moved {t : τ} {pc : Pc τ} (htasks : c'.tasks = c.tasks)
      (hpc : c'.pc = Function.update c.pc t pc)
      (hrefers : refers pc = some f → f ∈ c.tasks.filterMap (·.task.fiber) ++ held W refers c.pc) :
      f ∈ c.tasks.filterMap (·.task.fiber) ++ held W refers c.pc := by
    rw [htasks, hpc] at hf
    obtain hf | hf := List.mem_append.mp hf
    · exact List.mem_append_left _ hf
    · exact (mem_held_update hf).elim hrefers (List.mem_append_right _)
  cases hstep with
  | schedule caller task =>
    rw [fibers_schedule, List.append_assoc] at hf
    obtain hf | hf := List.mem_append.mp hf
    · exact .inl (List.mem_append_left _ hf)
    · obtain hf | hf := List.mem_append.mp hf
      · exact .inr (.inl ⟨caller, task, rfl, Option.mem_toList.mp hf⟩)
      · exact .inl (List.mem_append_right _ hf)
  | take t e ht hpc he =>
    obtain ⟨pre, post, htasks, hrest, -⟩ := scan_some he
    left
    have htask {x : TaskEntry τ} (hx : x ∈ c.tasks) (hxf : x.task.fiber = some f) :
        f ∈ c.tasks.filterMap (·.task.fiber) ++ held W refers c.pc :=
      List.mem_append_left _ (List.mem_filterMap.mpr ⟨x, hx, hxf⟩)
    obtain hf | hf := List.mem_append.mp hf
    · obtain ⟨x, hx, hxf⟩ := List.mem_filterMap.mp hf
      rw [Scheduler.State.setPc_tasks, hrest] at hx
      refine htask ?_ hxf
      rw [htasks]
      simp only [List.mem_append, List.mem_cons] at hx ⊢
      tauto
    · exact (mem_held_update hf).elim (htask (by rw [htasks]; simp)) (List.mem_append_right _)
  | leave | rest | complete => exact .inl (moved rfl rfl nofun)
  | resume t e g x ht hpc hg hx =>
    cases hfiber : e.task.fiber with
    | some g' =>
      refine .inl (moved rfl rfl fun hgf => had ht hpc ?_)
      rw [TaskEntry.runsOn, hfiber] at hg
      exact hfiber.trans (hg.trans hgf)
    | none =>
      by_cases hgf : g = f
      · exact .inr (.inr ⟨t, e, rfl, by simp [hgf], hfiber⟩)
      · exact .inl (moved rfl rfl fun hfg => absurd (Option.some.inj hfg) hgf)
  | yield t e g x ht hpc => exact .inl (moved rfl rfl fun hg => had ht hpc hg)
  | finish t e g x ht hpc => exact .inl (moved rfl rfl fun hg => had ht hpc hg)
  | save t e g x ht hpc =>
    have hruns := h.runs t e g (by rw [hpc]; rfl) (by rw [hpc]; rfl)
    exact .inl (moved rfl rfl fun hg => had ht hpc (hruns.symm.trans hg))
  | idle t ht hpc =>
    have hturn : (c.idleTurn t).tasks = c.tasks ∧
        (c.idleTurn t).pc = Function.update c.pc t .scan := by
      unfold Scheduler.State.idleTurn
      split <;> exact ⟨rfl, rfl⟩
    exact .inl (moved hturn.1 hturn.2 nofun)
  | stop | outside => exact .inl hf

/-- A thread changes the fiber that it is on, and one that it resumes. -/
theorem Works.fiberState_step (h : Works W c) {b : Scheduler.Label τ} (hstep : Step W c b c')
    (houtside : ∀ g x, b ≠ .outside g x) :
    c'.fiberState f = c.fiberState f ∨ f ∈ held W refers c.pc ∨ Makes b c' f := by
  -- the fiber `g` is set, and nothing else
  have changed {g : FiberId} {x : Fiber} {d : Scheduler.State τ} (hd : d.fiber = c.fiber)
      (hg : g = f → f ∈ held W refers c.pc ∨ Makes b c' f) :
      (d.setFiber g x).fiberState f = c.fiberState f ∨ f ∈ held W refers c.pc ∨
        Makes b c' f := by
    by_cases hgf : g = f
    · exact .inr (hg hgf)
    · refine .inl ?_
      rw [fiberState_setFiber, if_neg (Ne.symm hgf), Scheduler.State.fiberState, hd]
      rfl
  cases hstep with
  | schedule | take | leave | rest | complete | stop => exact .inl rfl
  | resume t e g x ht hpc hruns =>
    refine changed rfl fun hgf => ?_
    subst hgf
    cases hfiber : e.task.fiber with
    | some g' =>
      rw [TaskEntry.runsOn, hfiber] at hruns
      exact .inl (mem_held.mpr ⟨t, ht, by rw [hpc]; exact hfiber.trans hruns⟩)
    | none => exact .inr ⟨t, e, rfl, by simp, hfiber⟩
  | yield t e g x ht hpc | finish t e g x ht hpc | save t e g x ht hpc =>
    refine changed rfl fun hgf => .inl (h.mem_held_of_onStack (t := t) ?_)
    rw [hpc, hgf]
    rfl
  | idle t =>
    refine .inl ?_
    unfold Scheduler.State.idleTurn
    split <;> rfl
  | outside g x => exact absurd rfl (houtside g x)

/-- A step copies the pointers that there are, and makes the first one to a new fiber. -/
theorem Moves.holders_step {a : Label τ} (h : Works W s.sched) (hstep : Moves W s a s')
    (hf : f ∈ s'.holders W) : f ∈ s.holders W ∨ s.object f = .raw := by
  have same {c' : Scheduler.State τ} {waiting handles : List FiberId}
      (hf : f ∈ c'.tasks.filterMap (·.task.fiber) ++ held W refers c'.pc ++ waiting ++ handles)
      (hsched : f ∈ c'.tasks.filterMap (·.task.fiber) ++ held W refers c'.pc →
        f ∈ s.holders W ∨ s.object f = .raw)
      (hwaiting : f ∈ waiting → f ∈ s.holders W) (hhandles : f ∈ handles → f ∈ s.holders W) :
      f ∈ s.holders W ∨ s.object f = .raw := by
    obtain hf | hf := List.mem_append.mp hf
    · obtain hf | hf := List.mem_append.mp hf
      · exact hsched hf
      · exact .inl (hwaiting hf)
    · exact .inl (hhandles hf)
  have hsched (hf : f ∈ s.sched.tasks.filterMap (·.task.fiber) ++ held W refers s.sched.pc) :
      f ∈ s.holders W ∨ s.object f = .raw :=
    .inl (List.mem_append_left _ (List.mem_append_left _ hf))
  -- what the scheduler has, it had, was given, or makes
  have worked {b : Scheduler.Label τ} {c' : Scheduler.State τ} (hsched : Step W s.sched b c')
      (hgiven : ∀ caller task, b = .schedule caller task → task.fiber = some f → f ∈ s.holders W)
      (hmakes : Makes b c' f → s.object f = .raw)
      (hf : f ∈ c'.tasks.filterMap (·.task.fiber) ++ held W refers c'.pc) :
      f ∈ s.holders W ∨ s.object f = .raw := by
    obtain hf | ⟨caller, task, hb, htask⟩ | hmake := h.given_or_made hsched hf
    · exact .inl (List.mem_append_left _ (List.mem_append_left _ hf))
    · exact .inl (hgiven caller task hb htask)
    · exact .inr (hmakes hmake)
  have hwaiting (hf : f ∈ s.waiting) : f ∈ s.holders W :=
    List.mem_append_left _ (List.mem_append_right _ hf)
  have hhandles (hf : f ∈ s.handles) : f ∈ s.holders W := List.mem_append_right _ hf
  cases hstep with
  | make n object hmake =>
    refine (List.mem_append.mp hf).elim (fun hf => .inl (List.mem_append_left _ hf)) fun hf => ?_
    obtain rfl | hf := List.mem_cons.mp hf
    · exact .inr (raw_of_make hmake)
    · exact .inl (hhandles hf)
  | copy g object hg hretain =>
    refine same hf hsched hwaiting fun hf => ?_
    obtain rfl | hf := List.mem_cons.mp hf
    · exact hhandles hg
    · exact hhandles hf
  | getThis t g object hg hretain =>
    refine same hf hsched hwaiting fun hf => ?_
    obtain rfl | hf := List.mem_cons.mp hf
    · exact mem_of_executing hg
    · exact hhandles hf
  | addEvent t g object hg hretain =>
    refine same hf hsched (fun hf => ?_) hhandles
    obtain hf | hf := List.mem_append.mp hf
    · exact hwaiting hf
    · exact List.mem_singleton.mp hf ▸ mem_of_executing hg
  | drop g s' hg hrelease =>
    obtain ⟨object, failed, rfl⟩ := release_eq hrelease
    exact same hf hsched hwaiting fun hf => hhandles (List.mem_of_mem_erase hf)
  | delEvent i g s' hg hrelease =>
    obtain ⟨object, failed, rfl⟩ := release_eq hrelease
    exact same hf hsched (fun hf => hwaiting (List.mem_of_mem_eraseIdx hf)) hhandles
  | triggerEvent i g object s' hg hstep hretain hrelease =>
    obtain ⟨object', failed, rfl⟩ := release_eq hrelease
    refine same hf (worked hstep (fun caller task hb htask => ?_) ?_)
      (fun hf => hwaiting (List.mem_of_mem_eraseIdx hf)) hhandles
    · cases hb
      cases htask
      exact hwaiting (List.mem_of_getElem? hg)
    · rintro ⟨t, e, hb, -⟩
      cases hb
  | sched b c' s' hstep hfollow =>
    obtain ⟨rfl, hw, hh, -⟩ := follow_eq hfollow
    refine same hf (worked hstep (fun caller task hb htask => ?_) (·.raw hfollow)) (by rwa [hw])
      (by rwa [hh])
    rw [hb, State.follow, htask] at hfollow
    by_contra hnot
    have hhandle : f ∉ s.handles := fun hmem => hnot (hhandles hmem)
    simp [hhandle] at hfollow

/-- `cur` goes when its callback returns. -/
theorem Moves.cur_kept {a : Label τ} (h : Works W s.sched) (hstep : Moves W s a s')
    (hf : f ∈ s.curs) : f ∈ s'.curs ∨ f ∈ s.holders W := by
  cases hstep with
  | make | copy | getThis | addEvent => exact .inl hf
  | drop g s' hg hrelease | delEvent i g s' hg hrelease =>
    obtain ⟨object, failed, rfl⟩ := release_eq hrelease
    exact .inl hf
  | triggerEvent i g object s' hg hstep hretain hrelease =>
    obtain ⟨object', failed, rfl⟩ := release_eq hrelease
    exact .inl hf
  | sched b c' s' hstep hfollow =>
    obtain ⟨-, -, -, hcurs | ⟨t, e, g, hpc, hcurs⟩⟩ := follow_eq hfollow
    · exact .inl (hcurs hf)
    · by_cases hfg : f = g
      · have hheld := h.mem_held_of_onStack (t := t) (f := f) (by rw [hpc, hfg]; rfl)
        exact .inr (by simp [State.holders, hheld])
      · exact .inl (hcurs ▸ (List.mem_erase_of_ne hfg).mpr hf)

omit [DecidableEq τ] in
theorem retain_object (h : s.retain g = some s') (hfg : f ≠ g) : s'.object f = s.object f := by
  obtain ⟨object, hretain, rfl⟩ := Option.map_eq_some_iff.mp h
  exact SharedPtr.retain_other hretain hfg

omit [DecidableEq τ] in
theorem release_object (h : s.release g = some s') (hfg : f ≠ g) : s'.object f = s.object f := by
  obtain ⟨object, hrelease, rfl⟩ := Option.map_eq_some_iff.mp h
  exact SharedPtr.release_other hrelease hfg

omit [DecidableEq τ] in
/-- The scheduler counts and drops the pointers that it was given or has. -/
theorem Works.follow_object {b : Scheduler.Label τ} (h : Works W s.sched)
    (hfollow : s.follow b c' = some s') (hcur : f ∈ s.curs) (hmade : s.object f ≠ .raw)
    (halone : f ∉ s.holders W) : s'.object f = s.object f := by
  have apart {g : FiberId} (hg : g ∈ s.holders W) : f ≠ g :=
    (ne_of_mem_of_not_mem hg halone).symm
  have hheld {t : τ} {g : FiberId} (hg : refers (s.sched.pc t) = some g) : f ≠ g :=
    apart (by simp [State.holders, h.held_of_refers hg])
  cases b with
  | schedule caller task =>
    simp only [State.follow] at hfollow
    split at hfollow
    · cases hfollow
      rfl
    · split at hfollow
      · rename_i hmem
        exact (retain_object hfollow (apart (List.mem_append_right _ hmem)) :)
      · cases hfollow
  | resume t =>
    simp only [State.follow] at hfollow
    split at hfollow
    · rename_i e g hpc
      obtain ⟨s₁, hmake, hmain⟩ := Option.bind_eq_some_iff.mp hfollow
      have hmade : s₁.object f = s.object f ∧ s₁.curs = s.curs := by
        unfold State.makeCbFiber at hmake
        split at hmake
        · cases hmake
          exact ⟨rfl, rfl⟩
        · obtain ⟨object, hobject, rfl⟩ := Option.map_eq_some_iff.mp hmake
          refine ⟨SharedPtr.make_other hobject ?_, rfl⟩
          rintro rfl
          exact hmade (raw_of_make hobject)
      unfold State.mainFunc at hmain
      split at hmain
      · cases hmain
        exact hmade.1
      · rename_i hnot
        obtain ⟨s₂, hretain, rfl⟩ := Option.map_eq_some_iff.mp hmain
        have hfg : f ≠ g := by
          rintro rfl
          exact hnot (hmade.2 ▸ hcur)
        exact (retain_object hretain hfg).trans hmade.1
    · cases hfollow
  | finish t =>
    simp only [State.follow] at hfollow
    split at hfollow
    · rename_i e g hpc
      exact (release_object hfollow (hheld (t := t) (by rw [hpc]; rfl)) :)
    · cases hfollow
  | complete t =>
    simp only [State.follow] at hfollow
    split at hfollow
    · rename_i e hpc
      obtain ⟨g, hg, hrelease⟩ := Option.bind_eq_some_iff.mp hfollow
      exact (release_object hrelease (hheld (t := t) (by rw [hpc]; exact hg)) :)
    · cases hfollow
  | outside g x => cases hfollow
  | scan | yield | save | idle | stop =>
    cases hfollow
    rfl

/-- Whoever counts or drops a pointer has one. -/
theorem Moves.object_kept {a : Label τ} (h : Works W s.sched) (hstep : Moves W s a s')
    (hcur : f ∈ s.curs) (hmade : s.object f ≠ .raw) (halone : f ∉ s.holders W) :
    s'.object f = s.object f := by
  have apart {g : FiberId} (hg : g ∈ s.holders W) : f ≠ g :=
    (ne_of_mem_of_not_mem hg halone).symm
  have hwaiting {g : FiberId} (hg : g ∈ s.waiting) : f ≠ g :=
    apart (List.mem_append_left _ (List.mem_append_right _ hg))
  have hhandles {g : FiberId} (hg : g ∈ s.handles) : f ≠ g := apart (List.mem_append_right _ hg)
  cases hstep with
  | make n object hmake =>
    refine SharedPtr.make_other hmake ?_
    rintro rfl
    exact hmade (raw_of_make hmake)
  | copy g object hg hretain => exact SharedPtr.retain_other hretain (hhandles hg)
  | getThis t g object hg hretain | addEvent t g object hg hretain =>
    exact SharedPtr.retain_other hretain (apart (mem_of_executing hg))
  | drop g s' hg hrelease =>
    exact (release_object hrelease (hhandles hg) :)
  | delEvent i g s' hg hrelease =>
    exact (release_object hrelease (hwaiting (List.mem_of_getElem? hg)) :)
  | triggerEvent i g object s' hg hstep hretain hrelease =>
    have hne := hwaiting (List.mem_of_getElem? hg)
    exact (release_object hrelease hne).trans (SharedPtr.retain_other hretain hne)
  | sched b c' s' hstep hfollow => exact h.follow_object hfollow hcur hmade halone

/-- The callback of a fiber goes on only where somebody has a pointer to it. -/
theorem Moves.fiberState_kept {a : Label τ} (h : Works W s.sched) (hstep : Moves W s a s')
    (hmade : s.object f ≠ .raw) (halone : f ∉ s.holders W) :
    s'.sched.fiberState f = s.sched.fiberState f := by
  cases hstep with
  | make | copy | getThis | addEvent => rfl
  | drop g s' hg hrelease | delEvent i g s' hg hrelease =>
    obtain ⟨object, failed, rfl⟩ := release_eq hrelease
    rfl
  | triggerEvent i g object s' hg hstep hretain hrelease =>
    obtain ⟨object', failed, rfl⟩ := release_eq hrelease
    rfl
  | sched b c' s' hstep hfollow =>
    obtain ⟨rfl, -⟩ := follow_eq hfollow
    have houtside (g : FiberId) (x : Fiber) : b ≠ .outside g x := by
      rintro rfl
      cases hfollow
    obtain hsame | hheld | hmakes := h.fiberState_step (f := f) hstep houtside
    · exact hsame
    · exact absurd (by simp [State.holders, hheld]) halone
    · exact absurd (hmakes.raw hfollow) hmade

/-- The only pointer to `f` is its own `cur`, and its callback has not returned. -/
structure Forgotten (W : List τ) (f : FiberId) (s : State τ) : Prop where
  works : Works W s.sched
  cur : f ∈ s.curs
  alone : f ∉ s.holders W
  object : s.object f = .live 1
  inside : s.sched.fiberState f ≠ .term

omit [DecidableEq τ] in
theorem Sound.forgotten (h : Sound W s) (hstarted : s.started f = true)
    (hstate : s.sched.fiberState f ≠ .term) (huse : s.object f = .live 1) : Forgotten W f s := by
  have hcur := (h.owned.inside.returned f hstarted).resolve_right hstate
  refine ⟨h.works, hcur, fun hmem => ?_, huse, hstate⟩
  have hcount := h.owned.counts.useCount f
  have hone : (s.holders W).count f + s.curs.count f = 1 := by
    rw [huse, List.nil_append, State.pointers, List.count_append] at hcount
    exact hcount.symm
  have := List.count_pos_iff.mpr hmem
  have := List.count_pos_iff.mpr hcur
  omega

/-- No step brings a forgotten fiber back, whatever else it does. -/
theorem Forgotten.step (h : Forgotten W f s) {a : Label τ} (hstep : Moves W s a s') :
    Forgotten W f s' := by
  have hmade : s.object f ≠ .raw := by simp [h.object]
  constructor
  case works =>
    obtain hsame | ⟨b, hsched, -⟩ := hstep.sched_eq
    · exact hsame ▸ h.works
    · exact h.works.step hsched
  case cur => exact (hstep.cur_kept h.works h.cur).resolve_right h.alone
  case alone =>
    intro hmem
    exact (hstep.holders_step h.works hmem).elim h.alone hmade
  case object => exact (hstep.object_kept h.works h.cur hmade h.alone).trans h.object
  case inside =>
    rw [hstep.fiberState_kept h.works hmade h.alone]
    exact h.inside

theorem forgotten_preserved (f : FiberId) : (system W).Preserved free (Forgotten W f) :=
  fun _ _ _ h _ hstep => h.step (moves_of_step hstep)

/-- A suspended fiber that has no other pointer than its own `cur` is never resumed, and its
destructor never runs, however the run goes on. -/
theorem forgotten_stays (hW : W.Nodup) (hs : (system W).Reachable guard s)
    (hstarted : s.started f = true) (hstate : s.sched.fiberState f ≠ .term)
    (huse : s.object f = .live 1) (hpath : (system W).Path free s s') :
    s'.object f = .live 1 ∧ s'.sched.fiberState f ≠ .term ∧
      ∀ t, (s'.sched.pc t).onStack ≠ some f := by
  have h := (forgotten_preserved f).path hpath
    ((sound_of_reachable hW hs).forgotten hstarted hstate huse)
  refine ⟨h.object, h.inside, fun t ht => h.alone ?_⟩
  simp [State.holders, h.works.mem_held_of_onStack ht]

/-- The fiber that thread 0 runs registers an event and yields, user code drops its pointer, and
the event is deleted: the fiber stays inside its callback. -/
def forgottenRun : List (Label Nat) :=
  [.make 0, .sched (.schedule none (.ofFiber (some (.made 0)) none)), .sched (.scan 0),
    .sched (.resume 0), .addEvent 0, .sched (.yield 0), .sched (.save 0), .sched (.complete 0),
    .drop (.made 0), .delEvent 0]

/-- Another task runs to its end. -/
def otherRun : List (Label Nat) :=
  [.sched (.schedule none (.ofCb (some 7) none)), .sched (.scan 0), .sched (.resume 0),
    .sched (.finish 0), .sched (.save 0), .sched (.complete 0)]

theorem forgotten_stays_forgottenRun :
    ∃ s s', (system [0, 1]).Reachable guard s ∧ (system [0, 1]).Path free s s' ∧
      s'.sched.finished = [0, 1] ∧ s'.object (.made 0) = .live 1 ∧
      s'.sched.fiberState (.made 0) ≠ .term ∧
      ∀ t, (s'.sched.pc t).onStack ≠ some (.made 0) := by
  obtain ⟨s, s', hs, hpath, hp⟩ := Reachable.of_replays (T := system [0, 1]) (G := guard)
    (H := free) (g := fun _ _ => true) (fun _ _ h => of_decide_eq_true h) (fun _ _ _ => trivial)
    (k := forgottenRun) (l := otherRun)
    (p := fun s s' => s.started (.made 0) && s.sched.fiberState (.made 0) != .term &&
      s.object (.made 0) == .live 1 && s'.sched.finished == [0, 1]) start_initial (by decide)
  simp only [Bool.and_eq_true, beq_iff_eq, bne_iff_ne] at hp
  exact ⟨s, s', hs, hpath, hp.2,
    forgotten_stays (by decide) hs hp.1.1.1 hp.1.1.2 hp.1.2 hpath⟩

end Ownership
