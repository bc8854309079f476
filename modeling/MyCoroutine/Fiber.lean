-- SUMMARY: Fiber states, and the steps of resume, yield and the end of MainFunc as far as other threads can see them.
import Mathlib.Data.Option.Basic

/-! # Fibers

`Fiber.cpp` switches contexts with `swapcontext`, which is one call but not one
step for the other threads: `yield` stores `m_state` first and the context is
saved afterwards. This module keeps exactly the two facts about a fiber that
another thread can act on: `m_state`, which the scan of the scheduler reads, and
whether `m_ctx` holds the context of the latest yield. -/

/-- `Fiber::State`. -/
inductive Fiber.State where
  | ready
  | running
  | term
  deriving DecidableEq, Repr

/-- A fiber object: one that user code constructed, or the one `Scheduler::run`
constructs for the callback pushed as number `k`. -/
inductive FiberId where
  | made (n : Nat)
  | forTask (k : Nat)
  deriving DecidableEq, Repr

structure Fiber where
  /-- `m_state`. -/
  state : Fiber.State
  /-- `m_ctx` holds the context of the latest yield, or of `makecontext`. -/
  saved : Bool
  deriving DecidableEq, Repr

namespace Fiber

/-- `Fiber::Fiber(cb, stacksize, run_in_scheduler)`: ready, its context made. -/
def new : Fiber where
  state := .ready
  saved := true

/-- `Fiber::resume`. The assertion on `m_state` fails with `none`; the switch
uses up the saved context. -/
def resume (f : Fiber) : Option Fiber :=
  if f.state ≠ .term ∧ f.state ≠ .running then some { state := .running, saved := false }
  else none

/-- `Fiber::yield` up to `swapcontext`: the assertion and the store of `m_state`. -/
def yieldStore (f : Fiber) : Option Fiber :=
  if f.state = .running ∨ f.state = .term then
    some { f with state := if f.state ≠ .term then .ready else f.state }
  else none

/-- `swapcontext` in `Fiber::yield` has stored the context into `m_ctx`. -/
def yieldSave (f : Fiber) : Fiber :=
  { f with saved := true }

/-- `Fiber::MainFunc` after the callback returned: `m_state = TERM`, then `yield`
up to its `swapcontext`. -/
def mainFuncEnd (f : Fiber) : Option Fiber :=
  yieldStore { f with state := .term }

@[simp] theorem new_saved : new.saved = true := rfl
@[simp] theorem yieldSave_saved (f : Fiber) : f.yieldSave.saved = true := rfl
@[simp] theorem yieldSave_state (f : Fiber) : f.yieldSave.state = f.state := rfl

theorem resume_eq_some {f g : Fiber} (h : f.resume = some g) :
    f.state = .ready ∧ g.state = .running ∧ g.saved = false := by
  unfold resume at h
  split at h
  · rename_i hs
    cases h
    refine ⟨?_, rfl, rfl⟩
    cases hf : f.state <;> simp [hf] at hs ⊢
  · cases h

theorem resume_ne_none {f : Fiber} (h : f.state = .ready) : f.resume ≠ none := by
  simp [resume, h]

theorem yieldStore_state {f g : Fiber} (h : f.yieldStore = some g) :
    g.state = if f.state ≠ .term then .ready else f.state := by
  unfold yieldStore at h
  split at h <;> cases h
  rfl

theorem yieldStore_saved {f g : Fiber} (h : f.yieldStore = some g) : g.saved = f.saved := by
  unfold yieldStore at h
  split at h <;> cases h
  rfl

theorem mainFuncEnd_eq (f : Fiber) : f.mainFuncEnd = some { f with state := .term } := by
  simp [mainFuncEnd, yieldStore]

end Fiber
