-- SUMMARY: Exactly which shared fields two threads can race for: the ones that some function accesses without the mutex that guards them elsewhere.
import MyCoroutine.Threads.Deadlock

/-! # Data races

Two threads race for a field when both are about to access it, and one of them to write it.
A field that is accessed under its mutex only is never raced for. For each of the others two
calls are enough. -/

namespace Threads

open IOManager Locking TransitionSystem

variable {τ : Type} [DecidableEq τ] {W : List τ} {capacity : SchedulerId → ℕ} {t u : τ}

theorem guarded_of_called (p : Acts) (hp : Called τ p) : Keeps (Guarded guard) [] p :=
  (keeps_of_called hp).mono fun _ _ h => h.2.2

/-- Some run comes to a race for the field. -/
def Raced (τ : Type) [DecidableEq τ] (W : List τ) (capacity : SchedulerId → ℕ) (x : Field) :
    Prop :=
  ∃ st : State τ Mutex Field SchedulerId,
    (system W capacity).Reachable (calls (Called τ)) st ∧ st.Race W x

section

variable (ht : t ∈ W) (hu : u ∈ W) (htu : t ≠ u) (s : SchedulerId)
include ht hu htu

/-- Two calls are enough, where the mutexes that one holds before its write let the other come to
its access. -/
theorem raced_of_calls {x : Field} {P Q p q p' q' : Acts} {b : Act Mutex Field SchedulerId}
    (hP : Called τ P) (hQ : Called τ Q) (hp : P = p ++ .write x :: p') (hq : Q = q ++ b :: q')
    (hb : b = .write x ∨ b = .read x) (hputs : ∀ pipe, .put pipe ∉ p ++ q)
    (hshare : ∀ k ∈ holdAll [] p, ∀ mode, .acquire k.1 mode ∈ q →
      k.2 = .shared ∧ mode = .shared) : Raced τ W capacity x :=
  exists_race rises_of_called ht hu htu (hp ▸ hP) (hq ▸ hQ) hb hputs hshare

/-- `stop` sets `m_stopping` without the mutex under which `stopping` reads it. -/
theorem raced_stopping : Raced τ W capacity (.stopping s) := by
  refine raced_of_calls ht hu htu (.stop s (.init 0) 0 1 false false [])
    (.stopping s (.init 0) 0 0 false) (p := getNextTimer s (.init 0))
    (q := getNextTimer s (.init 0) ++ [.acquire (.scheduler s) .exclusive]) rfl rfl (.inr rfl)
    ?_ ?_
  · simp [getNextTimer, locked, TimerManager.init]
  · simp [getNextTimer, locked, TimerManager.init, holdAll, Act.hold]

/-- A fiber yields while a scan looks at its state. -/
theorem raced_state (f : FiberId) : Raced τ W capacity (.state f) := by
  let found : Moment τ :=
    ⟨[⟨0, .ofFiber (some f) none⟩], ⟨⟨false, .init FdManager.noKernel⟩, false, 4⟩⟩
  refine raced_of_calls ht hu htu (.yield f false) (.run 0 t (fun _ => .running) found)
    (p := [.read (.state f)]) (q := [.acquire (.scheduler 0) .exclusive, .read (.tasks 0)])
    rfl rfl (.inr rfl) (by simp) (by simp [holdAll, Act.hold])

/-- Another thread resumes a fiber that has not saved its context yet. -/
theorem raced_ctx (f : FiberId) : Raced τ W capacity (.ctx f) :=
  raced_of_calls ht hu htu (.yield f false) (.resume f) (p := [.read (.state f), .write (.state f)])
    (q := [.read (.state f), .write (.state f)]) rfl rfl (.inr rfl) (by simp)
    (by simp [holdAll, Act.hold])

/-- Two threads reset a fiber. -/
theorem raced_cb (f : FiberId) : Raced τ W capacity (.cb f) :=
  raced_of_calls ht hu htu (.resetFiber f) (.resetFiber f) (p := [.read (.state f)])
    (q := [.read (.state f)]) rfl rfl (.inl rfl) (by simp) (by simp [holdAll, Act.hold])

/-- `addEvent` looks at the `FdContext` while `delEvent` has its lock. -/
theorem raced_context (fd : Nat) : Raced τ W capacity (.context s fd) := by
  -- a table in which `fd` is watched for reading
  let c : FdContext := { FdContext.new fd with events := Event.read.bits }
  let io : IOManager := ⟨0, 1, List.replicate (fd + 1) c, fun _ => some 0⟩
  have hlength : ¬ io.fdContexts.length ≤ fd := by simp [io]
  have hget : io.fdContexts[fd]? = some c := by simp [io]
  have hinterest : io.interest fd = some 0 := rfl
  have hevents : c.events = 1 := rfl
  clear_value io c
  have hdel : (io.delEvent fd .read true).any (fun r => r.1) = true := by
    simp [IOManager.delEvent, hlength, hget, hinterest, hevents, Event.bits, epollCtl,
      FdContext.getEventContext]
  obtain ⟨rest, hrest⟩ : ∃ rest, delEvent s io fd .read true =
      [.acquire (.table s) .shared, .read (.fdContexts s), .release (.table s),
        .acquire (.context s fd) .exclusive, .read (.context s fd)] ++
        .write (.context s fd) :: rest := by
    simp [delEvent, withContext, locked, hlength, hdel]
  refine raced_of_calls ht hu htu (.delEvent s io fd .read true)
    (.addEvent s io fd ⟨none, .forTask 0, .running⟩ .write (some 0) true) hrest rfl (.inr rfl) ?_ ?_
  · split <;> simp [locked]
  · split <;> simp [locked, holdAll, Act.hold]

/-- `getNextTimer` writes under the shared lock. -/
theorem raced_tickled : Raced τ W capacity (.tickled s) := by
  refine raced_of_calls ht hu htu (.getNextTimer s (.init 0)) (.getNextTimer s (.init 0))
    (p := [.acquire (.timers s) .shared]) (q := [.acquire (.timers s) .shared]) rfl rfl (.inl rfl)
    (by simp) ?_
  simp [holdAll, Act.hold]

/-- `reset` compares `m_ms` before it takes the mutex. -/
theorem raced_ms (a : Nat) : Raced τ W capacity (.ms s a) := by
  -- the timer at `a` is the only one
  let m : TimerManager CbId := { (TimerManager.init 0).setTimer a ⟨false, 0, 0, some 0⟩ with
    timers := [a] }
  have htimer : m.timer a = some ⟨false, 0, 0, some 0⟩ := Function.update_self ..
  have htimers : m.timers = [a] := rfl
  obtain ⟨m', herase⟩ : ∃ m', m.erase a = some m' := by
    simp [TimerManager.erase, OrderedSet.erase, TimerManager.less, Timer.comparator, htimers]
  clear_value m
  let wake : Wake := ⟨⟨false, .init FdManager.noKernel⟩, false, 4⟩
  obtain ⟨rest, hrest⟩ : ∃ rest, reset s m a 0 1 false wake =
      [.read (.ms s a), .acquire (.timers s) .exclusive, .read (.timer s a), .read (.timer s a),
        .write (.timers s)] ++ .write (.ms s a) :: rest := by
    simp [reset, locked, compared, htimer, htimers, herase]
  exact raced_of_calls ht hu htu (.reset s m a 0 1 false wake) (.reset s m a 0 1 false wake)
    (q := []) hrest rfl (.inr rfl) (by simp) (by simp)

theorem raced_fdCtx (c : CtxId) : Raced τ W capacity (.fdCtx c) :=
  raced_of_calls ht hu htu (.updateCtx c) (.readCtx c) (p := []) (q := []) rfl rfl (.inr rfl)
    (by simp) (by simp [holdAll])

/-- A fiber that an event has woken looks whether its timer has expired. -/
theorem raced_cancelled (i : Nat) : Raced τ W capacity (.cancelled i) :=
  raced_of_calls ht hu htu (.onTimeout i false) (.readCancelled i) (p := [.read (.cancelled i)])
    (q := []) rfl rfl (.inr rfl) (by simp) (by simp [holdAll, Act.hold])

end

/-- Two threads can race for a field, in some run of the calls of the library, exactly when some
function accesses it without its guard. -/
theorem raced_iff (capacity : SchedulerId → ℕ) (ht : t ∈ W) (hu : u ∈ W) (htu : t ≠ u) (x : Field) :
    Raced τ W capacity x ↔ guard x = none := by
  constructor
  · rintro ⟨st, hs, hrace⟩
    by_contra hguarded
    obtain ⟨l, hl⟩ := Option.ne_none_iff_exists'.mp hguarded
    exact not_race guarded_of_called hl hs hrace
  · intro hx
    cases x with
    | stopping s => exact raced_stopping ht hu htu s
    | state f => exact raced_state ht hu htu f
    | ctx f => exact raced_ctx ht hu htu f
    | cb f => exact raced_cb ht hu htu f
    | context s fd => exact raced_context ht hu htu s fd
    | tickled s => exact raced_tickled ht hu htu s
    | ms s a => exact raced_ms ht hu htu s a
    | fdCtx c => exact raced_fdCtx ht hu htu c
    | cancelled i => exact raced_cancelled ht hu htu i
    | tasks | threads | fdContexts | timers | previouseTime | timer | datas => cases hx

theorem raced_iff_twoThreads :
    Raced Nat [0, 1] (fun _ => 65536) (.tickled 0) ∧
      ¬ Raced Nat [0, 1] (fun _ => 65536) (.tasks 0) := by
  have hiff (x : Field) : Raced Nat [0, 1] (fun _ => 65536) x ↔ guard x = none :=
    raced_iff (t := 0) (u := 1) (fun _ => 65536) (by decide) (by decide) (by decide) x
  exact ⟨(hiff _).mpr rfl, fun hraced => by cases (hiff _).mp hraced⟩

end Threads
