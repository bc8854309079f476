-- SUMMARY: The timeouts that idle gives to epoll_wait, and exactly when they are the time that is left until the first timer.
import MyCoroutine.IOManager.Idle
import MyCoroutine.Scheduler.Machine
import MyCoroutine.Timer.Expiry
import MyCoroutine.Timer.Notice

/-! # The timeout of epoll_wait

An iteration of `idle` gets its timeout from `getNextTimer`, once, through
`stopping(timeout)`. The waiting loop clamps it and hands it to `epoll_wait` in seconds;
`epoll_wait` takes milliseconds. After `EINTR` the loop goes on with the clamped value.
The clock goes on between the calls, and other threads may change the timers. -/

namespace IOManager

variable {κ τ : Type}

/-! ## The waiting loop -/

/-- `MAX_TIMEOUT`. -/
def maxTimeout : Int := 5000

/-- `static_cast<int>(count)` on a signed 64-bit count. -/
def intOfCount (count : Int) : Int :=
  Int.bmod count 0x100000000

/-- `stopping(timeout)`, which reads the clock at `now`: what it returns, and `timeout`. -/
def stoppingTimeout (m : TimerManager κ) (io : IOManager) (sched : Scheduler.State τ)
    (now : Int) : Bool × Int :=
  let timeout := (m.getNextTimer now).1
  (timeout = -1 ∧ io.pendingEventCount = 0 ∧ sched.stoppingNow, timeout)

/-- A call of `epoll_wait`: the clock and the timers when it is made, and what comes of it. -/
structure Attempt (κ : Type) where
  reading : Int
  timers : TimerManager κ
  poll : Poll

/-- `errno == EINTR`: the loop goes on. -/
def Attempt.retried (a : Attempt κ) : Prop :=
  a.poll.rt < 0 ∧ a.poll.interrupted

instance (a : Attempt κ) : Decidable a.retried :=
  inferInstanceAs (Decidable (_ ∧ _))

/-- A call and the timeout that it is given. -/
structure Wait (κ : Type) where
  attempt : Attempt κ
  timeout : Int

/-- `next_timeout` before the call. -/
def clampTimeout (next : Int) : Int :=
  if next ≠ -1 then min next maxTimeout else maxTimeout

def timeoutArg (next : Int) : Int :=
  intOfCount (next.tdiv 1000)

/-- The calls that the waiting loop makes. -/
def waits (next : Int) : List (Attempt κ) → List (Wait κ)
  | [] => []
  | a :: attempts =>
    let next := clampTimeout next
    ⟨a, timeoutArg next⟩ :: if a.retried then waits next attempts else []

/-- The calls of an iteration of `idle` whose `getNextTimer` reads the clock at `now`. -/
def idleWaits (m : TimerManager κ) (io : IOManager) (sched : Scheduler.State τ) (now : Int)
    (attempts : List (Attempt κ)) : List (Wait κ) :=
  let r := stoppingTimeout m io sched now
  if r.1 then [] else waits r.2 attempts

/-! ## The property -/

/-- The earliest `m_next` of the timers in the set. -/
def firstDeadline (m : TimerManager κ) : Option Int :=
  (m.timers.map m.next).min?

/-- The time that is left until the first timer, and 5000 at most. -/
def Attempt.remaining (a : Attempt κ) : Int :=
  match firstDeadline a.timers with
  | none => maxTimeout
  | some d => min maxTimeout (max 0 (d - a.reading))

/-- When `epoll_wait` returns without an event. -/
def Wait.expiry (w : Wait κ) : Int :=
  w.attempt.reading + w.timeout

/-- Every call is given the time that is left. So one that ends without an event finds a timer
due or has waited 5 seconds, and has not slept past a deadline. -/
structure Punctual (calls : List (Wait κ)) : Prop where
  given : ∀ w ∈ calls, w.timeout = w.attempt.remaining
  notEarly : ∀ w ∈ calls, w.attempt.poll.rt = 0 →
    (∃ a ∈ w.attempt.timers.timers, w.attempt.timers.next a ≤ w.expiry) ∨
      w.attempt.reading + maxTimeout ≤ w.expiry
  notLate : ∀ w ∈ calls, w.attempt.poll.rt = 0 → ∀ a ∈ w.attempt.timers.timers,
    w.expiry ≤ max w.attempt.reading (w.attempt.timers.next a)

/-- The calls that are made: up to the first that is not interrupted. -/
def made : List (Attempt κ) → List (Attempt κ)
  | [] => []
  | a :: attempts => a :: if a.retried then made attempts else []

/-- The first timer is due when the call is made, and was due within a second when
`getNextTimer` read `now`; or it is due in 1 to 5 milliseconds, and by then it was due in that
many seconds, or in 5 seconds and more. -/
def UnitsAgree (m : TimerManager κ) (now : Int) (a : Attempt κ) : Prop :=
  ∃ d ∈ firstDeadline a.timers,
    (d ≤ a.reading ∧ ∃ d₀ ∈ firstDeadline m, d₀ < now + 1000) ∨
    (0 < d - a.reading ∧ d - a.reading ≤ 5 ∧
      (∀ d₀ ∈ firstDeadline m, 1000 * (d - a.reading) ≤ d₀ - now) ∧
      (d - a.reading < 5 → ∃ d₀ ∈ firstDeadline m, d₀ - now < 1000 * (d - a.reading) + 1000))

/-! ## The timeout that is given -/

theorem intOfCount_eq {count : Int} (h₀ : 0 ≤ count) (h : count < 0x80000000) :
    intOfCount count = count := by
  unfold intOfCount Int.bmod
  dsimp only
  split <;> omega

/-- Clamping again changes nothing. -/
theorem clampTimeout_clampTimeout (next : Int) :
    clampTimeout (clampTimeout next) = clampTimeout next := by
  unfold clampTimeout maxTimeout
  split <;> split <;> omega

/-- All calls of an iteration get one timeout. -/
theorem waits_eq (next : Int) (attempts : List (Attempt κ)) :
    waits next attempts = (made attempts).map fun a => ⟨a, timeoutArg (clampTimeout next)⟩ := by
  induction attempts generalizing next with
  | nil => rfl
  | cons a attempts ih =>
    unfold waits made
    dsimp only
    split
    · rw [ih, clampTimeout_clampTimeout, List.map_cons]
    · rfl

theorem firstDeadline_of_sorted {m : TimerManager κ} (h : m.Sorted) :
    firstDeadline m = m.earliest := by
  unfold firstDeadline TimerManager.earliest
  cases hl : m.timers with
  | nil => rfl
  | cons first l =>
    refine List.min?_eq_some_iff.mpr ⟨List.mem_cons_self, fun d hd => ?_⟩
    obtain ⟨b, hb, rfl⟩ := List.mem_map.mp hd
    exact h.head_le (by rw [hl]; rfl) (hl ▸ hb)

/-- The timeout is the whole seconds that are left until the first deadline, 5 without one. -/
theorem timeoutArg_eq {m : TimerManager κ} (h : m.Sorted) (now : Int) :
    timeoutArg (clampTimeout (m.getNextTimer now).1) =
      match firstDeadline m with
      | none => 5
      | some d => min 5000 (max 0 (d - now)) / 1000 := by
  rw [firstDeadline_of_sorted h, TimerManager.earliest]
  cases hl : m.timers with
  | nil =>
    have hseconds : timeoutArg (clampTimeout (-1)) = 5 := by decide
    rw [TimerManager.getNextTimer_nil hl]
    exact hseconds
  | cons first rest =>
    have hnext : (m.getNextTimer now).1 = max 0 (m.next first - now) := by
      rw [TimerManager.getNextTimer_cons hl]
      split <;> omega
    have hclamp : clampTimeout (m.getNextTimer now).1 = min 5000 (max 0 (m.next first - now)) := by
      rw [hnext, clampTimeout, maxTimeout]
      split <;> omega
    rw [hclamp, timeoutArg, Int.tdiv_eq_ediv_of_nonneg (by omega),
      intOfCount_eq (by omega) (by omega)]
    rfl

/-! ## The time that is left -/

theorem firstDeadline_mem {m : TimerManager κ} {d : Int} (h : firstDeadline m = some d) :
    (∃ b ∈ m.timers, m.next b = d) ∧ ∀ b ∈ m.timers, d ≤ m.next b := by
  obtain ⟨hmem, hle⟩ := List.min?_eq_some_iff.mp h
  obtain ⟨b, hb, hnext⟩ := List.mem_map.mp hmem
  exact ⟨⟨b, hb, hnext⟩, fun b hb => hle _ (List.mem_map_of_mem hb)⟩

theorem firstDeadline_none {m : TimerManager κ} (h : firstDeadline m = none) : m.timers = [] :=
  List.map_eq_nil_iff.mp (List.min?_eq_none_iff.mp h)

/-- A wait for the time that is left ends with a timer due, or after 5 seconds. -/
theorem Attempt.remaining_enough (a : Attempt κ) :
    (∃ b ∈ a.timers.timers, a.timers.next b ≤ a.reading + a.remaining) ∨
      a.remaining = maxTimeout := by
  unfold Attempt.remaining
  cases hd : firstDeadline a.timers with
  | none => exact .inr rfl
  | some d =>
    obtain ⟨⟨b, hb, hnext⟩, -⟩ := firstDeadline_mem hd
    dsimp only [maxTimeout]
    by_cases hfar : 5000 ≤ d - a.reading
    · exact .inr (by omega)
    · exact .inl ⟨b, hb, by omega⟩

/-- It does not sleep past a deadline. -/
theorem Attempt.remaining_le (a : Attempt κ) {b : Nat} (hb : b ∈ a.timers.timers) :
    a.reading + a.remaining ≤ max a.reading (a.timers.next b) := by
  unfold Attempt.remaining
  cases hd : firstDeadline a.timers with
  | none =>
    rw [firstDeadline_none hd] at hb
    cases hb
  | some d =>
    have hle := (firstDeadline_mem hd).2 b hb
    dsimp only
    omega

theorem Punctual.of_given {calls : List (Wait κ)}
    (h : ∀ w ∈ calls, w.timeout = w.attempt.remaining) : Punctual calls where
  given := h
  notEarly w hw _ := by
    rw [Wait.expiry, h w hw]
    exact w.attempt.remaining_enough.imp_right fun hmax => Int.le_of_eq (by rw [hmax])
  notLate w hw _ b hb := by
    rw [Wait.expiry, h w hw]
    exact w.attempt.remaining_le hb

/-! ## When the two agree -/

/-- The whole seconds from `now` are the milliseconds from the call. -/
theorem timeoutArg_eq_remaining_iff {m : TimerManager κ} (h : m.Sorted) (now : Int)
    (a : Attempt κ) :
    timeoutArg (clampTimeout (m.getNextTimer now).1) = a.remaining ↔ UnitsAgree m now a := by
  rw [timeoutArg_eq h, Attempt.remaining, UnitsAgree, maxTimeout]
  cases hd : firstDeadline a.timers with
  | none =>
    cases firstDeadline m with
    | none => simp
    | some d₀ =>
      simp only [Option.mem_def, reduceCtorEq, false_and, exists_false, iff_false]
      omega
  | some d =>
    cases firstDeadline m with
    | none =>
      simp only [Option.mem_def, Option.some.injEq, reduceCtorEq, false_and, exists_false,
        and_false, false_or, exists_eq_left', false_implies, implies_true, true_and, imp_false]
      omega
    | some d₀ =>
      simp only [Option.mem_def, Option.some.injEq, exists_eq_left', forall_eq']
      omega

/-- In every iteration, with any timers, readings and interruptions, `epoll_wait` is given
the time that is left exactly when each of its calls meets the two units where they agree. -/
theorem punctual_iff {m : TimerManager κ}
    (h : (TimerManager.manager κ).Reachable TransitionSystem.free m) (io : IOManager)
    (sched : Scheduler.State τ) (now : Int) (attempts : List (Attempt κ)) :
    Punctual (idleWaits m io sched now attempts) ↔
      ((stoppingTimeout m io sched now).1 = true ∨ ∀ a ∈ made attempts, UnitsAgree m now a) := by
  have hsorted := (TimerManager.ordered_of_reachable h).sorted
  unfold idleWaits
  dsimp only
  split
  · rename_i hstop
    exact iff_of_true (.of_given nofun) (.inl hstop)
  · rename_i hstop
    rw [or_iff_right hstop, waits_eq]
    have hgiven (a : Attempt κ) := timeoutArg_eq_remaining_iff hsorted now a
    constructor
    · intro hp a ha
      exact (hgiven a).mp (hp.given _ (List.mem_map_of_mem ha))
    · intro hall
      refine .of_given fun w hw => ?_
      obtain ⟨a, ha, rfl⟩ := List.mem_map.mp hw
      exact (hgiven a).mpr (hall a ha)

/-! ## Timers in two units -/

/-- A timer that is due at `d`, in a manager that was made at 0. -/
def oneTimer (d : Int) : TimerManager Nat :=
  (((TimerManager.init 0).addTimer 3 0 d (some 1) false).map Prod.snd).getD (.init 0)

theorem oneTimer_reachable (d : Int) :
    (TimerManager.manager Nat).Reachable TransitionSystem.free (oneTimer d) :=
  .tail (.of_init ⟨0, rfl⟩) (a := .addTimer 3 0 d (some 1) false) trivial rfl

/-- In the last two milliseconds of the first two seconds, after an interrupted call. -/
def agreeing : List (Attempt Nat) :=
  [⟨2498, oneTimer 2500, ⟨-1, true, []⟩⟩, ⟨2498, oneTimer 2500, ⟨0, false, []⟩⟩]

theorem punctual_iff_agreeing :
    (idleWaits (oneTimer 2500) (init 5 32) (Scheduler.start : Scheduler.State Nat) 0
      agreeing).map Wait.timeout = [2, 2] ∧
    Punctual (idleWaits (oneTimer 2500) (init 5 32) (Scheduler.start : Scheduler.State Nat) 0
      agreeing) := by
  have hdeadline : firstDeadline (oneTimer 2500) = some 2500 := by decide
  have hagree (poll : Poll) : UnitsAgree (oneTimer 2500) 0 ⟨2498, oneTimer 2500, poll⟩ := by
    unfold UnitsAgree
    dsimp only
    refine ⟨2500, hdeadline, .inr ⟨by decide, by decide, fun d hd => ?_, fun _ => ?_⟩⟩
    · cases hdeadline.symm.trans hd
      decide
    · exact ⟨2500, hdeadline, by decide⟩
  refine ⟨by decide, (punctual_iff (oneTimer_reachable 2500) (init 5 32) Scheduler.start 0
    agreeing).mpr (.inr fun a ha => ?_)⟩
  have ha : a ∈ agreeing := ha
  rcases List.mem_cons.mp ha with rfl | ha
  · exact hagree _
  · rw [List.mem_singleton.mp ha]
    exact hagree _

/-- The timer is due in 1500 milliseconds, and `epoll_wait` is given 1. -/
theorem not_punctual_oneTimer :
    ¬ ∀ (m : TimerManager Nat) (io : IOManager) (sched : Scheduler.State Nat) (now : Int)
      (attempts : List (Attempt Nat)),
      (TimerManager.manager Nat).Reachable TransitionSystem.free m →
      (∀ a ∈ attempts, a.timers = m) →
      (now :: attempts.map Attempt.reading).Pairwise (· ≤ ·) →
      Punctual (idleWaits m io sched now attempts) := by
  intro hall
  have hpunctual := hall (oneTimer 1500) (init 5 32) Scheduler.start 0
    [⟨0, oneTimer 1500, ⟨0, false, []⟩⟩] (oneTimer_reachable 1500) (by simp) (by simp)
  have hgiven := hpunctual.given ⟨⟨0, oneTimer 1500, ⟨0, false, []⟩⟩, 1⟩ List.mem_cons_self
  revert hgiven
  decide

end IOManager
