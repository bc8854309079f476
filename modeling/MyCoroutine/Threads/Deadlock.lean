-- SUMMARY: Mutexes are taken in one order and given back before every switch: calls return unless a thread finds the tickle pipe full, and a full pipe is for good.
import MyCoroutine.Threads.Calls

/-! # Deadlock

Mutexes are nested in `triggerEvent` only, which the lock of the `FdContext` is held around: there
`schedule` takes `Scheduler::m_mutex`, and the hooked `write` of `tickle` takes
`FdManager::m_mutex` (`Nested`). So no circle of threads waits for each other. What is left is the
tickle pipe: its write end blocks, `tickle` writes with that lock held, and `idle` comes to no
entry, so nobody reads. -/

namespace Threads

open Filter IOManager Locking TransitionSystem

variable {τ : Type} [DecidableEq τ] {h : Held Mutex} {p q : Acts}

/-! ## The rules -/

/-- Which mutex is taken while which other is held. -/
inductive Nested : Mutex → Mutex → Prop where
  | scheduler (s : SchedulerId) (fd : Nat) (s' : SchedulerId) :
      Nested (.context s fd) (.scheduler s')
  | datas (s : SchedulerId) (fd : Nat) : Nested (.context s fd) .datas

/-- The order of the mutexes. -/
def rank : Mutex → Nat
  | .table _ | .context _ _ | .timers _ => 0
  | .scheduler _ | .datas => 1

theorem Nested.rank_lt {k l : Mutex} (hkl : Nested k l) : rank k < rank l := by
  cases hkl <;> exact Nat.zero_lt_one

/-- The mutex under which a field is accessed; `none` where some function takes none, or shares
it and writes. -/
def guard : Field → Option Mutex
  | .tasks s | .threads s => some (.scheduler s)
  | .fdContexts s => some (.table s)
  | .timers s | .previouseTime s | .timer s _ => some (.timers s)
  | .datas => some .datas
  | .stopping _ | .state _ | .ctx _ | .cb _ | .context _ _ | .tickled _ | .ms _ _ | .fdCtx _
  | .cancelled _ => none

/-- What every call keeps to. -/
def Rule (h : Held Mutex) (a : Act Mutex Field SchedulerId) : Prop :=
  Nests Nested h a ∧ Undrained h a ∧ Guarded guard h a

/-- The program takes no mutex and gives none back, and keeps to the rule inside of `h`. -/
def Inside (h : Held Mutex) (p : Acts) : Prop :=
  ∀ a ∈ p, Rule h a ∧ a.hold h = h

@[simp] theorem inside_nil : Inside h [] := nofun

@[simp] theorem inside_read {x : Field} :
    Inside h (.read x :: p) ↔ (∀ l ∈ guard x, ∃ mode, (l, mode) ∈ h) ∧ Inside h p := by
  simp [Inside, Rule, Nests, Undrained, Guarded, Act.hold]

@[simp] theorem inside_write {x : Field} :
    Inside h (.write x :: p) ↔ (∀ l ∈ guard x, (l, .exclusive) ∈ h) ∧ Inside h p := by
  simp [Inside, Rule, Nests, Undrained, Guarded, Act.hold]

@[simp] theorem inside_put {s : SchedulerId} : Inside h (.put s :: p) ↔ Inside h p := by
  simp [Inside, Rule, Nests, Undrained, Guarded, Act.hold]

@[simp] theorem inside_append : Inside h (p ++ q) ↔ Inside h p ∧ Inside h q :=
  List.forall_mem_append

@[simp] theorem inside_ite {c : Prop} [Decidable c] :
    Inside h (if c then p else q) ↔ (c → Inside h p) ∧ (¬ c → Inside h q) := by
  split <;> simp [*]

@[simp] theorem inside_reads {ι : Type} {l : List ι} {f : ι → Field} :
    Inside h (l.map fun i => .read (f i)) ↔ ∀ i ∈ l, ∀ k ∈ guard (f i), ∃ mode, (k, mode) ∈ h := by
  simp [Inside, Rule, Nests, Undrained, Guarded, Act.hold]

theorem Inside.keeps (hp : Inside h p) : Keeps Rule h p :=
  .of_forall hp

/-- A critical section inside the ones of `h`. -/
theorem keeps_locked {l : Mutex} {mode : Mode} (hnests : ∀ k ∈ h, Nested k.1 l)
    (hp : Keeps Rule ((l, mode) :: h) p) : Keeps Rule h (locked l mode p) := by
  refine .locked ⟨hnests, trivial, trivial⟩ ⟨trivial, trivial, trivial⟩ (fun k hk hkl => ?_) hp
  have hlt := (hnests k hk).rank_lt
  rw [hkl] at hlt
  exact Nat.lt_irrefl _ hlt

/-- A critical section in which nothing else is locked. -/
theorem keeps_section {l : Mutex} {mode : Mode} (hp : Inside [(l, mode)] p) :
    Keeps Rule [] (locked l mode p) :=
  keeps_locked nofun hp.keeps

/-! ## Fiber -/

theorem keeps_getState (f : FiberId) : Keeps Rule h (getState f) :=
  Inside.keeps (by simp [getState, guard])

theorem keeps_resume (f : FiberId) : Keeps Rule h (resume f) :=
  Inside.keeps (by simp [resume, guard])

theorem keeps_yield (f : FiberId) (ended : Bool) : Keeps Rule h (yield f ended) :=
  Inside.keeps (by simp [yield, guard])

theorem keeps_mainFunc (f : FiberId) : Keeps Rule h (mainFunc f) :=
  Inside.keeps (by simp [mainFunc, guard])

theorem keeps_mainFuncEnd (f : FiberId) : Keeps Rule h (mainFuncEnd f) :=
  Inside.keeps (by simp [mainFuncEnd, yield, guard])

theorem keeps_resetFiber (f : FiberId) : Keeps Rule h (resetFiber f) :=
  Inside.keeps (by simp [resetFiber, guard])

/-! ## FdManager, FdCtx and Hook -/

theorem keeps_get (hnests : ∀ k ∈ h, Nested k.1 .datas) (m : FdManager) (fd : Nat)
    (autoCreate : Bool) (stray : Option CtxId) : Keeps Rule h (get m fd autoCreate stray) := by
  refine .append (keeps_locked hnests (Inside.keeps ?_))
    (.ite (fun _ => .nil) fun _ => keeps_locked hnests (Inside.keeps ?_))
  · simp [guard]
  · simp [guard]

theorem keeps_del (m : FdManager) (fd : Nat) : Keeps Rule [] (del m fd) :=
  keeps_section (by simp [guard])

theorem keeps_readCtx (c : CtxId) : Keeps Rule h (readCtx c) :=
  Inside.keeps (by simp [readCtx, guard])

theorem keeps_updateCtx (c : CtxId) : Keeps Rule h (updateCtx c) :=
  Inside.keeps (by simp [updateCtx, guard])

theorem keeps_doIo (hnests : ∀ k ∈ h, Nested k.1 .datas) (fd : Nat) (found : Hooked) :
    Keeps Rule h (doIo fd found) := by
  refine .ite (fun _ => .append (keeps_get hnests ..) ?_) fun _ => .nil
  cases (found.fdm.get fd false none).1 with
  | none => exact .nil
  | some c => exact keeps_readCtx c

theorem keeps_onTimeout (i : Nat) (cancelled : Bool) : Keeps Rule h (onTimeout i cancelled) :=
  Inside.keeps (by simp [onTimeout, guard])

theorem keeps_readCancelled (i : Nat) : Keeps Rule h (readCancelled i) :=
  Inside.keeps (by simp [readCancelled, guard])

/-! ## Scheduler -/

theorem keeps_tickle (hnests : ∀ k ∈ h, Nested k.1 .datas) (s : SchedulerId) (found : Wake) :
    Keeps Rule h (tickle s found) := by
  refine .ite (fun _ => .append (keeps_doIo hnests ..) (Inside.keeps ?_)) fun _ => .nil
  simp

omit [DecidableEq τ] in
theorem keeps_schedule (s : SchedulerId) (hscheduler : ∀ k ∈ h, Nested k.1 (.scheduler s))
    (hdatas : ∀ k ∈ h, Nested k.1 .datas) (task : ScheduleTask τ) (found : Moment τ) :
    Keeps Rule h (schedule s task found) := by
  refine .append (keeps_locked hscheduler (Inside.keeps ?_))
    (.ite (fun _ => keeps_tickle hdatas ..) fun _ => .nil)
  simp [guard]

theorem keeps_run (s : SchedulerId) (me : τ) (state : FiberId → Fiber.State) (found : Moment τ) :
    Keeps Rule [] (run s me state found) := by
  refine .append (.append (keeps_section ?_)
    (.ite (fun _ => keeps_tickle (List.forall_mem_nil _) ..) fun _ => .nil)) ?_
  · simp [guard]
  · cases (Scheduler.scan me state found.tasks).task.bind fun e => e.task.fiber with
    | none => exact .nil
    | some f => exact keeps_resume f

theorem keeps_start (s : SchedulerId) (stopping : Bool) : Keeps Rule [] (start s stopping) :=
  keeps_section (by simp [guard])

theorem keeps_schedulerStopping (s : SchedulerId) (stopping : Bool) :
    Keeps Rule [] (schedulerStopping s stopping) :=
  keeps_section (by simp [guard])

/-! ## TimerManager -/

section

variable (s : SchedulerId) (m : TimerManager CbId) (a : Nat)

theorem inside_compared {mode : Mode} : Inside [(.timers s, mode)] (compared s m) := by
  simp [compared, guard]

theorem inside_inserted : Inside [(.timers s, .exclusive)] (inserted s m a) := by
  simp [inserted, inside_compared, guard]

theorem keeps_addTimer (found : Wake) : Keeps Rule [] (addTimer s m a found) :=
  .append (keeps_section (inside_inserted s m a))
    (.ite (fun _ => keeps_tickle (List.forall_mem_nil _) ..) fun _ => .nil)

theorem keeps_cancel : Keeps Rule [] (cancel s m a) :=
  keeps_section (by simp [inside_compared, guard])

theorem keeps_refresh : Keeps Rule [] (refresh s m a) :=
  keeps_section (by simp [inside_compared, guard])

theorem keeps_reset (now ms : Int) (fromNow : Bool) (found : Wake) :
    Keeps Rule [] (reset s m a now ms fromNow found) := by
  refine .cons (by simp [Rule, Nests, Undrained, Guarded, guard]) rfl ?_
  cases m.timer a with
  | none => exact .nil
  | some t =>
    refine .ite (fun _ => .nil) fun _ => .append (keeps_section ?_)
      (.ite (fun _ => keeps_tickle (List.forall_mem_nil _) ..) fun _ => .nil)
    cases m.erase a with
    | none => simp [inside_compared, guard]
    | some m => simp [inside_compared, inside_inserted, guard]

theorem keeps_hasTimer : Keeps Rule [] (hasTimer s) :=
  keeps_section (by simp [guard])

theorem keeps_getNextTimer : Keeps Rule [] (getNextTimer s m) := by
  refine keeps_section ?_
  cases m.timers <;> simp [guard]

theorem inside_emitted : Inside [(.timers s, .exclusive)] (emitted s m a) := by
  simp [emitted, inside_compared, guard]

theorem keeps_listExpiredCb (m' : TimerManager CbId) (now : Int) (probe : Nat) :
    Keeps Rule [] (listExpiredCb s m m' now probe) := by
  refine .append (keeps_section (by simp [guard])) ?_
  cases m.timers with
  | nil => exact .nil
  | cons =>
    refine keeps_section ?_
    cases m'.timers with
    | nil => simp [guard]
    | cons first rest =>
      have hemitted (l : List Nat) : Inside [(.timers s, .exclusive)] (l.flatMap (emitted s m')) :=
        fun b hb => by
          obtain ⟨a, -, hb⟩ := List.mem_flatMap.mp hb
          exact inside_emitted s m' a b hb
      simp [inside_compared, hemitted, guard]

/-! ## IOManager -/

theorem keeps_stopping (now : Int) (pending : Nat) (stopped : Bool) :
    Keeps Rule [] (stopping s m now pending stopped) :=
  .append (keeps_getNextTimer s m) (.ite (fun _ => keeps_schedulerStopping s stopped) fun _ => .nil)

theorem keeps_stop (now : Int) (pending : Nat) (stopped answer : Bool) (found : List Wake) :
    Keeps Rule [] (stop s m now pending stopped answer found) := by
  refine .append (keeps_stopping s m now pending stopped) (.ite (fun _ => .nil) fun _ => ?_)
  exact .cons (by simp [Rule, Nests, Undrained, Guarded, guard]) rfl
    (.flatMap fun wake _ => keeps_tickle (List.forall_mem_nil _) s wake)

theorem keeps_stopJoin : Keeps Rule [] (stopJoin s) :=
  keeps_section (by simp [guard])

variable (io : IOManager) (fd : Nat)

theorem keeps_addEvent (caller : Caller) (event : Event) (cb : Option CbId) (granted : Bool) :
    Keeps Rule [] (addEvent s io fd caller event cb granted) := by
  refine .append (.append (keeps_section (by simp [guard])) (.ite (fun _ => .nil) fun _ =>
    keeps_section (by simp [guard]))) (Inside.keeps ?_)
  simp [guard]

theorem keeps_withContext (hp : Keeps Rule [(.context s fd, .exclusive)] p) :
    Keeps Rule [] (withContext s io fd p) := by
  refine .append (keeps_section (by simp [guard])) (.ite (fun _ => .nil) fun _ =>
    keeps_locked nofun (.cons ?_ rfl hp))
  simp [Rule, Nests, Undrained, Guarded, guard]

theorem keeps_delEvent (event : Event) (granted : Bool) :
    Keeps Rule [] (delEvent s io fd event granted) := by
  refine keeps_withContext s io fd (Inside.keeps ?_)
  simp [guard]

omit [DecidableEq τ] in
/-- The one place where mutexes are taken under another. -/
theorem keeps_triggered (ts : List Trigger) (found : Nat → Moment τ) :
    Keeps Rule [(.context s fd, .exclusive)] (triggered s fd ts found) := by
  refine .flatMap fun (t, i) _ => ?_
  have hfield : guard (.context s fd) = none := rfl
  refine .cons ?_ rfl (.cons ?_ rfl (.append (keeps_schedule _ ?_ ?_ ..) (Inside.keeps ?_)))
  · simp [Rule, Nests, Undrained, Guarded, hfield]
  · simp [Rule, Nests, Undrained, Guarded, hfield]
  · intro k hk
    cases List.mem_singleton.mp hk
    exact .scheduler ..
  · intro k hk
    cases List.mem_singleton.mp hk
    exact .datas ..
  · simp [hfield]

omit [DecidableEq τ] in
theorem keeps_cancelEvent (event : Event) (granted : Bool) (found : Nat → Moment τ) :
    Keeps Rule [] (cancelEvent s io fd event granted found) :=
  keeps_withContext s io fd (keeps_triggered ..)

omit [DecidableEq τ] in
theorem keeps_cancalAll (granted : Bool) (found : Nat → Moment τ) :
    Keeps Rule [] (cancalAll s io fd granted found) :=
  keeps_withContext s io fd (keeps_triggered ..)

omit [DecidableEq τ] in
/-- The loop over the entries comes to none. -/
theorem entries_eq_nil (r : Round τ) : r.entries = [] := by
  unfold Round.entries
  cases hwait : waitLoop 0 r.polls with
  | none => rfl
  | some res =>
    obtain ⟨rt, events⟩ := res
    obtain rfl := waitLoop_rt hwait
    rfl

omit [DecidableEq τ] in
theorem keeps_idle (r : Round τ) : Keeps Rule [] (idle s r) := by
  refine .append (.append (.append (keeps_stopping ..) (keeps_listExpiredCb ..))
    (.flatMap fun i _ => keeps_schedule s (List.forall_mem_nil _) (List.forall_mem_nil _) ..)) ?_
  rw [entries_eq_nil]
  exact .nil

end

theorem keeps_of_called (hp : Called τ p) : Keeps Rule [] p := by
  cases hp with
  | getState f => exact keeps_getState f
  | resume f => exact keeps_resume f
  | yield f ended => exact keeps_yield f ended
  | mainFunc f => exact keeps_mainFunc f
  | mainFuncEnd f => exact keeps_mainFuncEnd f
  | resetFiber f => exact keeps_resetFiber f
  | schedule s task found =>
    exact keeps_schedule s (List.forall_mem_nil _) (List.forall_mem_nil _) task found
  | run s me state found => exact keeps_run s me state found
  | start s stopping => exact keeps_start s stopping
  | addTimer s m a found => exact keeps_addTimer s m a found
  | cancel s m a => exact keeps_cancel s m a
  | refresh s m a => exact keeps_refresh s m a
  | reset s m a now ms fromNow found => exact keeps_reset s m a now ms fromNow found
  | hasTimer s => exact keeps_hasTimer s
  | getNextTimer s m => exact keeps_getNextTimer s m
  | listExpiredCb s m m' now probe => exact keeps_listExpiredCb s m m' now probe
  | stopping s m now pending stopped => exact keeps_stopping s m now pending stopped
  | stop s m now pending stopped answer found =>
    exact keeps_stop s m now pending stopped answer found
  | stopJoin s => exact keeps_stopJoin s
  | addEvent s io fd caller event cb granted =>
    exact keeps_addEvent s io fd caller event cb granted
  | delEvent s io fd event granted => exact keeps_delEvent s io fd event granted
  | cancelEvent s io fd event granted found => exact keeps_cancelEvent s io fd event granted found
  | cancalAll s io fd granted found => exact keeps_cancalAll s io fd granted found
  | idle s r => exact keeps_idle s r
  | get m fd autoCreate stray => exact keeps_get (List.forall_mem_nil _) m fd autoCreate stray
  | del m fd => exact keeps_del m fd
  | doIo fd found => exact keeps_doIo (List.forall_mem_nil _) fd found
  | onTimeout i cancelled => exact keeps_onTimeout i cancelled
  | readCancelled i => exact keeps_readCancelled i
  | readCtx c => exact keeps_readCtx c
  | updateCtx c => exact keeps_updateCtx c

/-! ## Every run -/

variable {W : List τ} {capacity : SchedulerId → ℕ} {s s' : State τ Mutex Field SchedulerId} {t : τ}

theorem nests_of_called (p : Acts) (hp : Called τ p) : Keeps (Nests Nested) [] p :=
  (keeps_of_called hp).mono fun _ _ h => h.1

theorem rises_of_called (p : Acts) (hp : Called τ p) : Keeps (Rises rank) [] p :=
  (nests_of_called p hp).mono fun _ _ hnests => hnests.mono fun _ _ => Nested.rank_lt

theorem undrained_of_called (p : Acts) (hp : Called τ p) : Keeps Undrained [] p :=
  (keeps_of_called hp).mono fun _ _ h => h.2.1

/-- Whatever the threads call, in any order: between its calls, and so when it goes over to
another fiber, a thread holds no mutex; mutexes are taken under others only as in `triggerEvent`;
and while some call is unfinished, some thread can move on, or some thread is about to write to a
full pipe. -/
theorem deadlock_free (hs : (system W capacity).Reachable (calls (Called τ)) s) :
    (∀ t, s.todo t = [] → s.held t = []) ∧
      (∀ t l mode p, s.todo t = .acquire l mode :: p → ∀ k ∈ s.held t, Nested k.1 l) ∧
      ((∃ t ∈ W, s.todo t ≠ []) →
        ∃ t ∈ W, s.CanMove W capacity t ∨ ∃ pipe, s.AtFull capacity t pipe) := by
  refine ⟨?_, ?_, ?_⟩
  · intro t hdone
    have hback := (along_of_reachable rises_of_called hs t).2
    rwa [hdone] at hback
  · intro t l mode p htodo
    exact nests_of_reachable nests_of_called hs htodo
  · rintro ⟨t, ht, hbusy⟩
    exact exists_canMove rises_of_called hs ht hbusy

/-- Manager 0, on which a callback waits for descriptor 6 to be readable. -/
def watching : IOManager :=
  (((init 5 32).addEvent ⟨some 0, .forTask 0, .running⟩ 6 .read (some 8) true).map
    Prod.snd).getD (init 5 32)

/-- The queue is empty, a thread is idle, hooks are enabled, and the pipe is written at 4. -/
def quiet : Moment Nat :=
  ⟨[], ⟨⟨true, .init ⟨fun _ => some false, fun _ => some 1⟩⟩, true, 4⟩⟩

/-- `cancelEvent` of that registration. -/
def cancelling : Acts :=
  cancelEvent 0 watching 6 .read true fun _ => quiet

/-- `cancelEvent` that finds the registration gone. -/
def tooLate : Acts :=
  cancelEvent 0 (init 5 32) 6 .read true fun _ => quiet

/-- Two threads cancel the event. Thread 0 has the lock of the `FdContext` and is inside the
hooked `write`, and thread 1 waits for it. -/
def contendedRun : List (Label Nat Mutex Field SchedulerId) :=
  [.call 0 cancelling, .call 1 tooLate] ++ List.replicate 14 (.act 0) ++ List.replicate 3 (.act 1)

/-- A callback is scheduled. -/
def filling : Acts :=
  schedule 0 (.ofCb (some 9) none) quiet

/-- Only these are called. -/
def someCalls (_ : State Nat Mutex Field SchedulerId) :
    Label Nat Mutex Field SchedulerId → Bool
  | .call _ p => p = cancelling ∨ p = tooLate ∨ p = filling ∨ p = hasTimer 0
  | .act _ => true

theorem called_of_someCalls (s : State Nat Mutex Field SchedulerId)
    (a : Label Nat Mutex Field SchedulerId) (h : someCalls s a = true) :
    calls (Called Nat) s a := by
  cases a with
  | call t p =>
    obtain rfl | rfl | rfl | rfl := of_decide_eq_true h
    · exact .cancelEvent 0 watching 6 .read true _
    · exact .cancelEvent 0 (init 5 32) 6 .read true _
    · exact .schedule 0 _ _
    · exact .hasTimer 0
  | act t => trivial

theorem deadlock_free_contendedRun :
    ∃ s, (system [0, 1] fun _ => 65536).Reachable (calls (Called Nat)) s ∧
      s.todo 1 = tooLate.drop 3 ∧ s.held 0 = [(.context 0 6, .exclusive)] ∧
      (∀ k ∈ s.held 0, Nested k.1 .datas) ∧ ∃ t ∈ [0, 1], s.CanMove [0, 1] (fun _ => 65536) t ∨
        ∃ pipe, s.AtFull (fun _ => 65536) t pipe := by
  obtain ⟨s, hs, hp⟩ := Reachable.of_replay (T := system [0, 1] fun _ => 65536)
    (G := calls (Called Nat)) (g := someCalls) called_of_someCalls (l := contendedRun)
    (p := fun s => s.todo 1 == tooLate.drop 3 && s.held 0 == [(.context 0 6, .exclusive)] &&
      s.todo 0 == .acquire .datas .exclusive :: cancelling.drop 15) rfl (by decide)
  simp only [Bool.and_eq_true, beq_iff_eq] at hp
  obtain ⟨-, hnested, hmoves⟩ := deadlock_free hs
  exact ⟨s, hs, hp.1.1, hp.1.2, hnested 0 _ _ _ hp.2, hmoves ⟨0, by simp, by simp [hp.2]⟩⟩

/-- When the threads call nothing more, and who can move does so: all calls return if and only
if no thread ever comes to a full pipe. -/
theorem all_calls_return (hW : W.Nodup) (r : (system W capacity).Run (calls (Called τ)))
    (hends : ∀ᶠ n in atTop, ∀ t p, r.label n ≠ some (.call t p))
    (hmoves : ∃ᶠ n in atTop, (∃ t ∈ W, (r.state n).CanMove W capacity t) →
      (r.label n).isSome = true) :
    (∀ᶠ n in atTop, ∀ t ∈ W, (r.state n).todo t = []) ↔
      ∀ n, ∀ t ∈ W, ∀ pipe, ¬ (r.state n).AtFull capacity t pipe := by
  constructor
  · intro hdone n t ht pipe hfull
    obtain ⟨m, hdone, hnm⟩ := (hdone.and (eventually_ge_atTop n)).exists
    have hblocked : Blocked W capacity (r.state n) t := .full t pipe hfull
    have hsame := (full_stays undrained_of_called (r.reachable n) (r.path hnm)).2 t hblocked
    obtain ⟨p, hp, -⟩ := hfull
    rw [hdone t ht, hp] at hsame
    cases hsame.2.1
  · intro hroom
    exact calls_return rises_of_called hW r hends (.of_forall hroom) hmoves

/-- The calls of `contendedRun` to their ends. -/
def returningRun : List (Label Nat Mutex Field SchedulerId) :=
  contendedRun ++ List.replicate 8 (.act 0) ++ List.replicate 3 (.act 1)

theorem all_calls_return_returningRun :
    ∃ r : (system [0, 1] fun _ => 65536).Run (calls (Called Nat)),
      (∀ᶠ n in atTop, ∀ t ∈ [0, 1], (r.state n).todo t = []) ∧
      ((∀ᶠ n in atTop, ∀ t ∈ [0, 1], (r.state n).todo t = []) ↔
        ∀ n, ∀ t ∈ [0, 1], ∀ pipe, ¬ (r.state n).AtFull (fun _ => 65536) t pipe) := by
  obtain ⟨r, hr⟩ := TransitionSystem.Run.exists_of_replay (T := system [0, 1] fun _ => 65536)
    (G := calls (Called Nat)) (g := someCalls) called_of_someCalls (l := returningRun)
    (s := .start) rfl (by decide)
  have hrests (n : ℕ) (hn : 30 ≤ n) : r.label n = none := by
    rw [(hr n).1]
    exact List.getElem?_eq_none (Nat.le_trans (by decide) hn)
  have hdone (n : ℕ) (hn : 30 ≤ n) : r.state n = r.state 30 := by
    induction n, hn using Nat.le_induction with
    | base => rfl
    | succ n hn ih => rw [r.state_of_none (hrests n hn), ih]
  have hlast : ∀ t ∈ [0, 1], (r.state 30).todo t = [] := by
    have hlast := (hr 30).2 (fun s => [0, 1].all fun t => (s.todo t).isEmpty) (by decide)
    intro t ht
    simpa using List.all_eq_true.mp hlast t ht
  have hall : ∀ᶠ n in atTop, ∀ t ∈ [0, 1], (r.state n).todo t = [] :=
    eventually_atTop.mpr ⟨30, fun n hn => by rw [hdone n hn]; exact hlast⟩
  refine ⟨r, hall, all_calls_return (by decide) r ?_ ?_⟩
  · exact eventually_atTop.mpr ⟨30, fun n hn t p => by rw [hrests n hn]; nofun⟩
  · refine Eventually.frequently (hall.mono fun n hdone => ?_)
    rintro ⟨t, ht, a, p, htodo, -⟩
    rw [hdone t ht] at htodo
    cases htodo

/-- Nobody ever reads from the pipe: it never gets emptier, and a thread that finds it full is
blocked for good, with the mutexes it holds and whoever waits for one of them. -/
theorem full_pipe_final (hs : (system W capacity).Reachable (calls (Called τ)) s)
    (hpath : (system W capacity).Path (calls (Called τ)) s s') :
    (∀ pipe, s.fill pipe ≤ s'.fill pipe) ∧ ∀ t, Blocked W capacity s t →
      Blocked W capacity s' t ∧ s'.todo t = s.todo t ∧ s'.held t = s.held t :=
  full_stays undrained_of_called hs hpath

/-- The pipe has room for one byte. Thread 0 fills it and then cancels the event: it comes to the
full pipe under the lock of the `FdContext`, and thread 1 waits for that. -/
def fullRun : List (Label Nat Mutex Field SchedulerId) :=
  [.call 0 filling] ++ List.replicate 13 (.act 0) ++ [.call 0 cancelling] ++
    List.replicate 19 (.act 0) ++ [.call 1 tooLate] ++ List.replicate 3 (.act 1)

/-- Thread 2 makes a call. -/
def otherRun : List (Label Nat Mutex Field SchedulerId) :=
  .call 2 (hasTimer 0) :: List.replicate 3 (.act 2)

theorem full_pipe_final_fullRun :
    ∃ s s' : State Nat Mutex Field SchedulerId,
      (system [0, 1, 2] fun _ => 1).Reachable (calls (Called Nat)) s ∧
      (system [0, 1, 2] fun _ => 1).Path (calls (Called Nat)) s s' ∧
      s'.held 0 = [(.context 0 6, .exclusive)] ∧ Blocked [0, 1, 2] (fun _ => 1) s' 1 := by
  obtain ⟨s, s', hs, hpath, hp⟩ := Reachable.of_replays (T := system [0, 1, 2] fun _ => 1)
    (G := calls (Called Nat)) (H := calls (Called Nat)) (f := someCalls) (g := someCalls)
    called_of_someCalls called_of_someCalls (k := fullRun) (l := otherRun)
    (p := fun s _ => s.todo 0 == cancelling.drop 19 && s.todo 1 == tooLate.drop 3 &&
      s.held 0 == [(.context 0 6, .exclusive)] && s.fill 0 == 1) rfl (by decide)
  simp only [Bool.and_eq_true, beq_iff_eq] at hp
  obtain ⟨⟨⟨htodo₀, htodo₁⟩, hheld⟩, hfill⟩ := hp
  have hfull : Blocked [0, 1, 2] (fun _ => 1) s 0 :=
    .full 0 0 ⟨cancelling.drop 20, htodo₀, Nat.le_of_eq hfill.symm⟩
  have hwaits : Blocked [0, 1, 2] (fun _ => 1) s 1 :=
    .waits 1 0 (.context 0 6, .exclusive) .exclusive (tooLate.drop 4)
      (htodo₁.trans (by decide)) (by simp) hfull (by simp [hheld]) (by simp)
  have hfinal := (full_pipe_final hs hpath).2
  exact ⟨s, s', hs, hpath, (hfinal 0 hfull).2.2.trans hheld, (hfinal 1 hwaits).1⟩

end Threads
