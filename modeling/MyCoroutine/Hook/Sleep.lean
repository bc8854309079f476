-- SUMMARY: The hooked sleep among other timers: for which arguments its fiber is pushed back once, by the first collection of its time.
import MyCoroutine.Hook.Calls
import MyCoroutine.Timer.Handles
import MyCoroutine.Timer.Notice

/-! # Sleeping

The system is one call of the hooked `sleep`, on the timer manager of its worker. Others
call the manager as they like, under a clock that does not go back; they have neither the
handle of the timer, which `sleep` drops, nor its callback. A worker that collects the
callback schedules it, and one that runs it pushes the fiber. -/

namespace Sleeping

open TimerManager (Op Answer Operates Collects Ordered Waiting)

/-! ## Data -/

/-- A callback in the timer manager. -/
inductive Callback where
  /-- `schedule(fiber, -1)`, with the fiber that sleeps. -/
  | wake
  | other (n : Nat)
  deriving DecidableEq

/-- The next thing the fiber does. -/
inductive Pc where
  /-- `addTimer`. -/
  | call
  | yield
  /-- It has yielded. -/
  | parked
  /-- `sleep` has returned `ret`. -/
  | done (ret : BitVec 32)
  deriving DecidableEq

/-- Where the callback of the sleep is, once it was collected. -/
inductive Stage where
  /-- In `cbs` of the worker that called `listExpiredCb`. -/
  | collected
  /-- In the task queue. -/
  | queued
  /-- It has run and pushed the fiber. -/
  | pushed
  deriving DecidableEq

structure Wake where
  /-- What the `listExpiredCb` that collected it had read. -/
  reading : Int
  stage : Stage
  deriving DecidableEq

structure State where
  pc : Pc
  timers : TimerManager Callback
  /-- The last reading of the clock. -/
  clock : Int
  /-- The timer of the sleep. -/
  timer : Option Nat
  /-- The entries of the fiber in the task queue. -/
  queued : Nat
  /-- The callbacks of the sleep that were collected. -/
  wakes : List Wake
  /-- How often the fiber was pushed. No step reads it. -/
  pushes : Nat
  /-- What `listExpiredCb` has read since the call. No step reads it. -/
  readings : List Int

inductive Label where
  /-- The timer is constructed at address `a`; its constructor read `now`. -/
  | call (a : Nat) (now : Int)
  | yield
  | resume
  /-- Somebody else calls the timer manager. -/
  | operate (op : Op Callback)
  /-- The next step of the `i`th callback. -/
  | callback (i : Nat)
  deriving DecidableEq

/-! ## The system -/

/-- `milliseconds(seconds * 1000)`; the product is one of `unsigned int`. -/
def delay (seconds : BitVec 32) : Int :=
  (seconds * 1000).toNat

/-- An operation that others can make. -/
def foreign (timer : Option Nat) : Op Callback → Bool
  | .addTimer _ _ _ cb _ => cb ≠ some .wake
  | .cancel b | .refresh b _ | .reset b _ _ _ => timer ≠ some b
  | .listExpiredCb _ _ | .getNextTimer _ => true

/-- What `listExpiredCb` reads. -/
def polled : Op Callback → List Int
  | .listExpiredCb now _ => [now]
  | _ => []

def State.after (s : State) (op : Op Callback) (ans : Answer Callback)
    (m' : TimerManager Callback) : State :=
  let now := op.reading.getD s.clock
  { s with
    timers := m'
    clock := now
    wakes := s.wakes ++ List.replicate (ans.cbs.count (some .wake)) ⟨now, .collected⟩
    readings := s.readings ++ polled op }

/-- The callback number `i` goes on. -/
def runCallback (s : State) (i : Nat) : Option State :=
  match s.wakes[i]? with
  | none => none
  | some w =>
    match w.stage with
    | .collected => some { s with wakes := s.wakes.set i ⟨w.reading, .queued⟩ }
    | .queued => some { s with
        wakes := s.wakes.set i ⟨w.reading, .pushed⟩
        queued := s.queued + 1
        pushes := s.pushes + 1 }
    | .pushed => none

/-- `addTimer` of `sleep`. -/
def arm (seconds : BitVec 32) (s : State) (a : Nat) (now : Int) : Option State :=
  if s.clock ≤ now then
    (s.timers.addTimer a now (delay seconds) (some .wake) false).map fun r =>
      { s with pc := .yield, timers := r.2, clock := now, timer := some a, readings := [] }
  else none

def step (seconds : BitVec 32) (s : State) (l : Label) : Option State :=
  match l, s.pc with
  | .call a now, .call => arm seconds s a now
  | .yield, .yield => some { s with pc := .parked }
  | .resume, .parked =>
    if 0 < s.queued then some { s with pc := .done 0, queued := s.queued - 1 } else none
  | .operate op, _ =>
    if foreign s.timer op ∧ op.reading.all (s.clock ≤ ·) then
      (s.timers.operate op).map fun r => s.after op r.1 r.2
    else none
  | .callback i, _ => runCallback s i
  | _, _ => none

/-- The worker starts, with a new timer manager. -/
def start (now : Int) : State where
  pc := .call
  timers := .init now
  clock := now
  timer := none
  queued := 0
  wakes := []
  pushes := 0
  readings := []

def system (seconds : BitVec 32) : TransitionSystem State Label where
  init s := ∃ now, s = start now
  step := step seconds

/-! ## The property -/

/-- The callback is collected once, by the first `listExpiredCb` that reads `due` or later,
and by no earlier one; and it pushes the fiber once. -/
structure OnTime (due : Int) (s : State) : Prop where
  woken : s.wakes.map Wake.reading = (s.readings.find? (due ≤ ·)).toList
  pushed : s.pushes = s.wakes.countP (·.stage = .pushed)

/-! ## What a step can do -/

/-- The step relation, one constructor for each way a step can go. -/
inductive Step (seconds : BitVec 32) (s : State) : Label → State → Prop where
  | call (a : Nat) (now : Int) (s' : State) (hpc : s.pc = .call)
      (harm : arm seconds s a now = some s') : Step seconds s (.call a now) s'
  | yield (hpc : s.pc = .yield) : Step seconds s .yield { s with pc := .parked }
  | resume (hpc : s.pc = .parked) (hqueued : 0 < s.queued) :
      Step seconds s .resume { s with pc := .done 0, queued := s.queued - 1 }
  | operate (op : Op Callback) (ans : Answer Callback) (m' : TimerManager Callback)
      (hf : foreign s.timer op = true) (hreading : op.reading.all (s.clock ≤ ·) = true)
      (hop : s.timers.operate op = some (ans, m')) :
      Step seconds s (.operate op) (s.after op ans m')
  | callback (i : Nat) (s' : State) (hrun : runCallback s i = some s') :
      Step seconds s (.callback i) s'

theorem step_cases {seconds : BitVec 32} {s s' : State} {l : Label}
    (h : (system seconds).step s l = some s') : Step seconds s l s' := by
  change step seconds s l = some s' at h
  unfold step at h
  split at h
  case h_1 a now hpc => exact .call a now s' hpc h
  case h_2 hpc => cases h; exact .yield hpc
  case h_3 hpc =>
    split at h
    · rename_i hqueued
      cases h
      exact .resume hpc hqueued
    · cases h
  case h_4 op =>
    split at h
    · rename_i hmay
      obtain ⟨⟨ans, m'⟩, hop, rfl⟩ := Option.map_eq_some_iff.mp h
      exact .operate op ans m' hmay.1 hmay.2 hop
    · cases h
  case h_5 i => exact .callback i s' h
  case h_6 => cases h

/-! ## sleep -/

/-- With hooks enabled, `sleep` waits for `delay seconds`. -/
theorem sleep_eq {e : Hook.Env} (he : e.hookEnable = true) (seconds : BitVec 32)
    (p : Hook.Process) :
    ∃ ms : Nat, delay seconds = ms ∧ Hook.sleep e seconds p = some (.sleeps ms, p) :=
  ⟨_, rfl, by rw [Hook.sleep, he]; rfl⟩

theorem delay_eq (seconds : BitVec 32) : delay seconds = (1000 * seconds.toNat) % 0x100000000 := by
  have hproduct : (seconds * 1000).toNat = seconds.toNat * 1000 % 0x100000000 := BitVec.toNat_mul ..
  rw [delay, hproduct]
  omega

/-- The product wraps from 2 ^ 32 on. -/
theorem delay_eq_iff (seconds : BitVec 32) :
    delay seconds = 1000 * seconds.toNat ↔ 1000 * seconds.toNat < 0x100000000 := by
  rw [delay_eq]
  omega

/-! ## The callback among the timers -/

section

variable {m m' : TimerManager Callback} {op : Op Callback} {ans : Answer Callback} {a : Nat}
  {t : Timer Callback} {P : Nat → Prop}

/-- Only the timers in `P` have the callback of the sleep. -/
def Wakers (P : Nat → Prop) (m : TimerManager Callback) : Prop :=
  ∀ b t, m.timer b = some t → t.cb = some .wake → P b

/-- The timer at `a` is set to `t`, which has the callback only if it had it before. -/
theorem Wakers.update (h : Wakers P m)
    (htimer : ∀ b, m'.timer b = if b = a then some t else m.timer b)
    (hcb : t.cb = some .wake → P a) : Wakers P m' := by
  intro b u hu hwake
  rw [htimer] at hu
  split at hu
  · rename_i hba
    cases hu
    exact hba ▸ hcb hwake
  · exact h b u hu hwake

theorem Wakers.collects {now : Int} {l : List Nat} {cbs : List (Option Callback)}
    (h : Wakers P m) (hc : Collects now l m m' cbs) : Wakers P m' := by
  intro b u hu hwake
  rw [hc.timer] at hu
  split at hu
  · obtain ⟨t, ht, rfl⟩ := Option.map_eq_some_iff.mp hu
    unfold Timer.rang at hwake
    split at hwake
    · exact h b t ht hwake
    · cases hwake
  · exact h b u hu hwake

/-- The only timer with the callback has lost it. -/
theorem Wakers.over (h : Wakers (· = a) m) (ht : m.timer a = some t) (hcb : t.cb = none) :
    Wakers (fun _ => False) m := by
  intro b u hu hwake
  obtain rfl := h b u hu hwake
  cases ht.symm.trans hu
  rw [hcb] at hwake
  cases hwake

/-- Others do not hand the callback out. -/
theorem Wakers.operates {timer : Option Nat} (h : Wakers P m) (hf : foreign timer op = true)
    (hop : Operates m op ans m') : Wakers P m' := by
  cases hop with
  | addTimer b now ms cb recurring front m' hfresh hsets =>
    exact h.update hsets.timer fun hcb => absurd hcb (of_decide_eq_true hf)
  | cancelDead | refreshDead | resetSame | resetDead => exact h
  | cancel b t m' ht hcb hdrops => exact h.update hdrops.timer fun hnone => by cases hnone
  | refresh b now t m' ht hcb hsets => exact h.update hsets.timer fun hwake => h b t ht hwake
  | reset b now ms fromNow front t m' ht hsame hcb hsets =>
    exact h.update hsets.timer fun hwake => h b t ht hwake
  | listExpiredCb now probe m' cbs hcollects => exact h.collects hcollects
  | getNextTimer => exact h

/-- How often a collection has the callback. -/
theorem Wakers.count {now : Int} {l : List Nat} {cbs : List (Option Callback)}
    (h : Wakers (· = a) m) (hc : Collects now l m m' cbs) (ht : m.timer a = some t)
    (hcb : t.cb = some .wake) : cbs.count (some .wake) = if a ∈ l then 1 else 0 := by
  have hwho (b : Nat) : (m.timer b).bind Timer.cb = some .wake ↔ b = a := by
    constructor
    · intro hb
      obtain ⟨u, hu, hwake⟩ := Option.bind_eq_some_iff.mp hb
      exact h b u hu hwake
    · rintro rfl
      rw [ht, Option.bind_some, hcb]
  have hcount : cbs.count (some .wake) = l.count a := by
    rw [hc.cbs, List.count, List.countP_map, List.count]
    refine List.countP_congr fun b _ => ?_
    simp [hwho]
  rw [hcount, hc.nodup.count]

theorem Wakers.count_none {now : Int} {l : List Nat} {cbs : List (Option Callback)}
    (h : Wakers (fun _ => False) m) (hc : Collects now l m m' cbs) :
    cbs.count (some .wake) = 0 := by
  refine List.count_eq_zero.mpr fun hmem => ?_
  rw [hc.cbs] at hmem
  obtain ⟨b, -, hb⟩ := List.mem_map.mp hmem
  obtain ⟨u, hu, hwake⟩ := Option.bind_eq_some_iff.mp hb
  exact h b u hu hwake

end

/-! ## Before the call -/

section

variable {seconds : BitVec 32} {s s' : State} {l : Label} {op : Op Callback}
  {ans : Answer Callback} {m' : TimerManager Callback} {a : Nat} {t : Timer Callback} {due : Int}

/-- The manager is in order, its clock has not gone back, and of the timers only those in `P`
have the callback. -/
structure Managed (P : Nat → Prop) (s : State) : Prop where
  ordered : s.timers.Ordered
  clock : s.timers.previouseTime ≤ s.clock
  wakers : Wakers P s.timers

theorem Managed.operates {P : Nat → Prop} (h : Managed P s) (hf : foreign s.timer op = true)
    (hreading : op.reading.all (s.clock ≤ ·) = true) (hop : Operates s.timers op ans m') :
    Managed P (s.after op ans m') where
  ordered := h.ordered.of_operates hop
  clock := hop.previouseTime_le h.clock hreading
  wakers := h.wakers.operates hf hop

/-- Nothing of the sleep is there. -/
structure Ready (s : State) : Prop extends Managed (fun _ => False) s where
  wakes : s.wakes = []
  pushes : s.pushes = 0

theorem Ready.operates (h : Ready s) (hf : foreign s.timer op = true)
    (hreading : op.reading.all (s.clock ≤ ·) = true) (hop : Operates s.timers op ans m') :
    Ready (s.after op ans m') := by
  refine ⟨h.toManaged.operates hf hreading hop, ?_, h.pushes⟩
  have hnone : ans.cbs.count (some .wake) = 0 := by
    cases hop with
    | listExpiredCb now probe m' cbs hcollects => exact h.wakers.count_none hcollects
    | _ => rfl
  simp [State.after, h.wakes, hnone]

/-! ## After the call -/

/-- The timer of the sleep is `t` at `a` and waits for its time. -/
structure Pending (a : Nat) (t : Timer Callback) (s : State) : Prop
    extends Managed (· = a) s where
  waiting : Waiting a t s.timers
  timer : s.timer = some a
  wakes : s.wakes = []
  pushes : s.pushes = 0
  readings : ∀ r ∈ s.readings, r < t.next

/-- The callback of the sleep was collected, and no timer has it any more. -/
structure Woken (due : Int) (s : State) : Prop extends Managed (fun _ => False) s where
  first : ∃ r, s.readings.find? (due ≤ ·) = some r ∧ s.wakes.map Wake.reading = [r]
  pushed : s.pushes = s.wakes.countP (·.stage = .pushed)

/-- No reading has come to its time. -/
theorem Pending.find_readings (h : Pending a t s) : s.readings.find? (t.next ≤ ·) = none := by
  refine List.find?_eq_none.mpr fun r hr hdue => ?_
  exact Int.not_le.mpr (h.readings r hr) (of_decide_eq_true hdue)

theorem Pending.onTime (h : Pending a t s) : OnTime t.next s := by
  constructor
  · rw [h.wakes, h.find_readings]
    rfl
  · rw [h.wakes, h.pushes]
    rfl

theorem Woken.onTime (h : Woken due s) : OnTime due s := by
  obtain ⟨r, hfirst, hwakes⟩ := h.first
  exact ⟨by rw [hwakes, hfirst]; rfl, h.pushed⟩

/-- The first `listExpiredCb` of its time takes the timer out and hands its callback out. -/
theorem Pending.collect (h : Pending a t s) (hcb : t.cb = some .wake) (honce : t.recurring = false)
    {now : Int} {probe : Nat} {cbs : List (Option Callback)} (hnow : s.clock ≤ now)
    (hop : Operates s.timers (.listExpiredCb now probe) ⟨true, false, cbs⟩ m')
    (hcollects : Collects now (s.timers.expired now probe) s.timers m' cbs)
    (hdue : t.next ≤ now) :
    Woken t.next (s.after (.listExpiredCb now probe) ⟨true, false, cbs⟩ m') := by
  have htaken : a ∈ s.timers.expired now probe := (h.waiting.mem_expired now probe).mpr (.inr hdue)
  have hcount : cbs.count (some .wake) = 1 := by
    rw [h.wakers.count hcollects h.waiting.timer hcb, if_pos htaken]
  have hmanaged : Managed (· = a) (s.after (.listExpiredCb now probe) ⟨true, false, cbs⟩ m') :=
    h.toManaged.operates rfl (decide_eq_true hnow) hop
  have hdead : m'.timer a = some { t with cb := none } := by
    rw [hcollects.timer, if_pos htaken, h.waiting.timer, Option.map_some, Timer.rang, honce]
    rfl
  refine ⟨⟨hmanaged.ordered, hmanaged.clock, hmanaged.wakers.over hdead rfl⟩, ⟨now, ?_, ?_⟩, ?_⟩
  · change (s.readings ++ [now]).find? (t.next ≤ ·) = some now
    rw [List.find?_append, h.find_readings, Option.none_or, List.find?_singleton,
      if_pos (by simpa)]
  · simp [State.after, h.wakes, hcount, Op.reading]
  · simp [State.after, h.wakes, h.pushes, hcount]

theorem Pending.operates (h : Pending a t s) (hcb : t.cb = some .wake)
    (honce : t.recurring = false) (hf : foreign s.timer op = true)
    (hreading : op.reading.all (s.clock ≤ ·) = true) (hop : Operates s.timers op ans m') :
    Pending a t (s.after op ans m') ∨ Woken t.next (s.after op ans m') := by
  have hmanaged := h.toManaged.operates hf hreading hop
  have hkeeps (hg : TimerManager.Awaits a t.next s.timers op)
      (hcount : ans.cbs.count (some .wake) = 0)
      (hpolled : ∀ r ∈ polled op, r < t.next) : Pending a t (s.after op ans m') := by
    refine ⟨hmanaged, h.waiting.of_operates hg hop, h.timer, ?_, h.pushes, fun r hr => ?_⟩
    · simp [State.after, h.wakes, hcount]
    · exact (List.mem_append.mp hr).elim (h.readings r) (hpolled r)
  have hother {b : Nat} (hb : foreign s.timer (.cancel b) = true) : b ≠ a := by
    rintro rfl
    exact of_decide_eq_true hb h.timer
  cases id hop with
  | listExpiredCb now probe m' cbs hcollects =>
    have hnow : s.clock ≤ now := of_decide_eq_true hreading
    by_cases hdue : t.next ≤ now
    · exact .inr (h.collect hcb honce hnow hop hcollects hdue)
    · have hroll := TimerManager.detectClockRollover_of_le (Int.le_trans h.clock hnow)
      have hleft : a ∉ s.timers.expired now probe := fun hmem =>
        ((h.waiting.mem_expired now probe).mp hmem).elim (by simp [hroll]) hdue
      refine .inl (hkeeps ⟨hroll, Int.not_le.mp hdue⟩ ?_ fun r hr => ?_)
      · rw [h.wakers.count hcollects h.waiting.timer hcb, if_neg hleft]
      · rw [List.mem_singleton.mp hr]
        exact Int.not_le.mp hdue
  | addTimer | getNextTimer => exact .inl (hkeeps trivial rfl nofun)
  | cancelDead | cancel | refreshDead | refresh | resetSame | resetDead | reset =>
    exact .inl (hkeeps (hother hf) rfl nofun)

theorem Woken.operates (h : Woken due s) (hf : foreign s.timer op = true)
    (hreading : op.reading.all (s.clock ≤ ·) = true) (hop : Operates s.timers op ans m') :
    Woken due (s.after op ans m') := by
  obtain ⟨r, hfirst, hwakes⟩ := h.first
  have hcount : ans.cbs.count (some .wake) = 0 := by
    cases hop with
    | listExpiredCb now probe m' cbs hcollects => exact h.wakers.count_none hcollects
    | _ => rfl
  refine ⟨h.toManaged.operates hf hreading hop, ⟨r, ?_, ?_⟩, ?_⟩
  · simp [State.after, hfirst]
  · simp [State.after, hcount, hwakes]
  · simp [State.after, hcount, h.pushed]

/-- The callback that was collected goes on, and pushes the fiber at its end. -/
theorem Woken.callback (h : Woken due s) {i : Nat} (hop : runCallback s i = some s') :
    Woken due s' := by
  obtain ⟨r, hfirst, hwakes⟩ := h.first
  obtain ⟨⟨reading, stage⟩, hw, rfl⟩ := List.map_eq_singleton_iff.mp hwakes
  have hpushed := h.pushed
  rw [hw] at hpushed
  unfold runCallback at hop
  rw [hw] at hop
  cases i with
  | succ i => cases hop
  | zero =>
    cases stage with
    | collected =>
      cases hop
      exact ⟨⟨h.ordered, h.clock, h.wakers⟩, ⟨reading, hfirst, rfl⟩, hpushed⟩
    | queued =>
      cases hop
      exact ⟨⟨h.ordered, h.clock, h.wakers⟩, ⟨reading, hfirst, rfl⟩, congrArg (· + 1) hpushed⟩
    | pushed => cases hop

/-! ## Every run -/

/-- The call leads to a timer that waits for its time. -/
theorem Ready.pending (h : Ready s) {now : Int} (hcall : arm seconds s a now = some s') :
    Pending a ⟨false, delay seconds, now + delay seconds, some .wake⟩ s' := by
  unfold arm at hcall
  split at hcall
  · rename_i hnow
    obtain ⟨⟨front, m⟩, hadd, rfl⟩ := Option.map_eq_some_iff.mp hcall
    obtain ⟨-, hsets, -⟩ := h.ordered.addTimer hadd
    have hordered := h.ordered.of_sets hsets
    have htimer := (hsets.timer a).trans (if_pos rfl)
    constructor
    · refine ⟨hordered, ?_, ?_⟩
      · change m.previouseTime ≤ now
        rw [hsets.previouseTime]
        exact Int.le_trans h.clock hnow
      · have hnone : Wakers (· = a) s.timers := fun b t ht hwake => (h.wakers b t ht hwake).elim
        exact hnone.update hsets.timer fun _ => rfl
    · exact ⟨hordered, htimer, (hsets.mem a).mpr (.inl rfl)⟩
    · rfl
    · exact h.wakes
    · exact h.pushes
    · exact nofun
  · cases hcall

theorem arm_eq {now : Int} (h : arm seconds s a now = some s') :
    s'.pc = .yield ∧ s'.clock = now := by
  unfold arm at h
  split at h
  · obtain ⟨r, -, rfl⟩ := Option.map_eq_some_iff.mp h
    exact ⟨rfl, rfl⟩
  · cases h

theorem runCallback_pc {i : Nat} (h : runCallback s i = some s') : s'.pc = s.pc := by
  unfold runCallback at h
  split at h
  · cases h
  · split at h <;> cases h <;> rfl

theorem Ready.callback (h : Ready s) (i : Nat) : runCallback s i = none := by
  rw [runCallback, h.wakes]
  rfl

theorem Pending.callback (h : Pending a t s) (i : Nat) : runCallback s i = none := by
  rw [runCallback, h.wakes]
  rfl

theorem ready_of_reachable (h : (system seconds).Reachable TransitionSystem.free s)
    (hpc : s.pc = .call) : Ready s := by
  refine TransitionSystem.Preserved.reachable (I := fun s => s.pc = .call → Ready s) ?_ ?_ h hpc
  · intro s l s' hs _ hstep hpc'
    cases step_cases hstep with
    | call a now s' hcall harm =>
      rw [(arm_eq harm).1] at hpc'
      cases hpc'
    | yield | resume => cases hpc'
    | operate op ans m' hf hreading hop =>
      have hready := hs hpc'
      exact hready.operates hf hreading (hready.ordered.operates hop)
    | callback i s' hrun =>
      rw [runCallback_pc hrun] at hpc'
      rw [(hs hpc').callback i] at hrun
      cases hrun
  · rintro s ⟨now, rfl⟩ -
    exact ⟨⟨TimerManager.init_ordered now, Int.le_refl now, nofun⟩, rfl, rfl⟩

/-- From the call on, its timer waits for its time, or the callback was collected. -/
theorem pending_or_woken (hcb : t.cb = some .wake) (honce : t.recurring = false)
    (hp : (system seconds).Path TransitionSystem.free s s') (hpc : s.pc ≠ .call)
    (h : Pending a t s) : Pending a t s' ∨ Woken t.next s' := by
  have hinvariant : s'.pc ≠ .call ∧ (Pending a t s' ∨ Woken t.next s') := by
    refine TransitionSystem.Preserved.path
      (I := fun s => s.pc ≠ .call ∧ (Pending a t s ∨ Woken t.next s)) ?_ hp ⟨hpc, .inl h⟩
    rintro s l s' ⟨hpc, hs⟩ - hstep
    cases step_cases hstep with
    | call b now s' hcall => exact absurd hcall hpc
    | yield | resume =>
      refine ⟨nofun, hs.imp (fun hpending => ?_) fun hwoken => ?_⟩
      · exact ⟨⟨hpending.ordered, hpending.clock, hpending.wakers⟩, hpending.waiting,
          hpending.timer, hpending.wakes, hpending.pushes, hpending.readings⟩
      · exact ⟨⟨hwoken.ordered, hwoken.clock, hwoken.wakers⟩, hwoken.first, hwoken.pushed⟩
    | operate op ans m' hf hreading hop =>
      refine ⟨hpc, ?_⟩
      rcases hs with hpending | hwoken
      · exact hpending.operates hcb honce hf hreading (hpending.ordered.operates hop)
      · exact .inr (hwoken.operates hf hreading (hwoken.ordered.operates hop))
    | callback i s' hrun =>
      refine ⟨runCallback_pc hrun ▸ hpc, ?_⟩
      rcases hs with hpending | hwoken
      · rw [hpending.callback i] at hrun
        cases hrun
      · exact .inr (hwoken.callback hrun)
  exact hinvariant.2

/-- The run that collects the callback as soon as its timer is due. -/
theorem Pending.collected (h : Pending a t s) (seconds : BitVec 32) (hcb : t.cb = some .wake)
    (honce : t.recurring = false) (hnow : s.clock ≤ t.next) :
    ∃ s', (system seconds).Path TransitionSystem.free s s' ∧ Woken t.next s' ∧
      s'.readings = s.readings ++ [t.next] := by
  have hop : s.timers.operate (.listExpiredCb t.next 0) = some
      (⟨true, false, (s.timers.listExpiredCb t.next 0).1⟩,
        (s.timers.listExpiredCb t.next 0).2) := rfl
  have hstep : (system seconds).step s (.operate (.listExpiredCb t.next 0)) =
      some (s.after (.listExpiredCb t.next 0)
        ⟨true, false, (s.timers.listExpiredCb t.next 0).1⟩
        (s.timers.listExpiredCb t.next 0).2) := by
    simp only [system, step, hop, Option.map_some]
    exact if_pos ⟨rfl, decide_eq_true hnow⟩
  have hcollects := h.ordered.listExpiredCb t.next 0
  exact ⟨_, .tail (.refl s) trivial hstep,
    h.collect hcb honce hnow (h.ordered.operates hop) hcollects (Int.le_refl _), rfl⟩

/-- A `sleep` that others surround with any timers wakes up on time in every run exactly when
its product does not wrap. -/
theorem onTime_iff (h : (system seconds).Reachable TransitionSystem.free s) {now : Int}
    (hcall : (system seconds).step s (.call a now) = some s') :
    (∀ s'', (system seconds).Path TransitionSystem.free s' s'' →
      OnTime (now + 1000 * seconds.toNat) s'') ↔ 1000 * seconds.toNat < 0x100000000 := by
  cases step_cases hcall with
  | call a now s' hpc harm =>
    have hpending := (ready_of_reachable h hpc).pending harm
    have hpc' : s'.pc ≠ .call := by
      rw [(arm_eq harm).1]
      exact nofun
    have hdelay := delay_eq seconds
    constructor
    · intro hall
      have hclock : s'.clock ≤ now + delay seconds := by
        rw [(arm_eq harm).2]
        omega
      obtain ⟨s'', hp, hwoken, hreadings⟩ := hpending.collected seconds rfl rfl hclock
      obtain ⟨r, -, hwakes⟩ := hwoken.first
      -- the callback is there, so some reading has come to the time of the sleep
      have hfirst : s''.readings.find? (now + 1000 * seconds.toNat ≤ ·) = some r := by
        have hwoken := (hall s'' hp).woken
        rw [hwakes] at hwoken
        exact Option.toList_eq_singleton_iff.mp hwoken.symm
      have hdue : now + 1000 * seconds.toNat ≤ r := by simpa using List.find?_some hfirst
      have hmem := List.mem_of_find?_eq_some hfirst
      rw [hreadings] at hmem
      rcases List.mem_append.mp hmem with hbefore | hlast
      · have := hpending.readings r hbefore
        dsimp only at this
        omega
      · rw [List.mem_singleton] at hlast
        dsimp only at hlast
        omega
    · intro hfits s'' hp
      rw [← (delay_eq_iff seconds).mpr hfits]
      rcases pending_or_woken rfl rfl hp hpc' hpending with hpending | hwoken
      · exact hpending.onTime
      · exact hwoken.onTime

end

/-! ## Two sleeps -/

/-- Beside another timer, the callback is collected after two seconds and pushes the fiber. -/
def twoSecondsRun : List Label :=
  [.operate (.addTimer 1 0 1999 (some (.other 0)) true), .yield,
    .operate (.listExpiredCb 1999 2), .operate (.listExpiredCb 2000 2), .callback 0, .callback 0,
    .resume]

theorem onTime_iff_twoSecondsRun :
    ∃ s' s'', (system 2).step (start 0) (.call 0 0) = some s' ∧
      (system 2).Path TransitionSystem.free s' s'' ∧ s''.pc = .done 0 ∧ s''.pushes = 1 ∧
      s''.readings = [1999, 2000] ∧ OnTime 2000 s'' := by
  obtain ⟨s'', hs, hp⟩ := (Option.any_eq_true (fun s : State =>
    s.pc == .done 0 && s.pushes == 1 && s.readings == [1999, 2000])
    (((system 2).step (start 0) (.call 0 0)).bind fun s' =>
      (system 2).replay (fun _ _ => true) s' twoSecondsRun)).mp (by decide)
  obtain ⟨s', hcall, hrun⟩ := Option.bind_eq_some_iff.mp hs
  simp only [Bool.and_eq_true, beq_iff_eq] at hp
  obtain ⟨⟨hpc, hpushes⟩, hreadings⟩ := hp
  have hpath := TransitionSystem.Path.of_replay (fun _ _ _ => trivial) hrun
  exact ⟨s', s'', hcall, hpath, hpc, hpushes, hreadings,
    (onTime_iff (.of_init ⟨0, rfl⟩) hcall).mpr (by decide) s'' hpath⟩

/-- 4294968 seconds are 704 milliseconds. -/
theorem not_onTime_wrappedRun :
    ¬ ∀ (seconds : BitVec 32) (s s' s'' : State) (a : Nat) (now : Int),
      (system seconds).Reachable TransitionSystem.free s →
      (system seconds).step s (.call a now) = some s' →
      (system seconds).Path TransitionSystem.free s' s'' →
      OnTime (now + 1000 * seconds.toNat) s'' := by
  intro hall
  obtain ⟨s'', hs, hp⟩ := (Option.any_eq_true (fun s : State =>
    s.wakes.map Wake.reading == [704] && s.readings == [704])
    (((system 4294968).step (start 0) (.call 0 0)).bind fun s' =>
      (system 4294968).replay (fun _ _ => true) s' [.operate (.listExpiredCb 704 1)])).mp
    (by decide)
  obtain ⟨s', hcall, hrun⟩ := Option.bind_eq_some_iff.mp hs
  simp only [Bool.and_eq_true, beq_iff_eq] at hp
  have hpath := TransitionSystem.Path.of_replay (fun _ _ _ => trivial) hrun
  have hwoken := (hall 4294968 (start 0) s' s'' 0 0 (.of_init ⟨0, rfl⟩) hcall hpath).woken
  rw [hp.1, hp.2] at hwoken
  revert hwoken
  decide

end Sleeping
