-- SUMMARY: connect_with_timeout beside the attempt that it waits for, and when it reports a connection only if there is one.
import MyCoroutine.Hook.CallTimer
import MyCoroutine.IOManager.Entry

/-! # The result of connect

The system is one call of `connect_with_timeout`, with all that goes on around it,
beside the attempt that the kernel makes for it. The call concludes from `SO_ERROR`
that it is connected. It comes to that test when its fiber has been resumed, and also
when `addEvent` has failed; and `SO_ERROR` is 0 as long as the attempt is in progress. -/

namespace Connecting

open DoIo (Config connecting)
open IOManager (Represents Slot)

/-! ## Data -/

/-- The attempt to connect, as the kernel has it. -/
inductive Attempt where
  | notMade
  | inProgress
  | established
  | failed
  deriving DecidableEq

/-- What the call has met so far. -/
structure Story where
  /-- What `connect_f` returned. -/
  ret : Option Int
  /-- `addEvent` returned 0. -/
  registered : Bool
  /-- The fiber was resumed, and whether its timeout had fired by then: its callback had
  stored `ETIMEDOUT`. -/
  resumed : Option Bool
  /-- What `SO_ERROR` read. -/
  error : Option Int
  deriving DecidableEq

structure State where
  call : DoIo.State
  attempt : Attempt
  story : Story

inductive Label where
  /-- A step of the call, of a worker, or of somebody else. -/
  | step (a : DoIo.Label)
  /-- The attempt ends. -/
  | finish (established : Bool)

/-! ## The system -/

/-- What `connect_f` leaves behind. -/
def Attempt.after (attempt : Attempt) : DoIo.Label → Attempt
  | .call n errno =>
    if n = 0 then .established
    else if n = -1 ∧ errno = DoIo.einprogress then .inProgress else attempt
  | _ => attempt

/-- What the call meets in a step from `q` to `q'`. -/
def Story.after (story : Story) (q q' : DoIo.State) : DoIo.Label → Story
  | .call n _ => { story with ret := some n }
  | .register _ _ => { story with registered := q'.pc = .registered }
  | .resume => { story with resumed := some (q.cancelled ≠ 0) }
  | .soError error _ => { story with error := error }
  | _ => story

def State.next (s : State) (a : DoIo.Label) (q' : DoIo.State) : State where
  call := q'
  attempt := s.attempt.after a
  story := s.story.after s.call q' a

section

variable (c : Config) (s : State)

def step : Label → Option State
  | .step a => (c.step s.call a).map (s.next a)
  | .finish established =>
    if s.attempt = .inProgress then
      some { s with attempt := if established then .established else .failed }
    else none

/-- The call is about to make the underlying call. Its fiber is running: it is in no
queue and nowhere registered. -/
structure Initial : Prop where
  kind : c.kind = .connectWithTimeout
  event : c.event = .write
  call : Config.Initial s.call
  ordered : s.call.timers.Ordered
  queued : s.call.queued = 0
  unregistered : ∀ slot r, s.call.io.holds slot r → r.continuation ≠ .fiber c.fiber
  attempt : s.attempt = .notMade
  story : s.story = ⟨none, false, none, none⟩

def system : TransitionSystem State Label where
  init := Initial c
  step := step c

end

/-! ## The property -/

/-- The call reports a connection only when `connect_f` did, or when the fiber was
registered and resumed without a timeout and `SO_ERROR` was 0. The attempt is then over;
and a call that has returned has no timer left in `m_timers`. -/
structure Honest (s : State) : Prop where
  success : ∀ errno, s.call.pc = .done 0 errno → s.story.ret = some 0 ∨
    (s.story.registered = true ∧ s.story.resumed = some false ∧ s.story.error = some 0)
  ended : ∀ errno, s.call.pc = .done 0 errno → s.attempt ≠ .inProgress
  timer : s.call.pc.isDone = true → ∀ b, s.call.timer = some b → b ∉ s.call.timers.timers

/-- `SO_ERROR` is not 0 after a failed `addEvent`, and while the attempt is in progress
nobody else pushes the registered fiber. -/
def undisturbed (c : Config) (s : State) : Label → Prop
  | .step (.soError error _) => error = some 0 → s.story.registered = true
  | .step (.eventCall call _) => s.attempt = .inProgress → s.call.held c → ¬ call.Takes c.slot
  | _ => True

instance (c : Config) (s : State) : DecidablePred (undisturbed c s)
  | .step (.soError error _) =>
    inferInstanceAs (Decidable (error = some 0 → s.story.registered = true))
  | .step (.eventCall call _) =>
    inferInstanceAs (Decidable (s.attempt = .inProgress → s.call.held c → ¬ call.Takes c.slot))
  | .step (.call _ _) | .step (.arm _ _) | .step (.register _ _) | .step .yield | .step .resume
  | .step .cancelTimer | .step .check | .step (.expire _ _) | .step (.callback _ _)
  | .step (.tick _) | .step (.timerCall _ _) | .finish _ => .isTrue trivial

/-! ## The timer of the call -/

section

variable {c : Config} {q q' : DoIo.State} {a : DoIo.Label}

/-- The timer of the call is one-shot and out of the set once it has no callback, and it
has none from its `cancel` on. -/
structure TimerKept (q : DoIo.State) : Prop where
  ordered : q.timers.Ordered
  timer : ∀ b, q.timer = some b → ∃ t, q.timers.timer b = some t ∧ t.recurring = false ∧
    (t.cb = none → b ∉ q.timers.timers) ∧ (q.pc.armed = false → t.cb = none)

theorem TimerKept.kept (h : TimerKept q) {b : Nat} (hb : q.timer = some b) : DoIo.Kept q b := by
  obtain ⟨t, ht, honce, hout, hover⟩ := h.timer b hb
  exact ⟨t, ht, honce, hout, fun hn => hover (Bool.eq_false_iff.mpr fun harmed => hn ⟨hb, harmed⟩)⟩

theorem TimerKept.of_kept (hordered : q.timers.Ordered)
    (hkept : ∀ b, q.timer = some b → DoIo.Kept q b) : TimerKept q := by
  refine ⟨hordered, fun b hb => ?_⟩
  obtain ⟨t, ht, honce, hout, hover⟩ := hkept b hb
  exact ⟨t, ht, honce, hout, fun hpc => hover fun hc => Bool.eq_false_iff.mp hpc hc.2⟩

theorem TimerKept.step (h : TimerKept q) (hstep : c.step q a = some q') : TimerKept q' := by
  have hcases : c.Step q a q' := Config.step_cases hstep
  refine .of_kept (DoIo.ordered_step h.ordered hstep) fun b hb => ?_
  rcases DoIo.timer_step hcases hb with hold | ⟨hnew, -⟩
  · exact (h.kept hold).step h.ordered hcases
  · exact hnew

/-! ## Single steps -/

/-- The call has not come to its registration. -/
def early : DoIo.Pc → Bool
  | .call | .arm | .register => true
  | _ => false

theorem early_step (hkind : c.kind = .connectWithTimeout) (h : c.Step q a q')
    (hpc : early q.pc = false) : early q'.pc = false := by
  cases h with
  | wait n errno hcall => rw [hcall] at hpc; cases hpc
  | skipTimer b now harm | armed b now timers harm => rw [harm] at hpc; cases hpc
  | retry hcheck hcancelled hdoIo =>
    rw [hkind] at hdoIo
    cases hdoIo
  | giveUp errno t hfailed ht =>
    unfold Config.afterFailed
    split <;> rfl
  | returned | registered | refused | yield | resume | cancelTimer | timedOut | connected
  | soError => rfl
  | _ => exact hpc

theorem register_step {granted : Bool} {errno : Int} (h : c.Step q (.register granted errno) q') :
    early q'.pc = false := by
  cases h <;> rfl

/-- Nobody resets `cancelled`. -/
theorem cancelled_step (h : c.Step q a q') (hcancelled : q.cancelled ≠ 0) : q'.cancelled ≠ 0 := by
  cases h with
  | callbackStores => exact fun hzero => nomatch hzero
  | cancelTimer t hpc ht =>
    obtain ⟨timers, rfl⟩ := Config.cancelTimer_eq ht
    exact hcancelled
  | giveUp errno t hpc ht =>
    obtain ⟨timers, rfl⟩ := Config.cancelTimer_eq ht
    unfold Config.afterFailed
    split <;> exact hcancelled
  | _ => exact hcancelled

/-- A callback that is about to cancel the event has stored `ETIMEDOUT`. -/
def Stored (q : DoIo.State) : Prop :=
  ∀ f ∈ q.flights, f.stage = .cancel → q.cancelled ≠ 0

theorem Stored.goOn (h : Stored q) {i w : Nat} {stage : DoIo.Stage} (hstage : stage ≠ .cancel) :
    Stored { q with flights := q.flights.set i ⟨w, stage⟩ } := by
  intro f hf hcancel
  rcases List.mem_or_eq_of_mem_set hf with hf | rfl
  · exact h f hf hcancel
  · exact absurd hcancel hstage

theorem Stored.endIt (h : Stored q) (i : Nat) :
    Stored { q with flights := q.flights.eraseIdx i } :=
  fun f hf => h f (List.mem_of_mem_eraseIdx hf)

theorem Stored.callback (h : Stored q) {i : Nat} {granted : Bool}
    (hop : c.runCallback q i granted = some q') : Stored q' := by
  unfold Config.runCallback at hop
  split at hop
  · cases hop
  dsimp only at hop
  split at hop
  · cases hop
    exact h.goOn nofun
  · cases hop
    exact h.goOn nofun
  · cases hop
    split
    · exact h.goOn nofun
    · exact h.endIt i
  · cases hop
    split
    · exact h.endIt i
    · exact h.goOn nofun
  · cases hop
    exact fun _ _ _ hzero => nomatch hzero
  · obtain ⟨r, -, rfl⟩ := Option.map_eq_some_iff.mp hop
    exact h.endIt i

theorem Stored.step (h : Stored q) (hstep : c.step q a = some q') : Stored q' := by
  have hcases : c.Step q a q' := Config.step_cases hstep
  cases hcases with
  | callbackGoesOn | callbackEnds | callbackStores | callbackCancels =>
    exact h.callback (Config.callback_cases hstep)
  | expire now probe =>
    intro f hf hcancel
    rcases List.mem_append.mp hf with hf | hf
    · exact h f hf hcancel
    · obtain ⟨w, -, rfl⟩ := List.mem_map.mp hf
      cases hcancel
  | cancelTimer t hpc ht =>
    obtain ⟨timers, rfl⟩ := Config.cancelTimer_eq ht
    exact h
  | giveUp errno t hpc ht =>
    obtain ⟨timers, rfl⟩ := Config.cancelTimer_eq ht
    unfold Config.afterFailed
    split <;> exact h
  | _ => exact h

end

/-! ## The invariant -/

/-- The attempt is over, or the timeout has fired. -/
def State.Settled (s : State) : Prop :=
  s.attempt ≠ .inProgress ∨ s.call.cancelled ≠ 0

/-- What the fiber has met when it stands at `pc`. -/
def State.Met (s : State) : DoIo.Pc → Prop
  | .call | .arm | .register => True
  | .registered | .parked => s.story.registered = true
  | .woken | .check => s.story.registered = true ∧ s.Settled ∧
    ∃ fired, s.story.resumed = some fired ∧ (fired = true → s.call.cancelled ≠ 0)
  | .failed _ => s.story.registered = false
  | .soError => s.story.registered = true →
    s.story.resumed = some false ∧ s.attempt ≠ .inProgress
  | .done ret _ => ret = 0 → s.attempt ≠ .inProgress ∧ (s.story.ret = some 0 ∨
    (s.story.registered = true ∧ s.story.resumed = some false ∧ s.story.error = some 0))

/-- The event table knows the fiber only as registered for its slot. -/
structure Known (c : Config) (q : DoIo.State) : Prop where
  represents : ∃ R, Represents R q.io
  mine : ∀ slot r, q.io.holds slot r → r.continuation = .fiber c.fiber →
    slot = c.slot ∧ r = c.registration ∧ early q.pc = false

structure Sound (c : Config) (s : State) : Prop where
  known : Known c s.call
  queued : 0 < s.call.queued → early s.call.pc = false ∧ s.Settled
  stored : Stored s.call
  met : s.Met s.call.pc

variable {c : Config} {s s' : State} {q q' : DoIo.State} {a : DoIo.Label}

theorem State.Met.mono {pc : DoIo.Pc} (h : s.Met pc) (hstory : s'.story = s.story)
    (hattempt : s.attempt ≠ .inProgress → s'.attempt ≠ .inProgress)
    (hcancelled : s.call.cancelled ≠ 0 → s'.call.cancelled ≠ 0) : s'.Met pc := by
  cases pc with
  | call | arm | register => trivial
  | registered | parked | failed => simpa only [State.Met, hstory] using h
  | woken | check =>
    obtain ⟨hregistered, hsettled, fired, hresumed, hfired⟩ := h
    rw [← hstory] at hregistered hresumed
    exact ⟨hregistered, hsettled.imp hattempt hcancelled, fired, hresumed,
      fun hf => hcancelled (hfired hf)⟩
  | soError =>
    intro hregistered
    rw [hstory] at hregistered ⊢
    obtain ⟨hresumed, hover⟩ := h hregistered
    exact ⟨hresumed, hattempt hover⟩
  | done ret errno =>
    intro hret
    rw [hstory]
    obtain ⟨hover, hhow⟩ := h hret
    exact ⟨hattempt hover, hhow⟩

/-! ## The event table -/

theorem added_addEvent {out : IOManager.Outcome} {slot : Slot} {r : IOManager.Registration}
    (hmem : ⟨slot, .add r⟩ ∈ out.added c.addEvent) : slot = c.slot ∧ r = c.registration := by
  simp only [Config.addEvent, IOManager.Outcome.added] at hmem
  split at hmem
  · obtain ⟨r', hr', heq⟩ := List.mem_map.mp hmem
    cases heq
    cases Option.mem_toList.mp hr'
    exact ⟨rfl, rfl⟩
  · cases hmem

theorem Known.step (hkind : c.kind = .connectWithTimeout) (h : Known c q) (hstep : c.Step q a q') :
    Known c q' := by
  rcases DoIo.step_table hstep with hio | ⟨call, granted, out, hproper, hio, hwhose⟩
  · refine ⟨hio ▸ h.represents, fun slot r hheld hr => ?_⟩
    rw [hio] at hheld
    obtain ⟨hslot, hreg, hearly⟩ := h.mine slot r hheld hr
    exact ⟨hslot, hreg, early_step hkind hstep hearly⟩
  · obtain ⟨R, hR⟩ := h.represents
    obtain ⟨R', hdoes⟩ := hR.perform hproper hio
    refine ⟨⟨R', hdoes.represents⟩, fun slot r hheld hr => ?_⟩
    by_cases hadd : ⟨slot, .add r⟩ ∈ out.added call
    · rcases hwhose with ⟨-, rfl, errno, rfl⟩ | hothers
      · obtain ⟨hslot, hreg⟩ := added_addEvent hadd
        exact ⟨hslot, hreg, register_step hstep⟩
      · exact absurd hr (hothers slot r hadd)
    · obtain ⟨hslot, hreg, hearly⟩ := h.mine slot r (hR.held_before hproper hio hadd hheld) hr
      exact ⟨hslot, hreg, early_step hkind hstep hearly⟩

/-- A call that pushes the fiber takes its slot, where it is registered. -/
theorem Known.wakes (h : Known c q) {call : IOManager.Call} {granted : Bool}
    {out : IOManager.Outcome} {io : IOManager} (hio : q.io.perform call granted = some (out, io))
    (hwakes : 0 < c.wakes out.triggers) :
    q.held c ∧ call.Takes c.slot ∧ early q.pc = false := by
  obtain ⟨R, hR⟩ := h.represents
  obtain ⟨t, ht, hfiber⟩ := List.countP_pos_iff.mp hwakes
  rw [decide_eq_true_iff] at hfiber
  obtain ⟨slot, r, hr, rfl, htakes⟩ := hR.pushes hio ht
  have hmine : r.continuation = .fiber c.fiber := by
    obtain ⟨scheduler, f | b⟩ := r
    · cases hfiber
      rfl
    · cases hfiber
  obtain ⟨rfl, rfl, hearly⟩ := h.mine slot r ((hR.holds_iff ..).mpr hr) hmine
  exact ⟨(hR.holds_iff ..).mpr hr, htakes, hearly⟩

/-! ## Every step -/

/-- Once the fiber has registered, what is settled stays settled. -/
theorem State.Settled.next (h : s.Settled) (hearly : early s.call.pc = false)
    (hstep : c.Step s.call a q') : (s.next a q').Settled := by
  have hcancelled := cancelled_step hstep
  cases hstep with
  | again n errno hpc | wait n errno hpc | returned n errno hpc =>
    rw [hpc] at hearly
    cases hearly
  | _ => exact h.imp id hcancelled

/-- Where the fiber is pushed, it is registered, and the push comes from its timeout or
finds the attempt over. -/
theorem Sound.queued_step (h : Sound c s) (hkind : c.kind = .connectWithTimeout)
    (hg : undisturbed c s (.step a)) (hstep : c.Step s.call a q') (hqueued : 0 < q'.queued) :
    early q'.pc = false ∧ (s.next a q').Settled := by
  suffices hbefore : early s.call.pc = false ∧ s.Settled from
    ⟨early_step hkind hstep hbefore.1, hbefore.2.next hbefore.1 hstep⟩
  cases hstep with
  | resume hpc hpos => exact h.queued hpos
  | cancelTimer t hpc ht =>
    obtain ⟨timers, rfl⟩ := Config.cancelTimer_eq ht
    exact h.queued hqueued
  | giveUp errno t hpc ht =>
    obtain ⟨timers, rfl⟩ := Config.cancelTimer_eq ht
    simp only [Config.afterFailed, hkind] at hqueued
    exact h.queued hqueued
  | callbackCancels i granted f out io hf hstage hio =>
    have hcancelled := h.stored f (List.mem_of_getElem? hf) hstage
    rcases Nat.add_pos_iff_pos_or_pos.mp hqueued with hold | hwakes
    · exact h.queued hold
    · exact ⟨(h.known.wakes hio hwakes).2.2, .inr hcancelled⟩
  | eventCall call granted out io hforeign hio =>
    rcases Nat.add_pos_iff_pos_or_pos.mp hqueued with hold | hwakes
    · exact h.queued hold
    · obtain ⟨hheld, htakes, hearly⟩ := h.known.wakes hio hwakes
      exact ⟨hearly, .inl fun hprogress => hg hprogress hheld htakes⟩
  | _ => exact h.queued hqueued

/-- What the fiber has met follows it from one point of the call to the next. -/
theorem Sound.met_step (h : Sound c s) (hkind : c.kind = .connectWithTimeout)
    (hg : undisturbed c s (.step a)) (hstep : c.step s.call a = some q') :
    (s.next a q').Met q'.pc := by
  have hcases : c.Step s.call a q' := Config.step_cases hstep
  have hcancelled := cancelled_step hcases
  have hmet := h.met
  cases hcases with
  | again n errno hpc => rw [hpc]; trivial
  | wait | skipTimer | armed => trivial
  | returned n errno hpc =>
    rintro rfl
    have hestablished : (s.next (.call 0 errno) { s.call with pc := .done 0 errno }).attempt ≠
        .inProgress := by
      simp [State.next, Attempt.after]
    exact ⟨hestablished, .inl rfl⟩
  | registered | refused => rfl
  | yield hpc =>
    rw [hpc] at hmet
    exact hmet
  | resume hpc hqueued =>
    rw [hpc] at hmet
    exact ⟨hmet, (h.queued hqueued).2, _, rfl, of_decide_eq_true⟩
  | cancelTimer t hpc ht =>
    obtain ⟨timers, rfl⟩ := Config.cancelTimer_eq ht
    rw [hpc] at hmet
    exact hmet
  | giveUp errno t hpc ht =>
    rw [hpc] at hmet
    simp only [Config.afterFailed, hkind]
    intro hregistered
    change s.story.registered = true at hregistered
    rw [show s.story.registered = false from hmet] at hregistered
    cases hregistered
  | timedOut hpc hfired =>
    intro hret
    cases hret
  | retry hpc hzero hdoIo =>
    rw [hkind] at hdoIo
    cases hdoIo
  | connected hpc =>
    -- the test of `cancelled` let the fiber pass
    have hzero : s.call.cancelled = 0 := by
      by_contra hfired
      have hchecked := Config.check_cases hstep
      rw [Config.checkCancelled, if_pos hfired] at hchecked
      cases congrArg DoIo.State.pc hchecked
    rw [hpc] at hmet
    obtain ⟨-, hsettled, fired, hresumed, hfired⟩ := hmet
    have hnot : fired = false := Bool.eq_false_iff.mpr fun hf => hfired hf hzero
    exact fun _ => ⟨hnot ▸ hresumed, hsettled.resolve_right (not_not_intro hzero)⟩
  | soError error errno ret errno' hpc =>
    rintro rfl
    have herror : error = some 0 := by
      have hreturned := congrArg DoIo.State.pc (Config.soError_cases hstep)
      unfold Config.soErrorReturned at hreturned
      split at hreturned
      · cases hreturned
      · split at hreturned
        · rename_i hzero
          rw [hzero]
        · cases hreturned
    have hregistered := hg herror
    rw [hpc] at hmet
    obtain ⟨hresumed, hover⟩ := hmet hregistered
    exact ⟨hover, .inr ⟨hregistered, hresumed, herror⟩⟩
  | _ => exact hmet.mono rfl id hcancelled

theorem Sound.step (hkind : c.kind = .connectWithTimeout) (h : Sound c s) {l : Label}
    (hg : undisturbed c s l) (hstep : step c s l = some s') : Sound c s' := by
  cases l with
  | step a =>
    simp only [Connecting.step] at hstep
    obtain ⟨q', hq, rfl⟩ := Option.map_eq_some_iff.mp hstep
    have hcases : c.Step s.call a q' := Config.step_cases hq
    exact ⟨h.known.step hkind hcases, h.queued_step hkind hg hcases, h.stored.step hq,
      h.met_step hkind hg hq⟩
  | finish established =>
    simp only [Connecting.step] at hstep
    split at hstep
    · cases hstep
      have hover : (if established then Attempt.established else .failed) ≠ .inProgress := by
        cases established <;> exact nofun
      exact ⟨h.known, fun hqueued => ⟨(h.queued hqueued).1, .inl hover⟩, h.stored,
        h.met.mono rfl (fun _ => hover) id⟩
    · cases hstep

theorem Initial.sound (h : Initial c s) : Sound c s where
  known := ⟨h.call.io, fun slot r hheld hr => absurd hr (h.unregistered slot r hheld)⟩
  queued := by
    rw [h.queued]
    exact nofun
  stored := by
    intro f hf
    rw [h.call.flights] at hf
    cases hf
  met := by
    rw [h.call.pc]
    trivial

theorem TimerKept.next (h : TimerKept s.call) {l : Label}
    (hstep : Connecting.step c s l = some s') :
    TimerKept s'.call := by
  cases l with
  | step a =>
    simp only [Connecting.step] at hstep
    obtain ⟨q', hq, rfl⟩ := Option.map_eq_some_iff.mp hstep
    exact h.step hq
  | finish established =>
    simp only [Connecting.step] at hstep
    split at hstep <;> cases hstep
    exact h

theorem Initial.timerKept (h : Initial c s) : TimerKept s.call := by
  refine ⟨h.ordered, fun b hb => ?_⟩
  rw [h.call.timer] at hb
  cases hb

/-- In every run, a call that has returned has no timer in `m_timers`. -/
theorem timer_out_of_reachable {G : State → Label → Prop} (h : (system c).Reachable G s)
    (hdone : s.call.pc.isDone = true) {b : Nat} (hb : s.call.timer = some b) :
    b ∉ s.call.timers.timers := by
  have hkept : TimerKept s.call := by
    refine TransitionSystem.Preserved.reachable (I := fun s => TimerKept s.call) ?_ ?_ h
    · exact fun _ _ _ hs _ hstep => hs.next hstep
    · exact fun _ hs => hs.timerKept
  obtain ⟨t, -, -, hout, hover⟩ := hkept.timer b hb
  refine hout (hover ?_)
  cases hpc : s.call.pc with
  | done => rfl
  | _ => rw [hpc] at hdone; cases hdone

/-- In every run in which `SO_ERROR` is not 0 after a failed `addEvent` and nobody else
pushes the registered fiber while the attempt is in progress, the call reports a connection
only when there is one, and it leaves its timer out of `m_timers`. -/
theorem honest_of_reachable (h : (system c).Reachable (undisturbed c) s) : Honest s := by
  have hinvariant : c.kind = .connectWithTimeout ∧ Sound c s := by
    refine TransitionSystem.Preserved.reachable
      (I := fun s => c.kind = .connectWithTimeout ∧ Sound c s) ?_ ?_ h
    · exact fun _ _ _ hs hg hstep => ⟨hs.1, hs.2.step hs.1 hg hstep⟩
    · exact fun _ hs => ⟨hs.kind, hs.sound⟩
  have hsound := hinvariant.2
  have hmet {errno : Int} (hdone : s.call.pc = .done 0 errno) := hdone ▸ hsound.met
  exact ⟨fun _ hdone => (hmet hdone rfl).2, fun _ hdone => (hmet hdone rfl).1,
    fun hdone _ hb => timer_out_of_reachable h hdone hb⟩

/-! ## A connection that is reported and is not there -/

def beforeConnect : State where
  call := DoIo.beforeCall
  attempt := .notMade
  story := ⟨none, false, none, none⟩

theorem beforeConnect_initial : Initial connecting beforeConnect where
  kind := rfl
  event := rfl
  call := DoIo.beforeCall_initial
  ordered := TimerManager.init_ordered 0
  queued := rfl
  unregistered := by
    intro slot r hheld
    have hnone := ((IOManager.init_represents 5 32).holds_iff slot r).mp hheld
    cases hnone
  attempt := rfl
  story := rfl

/-- The attempt succeeds after the fiber has parked, and `idle` handles the report. -/
def connectedRun : List Label :=
  [.step (.call (-1) DoIo.einprogress), .step (.arm 0 0), .step (.register true 0), .step .yield,
    .finish true, .step (.eventCall (.idleEntry 6 epollOut) true), .step .resume,
    .step .cancelTimer, .step .check, .step (.soError (some 0) 0)]

theorem honest_of_reachable_connectedRun :
    ∃ s, (system connecting).Reachable (undisturbed connecting) s ∧ s.call.pc = .done 0 0 ∧
      s.attempt = .established ∧ s.call.timer = some 0 ∧ Honest s := by
  obtain ⟨s, hs, hp⟩ := TransitionSystem.Reachable.of_replay (T := system connecting)
    (G := undisturbed connecting) (g := fun s a => decide (undisturbed connecting s a))
    (fun _ _ => of_decide_eq_true) (l := connectedRun)
    (p := fun s => s.call.pc == .done 0 0 && s.attempt == .established && s.call.timer == some 0)
    beforeConnect_initial (by decide)
  simp only [Bool.and_eq_true, beq_iff_eq] at hp
  obtain ⟨⟨hpc, hattempt⟩, htimer⟩ := hp
  exact ⟨s, hs, hpc, hattempt, htimer, honest_of_reachable hs⟩

/-- `addEvent` fails, and the attempt has no error yet. -/
def unregisteredRun : List Label :=
  [.step (.call (-1) DoIo.einprogress), .step (.arm 0 0), .step (.register false 12),
    .step .cancelTimer, .step (.soError (some 0) 12)]

theorem not_honest_unregisteredRun :
    ¬ ∀ (c : Config) (s : State), (system c).Reachable TransitionSystem.free s → Honest s := by
  intro hall
  obtain ⟨s, hs, hp⟩ := TransitionSystem.Reachable.of_replay (T := system connecting)
    (G := TransitionSystem.free) (g := fun _ _ => true) (fun _ _ _ => trivial)
    (l := unregisteredRun)
    (p := fun s => s.call.pc == .done 0 12 && s.attempt == .inProgress) beforeConnect_initial
    (by decide)
  simp only [Bool.and_eq_true, beq_iff_eq] at hp
  exact (hall connecting s hs).ended 12 hp.1 hp.2

end Connecting
