-- SUMMARY: When a fiber that waits with a timeout is owed a wake-up, and how a callback that comes too early or too late loses it.
import MyCoroutine.Hook.DoIo

/-! # The wake-up owed to a waiting fiber

Between the arming of its timer and the end of its registration, the fiber
counts on one callback. The callback is with the timer manager until it expires
and with a worker from then on, until it has called `cancelEvent`. It is lost
when it ends without effect while the fiber still counts on it: it finds
`cancelled` set by the callback of an earlier wait, or its `cancelEvent` finds
nothing registered because `addEvent` comes later, or the kernel refuses. -/

namespace DoIo

open IOManager (Represents)

variable {c : Config} {s s' : State} {a : Label}

/-! ## What is owed -/

/-- The `(fd, event)` of the call is registered, with its fiber. -/
def State.held (c : Config) (s : State) : Prop :=
  s.io.holds c.slot c.registration

instance (c : Config) (s : State) : Decidable (s.held c) :=
  inferInstanceAs (Decidable (s.io.holds c.slot c.registration))

/-- The timer of the current wait is in `m_timers`, or its callback is extracted,
queued or running and has not done its `cancelEvent`. -/
def State.Owed (s : State) : Prop :=
  (∃ b ∈ s.timers.timers, s.timer = some b) ∨ ∃ f ∈ s.flights, f.wait = s.wait

/-- The fiber counts on its callback: it is about to register, or it is registered. -/
def State.Waiting (c : Config) (s : State) : Prop :=
  s.pc = .register ∨ ((s.pc = .registered ∨ s.pc = .parked) ∧ s.held c)

instance (c : Config) (s : State) : Decidable (s.Waiting c) :=
  inferInstanceAs (Decidable (_ ∨ _))

/-- A callback that the fiber counts on finds `cancelled` still 0, and does its
`cancelEvent` after `addEvent`, when the kernel grants it. -/
def callbackActs (c : Config) (s : State) : Label → Prop
  | .callback i granted => ∀ f ∈ s.flights[i]?, f.wait = s.wait → s.Waiting c →
    (f.stage = .test → s.cancelled = 0) ∧
      (f.stage = .cancel → s.pc ≠ .register ∧ granted = true)
  | _ => True

instance (c : Config) (s : State) : DecidablePred (callbackActs c s)
  | .callback i granted => inferInstanceAs (Decidable (∀ f ∈ s.flights[i]?, f.wait = s.wait →
      s.Waiting c → (f.stage = .test → s.cancelled = 0) ∧
        (f.stage = .cancel → s.pc ≠ .register ∧ granted = true)))
  | .call _ _ | .arm _ _ | .register _ _ | .yield | .resume | .cancelTimer | .check
  | .soError _ _ | .expire _ _ | .tick _ | .timerCall _ _ | .eventCall _ _ => .isTrue trivial

/-! ## The event table under the steps -/

theorem Config.addEvent_proper (c : Config) : c.addEvent.Proper := rfl

theorem Config.cancelEvent_proper (c : Config) : c.cancelEvent.Proper := trivial

theorem Config.foreignEvent_proper {call : IOManager.Call} (h : c.foreignEvent call = true) :
    call.Proper := by
  cases call with
  | addEvent caller fd event cb =>
    simp only [foreignEvent, decide_eq_true_eq] at h
    exact h.1
  | _ => trivial

/-- Nobody else registers the fiber. -/
theorem Config.foreignEvent_added {call : IOManager.Call} (h : c.foreignEvent call = true)
    {out : IOManager.Outcome} {slot : IOManager.Slot} {r : IOManager.Registration}
    (hmem : ⟨slot, .add r⟩ ∈ out.added call) : r.continuation ≠ .fiber c.fiber := by
  cases call with
  | addEvent caller fd event cb =>
    simp only [foreignEvent, decide_eq_true_eq] at h
    simp only [IOManager.Outcome.added] at hmem
    split at hmem
    · obtain ⟨r', hr', heq⟩ := List.mem_map.mp hmem
      cases heq
      obtain ⟨scheduler, -, rfl⟩ := Option.map_eq_some_iff.mp (Option.mem_toList.mp hr')
      cases cb with
      | some b =>
        intro heq
        cases heq
      | none => exact fun heq => h.2 (IOManager.Continuation.fiber.inj heq)
    · cases hmem
  | _ => cases hmem

theorem Config.cancelEvent_added (c : Config) (out : IOManager.Outcome) :
    ⟨c.slot, .add c.registration⟩ ∉ out.added c.cancelEvent :=
  List.not_mem_nil

/-- A `cancelEvent` that the kernel grants ends the registration. -/
theorem not_held_of_cancelEvent {R : IOManager.Registry} (h : Represents R s.io)
    (hheld : s.held c) {out : IOManager.Outcome} {io : IOManager}
    (hio : s.io.perform c.cancelEvent true = some (out, io)) :
    ¬ io.holds c.slot c.registration := by
  obtain ⟨⟨ok, ts, io'⟩, hcancel, heq⟩ := Option.map_eq_some_iff.mp hio
  cases heq
  have hr : R c.slot = some c.registration := (h.holds_iff ..).mp hheld
  have hok := h.cancelEvent_granted hr hcancel
  rcases h.toEncodes.cancelEvent hcancel with ⟨rfl, -, -⟩ | ⟨-, r, -, -, -, hchanges⟩
  · cases hok
  · rw [hchanges.encodes.holds_iff]
    simp [Config.slot]

/-! ## The invariant -/

/-- The timer of the current wait is in `m_timers`, with its callback. -/
def Armed (s : State) : Prop :=
  ∃ b t, s.timer = some b ∧ b ∈ s.timers.timers ∧ s.timers.timer b = some t ∧
    t.recurring = false ∧ t.cb = some (.timeout s.wait)

def InFlight (s : State) : Prop :=
  ∃ f ∈ s.flights, f.wait = s.wait

structure Owing (c : Config) (s : State) : Prop where
  represents : ∃ R, Represents R s.io
  owed : s.Waiting c → Armed s ∨ InFlight s

/-- A step after which the fiber counts on nothing. -/
theorem Owing.rests (h : Owing c s) (hio : s'.io = s.io)
    (hpc : s'.pc ≠ .register ∧ s'.pc ≠ .registered ∧ s'.pc ≠ .parked) : Owing c s' := by
  refine ⟨hio ▸ h.represents, fun hwaiting => ?_⟩
  rcases hwaiting with hregister | ⟨hregistered | hparked, -⟩
  · exact absurd hregister hpc.1
  · exact absurd hregistered hpc.2.1
  · exact absurd hparked hpc.2.2

/-- A step that leaves the event table alone and takes no callback away. -/
theorem Owing.keeps (h : Owing c s) (hio : s'.io = s.io)
    (hwaiting : s'.Waiting c → s.Waiting c)
    (howed : Armed s ∨ InFlight s → Armed s' ∨ InFlight s') : Owing c s' :=
  ⟨hio ▸ h.represents, fun hw => howed (h.owed (hwaiting hw))⟩

/-- A call on the event table by somebody else, or by a callback. -/
theorem Owing.performs (h : Owing c s) {call : IOManager.Call} (hproper : call.Proper)
    {granted : Bool} {out : IOManager.Outcome}
    (hio : s.io.perform call granted = some (out, s'.io))
    (hadd : ⟨c.slot, .add c.registration⟩ ∉ out.added call) (hpc : s'.pc = s.pc)
    (howed : s.Waiting c → s'.Waiting c → Armed s ∨ InFlight s → Armed s' ∨ InFlight s') :
    Owing c s' := by
  obtain ⟨R, hR⟩ := h.represents
  obtain ⟨R', hdoes⟩ := hR.perform hproper hio
  refine ⟨⟨R', hdoes.represents⟩, fun hwaiting' => ?_⟩
  have hwaiting : s.Waiting c := by
    rcases hwaiting' with hregister | ⟨hpcs, hheld⟩
    · exact .inl (hpc ▸ hregister)
    · exact .inr ⟨hpc ▸ hpcs, hR.held_before hproper hio hadd hheld⟩
  exact howed hwaiting hwaiting' (h.owed hwaiting)

/-! ## The callbacks -/

theorem inFlight_set {i : Nat} {f : Flight} (hf : s.flights[i]? = some f) (stage : Stage)
    (h : InFlight s) : ∃ g ∈ s.flights.set i ⟨f.wait, stage⟩, g.wait = s.wait := by
  obtain ⟨g, hg, hwait⟩ := h
  have hi : i < s.flights.length := (List.getElem?_eq_some_iff.mp hf).1
  obtain ⟨j, hj⟩ := List.mem_iff_getElem?.mp hg
  rcases eq_or_ne j i with rfl | hji
  · rw [hf] at hj
    cases hj
    exact ⟨⟨f.wait, stage⟩, List.mem_set hi _, hwait⟩
  · refine ⟨g, List.mem_iff_getElem?.mpr ⟨j, ?_⟩, hwait⟩
    rw [List.getElem?_set_ne (Ne.symm hji), hj]

/-- The end of the callback of another wait. -/
theorem inFlight_eraseIdx {i : Nat} {f : Flight} (hf : s.flights[i]? = some f)
    (hwait : f.wait ≠ s.wait) (h : InFlight s) : ∃ g ∈ s.flights.eraseIdx i, g.wait = s.wait := by
  obtain ⟨g, hg, hgwait⟩ := h
  obtain ⟨j, hj⟩ := List.mem_iff_getElem?.mp hg
  refine ⟨g, List.mem_eraseIdx_iff_getElem?.mpr ⟨j, ?_, hj⟩, hgwait⟩
  rintro rfl
  rw [hf] at hj
  cases hj
  exact hwait hgwait

theorem infoAlive_of_waiting (h : s.Waiting c) : Config.infoAlive s = true := by
  unfold Config.infoAlive
  rcases h with hpc | ⟨hpc | hpc, -⟩ <;> rw [hpc] <;> rfl

/-- `listExpiredCb` leaves the timer of the wait in the set, or collects its callback. -/
theorem Armed.expire (h : Armed s) (now : Int) (probe : Nat) :
    Armed (Config.expire s now probe) ∨ InFlight (Config.expire s now probe) := by
  obtain ⟨b, t, htimer, hmem, ht, honce, hcb⟩ := h
  rcases (s.timers.listExpiredCb_expires now probe).once b t ht honce with
    ⟨hkept, hset⟩ | ⟨-, hemitted⟩
  · exact .inl ⟨b, t, htimer, hset hmem, hkept, honce, hcb⟩
  · have hwait : s.wait ∈ (s.timers.listExpiredCb now probe).1.filterMap
        fun cb => cb.bind Callback.wait :=
      List.mem_filterMap.mpr ⟨t.cb, hemitted, by rw [hcb]; rfl⟩
    refine .inr ⟨⟨s.wait, .extracted⟩, List.mem_append_right _ ?_, rfl⟩
    exact List.mem_map.mpr ⟨s.wait, hwait, rfl⟩

theorem foreignTimer_address {call : TimerManager.Call Callback}
    (hadd : ∀ a ms cb recurring, call ≠ .addTimer a ms cb recurring)
    (hforeign : Config.foreignTimer s call = true) : s.timer ≠ some call.address := by
  cases call with
  | addTimer a ms cb recurring => exact absurd rfl (hadd a ms cb recurring)
  | cancel a | refresh a | reset a => exact of_decide_eq_true hforeign

/-- Somebody else's call on the timer manager leaves the timer of the wait alone. -/
theorem Armed.timerCall (h : Armed s) {call : TimerManager.Call Callback} {now : Int}
    {timers : TimerManager Callback} (hforeign : Config.foreignTimer s call = true)
    (ht : s.timers.perform call now = some timers) : Armed { s with timers := timers } := by
  obtain ⟨b, t, htimer, hmem, hb, honce, hcb⟩ := h
  rcases TimerManager.perform_cases ht with ⟨a, ms, cb, recurring, -, hadds⟩ | ⟨hadd, honly⟩
  · -- the new timer has an address of its own
    have hne : b ≠ a := by
      rintro rfl
      rw [hadds.fresh] at hb
      cases hb
    refine ⟨b, t, htimer, (hadds.mem b).mpr (.inr hmem), ?_, honce, hcb⟩
    rw [hadds.timer, if_neg hne, hb]
  · have hne : b ≠ call.address := by
      rintro rfl
      exact foreignTimer_address hadd hforeign htimer
    exact ⟨b, t, htimer, honly.mem b hne hmem, (honly.timer b hne).trans hb, honce, hcb⟩

/-! ## Every step -/

theorem cancelTimer_io {t : State} (h : Config.cancelTimer s = some t) : t.io = s.io := by
  unfold Config.cancelTimer at h
  split at h
  · cases h
    rfl
  · obtain ⟨r, -, rfl⟩ := Option.map_eq_some_iff.mp h
    rfl

/-- A step leaves the event table alone, or makes one call on it. Only `addEvent` of the
fiber itself can register the fiber. -/
theorem step_table (h : c.Step s a s') :
    s'.io = s.io ∨ ∃ call granted out, call.Proper ∧
      s.io.perform call granted = some (out, s'.io) ∧
      ((s.pc = .register ∧ call = c.addEvent ∧ ∃ errno, a = .register granted errno) ∨
        ∀ slot r, ⟨slot, .add r⟩ ∈ out.added call → r.continuation ≠ .fiber c.fiber) := by
  cases h with
  | registered granted errno out io hpc hio | refused granted errno out io hpc hio =>
    exact .inr ⟨_, granted, out, c.addEvent_proper, hio, .inl ⟨hpc, rfl, errno, rfl⟩⟩
  | callbackCancels i granted f out io hf hstage hio =>
    exact .inr ⟨_, granted, out, c.cancelEvent_proper, hio,
      .inr fun _ _ hmem => absurd hmem List.not_mem_nil⟩
  | eventCall call granted out io hforeign hio =>
    exact .inr ⟨call, granted, out, Config.foreignEvent_proper hforeign, hio,
      .inr fun _ _ hmem => Config.foreignEvent_added hforeign hmem⟩
  | cancelTimer t hpc ht =>
    have hio : t.io = s.io := cancelTimer_io ht
    exact .inl hio
  | giveUp errno t hpc ht =>
    have hio : t.io = s.io := cancelTimer_io ht
    unfold Config.afterFailed
    split <;> exact .inl hio
  | _ => exact .inl rfl

theorem Owing.step (hto : c.timeout ≠ -1) (h : Owing c s) (hg : callbackActs c s a)
    (hstep : c.Step s a s') : Owing c s' := by
  cases hstep with
  | again => exact h
  | wait | returned | timedOut | retry | connected | soError | resume =>
    exact h.rests rfl ⟨nofun, nofun, nofun⟩
  | skipTimer b now hpc hnone => exact absurd hnone hto
  | armed b now timers hpc hfrom hadd =>
    have ht : timers.timer b =
        some ⟨false, c.timeout, now + c.timeout, some (.timeout s.wait)⟩ := by
      rw [hadd.timer, if_pos rfl]
    exact ⟨h.represents, fun _ => .inl ⟨b, _, rfl, (hadd.mem b).mpr (.inl rfl), ht, rfl, rfl⟩⟩
  | registered granted errno out io hpc hio =>
    obtain ⟨R, hR⟩ := h.represents
    obtain ⟨R', hdoes⟩ := hR.perform c.addEvent_proper hio
    exact ⟨⟨R', hdoes.represents⟩, fun _ => h.owed (.inl hpc)⟩
  | refused granted errno out io hpc hio =>
    obtain ⟨R, hR⟩ := h.represents
    obtain ⟨R', hdoes⟩ := hR.perform c.addEvent_proper hio
    have hrests : Owing c { s with io := io, pc := .done 0 0 } := ⟨⟨R', hdoes.represents⟩, by
      rintro (hpc | ⟨hpc | hpc, -⟩) <;> cases hpc⟩
    exact hrests.rests rfl ⟨nofun, nofun, nofun⟩
  | yield hpc =>
    refine h.keeps rfl (fun hwaiting => ?_) id
    rcases hwaiting with hparked | ⟨-, hheld⟩
    · cases hparked
    · exact .inr ⟨.inl hpc, hheld⟩
  | cancelTimer t hpc ht =>
    have hio : t.io = s.io := cancelTimer_io ht
    exact h.rests hio ⟨nofun, nofun, nofun⟩
  | giveUp errno t hpc ht =>
    have hio : t.io = s.io := cancelTimer_io ht
    unfold Config.afterFailed
    split <;> exact h.rests hio ⟨nofun, nofun, nofun⟩
  | expire now probe =>
    refine h.keeps rfl id fun howed => ?_
    rcases howed with harmed | ⟨f, hf, hwait⟩
    · exact harmed.expire now probe
    · exact .inr ⟨f, List.mem_append_left _ hf, hwait⟩
  | callbackGoesOn i granted f stage hf =>
    exact h.keeps rfl id fun howed => howed.imp_right (inFlight_set hf stage)
  | callbackStores i granted f hf hstage =>
    exact h.keeps rfl id fun howed => howed.imp_right (inFlight_set hf .cancel)
  | callbackEnds i granted f hf hwhy =>
    refine ⟨h.represents, fun hwaiting => ?_⟩
    have hwaits : s.Waiting c := hwaiting
    -- the callback of the wait itself has no reason to end here
    have hother : f.wait ≠ s.wait := by
      intro hwait
      rcases hwhy with ⟨-, hdead⟩ | ⟨htest, hcancelled⟩
      · rw [infoAlive_of_waiting hwaits] at hdead
        cases hdead
      · exact hcancelled ((hg f hf hwait hwaits).1 htest)
    exact (h.owed hwaits).imp_right (inFlight_eraseIdx hf hother)
  | callbackCancels i granted f out io hf hstage hio =>
    refine h.performs c.cancelEvent_proper hio (c.cancelEvent_added out) rfl
      fun hwaits hwaits' howed => ?_
    rcases eq_or_ne f.wait s.wait with hwait | hwait
    · -- its own callback: it finds the registration, and afterwards nothing is waited for
      obtain ⟨hregister, rfl⟩ := (hg f hf hwait hwaits).2 hstage
      obtain ⟨R, hR⟩ := h.represents
      exact absurd (hwaits'.resolve_left hregister).2
        (not_held_of_cancelEvent hR (hwaits.resolve_left hregister).2 hio)
    · exact howed.imp_right (inFlight_eraseIdx hf hwait)
  | tick d => exact h.keeps rfl id id
  | timerCall call now timers hforeign ht =>
    exact h.keeps rfl id fun howed => howed.imp_left fun harmed => harmed.timerCall hforeign ht
  | eventCall call granted out io hforeign hio =>
    exact h.performs (Config.foreignEvent_proper hforeign) hio
      (fun hmem => Config.foreignEvent_added hforeign hmem rfl) rfl fun _ _ => id

theorem Config.Initial.owing (h : Config.Initial s) : Owing c s := by
  refine ⟨h.io, fun hwaiting => ?_⟩
  rcases hwaiting with hpc | ⟨hpc | hpc, -⟩ <;>
    · rw [h.pc] at hpc
      cases hpc

/-- In every run in which no callback that the fiber counts on is lost, a fiber
that is parked with its event still registered is owed a wake-up. -/
theorem parked_owed (hto : c.timeout ≠ -1) (h : c.system.Reachable (callbackActs c) s)
    (hpc : s.pc = .parked) (hheld : s.held c) : s.Owed := by
  have howing : Owing c s := TransitionSystem.Preserved.reachable
    (fun _ _ _ hs hg hstep => hs.step hto hg (Config.step_cases hstep))
    (fun _ hs => hs.owing) h
  rcases howing.owed (.inr ⟨.inr hpc, hheld⟩) with ⟨b, t, htimer, hmem, -⟩ | hflight
  · exact .inl ⟨b, hmem, htimer⟩
  · exact .inr hflight

/-! ## A call that hangs -/

/-- The timer expires right after it was armed; its callback runs before the
fiber has called `addEvent`. -/
def earlyRun : List Label :=
  [.call (-1) einprogress, .arm 0 0, .tick 3000, .expire 3000 9, .callback 0 true,
    .callback 0 true, .callback 0 true, .callback 0 true, .callback 0 true, .callback 0 true,
    .register true 0, .yield]

/-- The fiber is parked and registered, its timer is gone, and its callback has run. -/
theorem not_owed_earlyRun :
    ¬ ∀ (c : Config) (s : State), c.timeout ≠ -1 → c.system.Reachable TransitionSystem.free s →
      s.pc = .parked → s.held c → s.Owed := by
  intro hall
  obtain ⟨s, hs, hp⟩ := TransitionSystem.Reachable.of_replay (T := connecting.system)
    (G := TransitionSystem.free) (g := fun _ _ => true) (fun _ _ _ => trivial) (l := earlyRun)
    (p := fun s => s.pc == .parked && decide (s.held connecting) && s.timers.timers == [] &&
      s.flights == [])
    beforeCall_initial (by decide)
  simp only [Bool.and_eq_true, beq_iff_eq, decide_eq_true_eq] at hp
  obtain ⟨⟨⟨hpc, hheld⟩, htimers⟩, hflights⟩ := hp
  rcases hall connecting s (by decide) hs hpc hheld with ⟨b, hb, -⟩ | ⟨f, hf, -⟩
  · rw [htimers] at hb
    cases hb
  · rw [hflights] at hf
    cases hf

/-- The timer expires when the fiber has parked; a worker holds its callback. -/
def timelyRun : List Label :=
  [.call (-1) einprogress, .arm 0 0, .register true 0, .yield, .tick 3000, .expire 3000 9,
    .callback 0 true, .callback 0 true, .callback 0 true, .callback 0 true]

theorem parked_owed_timelyRun :
    ∃ s, connecting.system.Reachable (callbackActs connecting) s ∧ s.pc = .parked ∧
      s.held connecting ∧ s.timers.timers = [] ∧ s.Owed := by
  obtain ⟨s, hs, hp⟩ := TransitionSystem.Reachable.of_replay (T := connecting.system)
    (G := callbackActs connecting) (g := fun s a => decide (callbackActs connecting s a))
    (fun _ _ => of_decide_eq_true) (l := timelyRun)
    (p := fun s => s.pc == .parked && decide (s.held connecting) && s.timers.timers == [])
    beforeCall_initial (by decide)
  simp only [Bool.and_eq_true, beq_iff_eq, decide_eq_true_eq] at hp
  obtain ⟨⟨hpc, hheld⟩, htimers⟩ := hp
  exact ⟨s, hs, hpc, hheld, htimers, parked_owed (by decide) hs hpc hheld⟩

end DoIo
