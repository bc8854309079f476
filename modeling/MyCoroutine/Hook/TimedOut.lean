-- SUMMARY: do_io reports ETIMEDOUT only when the underlying call does: no wait of it has a timer, since every lookup makes a new FdCtx.
import MyCoroutine.Hook.CallTimer
import MyCoroutine.Hook.Lookups

/-! # The timeout that do_io reports

`do_io` takes its timeout from the `FdCtx` that `FdManager::get` gives it, which is always a
new one, without a timeout. So no wait of `do_io` arms a timer, and no callback of an earlier
wait is left over in a later one: nothing sets `tinfo->cancelled`. What is left is an
`ETIMEDOUT` of the underlying call, which `do_io` passes on as it does every other error. -/

namespace Hook

variable {e : Env} {p p' : Process} {fd : Int}

theorem Process.get_fresh {id : CtxId} (h : p.get fd false = some (some id, p')) :
    ∃ c, p'.ctx id = some c ∧ c.Fresh fd := by
  have hnonneg : 0 ≤ fd := by
    by_contra hneg
    rw [Process.get, if_pos (Int.not_le.mp hneg)] at h
    split at h
    · cases h
    · split at h <;> cases h
  obtain ⟨-, hid, hp⟩ := Process.get_cases hnonneg h
  rcases hget : p.fdm.get fd.toNat false none with ⟨x, m⟩
  simp only [hget] at hid hp
  rw [← hid] at hget
  obtain ⟨c, hc, hfresh⟩ := FdManager.get_fresh hget
  rw [hp]
  rw [Int.toNat_of_nonneg hnonneg] at hfresh
  exact ⟨c, hc, hfresh⟩

/-- The timeout of a `do_io` is the one of a new `FdCtx`. -/
theorem doIo_timeout {fn : Call} {event event' : IOManager.Event} {timeoutSo timeout : Int}
    {kind : DoIo.Kind}
    (h : doIo e fd fn event timeoutSo p = some (.loops kind event' timeout, p')) :
    kind = .doIo ∧ event' = event ∧ timeout = -1 := by
  unfold doIo at h
  split at h
  · cases h
  · obtain ⟨⟨id, q⟩, hget, h⟩ := Option.bind_eq_some_iff.mp h
    cases id with
    | none => cases h
    | some id =>
      obtain ⟨ctx, hctx, h⟩ := Option.bind_eq_some_iff.mp h
      obtain ⟨c, hc, hfresh⟩ := Process.get_fresh hget
      cases hctx.symm.trans hc
      split at h
      · cases h
      · split at h
        · cases h
        · cases h
          refine ⟨rfl, rfl, ?_⟩
          unfold FdCtx.getTimeout
          split
          · exact hfresh.recvTimeout
          · exact hfresh.sendTimeout

end Hook

namespace DoIo

open TransitionSystem (Reachable.of_replay)

variable {c : Config} {s s' : State} {a : Label}

/-- What the underlying calls returned, with `errno`. -/
def results (_ : State) : Label → List (Int × Int)
  | .call n errno => [(n, errno)]
  | _ => []

/-- `addEvent` fails when `epoll_ctl` does, and that has no `ETIMEDOUT`. -/
def epollErrno : Label → Prop
  | .register _ errno => errno ≠ etimedout
  | _ => True

instance : DecidablePred epollErrno
  | .register _ errno => inferInstanceAs (Decidable (errno ≠ etimedout))
  | .call _ _ | .arm _ _ | .yield | .resume | .cancelTimer | .check | .soError _ _ | .expire _ _
  | .callback _ _ | .tick _ | .timerCall _ _ | .eventCall _ _ => .isTrue trivial

/-! ## No timer -/

/-- The call has no timer, and none of its callbacks is anywhere. -/
structure Untimed (s : State) : Prop where
  timers : ∀ b t, s.timers.timer b = some t → t.cb.bind Callback.wait = none
  timer : s.timer = none
  flights : s.flights = []
  cancelled : s.cancelled = 0

/-- The timers change, without a callback of this call being added. -/
theorem Untimed.setTimers (h : Untimed s) {timers : TimerManager Callback}
    (htimers : ∀ b t', timers.timer b = some t' → t'.cb.bind Callback.wait = none ∨
      ∃ t, s.timers.timer b = some t ∧ (t'.cb = none ∨ t'.cb = t.cb)) :
    Untimed { s with timers := timers } := by
  refine ⟨fun b t' ht' => ?_, h.timer, h.flights, h.cancelled⟩
  obtain hnone | ⟨t, ht, hnone | hsame⟩ := htimers b t' ht'
  · exact hnone
  · rw [hnone]
    rfl
  · rw [hsame]
    exact h.timers b t ht

theorem Untimed.timerCall (h : Untimed s) {call : TimerManager.Call Callback} {now : Int}
    {timers : TimerManager Callback} (hforeign : Config.foreignTimer s call = true)
    (ht : s.timers.perform call now = some timers) : Untimed { s with timers := timers } := by
  apply h.setTimers
  intro b t' ht'
  obtain ⟨d, ms, cb, recurring, rfl, hadds⟩ | ⟨-, honly⟩ := TimerManager.perform_cases ht
  · rw [hadds.timer] at ht'
    split at ht'
    · cases ht'
      exact .inl (Option.isNone_iff_eq_none.mp hforeign)
    · exact .inr ⟨t', ht', .inr rfl⟩
  · rcases eq_or_ne b call.address with rfl | hne
    · exact .inr (honly.cb t' ht')
    · exact .inr ⟨t', (honly.timer b hne).symm.trans ht', .inr rfl⟩

/-- `listExpiredCb` collects no callback of this call. -/
theorem Untimed.expire (h : Untimed s) (now : Int) (probe : Nat) :
    Untimed (Config.expire s now probe) := by
  have hexpires := s.timers.listExpiredCb_expires now probe
  have hwaits : (s.timers.listExpiredCb now probe).1.filterMap
      (fun cb => cb.bind Callback.wait) = [] := by
    rw [List.filterMap_eq_nil_iff]
    intro cb hcb
    cases cb with
    | none => rfl
    | some x =>
      obtain ⟨b, -, t, ht, htcb, -⟩ := hexpires.emitted x hcb
      rw [← htcb]
      exact h.timers b t ht
  have htimers := h.setTimers fun b t' ht' => .inr (hexpires.cb b t' ht')
  refine ⟨htimers.timers, h.timer, ?_, h.cancelled⟩
  simp only [Config.expire, hwaits, h.flights, List.map_nil, List.append_nil]

/-- A step of a call without a timeout. -/
theorem Untimed.step (hto : c.timeout = -1) (h : Untimed s) (hstep : c.step s a = some s') :
    Untimed s' := by
  have same {pc : Pc} {io : IOManager} {queued wait : Nat} {eagainAt clock : Int} :
      Untimed { s with
        pc := pc, io := io, queued := queued, wait := wait, eagainAt := eagainAt
        clock := clock } :=
    ⟨h.timers, h.timer, h.flights, h.cancelled⟩
  have cancelled {t : State} (ht : Config.cancelTimer s = some t) : t = s := by
    unfold Config.cancelTimer at ht
    split at ht
    · cases ht
      rfl
    · rename_i b hb
      exact absurd (h.timer.symm.trans hb) nofun
  have noFlight {i : Nat} {f : Flight} (hf : s.flights[i]? = some f) : False := by
    rw [h.flights] at hf
    cases hf
  have hcases : c.Step s a s' := Config.step_cases hstep
  cases hcases with
  | again => exact h
  | wait => exact ⟨h.timers, rfl, h.flights, h.cancelled⟩
  | armed b now timers hpc =>
    -- without a timeout, `addConditionTimer` is not called
    have harm := Config.arm_cases hstep
    rw [Config.armTimer, if_pos hto] at harm
    have htimer : s.timer = some b := congrArg State.timer (Option.some.inj harm)
    exact absurd (h.timer.symm.trans htimer) nofun
  | cancelTimer t hpc ht =>
    rw [cancelled ht]
    exact same
  | giveUp errno t hpc ht =>
    rw [cancelled ht]
    unfold Config.afterFailed
    split <;> exact same
  | expire now probe => exact h.expire now probe
  | timerCall call now timers hforeign ht => exact h.timerCall hforeign ht
  | callbackGoesOn i granted f stage hf => exact (noFlight hf).elim
  | callbackEnds i granted f hf => exact (noFlight hf).elim
  | callbackStores i granted f hf => exact (noFlight hf).elim
  | callbackCancels i granted f out io hf => exact (noFlight hf).elim
  | returned | skipTimer | registered | refused | yield | resume | timedOut | retry | connected
  | soError | tick | eventCall => exact same

theorem Config.Initial.untimed (h : Config.Initial s) : Untimed s :=
  ⟨h.callbacks, h.timer, h.flights, h.cancelled⟩

/-! ## What is passed on -/

/-- An `ETIMEDOUT` that the call returns is the one that the underlying call returned last. -/
def Passed (calls : List (Int × Int)) : Pc → Prop
  | .failed errno => errno ≠ etimedout
  | .soError => False
  | .done ret errno => (ret, errno) = (-1, etimedout) → calls.getLast? = some (-1, etimedout)
  | .call | .arm | .register | .registered | .parked | .woken | .check => True

theorem Passed.step (hkind : c.kind = .doIo) (hs : Untimed s) {calls : List (Int × Int)}
    (h : Passed calls s.pc) (hg : epollErrno a) (hstep : c.Step s a s') :
    Passed (calls ++ results s a) s'.pc := by
  cases hstep with
  | again n errno hpc =>
    rw [hpc]
    trivial
  | returned n errno hpc =>
    intro hdone
    simp [results, hdone]
  | refused granted errno out io hpc => exact hg
  | giveUp errno t hpc ht =>
    rw [hpc] at h
    simp only [Config.afterFailed, hkind]
    intro hdone
    exact absurd (congrArg Prod.snd hdone) h
  | timedOut hpc hcancelled => exact absurd hs.cancelled hcancelled
  | connected hpc hconnect =>
    rw [hkind] at hconnect
    cases hconnect
  | soError error errno ret errno' hpc =>
    rw [hpc] at h
    exact h.elim
  | wait | skipTimer | armed | registered | yield | resume | cancelTimer | retry => trivial
  | expire now probe =>
    rw [results, List.append_nil]
    · exact h
    · exact nofun
  | callbackGoesOn | callbackEnds | callbackStores | callbackCancels | tick | timerCall
  | eventCall => simpa [results] using h

/-- However often it retries, and whatever goes on around it: when `do_io` returns -1 with
`ETIMEDOUT`, the underlying call has just returned that, or the timer of the current wait has
expired and the timeout has passed since the underlying call met `EAGAIN`; and a callback on
its way belongs to the current wait. -/
theorem timed_out_in_time {e : Hook.Env} {p p' : Hook.Process} {fn : Hook.Call} {timeoutSo : Int}
    (hloops : Hook.doIo e c.fd fn c.event timeoutSo p =
      some (.loops c.kind c.event c.timeout, p'))
    {r : State × List (Int × Int)}
    (h : (c.system.recording results).Reachable (fun _ a => epollErrno a) r) :
    (r.1.pc = .done (-1) etimedout → r.2.getLast? = some (-1, etimedout) ∨
      (r.1.wait ∈ r.1.emitted ∧ r.1.eagainAt + c.timeout ≤ r.1.clock)) ∧
    ∀ f ∈ r.1.flights, f.wait = r.1.wait := by
  obtain ⟨hkind, -, hto⟩ := Hook.doIo_timeout hloops
  have hinvariant : Untimed r.1 ∧ Passed r.2 r.1.pc := by
    refine TransitionSystem.Preserved.reachable (T := c.system.recording results)
      (G := fun _ a => epollErrno a) (I := fun r => Untimed r.1 ∧ Passed r.2 r.1.pc) ?_ ?_ h
    · rintro r a r' ⟨hs, hpassed⟩ hg hstep
      obtain ⟨hstep, hcalls⟩ := TransitionSystem.recording_step hstep
      rw [hcalls]
      exact ⟨hs.step hto hstep, hpassed.step hkind hs hg (Config.step_cases hstep)⟩
    · rintro r ⟨hinit, hcalls⟩
      refine ⟨Config.Initial.untimed hinit, ?_⟩
      rw [Config.Initial.pc hinit]
      trivial
  obtain ⟨huntimed, hpassed⟩ := hinvariant
  refine ⟨fun hdone => .inl ?_, ?_⟩
  · rw [hdone] at hpassed
    exact hpassed rfl
  · rw [huntimed.flights]
    exact nofun

/-! ## An error that is passed on -/

/-- A process with a socket, 6. -/
def socketProcess : Hook.Process :=
  ⟨.init Hook.socketKernel, .init 5 32, [], []⟩

/-- The underlying call that `reading` makes. -/
def recvSix : Hook.Call :=
  .recv 6 0 0 0

theorem reading_loops : ∃ p', Hook.doIo ⟨true, true, fun _ k => (-1, k), true⟩ reading.fd recvSix
    reading.event FdCtx.soRcvtimeo socketProcess =
      some (.loops reading.kind reading.event reading.timeout, p') := by
  have hsteady : socketProcess.Steady := ⟨FdManager.init_sized _, rfl⟩
  have hinside : socketProcess.Inside reading.fd := ⟨by decide, by decide⟩
  have hsocket : socketProcess.fdm.kernel.fstat reading.fd = some true := rfl
  refine ⟨socketProcess.enter reading.fd, ?_⟩
  rw [Hook.doIo_inside hsteady rfl hinside, if_pos hsocket]
  rfl

/-- The connection has timed out in the kernel: no wait has, there was none. -/
theorem not_in_time_passedOn :
    ¬ ∀ (c : Config) (e : Hook.Env) (p p' : Hook.Process) (fn : Hook.Call) (timeoutSo : Int),
      Hook.doIo e c.fd fn c.event timeoutSo p = some (.loops c.kind c.event c.timeout, p') →
      ∀ s, c.system.Reachable TransitionSystem.free s → s.pc = .done (-1) etimedout →
        s.wait ∈ s.emitted ∧ s.eagainAt + c.timeout ≤ s.clock := by
  intro hall
  obtain ⟨p', hloops⟩ := reading_loops
  obtain ⟨s, hs, hp⟩ := Reachable.of_replay (T := reading.system) (G := TransitionSystem.free)
    (g := fun _ _ => true) (fun _ _ _ => trivial) (l := [.call (-1) etimedout])
    (p := fun s => s.pc == .done (-1) etimedout && s.emitted == []) beforeCall_initial (by decide)
  simp only [Bool.and_eq_true, beq_iff_eq] at hp
  have hmem := (hall reading _ _ p' recvSix _ hloops s hs hp.1).1
  rw [hp.2] at hmem
  cases hmem

/-- A wait that another fiber ends with `cancelEvent`; then the underlying call fails. -/
def failedRun : List Label :=
  [.call (-1) eagain, .arm 0 0, .register true 0, .yield, .eventCall (.cancelEvent 6 .read) true,
    .resume, .cancelTimer, .check, .call (-1) etimedout]

theorem timed_out_in_time_failedRun :
    ∃ r, (reading.system.recording results).Reachable (fun _ a => epollErrno a) r ∧
      r.1.pc = .done (-1) etimedout ∧ r.1.wait = 1 ∧
      (r.2.getLast? = some (-1, etimedout) ∨
        (r.1.wait ∈ r.1.emitted ∧ r.1.eagainAt + reading.timeout ≤ r.1.clock)) := by
  obtain ⟨p', hloops⟩ := reading_loops
  obtain ⟨r, hr, hp⟩ := Reachable.of_replay (T := reading.system.recording results)
    (G := fun _ a => epollErrno a) (g := fun _ a => decide (epollErrno a))
    (fun _ _ => of_decide_eq_true) (l := failedRun)
    (p := fun r => r.1.pc == .done (-1) etimedout && r.1.wait == 1)
    (s := (beforeCall, [])) ⟨beforeCall_initial, rfl⟩ (by decide)
  simp only [Bool.and_eq_true, beq_iff_eq] at hp
  exact ⟨r, hr, hp.1, hp.2, (timed_out_in_time hloops hr).1 hp.1⟩

end DoIo
