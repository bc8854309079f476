-- SUMMARY: The timers that a waiting call makes: each is dead and out of the set once the call has cancelled it, whatever others do.
import MyCoroutine.Hook.WakeUp
import MyCoroutine.Timer.Order

/-! # The timers of a call

A call arms one timer in each wait and cancels it before it goes on. From then on
the timer has no callback, and a timer without a callback is not in the set: neither
its handle, which others may still have, nor `listExpiredCb` brings it back. -/

namespace TimerManager

variable {κ : Type} {m m' : TimerManager κ} {a : Nat} {t : Timer κ} {now : Int}

/-- A call on a timer without a callback changes nothing. -/
theorem Ordered.perform_dead (h : Ordered m) {call : Call κ} (ht : m.timer call.address = some t)
    (hcb : t.cb = none) (hadd : ∀ a ms cb recurring, call ≠ .addTimer a ms cb recurring)
    (hop : m.perform call now = some m') : m' = m := by
  cases call with
  | addTimer a ms cb recurring => exact absurd rfl (hadd a ms cb recurring)
  | cancel a =>
    obtain ⟨r, hcancel, rfl⟩ := Option.map_eq_some_iff.mp hop
    rcases h.cancel ht with ⟨-, heq⟩ | ⟨hlive, -⟩
    · cases heq.symm.trans hcancel
      rfl
    · exact absurd hcb hlive
  | refresh a =>
    obtain ⟨r, hrefresh, rfl⟩ := Option.map_eq_some_iff.mp hop
    rcases h.refresh ht now with ⟨-, heq⟩ | ⟨hlive, -⟩
    · cases heq.symm.trans hrefresh
      rfl
    · exact absurd hcb hlive
  | reset a ms fromNow =>
    obtain ⟨r, hreset, rfl⟩ := Option.map_eq_some_iff.mp hop
    rcases h.reset ht now ms fromNow with ⟨-, heq⟩ | ⟨-, -, heq⟩ | ⟨-, hlive, -⟩
    · cases heq.symm.trans hreset
      rfl
    · cases heq.symm.trans hreset
      rfl
    · exact absurd hcb hlive

end TimerManager

namespace DoIo

variable {c : Config} {q q' : State} {a : Label} {b : Nat}

/-! ## Steps of which `Config.Step` keeps less -/

theorem Config.call_cases {n errno : Int} (h : c.step q (.call n errno) = some q') :
    q.pc = .call ∧ c.callReturned q n errno = q' := by
  unfold Config.step at h
  split at h
  case h_1 m e hlabel hpc =>
    cases hlabel
    exact ⟨hpc, Option.some.inj h⟩
  all_goals contradiction

theorem Config.arm_cases {now : Int} (h : c.step q (.arm b now) = some q') :
    c.armTimer q b now = some q' := by
  unfold Config.step at h
  split at h
  case h_2 d t hlabel hpc =>
    cases hlabel
    exact h
  all_goals contradiction

theorem Config.check_cases (h : c.step q .check = some q') : c.checkCancelled q = q' := by
  unfold Config.step at h
  split at h
  case h_8 hlabel hpc => exact Option.some.inj h
  all_goals contradiction

theorem Config.soError_cases {error : Option Int} {errno : Int}
    (h : c.step q (.soError error errno) = some q') :
    Config.soErrorReturned q error errno = q' := by
  unfold Config.step at h
  split at h
  case h_9 e n hlabel hpc =>
    cases hlabel
    exact Option.some.inj h
  all_goals contradiction

theorem Config.callback_cases {i : Nat} {granted : Bool}
    (h : c.step q (.callback i granted) = some q') : c.runCallback q i granted = some q' := by
  unfold Config.step at h
  split at h
  case h_11 j g hlabel =>
    cases hlabel
    exact h
  case h_15 => exact h
  all_goals contradiction

theorem Config.cancelTimer_eq {t : State} (h : Config.cancelTimer q = some t) :
    ∃ timers, t = { q with timers := timers } := by
  unfold Config.cancelTimer at h
  split at h
  · cases h
    exact ⟨_, rfl⟩
  · obtain ⟨r, -, rfl⟩ := Option.map_eq_some_iff.mp h
    exact ⟨_, rfl⟩

/-! ## The manager -/

theorem armTimer_timers {now : Int} (h : c.armTimer q b now = some q') :
    q'.timers = q.timers ∨ ∃ call, q.timers.perform call now = some q'.timers := by
  unfold Config.armTimer at h
  split at h
  · cases h
    exact .inl rfl
  · split at h
    · obtain ⟨r, hr, rfl⟩ := Option.map_eq_some_iff.mp h
      refine .inr ⟨.addTimer b c.timeout (some (.timeout q.wait)) false, ?_⟩
      rw [TimerManager.perform, hr]
      rfl
    · cases h

/-- The timers change by one call on the manager, or by `listExpiredCb`. -/
theorem step_timers (h : c.step q a = some q') :
    q'.timers = q.timers ∨ (∃ call now, q.timers.perform call now = some q'.timers) ∨
      ∃ now probe, q'.timers = (q.timers.listExpiredCb now probe).2 := by
  have hcancel {t : State} (ht : Config.cancelTimer q = some t) :
      t.timers = q.timers ∨ ∃ call now, q.timers.perform call now = some t.timers := by
    unfold Config.cancelTimer at ht
    split at ht
    · cases ht
      exact .inl rfl
    · rename_i d hd
      obtain ⟨r, hr, rfl⟩ := Option.map_eq_some_iff.mp ht
      exact .inr ⟨.cancel d, 0, by rw [TimerManager.perform, hr]; rfl⟩
  have hcases : c.Step q a q' := Config.step_cases h
  cases hcases with
  | armed b now timers hpc =>
    exact (armTimer_timers (Config.arm_cases h)).imp_right
      fun ⟨call, hcall⟩ => .inl ⟨call, now, hcall⟩
  | cancelTimer t hpc ht => exact (hcancel ht).imp_right .inl
  | giveUp errno t hpc ht =>
    unfold Config.afterFailed
    split <;> exact (hcancel ht).imp_right .inl
  | expire now probe => exact .inr (.inr ⟨now, probe, rfl⟩)
  | timerCall call now timers hforeign ht => exact .inr (.inl ⟨call, now, ht⟩)
  | _ => exact .inl rfl

theorem ordered_step (h : q.timers.Ordered) (hstep : c.step q a = some q') :
    q'.timers.Ordered := by
  rcases step_timers hstep with heq | ⟨call, now, hcall⟩ | ⟨now, probe, heq⟩
  · rwa [heq]
  · exact h.perform hcall
  · rw [heq]
    exact h.of_collects (h.listExpiredCb now probe)

/-! ## A timer that the call has made -/

/-- Between the arming of the timer and its `cancel`. -/
def Pc.armed : Pc → Bool
  | .register | .registered | .parked | .woken | .failed _ => true
  | .call | .arm | .check | .soError | .done _ _ => false

/-- The call counts on the timer at `b`: it is `timer`, and has not been cancelled. -/
def Counts (q : State) (b : Nat) : Prop :=
  q.timer = some b ∧ q.pc.armed = true

/-- The timer at `b` is one-shot and out of the set once it has no callback, and it has one
only while the call counts on it. -/
def Kept (q : State) (b : Nat) : Prop :=
  ∃ t, q.timers.timer b = some t ∧ t.recurring = false ∧
    (t.cb = none → b ∉ q.timers.timers) ∧ (¬ Counts q b → t.cb = none)

theorem Kept.of_same (h : Kept q b) (htimers : q'.timers = q.timers)
    (hcounts : Counts q b → Counts q' b) : Kept q' b := by
  obtain ⟨t, ht, honce, hout, hover⟩ := h
  unfold Kept
  rw [htimers]
  exact ⟨t, ht, honce, hout, fun hn => hover fun hc => hn (hcounts hc)⟩

/-- The timers change, and the timer at `b` does not. -/
theorem Kept.of_others (h : Kept q b) (htimer : q'.timers.timer b = q.timers.timer b)
    (hmem : b ∈ q'.timers.timers → b ∈ q.timers.timers) (hcounts : Counts q b → Counts q' b) :
    Kept q' b := by
  obtain ⟨t, ht, honce, hout, hover⟩ := h
  exact ⟨t, htimer.trans ht, honce, fun hcb hin => hout hcb (hmem hin),
    fun hn => hover fun hc => hn (hcounts hc)⟩

/-- Once the call does not count on it, the timer is out of the set. -/
theorem Kept.not_mem (h : Kept q b) (hn : ¬ Counts q b) : b ∉ q.timers.timers := by
  obtain ⟨t, -, -, hout, hover⟩ := h
  exact hout (hover hn)

/-- `timer->cancel()` takes the callback of `timer`, and the timer out of the set. -/
theorem Kept.cancelTimer (hordered : q.timers.Ordered) (h : Kept q b) {t : State}
    (ht : Config.cancelTimer q = some t) (pc : Pc) : Kept { t with pc := pc } b := by
  unfold Config.cancelTimer at ht
  split at ht
  · rename_i hnone
    cases ht
    exact h.of_same rfl fun hc => absurd (hnone.symm.trans hc.1) nofun
  · rename_i d hd
    obtain ⟨⟨ok, m⟩, hcancel, rfl⟩ := Option.map_eq_some_iff.mp ht
    obtain ⟨u, hu, -⟩ := Option.bind_eq_some_iff.mp hcancel
    rcases eq_or_ne b d with rfl | hbd
    · obtain ⟨v, hv, honce, hout, -⟩ := h
      cases hv.symm.trans hu
      rcases hordered.cancel hu with ⟨hcb, heq⟩ | ⟨-, m', heq, hdrops⟩
      · cases heq.symm.trans hcancel
        exact ⟨u, hu, honce, hout, fun _ => hcb⟩
      · cases heq.symm.trans hcancel
        refine ⟨_, (hdrops.timer b).trans (if_pos rfl), honce, fun _ hin => ?_, fun _ => rfl⟩
        exact ((hdrops.mem b).mp hin).1 rfl
    · have honly := TimerManager.cancel_onlyAt hcancel
      exact h.of_others (honly.timer b hbd) (honly.subset b)
        fun hc => absurd (Option.some.inj (hc.1.symm.trans hd)) hbd

theorem Kept.expire (hordered : q.timers.Ordered) (h : Kept q b) (now : Int) (probe : Nat) :
    Kept (Config.expire q now probe) b := by
  have hcollects := hordered.listExpiredCb now probe
  obtain ⟨t, ht, honce, hout, hover⟩ := h
  have htimer := hcollects.timer b
  have hmem := hcollects.mem b
  rw [ht] at htimer hmem
  by_cases hb : b ∈ q.timers.expired now probe
  · rw [if_pos hb] at htimer
    refine ⟨_, htimer, ?_, ?_, ?_⟩
    · simp [Timer.rang, honce]
    · intro _ hin
      rcases hmem.mp hin with ⟨-, hleft⟩ | ⟨-, hrecurring⟩
      · exact hleft hb
      · simp [honce] at hrecurring
    · simp [Timer.rang, honce]
  · rw [if_neg hb] at htimer
    refine ⟨t, htimer, honce, fun hcb hin => ?_, hover⟩
    rcases hmem.mp hin with ⟨hin, -⟩ | ⟨htaken, -⟩
    · exact hout hcb hin
    · exact hb htaken

/-- Others add timers of their own; on a timer of the call they can only make a call once it
is dead. -/
theorem Kept.timerCall (hordered : q.timers.Ordered) (h : Kept q b)
    {call : TimerManager.Call Callback} {now : Int} {timers : TimerManager Callback}
    (hforeign : Config.foreignTimer q call = true)
    (ht : q.timers.perform call now = some timers) : Kept { q with timers := timers } b := by
  obtain ⟨t, htb, -, -, hover⟩ := id h
  rcases TimerManager.perform_cases ht with ⟨d, ms, cb, recurring, -, hadds⟩ | ⟨hadd, honly⟩
  · have hne : b ≠ d := by
      rintro rfl
      rw [hadds.fresh] at htb
      cases htb
    exact h.of_others ((hadds.timer b).trans (if_neg hne))
      (fun hin => ((hadds.mem b).mp hin).resolve_left hne) id
  · rcases eq_or_ne b call.address with rfl | hne
    · have hdead : t.cb = none := hover fun hc => foreignTimer_address hadd hforeign hc.1
      obtain rfl := hordered.perform_dead htb hdead hadd ht
      exact h
    · exact h.of_others (honly.timer b hne) (honly.subset b) id

/-- The timer of a new wait is the one that it arms. -/
theorem Kept.armed {now : Int} {timers : TimerManager Callback}
    (hadd : TimerManager.Adds b ⟨false, c.timeout, now + c.timeout, some (.timeout q.wait)⟩
      q.timers timers) :
    Kept { q with pc := .register, timers := timers, timer := some b } b := by
  refine ⟨_, (hadd.timer b).trans (if_pos rfl), rfl, fun hnone => ?_, fun hn => ?_⟩
  · cases hnone
  · exact absurd ⟨rfl, rfl⟩ hn

theorem Kept.step (hordered : q.timers.Ordered) (h : Kept q b) (hstep : c.Step q a q') :
    Kept q' b := by
  cases hstep with
  | armed d now timers hpc hfrom hadd =>
    obtain ⟨t, htb, -⟩ := id h
    have hne : b ≠ d := by
      rintro rfl
      rw [hadd.fresh] at htb
      cases htb
    refine h.of_others ((hadd.timer b).trans (if_neg hne))
      (fun hin => ((hadd.mem b).mp hin).resolve_left hne) fun hc => ?_
    rw [Counts, hpc] at hc
    cases hc.2
  | cancelTimer t hpc ht => exact h.cancelTimer hordered ht .check
  | giveUp errno t hpc ht =>
    unfold Config.afterFailed
    split <;> exact h.cancelTimer hordered ht _
  | expire now probe => exact h.expire hordered now probe
  | timerCall call now timers hforeign ht => exact h.timerCall hordered hforeign ht
  | wait n errno hpc | returned n errno hpc | timedOut hpc | retry hpc | connected hpc
  | soError error errno ret errno' hpc | skipTimer d now hpc =>
    refine h.of_same rfl fun hc => ?_
    rw [Counts, hpc] at hc
    cases hc.2
  | registered granted errno out io hpc | refused granted errno out io hpc | yield hpc
  | resume hpc => exact h.of_same rfl fun hc => ⟨hc.1, rfl⟩
  | _ => exact h.of_same rfl id

/-- `timer` is as it was, or has just been armed. -/
theorem timer_step (hstep : c.Step q a q') (hb : q'.timer = some b) :
    q.timer = some b ∨ (Kept q' b ∧ ∃ d now, a = .arm d now) := by
  cases hstep with
  | armed d now timers hpc hfrom hadd =>
    obtain rfl := Option.some.inj hb
    exact .inr ⟨.armed hadd, d, now, rfl⟩
  | wait => cases hb
  | cancelTimer t hpc ht =>
    obtain ⟨timers, rfl⟩ := Config.cancelTimer_eq ht
    exact .inl hb
  | giveUp errno t hpc ht =>
    obtain ⟨timers, rfl⟩ := Config.cancelTimer_eq ht
    unfold Config.afterFailed at hb
    split at hb <;> exact .inl hb
  | _ => exact .inl hb

end DoIo
