-- SUMMARY: What do_io returns, for every script of results, registrations and wake-ups: one final result, a timeout or a failed registration, and no timer is left.
import MyCoroutine.Hook.CallTimer
import MyCoroutine.Hook.Calls

/-! # Retrying the underlying call

The system is one call of `do_io`, with all that goes on around it, beside a record of
what the call has met. Its two loops retry the underlying call after `EINTR` and after
a wait. A script may also answer `addEvent` against the event table, and push the fiber
when nobody else would. -/

namespace Retrying

open DoIo (Config Kept)

/-! ## Data -/

/-- What the call has met so far. -/
structure Story where
  /-- What the underlying calls returned, with `errno`. -/
  results : List (Int × Int)
  /-- The addresses of the timers that the call has made. -/
  armed : List Nat
  /-- The `errno` that a failed `addEvent` left. -/
  refused : Option Int
  deriving DecidableEq

structure State where
  call : DoIo.State
  story : Story

inductive Label where
  /-- A step of the call, of a worker, or of somebody else. -/
  | step (a : DoIo.Label)
  /-- `addEvent` answers as the script says, whatever the event table holds. -/
  | addEvent (ok : Bool) (errno : Int)
  /-- The script pushes the fiber. -/
  | trigger

/-! ## The system -/

def refusal : DoIo.Pc → Option Int
  | .failed errno => some errno
  | _ => none

/-- What the call meets in a step that leads to `q'`. -/
def Story.after (story : Story) (q' : DoIo.State) : DoIo.Label → Story
  | .call n errno => { story with results := story.results ++ [(n, errno)] }
  | .arm _ _ => { story with armed := story.armed ++ q'.timer.toList }
  | .register _ _ => { story with refused := refusal q'.pc }
  | _ => story

def State.next (s : State) (a : DoIo.Label) (q' : DoIo.State) : State where
  call := q'
  story := s.story.after q' a

/-- `addEvent` has answered. -/
def answered (q : DoIo.State) (ok : Bool) (errno : Int) : DoIo.State :=
  { q with pc := if ok then .registered else .failed errno }

section

variable (c : Config) (s : State)

def step : Label → Option State
  | .step a => (c.step s.call a).map (s.next a)
  | .addEvent ok errno =>
    if s.call.pc = .register then
      some (s.next (.register ok errno) (answered s.call ok errno))
    else none
  | .trigger => some { s with call := { s.call with queued := s.call.queued + 1 } }

/-- The call is about to make the underlying call for the first time. -/
structure Initial : Prop where
  kind : c.kind = .doIo
  call : Config.Initial s.call
  ordered : s.call.timers.Ordered
  story : s.story = ⟨[], [], none⟩

def system : TransitionSystem State Label where
  init := Initial c
  step := step c

end

/-! ## The property -/

/-- A result that the loops do not retry. -/
def Final (o : Int × Int) : Prop :=
  ¬ (o.1 = -1 ∧ (o.2 = DoIo.eintr ∨ o.2 = DoIo.eagain))

/-- Every underlying call so far met `EINTR` or `EAGAIN`. -/
def State.Retried (s : State) : Prop :=
  ∀ o ∈ s.story.results, ¬ Final o

/-- `errno` says that a wait has timed out, and one has; or a failed `addEvent` left it. -/
def State.Excused (s : State) (errno : Int) : Prop :=
  (errno = DoIo.etimedout ∧ s.call.emitted ≠ []) ∨ s.story.refused = some errno

/-- A final result is the last, and is what the call returns; without one the call returns
-1 because of a timeout or of `addEvent`; and when it has returned, no timer that it made is
in `m_timers`. -/
structure Accounted (s : State) : Prop where
  once : ∀ pre o post, s.story.results = pre ++ o :: post → Final o →
    post = [] ∧ s.call.pc = .done o.1 o.2
  returned : ∀ ret errno, s.call.pc = .done ret errno →
    (s.story.results.getLast? = some (ret, errno) ∧ Final (ret, errno)) ∨
      (s.Retried ∧ ret = -1 ∧ s.Excused errno)
  hidden : ∀ errno, s.call.pc = .done (-1) errno → errno = DoIo.eintr ∨ errno = DoIo.eagain →
    s.story.refused = some errno
  timers : s.call.pc.isDone = true → ∀ b ∈ s.story.armed, b ∉ s.call.timers.timers

/-! ## The way to the loops -/

/-- On a socket whose user did not ask for non-blocking mode, `do_io` comes to its loops,
with the timeout of the `FdCtx` and before any underlying call. -/
theorem doIo_loops {e : Hook.Env} {p p' : Hook.Process} {fd : Int} {id : CtxId} {ctx : FdCtx}
    (he : e.hookEnable = true) (hget : p.get fd false = some (some id, p'))
    (hctx : p'.ctx id = some ctx) (hopen : ctx.isClosed = false)
    (hsocket : ctx.isSocket = true) (huser : ctx.userNoBlock = false) (fn : Hook.Call)
    (event : IOManager.Event) (timeoutSo : Int) :
    Hook.doIo e fd fn event timeoutSo p =
      some (.loops .doIo event (ctx.getTimeout timeoutSo), p') := by
  simp only [Hook.doIo, he, hget, hctx, hopen, hsocket, huser, Bool.true_eq_false,
    Bool.false_eq_true, if_false, or_self, Option.bind_eq_bind, Option.bind_some, Option.pure_def]

/-! ## Timeouts -/

section

variable {c : Config} {q q' : DoIo.State} {a : DoIo.Label}

/-- `cancelled` is set only when a timer of the call has expired. -/
structure Blamed (q : DoIo.State) : Prop where
  flights : ∀ f ∈ q.flights, f.wait ∈ q.emitted
  cancelled : q.cancelled = 0 ∨ (q.cancelled = DoIo.etimedout ∧ q.emitted ≠ [])

theorem Blamed.set (h : Blamed q) {i : Nat} {f : DoIo.Flight} (hf : q.flights[i]? = some f)
    (stage : DoIo.Stage) : ∀ g ∈ q.flights.set i ⟨f.wait, stage⟩, g.wait ∈ q.emitted := by
  intro g hg
  rcases List.mem_or_eq_of_mem_set hg with hg | rfl
  · exact h.flights g hg
  · exact h.flights f (List.mem_of_getElem? hf)

theorem Blamed.erase (h : Blamed q) (i : Nat) :
    ∀ g ∈ q.flights.eraseIdx i, g.wait ∈ q.emitted :=
  fun g hg => h.flights g (List.mem_of_mem_eraseIdx hg)

theorem Blamed.expire (h : Blamed q) (now : Int) (probe : Nat) :
    Blamed (Config.expire q now probe) := by
  constructor
  · intro f hf
    rcases List.mem_append.mp hf with hf | hf
    · exact List.mem_append_left _ (h.flights f hf)
    · obtain ⟨w, hw, rfl⟩ := List.mem_map.mp hf
      exact List.mem_append_right _ hw
  · exact h.cancelled.imp_right fun hset => ⟨hset.1, List.append_ne_nil_of_left_ne_nil hset.2 _⟩

theorem Blamed.step (h : Blamed q) (hstep : c.Step q a q') : Blamed q' := by
  cases hstep with
  | cancelTimer t hpc ht =>
    obtain ⟨timers, rfl⟩ := Config.cancelTimer_eq ht
    exact ⟨h.flights, h.cancelled⟩
  | giveUp errno t hpc ht =>
    obtain ⟨timers, rfl⟩ := Config.cancelTimer_eq ht
    unfold Config.afterFailed
    split <;> exact ⟨h.flights, h.cancelled⟩
  | expire now probe => exact h.expire now probe
  | callbackGoesOn i granted f stage hf => exact ⟨h.set hf stage, h.cancelled⟩
  | callbackEnds i granted f hf => exact ⟨h.erase i, h.cancelled⟩
  | callbackStores i granted f hf =>
    -- the timer of the callback that stores has expired
    have hexpired := h.flights f (List.mem_of_getElem? hf)
    exact ⟨h.set hf .cancel, .inr ⟨rfl, List.ne_nil_of_mem hexpired⟩⟩
  | callbackCancels i granted f out io hf => exact ⟨h.erase i, h.cancelled⟩
  | _ => exact ⟨h.flights, h.cancelled⟩

theorem emitted_step (hstep : c.Step q a q') (hexpired : q.emitted ≠ []) : q'.emitted ≠ [] := by
  cases hstep with
  | cancelTimer t hpc ht =>
    obtain ⟨timers, rfl⟩ := Config.cancelTimer_eq ht
    exact hexpired
  | giveUp errno t hpc ht =>
    obtain ⟨timers, rfl⟩ := Config.cancelTimer_eq ht
    unfold Config.afterFailed
    split <;> exact hexpired
  | expire now probe => exact List.append_ne_nil_of_left_ne_nil hexpired _
  | _ => exact hexpired

end

/-! ## The invariant -/

/-- The results met when the call ends with `ret` and `errno`. -/
def State.Ended (s : State) (ret errno : Int) : Prop :=
  (∃ pre, s.story.results = pre ++ [(ret, errno)] ∧ (∀ o ∈ pre, ¬ Final o) ∧ Final (ret, errno)) ∨
    (s.Retried ∧ ret = -1 ∧ s.Excused errno)

/-- What the fiber has met when it stands at `pc`. -/
def State.Met (s : State) : DoIo.Pc → Prop
  | .call | .arm | .register | .registered | .parked | .woken | .check => s.Retried
  | .failed errno => s.Retried ∧ s.story.refused = some errno
  | .soError => False
  | .done ret errno => s.Ended ret errno

/-- Of the timers that the call has made, each is out of the set unless the call counts on it. -/
structure TimersKept (s : State) : Prop where
  ordered : s.call.timers.Ordered
  armed : ∀ b ∈ s.story.armed, Kept s.call b
  timer : ∀ b, s.call.timer = some b → b ∈ s.story.armed

structure Sound (s : State) : Prop where
  timers : TimersKept s
  blamed : Blamed s.call
  met : s.Met s.call.pc

variable {c : Config} {s s' : State} {q' : DoIo.State} {a : DoIo.Label}

theorem State.Met.mono {pc : DoIo.Pc} (h : s.Met pc) (hstory : s'.story = s.story)
    (hemitted : s.call.emitted ≠ [] → s'.call.emitted ≠ []) : s'.Met pc := by
  have hexcused {errno : Int} (hwhy : s.Excused errno) : s'.Excused errno := by
    unfold State.Excused at hwhy ⊢
    rw [hstory]
    exact hwhy.imp_left fun htimeout => ⟨htimeout.1, hemitted htimeout.2⟩
  cases pc with
  | call | arm | register | registered | parked | woken | check | failed =>
    simpa only [State.Met, State.Retried, hstory] using h
  | soError => exact h
  | done ret errno =>
    rcases h with hfinal | ⟨hretried, hret, hwhy⟩
    · exact .inl (hstory ▸ hfinal)
    · refine .inr ⟨?_, hret, hexcused hwhy⟩
      rwa [State.Retried, hstory]

theorem State.Retried.next (h : s.Retried) {n errno : Int} (ho : ¬ Final (n, errno)) :
    (s.next (.call n errno) q').Retried := by
  intro o hmem
  rcases List.mem_append.mp hmem with hmem | hmem
  · exact h o hmem
  · rwa [List.mem_singleton.mp hmem]

/-! ## The timers -/

theorem Story.mem_armed_after (story : Story) (b : Nat) :
    b ∈ (story.after q' a).armed ↔
      b ∈ story.armed ∨ ((∃ d now, a = .arm d now) ∧ q'.timer = some b) := by
  cases a <;> simp [Story.after]

theorem TimersKept.next (h : TimersKept s) (hstep : c.step s.call a = some q') :
    TimersKept (s.next a q') := by
  have hcases : c.Step s.call a q' := Config.step_cases hstep
  constructor
  · exact DoIo.ordered_step h.ordered hstep
  · intro b hb
    rcases (s.story.mem_armed_after b).mp hb with hold | ⟨-, htimer⟩
    · exact (h.armed b hold).step h.ordered hcases
    · rcases DoIo.timer_step hcases htimer with hold | ⟨hnew, -⟩
      · exact (h.armed b (h.timer b hold)).step h.ordered hcases
      · exact hnew
  · intro b hb
    rcases DoIo.timer_step hcases hb with hold | ⟨-, harm⟩
    · exact (s.story.mem_armed_after b).mpr (.inl (h.timer b hold))
    · exact (s.story.mem_armed_after b).mpr (.inr ⟨harm, hb⟩)

/-- Where the timers stay as they are, it is enough that the call goes on counting on its
timer. -/
theorem TimersKept.of_same (h : TimersKept s) (htimers : s'.call.timers = s.call.timers)
    (htimer : s'.call.timer = s.call.timer) (harmed : s'.story.armed = s.story.armed)
    (hpc : s.call.pc.armed = true → s'.call.pc.armed = true) : TimersKept s' where
  ordered := htimers ▸ h.ordered
  armed b hb := by
    rw [harmed] at hb
    exact (h.armed b hb).of_same htimers fun hc => ⟨htimer.trans hc.1, hpc hc.2⟩
  timer b hb := by
    rw [htimer] at hb
    rw [harmed]
    exact h.timer b hb

/-! ## Every step -/

/-- The loops retry `EINTR` and `EAGAIN`, and the call returns everything else. -/
theorem Sound.met_call (h : Sound s) (hkind : c.kind = .doIo) {n errno : Int}
    (hstep : c.step s.call (.call n errno) = some q') :
    (s.next (.call n errno) q').Met q'.pc := by
  obtain ⟨hpc, rfl⟩ := Config.call_cases hstep
  have hretried : s.Retried := by
    have hmet := h.met
    rw [hpc] at hmet
    exact hmet
  simp only [Config.callReturned, hkind]
  split
  · rename_i heintr
    rw [hpc]
    exact hretried.next fun hfinal => hfinal ⟨heintr.1, .inl heintr.2⟩
  · rename_i heintr
    split
    · rename_i heagain
      exact hretried.next fun hfinal => hfinal ⟨heagain.1, .inr heagain.2⟩
    · rename_i heagain
      refine .inl ⟨s.story.results, rfl, hretried, ?_⟩
      rintro ⟨hn, herrno | herrno⟩
      · exact heintr ⟨hn, herrno⟩
      · exact heagain ⟨hn, herrno⟩

/-- What the fiber has met follows it from one point of the call to the next. -/
theorem Sound.met_step (h : Sound s) (hkind : c.kind = .doIo)
    (hstep : c.step s.call a = some q') : (s.next a q').Met q'.pc := by
  have hcases : c.Step s.call a q' := Config.step_cases hstep
  have hemitted := emitted_step hcases
  have hmet := h.met
  cases hcases with
  | again | wait | returned => exact h.met_call hkind hstep
  | skipTimer b now hpc | armed b now timers hpc | registered granted errno out io hpc
  | yield hpc | resume hpc | retry hpc =>
    rw [hpc] at hmet
    exact hmet
  | refused granted errno out io hpc =>
    rw [hpc] at hmet
    exact ⟨hmet, rfl⟩
  | cancelTimer t hpc ht =>
    rw [hpc] at hmet
    exact hmet
  | giveUp errno t hpc ht =>
    rw [hpc] at hmet
    simp only [Config.afterFailed, hkind]
    exact .inr ⟨hmet.1, rfl, .inr hmet.2⟩
  | timedOut hpc hcancelled =>
    rw [hpc] at hmet
    exact .inr ⟨hmet, rfl, .inl (h.blamed.cancelled.resolve_left hcancelled)⟩
  | connected hpc hconnect =>
    rw [hkind] at hconnect
    cases hconnect
  | soError error errno ret errno' hpc =>
    rw [hpc] at hmet
    exact hmet.elim
  | _ => exact hmet.mono rfl hemitted

theorem Sound.step (hkind : c.kind = .doIo) (h : Sound s) {l : Label}
    (hstep : step c s l = some s') : Sound s' := by
  cases l with
  | step a =>
    simp only [Retrying.step] at hstep
    obtain ⟨q', hq, rfl⟩ := Option.map_eq_some_iff.mp hstep
    exact ⟨h.timers.next hq, h.blamed.step (Config.step_cases hq), h.met_step hkind hq⟩
  | addEvent ok errno =>
    simp only [Retrying.step] at hstep
    split at hstep
    · rename_i hpc
      cases hstep
      have hmet := h.met
      rw [hpc] at hmet
      cases ok with
      | true => exact ⟨h.timers.of_same rfl rfl rfl fun _ => rfl, ⟨h.blamed.1, h.blamed.2⟩, hmet⟩
      | false =>
        exact ⟨h.timers.of_same rfl rfl rfl fun _ => rfl, ⟨h.blamed.1, h.blamed.2⟩, hmet, rfl⟩
    · cases hstep
  | trigger =>
    simp only [Retrying.step] at hstep
    cases hstep
    exact ⟨h.timers.of_same rfl rfl rfl id, ⟨h.blamed.1, h.blamed.2⟩, h.met.mono rfl id⟩

theorem Initial.sound (h : Initial c s) : Sound s where
  timers := by
    refine ⟨h.ordered, fun b hb => ?_, fun b hb => ?_⟩
    · rw [h.story] at hb
      cases hb
    · rw [h.call.timer] at hb
      cases hb
  blamed := by
    refine ⟨fun f hf => ?_, .inl h.call.cancelled⟩
    rw [h.call.flights] at hf
    cases hf
  met := by
    rw [h.call.pc]
    intro o ho
    rw [h.story] at ho
    cases ho

/-! ## Every script -/

/-- A final result ends the call, so it is the last and the only one. -/
theorem Sound.once (h : Sound s) {pre post : List (Int × Int)} {o : Int × Int}
    (hresults : s.story.results = pre ++ o :: post) (hfinal : Final o) :
    post = [] ∧ s.call.pc = .done o.1 o.2 := by
  have hmem : o ∈ s.story.results := by simp [hresults]
  have hmet := h.met
  cases hpc : s.call.pc with
  | call | arm | register | registered | parked | woken | check =>
    rw [hpc] at hmet
    exact absurd hfinal (hmet o hmem)
  | failed =>
    rw [hpc] at hmet
    exact absurd hfinal (hmet.1 o hmem)
  | soError =>
    rw [hpc] at hmet
    exact hmet.elim
  | done ret errno =>
    rw [hpc] at hmet
    rcases hmet with ⟨before, hlast, hretried, -⟩ | ⟨hretried, -⟩
    · rw [hresults] at hlast
      rcases List.eq_nil_or_concat post with rfl | ⟨l, x, rfl⟩
      · obtain ⟨-, heq⟩ := List.append_inj' hlast rfl
        cases heq
        exact ⟨rfl, rfl⟩
      · -- a final result before the last one would have been retried
        rw [List.concat_eq_append, ← List.cons_append, ← List.append_assoc] at hlast
        obtain ⟨hbefore, -⟩ := List.append_inj' hlast rfl
        exact absurd hfinal (hretried o (by simp [← hbefore]))
    · exact absurd hfinal (hretried o hmem)

theorem Sound.accounted (h : Sound s) : Accounted s := by
  have hended {ret errno : Int} (hpc : s.call.pc = .done ret errno) : s.Ended ret errno := by
    have hmet := h.met
    rw [hpc] at hmet
    exact hmet
  constructor
  · exact fun _ _ _ hresults hfinal => h.once hresults hfinal
  · intro ret errno hpc
    rcases hended hpc with ⟨pre, hlast, -, hfinal⟩ | hexcused
    · exact .inl ⟨by rw [hlast, List.getLast?_concat], hfinal⟩
    · exact .inr hexcused
  · intro errno hpc herrno
    rcases hended hpc with ⟨-, -, -, hfinal⟩ | ⟨-, -, ⟨rfl, -⟩ | hrefused⟩
    · exact absurd ⟨rfl, herrno⟩ hfinal
    · exact absurd herrno (by decide)
    · exact hrefused
  · intro hdone b hb
    refine (h.timers.armed b hb).not_mem fun hc => ?_
    have harmed := hc.2
    cases hpc : s.call.pc with
    | done => rw [hpc] at harmed; cases harmed
    | _ => rw [hpc] at hdone; cases hdone

/-- In every run, the call accounts for the results that it has met and for the timers
that it has made. -/
theorem accounted_of_reachable (h : (system c).Reachable TransitionSystem.free s) :
    Accounted s := by
  have hinvariant : c.kind = .doIo ∧ Sound s := by
    refine TransitionSystem.Preserved.reachable (I := fun s => c.kind = .doIo ∧ Sound s) ?_ ?_ h
    · exact fun _ _ _ hs _ hstep => ⟨hs.1, hs.2.step hs.1 hstep⟩
    · exact fun _ hs => ⟨hs.kind, hs.sound⟩
  exact hinvariant.2.accounted

def beforeTransfer : State where
  call := DoIo.beforeCall
  story := ⟨[], [], none⟩

theorem beforeTransfer_initial : Initial DoIo.reading beforeTransfer where
  kind := rfl
  call := DoIo.beforeCall_initial
  ordered := TimerManager.init_ordered 0
  story := rfl

/-- The call is interrupted, waits once, is pushed and reads five bytes. -/
def retriedRun : List Label :=
  [.step (.call (-1) DoIo.eintr), .step (.call (-1) DoIo.eagain), .step (.arm 0 0),
    .addEvent true 0, .step .yield, .trigger, .step .resume, .step .cancelTimer, .step .check,
    .step (.call (-1) DoIo.eintr), .step (.call 5 0)]

theorem accounted_of_reachable_retriedRun :
    ∃ s, (system DoIo.reading).Reachable TransitionSystem.free s ∧ s.call.pc = .done 5 0 ∧
      s.story.results.length = 4 ∧ Accounted s := by
  obtain ⟨s, hs, hp⟩ := TransitionSystem.Reachable.of_replay (T := system DoIo.reading)
    (G := TransitionSystem.free) (g := fun _ _ => true) (fun _ _ _ => trivial) (l := retriedRun)
    (p := fun s => s.call.pc == .done 5 0 && s.story.results.length == 4)
    beforeTransfer_initial (by decide)
  simp only [Bool.and_eq_true, beq_iff_eq] at hp
  exact ⟨s, hs, hp.1, hp.2, accounted_of_reachable hs⟩

end Retrying
