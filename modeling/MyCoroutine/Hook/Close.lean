-- SUMMARY: close of a descriptor that a fiber waits on, step by step beside the wait, and when the wait fails and leaves nothing behind.
import MyCoroutine.Hook.Calls
import MyCoroutine.Hook.WakeUp

/-! # Closing a descriptor that a fiber waits on

The system is one call of `do_io` on a descriptor, one hooked `close` of it by
another fiber, and the `socket` or `accept` that is given its number again. The call
is the system of `DoIo`, with all that goes on around it. `close` takes its steps one
at a time: the lookup, `cancalAll`, `FdManager::del` and `close_f`. `cancalAll` makes
the fiber go back to the underlying call, and nothing there asks whether the
descriptor is still the one it was. -/

namespace Closing

open DoIo (Config)
open IOManager (Encodes Represents Registry slots)

/-! ## Data -/

/-- What the number `fd` names. -/
inductive Descriptor where
  /-- What it named when the call began. -/
  | original
  | closed
  /-- What was opened under the number since. -/
  | reopened
  deriving DecidableEq

/-- The next thing `close` does. -/
inductive Pc where
  | get
  | cancalAll
  | del
  | closeF
  | returned
  deriving DecidableEq

structure State where
  call : DoIo.State
  fdm : FdManager
  pc : Pc
  descriptor : Descriptor
  /-- `cancalAll` pushed the fiber while its call had not returned. -/
  struck : Bool
  /-- What `fd` named at each underlying call from then on. -/
  met : List Descriptor

inductive Label where
  /-- A step of the call, of a worker, or of somebody else. -/
  | step (a : DoIo.Label)
  /-- Somebody calls the `FdManager`. -/
  | fdMgr (call : FdManager.Call)
  /-- The next step of `close`. -/
  | close
  /-- `socket_f` or `accept_f` of another fiber returns `fd`. -/
  | reopen

/-! ## The system -/

/-- A lookup of `fd` finds an `FdCtx`. -/
structure Listed (fd : Nat) (m : FdManager) : Prop where
  sized : m.Sized
  bounds : m.outOfBounds = false
  lt : fd < m.datas.length

section

variable (c : Config) (s : State)

/-- A number that names nothing gets `EBADF` from the kernel. -/
def answers : DoIo.Label → Bool
  | .call n errno => n = -1 ∧ errno = Hook.ebadf
  | .register granted _ | .callback _ granted => !granted
  | .eventCall call granted => call.fd ≠ c.fd ∨ granted = false
  | _ => true

/-- What `fd` names at the underlying call, if the fiber has been struck. -/
def meets : DoIo.Label → List Descriptor
  | .call _ _ => if s.struck then [s.descriptor] else []
  | _ => []

def callStep (a : DoIo.Label) : Option State :=
  if s.descriptor = .closed ∧ answers c a = false then none
  else (c.step s.call a).map fun call => { s with call := call, met := s.met ++ meets s a }

/-- `close`, on a thread with hooks of the same `IOManager`. The kernel grants the
`EPOLL_CTL_DEL` of a descriptor that it watches, and it forgets one that is closed. -/
def closeStep : Option State :=
  match s.pc with
  | .get =>
    let r := s.fdm.get c.fd false none
    some { s with fdm := r.2, pc := if r.1.isSome then .cancalAll else .closeF }
  | .cancalAll =>
    (s.call.io.perform (.cancalAll c.fd) true).map fun r =>
      { s with
        call := { s.call with io := r.2, queued := s.call.queued + c.wakes r.1.triggers }
        struck := 0 < c.wakes r.1.triggers ∧ s.call.pc.isDone = false
        pc := .del }
  | .del => some { s with fdm := s.fdm.del c.fd, pc := .closeF }
  | .closeF =>
    let interest := Function.update s.call.io.interest c.fd none
    some { s with
      call := { s.call with io := { s.call.io with interest := interest } }
      descriptor := .closed
      pc := .returned }
  | .returned => none

def step : Label → Option State
  | .step a => callStep c s a
  | .fdMgr call =>
    let r := s.fdm.call call
    if r.2.outOfBounds then none else some { s with fdm := r.2 }
  | .close => closeStep c s
  | .reopen => if s.descriptor = .closed then some { s with descriptor := .reopened } else none

/-- `do_io` has found an `FdCtx` and begins; `close` has not been called. -/
structure Initial : Prop where
  call : Config.Initial s.call
  listed : Listed c.fd s.fdm
  pc : s.pc = .get
  descriptor : s.descriptor = .original
  struck : s.struck = false
  met : s.met = []

def system : TransitionSystem State Label where
  init := Initial c
  step := step c

end

/-! ## The property -/

/-- `cancalAll` has been made, `close_f` has not. -/
def State.Between (s : State) : Prop :=
  s.pc = .del ∨ s.pc = .closeF

instance (s : State) : Decidable s.Between :=
  inferInstanceAs (Decidable (_ ∨ _))

/-- Between `cancalAll` and `close_f` the fiber registers nothing, and it makes no
underlying call if `cancalAll` woke it; the number is not given out again before its call has
returned. -/
def retryWaits (s : State) : Label → Prop
  | .step (.call _ _) => s.struck = true → ¬ s.Between
  | .step (.register _ _) => ¬ s.Between
  | .reopen => s.call.pc.isDone = true
  | _ => True

instance (s : State) : DecidablePred (retryWaits s)
  | .step (.call _ _) => inferInstanceAs (Decidable (s.struck = true → ¬ s.Between))
  | .step (.register _ _) => inferInstanceAs (Decidable (¬ s.Between))
  | .reopen => inferInstanceAs (Decidable (s.call.pc.isDone = true))
  | .step (.arm _ _) | .step .yield | .step .resume | .step .cancelTimer | .step .check
  | .step (.soError _ _) | .step (.expire _ _) | .step (.callback _ _) | .step (.tick _)
  | .step (.timerCall _ _) | .step (.eventCall _ _) | .fdMgr _ | .close => .isTrue trivial

/-- After `close`, what is counted is what is registered, and nothing of that is the
fiber's; a fiber that it woke works on no other descriptor, and its call fails. -/
structure Safe (c : Config) (s : State) : Prop where
  counted : s.pc = .returned → s.call.io.pendingEventCount =
    (slots s.call.io.fdContexts.length).countP s.call.io.registered
  released : s.pc = .returned → ∀ event r, s.call.io.holds (c.fd, event) r →
    r.continuation ≠ .fiber c.fiber
  original : Descriptor.reopened ∉ s.met
  fails : s.struck = true → ∀ ret errno, s.call.pc = .done ret errno → ret = -1

/-! ## The steps of the call -/

variable {c : Config} {s s' : State}

section

variable {q q' : DoIo.State} {a : DoIo.Label}

/-- How a call of `do_io` ends: with what the underlying call returned, or with -1. -/
theorem step_done (hkind : c.kind = .doIo) (h : c.Step q a q') (hso : q.pc ≠ .soError) :
    q'.pc ≠ .soError ∧ (q.pc.isDone = true → q'.pc = q.pc) ∧
      ∀ ret errno, q'.pc = .done ret errno →
        q.pc = .done ret errno ∨ ret = -1 ∨ (q.pc = .call ∧ a = .call ret errno) := by
  have hrunning {pc : DoIo.Pc} (hpc : q.pc = pc) (hnot : pc.isDone = false) :
      q.pc.isDone = true → q'.pc = q.pc := by
    rw [hpc, hnot]
    exact nofun
  cases h with
  | returned n errno hpc =>
    refine ⟨nofun, hrunning hpc rfl, fun ret errno' hdone => ?_⟩
    cases hdone
    exact .inr (.inr ⟨hpc, rfl⟩)
  | timedOut hpc hcancelled =>
    refine ⟨nofun, hrunning hpc rfl, fun ret errno hdone => ?_⟩
    cases hdone
    exact .inr (.inl rfl)
  | giveUp errno t hpc ht =>
    simp only [Config.afterFailed, hkind] at hrunning ⊢
    refine ⟨nofun, hrunning hpc rfl, fun ret errno hdone => ?_⟩
    cases hdone
    exact .inr (.inl rfl)
  | connected hpc hconnect =>
    rw [hkind] at hconnect
    cases hconnect
  | soError error errno ret errno' hpc => exact absurd hpc hso
  | wait n errno hpc | skipTimer b now hpc | armed b now timers hpc
  | registered granted errno out io hpc | refused granted errno out io hpc | yield hpc
  | resume hpc | cancelTimer t hpc | retry hpc =>
    exact ⟨nofun, hrunning hpc rfl, nofun⟩
  | _ => exact ⟨hso, fun _ => rfl, fun _ _ hdone => .inl hdone⟩

end

/-! ## The event table -/

/-- `cancalAll` has been made. -/
def State.Swept (s : State) : Prop :=
  s.Between ∨ s.pc = .returned

/-- The table stores `R`. The kernel follows it until `close_f`, and from `cancalAll` on
nothing that is registered for `fd` is the fiber's. -/
structure Stores (c : Config) (s : State) (R : Registry) : Prop where
  encodes : Encodes R s.call.io
  represents : s.pc ≠ .returned → Represents R s.call.io
  released : s.Swept → ∀ event r, R (c.fd, event) = some r → r.continuation ≠ .fiber c.fiber

theorem Stores.of_same {R : Registry} (h : Stores c s R) (hio : s'.call.io = s.call.io)
    (hreturned : s.pc = .returned → s'.pc = .returned) (hswept : s'.Swept → s.Swept) :
    Stores c s' R where
  encodes := hio ▸ h.encodes
  represents := fun hpc => hio ▸ h.represents (mt hreturned hpc)
  released := fun hs => h.released (hswept hs)

/-- A call on the table that does not register the fiber once `cancalAll` has been made. -/
theorem Stores.perform {R : Registry} (h : Stores c s R) {call : IOManager.Call} {granted : Bool}
    {out : IOManager.Outcome} (hproper : call.Proper)
    (hio : s.call.io.perform call granted = some (out, s'.call.io)) (hpc : s'.pc = s.pc)
    (hadd : s.Swept → ∀ slot r, ⟨slot, .add r⟩ ∈ out.added call →
      r.continuation ≠ .fiber c.fiber) : ∃ R', Stores c s' R' := by
  obtain ⟨R', hlogs⟩ := h.encodes.perform hproper hio
  refine ⟨R', hlogs.encodes, ?_, ?_⟩
  · rw [hpc]
    exact fun hreturned => (h.represents hreturned).of_logs hlogs
  · rw [State.Swept, State.Between, hpc]
    intro hswept event r hr
    rcases hlogs.before hr with hbefore | hmem
    · exact h.released hswept event r hbefore
    · exact hadd hswept _ r hmem

/-- `cancalAll` leaves nothing registered for `fd`. -/
theorem Stores.cancalAll {R : Registry} (h : Stores c s R) (hpc : s.pc = .cancalAll)
    {out : IOManager.Outcome} {io : IOManager}
    (hio : s.call.io.perform (.cancalAll c.fd) true = some (out, io))
    (hio' : s'.call.io = io) : ∃ R', Stores c s' R' := by
  have hrep : Represents R s.call.io := h.represents (by rw [hpc]; exact nofun)
  obtain ⟨⟨ok, ts, m⟩, hcancel, heq⟩ := Option.map_eq_some_iff.mp hio
  cases heq
  have hswept : ∃ R', Represents R' m ∧ R'.events c.fd = 0 := by
    rcases hrep.toEncodes.cancalAll hcancel with ⟨rfl, -, rfl⟩ | ⟨-, R', -, -, -, hchanges, hzero⟩
    · refine ⟨R, hrep, ?_⟩
      by_contra hevents
      cases hrep.cancalAll_granted hevents hcancel
    · exact ⟨R', hrep.of_changes hchanges, hzero⟩
  obtain ⟨R', hrep', hzero⟩ := hswept
  refine ⟨R', hio' ▸ hrep'.toEncodes, fun _ => hio' ▸ hrep', fun _ event r hr => ?_⟩
  obtain ⟨-, hevent⟩ := hrep'.outside c.fd event (by rw [hr]; exact nofun)
  exact absurd hzero (Registry.events_of_some hevent hr)

/-- `close_f` changes what the kernel watches, and nothing in the table. -/
theorem Stores.closeF {R : Registry} (h : Stores c s R) (hpc : s.pc = .closeF)
    {interest : Nat → Option Mask} (hio : s'.call.io = { s.call.io with interest := interest })
    (hpc' : s'.pc = .returned) : Stores c s' R where
  encodes := by
    rw [hio]
    exact ⟨h.encodes.table, h.encodes.outside, h.encodes.pending⟩
  represents := fun hreturned => absurd hpc' hreturned
  released := fun _ => h.released (.inl (.inr hpc))

/-! ## The table of descriptors -/

/-- A call that stays inside `m_datas` leaves the place of `fd` there. -/
theorem Listed.call {fd : Nat} {m : FdManager} (h : Listed fd m) {call : FdManager.Call}
    (hbounds : (m.call call).2.outOfBounds = false) : Listed fd (m.call call).2 := by
  have hinside (fd : Nat) (stray : Option CtxId) (heq : call = .get fd true stray) :
      fd < m.datas.length := by
    by_contra hfd
    rw [heq, FdManager.call, FdManager.get_beyond (Nat.not_lt.mp hfd)] at hbounds
    cases hbounds
  have hlength := FdManager.call_length h.sized hinside
  refine ⟨?_, hbounds, hlength ▸ h.lt⟩
  rw [FdManager.Sized, hlength]
  exact h.sized

theorem Listed.get {fd : Nat} {m : FdManager} (h : Listed fd m) :
    ∃ id m', m.get fd false none = (some id, m') ∧ Listed fd m' := by
  have hget : m.get fd false none = m.create fd := FdManager.get_inside h.sized h.lt false none
  obtain ⟨-, -, hid, -, hout⟩ := FdManager.create_spec h.sized fd
  have hlisted : Listed fd (m.call (.get fd false none)).2 := by
    apply h.call
    rw [FdManager.call, hget, hout]
    exact h.bounds
  rw [FdManager.call, hget] at hlisted
  refine ⟨m.made.length, (m.create fd).2, ?_, hlisted⟩
  rw [hget, ← hid]

theorem Listed.del {fd : Nat} {m : FdManager} (h : Listed fd m) : Listed fd (m.del fd) := by
  have hlisted : Listed fd (m.call (.del fd)).2 := by
    apply h.call
    exact (FdManager.del_actsAsMap h.sized h.bounds fd).2
  simp only [FdManager.call] at hlisted
  exact hlisted

/-! ## The function and its steps -/

/-- `close` of a listed descriptor, on a thread with hooks. -/
theorem close_eq {e : Hook.Env} (hhook : e.hookEnable = true) (hiom : e.iom = true)
    (hgranted : e.granted = true) {fd : Nat} {p : Hook.Process} {id : CtxId} {fdm : FdManager}
    (hget : p.fdm.get fd false none = (some id, fdm)) (hbounds : fdm.outOfBounds = false) :
    Hook.close e fd p = (p.io.cancalAll fd true).bind fun r =>
      Hook.original e (.close fd)
        { p with fdm := fdm.del fd, io := r.2.2, pushed := p.pushed ++ r.2.1 } := by
  have hneg : ¬ ((fd : Int) < 0) := by omega
  have hne : (fd : Int) ≠ -1 := by omega
  simp only [Hook.close, hhook, Bool.true_eq_false, if_false, Hook.Process.get, if_neg hne,
    if_neg hneg, Int.toNat_natCast, hget, hbounds, Bool.false_eq_true, hiom, if_true, hgranted,
    Option.bind_eq_bind, Option.bind_some, Option.bind_map, Function.comp_def]

@[simp] theorem make_map (e : Hook.Env) (call : Hook.Call) (p : Hook.Process) :
    (p.make e call).2.fdm.map = p.fdm.map := rfl

theorem path_closeStep (h : closeStep c s = some s') :
    (system c).Path TransitionSystem.free s s' := by
  have hstep : (system c).step s .close = some s' := h
  exact .tail (.refl s) trivial hstep

/-- Taken one after the other, the steps of `close` do what `Hook.close` does in one. -/
theorem path_of_close {e : Hook.Env} (hhook : e.hookEnable = true) (hiom : e.iom = true)
    (hgranted : e.granted = true) (hlisted : Listed c.fd s.fdm) (hpc : s.pc = .get)
    {r : Hook.Reply} {p : Hook.Process}
    (hclose : Hook.close e c.fd ⟨s.fdm, s.call.io, [], []⟩ = some (r, p)) :
    ∃ s', (system c).Path TransitionSystem.free s s' ∧ s'.pc = .returned ∧
      s'.fdm.map = p.fdm.map ∧ s'.call.queued = s.call.queued + c.wakes p.pushed ∧
      s'.call.io = { p.io with interest := Function.update p.io.interest c.fd none } := by
  obtain ⟨id, fdm, hget, hlisted'⟩ := hlisted.get
  rw [close_eq (p := ⟨s.fdm, s.call.io, [], []⟩) hhook hiom hgranted hget hlisted'.bounds] at hclose
  obtain ⟨⟨ok, ts, io⟩, hcancel, horiginal⟩ := Option.bind_eq_some_iff.mp hclose
  clear hclose
  have hio : s.call.io.perform (.cancalAll c.fd) true = some (⟨ok, ts⟩, io) := by
    rw [IOManager.perform, hcancel]
    rfl
  have hfirst : closeStep c s = some { s with fdm := fdm, pc := .cancalAll } := by
    simp only [closeStep, hpc, hget, Option.isSome_some, if_true]
  have hsecond : closeStep c { s with fdm := fdm, pc := .cancalAll } = some { s with
      call := { s.call with io := io, queued := s.call.queued + c.wakes ts }
      fdm := fdm
      pc := .del
      struck := 0 < c.wakes ts ∧ s.call.pc.isDone = false } := by
    simp only [closeStep, hio, Option.map_some]
  have hthird (q : State) (hq : q.pc = .del) :
      closeStep c q = some { q with fdm := q.fdm.del c.fd, pc := .closeF } := by
    simp only [closeStep, hq]
  have hfourth (q : State) (hq : q.pc = .closeF) : closeStep c q = some { q with
      call := { q.call with io := { q.call.io with
        interest := Function.update q.call.io.interest c.fd none } }
      descriptor := .closed
      pc := .returned } := by
    simp only [closeStep, hq]
  generalize hdel : fdm.del c.fd = fdm' at horiginal
  cases horiginal
  refine ⟨_, (path_closeStep hfirst).trans ((path_closeStep hsecond).trans
    ((path_closeStep (hthird _ rfl)).trans (path_closeStep (hfourth _ rfl)))), rfl, ?_, ?_, rfl⟩
  · dsimp only
    rw [hdel, make_map]
  · rfl

/-! ## The invariant -/

structure Sound (c : Config) (s : State) : Prop where
  stores : ∃ R, Stores c s R
  listed : Listed c.fd s.fdm
  original : s.descriptor = .original ↔ s.pc ≠ .returned
  reopened : s.descriptor = .reopened → s.call.pc.isDone = true
  met : Descriptor.reopened ∉ s.met
  soError : s.call.pc ≠ .soError
  swept : s.struck = true → s.Swept
  fails : s.struck = true → ∀ ret errno, s.call.pc = .done ret errno → ret = -1

/-- After `close` the number names nothing while the call goes on. -/
theorem Sound.closed (h : Sound c s) (hpc : s.pc = .returned)
    (hrunning : s.call.pc.isDone = false) : s.descriptor = .closed := by
  cases hd : s.descriptor with
  | original => exact absurd hpc (h.original.mp hd)
  | closed => rfl
  | reopened =>
    rw [h.reopened hd] at hrunning
    cases hrunning

theorem Sound.callStep (hkind : c.kind = .doIo) (h : Sound c s) {a : DoIo.Label}
    (hg : retryWaits s (.step a)) (hstep : callStep c s a = some s') : Sound c s' := by
  unfold Closing.callStep at hstep
  split at hstep
  · cases hstep
  rename_i hanswers
  obtain ⟨q, hq, rfl⟩ := Option.map_eq_some_iff.mp hstep
  have hcases : c.Step s.call a q := Config.step_cases hq
  obtain ⟨hso, hrest, hdone⟩ := step_done hkind hcases h.soError
  -- what the kernel says once `close` has returned
  have hanswer (hpc : s.pc = .returned) (hrunning : s.call.pc.isDone = false) :
      answers c a = true := by
    rw [h.closed hpc hrunning] at hanswers
    simpa using hanswers
  refine ⟨?_, h.listed, h.original, ?_, ?_, hso, h.swept, ?_⟩
  · obtain ⟨R, hR⟩ := h.stores
    rcases DoIo.step_table hcases with hio | ⟨call, granted, out, hproper, hio, hwhose⟩
    · exact ⟨R, hR.of_same hio id id⟩
    · refine hR.perform hproper hio rfl fun hswept slot r hmem => ?_
      rcases hwhose with ⟨hpc, rfl, errno, rfl⟩ | hothers
      · -- its own `addEvent` is refused, since it comes after `close_f`
        have hreturned : s.pc = .returned := hswept.resolve_left hg
        have hgranted := hanswer hreturned (by rw [hpc]; rfl)
        simp only [answers, Bool.not_eq_true'] at hgranted
        subst hgranted
        rw [Config.addEvent, IOManager.added_of_refused hio] at hmem
        cases hmem
      · exact hothers slot r hmem
  · intro hd
    rw [hrest (h.reopened hd)]
    exact h.reopened hd
  · intro hmem
    rcases List.mem_append.mp hmem with hmet | hmeets
    · exact h.met hmet
    · cases hcases with
      | again n errno hpc | wait n errno hpc | returned n errno hpc =>
        simp only [meets] at hmeets
        split at hmeets
        · have hdone := h.reopened (List.mem_singleton.mp hmeets).symm
          rw [hpc] at hdone
          cases hdone
        · cases hmeets
      | _ => cases hmeets
  · intro hstruck ret errno hpc'
    rcases hdone ret errno hpc' with hbefore | rfl | ⟨hpc, rfl⟩
    · exact h.fails hstruck ret errno hbefore
    · rfl
    · -- the underlying call comes after `close_f`
      have hreturned : s.pc = .returned := (h.swept hstruck).resolve_left (hg hstruck)
      have hebadf := hanswer hreturned (by rw [hpc]; rfl)
      simp only [answers, decide_eq_true_eq] at hebadf
      exact hebadf.1

theorem Sound.closeStep (h : Sound c s) (hstep : closeStep c s = some s') : Sound c s' := by
  obtain ⟨R, hR⟩ := h.stores
  have hopen {pc : Pc} (hpc : s.pc = pc) (hne : pc ≠ .returned) : s.descriptor = .original :=
    h.original.mpr (hpc ▸ hne)
  unfold Closing.closeStep at hstep
  split at hstep
  · rename_i hpc
    have hnot : ¬ s.Swept := by
      rw [State.Swept, State.Between, hpc]
      exact nofun
    obtain ⟨id, fdm, hget, hlisted⟩ := h.listed.get
    rw [hget] at hstep
    cases hstep
    exact {
      stores := ⟨R, hR.of_same rfl (fun hreturned => nomatch hpc.symm.trans hreturned) nofun⟩
      listed := hlisted
      original := ⟨nofun, fun _ => hopen hpc nofun⟩
      reopened := h.reopened
      met := h.met
      soError := h.soError
      swept := fun hstruck => absurd (h.swept hstruck) hnot
      fails := h.fails }
  · rename_i hpc
    obtain ⟨⟨out, io⟩, hio, rfl⟩ := Option.map_eq_some_iff.mp hstep
    exact {
      stores := hR.cancalAll hpc hio rfl
      listed := h.listed
      original := ⟨nofun, fun _ => hopen hpc nofun⟩
      reopened := h.reopened
      met := h.met
      soError := h.soError
      swept := fun _ => .inl (.inl rfl)
      fails := fun hstruck ret errno hdone => by
        simp only [decide_eq_true_eq] at hstruck
        rw [hdone] at hstruck
        cases hstruck.2 }
  · rename_i hpc
    have hlisted := h.listed.del
    generalize s.fdm.del c.fd = fdm at hstep hlisted
    cases hstep
    exact {
      stores := ⟨R, hR.of_same rfl (fun hreturned => nomatch hpc.symm.trans hreturned)
        fun _ => .inl (.inl hpc)⟩
      listed := hlisted
      original := ⟨nofun, fun _ => hopen hpc nofun⟩
      reopened := h.reopened
      met := h.met
      soError := h.soError
      swept := fun _ => .inl (.inr rfl)
      fails := h.fails }
  · rename_i hpc
    cases hstep
    exact {
      stores := ⟨R, hR.closeF hpc rfl rfl⟩
      listed := h.listed
      original := ⟨nofun, fun hreturned => absurd rfl hreturned⟩
      reopened := nofun
      met := h.met
      soError := h.soError
      swept := fun _ => .inr rfl
      fails := h.fails }
  · cases hstep

theorem Sound.step (hkind : c.kind = .doIo) (h : Sound c s) {a : Label} (hg : retryWaits s a)
    (hstep : step c s a = some s') : Sound c s' := by
  cases a with
  | step a => exact h.callStep hkind hg hstep
  | fdMgr call =>
    simp only [Closing.step] at hstep
    split at hstep
    · cases hstep
    · rename_i hbounds
      cases hstep
      obtain ⟨R, hR⟩ := h.stores
      exact { h with
        stores := ⟨R, hR.of_same rfl id id⟩
        listed := h.listed.call (Bool.eq_false_iff.mpr hbounds) }
  | close => exact h.closeStep hstep
  | reopen =>
    simp only [Closing.step] at hstep
    split at hstep
    · rename_i hclosed
      cases hstep
      obtain ⟨R, hR⟩ := h.stores
      have hreturned : s.pc = .returned := by
        by_contra hrunning
        rw [h.original.mpr hrunning] at hclosed
        cases hclosed
      exact { h with
        stores := ⟨R, hR.of_same rfl id id⟩
        original := ⟨nofun, fun hrunning => absurd hreturned hrunning⟩
        reopened := fun _ => hg }
    · cases hstep

theorem Initial.sound (h : Initial c s) : Sound c s where
  stores := by
    obtain ⟨R, hR⟩ := h.call.io
    refine ⟨R, hR.toEncodes, fun _ => hR, fun hswept => ?_⟩
    rw [State.Swept, State.Between, h.pc] at hswept
    rcases hswept with (hpc | hpc) | hpc <;> cases hpc
  listed := h.listed
  original := by rw [h.descriptor, h.pc]; exact ⟨fun _ => nofun, fun _ => rfl⟩
  reopened := by rw [h.descriptor]; exact nofun
  met := by rw [h.met]; exact List.not_mem_nil
  soError := by rw [h.call.pc]; exact nofun
  swept := by rw [h.struck]; exact nofun
  fails := by rw [h.struck]; exact nofun

/-- In every run in which the retry waits until `close` has returned, and the number is not given
out again before the call has returned, `close` leaves nothing of the call behind, and the
call of a fiber that it woke fails without touching another descriptor. -/
theorem safe_of_reachable (hkind : c.kind = .doIo)
    (h : (system c).Reachable retryWaits s) : Safe c s := by
  have hsound : Sound c s := by
    refine TransitionSystem.Preserved.reachable (I := Sound c) ?_ (fun _ hs => Initial.sound hs) h
    exact fun _ _ _ hs hg hstep => hs.step hkind hg hstep
  obtain ⟨R, hR⟩ := hsound.stores
  refine ⟨fun _ => hR.encodes.counted, fun hpc event r hheld => ?_, hsound.met, hsound.fails⟩
  exact hR.released (.inr hpc) event r ((hR.encodes.holds_iff ..).mp hheld)

/-! ## A call that survives -/

def beforeClose : State where
  call := DoIo.beforeCall
  fdm := .init Hook.socketKernel
  pc := .get
  descriptor := .original
  struck := false
  met := []

theorem beforeClose_initial : Initial DoIo.reading beforeClose where
  call := DoIo.beforeCall_initial
  listed := ⟨FdManager.init_sized _, rfl, by decide⟩
  pc := rfl
  descriptor := rfl
  struck := rfl
  met := rfl

/-- The fiber has parked, and `close` has made its `cancalAll`. -/
def strikeRun : List Label :=
  [.step (.call (-1) DoIo.eagain), .step (.arm 0 0), .step (.register true 0), .step .yield, .close,
    .close]

/-- It wakes up, and goes back to the underlying call. -/
def wakeRun : List Label :=
  [.step .resume, .step .cancelTimer, .step .check]

/-- The retry comes before `close_f`: the descriptor still answers `EAGAIN`, and the fiber
registers again. -/
def earlyRetryRun : List Label :=
  strikeRun ++ wakeRun ++ [.step (.call (-1) DoIo.eagain), .step (.arm 1 0),
    .step (.register true 0), .step .yield, .close, .close]

/-- `close` returns and leaves the fiber registered for the closed descriptor. -/
theorem not_safe_earlyRetryRun :
    ¬ ∀ (c : Config) (s : State), c.kind = .doIo →
      (system c).Reachable TransitionSystem.free s → Safe c s := by
  intro hall
  obtain ⟨s, hs, hp⟩ := TransitionSystem.Reachable.of_replay (T := system DoIo.reading)
    (G := TransitionSystem.free) (g := fun _ _ => true) (fun _ _ _ => trivial) (l := earlyRetryRun)
    (p := fun s => s.pc == .returned && decide (s.call.held DoIo.reading))
    beforeClose_initial (by decide)
  simp only [Bool.and_eq_true, beq_iff_eq, decide_eq_true_eq] at hp
  exact (hall DoIo.reading s rfl hs).released hp.1 .read _ hp.2 rfl

/-- The retry comes after the number was given out again. -/
def recycledRun : List Label :=
  strikeRun ++ [.close, .close, .reopen] ++ wakeRun ++ [.step (.call 5 0)]

/-- The woken fiber reads from the new descriptor, and its call succeeds. -/
theorem reads_reopened_recycledRun :
    ∃ s, (system DoIo.reading).Reachable TransitionSystem.free s ∧ s.met = [.reopened] ∧
      s.call.pc = .done 5 0 := by
  obtain ⟨s, hs, hp⟩ := TransitionSystem.Reachable.of_replay (T := system DoIo.reading)
    (G := TransitionSystem.free) (g := fun _ _ => true) (fun _ _ _ => trivial) (l := recycledRun)
    (p := fun s => s.met == [.reopened] && s.call.pc == .done 5 0) beforeClose_initial (by decide)
  simp only [Bool.and_eq_true, beq_iff_eq] at hp
  exact ⟨s, hs, hp.1, hp.2⟩

/-- The retry comes after `close_f`, and the number is given out again when the call has
returned. -/
def lateRetryRun : List Label :=
  strikeRun ++ [.close, .close] ++ wakeRun ++ [.step (.call (-1) Hook.ebadf), .reopen]

theorem safe_of_reachable_lateRetryRun :
    ∃ s, (system DoIo.reading).Reachable retryWaits s ∧ s.struck = true ∧
      s.call.pc = .done (-1) Hook.ebadf ∧ s.met = [.closed] ∧ Safe DoIo.reading s := by
  obtain ⟨s, hs, hp⟩ := TransitionSystem.Reachable.of_replay (T := system DoIo.reading)
    (G := retryWaits) (g := fun s a => decide (retryWaits s a)) (fun _ _ => of_decide_eq_true)
    (l := lateRetryRun)
    (p := fun s => s.struck && s.call.pc == .done (-1) Hook.ebadf && s.met == [.closed])
    beforeClose_initial (by decide)
  simp only [Bool.and_eq_true, beq_iff_eq] at hp
  obtain ⟨⟨hstruck, hpc⟩, hmet⟩ := hp
  exact ⟨s, hs, hstruck, hpc, hmet, safe_of_reachable rfl hs⟩

end Closing
