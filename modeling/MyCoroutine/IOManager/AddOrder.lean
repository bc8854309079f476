-- SUMMARY: The event table on which every call is taken whole, and how each step of addEvent keeps it beside the real one.
import MyCoroutine.IOManager.Filling

/-! # The order behind the steps of addEvent

The steps of the race are matched with an event table on which every call is taken whole.
An `addEvent` takes effect there when it writes `events`, an operation under the lock when
it is called. Before the write the real table is ahead of that table by one interest and
one count, after the write it is behind by one context. -/

namespace AddRace

open Counting OneShot
open IOManager (Call Caller Event EventContext FdContext Outcome Registration Registry Represents
  contextOf realEvents)
open scoped List

variable {fd : Nat} {s s' : State} {start a m : IOManager} {call : Call} {granted : Bool}
  {e : Event} {adds : Event → Option Adding} {R : Registry}

/-! ## addEvent, taken whole -/

/-- The kernel grants what the registry asks for. -/
theorem epollCtl_add (h : Represents R m) (htickle : fd ≠ m.tickleFd) (mask : Mask) :
    epollCtl m.interest (if R.events fd ≠ 0 then .mod else .add) fd mask true =
      some (Function.update m.interest fd (some mask)) := by
  have hinterest := h.interest fd htickle
  unfold Registry.interest at hinterest
  by_cases hzero : R.events fd = 0
  · rw [if_pos hzero] at hinterest
    rw [if_neg (not_not_intro hzero)]
    simp only [epollCtl, if_true, hinterest]
  · rw [if_neg hzero] at hinterest
    rw [if_pos hzero]
    simp only [epollCtl, if_true, hinterest]

theorem lookup_of_intOfSize (h : Represents R m) (hfd : intOfSize m.fdContexts.length > fd) :
    m.fdContexts[fd]? = some (R.fdContext fd) := by
  apply h.lookup
  have := intOfSize_le m.fdContexts.length
  omega

theorem addEvent_whole (h : Represents R m) {caller : Caller} {cb : Option CbId}
    {r : Registration} (hfd : intOfSize m.fdContexts.length > fd) (htickle : fd ≠ m.tickleFd)
    (he : e ≠ .none) (hfree : R (fd, e) = none) (hr : caller.registration cb = some r)
    (hrunning : caller.state = .running) :
    m.addEvent caller fd e cb true = some (0, IOManager.setContext
      { m with
        interest := Function.update m.interest fd (some (epollEt ||| R.events fd ||| e.bits))
        pendingEventCount := m.pendingEventCount + 1 } fd
      { (R.fdContext fd).setEventContext e (contextOf (some r)) with
        events := R.events fd ||| e.bits }) := by
  have hbit : (R.fdContext fd).events &&& e.bits = 0 := (R.events_and_bits fd he).mpr hfree
  have hctl : epollCtl m.interest (if (R.fdContext fd).events ≠ 0 then .mod else .add) fd
      (epollEt ||| (R.fdContext fd).events ||| e.bits) true = _ := epollCtl_add h htickle _
  unfold IOManager.addEvent
  simp only [if_pos hfd, lookup_of_intOfSize h hfd, Option.bind_eq_bind, Option.bind_some]
  rw [if_neg (not_not_intro hbit), hctl]
  simp only [FdContext.getEventContext_events, R.fdContext_getEventContext he, hfree,
    Option.bind_some, contextOf, EventContext.empty, Option.isSome_none, Bool.false_eq_true,
    or_self, if_false]
  obtain ⟨scheduler, hscheduler, rfl⟩ := Option.map_eq_some_iff.mp hr
  cases cb with
  | some c =>
    rw [hscheduler]
    cases e <;> rfl
  | none =>
    rw [hscheduler, if_pos hrunning]
    cases e <;> rfl

theorem addEvent_whole_refused (h : Represents R m) {caller : Caller} {cb : Option CbId}
    (hfd : intOfSize m.fdContexts.length > fd) (he : e ≠ .none) (hfree : R (fd, e) = none) :
    m.addEvent caller fd e cb false = some (-1, m) := by
  have hbit : (R.fdContext fd).events &&& e.bits = 0 := (R.events_and_bits fd he).mpr hfree
  unfold IOManager.addEvent
  simp only [if_pos hfd, lookup_of_intOfSize h hfd, Option.bind_eq_bind, Option.bind_some]
  rw [if_neg (not_not_intro hbit)]
  rfl

/-- The same event twice fails the assertion. -/
theorem addEvent_twice (h : Represents R m) {caller : Caller} {cb : Option CbId}
    (hfd : intOfSize m.fdContexts.length > fd) (hbit : R.events fd &&& e.bits ≠ 0) :
    m.addEvent caller fd e cb granted = none := by
  unfold IOManager.addEvent
  simp only [if_pos hfd, lookup_of_intOfSize h hfd, Option.bind_eq_bind, Option.bind_some]
  exact if_pos hbit

/-! ## The table on which the calls are whole -/

/-- The call of an `addEvent` that has taken effect and not returned. -/
def record (fd : Nat) : Option Adding → Option Record
  | some ⟨caller, event, cb, .written⟩ => some ⟨.addEvent caller fd event cb, true, ⟨true, []⟩⟩
  | _ => none

/-- It has counted what is not written yet. -/
def counts : Option Adding → Option Unit
  | some ⟨_, _, _, .counted⟩ => some ()
  | _ => none

/-- `a` is the table after some order of the calls that have taken effect, and `R` is what it
stores. -/
structure Sim (fd : Nat) (start : IOManager) (s : State) (a : IOManager) (R : Registry) : Prop where
  represents : Represents R a
  serial : Serially Whole start (s.done ++ held events (record fd) s.adds) a
  contexts : a.fdContexts = (settle fd s.adds s.io).fdContexts
  tickleFd : s.io.tickleFd = a.tickleFd
  notTickle : fd ≠ a.tickleFd
  pending : s.io.pendingEventCount = a.pendingEventCount + (held events counts s.adds).length
  seen : (∀ e, s.unseen e = false) → s.io.interest = a.interest
  unseen : ∀ e, s.unseen e = true → s.io.interest =
    Function.update a.interest fd (some (epollEt ||| R.events fd ||| e.bits))
  alone : ∀ e e', s.unseen e = true → s.unseen e' = true → e = e'
  adding : ∀ e x, s.adds e = some x → x.event = e ∧ e ≠ .none ∧ x.caller.scheduler.isSome = true ∧
    x.caller.state = .running ∧ intOfSize s.io.fdContexts.length > fd
  absent : ∀ e x, s.adds e = some x → x.stage ≠ .written → R (fd, e) = none
  empty : ∀ e x c, s.adds e = some x → x.stage = .written → s.io.fdContexts[fd]? = some c →
    c.getEventContext e = some .empty
  succeeds : ∀ r ∈ s.done, ∀ e, r.Adds fd e → r.granted = true → r.out.ok = true
  kept : (∀ r ∈ s.done, ∃ e, r.Adds fd e) →
    ∀ r ∈ s.done ++ held events (record fd) s.adds, ∀ e, r.Adds fd e → r.granted = true →
      R (fd, e) ≠ none
  blank : s.blank = false
  dropped : s.dropped = false
  stopped : ∀ call granted, s.stopped = some (call, granted) → a.perform call granted = none

theorem events_nodup : events.Nodup := by
  decide

/-- Up to order, the calls that have taken effect change by those of the event that changes. -/
theorem record_update (fd : Nat) (he : e ≠ .none) (adds : Event → Option Adding)
    (x : Option Adding) :
    (record fd (adds e)).toList ++ held events (record fd) (Function.update adds e x) ~
      (record fd x).toList ++ held events (record fd) adds :=
  held_update events_nodup (mem_events.mpr he) (record fd) adds x

theorem counts_update (he : e ≠ .none) (adds : Event → Option Adding) (x : Option Adding) :
    (counts (adds e)).toList.length + (held events counts (Function.update adds e x)).length =
      (counts x).toList.length + (held events counts adds).length := by
  have := (held_update events_nodup (mem_events.mpr he) counts adds x).length_eq
  simpa only [List.length_append] using this

theorem record_of_ne {x : Adding} (h : x.stage ≠ .written) : record fd (some x) = none := by
  obtain ⟨caller, event, cb, stage⟩ := x
  cases stage with
  | written => exact absurd rfl h
  | read | watched | counted => rfl

theorem record_of_eq {x : Adding} (h : x.stage = .written) :
    record fd (some x) = some ⟨x.call fd, true, ⟨true, []⟩⟩ := by
  obtain ⟨caller, event, cb, stage⟩ := x
  obtain rfl : stage = .written := h
  rfl

theorem counts_of_ne {x : Adding} (h : x.stage ≠ .counted) : counts (some x) = none := by
  obtain ⟨caller, event, cb, stage⟩ := x
  cases stage with
  | counted => exact absurd rfl h
  | read | watched | written => rfl

theorem counts_of_eq {x : Adding} (h : x.stage = .counted) : counts (some x) = some () := by
  obtain ⟨caller, event, cb, stage⟩ := x
  obtain rfl : stage = .counted := h
  rfl

theorem unseen_update {x : Option Adding} (h : s'.adds = Function.update s.adds e x) (e' : Event) :
    s'.unseen e' = if e' = e then x.any Adding.unseen else s.unseen e' := by
  rw [State.unseen, h, Function.update_apply]
  split <;> rfl

/-- The context of `e` is not to be filled now, and was not before. -/
theorem settle_update {x : Option Adding} (he : ¬ Unfilled adds e)
    (hx : ∀ y, x = some y → y.stage ≠ .written) :
    settle fd (Function.update adds e x) m = settle fd adds m := by
  have hx' : ¬ Unfilled (Function.update adds e x) e := by
    rintro ⟨y, hy, hstage⟩
    rw [Function.update_self] at hy
    exact hx y hy hstage
  have hsame (e' : Event) (ctx : EventContext) :
      filled (Function.update adds e x e') ctx = filled (adds e') ctx := by
    rcases eq_or_ne e' e with rfl | hne
    · rw [filled_of_not hx', filled_of_not he]
    · rw [Function.update_of_ne hne]
  have hcontext : settleContext (Function.update adds e x) = settleContext adds := by
    funext c
    simp only [settleContext, hsame]
  rw [settle, settle, hcontext]

namespace Sim

theorem context (h : Sim fd start s a R) {c : FdContext} (hc : s.io.fdContexts[fd]? = some c) :
    settleContext s.adds c = R.fdContext fd := by
  apply h.represents.table fd
  rw [h.contexts, settle_lookup, hc]
  rfl

theorem context_events (h : Sim fd start s a R) {c : FdContext}
    (hc : s.io.fdContexts[fd]? = some c) : c.events = R.events fd :=
  congrArg FdContext.events (h.context hc)

theorem length (h : Sim fd start s a R) : a.fdContexts.length = s.io.fdContexts.length := by
  rw [h.contexts, settle_length]

/-- What the table says of a descriptor for which an `addEvent` has come this far. -/
theorem exists_context (h : Sim fd start s a R) {x : Adding} (hx : s.adds e = some x) :
    ∃ c, s.io.fdContexts[fd]? = some c := by
  obtain ⟨-, -, -, -, hfd⟩ := h.adding e x hx
  have := intOfSize_le s.io.fdContexts.length
  exact ⟨_, List.getElem?_eq_getElem (by omega)⟩

theorem not_unfilled {x : Adding} (hx : s.adds e = some x) (hstage : x.stage ≠ .written) :
    ¬ Unfilled s.adds e := by
  rintro ⟨y, hy, hwritten⟩
  rw [hx] at hy
  cases hy
  exact hstage hwritten

/-- Before the write the context is the empty one that the registry knows of. -/
theorem empty_of_not (h : Sim fd start s a R) (he : e ≠ .none) {c : FdContext}
    (hc : s.io.fdContexts[fd]? = some c) (hnot : ¬ Unfilled s.adds e) (habsent : R (fd, e) = none) :
    c.getEventContext e = some .empty := by
  rw [← settleContext_getEventContext hnot c, h.context hc, R.fdContext_getEventContext he, habsent]
  rfl

end Sim

/-! ## Before the write -/

theorem record_of_not {x : Option Adding} (h : ∀ y, x = some y → y.stage ≠ .written) :
    record fd x = none := by
  cases x with
  | none => rfl
  | some y => exact record_of_ne (h y rfl)

namespace Sim

theorem not_written (hnot : ¬ Unfilled s.adds e) (y : Adding) (hy : s.adds e = some y) :
    y.stage ≠ .written :=
  fun hstage => hnot ⟨y, hy, hstage⟩

theorem not_stopped (hrun : s.stopped = none) (call : Call) (granted : Bool)
    (h : s.stopped = some (call, granted)) : m.perform call granted = none := by
  rw [hrun] at h
  cases h

/-- An `addEvent` begins, goes on or goes away, and does not write `events`. -/
theorem goes_on (h : Sim fd start s a R) (hrun : s.stopped = none) (he : e ≠ .none)
    (hnot : ¬ Unfilled s.adds e) {x : Option Adding} {io : IOManager}
    (hs' : s' = { s with io := io, adds := Function.update s.adds e x })
    (hx : ∀ y, x = some y → y.stage ≠ .written ∧ y.event = e ∧ y.caller.scheduler.isSome = true ∧
      y.caller.state = .running ∧ intOfSize s.io.fdContexts.length > fd ∧ R (fd, e) = none)
    (hcontexts : io.fdContexts = s.io.fdContexts) (htickle : io.tickleFd = s.io.tickleFd)
    (hpending : (counts (s.adds e)).toList.length + io.pendingEventCount =
      (counts x).toList.length + s.io.pendingEventCount)
    (hseen : (∀ e', s'.unseen e' = false) → io.interest = a.interest)
    (hunseen : ∀ e', s'.unseen e' = true → io.interest =
      Function.update a.interest fd (some (epollEt ||| R.events fd ||| e'.bits)))
    (halone : ∀ e' e'', s'.unseen e' = true → s'.unseen e'' = true → e' = e'') :
    Sim fd start s' a R := by
  subst hs'
  have hwritten (y : Adding) (hy : x = some y) : y.stage ≠ .written := (hx y hy).1
  have hrecord := record_update fd he s.adds x
  rw [record_of_not (not_written hnot), record_of_not hwritten] at hrecord
  have hperm : s.done ++ held events (record fd) (Function.update s.adds e x) ~
      s.done ++ held events (record fd) s.adds := hrecord.append_left s.done
  have hcounts := counts_update he s.adds x
  exact {
    represents := h.represents
    serial := h.serial.perm hperm.symm
    contexts := by
      have hsettle : settle fd (Function.update s.adds e x) io = settle fd s.adds io :=
        settle_update hnot hwritten
      rw [h.contexts, hsettle, settle, settle, hcontexts]
    tickleFd := htickle.trans h.tickleFd
    notTickle := h.notTickle
    pending := by
      have := h.pending
      dsimp only
      omega
    seen := hseen
    unseen := hunseen
    alone := halone
    adding := by
      intro e' y hy
      rw [hcontexts]
      rcases eq_or_ne e' e with rfl | hne
      · obtain ⟨-, hevent, hscheduler, hrunning, hfd, -⟩ := hx y (by simpa using hy)
        exact ⟨hevent, he, hscheduler, hrunning, hfd⟩
      · exact h.adding e' y (by simpa [hne] using hy)
    absent := by
      intro e' y hy hstage
      rcases eq_or_ne e' e with rfl | hne
      · exact (hx y (by simpa using hy)).2.2.2.2.2
      · exact h.absent e' y (by simpa [hne] using hy) hstage
    empty := by
      intro e' y c hy hstage hc
      rw [hcontexts] at hc
      rcases eq_or_ne e' e with rfl | hne
      · exact absurd hstage (hwritten y (by simpa using hy))
      · exact h.empty e' y c (by simpa [hne] using hy) hstage hc
    succeeds := h.succeeds
    kept := fun hall r hr => h.kept hall r (hperm.mem_iff.mp hr)
    blank := h.blank
    dropped := h.dropped
    stopped := not_stopped hrun }

/-- The same when it stays on its side of the `epoll_ctl`. -/
theorem stays (h : Sim fd start s a R) (hrun : s.stopped = none) (he : e ≠ .none)
    (hnot : ¬ Unfilled s.adds e) {x : Option Adding} {io : IOManager}
    (hx : ∀ y, x = some y → y.stage ≠ .written ∧ y.event = e ∧ y.caller.scheduler.isSome = true ∧
      y.caller.state = .running ∧ intOfSize s.io.fdContexts.length > fd ∧ R (fd, e) = none)
    (hcontexts : io.fdContexts = s.io.fdContexts) (htickle : io.tickleFd = s.io.tickleFd)
    (hpending : (counts (s.adds e)).toList.length + io.pendingEventCount =
      (counts x).toList.length + s.io.pendingEventCount)
    (hinterest : io.interest = s.io.interest) (hside : x.any Adding.unseen = s.unseen e) :
    Sim fd start { s with io := io, adds := Function.update s.adds e x } a R := by
  have hunseen (e' : Event) :
      State.unseen { s with io := io, adds := Function.update s.adds e x } e' = s.unseen e' := by
    rw [unseen_update rfl, hside]
    split
    · rename_i heq
      rw [heq]
    · rfl
  refine h.goes_on hrun he hnot rfl hx hcontexts htickle hpending ?_ ?_ ?_
  · exact fun hall => hinterest.trans (h.seen fun e' => (hunseen e') ▸ hall e')
  · exact fun e' he' => hinterest.trans (h.unseen e' (hunseen e' ▸ he'))
  · exact fun e' e'' he' he'' => h.alone e' e'' (hunseen e' ▸ he') (hunseen e'' ▸ he'')

theorem returned_perm (done pending : List Record) (r : Record) :
    (done ++ pending) ++ [r] ~ (done ++ [r]) ++ pending := by
  simp only [List.append_assoc]
  exact List.perm_append_comm.append_left done

/-- A call takes effect, changes nothing and returns. -/
theorem returns (h : Sim fd start s a R) (r : Record) (hwhole : Whole a r a)
    (hnot : r.granted = false ∨ ∀ e, ¬ r.Adds fd e) :
    Sim fd start { s with done := s.done ++ [r] } a R := by
  have hadds (e : Event) (hadd : r.Adds fd e) (hgranted : r.granted = true) : False := by
    rcases hnot with hno | hno
    · rw [hno] at hgranted
      cases hgranted
    · exact hno e hadd
  have hperm := returned_perm s.done (held events (record fd) s.adds) r
  refine { h with
    serial := (h.serial.tail hwhole).perm hperm
    succeeds := ?_
    kept := ?_ }
  · intro r' hr' e' hadd hgranted
    rcases List.mem_append.mp hr' with hbefore | hlast
    · exact h.succeeds r' hbefore e' hadd hgranted
    · obtain rfl := List.mem_singleton.mp hlast
      exact (hadds e' hadd hgranted).elim
  · intro hall r' hr' e' hadd hgranted
    rcases List.mem_append.mp (hperm.mem_iff.mpr hr') with hbefore | hlast
    · exact h.kept (fun r hr => hall r (List.mem_append_left _ hr)) r' hbefore e' hadd hgranted
    · obtain rfl := List.mem_singleton.mp hlast
      exact (hadds e' hadd hgranted).elim

/-- A call ends the run, and would end it when taken whole. -/
theorem stops (h : Sim fd start s a R) (hcall : a.perform call granted = none) :
    Sim fd start { s with stopped := some (call, granted) } a R := by
  refine { h with stopped := ?_ }
  intro call' granted' hstopped
  cases hstopped
  exact hcall

theorem readEvents {caller : Caller} {cb : Option CbId} (h : Sim fd start s a R)
    (hrun : s.stopped = none) (hstep : readEvents fd s caller e cb = some s') :
    Sim fd start s' a R := by
  unfold AddRace.readEvents at hstep
  split at hstep
  · cases hstep
  rename_i hcan
  simp only [not_or, Bool.not_eq_true, Option.isSome_eq_false_iff, Option.isNone_iff_eq_none,
    not_not] at hcan
  obtain ⟨he, hnone, hscheduler, hrunning⟩ := hcan
  split at hstep
  · rename_i hfd
    obtain ⟨c, hc, hrest⟩ := Option.bind_eq_some_iff.mp hstep
    split at hrest
    · rename_i hbit
      cases hrest
      rw [h.context_events hc] at hbit
      refine h.stops ?_
      simp only [IOManager.perform, addEvent_twice h.represents (h.length ▸ hfd) hbit,
        Option.map_none]
    · rename_i hbit
      cases hrest
      have habsent : R (fd, e) = none := by
        rw [← R.events_and_bits fd he, ← h.context_events hc]
        exact not_not.mp hbit
      refine h.stays hrun he ?_ (fun y hy => ?_) rfl rfl ?_ rfl ?_
      · rintro ⟨y, hy, -⟩
        rw [hnone] at hy
        cases hy
      · cases hy
        exact ⟨by simp, rfl, Option.isSome_iff_ne_none.mpr hscheduler, hrunning, hfd, habsent⟩
      · rw [hnone]
        rfl
      · rw [State.unseen, hnone]
        rfl
  · rename_i hfd
    cases hstep
    refine h.stops ?_
    simp only [IOManager.perform, IOManager.addEvent_outside (h.length ▸ hfd), Option.map_none]

/-! ## epoll_ctl -/

theorem whole_refused {x : Adding} (h : Represents R a) (hfd : intOfSize a.fdContexts.length > fd)
    (he : x.event ≠ .none) (habsent : R (fd, x.event) = none) :
    Whole a ⟨x.call fd, false, ⟨false, []⟩⟩ a := by
  have hadd : a.addEvent x.caller fd x.event x.cb false = some (-1, a) :=
    addEvent_whole_refused h hfd he habsent
  simp only [Whole, Adding.call, IOManager.perform, hadd]
  rfl

theorem unseen_of_events (h : Sim fd start s a R) (hall : ∀ e ∈ events, s.unseen e = false)
    (e : Event) : s.unseen e = false := by
  by_cases he : e = .none
  · cases hadds : s.adds e with
    | none =>
      rw [State.unseen, hadds]
      rfl
    | some x => exact absurd he (h.adding e x hadds).2.1
  · exact hall e (mem_events.mpr he)

theorem epollCtlStep (h : Sim fd start s a R) (hrun : s.stopped = none)
    (hg : apart fd s (.ctl e granted)) (hstep : epollCtlStep fd s e granted = some s') :
    Sim fd start s' a R := by
  unfold AddRace.epollCtlStep at hstep
  obtain ⟨x, hx, hrest⟩ := Option.bind_eq_some_iff.mp hstep
  obtain ⟨hevent, he, hscheduler, hrunning, hfd⟩ := h.adding e x hx
  split at hrest
  · rename_i mask hstage
    have hnot : x.stage ≠ .written := by simp [hstage]
    have habsent := h.absent e x hx hnot
    have hcounts : counts (s.adds e) = none := by
      rw [hx, counts_of_ne (by simp [hstage])]
    have hreading : s.unseen e = false := by
      rw [State.unseen, hx, Option.any_some, Adding.unseen, hstage]
      rfl
    -- what the guard says of an `epoll_ctl` that the kernel grants
    have hgranted (hyes : granted = true) : mask = R.events fd ∧ s.io.interest = a.interest ∧
        ∀ e', s.unseen e' = false := by
      obtain ⟨hread, hunseen⟩ := hg hyes
      obtain ⟨c, hc⟩ := h.exists_context hx
      have hmask := hread x hx c hc
      rw [hstage, h.context_events hc] at hmask
      have hall := h.unseen_of_events hunseen
      exact ⟨Stage.read.inj hmask, h.seen hall, hall⟩
    cases hctl : epollCtl s.io.interest (if mask ≠ 0 then .mod else .add) fd
      (epollEt ||| mask ||| e.bits) granted with
    | none =>
      simp only [hctl] at hrest
      cases hrest
      have hno : granted = false := by
        cases granted with
        | false => rfl
        | true =>
          obtain ⟨hmask, hinterest, -⟩ := hgranted rfl
          rw [hmask, hinterest, epollCtl_add h.represents h.notTickle] at hctl
          cases hctl
      subst hno
      have hquiet : Sim fd start { s with adds := Function.update s.adds e none } a R := by
        refine h.stays hrun he (not_unfilled hx hnot) nofun rfl rfl ?_ rfl ?_
        · rw [hcounts]
          rfl
        · rw [hreading]
          rfl
      refine hquiet.returns _ (whole_refused h.represents ?_ ?_ ?_) (.inl rfl)
      · rw [h.length]
        exact hfd
      · rw [hevent]
        exact he
      · rw [hevent]
        exact habsent
    | some interest =>
      simp only [hctl] at hrest
      cases hrest
      obtain ⟨rfl, hinterest, hall⟩ := hgranted (epollCtl_granted hctl)
      obtain ⟨hupdate, hop⟩ := IOManager.epollCtl_eq_some hctl
      have hadd : (if R.events fd ≠ 0 then EpollOp.mod else .add) ≠ .del := by
        split <;> exact nofun
      rw [if_neg hadd, hinterest] at hupdate
      have hunseen (e' : Event) : State.unseen
          { s with
            io := { s.io with interest := interest }
            adds := Function.update s.adds e (some { x with stage := .watched }) } e' = true ↔
          e' = e := by
        rw [unseen_update rfl, hall]
        split
        · rename_i heq
          exact iff_of_true rfl heq
        · rename_i hne
          exact iff_of_false nofun hne
      refine h.goes_on hrun he (not_unfilled hx hnot) rfl (fun y hy => ?_) rfl rfl ?_ ?_ ?_ ?_
      · cases hy
        exact ⟨by simp, hevent, hscheduler, hrunning, hfd, habsent⟩
      · rw [hcounts]
        rfl
      · intro hnone
        have := hnone e
        rw [(hunseen e).mpr rfl] at this
        cases this
      · intro e' he'
        obtain rfl := (hunseen e').mp he'
        exact hupdate
      · intro e' e'' he' he''
        rw [(hunseen e').mp he', (hunseen e'').mp he'']
  · cases hrest

theorem count (h : Sim fd start s a R) (hrun : s.stopped = none) (hstep : count s e = some s') :
    Sim fd start s' a R := by
  unfold AddRace.count at hstep
  obtain ⟨x, hx, hrest⟩ := Option.bind_eq_some_iff.mp hstep
  obtain ⟨hevent, he, hscheduler, hrunning, hfd⟩ := h.adding e x hx
  split at hrest
  · rename_i hstage
    cases hrest
    have hnot : x.stage ≠ .written := by simp [hstage]
    refine h.stays hrun he (not_unfilled hx hnot) (fun y hy => ?_) rfl rfl ?_ rfl ?_
    · cases hy
      exact ⟨by simp, hevent, hscheduler, hrunning, hfd, h.absent e x hx hnot⟩
    · rw [hx, counts_of_ne (by simp [hstage]), counts_of_eq rfl]
      exact (Nat.zero_add _).trans (Nat.add_comm _ _)
    · rw [State.unseen, hx, Option.any_some, Option.any_some, Adding.unseen, Adding.unseen, hstage]
      rfl
  · cases hrest

end Sim

/-! ## The write -/

theorem settle_set (adds adds' : Event → Option Adding) (m : IOManager) (c : FdContext) :
    (settle fd adds' (m.setContext fd c)).fdContexts =
      (settle fd adds m).fdContexts.set fd (settleContext adds' c) :=
  (modify_set m.fdContexts fd (settleContext adds) (settleContext adds') c).symm

theorem settleContext_written (adds : Event → Option Adding) (he : e ≠ .none) {x : Adding}
    (hx : x.stage = .written) (c : FdContext) (events : Mask) :
    settleContext (Function.update adds e (some x)) { c with events := events } =
      { (settleContext adds c).setEventContext e (contextOf (x.caller.registration x.cb)) with
        events := events } := by
  obtain ⟨caller, event, cb, stage⟩ := x
  obtain rfl : stage = .written := hx
  cases e with
  | none => exact absurd rfl he
  | read => simp [settleContext, FdContext.setEventContext, filled]
  | write => simp [settleContext, FdContext.setEventContext, filled]

theorem settleContext_filled (he : e ≠ .none) {x : Adding} (hadds : adds e = some x)
    (hx : x.stage = .written) (c : FdContext) :
    settleContext (Function.update adds e none)
        (c.setEventContext e (contextOf (x.caller.registration x.cb))) = settleContext adds c := by
  obtain ⟨caller, event, cb, stage⟩ := x
  obtain rfl : stage = .written := hx
  cases e with
  | none => exact absurd rfl he
  | read => simp [settleContext, FdContext.setEventContext, filled, hadds]
  | write => simp [settleContext, FdContext.setEventContext, filled, hadds]

theorem getEventContext_set_of_ne {e' : Event} (h : e' ≠ e) (c : FdContext) (ctx : EventContext) :
    (c.setEventContext e ctx).getEventContext e' = c.getEventContext e' := by
  cases e <;> cases e' <;> first | rfl | exact absurd rfl h

namespace Sim

theorem lookup_setContext {c c' d : FdContext} (hc : m.fdContexts[fd]? = some c)
    (hd : (m.setContext fd c').fdContexts[fd]? = some d) : d = c' := by
  obtain ⟨hfd, -⟩ := List.getElem?_eq_some_iff.mp hc
  rw [IOManager.setContext, List.getElem?_set_self hfd, Option.some.injEq] at hd
  exact hd.symm

/-- An `addEvent` that the kernel grants, where it takes effect. -/
theorem whole_granted {x : Adding} {r : Registration} (h : Represents R a)
    (hfd : intOfSize a.fdContexts.length > fd) (htickle : fd ≠ a.tickleFd) (he : x.event ≠ .none)
    (habsent : R (fd, x.event) = none) (hr : x.caller.registration x.cb = some r)
    (hrunning : x.caller.state = .running) :
    ∃ a', Whole a ⟨x.call fd, true, ⟨true, []⟩⟩ a' ∧
      Represents (Function.update R (fd, x.event) (some r)) a' ∧ a'.tickleFd = a.tickleFd ∧
      a'.interest =
        Function.update a.interest fd (some (epollEt ||| R.events fd ||| x.event.bits)) ∧
      a'.pendingEventCount = a.pendingEventCount + 1 ∧
      a'.fdContexts = a.fdContexts.set fd
        { (R.fdContext fd).setEventContext x.event (contextOf (some r)) with
          events := R.events fd ||| x.event.bits } := by
  have hadd := addEvent_whole h hfd htickle he habsent hr hrunning
  obtain ⟨hno, -⟩ | ⟨-, -, -, hchanges⟩ := h.toEncodes.addEvent hr hadd
  · cases hno
  refine ⟨_, ?_, h.of_changes hchanges, rfl, rfl, rfl, rfl⟩
  simp only [Whole, Adding.call, IOManager.perform, hadd]
  rfl

theorem writeEvents (h : Sim fd start s a R) (hrun : s.stopped = none)
    (hstep : writeEvents fd s e = some s') : ∃ a R, Sim fd start s' a R := by
  unfold AddRace.writeEvents at hstep
  obtain ⟨x, hx, hrest⟩ := Option.bind_eq_some_iff.mp hstep
  obtain ⟨rfl, he, hscheduler, hrunning, hfd⟩ := h.adding e x hx
  split at hrest
  swap
  · cases hrest
  rename_i hstage
  obtain ⟨c, hc, hret⟩ := Option.bind_eq_some_iff.mp hrest
  cases hret
  clear hstep hrest
  have hnot : x.stage ≠ .written := by simp [hstage]
  have hunfilled := not_unfilled hx hnot
  have habsent := h.absent _ x hx hnot
  obtain ⟨r, hr⟩ : ∃ r, x.caller.registration x.cb = some r :=
    Option.isSome_iff_exists.mp (by simp [Caller.registration, hscheduler])
  obtain ⟨a', hwhole, hrepresents, htickle, hinterest, hpending, hcontexts⟩ :=
    whole_granted h.represents (h.length ▸ hfd) h.notTickle he habsent hr hrunning
  have hseen : s.unseen x.event = true := by
    rw [State.unseen, hx, Option.any_some, Adding.unseen, hstage]
    rfl
  have hrecord := record_update fd he s.adds (some { x with stage := .written })
  have hcounts := counts_update he s.adds (some { x with stage := .written })
  rw [hx, record_of_ne hnot, record_of_eq rfl] at hrecord
  rw [hx, counts_of_eq hstage] at hcounts
  -- the call joins those that have taken effect
  have hperm : (s.done ++ held events (record fd) s.adds) ++ [⟨x.call fd, true, ⟨true, []⟩⟩] ~
      s.done ++ held events (record fd)
        (Function.update s.adds x.event (some { x with stage := .written })) := by
    rw [List.append_assoc]
    exact (List.perm_append_comm.trans hrecord.symm).append_left s.done
  refine ⟨a', Function.update R (fd, x.event) (some r), ?_⟩
  have hunseen {e' : Event} (he' : State.unseen
      { s with
        io := s.io.setContext fd { c with events := c.events ||| x.event.bits }
        adds := Function.update s.adds x.event (some { x with stage := .written }) } e' = true) :
      False := by
    rw [unseen_update rfl] at he'
    split at he'
    · cases he'
    · rename_i hne
      exact hne (h.alone e' x.event he' hseen)
  exact {
    represents := hrepresents
    serial := (h.serial.tail hwhole).perm hperm
    contexts := by
      have hnew := settleContext_written s.adds he (x := { x with stage := .written }) rfl c
        (c.events ||| x.event.bits)
      rw [settle_set s.adds, hnew, h.context hc, hcontexts, h.contexts, h.context_events hc, hr]
    tickleFd := h.tickleFd.trans htickle.symm
    notTickle := htickle ▸ h.notTickle
    pending := by
      have := h.pending
      simp only [counts, Option.toList_some, Option.toList_none, List.length_singleton,
        List.length_nil] at hcounts
      simp only [IOManager.setContext_pendingEventCount]
      omega
    seen := fun _ => (h.unseen x.event hseen).trans hinterest.symm
    unseen := fun e' he' => (hunseen he').elim
    alone := fun e' _ he' _ => (hunseen he').elim
    adding := by
      intro e' y hy
      rw [IOManager.setContext, List.length_set]
      rcases eq_or_ne e' x.event with rfl | hne
      · obtain rfl : { x with stage := .written } = y := by simpa using hy
        exact ⟨rfl, he, hscheduler, hrunning, hfd⟩
      · exact h.adding e' y (by simpa [hne] using hy)
    absent := by
      intro e' y hy hstage'
      rcases eq_or_ne e' x.event with rfl | hne
      · obtain rfl : { x with stage := .written } = y := by simpa using hy
        exact absurd rfl hstage'
      · rw [Function.update_of_ne fun heq => hne (congrArg Prod.snd heq)]
        exact h.absent e' y (by simpa [hne] using hy) hstage'
    empty := by
      intro e' y d hy hstage' hd
      rw [lookup_setContext hc hd, FdContext.getEventContext_events]
      rcases eq_or_ne e' x.event with rfl | hne
      · exact h.empty_of_not he hc hunfilled habsent
      · exact h.empty e' y c (by simpa [hne] using hy) hstage' hc
    succeeds := h.succeeds
    kept := by
      intro hall r' hr' e' hadd hgranted
      rcases List.mem_append.mp (hperm.mem_iff.mpr hr') with hbefore | hlast
      · rcases eq_or_ne e' x.event with rfl | hne
        · simp
        · rw [Function.update_of_ne fun heq => hne (congrArg Prod.snd heq)]
          exact h.kept hall r' hbefore e' hadd hgranted
      · obtain rfl := List.mem_singleton.mp hlast
        obtain ⟨caller, cb, hcall⟩ := hadd
        cases hcall
        simp
    blank := h.blank
    dropped := h.dropped
    stopped := not_stopped hrun }

/-! ## The filling -/

theorem fillContext (h : Sim fd start s a R) (hrun : s.stopped = none)
    (hstep : fillContext fd s e = some s') : Sim fd start s' a R := by
  unfold AddRace.fillContext at hstep
  obtain ⟨x, hx, hrest⟩ := Option.bind_eq_some_iff.mp hstep
  obtain ⟨rfl, he, hscheduler, hrunning, hfd⟩ := h.adding e x hx
  split at hrest
  swap
  · cases hrest
  rename_i hstage
  obtain ⟨c, hc, hrest'⟩ := Option.bind_eq_some_iff.mp hrest
  simp only [h.empty _ x c hx hstage hc, Option.bind_eq_bind, Option.bind_some, EventContext.empty,
    Option.isSome_none, Bool.false_eq_true, or_self, if_false] at hrest'
  have hs' : s' = { s with
      io := s.io.setContext fd
        (c.setEventContext x.event (contextOf (x.caller.registration x.cb)))
      adds := Function.update s.adds x.event none
      done := s.done ++ [⟨x.call fd, true, ⟨true, []⟩⟩] } := by
    obtain ⟨scheduler, hsome⟩ := Option.isSome_iff_exists.mp hscheduler
    cases hcb : x.cb with
    | some b =>
      simp only [hcb, hsome, Option.isSome_some, if_true] at hrest'
      cases hrest'
      simp only [Caller.registration, hsome, Option.map_some, contextOf]
    | none =>
      simp only [hcb, hsome, Option.isSome_none, Bool.false_eq_true, if_false] at hrest'
      cases hrest'
      simp only [Caller.registration, hsome, Option.map_some, contextOf]
  subst hs'
  clear hstep hrest hrest'
  have hrecord := record_update fd he s.adds none
  have hcounts := counts_update he s.adds none
  rw [hx, record_of_eq hstage] at hrecord
  rw [hx, counts_of_ne (by simp [hstage])] at hcounts
  -- the call has taken effect, and returns
  have hperm : (s.done ++ [⟨x.call fd, true, ⟨true, []⟩⟩]) ++
      held events (record fd) (Function.update s.adds x.event none) ~
        s.done ++ held events (record fd) s.adds := by
    rw [List.append_assoc]
    exact hrecord.append_left s.done
  have hunseen (e' : Event) : State.unseen
      { s with
        io := s.io.setContext fd
          (c.setEventContext x.event (contextOf (x.caller.registration x.cb)))
        adds := Function.update s.adds x.event none
        done := s.done ++ [⟨x.call fd, true, ⟨true, []⟩⟩] } e' = s.unseen e' := by
    rw [unseen_update rfl]
    split
    · rename_i heq
      rw [heq, State.unseen, hx, Option.any_some, Adding.unseen, hstage]
      rfl
    · rfl
  exact {
    represents := h.represents
    serial := h.serial.perm hperm.symm
    contexts := by
      have hget : (settle fd s.adds s.io).fdContexts[fd]? = some (settleContext s.adds c) := by
        rw [settle_lookup, hc]
        rfl
      obtain ⟨hlt, hget⟩ := List.getElem?_eq_some_iff.mp hget
      rw [settle_set s.adds, settleContext_filled he hx hstage, h.contexts, ← hget,
        List.set_getElem_self]
    tickleFd := h.tickleFd
    notTickle := h.notTickle
    pending := by
      have := h.pending
      simp only [counts, Option.toList_none, List.length_nil, Nat.zero_add] at hcounts
      simp only [IOManager.setContext_pendingEventCount, hcounts, this]
    seen := fun hall => h.seen fun e' => hunseen e' ▸ hall e'
    unseen := fun e' he' => h.unseen e' (hunseen e' ▸ he')
    alone := fun e' e'' he' he'' => h.alone e' e'' (hunseen e' ▸ he') (hunseen e'' ▸ he'')
    adding := by
      intro e' y hy
      rw [IOManager.setContext, List.length_set]
      rcases eq_or_ne e' x.event with rfl | hne
      · simp at hy
      · exact h.adding e' y (by simpa [hne] using hy)
    absent := by
      intro e' y hy hstage'
      rcases eq_or_ne e' x.event with rfl | hne
      · simp at hy
      · exact h.absent e' y (by simpa [hne] using hy) hstage'
    empty := by
      intro e' y d hy hstage' hd
      rcases eq_or_ne e' x.event with rfl | hne
      · simp at hy
      · rw [lookup_setContext hc hd, getEventContext_set_of_ne hne]
        exact h.empty e' y c (by simpa [hne] using hy) hstage' hc
    succeeds := by
      intro r hr e' hadd hgranted
      rcases List.mem_append.mp hr with hbefore | hlast
      · exact h.succeeds r hbefore e' hadd hgranted
      · rw [List.mem_singleton.mp hlast]
    kept := fun hall r hr => h.kept (fun r' hr' => hall r' (List.mem_append_left _ hr')) r
      (hperm.mem_iff.mp hr)
    blank := h.blank
    dropped := h.dropped
    stopped := not_stopped hrun }

end Sim

end AddRace
