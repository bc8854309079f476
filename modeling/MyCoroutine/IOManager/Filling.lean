-- SUMMARY: The operations under the lock beside an addEvent: they commute with filling a context, and change nothing when they find nothing to end.
import MyCoroutine.IOManager.AddRace

/-! # Contexts that are still to be filled

An `addEvent` that has written `events` has taken effect: all that is left to do is to fill
the `EventContext`. `settle` does that at once. An operation that does not end the event
does the same before and after. -/

namespace AddRace

open Counting OneShot
open IOManager (Call Caller Event EventContext FdContext Outcome Registration Registry Represents
  contextOf realEvents)

variable {fd : Nat} {m m' : IOManager} {call : Call} {granted : Bool} {e : Event}
  {adds : Event → Option Adding} {out : Outcome}

/-! ## Filling -/

/-- The context of an event as the `addEvent` under way leaves it. -/
def filled (x : Option Adding) (ctx : EventContext) : EventContext :=
  match x with
  | some ⟨caller, _, cb, .written⟩ => contextOf (caller.registration cb)
  | _ => ctx

/-- Every context that is still to be filled is filled. -/
def settleContext (adds : Event → Option Adding) (c : FdContext) : FdContext :=
  { c with read := filled (adds .read) c.read, write := filled (adds .write) c.write }

def settle (fd : Nat) (adds : Event → Option Adding) (m : IOManager) : IOManager :=
  { m with fdContexts := m.fdContexts.modify fd (settleContext adds) }

/-- Its context is still to be filled. -/
def Unfilled (adds : Event → Option Adding) (e : Event) : Prop :=
  ∃ x, adds e = some x ∧ x.stage = .written

theorem State.unfilled_iff (s : State) : s.unfilled e = true ↔ Unfilled s.adds e := by
  simp only [State.unfilled, Option.any_eq_true, decide_eq_true_eq, Unfilled]

theorem filled_of_not (h : ¬ Unfilled adds e) (ctx : EventContext) : filled (adds e) ctx = ctx := by
  unfold filled
  split
  · rename_i caller event cb hadds
    exact absurd ⟨_, hadds, rfl⟩ h
  · rfl

theorem settleContext_getEventContext (h : ¬ Unfilled adds e) (c : FdContext) :
    (settleContext adds c).getEventContext e = c.getEventContext e := by
  cases e with
  | none => rfl
  | read => exact congrArg some (filled_of_not h c.read)
  | write => exact congrArg some (filled_of_not h c.write)

theorem settleContext_setEventContext (h : ¬ Unfilled adds e) (c : FdContext) (ctx : EventContext) :
    (settleContext adds c).setEventContext e ctx =
      settleContext adds (c.setEventContext e ctx) := by
  cases e with
  | none => rfl
  | read => simp [settleContext, FdContext.setEventContext, filled_of_not h]
  | write => simp [settleContext, FdContext.setEventContext, filled_of_not h]

theorem settleContext_triggerEvent (h : ¬ Unfilled adds e) (c : FdContext) :
    (settleContext adds c).triggerEvent e =
      (c.triggerEvent e).map fun r => (r.1, settleContext adds r.2) := by
  unfold FdContext.triggerEvent FdContext.resetEventContext
  by_cases hbit : c.events &&& e.bits = 0
  · rw [if_pos hbit, if_pos (show (settleContext adds c).events &&& e.bits = 0 from hbit)]
    rfl
  · rw [if_neg hbit, if_neg (show (settleContext adds c).events &&& e.bits ≠ 0 from hbit)]
    simp only [FdContext.getEventContext_events, settleContext_getEventContext h]
    cases c.getEventContext e with
    | none => rfl
    | some ctx =>
      cases hscheduler : ctx.scheduler with
      | none => simp [hscheduler]
      | some scheduler =>
        have hset :=
          settleContext_setEventContext h { c with events := c.events &&& ~~~e.bits } .empty
        simp only [Option.bind_eq_bind, Option.bind_some, hscheduler, Option.map_some,
          Option.pure_def]
        rw [← hset]
        rfl

@[simp] theorem settleContext_events (adds : Event → Option Adding) (c : FdContext) :
    (settleContext adds c).events = c.events := rfl
@[simp] theorem settleContext_fd (adds : Event → Option Adding) (c : FdContext) :
    (settleContext adds c).fd = c.fd := rfl

theorem modify_set {α : Type*} (l : List α) (i : Nat) (f g : α → α) (x : α) :
    (l.modify i f).set i (g x) = (l.set i x).modify i g := by
  apply List.ext_getElem?
  intro j
  by_cases hij : i = j
  · subst hij
    by_cases hi : i < l.length <;> simp [hi]
  · simp [hij]

@[simp] theorem settle_interest (fd : Nat) (adds : Event → Option Adding) (m : IOManager) :
    (settle fd adds m).interest = m.interest := rfl

theorem settle_lookup (fd : Nat) (adds : Event → Option Adding) (m : IOManager) :
    (settle fd adds m).fdContexts[fd]? = (m.fdContexts[fd]?).map (settleContext adds) := by
  simp [settle]

theorem settle_setContext (fd : Nat) (adds : Event → Option Adding) (m : IOManager)
    (c : FdContext) : (settle fd adds m).setContext fd (settleContext adds c) =
      settle fd adds (m.setContext fd c) := by
  simp only [IOManager.setContext, settle, modify_set]

theorem settle_trigger (h : ¬ Unfilled adds e) (m : IOManager) :
    (settle fd adds m).trigger fd e = (m.trigger fd e).map fun r => (r.1, settle fd adds r.2) := by
  unfold IOManager.trigger
  rw [settle_lookup]
  cases m.fdContexts[fd]? with
  | none => rfl
  | some c =>
    simp only [Option.map_some, Option.bind_eq_bind, Option.bind_some, settleContext_triggerEvent h]
    cases c.triggerEvent e with
    | none => rfl
    | some r =>
      simp only [Option.map_some, Option.bind_some, settle_setContext]
      rfl

theorem settle_triggerIf {mask : Mask} (h : mask &&& e.bits ≠ 0 → ¬ Unfilled adds e)
    (m : IOManager) :
    (settle fd adds m).triggerIf fd mask e =
      (m.triggerIf fd mask e).map fun r => (r.1, settle fd adds r.2) := by
  unfold IOManager.triggerIf
  split
  · rename_i hmask
    exact settle_trigger (h hmask) m
  · rfl

theorem settle_length (fd : Nat) (adds : Event → Option Adding) (m : IOManager) :
    (settle fd adds m).fdContexts.length = m.fdContexts.length := by
  simp [settle]

theorem epollCtl_granted {interest interest' : Nat → Option Mask} {op : EpollOp} {mask : Mask}
    (h : epollCtl interest op fd mask granted = some interest') : granted = true := by
  cases granted with
  | true => rfl
  | false => cases h

/-- What is checked before anything ends is read off `events` and the interest set. -/
theorem settle_ending {α : Type} {held : Mask → Mask} {ctl : Mask → Option (Nat → Option Mask)}
    {failed failed' : α} {go go' : FdContext → (Nat → Option Mask) → Option α} (f : α → α)
    (hfailed : failed' = f failed)
    (h : ∀ c interest, m.fdContexts[fd]? = some c → held c.events ≠ 0 →
      ctl c.events = some interest → go' (settleContext adds c) interest = (go c interest).map f) :
    (settle fd adds m).ending fd held ctl failed' go' =
      (m.ending fd held ctl failed go).map f := by
  subst hfailed
  cases hc : m.fdContexts[fd]? with
  | none =>
    have hlen := List.getElem?_eq_none_iff.mp hc
    rw [IOManager.ending_of_le hlen, IOManager.ending_of_le (by rwa [settle_length]),
      Option.map_some]
  | some c =>
    have hc' : (settle fd adds m).fdContexts[fd]? = some (settleContext adds c) := by
      rw [settle_lookup, hc, Option.map_some]
    rw [IOManager.ending_of_context hc, IOManager.ending_of_context hc', settleContext_events]
    split
    · rfl
    · rename_i hheld
      cases hctl : ctl c.events with
      | none => rfl
      | some interest => exact h c interest hc hheld hctl

theorem settle_delEvent {event : Event}
    (h : granted = true → ∀ c, m.fdContexts[fd]? = some c → ¬ Unfilled adds event) :
    (settle fd adds m).delEvent fd event granted =
      (m.delEvent fd event granted).map fun r => (r.1, settle fd adds r.2) := by
  rw [IOManager.delEvent_eq, IOManager.delEvent_eq]
  refine settle_ending (fun r => (r.1, settle fd adds r.2)) rfl fun c interest hc _ hctl => ?_
  have hfilled := h (epollCtl_granted hctl) c hc
  simp only [FdContext.getEventContext_events, settleContext_getEventContext hfilled,
    settleContext_events, Option.bind_eq_bind]
  cases c.getEventContext event with
  | none => rfl
  | some ctx =>
    simp only [Option.bind_some, Option.pure_def, Option.map_some]
    rw [FdContext.resetEventContext, FdContext.resetEventContext, ← settle_setContext,
      ← settleContext_setEventContext hfilled]
    rfl

theorem settle_cancelEvent {event : Event}
    (h : granted = true → ∀ c, m.fdContexts[fd]? = some c → ¬ Unfilled adds event) :
    (settle fd adds m).cancelEvent fd event granted =
      (m.cancelEvent fd event granted).map fun r => (r.1, r.2.1, settle fd adds r.2.2) := by
  rw [IOManager.cancelEvent_eq, IOManager.cancelEvent_eq]
  refine settle_ending (fun r => (r.1, r.2.1, settle fd adds r.2.2)) rfl
    fun c interest hc _ hctl => ?_
  have hfilled := h (epollCtl_granted hctl) c hc
  have htrigger : IOManager.trigger { settle fd adds m with interest := interest } fd event =
      (IOManager.trigger { m with interest := interest } fd event).map
        fun r => (r.1, settle fd adds r.2) :=
    settle_trigger hfilled { m with interest := interest }
  rw [htrigger]
  cases IOManager.trigger { m with interest := interest } fd event <;> rfl

theorem triggerEvent_events {c c' : FdContext} {t : IOManager.Trigger}
    (h : c.triggerEvent e = some (t, c')) : c'.events = c.events &&& ~~~e.bits := by
  unfold FdContext.triggerEvent at h
  split at h
  · cases h
  · obtain ⟨ctx, -, hrest⟩ := Option.bind_eq_some_iff.mp h
    obtain ⟨scheduler, -, hret⟩ := Option.bind_eq_some_iff.mp hrest
    cases hret
    cases e <;> rfl

theorem triggerIf_events {c c' : FdContext} {mask : Mask} {r : List IOManager.Trigger × IOManager}
    (h : m.triggerIf fd mask e = some r) (hc : m.fdContexts[fd]? = some c)
    (hc' : r.2.fdContexts[fd]? = some c') :
    c'.events = c.events ∨ c'.events = c.events &&& ~~~e.bits := by
  unfold IOManager.triggerIf IOManager.trigger at h
  split at h
  · simp only [hc, Option.bind_eq_bind, Option.bind_some] at h
    obtain ⟨⟨t, c₁⟩, htrigger, hret⟩ := Option.bind_eq_some_iff.mp h
    cases hret
    obtain ⟨hfd, -⟩ := List.getElem?_eq_some_iff.mp hc
    simp only [IOManager.setContext, List.getElem?_set_self hfd, Option.some.injEq] at hc'
    exact .inr (hc' ▸ triggerEvent_events htrigger)
  · cases h
    rw [hc] at hc'
    exact .inl (congrArg FdContext.events (Option.some.inj hc'.symm))

theorem settle_cancalAll
    (h : granted = true → ∀ c, m.fdContexts[fd]? = some c → ∀ e, Unfilled adds e →
      c.events &&& e.bits = 0) :
    (settle fd adds m).cancalAll fd granted =
      (m.cancalAll fd granted).map fun r => (r.1, r.2.1, settle fd adds r.2.2) := by
  rw [IOManager.cancalAll_eq, IOManager.cancalAll_eq]
  refine settle_ending (fun r => (r.1, r.2.1, settle fd adds r.2.2)) rfl
    fun c interest hc _ hctl => ?_
  have hfilled (e : Event) (he : c.events &&& e.bits ≠ 0) : ¬ Unfilled adds e :=
    fun hun => he (h (epollCtl_granted hctl) c hc e hun)
  have hread : IOManager.triggerIf { settle fd adds m with interest := interest } fd
      c.events .read = (IOManager.triggerIf { m with interest := interest } fd c.events
        .read).map fun r => (r.1, settle fd adds r.2) :=
    settle_triggerIf (hfilled .read) { m with interest := interest }
  rw [settleContext_events, hread]
  cases hr : IOManager.triggerIf { m with interest := interest } fd c.events .read with
  | none => rfl
  | some r =>
    simp only [Option.map_some, Option.bind_eq_bind, Option.bind_some, settle_lookup]
    cases hc' : r.2.fdContexts[fd]? with
    | none => rfl
    | some c' =>
      -- the first trigger leaves no bit that was not there
      have hwrite : c'.events &&& Event.write.bits ≠ 0 → ¬ Unfilled adds .write := by
        refine fun hbit => hfilled .write fun hzero => hbit ?_
        rcases triggerIf_events hr hc hc' with heq | heq
        · rw [heq, hzero]
        · rw [heq, BitVec.and_assoc, BitVec.and_comm (~~~_), ← BitVec.and_assoc, hzero]
          exact BitVec.zero_and
      simp only [Option.map_some, Option.bind_some, settleContext_events,
        settle_triggerIf hwrite]
      cases r.2.triggerIf fd c'.events .write with
      | none => rfl
      | some r' =>
        simp only [Option.map_some, Option.bind_some, settle_lookup]
        cases r'.2.fdContexts[fd]? with
        | none => rfl
        | some c'' =>
          simp only [Option.map_some, Option.bind_some]
          have hleft : (settleContext adds c'').events = c''.events := rfl
          by_cases hzero : c''.events = 0
          · rw [if_pos hzero, if_pos (hleft ▸ hzero)]
            rfl
          · rw [if_neg hzero, if_neg (hleft ▸ hzero)]
            rfl

theorem settle_idleEntry {mask : Mask}
    (h : granted = true → ∀ c, m.fdContexts[fd]? = some c → ∀ e, Unfilled adds e →
      realEvents c.events mask &&& e.bits = 0) :
    (settle fd adds m).idleEntry fd mask granted =
      (m.idleEntry fd mask granted).map fun r => (r.1, settle fd adds r.2) := by
  simp only [IOManager.idleEntry]
  rw [settle_lookup]
  cases hc : m.fdContexts[fd]? with
  | none => rfl
  | some c =>
    simp only [Option.map_some, Option.bind_eq_bind, Option.bind_some]
    have hevents : (settleContext adds c).events = c.events := rfl
    by_cases hmeet : c.events &&& realEvents c.events mask = 0
    · rw [if_pos hmeet, if_pos (hevents ▸ hmeet)]
      rfl
    rw [if_neg hmeet, if_neg (hevents ▸ hmeet)]
    rw [hevents, settleContext_fd, settle_interest]
    cases hctl : epollCtl m.interest
      (if c.events &&& ~~~realEvents c.events mask ≠ 0 then .mod else .del) c.fd
      (epollEt ||| c.events &&& ~~~realEvents c.events mask) granted with
    | none => rfl
    | some interest =>
      have hfilled (e : Event) (he : realEvents c.events mask &&& e.bits ≠ 0) : ¬ Unfilled adds e :=
        fun hun => he (h (epollCtl_granted hctl) c hc e hun)
      have hread : IOManager.triggerIf { settle fd adds m with interest := interest } fd
          (realEvents c.events mask) .read = (IOManager.triggerIf { m with interest := interest } fd
            (realEvents c.events mask) .read).map fun r => (r.1, settle fd adds r.2) :=
        settle_triggerIf (hfilled .read) { m with interest := interest }
      simp only [Option.bind_some]
      rw [hread]
      cases IOManager.triggerIf { m with interest := interest } fd (realEvents c.events mask)
        .read with
      | none => rfl
      | some r =>
        simp only [Option.map_some, Option.bind_some, settle_triggerIf (hfilled .write)]
        cases r.2.triggerIf fd (realEvents c.events mask) .write <;> rfl

theorem event_bits (he : e ≠ .none) : e.bits &&& e.bits ≠ 0 := by
  cases e with
  | none => exact absurd rfl he
  | read | write => decide

/-- An operation that ends no event whose context is still to be filled does the same before and
after the filling. -/
theorem settle_perform (hlocks : Locks fd call) (hnone : adds .none = none)
    (h : granted = true → ∀ c, m.fdContexts[fd]? = some c → ∀ e, Unfilled adds e →
      looksFor c.events call &&& e.bits = 0) :
    (settle fd adds m).perform call granted =
      (m.perform call granted).map fun r => (r.1, settle fd adds r.2) := by
  have hone {event : Event} (hlooks : ∀ events, looksFor events call = event.bits)
      (hgranted : granted = true) (c : FdContext) (hc : m.fdContexts[fd]? = some c) :
      ¬ Unfilled adds event := by
    intro hun
    have hzero := h hgranted c hc event hun
    rw [hlooks] at hzero
    obtain ⟨x, hx, -⟩ := hun
    refine event_bits ?_ hzero
    rintro rfl
    rw [hnone] at hx
    cases hx
  obtain ⟨rfl, hnot⟩ := hlocks
  cases call with
  | addEvent caller fd event cb => exact absurd rfl (hnot caller fd event cb)
  | delEvent fd event =>
    have hdel := settle_delEvent (hone fun _ => rfl)
    simp only [IOManager.perform, Call.fd] at hdel ⊢
    simp only [hdel, Option.map_map]
    rfl
  | cancelEvent fd event =>
    have hcancel := settle_cancelEvent (hone fun _ => rfl)
    simp only [IOManager.perform, Call.fd] at hcancel ⊢
    simp only [hcancel, Option.map_map]
    rfl
  | cancalAll fd =>
    have hcancel := settle_cancalAll h
    simp only [IOManager.perform, Call.fd] at hcancel ⊢
    simp only [hcancel, Option.map_map]
    rfl
  | idleEntry fd mask =>
    have hentry := settle_idleEntry h
    simp only [IOManager.perform, Call.fd] at hentry ⊢
    simp only [hentry, Option.map_map]
    rfl

/-! ## An operation that ends nothing -/

/-- What an operation returns that has nothing to end. -/
def nothingEnded : Call → Outcome
  | .idleEntry _ _ => ⟨true, []⟩
  | _ => ⟨false, []⟩

/-- It changes nothing, and all it asks for is `events`. -/
theorem perform_still (hlocks : Locks fd call) {c : FdContext} (hc : m.fdContexts[fd]? = some c)
    (hends : granted = true → c.events &&& looksFor c.events call = 0) :
    m.perform call granted =
      if reports c.events call = 0 then some (nothingEnded call, m) else none := by
  obtain ⟨rfl, hnot⟩ := hlocks
  have hrefused {interest : Nat → Option Mask} {op : EpollOp} {fd : Nat} {mask : Mask}
      (hmeet : c.events &&& looksFor c.events call ≠ 0) :
      epollCtl interest op fd mask granted = none := by
    cases granted with
    | true => exact absurd (hends rfl) hmeet
    | false => rfl
  cases call with
  | addEvent caller fd event cb => exact absurd rfl (hnot caller fd event cb)
  | delEvent fd event =>
    simp only [IOManager.perform, Call.fd, reports] at hc ⊢
    rw [IOManager.delEvent_eq, IOManager.ending_of_refused hc hrefused, if_pos trivial]
    rfl
  | cancelEvent fd event =>
    simp only [IOManager.perform, Call.fd, reports] at hc ⊢
    rw [IOManager.cancelEvent_eq, IOManager.ending_of_refused hc hrefused, if_pos trivial]
    rfl
  | cancalAll fd =>
    have hheld (hevents : c.events ≠ 0) : c.events &&& looksFor c.events (.cancalAll fd) ≠ 0 := by
      rwa [looksFor, BitVec.and_self]
    simp only [IOManager.perform, Call.fd, reports] at hc ⊢
    rw [IOManager.cancalAll_eq, IOManager.ending_of_refused hc fun h => hrefused (hheld h),
      if_pos trivial]
    rfl
  | idleEntry fd mask =>
    simp only [IOManager.perform, IOManager.idleEntry, Call.fd, reports] at hc ⊢
    simp only [hc, Option.bind_eq_bind, Option.bind_some,
      BitVec.and_comm (realEvents c.events mask)]
    by_cases hmeet : c.events &&& realEvents c.events mask = 0
    · rw [if_pos hmeet, if_pos hmeet]
      rfl
    · rw [if_neg hmeet, if_neg hmeet, hrefused hmeet]
      rfl

/-! ## An empty context stays empty -/

/-- An `addEvent` on a thread without a scheduler would fill its context with nothing. -/
def emptying (e : Event) : Event → Option Adding :=
  Function.update (fun _ => none) e (some ⟨⟨none, .made 0, .running⟩, e, none, .written⟩)

theorem settleContext_emptying (he : e ≠ .none) (c : FdContext) :
    settleContext (emptying e) c = c.setEventContext e .empty := by
  cases e with
  | none => exact absurd rfl he
  | read => rfl
  | write => rfl

theorem getEventContext_set (he : e ≠ .none) (c : FdContext) (ctx : EventContext) :
    (c.setEventContext e ctx).getEventContext e = some ctx := by
  cases e with
  | none => exact absurd rfl he
  | read => rfl
  | write => rfl

theorem set_of_getEventContext {c : FdContext} {ctx : EventContext}
    (h : c.getEventContext e = some ctx) : c.setEventContext e ctx = c := by
  cases e with
  | none => rfl
  | read | write =>
    cases h
    rfl

/-- An operation that does not end an event does not fill its context either. -/
theorem perform_empty (hlocks : Locks fd call) (he : e ≠ .none) {c c' : FdContext}
    (hends : granted = true → looksFor c.events call &&& e.bits = 0)
    (hc : m.fdContexts[fd]? = some c) (hempty : c.getEventContext e = some .empty)
    (h : m.perform call granted = some (out, m')) (hc' : m'.fdContexts[fd]? = some c') :
    c'.getEventContext e = some .empty := by
  have hsettle : settle fd (emptying e) m = m := by
    have hcontexts : m.fdContexts.modify fd (settleContext (emptying e)) = m.fdContexts := by
      apply List.ext_getElem?
      intro i
      by_cases hi : fd = i
      · subst hi
        simp [hc, settleContext_emptying he, set_of_getEventContext hempty]
      · simp [hi]
    rw [settle, hcontexts]
  have hperform : (settle fd (emptying e) m).perform call granted =
      (m.perform call granted).map fun r => (r.1, settle fd (emptying e) r.2) := by
    refine settle_perform hlocks (Function.update_of_ne he.symm ..) ?_
    rintro hgranted c₁ hc₁ e₁ ⟨x, hx, -⟩
    obtain rfl : e₁ = e := by
      by_contra hne
      rw [emptying, Function.update_of_ne hne] at hx
      cases hx
    rw [hc, Option.some.injEq] at hc₁
    exact hc₁ ▸ hends hgranted
  rw [hsettle, h, Option.map_some, Option.some.injEq, Prod.mk.injEq] at hperform
  rw [hperform.2, settle_lookup] at hc'
  obtain ⟨c₁, -, rfl⟩ := Option.map_eq_some_iff.mp hc'
  rw [settleContext_emptying he]
  exact getEventContext_set he c₁ .empty

end AddRace
