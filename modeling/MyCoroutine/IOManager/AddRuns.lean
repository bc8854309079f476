-- SUMMARY: The operations under the lock beside addEvent, and the order of whole calls that explains every run whose steps stay apart.
import MyCoroutine.IOManager.AddOrder

/-! # Runs of addEvent beside the other operations

While no `addEvent` is between its `epoll_ctl` and its write, an operation under the lock
does the same on both tables. While one is, the operation finds nothing to end and leaves
both as they are. So the tables stay matched in every run whose steps are `apart`, and when
nothing is under way they are equal. -/

namespace AddRace

open Counting OneShot
open IOManager (Call Caller Event EventContext FdContext Outcome Registration Registry Represents)
open scoped List

variable {fd : Nat} {s s' : State} {start a m : IOManager} {call : Call} {granted : Bool}
  {e : Event} {adds : Event → Option Adding} {R : Registry}

/-! ## What an operation finds -/

theorem reports_and (watched : Mask) (call : Call) (bits : Mask)
    (h : reports watched call &&& bits ≠ 0) : watched &&& bits ≠ 0 := by
  intro hzero
  apply h
  cases call with
  | idleEntry fd mask =>
    rw [reports, BitVec.and_assoc, hzero]
    exact BitVec.and_zero
  | addEvent | delEvent | cancelEvent | cancalAll => exact BitVec.zero_and

theorem et_and_bits (e : Event) : epollEt &&& e.bits = 0 := by
  cases e <;> decide

theorem bits_and_of_ne {e e' : Event} (h : e ≠ e') : e.bits &&& e'.bits = 0 := by
  revert h
  cases e <;> cases e' <;> decide

namespace Sim

/-- The kernel watches what is in `events`, and what is being added. -/
theorem not_drops (h : Sim fd start s a R) (hg : mayMeet fd s call granted) :
    drops fd s call = false := by
  rw [← Bool.not_eq_true]
  intro hdrops
  simp only [drops, Option.any_eq_true, List.any_eq_true, decide_eq_true_eq] at hdrops
  obtain ⟨c, hc, e, he, hreported, hbit⟩ := hdrops
  obtain ⟨watched, hwatched, hreports⟩ := (Option.any_eq_true _ _).mp hreported
  rw [decide_eq_true_eq] at hreports
  have hmet := reports_and watched call e.bits hreports
  rw [h.context_events hc] at hbit
  by_cases hall : ∀ e, s.unseen e = false
  · have hinterest := h.represents.interest fd h.notTickle
    rw [← h.seen hall, hwatched, Registry.interest] at hinterest
    split at hinterest
    · cases hinterest
    · rw [Option.some.inj hinterest, BitVec.and_or_distrib_right, et_and_bits, hbit] at hmet
      exact hmet BitVec.or_zero
  · simp only [not_forall, Bool.not_eq_false] at hall
    obtain ⟨e₀, hunseen⟩ := hall
    have hinterest := congrFun (h.unseen e₀ hunseen) fd
    rw [hwatched, Function.update_self, Option.some.injEq] at hinterest
    rw [hinterest, BitVec.and_or_distrib_right, BitVec.and_or_distrib_right, et_and_bits,
      hbit] at hmet
    rcases eq_or_ne e₀ e with rfl | hne
    · rw [((hg c hc e₀ he).1 hunseen).2] at hreported
      cases hreported
    · rw [bits_and_of_ne hne] at hmet
      exact hmet (by decide)

theorem not_meetsBlank (h : Sim fd start s a R) (hg : mayMeet fd s call granted) :
    meetsBlank fd s call granted = false := by
  rw [← Bool.not_eq_true]
  intro hmeets
  simp only [meetsBlank, Bool.and_eq_true, Option.any_eq_true, List.any_eq_true,
    decide_eq_true_eq] at hmeets
  obtain ⟨hgranted, c, hc, e, he, hbit, hempty⟩ := hmeets
  by_cases hunfilled : Unfilled s.adds e
  · have hflag := s.unfilled_iff.mpr hunfilled
    rw [BitVec.and_assoc, (hg c hc e he).2 hflag hgranted] at hbit
    exact hbit BitVec.and_zero
  · -- a context that needs no filling is empty only where nothing is registered
    have hne := mem_events.mp he
    rw [← settleContext_getEventContext hunfilled, h.context hc,
      R.fdContext_getEventContext hne, Option.some.injEq] at hempty
    have hnone : R (fd, e) = none := IOManager.contextOf_injective hempty
    rw [BitVec.and_assoc, BitVec.and_comm (looksFor _ _), ← BitVec.and_assoc, h.context_events hc,
      (R.events_and_bits fd hne).mpr hnone] at hbit
    exact hbit BitVec.zero_and

/-- While an `addEvent` is between its `epoll_ctl` and its write, an operation ends nothing. -/
theorem handle_still (h : Sim fd start s a R) (hlocks : Locks fd call)
    (hg : mayMeet fd s call granted) (hunseen : s.unseen e = true) :
    (s.io.perform call granted = some (nothingEnded call, s.io) ∧
        Whole a ⟨call, granted, nothingEnded call⟩ a) ∨
      (s.io.perform call granted = none ∧ a.perform call granted = none) := by
  obtain ⟨x, hx⟩ : ∃ x, s.adds e = some x := by
    cases hadds : s.adds e with
    | none =>
      rw [State.unseen, hadds] at hunseen
      cases hunseen
    | some x => exact ⟨x, rfl⟩
  obtain ⟨c, hc⟩ := h.exists_context hx
  have hends := ((hg c hc e (mem_events.mpr (h.adding e x hx).2.1)).1 hunseen).1
  have hca : a.fdContexts[fd]? = some (settleContext s.adds c) := by
    rw [h.contexts, settle_lookup, hc]
    rfl
  have hio := perform_still hlocks hc hends
  have ha := perform_still hlocks hca hends
  rw [settleContext_events] at ha
  by_cases hreports : reports c.events call = 0
  · rw [if_pos hreports] at hio ha
    exact .inl ⟨hio, ha⟩
  · rw [if_neg hreports] at hio ha
    exact .inr ⟨hio, ha⟩

/-- While there is none, `a` is the table with the contexts filled. -/
theorem eq_settle (h : Sim fd start s a R) (hall : ∀ e, s.unseen e = false) :
    a = settle fd s.adds s.io := by
  have hcounts : held events counts s.adds = [] := by
    refine held_eq_nil.mpr fun e _ => ?_
    have hunseen := hall e
    rw [State.unseen] at hunseen
    cases hx : s.adds e with
    | none => rfl
    | some x =>
      rw [hx, Option.any_some, Adding.unseen] at hunseen
      refine counts_of_ne fun hstage => ?_
      simp [hstage] at hunseen
  have hpending := h.pending
  rw [hcounts] at hpending
  calc a
      _ = ⟨a.tickleFd, a.pendingEventCount, a.fdContexts, a.interest⟩ := rfl
      _ = settle fd s.adds s.io := by
        rw [h.contexts, ← h.tickleFd, ← h.seen hall, ← hpending.trans (Nat.add_zero _)]
        rfl

end Sim

/-! ## One operation -/

namespace Sim

theorem not_adds (hlocks : Locks fd call) (out : Outcome) (e : Event) :
    ¬ Record.Adds fd ⟨call, granted, out⟩ e := by
  rintro ⟨caller, cb, hcall⟩
  exact hlocks.2 caller fd e cb hcall

/-- The operation does the same on both tables. -/
theorem performs (h : Sim fd start s a R) (hrun : s.stopped = none) (hlocks : Locks fd call)
    (hg : mayMeet fd s call granted) (hall : ∀ e, s.unseen e = false) {out : Outcome}
    {io : IOManager} (hop : s.io.perform call granted = some (out, io))
    (hwhole : Whole a ⟨call, granted, out⟩ (settle fd s.adds io)) :
    ∃ R', Sim fd start { s with io := io, done := s.done ++ [⟨call, granted, out⟩] }
      (settle fd s.adds io) R' := by
  have hadded : out.added call = [] ∧ call.Proper := by
    cases call with
    | addEvent caller fd' event cb => exact absurd rfl (hlocks.2 caller fd' event cb)
    | delEvent | cancelEvent | cancalAll | idleEntry => exact ⟨rfl, trivial⟩
  obtain ⟨R', hlogs⟩ := h.represents.toEncodes.perform hadded.2 hwhole
  have hlength : io.fdContexts.length = s.io.fdContexts.length := by
    rw [← settle_length fd s.adds io, hlogs.length, h.length]
  have hperm := returned_perm s.done (held events (record fd) s.adds) ⟨call, granted, out⟩
  have hcounts : held events counts s.adds = [] := by
    have := h.pending
    rw [h.eq_settle hall] at this
    have hzero : (held events counts s.adds).length = 0 := by
      simp only [settle] at this
      omega
    exact List.length_eq_zero_iff.mp hzero
  have hseen {e : Event} (he : s.unseen e = true) : False := by
    rw [hall e] at he
    cases he
  exact ⟨R', {
    represents := h.represents.of_logs hlogs
    serial := (h.serial.tail hwhole).perm hperm
    contexts := rfl
    tickleFd := rfl
    notTickle := hlogs.tickle ▸ h.notTickle
    pending := by
      simp only [hcounts, List.length_nil]
      rfl
    seen := fun _ => rfl
    unseen := fun e he => (hseen he).elim
    alone := fun e _ he _ => (hseen he).elim
    adding := by
      intro e x hx
      rw [hlength]
      exact h.adding e x hx
    absent := by
      intro e x hx hstage
      by_contra hsome
      obtain ⟨r, hr⟩ := Option.ne_none_iff_exists'.mp hsome
      rcases hlogs.before hr with hbefore | hadd
      · rw [h.absent e x hx hstage] at hbefore
        cases hbefore
      · rw [hadded.1] at hadd
        cases hadd
    empty := by
      intro e x c hx hstage hc
      have hne := (h.adding e x hx).2.1
      obtain ⟨d, hd⟩ := h.exists_context hx
      refine perform_empty hlocks hne ?_ hd (h.empty e x d hx hstage hd) hop hc
      exact (hg d hd e (mem_events.mpr hne)).2 (s.unfilled_iff.mpr ⟨x, hx, hstage⟩)
    succeeds := by
      intro r hr e hadd hgranted
      rcases List.mem_append.mp hr with hbefore | hlast
      · exact h.succeeds r hbefore e hadd hgranted
      · obtain rfl := List.mem_singleton.mp hlast
        exact absurd hadd (not_adds hlocks out e)
    kept := by
      intro honly
      obtain ⟨e, hadd⟩ := honly _ (List.mem_append_right _ (List.mem_singleton_self _))
      exact absurd hadd (not_adds hlocks out e)
    blank := h.blank
    dropped := h.dropped
    stopped := not_stopped hrun }⟩

theorem handle (h : Sim fd start s a R) (hrun : s.stopped = none)
    (hg : mayMeet fd s call granted) (hstep : handle fd s call granted = some s') :
    ∃ a R, Sim fd start s' a R := by
  unfold AddRace.handle at hstep
  split at hstep
  swap
  · cases hstep
  rename_i hlocks
  simp only [h.not_meetsBlank hg, h.not_drops hg, Bool.or_false] at hstep
  by_cases hall : ∀ e, s.unseen e = false
  · have hsettle : (settle fd s.adds s.io).perform call granted =
        (s.io.perform call granted).map fun r => (r.1, settle fd s.adds r.2) := by
      refine settle_perform hlocks ?_ ?_
      · cases hadds : s.adds .none with
        | none => rfl
        | some x => exact absurd rfl (h.adding .none x hadds).2.1
      · rintro hgranted c hc e ⟨x, hx, hstage⟩
        have he := mem_events.mpr (h.adding e x hx).2.1
        exact (hg c hc e he).2 (s.unfilled_iff.mpr ⟨x, hx, hstage⟩) hgranted
    rw [← h.eq_settle hall] at hsettle
    cases hop : s.io.perform call granted with
    | none =>
      rw [hop] at hstep hsettle
      cases hstep
      exact ⟨a, R, h.stops hsettle⟩
    | some r =>
      obtain ⟨out, io⟩ := r
      rw [hop] at hstep hsettle
      cases hstep
      exact ⟨_, h.performs hrun hlocks hg hall hop hsettle⟩
  · simp only [not_forall, Bool.not_eq_false] at hall
    obtain ⟨e, hunseen⟩ := hall
    rcases h.handle_still hlocks hg hunseen with ⟨hio, ha⟩ | ⟨hio, ha⟩
    · rw [hio] at hstep
      cases hstep
      exact ⟨a, R, h.returns _ ha (.inr (not_adds hlocks _))⟩
    · rw [hio] at hstep
      cases hstep
      exact ⟨a, R, h.stops ha⟩

/-! ## Runs -/

theorem step {label : Label} (h : Sim fd start s a R) (hg : apart fd s label)
    (hstep : step fd s label = some s') : ∃ a R, Sim fd start s' a R := by
  unfold AddRace.step at hstep
  split at hstep
  · cases hstep
  rename_i hrun
  rw [Bool.not_eq_true, Option.isSome_eq_false_iff, Option.isNone_iff_eq_none] at hrun
  cases label with
  | read caller event cb => exact ⟨a, R, h.readEvents hrun hstep⟩
  | ctl event granted => exact ⟨a, R, h.epollCtlStep hrun hg hstep⟩
  | count event => exact ⟨a, R, h.count hrun hstep⟩
  | write event => exact h.writeEvents hrun hstep
  | fill event => exact ⟨a, R, h.fillContext hrun hstep⟩
  | handle call granted => exact h.handle hrun hg hstep

theorem record_none (fd : Nat) (h : ∀ e, s.adds e = none) : held events (record fd) s.adds = [] :=
  held_eq_nil.mpr fun e _ => by rw [h e]; rfl

theorem settle_none (h : ∀ e, adds e = none) : settle fd adds m = m := by
  have hcontext : settleContext adds = id := by
    funext c
    simp only [settleContext, h, filled]
    rfl
  rw [settle, hcontext, List.modify_id]

theorem unseen_none (h : ∀ e, s.adds e = none) (e : Event) : s.unseen e = false := by
  rw [State.unseen, h e]
  rfl

theorem of_initial (h : Initial fd s) : ∃ R, Sim fd s.io s s.io R := by
  obtain ⟨R, hR⟩ := h.io
  have hnone {e : Event} {x : Adding} (hx : s.adds e = some x) : False := by
    rw [h.adds e] at hx
    cases hx
  have hseen {e : Event} (he : s.unseen e = true) : False := by
    rw [unseen_none h.adds e] at he
    cases he
  have hcounts : held events counts s.adds = [] :=
    held_eq_nil.mpr fun e _ => by rw [h.adds e]; rfl
  have hrecord := record_none fd h.adds
  exact ⟨R, {
    represents := hR
    serial := by
      rw [h.done, hrecord]
      exact .refl Whole s.io
    contexts := by rw [settle_none h.adds]
    tickleFd := rfl
    notTickle := h.tickleFd
    pending := by rw [hcounts]; rfl
    seen := fun _ => rfl
    unseen := fun _ he => (hseen he).elim
    alone := fun _ _ he _ => (hseen he).elim
    adding := fun _ _ hx => (hnone hx).elim
    absent := fun _ _ hx => (hnone hx).elim
    empty := fun _ _ _ hx => (hnone hx).elim
    succeeds := by
      rw [h.done]
      exact nofun
    kept := by
      rw [h.done, hrecord]
      exact fun _ => nofun
    blank := h.blank
    dropped := h.dropped
    stopped := by
      rw [h.stopped]
      exact nofun }⟩

/-- With nothing under way the two tables are one. -/
theorem eq_of_none (h : Sim fd start s a R) (hnone : ∀ e, s.adds e = none) : a = s.io := by
  rw [h.eq_settle (unseen_none hnone), settle_none hnone]

theorem explained (h : Sim fd start s a R) : Explained fd start s where
  serial := by
    intro hnone
    have hserial := h.serial
    rw [record_none fd hnone, List.append_nil, h.eq_of_none hnone] at hserial
    exact hserial
  succeeds := h.succeeds
  registered := by
    intro hnone honly r hr e hadd hgranted
    have hsome := h.kept honly r (List.mem_append_left _ hr) e hadd hgranted
    rw [← h.eq_of_none hnone, h.represents.registered (IOManager.mem_slots.mpr
      (h.represents.outside fd e hsome))]
    exact Option.isSome_iff_ne_none.mpr hsome
  blank := h.blank
  dropped := h.dropped
  stopped := by
    intro call granted hstopped
    refine ⟨held events (record fd) s.adds, a, ?_, h.serial, h.stopped call granted hstopped⟩
    intro r hr
    obtain ⟨e, -, hrecord⟩ := mem_held.mp hr
    cases hx : s.adds e with
    | none =>
      rw [hx] at hrecord
      cases hrecord
    | some x =>
      by_cases hstage : x.stage = .written
      · rw [hx, record_of_eq hstage] at hrecord
        cases hrecord
        exact ⟨e, x, hx, rfl⟩
      · rw [hx, record_of_ne hstage] at hrecord
        cases hrecord

end Sim

/-- Whatever the order of the steps of `addEvent` on one descriptor and of the operations
beside it, as long as they stay apart, the run is explained. -/
theorem explained_of_path {s₀ : State} (h₀ : Initial fd s₀)
    (h : (system fd).Path (apart fd) s₀ s) : Explained fd s₀.io s := by
  have hpreserved : (system fd).Preserved (apart fd) fun s => ∃ a R, Sim fd s₀.io s a R := by
    rintro s label s' ⟨a, R, hs⟩ hg hstep
    exact hs.step hg hstep
  obtain ⟨a, R, hs⟩ := hpreserved.path h ⟨s₀.io, Sim.of_initial h₀⟩
  exact hs.explained

/-- A new manager with a table of 32 contexts, whose pipe is 5. -/
def fresh : State where
  io := .init 5 32
  adds _ := none
  done := []
  blank := false
  dropped := false
  stopped := none

theorem fresh_initial : Initial 6 fresh where
  io := ⟨_, IOManager.init_represents 5 32⟩
  tickleFd := by decide
  adds _ := rfl
  done := rfl
  blank := rfl
  dropped := rfl
  stopped := rfl

/-- Both events are added while others come and go: a `cancelEvent` before the first write finds
nothing, and the first event is reported before the second context is filled. -/
def apartRun : List Label :=
  let caller (f : Nat) : Caller := ⟨some 0, .made f, .running⟩
  [.read (caller 1) .read none, .ctl .read true, .handle (.cancelEvent 6 .write) true, .count .read,
    .write .read, .read (caller 2) .write none, .ctl .write true, .fill .read, .count .write,
    .write .write, .handle (.idleEntry 6 epollIn) true, .fill .write]

theorem explained_of_path_apartRun :
    ∃ s, (system 6).Path (apart 6) fresh s ∧ s.done.map (·.out.ok) = [false, true, true, true] ∧
      s.io.registered (6, .read) = false ∧ s.io.registered (6, .write) = true ∧
      Explained 6 fresh.io s := by
  have hrun : ((system 6).replay (fun s label => decide (apart 6 s label)) fresh apartRun).any
      (fun s => s.done.map (·.out.ok) == [false, true, true, true] &&
        !s.io.registered (6, .read) && s.io.registered (6, .write)) = true := by
    decide
  obtain ⟨s, hs, hp⟩ := (Option.any_eq_true _ _).mp hrun
  simp only [Bool.and_eq_true, beq_iff_eq, Bool.not_eq_true'] at hp
  have hpath := TransitionSystem.Path.of_replay (fun _ _ h => of_decide_eq_true h) hs
  exact ⟨s, hpath, hp.1.1, hp.1.2, hp.2, explained_of_path fresh_initial hpath⟩

/-- Two `addEvent`s for the two events both find `events` empty. -/
def bothAddRun : List Label :=
  let caller (f : Nat) : Caller := ⟨some 0, .made f, .running⟩
  [.read (caller 1) .read none, .read (caller 2) .write none, .ctl .read true, .ctl .write true]

/-- The second `EPOLL_CTL_ADD` fails, and so does its `addEvent`. -/
theorem not_explained_bothAddRun :
    ¬ ∀ s, (system 6).Path TransitionSystem.free fresh s → Explained 6 fresh.io s := by
  intro hall
  have hrun : ((system 6).replay (fun _ _ => true) fresh bothAddRun).any (fun s =>
      s.done == [⟨.addEvent ⟨some 0, .made 2, .running⟩ 6 .write none, true, ⟨false, []⟩⟩]) =
        true := by
    decide
  obtain ⟨s, hs, hp⟩ := (Option.any_eq_true _ _).mp hrun
  have hexplained := hall s (TransitionSystem.Path.of_replay (fun _ _ _ => trivial) hs)
  have hok := hexplained.succeeds ⟨.addEvent ⟨some 0, .made 2, .running⟩ 6 .write none, true,
    ⟨false, []⟩⟩ (by rw [beq_iff_eq.mp hp]; exact List.mem_singleton_self _) .write ⟨_, _, rfl⟩ rfl
  cases hok

/-- A report between the `epoll_ctl` and the write is lost, and a handler between the write and
the filling meets an empty context. -/
example :
    let caller : Caller := ⟨some 0, .made 1, .running⟩
    let early := [.read caller .read none, .ctl .read true, .handle (.idleEntry 6 epollIn) true]
    let late := [.read caller .read none, .ctl .read true, .count .read, .write .read,
      .handle (.cancelEvent 6 .read) true]
    (((system 6).replay (fun _ _ => true) fresh early).any State.dropped &&
      ((system 6).replay (fun _ _ => true) fresh late).any State.blank) = true := by
  decide

end AddRace
