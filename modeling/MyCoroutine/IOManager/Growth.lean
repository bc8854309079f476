-- SUMMARY: The table of contexts under addEvent: for which descriptors a call stays inside it, and what it keeps.
import MyCoroutine.IOManager.Operations

/-! # The table under addEvent

A descriptor beyond the table is to get a context from `contextResize`. The size
that `addEvent` asks for is the truth value `fd + fd > 1`, so the table shrinks to
at most one context. -/

namespace IOManager

open Counting

/-! ## contextResize -/

@[simp] theorem contextResize_length (m : IOManager) (size : Nat) :
    (m.contextResize size).fdContexts.length = size := by
  simp [contextResize]

/-- The manager whose table `addEvent` looks `fd` up in. -/
def located (m : IOManager) (fd : Nat) : IOManager :=
  if intOfSize m.fdContexts.length > fd then m
  else m.contextResize (if fd + fd > 1 then 1 else 0)

/-- Resizing never makes room for the descriptor it is done for. -/
theorem located_inside_iff (m : IOManager) (fd : Nat) :
    fd < (m.located fd).fdContexts.length ↔ fd < intOfSize m.fdContexts.length := by
  unfold located
  split
  · rename_i hint
    refine iff_of_true ?_ hint
    have := intOfSize_le m.fdContexts.length
    omega
  · rename_i hint
    rw [contextResize_length]
    refine iff_of_false ?_ hint
    split <;> omega

/-! ## What a call is to keep -/

/-- An `addEvent` with its arguments and the answer of the kernel. -/
structure Add where
  caller : Caller
  fd : Nat
  event : Event
  cb : Option CbId
  granted : Bool

def Add.call (a : Add) (m : IOManager) : Option (Int × IOManager) :=
  m.addEvent a.caller a.fd a.event a.cb a.granted

/-- `c'` is `c` with `event` registered: the other `EventContext` is untouched. -/
structure FdContext.Gains (c : FdContext) (event : Event) (c' : FdContext) : Prop where
  fd : c'.fd = c.fd
  events : c'.events = c.events ||| event.bits
  other : ∀ event', event' ≠ event → c'.getEventContext event' = c.getEventContext event'

/-- The table after an `addEvent` of `event` to `fd`, beside the one before. -/
structure Grows (m m' : IOManager) (fd : Nat) (event : Event) : Prop where
  covers : fd < m'.fdContexts.length
  length : m.fdContexts.length ≤ m'.fdContexts.length
  kept : ∀ (i : Nat) (c : FdContext), m.fdContexts[i]? = some c →
    ∃ c', m'.fdContexts[i]? = some c' ∧ (c' = c ∨ i = fd ∧ c.Gains event c')
  created : ∀ (i : Nat) (c : FdContext), m.fdContexts.length ≤ i → m'.fdContexts[i]? = some c →
    c = .new i ∨ i = fd ∧ (FdContext.new i).Gains event c

/-- A call looks its descriptor up inside the table and grows the table as it should. -/
structure AddsInside (m : IOManager) (a : Add) : Prop where
  inside : a.fd < (m.located a.fd).fdContexts.length
  grows : ∀ ret m', a.call m = some (ret, m') → Grows m m' a.fd a.event

/-! ## One call -/

variable {m m' : IOManager} {fd : Nat} {event : Event}

theorem FdContext.gains_setEventContext (c : FdContext) (event : Event) (ctx : EventContext) :
    c.Gains event
      ({ c with events := c.events ||| event.bits }.setEventContext event ctx) := by
  cases event with
  | none =>
    refine ⟨rfl, rfl, fun event' _ => ?_⟩
    cases event' <;> rfl
  | read =>
    refine ⟨rfl, rfl, fun event' hne => ?_⟩
    cases event' with
    | read => exact absurd rfl hne
    | write => rfl
    | none => rfl
  | write =>
    refine ⟨rfl, rfl, fun event' hne => ?_⟩
    cases event' with
    | read => rfl
    | write => exact absurd rfl hne
    | none => rfl

/-- A call inside the table leaves the table alone, or registers its event. -/
theorem addEvent_inside {caller : Caller} {cb : Option CbId} {granted : Bool} {ret : Int}
    (hint : intOfSize m.fdContexts.length > fd)
    (hop : m.addEvent caller fd event cb granted = some (ret, m')) :
    m' = m ∨ ∃ c c', m.fdContexts[fd]? = some c ∧ c.Gains event c' ∧
      m'.fdContexts = m.fdContexts.set fd c' := by
  unfold IOManager.addEvent at hop
  simp only [if_pos hint] at hop
  obtain ⟨c, hc, hrest⟩ := Option.bind_eq_some_iff.mp hop
  split at hrest
  · cases hrest
  split at hrest
  · cases hrest
    exact .inl rfl
  obtain ⟨ctx, -, hrest₁⟩ := Option.bind_eq_some_iff.mp hrest
  split at hrest₁
  · cases hrest₁
  split at hrest₁
  · cases hrest₁
    exact .inr ⟨c, _, hc, c.gains_setEventContext event _, rfl⟩
  · split at hrest₁ <;> cases hrest₁
    exact .inr ⟨c, _, hc, c.gains_setEventContext event _, rfl⟩

theorem Grows.refl (hfd : fd < m.fdContexts.length) : Grows m m fd event where
  covers := hfd
  length := Nat.le_refl _
  kept := fun _ c hc => ⟨c, hc, .inl rfl⟩
  created := fun _ _ hi hc => absurd (List.getElem?_eq_some_iff.mp hc).1 (Nat.not_lt_of_le hi)

theorem Grows.of_set {c c' : FdContext} (hc : m.fdContexts[fd]? = some c)
    (hgains : c.Gains event c') (htable : m'.fdContexts = m.fdContexts.set fd c') :
    Grows m m' fd event := by
  have hlength : m'.fdContexts.length = m.fdContexts.length := by rw [htable, List.length_set]
  have hfd : fd < m.fdContexts.length := (List.getElem?_eq_some_iff.mp hc).1
  refine ⟨hlength ▸ hfd, Nat.le_of_eq hlength.symm, fun i ci hci => ?_, fun i ci hi hci => ?_⟩
  · by_cases hne : fd = i
    · subst hne
      rw [hc] at hci
      cases hci
      exact ⟨c', by rw [htable, List.getElem?_set_self hfd], .inr ⟨rfl, hgains⟩⟩
    · exact ⟨ci, by rw [htable, List.getElem?_set_ne hne, hci], .inl rfl⟩
  · have := (List.getElem?_eq_some_iff.mp hci).1
    omega

/-- A call does all that it should exactly when its descriptor is below the size of
the table, read as an `int`. -/
theorem addsInside_iff_lt (m : IOManager) (a : Add) :
    AddsInside m a ↔ a.fd < intOfSize m.fdContexts.length := by
  rw [← located_inside_iff]
  refine ⟨fun h => h.inside, fun hinside => ⟨hinside, fun ret m' hop => ?_⟩⟩
  have hint := (located_inside_iff m a.fd).mp hinside
  have hfd : a.fd < m.fdContexts.length := by
    have := intOfSize_le m.fdContexts.length
    omega
  rcases addEvent_inside hint hop with rfl | ⟨c, c', hc, hgains, htable⟩
  · exact .refl hfd
  · exact .of_set hc hgains htable

/-! ## Tables made by the constructor and addEvent -/

/-- A new manager, and calls of `addEvent`. -/
def addSystem : TransitionSystem IOManager Add where
  init m := ∃ tickleFd, m = init tickleFd 32
  step m a := (a.call m).map Prod.snd

/-- No call changes the size of the table: one that would resize it does not return. -/
theorem length_of_reachable (h : addSystem.Reachable TransitionSystem.free m) :
    m.fdContexts.length = 32 := by
  have hstep : addSystem.Preserved TransitionSystem.free fun m => m.fdContexts.length = 32 := by
    intro m a m' hlength _ hstep
    simp only [addSystem] at hstep
    obtain ⟨⟨ret, m₁⟩, hop, rfl⟩ := Option.map_eq_some_iff.mp hstep
    by_cases hint : intOfSize m.fdContexts.length > a.fd
    · rcases addEvent_inside hint hop with rfl | ⟨c, c', -, -, htable⟩
      · exact hlength
      · rw [htable, List.length_set, hlength]
    · rw [Add.call, addEvent_outside hint] at hop
      cases hop
  refine hstep.reachable ?_ h
  rintro m ⟨tickleFd, rfl⟩
  exact contextResize_length ..

/-- On every table that the constructor and earlier calls made, a call stays inside
the table, and keeps and extends it as it should, exactly when its descriptor is
among the first 32. -/
theorem addsInside_iff (h : addSystem.Reachable TransitionSystem.free m) (a : Add) :
    AddsInside m a ↔ a.fd < 32 := by
  rw [addsInside_iff_lt, length_of_reachable h, intOfSize_eq (by decide)]
  exact Int.ofNat_lt

/-- A reader of the highest descriptor that the constructor made room for. -/
def lastRoom : Add where
  caller := ⟨some 0, .made 1, .running⟩
  fd := 31
  event := .read
  cb := none
  granted := true

/-- The same descriptor again, for the other event. -/
theorem addsInside_iff_lastRoom :
    ∃ m, addSystem.Reachable TransitionSystem.free m ∧ m.pendingEventCount = 1 ∧
      AddsInside m { lastRoom with event := .write } := by
  obtain ⟨m, hm, hp⟩ := TransitionSystem.Reachable.of_replay (T := addSystem)
    (G := TransitionSystem.free) (g := fun _ _ => true) (l := [lastRoom])
    (p := fun m => m.pendingEventCount == 1) (s := init 5 32) (fun _ _ _ => trivial) ⟨5, rfl⟩
    (by decide)
  exact ⟨m, hm, beq_iff_eq.mp hp, (addsInside_iff hm _).mpr (by decide)⟩

/-- The first descriptor beyond a new table: `contextResize(1)`, then `m_fdContexts[32]`. -/
theorem not_addsInside_firstBeyond :
    ¬ ∀ m, addSystem.Reachable TransitionSystem.free m → ∀ a, AddsInside m a := by
  intro hall
  have h := hall (init 5 32) (.of_init ⟨5, rfl⟩) { lastRoom with fd := 32 }
  have hinside := h.inside
  rw [located_inside_iff] at hinside
  revert hinside
  decide

end IOManager
