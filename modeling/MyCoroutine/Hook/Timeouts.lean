-- SUMMARY: The timeouts that setsockopt sets, and the timers that later calls arm for them.
import MyCoroutine.Hook.Requests

/-! # Timeouts

`setsockopt` keeps a timeout in the `FdCtx` of the socket, in milliseconds. A read-type
or write-type call takes the one for its direction from there, and arms a timer of
that length when it meets `EAGAIN`, unless it is -1. -/

namespace Hook

open TransitionSystem (free Reachable.of_replay Path)

variable {p p' : Process} {c : Call} {w : World} {fd : Int} {s s' : State}

/-! ## The timer of a wait -/

/-- The timer that `do_io` arms for a timeout, if any. -/
def armed (timeout : Int) : Option Int :=
  if timeout = -1 then none else some timeout

theorem DoIo.Config.armTimer_eq (c : DoIo.Config) (s : DoIo.State) (a : Nat) (now : Int) :
    c.armTimer s a now =
      match armed c.timeout with
      | none => some { s with pc := .register }
      | some ms =>
        if s.eagainAt ≤ now ∧ now ≤ s.clock then
          (s.timers.addTimer a now ms (some (.timeout s.wait)) false).map fun r =>
            { s with pc := .register, timers := r.2, timer := some a }
        else none := by
  unfold DoIo.Config.armTimer armed
  split <;> rfl

/-! ## Sockets that stay open -/

/-- The history neither sets the option of `fd` nor closes `fd`. -/
def Leaves (fd optname : Int) (_ : State) : Act → Prop
  | .call (.close fd') _ => fd' ≠ fd
  | .call (.setsockopt fd' level optname' _ _) _ =>
    ¬ (fd' = fd ∧ level = solSocket ∧ optname' = optname)
  | _ => True

theorem asked_isSome {mode : Int → Option Bool} {n : Int} (hc : c ≠ .close fd)
    (h : (mode fd).isSome) : (asked c n mode fd).isSome := by
  have hupdate (fd' : Int) {m : Option Bool} (hm : fd' = fd → m.isSome) :
      (Function.update mode fd' m fd).isSome := by
    rcases eq_or_ne fd' fd with rfl | hne
    · rw [Function.update_self]
      exact hm rfl
    · rw [Function.update_of_ne hne.symm]
      exact h
  have hmap (fd' : Int) (g : Bool → Bool) :
      (Function.update mode fd' ((mode fd').map g) fd).isSome := by
    apply hupdate
    rintro rfl
    rw [Option.isSome_map]
    exact h
  unfold asked
  split
  · rename_i fd'
    apply hupdate
    rintro rfl
    exact absurd rfl hc
  · split
    · exact h
    · exact hupdate _ fun _ => rfl
  · split
    · exact h
    · exact hupdate _ fun _ => rfl
  · split
    · exact h
    · exact hmap ..
  · split
    · exact h
    · exact hmap ..
  · exact h

theorem replied_isSome {r : Reply × Process} (hc : c ≠ .close fd) (h : (s.mode fd).isSome) :
    ((s.replied c r).mode fd).isSome := by
  unfold State.replied
  split
  · exact asked_isSome hc h
  all_goals exact h

theorem quiet_isSome (hstep : s.step (.call c w) = some s') (hc : c.Quiet)
    (h : (s.mode fd).isSome) : (s'.mode fd).isSome := by
  obtain ⟨r, -, rfl⟩ := Option.map_eq_some_iff.mp hstep
  exact replied_isSome (hc.ne_close fd) h

theorem leaves_step {optname : Int} {a : Act} (h : (s.mode fd).isSome)
    (hg : Leaves fd optname s a) (hstep : s.step a = some s') (hs : s.Known) :
    (s'.mode fd).isSome := by
  cases a with
  | call c w =>
    obtain ⟨r, hr, rfl⟩ := Option.map_eq_some_iff.mp hstep
    apply replied_isSome _ h
    rintro rfl
    exact hg rfl
  | finish c w =>
    simp only [State.step] at hstep
    split at hstep
    · rename_i hc
      obtain ⟨t, ht⟩ := hs.waiting c hc
      obtain ⟨r, hr, rfl⟩ := Option.map_eq_some_iff.mp hstep
      exact replied_isSome ((Call.quiet_of_transfer ht).ne_close fd) h
    · cases hstep
  | reflag fd' flags =>
    simp only [State.step] at hstep
    split at hstep
    · cases hstep
      exact h
    · cases hstep

theorem open_of_leaves {optname : Int} (hs : s.Known) (h : (s.mode fd).isSome)
    (hpath : histories.Path (Leaves fd optname) s s') : s'.Known ∧ (s'.mode fd).isSome := by
  have hpreserved := (known_preserved (Leaves fd optname)).and_of
    (I := fun s => (s.mode fd).isSome) fun s a t hs h hg hstep => leaves_step h hg hstep hs
  exact hpreserved.path hpath ⟨hs, h⟩

/-! ## The timeouts that are heeded -/

/-- The timer that the user asked for: none for zero, which means no timeout. -/
def expected (sec usec : Int) : Option Int :=
  if sec = 0 ∧ usec = 0 then none else some (sec * 1000 + usec / 1000)

/-- In `after`, a call on `fd` in the direction of `optname` waits as `sec` and `usec`
say, and one in the other direction as it would have in `before`. -/
def Heeds (fd optname sec usec : Int) (before after : Process) : Prop :=
  ∀ (w : World) (c : Call) (t : Transfer), c.transfer = some t → t.fd = fd →
    ∃ timeout p', invoke w.env c after = some (.loops .doIo t.event timeout, p') ∧
      (t.timeoutSo = optname → armed timeout = expected sec usec) ∧
      (t.timeoutSo ≠ optname →
        ∃ timeout₀ q, invoke w.env c before = some (.loops .doIo t.event timeout₀, q) ∧
          armed timeout = armed timeout₀)

theorem State.Known.not_heeds (hs : s.Known) (hfd : (s.mode fd).isSome) {optname sec usec : Int}
    (hopt : optname = FdCtx.soRcvtimeo ∨ optname = soSndtimeo) (hset : ¬ (sec = 0 ∧ usec = 0))
    (before : Process) : ¬ Heeds fd optname sec usec before s.process := by
  intro h
  obtain ⟨hin, hsocket⟩ := hs.tracked fd hfd
  -- some call in that direction arms no timer
  have hnone (c : Call) (t : Transfer) (hc : c.transfer = some t) (ht : t.fd = fd)
      (hdirection : t.timeoutSo = optname) : False := by
    subst ht
    obtain ⟨timeout, p', hinvoke, hheeds, -⟩ := h (.answering 0) c t hc rfl
    rw [transfer_inside hs.process.toSteady rfl hc hin hsocket] at hinvoke
    cases hinvoke
    have harmed := hheeds hdirection
    rw [expected, if_neg hset] at harmed
    cases harmed
  rcases hopt with rfl | rfl
  · exact hnone (.read fd 0 0) ⟨fd, .read, FdCtx.soRcvtimeo⟩ rfl rfl rfl
  · exact hnone (.write fd 0 0) ⟨fd, .write, soSndtimeo⟩ rfl rfl rfl

/-- A timeout that `setsockopt` sets on a socket of the user's is heeded by later
calls exactly when it is zero: what a lookup finds has forgotten any other. -/
theorem heeds_iff {s₀ s₁ s₂ : State} (h : histories.Reachable free s₀) {mode : Bool}
    (hfd : s₀.mode fd = some mode) {optname : Int}
    (hopt : optname = FdCtx.soRcvtimeo ∨ optname = soSndtimeo) {sec usec : Int} {optlen : Word}
    (hset : s₀.step (.call (.setsockopt fd solSocket optname (.timeval sec usec) optlen) w) =
      some s₁) (hpath : histories.Path (Leaves fd optname) s₁ s₂) :
    Heeds fd optname sec usec s₀.process s₂.process ↔ sec = 0 ∧ usec = 0 := by
  have hs₀ := known_of_reachable h
  have hopen₀ : (s₀.mode fd).isSome := hfd ▸ rfl
  have hopen₁ := quiet_isSome hset trivial hopen₀
  obtain ⟨hs₂, hopen₂⟩ := open_of_leaves (hs₀.step hset) hopen₁ hpath
  constructor
  · intro hheeds
    by_contra hnonzero
    exact hs₂.not_heeds hopen₂ hopt hnonzero s₀.process hheeds
  · rintro hzero w c t hc rfl
    obtain ⟨hin, hsocket⟩ := hs₂.tracked t.fd hopen₂
    obtain ⟨hin₀, hsocket₀⟩ := hs₀.tracked t.fd hopen₀
    refine ⟨-1, _, transfer_inside hs₂.process.toSteady rfl hc hin hsocket, ?_, ?_⟩
    · intro
      rw [expected, if_pos hzero]
      rfl
    · intro
      exact ⟨-1, _, transfer_inside hs₀.process.toSteady rfl hc hin₀ hsocket₀, rfl⟩

/-! Descriptor 3 is made by `socket`; then a receive timeout of two and a half seconds is set. -/

def setRecvTimeout (sec usec : Int) : Act :=
  .call (.setsockopt 3 solSocket FdCtx.soRcvtimeo (.timeval sec usec) 16) (.answering 0)

theorem settable_recvTimeout (sec usec : Int) :
    ∃ s₀ s₁ : State, histories.Reachable free s₀ ∧ s₀.mode 3 = some false ∧
      s₀.step (setRecvTimeout sec usec) = some s₁ := by
  obtain ⟨s₀, hs₀, hmode⟩ := Reachable.of_replay (T := histories) (G := free)
    (g := fun _ _ => true) (fun _ _ _ => trivial) (l := [.call (.socket 2 1 0) (.answering 3)])
    (p := fun s => s.mode 3 = some false) fresh_init (by decide)
  have hm := of_decide_eq_true hmode
  have hs := known_of_reachable hs₀
  have hopen : (s₀.mode 3).isSome := by
    rw [hm]
    rfl
  have hget := hs.process.get_inside (hs.tracked 3 hopen).1 false
  have hstep : (s₀.step (setRecvTimeout sec usec)).isSome := by
    simp only [setRecvTimeout, State.step, Option.isSome_map, invoke, setsockopt, World.env, hget]
    rfl
  obtain ⟨s₁, hs₁⟩ := Option.isSome_iff_exists.mp hstep
  exact ⟨s₀, s₁, hs₀, hm, hs₁⟩

theorem heeds_iff_recvTimeout :
    ∃ s₀ s₁ : State, histories.Reachable free s₀ ∧
      s₀.step (setRecvTimeout 2 500000) = some s₁ ∧
      (Heeds 3 FdCtx.soRcvtimeo 2 500000 s₀.process s₁.process ↔
        (2 : Int) = 0 ∧ (500000 : Int) = 0) := by
  obtain ⟨s₀, s₁, hs₀, hmode, hset⟩ := settable_recvTimeout 2 500000
  exact ⟨s₀, s₁, hs₀, hset, heeds_iff hs₀ hmode (.inl rfl) hset (.refl s₁)⟩

/-- The very next `read` waits without a timeout. -/
theorem not_heeds_recvTimeout :
    ¬ ∀ s₀ s₁ s₂ : State, histories.Reachable free s₀ → ∀ fd mode, s₀.mode fd = some mode →
      ∀ optname, optname = FdCtx.soRcvtimeo ∨ optname = soSndtimeo →
      ∀ sec usec : Int, 0 ≤ usec ∧ usec < 1000000 → ∀ (optlen : Word) (w : World),
        s₀.step (.call (.setsockopt fd solSocket optname (.timeval sec usec) optlen) w) = some s₁ →
        histories.Path (Leaves fd optname) s₁ s₂ →
          Heeds fd optname sec usec s₀.process s₂.process := by
  intro hall
  obtain ⟨s₀, s₁, hs₀, hmode, hset⟩ := settable_recvTimeout 2 500000
  have hheeds := hall s₀ s₁ s₁ hs₀ 3 false hmode _ (.inl rfl) 2 500000 (by decide) 16 _ hset
    (.refl s₁)
  have hs₁ := (known_of_reachable hs₀).step hset
  have hopen : (s₀.mode 3).isSome := by
    rw [hmode]
    rfl
  have hopen := quiet_isSome hset trivial hopen
  exact hs₁.not_heeds hopen (.inl rfl) (by decide) s₀.process hheeds

end Hook
