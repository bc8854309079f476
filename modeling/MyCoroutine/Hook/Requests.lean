-- SUMMARY: What a user asks of a socket, its mode and its timeouts, and what of it later calls still know.
import MyCoroutine.Hook.Histories

/-! # Requests

The user asks for the mode of a socket by `socket`, `fcntl` or `ioctl`, and for its
timeouts by `setsockopt`. Both are kept in the `FdCtx` of the socket. Later calls
should go by them for as long as the socket is open. -/

namespace Hook

open TransitionSystem (free Reachable.of_replay)

variable {p p' : Process} {c : Call} {w : World} {fd : Int} {r : Reply}

/-! ## Sockets that are open -/

/-- The user's sockets are open, and inside the table. -/
def Tracked (p : Process) (mode : Int → Option Bool) : Prop :=
  ∀ fd, (mode fd).isSome → p.Inside fd ∧ p.fdm.kernel.fstat fd = some true

/-- The table has its size, and what is open stays what it is. -/
def Stays (p p' : Process) : Prop :=
  p'.fdm.datas.length = p.fdm.datas.length ∧
    ∀ fd isSocket, p.fdm.kernel.fstat fd = some isSocket →
      p'.fdm.kernel.fstat fd = some isSocket

theorem Stays.refl (p : Process) : Stays p p :=
  ⟨rfl, fun _ _ h => h⟩

theorem Stays.trans {q : Process} (h : Stays p p') (h' : Stays p' q) : Stays p q :=
  ⟨h'.1.trans h.1, fun fd isSocket hopen => h'.2 fd isSocket (h.2 fd isSocket hopen)⟩

theorem Stays.tracked {mode : Int → Option Bool} (h : Stays p p') (hp : Tracked p mode) :
    Tracked p' mode := by
  intro fd hfd
  obtain ⟨⟨hnonneg, hlt⟩, hopen⟩ := hp fd hfd
  refine ⟨⟨hnonneg, ?_⟩, h.2 fd true hopen⟩
  rw [h.1]
  exact hlt

theorem stays_enter (p : Process) (n : Nat) : Stays p (p.enter n) := by
  refine ⟨List.length_set .., ?_⟩
  intro fd isSocket hopen
  have hkernel : (p.enter n).fdm.kernel = (FdCtx.new p.fdm.kernel n).2 := rfl
  rw [hkernel, FdCtx.new_kernel]
  split <;> exact hopen

theorem stays_make (p : Process) (w : World) (hc : ∀ fd, c ≠ .close fd) :
    Stays p (p.make w.env c).2 := by
  refine ⟨rfl, ?_⟩
  intro fd isSocket hopen
  by_cases hquiet : c.Quiet
  · have hsame := (p.fdm.kernel.answer_extends w.choice hquiet fd (hopen ▸ rfl)).1
    exact hsame.trans hopen
  · -- of the others, only `close` changes what a descriptor is
    have hchanged (choice fd' : Int) (g : BitVec 32 → BitVec 32) :
        (p.fdm.kernel.changed choice fd' g).2.fstat fd = some isSocket := by
      unfold Kernel.changed
      split
      · exact hopen
      · split <;> exact hopen
    unfold Call.Quiet at hquiet
    split at hquiet
    · rename_i fd'
      exact absurd rfl (hc fd')
    · exact hchanged ..
    · rename_i fd' value
      cases value with
      | none => exact hopen
      | some arg => exact hchanged ..
    · exact absurd trivial hquiet

theorem Call.Quiet.ne_close (hc : c.Quiet) (fd : Int) : c ≠ .close fd := by
  rintro rfl
  exact hc

theorem stays_quietly (h : Quietly w.env p p') : Stays p p' := by
  induction h with
  | refl => exact .refl p
  | enter _ _ ih => exact ih.trans (stays_enter ..)
  | make hc _ ih => exact ih.trans (stays_make _ w hc.ne_close)
  | setTimeout _ _ _ _ ih => exact ih.trans ⟨rfl, fun _ _ h => h⟩

/-- The new descriptor of `socket` or `accept`. -/
theorem opened_spec (k : Kernel) (fd : Int) (flags : BitVec 32) :
    (k.opened fd true flags).1 = -1 ∨
      0 ≤ (k.opened fd true flags).1 ∧
        (k.opened fd true flags).2.fstat (k.opened fd true flags).1 = some true := by
  unfold Kernel.opened
  split
  · rename_i hfree
    refine .inr ⟨hfree.1, ?_⟩
    simp
  · exact .inl rfl

theorem entered_tracked {n : Int} {ctx : Option CtxId} (hp : p.Steady)
    (hopen : p.fdm.kernel.fstat n = some true) (hn : n ≠ -1)
    (hget : p.get n true = some (ctx, p')) :
    p'.Inside n ∧ p'.fdm.kernel.fstat n = some true := by
  by_cases hin : p.Inside n
  · rw [hp.get_inside hin] at hget
    cases hget
    exact ⟨p.enter_inside.mpr hin, (stays_enter p _).2 n true hopen⟩
  · obtain ⟨hminus | hfalse, -⟩ := hp.get_outside hin hget
    · exact absurd hminus hn
    · cases hfalse

theorem socket_tracked {domain type protocol : BitVec 32} {n : Int} (hp : p.Steady)
    (h : socket w.env domain type protocol p = some (.returns n, p')) (hn : n ≠ -1) :
    p'.Inside n ∧ p'.fdm.kernel.fstat n = some true := by
  have hspec := opened_spec p.fdm.kernel w.choice (2 ||| type &&& Kernel.sockNonblock)
  set c : Call := .socket domain type protocol with hc
  have hmade : (p.make w.env c).2.Steady := ⟨hp.sized, hp.bounds⟩
  simp only [socket] at h
  split at h
  · rename_i hfails
    cases h
    exact absurd (hfails.resolve_left Bool.noConfusion) hn
  · obtain ⟨⟨ctx, q⟩, hget, h⟩ := Option.bind_eq_some_iff.mp h
    cases h
    obtain ⟨-, hopen⟩ := hspec.resolve_left hn
    exact entered_tracked hmade hopen hn hget

/-- What `accept` does once its underlying call has been made. -/
theorem accepted_tracked {s n : Int} {addr addrlen : Word} (hp : p.Steady)
    (h : accepted (p.make w.env (.accept s addr addrlen)).1
      (p.make w.env (.accept s addr addrlen)).2 = some (.returns n, p')) (hn : n ≠ -1) :
    p'.Inside n ∧ p'.fdm.kernel.fstat n = some true := by
  set c : Call := .accept s addr addrlen with hc
  have hmade : (p.make w.env c).2.Steady := ⟨hp.sized, hp.bounds⟩
  have hspec : (p.make w.env c).1 = -1 ∨ 0 ≤ (p.make w.env c).1 ∧
      (p.make w.env c).2.fdm.kernel.fstat (p.make w.env c).1 = some true := by
    simp only [hc, Process.make, World.env, Kernel.answer]
    split
    · exact opened_spec p.fdm.kernel w.choice 2
    · exact .inl rfl
  simp only [accepted] at h
  split at h
  · obtain ⟨⟨ctx, q⟩, hget, h⟩ := Option.bind_eq_some_iff.mp h
    cases h
    exact entered_tracked hmade (hspec.resolve_left hn).2 hn hget
  · rename_i hneg
    cases h
    exact absurd (hspec.resolve_left hn).1 hneg

theorem accept_tracked {s n : Int} {addr addrlen : Word} (hp : p.Steady)
    (h : accept w.env s addr addrlen p = some (.returns n, p')) (hn : n ≠ -1) :
    p'.Inside n ∧ p'.fdm.kernel.fstat n = some true := by
  obtain ⟨⟨reply, q⟩, hdo, h⟩ := Option.bind_eq_some_iff.mp h
  -- it has not waited, so the underlying call was made at once
  have hdirect {q' : Process} (hq' : q'.Steady)
      (horiginal : original w.env (.accept s addr addrlen) q' = some (reply, q)) :
      p'.Inside n ∧ p'.fdm.kernel.fstat n = some true := by
    cases horiginal
    exact accepted_tracked hq' h hn
  by_cases hin : p.Inside s
  · rw [doIo_inside hp rfl hin] at hdo
    split at hdo
    · cases hdo
      cases h
    · exact hdirect (hp.enter _) hdo
  · exact hdirect hp (doIo_outside hp rfl hin hdo)

/-- `close` changes what `fd` is, and no other descriptor. -/
theorem close_stays (hp : p.Steady) (h : close w.env fd p = some (r, p')) :
    p'.fdm.datas.length = p.fdm.datas.length ∧ ∀ fd' isSocket, fd' ≠ fd →
      p.fdm.kernel.fstat fd' = some isSocket → p'.fdm.kernel.fstat fd' = some isSocket := by
  have hmake (q : Process) {fd' : Int} {isSocket : Bool} (hne : fd' ≠ fd)
      (hopen : q.fdm.kernel.fstat fd' = some isSocket) :
      (q.make w.env (.close fd)).2.fdm.kernel.fstat fd' = some isSocket := by
    simp only [Process.make, World.env, Kernel.answer]
    split
    · simpa [hne] using hopen
    · exact hopen
  rcases close_cases hp rfl h with ⟨-, h⟩ | ⟨hin, q, hq, h⟩
  · cases h
    exact ⟨rfl, fun fd' isSocket hne hopen => hmake p hne hopen⟩
  · cases h
    rw [(hp.enter _).del_inside (p.enter_inside.mpr hin)] at hq
    have hentered := stays_enter p fd.toNat
    constructor
    · calc (q.make w.env (.close fd)).2.fdm.datas.length
        _ = q.fdm.datas.length := rfl
        _ = (p.enter fd.toNat).fdm.datas.length := by
          rw [hq]
          exact List.length_set
        _ = p.fdm.datas.length := hentered.1
    · intro fd' isSocket hne hopen
      apply hmake q hne
      rw [hq]
      exact hentered.2 fd' isSocket hopen

/-! ## What the user asked for -/

variable {mode : Int → Option Bool} {n : Int}

theorem Tracked.made (h : Tracked p mode) {fd : Int}
    (hfd : p.Inside fd ∧ p.fdm.kernel.fstat fd = some true) (m : Option Bool) :
    Tracked p (Function.update mode fd m) := by
  intro fd' hfd'
  rcases eq_or_ne fd' fd with rfl | hne
  · exact hfd
  · rw [Function.update_of_ne hne] at hfd'
    exact h fd' hfd'

theorem Tracked.map (h : Tracked p mode) (fd : Int) (g : Bool → Bool) :
    Tracked p (Function.update mode fd ((mode fd).map g)) := by
  intro fd' hfd'
  rcases eq_or_ne fd' fd with rfl | hne
  · rw [Function.update_self, Option.isSome_map] at hfd'
    exact h fd' hfd'
  · rw [Function.update_of_ne hne] at hfd'
    exact h fd' hfd'

theorem setfl_stays {arg : BitVec 32} (hp : p.Steady)
    (h : fcntl w.env fd (.setfl arg) p = some (r, p')) : Stays p p' := by
  have hmake (q : Process) (a : BitVec 32) : Stays q (q.make w.env (.fcntl fd (.setfl a))).2 :=
    stays_make q w fun _ => Call.noConfusion
  have hentered := stays_enter p fd.toNat
  rcases setfl_cases hp h with ⟨-, h⟩ | ⟨-, -, h⟩ | ⟨-, -, h⟩
  · cases h
    exact hmake p arg
  · cases h
    exact hentered.trans (hmake _ arg)
  · cases h
    exact hentered.trans (hmake _ (arg ||| oNonblock))

theorem fionbio_stays {value : Option (BitVec 32)} (hp : p.Steady)
    (h : ioctl w.env fd (.fionbio value) p = some (r, p')) : Stays p p' := by
  have hmake (q : Process) : Stays q (q.make w.env (.ioctl fd (.fionbio value))).2 :=
    stays_make q w fun _ => Call.noConfusion
  have hentered := stays_enter p fd.toNat
  obtain ⟨arg, -, ⟨-, h⟩ | ⟨-, -, h⟩ | ⟨-, -, h⟩⟩ := fionbio_cases hp h
  · cases h
    exact hmake p
  · cases h
    exact hentered.trans (hmake _)
  · cases h
    exact hentered.trans (hmake _)

theorem tracked_returns (hp : p.Steady) (ht : Tracked p mode)
    (h : invoke w.env c p = some (.returns n, p')) : Tracked p' (asked c n mode) := by
  have hquiet (hc : c.Quiet) : Tracked p' mode :=
    (stays_quietly (invoke_quietly hp rfl hc h)).tracked ht
  cases c with
  | socket =>
    simp only [asked]
    split
    · exact hquiet trivial
    · rename_i hn
      exact (hquiet trivial).made (socket_tracked hp h hn) _
  | accept =>
    simp only [asked]
    split
    · exact hquiet trivial
    · rename_i hn
      exact (hquiet trivial).made (accept_tracked hp h hn) _
  | close fd =>
    obtain ⟨hlength, hothers⟩ := close_stays hp h
    intro fd' hfd'
    simp only [asked] at hfd'
    rcases eq_or_ne fd' fd with rfl | hne
    · simp at hfd'
    · rw [Function.update_of_ne hne] at hfd'
      obtain ⟨⟨hnonneg, hlt⟩, hopen⟩ := ht fd' hfd'
      exact ⟨⟨hnonneg, hlength ▸ hlt⟩, hothers fd' true hne hopen⟩
  | fcntl fd cmd =>
    cases cmd with
    | setfl arg =>
      have hstays := (setfl_stays hp h).tracked ht
      simp only [asked]
      split
      · exact hstays
      · exact hstays.map fd _
    | getfl | int | get | lock | owner | other => exact hquiet trivial
  | ioctl fd request =>
    cases request with
    | fionbio value =>
      have hstays := (fionbio_stays hp h).tracked ht
      cases value with
      | none => exact hstays
      | some arg =>
        simp only [asked]
        split
        · exact hstays
        · exact hstays.map fd _
    | other => exact hquiet trivial
  | sleep | connect | read | readv | recv | recvfrom | recvmsg | write | writev | send | sendto
  | sendmsg | getsockopt | setsockopt => exact hquiet trivial

theorem tracked_finish (hp : p.Steady) (ht : Tracked p mode) {t : Transfer}
    (hc : c.transfer = some t) (h : finish w.env c p = some (.returns n, p')) :
    Tracked p' (asked c n mode) := by
  have hquiet := (stays_quietly (finish_quietly hp (Call.quiet_of_transfer hc) h)).tracked ht
  cases c with
  | accept =>
    simp only [asked]
    split
    · exact hquiet
    · rename_i hn
      exact hquiet.made (accepted_tracked hp h hn) _
  | read | readv | recv | recvfrom | recvmsg | write | writev | send | sendto | sendmsg =>
    exact hquiet
  | sleep | socket | connect | close | fcntl | ioctl | getsockopt | setsockopt => cases hc

/-- What holds between any two calls, of the user's sockets too. -/
structure State.Known (s : State) : Prop extends s.Sound where
  tracked : Tracked s.process s.mode

theorem State.Known.step {s s' : State} (hs : s.Known) {a : Act} (h : s.step a = some s') :
    s'.Known := by
  refine ⟨hs.toSound.step h, ?_⟩
  have hp := hs.process.toSteady
  cases a with
  | call c w =>
    obtain ⟨⟨reply, p⟩, hr, rfl⟩ := Option.map_eq_some_iff.mp h
    have hquiet (hreply : ∀ n, reply ≠ .returns n) : Tracked p s.mode :=
      have hc := quiet_of_not_returns hp rfl hreply hr
      (stays_quietly (invoke_quietly hp rfl hc hr)).tracked hs.tracked
    cases reply with
    | returns n => exact tracked_returns hp hs.tracked hr
    | fails => exact hquiet fun _ => Reply.noConfusion
    | loops kind => cases kind <;> exact hquiet fun _ => Reply.noConfusion
    | sleeps => exact hquiet fun _ => Reply.noConfusion
  | finish c w =>
    simp only [State.step] at h
    split at h
    · rename_i hc
      obtain ⟨t, ht⟩ := hs.waiting c hc
      obtain ⟨⟨reply, p⟩, hr, rfl⟩ := Option.map_eq_some_iff.mp h
      have hquiet : Tracked p s.mode :=
        (stays_quietly (finish_quietly hp (Call.quiet_of_transfer ht) hr)).tracked hs.tracked
      cases reply with
      | returns n => exact tracked_finish hp hs.tracked ht hr
      | fails => exact hquiet
      | loops kind => cases kind <;> exact hquiet
      | sleeps => exact hquiet
    · cases h
  | reflag fd flags =>
    simp only [State.step] at h
    split at h
    · cases h
      exact hs.tracked
    · cases h

theorem known_preserved (G : State → Act → Prop) : histories.Preserved G State.Known :=
  fun _ _ _ hs _ h => hs.step h

theorem known_of_reachable {G : State → Act → Prop} {s : State} (h : histories.Reachable G s) :
    s.Known := by
  refine (known_preserved G).reachable ?_ h
  rintro s₀ ⟨kernel, tickleFd, size, hkernel, rfl⟩
  refine ⟨State.start_sound hkernel tickleFd size, ?_⟩
  intro fd hfd
  cases hfd

/-! ## The mode -/

/-- A call on `fd` goes by `mode`: `F_GETFL` shows it beside the kernel's other
flags, and `do_io` makes its underlying call at once exactly when it is non-blocking. -/
structure Faithful (p : Process) (fd : Int) (mode : Bool) : Prop where
  getfl : ∀ w : World, ∃ n p', invoke w.env (.fcntl fd .getfl) p = some (.returns n, p') ∧
    (BitVec.ofInt 32 n &&& oNonblock ≠ 0 ↔ mode = true) ∧
      ∃ f, p.fdm.kernel.flags fd = some f ∧
        BitVec.ofInt 32 n &&& ~~~oNonblock = f &&& ~~~oNonblock
  direct : ∀ (w : World) (c : Call) (t : Transfer), c.transfer = some t → t.fd = fd →
    ∃ r p', invoke w.env c p = some (r, p') ∧ ((∃ n, r = .returns n) ↔ mode = true)

theorem getfl_inside (hp : p.Steady) (hfd : p.Inside fd)
    (hsocket : p.fdm.kernel.fstat fd = some true) {f : BitVec 32}
    (hf : p.fdm.kernel.flags fd = some f) (w : World) :
    ∃ p', invoke w.env (.fcntl fd .getfl) p = some (.returns (f &&& ~~~oNonblock).toInt, p') := by
  obtain ⟨n, rfl⟩ := Int.eq_ofNat_of_zero_le hfd.1
  have hmake : p.make w.env (.fcntl n .getfl) =
      (f.toInt, { p with trace := p.trace ++ [.fcntl n .getfl] }) := by
    simp only [Process.make, World.env, Kernel.answer, hf]
  set q : Process := { p with trace := p.trace ++ [.fcntl n .getfl] } with hq
  have hqp : q.Steady := ⟨hp.sized, hp.bounds⟩
  have hget : q.get n false = some (some q.fdm.made.length, q.enter n) :=
    hqp.get_inside hfd false
  have hfresh := FdCtx.new_fresh q.fdm.kernel n
  refine ⟨q.enter n, ?_⟩
  have hkind : (FdCtx.new q.fdm.kernel n).1.isSocket = true := by
    rw [FdCtx.new_isSocket]
    exact decide_eq_true hsocket
  simp only [invoke, fcntl, hmake, hget, Option.bind_eq_bind, Option.bind_some,
    Process.enter_ctx, hfresh.isClosed, hfresh.userNoBlock, hkind, Bool.false_eq_true,
    Bool.true_eq_false, or_self, if_false, BitVec.ofInt_toInt]
  rfl

theorem State.Known.flags {s : State} (hs : s.Known) (hfd : (s.mode fd).isSome) :
    ∃ f, s.process.fdm.kernel.flags fd = some f := by
  apply Option.isSome_iff_exists.mp
  rw [hs.process.consistent fd, (hs.tracked fd hfd).2]
  rfl

theorem State.Known.not_faithful {s : State} (hs : s.Known) (hm : s.mode fd = some true) :
    ¬ Faithful s.process fd true := by
  intro h
  have hopen : (s.mode fd).isSome := hm ▸ rfl
  obtain ⟨f, hf⟩ := hs.flags hopen
  obtain ⟨hin, hsocket⟩ := hs.tracked fd hopen
  obtain ⟨n, p', hn, hbit, -⟩ := h.getfl ⟨true, true, 0⟩
  obtain ⟨q, hq⟩ := getfl_inside hs.process.toSteady hin hsocket hf ⟨true, true, 0⟩
  rw [hn] at hq
  cases hq
  apply hbit.mpr rfl
  rw [BitVec.ofInt_toInt]
  exact clear_oNonblock_and f

/-- On a socket of the user's, calls go by the mode exactly when it is blocking:
what a lookup finds has forgotten any other. -/
theorem faithful_iff {s : State} (h : histories.Reachable free s) {m : Bool}
    (hm : s.mode fd = some m) : Faithful s.process fd m ↔ m = false := by
  have hs := known_of_reachable h
  cases m with
  | true => exact iff_of_false (hs.not_faithful hm) Bool.noConfusion
  | false =>
    refine iff_of_true ⟨?_, ?_⟩ rfl
    all_goals
      have hopen : (s.mode fd).isSome := hm ▸ rfl
      obtain ⟨f, hf⟩ := hs.flags hopen
      obtain ⟨hin, hsocket⟩ := hs.tracked fd hopen
    · intro w
      obtain ⟨p', hp'⟩ := getfl_inside hs.process.toSteady hin hsocket hf w
      refine ⟨_, p', hp', ?_, f, hf, ?_⟩
      · rw [BitVec.ofInt_toInt]
        exact iff_of_false (not_not_intro (clear_oNonblock_and f)) Bool.noConfusion
      · rw [BitVec.ofInt_toInt, BitVec.and_assoc, BitVec.and_self]
    · rintro w c t hc rfl
      refine ⟨_, _, transfer_inside hs.process.toSteady rfl hc hin hsocket, ?_⟩
      apply iff_of_false _ Bool.noConfusion
      rintro ⟨n, hn⟩
      cases hn

/-! Descriptor 3 is made by `socket`, and asked to be non-blocking. -/

theorem faithful_iff_socket :
    ∃ s, histories.Reachable free s ∧ s.mode 3 = some false ∧
      (Faithful s.process 3 false ↔ false = false) := by
  obtain ⟨s, hs, hmode⟩ := Reachable.of_replay (T := histories) (G := free) (g := fun _ _ => true)
    (fun _ _ _ => trivial) (l := [.call (.socket 2 1 0) (.answering 3)])
    (p := fun s => s.mode 3 = some false) fresh_init (by decide)
  have hm := of_decide_eq_true hmode
  exact ⟨s, hs, hm, faithful_iff hs hm⟩

/-- `SOCK_NONBLOCK` in the type is forgotten by the next call. -/
theorem not_faithful_sockNonblock :
    ¬ ∀ s, histories.Reachable free s → ∀ fd m, s.mode fd = some m → Faithful s.process fd m := by
  intro hall
  obtain ⟨s, hs, hmode⟩ := Reachable.of_replay (T := histories) (G := free) (g := fun _ _ => true)
    (fun _ _ _ => trivial) (l := [.call (.socket 2 0x801 0) (.answering 3)])
    (p := fun s => s.mode 3 = some true) fresh_init (by decide)
  have hm := of_decide_eq_true hmode
  exact (known_of_reachable hs).not_faithful hm (hall s hs 3 true hm)

end Hook
