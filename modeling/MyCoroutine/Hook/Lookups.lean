-- SUMMARY: What each hooked function does on a thread with hooks enabled, told by its lookups in the table and its underlying calls.
import MyCoroutine.Hook.Descriptors
import MyCoroutine.Hook.Switch

/-! # Lookups

A lookup inside the table constructs an `FdCtx` and enters it in place of the one
there was. So a hooked function that looks a descriptor up meets an object that
nobody has changed, whatever has been asked for before. -/

namespace Hook

variable {e : Env} {p p' : Process} {c : Call} {fd : Int} {ctx : Option CtxId} {auto : Bool}

namespace Process

/-- Every access so far was made inside the table, and `int` can hold its size. -/
structure Steady (p : Process) : Prop where
  sized : p.fdm.Sized
  bounds : p.fdm.outOfBounds = false

/-- `fd` is a descriptor inside the table. -/
def Inside (p : Process) (fd : Int) : Prop :=
  0 ≤ fd ∧ fd < p.fdm.datas.length

/-- `get` made a new `FdCtx` for `fd`, in place of the one there was. -/
def enter (p : Process) (fd : Nat) : Process :=
  { p with
    fdm := { p.fdm with
      datas := p.fdm.datas.set fd (some p.fdm.made.length)
      made := p.fdm.made ++ [(FdCtx.new p.fdm.kernel fd).1]
      kernel := (FdCtx.new p.fdm.kernel fd).2 } }

theorem Steady.get_inside (hp : p.Steady) (hfd : p.Inside fd) (auto : Bool) :
    p.get fd auto = some (some p.fdm.made.length, p.enter fd.toNat) := by
  obtain ⟨hnonneg, hlt⟩ := hfd
  have hne : fd ≠ -1 := by omega
  have hslot : fd.toNat < p.fdm.datas.length := by omega
  have hint := Counting.intOfSize_eq hp.sized.2
  have hcreate :
      p.fdm.get fd.toNat auto none = (some p.fdm.made.length, (p.enter fd.toNat).fdm) := by
    rw [FdManager.get_inside hp.sized hslot, FdManager.create]
    simp only [hint]
    rw [if_neg (by omega), FdManager.write, if_pos hslot]
    rfl
  simp only [get, if_neg hne, if_neg (Int.not_lt.mpr hnonneg), hcreate]
  rw [if_neg]
  · rfl
  · rw [Bool.not_eq_true]
    exact hp.bounds

theorem Steady.get_outside (hp : p.Steady) (hfd : ¬ p.Inside fd)
    (hget : p.get fd auto = some (ctx, p')) :
    (fd = -1 ∨ auto = false) ∧ ctx = none ∧ p' = p := by
  by_cases hne : fd = -1
  · rw [get, if_pos hne] at hget
    cases hget
    exact ⟨.inl hne, rfl, rfl⟩
  · have hint := Counting.intOfSize_eq hp.sized.2
    rcases Int.lt_or_le fd 0 with hneg | hnonneg
    · rw [get, if_neg hne, if_pos hneg, if_neg] at hget
      · cases hget
      · rw [hint]
        omega
    · have hle : (p.fdm.datas.length : Int) ≤ fd := Int.not_lt.mp fun hlt => hfd ⟨hnonneg, hlt⟩
      cases auto with
      | false =>
        rw [get_unlisted hp.bounds (.inr (hint ▸ hle))] at hget
        cases hget
        exact ⟨.inr rfl, rfl, rfl⟩
      | true =>
        have hout : (p.fdm.get fd.toNat true none).2.outOfBounds = true :=
          FdManager.get_beyond (by omega) none
        obtain ⟨hin, -⟩ := get_cases hnonneg hget
        rw [hout] at hin
        cases hin

/-- Inside the table every lookup constructs, outside it every lookup that returns finds nothing. -/
theorem Steady.get_spec (hp : p.Steady) (hget : p.get fd auto = some (ctx, p')) :
    (¬ p.Inside fd ∧ ctx = none ∧ p' = p) ∨
      (p.Inside fd ∧ ctx = some p.fdm.made.length ∧ p' = p.enter fd.toNat) := by
  by_cases hfd : p.Inside fd
  · rw [hp.get_inside hfd] at hget
    cases hget
    exact .inr ⟨hfd, rfl, rfl⟩
  · exact .inl ⟨hfd, (hp.get_outside hfd hget).2⟩

@[simp] theorem enter_ctx (p : Process) (fd : Nat) :
    (p.enter fd).ctx p.fdm.made.length = some (FdCtx.new p.fdm.kernel fd).1 := by
  simp [enter, ctx]

end Process

/-! ## The parts of a call -/

/-- From `p` to `p'` by lookups, quiet underlying calls and timeouts set. -/
inductive Quietly (e : Env) : Process → Process → Prop where
  | refl (p : Process) : Quietly e p p
  | enter {p q : Process} {fd : Int} (hfd : q.Inside fd) :
      Quietly e p q → Quietly e p (q.enter fd.toNat)
  | make {p q : Process} {c : Call} (hc : c.Quiet) : Quietly e p q → Quietly e p (q.make e c).2
  | setTimeout {p q : Process} (id : CtxId) (type t : Int) :
      Quietly e p q → Quietly e p (q.update id (.setTimeout type t))

namespace Process

theorem Steady.enter (hp : p.Steady) (fd : Nat) : (p.enter fd).Steady := by
  refine ⟨?_, hp.bounds⟩
  simp only [FdManager.Sized, Process.enter, List.length_set]
  exact hp.sized

theorem Steady.quietly (hp : p.Steady) (h : Quietly e p p') : p'.Steady := by
  induction h with
  | refl => exact hp
  | enter _ _ ih => exact ih.enter _
  | make _ _ ih => exact ⟨ih.sized, ih.bounds⟩
  | setTimeout _ _ _ _ ih => exact ⟨ih.sized, ih.bounds⟩

theorem Steady.get_quietly (hp : p.Steady) (hget : p.get fd auto = some (ctx, p')) :
    Quietly e p p' := by
  rcases hp.get_spec hget with ⟨-, -, rfl⟩ | ⟨hfd, -, rfl⟩
  · exact .refl p'
  · exact .enter hfd (.refl p)

end Process

/-! ## What the functions do -/

section

variable {r : Reply}

/-- Inside the table, `do_io` meets an `FdCtx` that nobody has changed. -/
theorem doIo_inside (hp : p.Steady) (he : e.hookEnable = true) (hfd : p.Inside fd) (fn : Call)
    (event : IOManager.Event) {timeoutSo : Int} :
    doIo e fd fn event timeoutSo p =
      if p.fdm.kernel.fstat fd = some true then
        some (.loops .doIo event (-1), p.enter fd.toNat)
      else original e fn (p.enter fd.toNat) := by
  obtain ⟨n, rfl⟩ := Int.eq_ofNat_of_zero_le hfd.1
  have hfresh := FdCtx.new_fresh p.fdm.kernel n
  have htimeout : (FdCtx.new p.fdm.kernel n).1.getTimeout timeoutSo = -1 := by
    unfold FdCtx.getTimeout
    split
    · exact hfresh.recvTimeout
    · exact hfresh.sendTimeout
  simp only [doIo, he, hp.get_inside hfd, Bool.true_eq_false, if_false, Option.bind_eq_bind,
    Option.bind_some, Int.toNat_natCast, Process.enter_ctx, hfresh.isClosed, hfresh.userNoBlock,
    htimeout, FdCtx.new_isSocket, decide_eq_false_iff_not, Bool.false_eq_true, or_false, ite_not]
  rfl

theorem doIo_outside (hp : p.Steady) (he : e.hookEnable = true) (hfd : ¬ p.Inside fd) {fn : Call}
    {event : IOManager.Event} {timeoutSo : Int}
    (h : doIo e fd fn event timeoutSo p = some (r, p')) : original e fn p = some (r, p') := by
  simp only [doIo, he, Bool.true_eq_false, if_false, Option.bind_eq_bind,
    Option.bind_eq_some_iff] at h
  obtain ⟨⟨ctx, q⟩, hget, h⟩ := h
  obtain ⟨-, rfl, rfl⟩ := hp.get_outside hfd hget
  exact h

theorem original_quietly {fn : Call} {q : Process} (h : original e fn p' = some (r, q))
    (hfn : fn.Quiet) (hq : Quietly e p p') : Quietly e p q := by
  cases h
  exact .make hfn hq

theorem doIo_quietly (hp : p.Steady) (he : e.hookEnable = true) {fn : Call}
    {event : IOManager.Event} {timeoutSo : Int}
    (h : doIo e fd fn event timeoutSo p = some (r, p')) (hfn : fn.Quiet) : Quietly e p p' := by
  by_cases hfd : p.Inside fd
  · have hentered : Quietly e p (p.enter fd.toNat) := .enter hfd (.refl p)
    rw [doIo_inside hp he hfd] at h
    split at h
    · cases h
      exact hentered
    · exact original_quietly h hfn hentered
  · exact original_quietly (doIo_outside hp he hfd h) hfn (.refl p)

theorem connect_quietly (hp : p.Steady) (he : e.hookEnable = true) {addr addrlen : Word}
    (h : connect e fd addr addrlen p = some (r, p')) : Quietly e p p' := by
  simp only [connect, connectWithTimeout, he, Bool.true_eq_false, if_false, Option.bind_eq_bind,
    Option.bind_eq_some_iff] at h
  obtain ⟨⟨ctx, q⟩, hget, h⟩ := h
  have hq : Quietly e p q := hp.get_quietly hget
  cases ctx with
  | none =>
    cases h
    exact hq
  | some id =>
    obtain ⟨ctx, -, h⟩ := Option.bind_eq_some_iff.mp h
    dsimp only at h
    split at h
    · cases h
      exact hq
    · split at h
      · exact original_quietly h trivial hq
      · cases h
        exact hq

/-- A lookup after what has been done quietly. -/
theorem Quietly.get (hp : p.Steady) (h : Quietly e p p') {q : Process}
    (hget : p'.get fd auto = some (ctx, q)) : Quietly e p q := by
  rcases (hp.quietly h).get_spec hget with ⟨-, -, rfl⟩ | ⟨hfd, -, rfl⟩
  · exact h
  · exact .enter hfd h

theorem socket_quietly (hp : p.Steady) {domain type protocol : BitVec 32}
    (h : socket e domain type protocol p = some (r, p')) : Quietly e p p' := by
  have hmade : Quietly e p (p.make e (.socket domain type protocol)).2 := .make trivial (.refl p)
  simp only [socket] at h
  split at h
  · cases h
    exact hmade
  · obtain ⟨⟨ctx, q⟩, hget, h⟩ := Option.bind_eq_some_iff.mp h
    cases h
    exact hmade.get hp hget

theorem accepted_quietly (hp : p.Steady) (h : Quietly e p p') {q : Process}
    (haccepted : accepted fd p' = some (r, q)) : Quietly e p q := by
  simp only [accepted] at haccepted
  split at haccepted
  · obtain ⟨⟨ctx, q'⟩, hget, hrest⟩ := Option.bind_eq_some_iff.mp haccepted
    cases hrest
    exact h.get hp hget
  · cases haccepted
    exact h

theorem accept_quietly (hp : p.Steady) (he : e.hookEnable = true) {addr addrlen : Word}
    (h : accept e fd addr addrlen p = some (r, p')) : Quietly e p p' := by
  obtain ⟨⟨reply, q⟩, hdo, h⟩ := Option.bind_eq_some_iff.mp h
  have hq := doIo_quietly hp he hdo trivial
  cases reply with
  | returns n => exact accepted_quietly hp hq h
  | fails | loops | sleeps =>
    cases h
    exact hq

theorem getfl_quietly (hp : p.Steady) (h : fcntl e fd .getfl p = some (r, p')) :
    Quietly e p p' := by
  have hmade : Quietly e p (p.make e (.fcntl fd .getfl)).2 := .make trivial (.refl p)
  obtain ⟨⟨ctx, q⟩, hget, h⟩ := Option.bind_eq_some_iff.mp h
  have hq := hmade.get hp hget
  cases ctx with
  | none =>
    cases h
    exact hq
  | some id =>
    obtain ⟨ctx, -, h⟩ := Option.bind_eq_some_iff.mp h
    split at h
    · cases h
      exact hq
    · split at h
      · cases h
        exact hq
      · cases h
        exact hq

theorem setsockopt_quietly (hp : p.Steady) (he : e.hookEnable = true) {level optname : Int}
    {optval : OptVal} {optlen : Word}
    (h : setsockopt e fd level optname optval optlen p = some (r, p')) : Quietly e p p' := by
  simp only [setsockopt, he, Bool.true_eq_false, if_false] at h
  split at h
  · obtain ⟨⟨ctx, q⟩, hget, h⟩ := Option.bind_eq_some_iff.mp h
    have hq := (Quietly.refl p).get (e := e) hp hget
    cases ctx with
    | none => exact original_quietly h trivial hq
    | some id =>
      cases optval with
      | timeval sec usec => exact original_quietly h trivial (.setTimeout id _ _ hq)
      | other => cases h
  · exact original_quietly h trivial (.refl p)

/-- Apart from `close`, and `fcntl` and `ioctl` when they set the mode, a hooked
function looks up, makes quiet underlying calls and sets timeouts. -/
theorem invoke_quietly (hp : p.Steady) (he : e.hookEnable = true) (hc : c.Quiet)
    (h : invoke e c p = some (r, p')) : Quietly e p p' := by
  cases c with
  | sleep seconds =>
    simp only [invoke, sleep, he, Bool.true_eq_false, if_false] at h
    cases h
    exact .refl p
  | socket => exact socket_quietly hp h
  | connect => exact connect_quietly hp he h
  | accept => exact accept_quietly hp he h
  | read => exact doIo_quietly hp he h trivial
  | readv => exact doIo_quietly hp he h trivial
  | recv => exact doIo_quietly hp he h trivial
  | recvfrom => exact doIo_quietly hp he h trivial
  | recvmsg => exact doIo_quietly hp he h trivial
  | write => exact doIo_quietly hp he h trivial
  | writev => exact doIo_quietly hp he h trivial
  | send => exact doIo_quietly hp he h trivial
  | sendto => exact doIo_quietly hp he h trivial
  | sendmsg => exact doIo_quietly hp he h trivial
  | close => cases hc
  | fcntl fd cmd =>
    cases cmd with
    | setfl => cases hc
    | getfl => exact getfl_quietly hp h
    | int => exact original_quietly h trivial (.refl p)
    | get => exact original_quietly h trivial (.refl p)
    | lock => exact original_quietly h trivial (.refl p)
    | owner => exact original_quietly h trivial (.refl p)
    | other => exact original_quietly h trivial (.refl p)
  | ioctl d request =>
    cases request with
    | fionbio => cases hc
    | other => exact original_quietly h trivial (.refl p)
  | getsockopt => exact original_quietly h trivial (.refl p)
  | setsockopt => exact setsockopt_quietly hp he h

/-! ## The three that are not quiet -/

theorem close_cases (hp : p.Steady) (he : e.hookEnable = true)
    (h : close e fd p = some (r, p')) :
    (¬ p.Inside fd ∧ original e (.close fd) p = some (r, p')) ∨
      (p.Inside fd ∧ ∃ q : Process, q.fdm = (p.enter fd.toNat).fdm.del fd.toNat ∧
        original e (.close fd) q = some (r, p')) := by
  simp only [close, he, Bool.true_eq_false, if_false, Option.bind_eq_bind,
    Option.bind_eq_some_iff] at h
  obtain ⟨⟨ctx, q⟩, hget, h⟩ := h
  rcases hp.get_spec hget with ⟨hfd, rfl, rfl⟩ | ⟨hfd, rfl, rfl⟩
  · exact .inl ⟨hfd, h⟩
  · refine .inr ⟨hfd, ?_⟩
    dsimp only at h
    split at h
    · obtain ⟨q, hq, h⟩ := Option.bind_eq_some_iff.mp h
      obtain ⟨r', -, rfl⟩ := Option.map_eq_some_iff.mp hq
      refine ⟨_, ?_, h⟩
      dsimp only
    · obtain ⟨q, hq, h⟩ := Option.bind_eq_some_iff.mp h
      cases hq
      refine ⟨_, ?_, h⟩
      dsimp only

/-- On a socket inside the table, `F_SETFL` never passes a cleared bit on. -/
theorem setfl_cases (hp : p.Steady) {arg : BitVec 32}
    (h : fcntl e fd (.setfl arg) p = some (r, p')) :
    (¬ p.Inside fd ∧ original e (.fcntl fd (.setfl arg)) p = some (r, p')) ∨
      (p.Inside fd ∧ p.fdm.kernel.fstat fd ≠ some true ∧
        original e (.fcntl fd (.setfl arg)) (p.enter fd.toNat) = some (r, p')) ∨
      (p.Inside fd ∧ p.fdm.kernel.fstat fd = some true ∧
        original e (.fcntl fd (.setfl (arg ||| oNonblock)))
          ((p.enter fd.toNat).update p.fdm.made.length (.setUserNoBlock (arg &&& oNonblock ≠ 0))) =
            some (r, p')) := by
  simp only [fcntl, Option.bind_eq_bind, Option.bind_eq_some_iff] at h
  obtain ⟨⟨ctx, q⟩, hget, h⟩ := h
  rcases hp.get_spec hget with ⟨hfd, rfl, rfl⟩ | ⟨hfd, rfl, rfl⟩
  · exact .inl ⟨hfd, h⟩
  · obtain ⟨n, rfl⟩ := Int.eq_ofNat_of_zero_le hfd.1
    have hfresh := FdCtx.new_fresh p.fdm.kernel n
    simp only [Int.toNat_natCast, Process.enter_ctx, Option.bind_some, hfresh.isClosed,
      FdCtx.new_sysNoBlock, FdCtx.new_isSocket, Bool.false_eq_true, false_or,
      decide_eq_false_iff_not] at h ⊢
    split at h
    · rename_i hkind
      exact .inr (.inl ⟨hfd, hkind, h⟩)
    · rename_i hkind
      have hsocket := Decidable.not_not.mp hkind
      simp only [hsocket, decide_true, if_true] at h
      exact .inr (.inr ⟨hfd, hsocket, h⟩)

theorem fionbio_cases (hp : p.Steady) {value : Option (BitVec 32)}
    (h : ioctl e fd (.fionbio value) p = some (r, p')) :
    ∃ arg, value = some arg ∧
      ((¬ p.Inside fd ∧ original e (.ioctl fd (.fionbio value)) p = some (r, p')) ∨
        (p.Inside fd ∧ p.fdm.kernel.fstat fd ≠ some true ∧
          original e (.ioctl fd (.fionbio value)) (p.enter fd.toNat) = some (r, p')) ∨
        (p.Inside fd ∧ p.fdm.kernel.fstat fd = some true ∧
          original e (.ioctl fd (.fionbio value))
            ((p.enter fd.toNat).update p.fdm.made.length (.setUserNoBlock (arg ≠ 0))) =
              some (r, p'))) := by
  simp only [ioctl, Option.bind_eq_bind, Option.bind_eq_some_iff] at h
  obtain ⟨arg, hvalue, ⟨ctx, q⟩, hget, h⟩ := h
  refine ⟨arg, hvalue, ?_⟩
  rcases hp.get_spec hget with ⟨hfd, rfl, rfl⟩ | ⟨hfd, rfl, rfl⟩
  · exact .inl ⟨hfd, h⟩
  · obtain ⟨n, rfl⟩ := Int.eq_ofNat_of_zero_le hfd.1
    have hfresh := FdCtx.new_fresh p.fdm.kernel n
    simp only [Int.toNat_natCast, Process.enter_ctx, Option.bind_some, hfresh.isClosed,
      FdCtx.new_isSocket, Bool.false_eq_true, false_or, decide_eq_false_iff_not] at h ⊢
    split at h
    · rename_i hkind
      exact .inr (.inl ⟨hfd, hkind, h⟩)
    · rename_i hkind
      exact .inr (.inr ⟨hfd, Decidable.not_not.mp hkind, h⟩)

/-- Only quiet calls go on to wait, or fail by themselves. -/
theorem quiet_of_not_returns (hp : p.Steady) (he : e.hookEnable = true)
    (hr : ∀ n, r ≠ .returns n) (h : invoke e c p = some (r, p')) : c.Quiet := by
  have hreturns {fn : Call} {q : Process} : original e fn q ≠ some (r, p') := by
    intro h
    cases h
    exact hr _ rfl
  unfold Call.Quiet
  split
  · rcases close_cases hp he h with ⟨-, h⟩ | ⟨-, q, -, h⟩
    · exact hreturns h
    · exact hreturns h
  · rcases setfl_cases hp h with ⟨-, h⟩ | ⟨-, -, h⟩ | ⟨-, -, h⟩
    · exact hreturns h
    · exact hreturns h
    · exact hreturns h
  · obtain ⟨arg, -, ⟨-, h⟩ | ⟨-, -, h⟩ | ⟨-, -, h⟩⟩ := fionbio_cases hp h
    · exact hreturns h
    · exact hreturns h
    · exact hreturns h
  · trivial

/-! ## The functions that are do_io -/

/-- What a function hands to `do_io`. -/
structure Transfer where
  fd : Int
  event : IOManager.Event
  timeoutSo : Int
  deriving DecidableEq

def Call.transfer : Call → Option Transfer
  | .accept s _ _ => some ⟨s, .read, FdCtx.soRcvtimeo⟩
  | .read fd _ _ | .readv fd _ _ | .recv fd _ _ _ | .recvfrom fd _ _ _ _ _ | .recvmsg fd _ _ =>
    some ⟨fd, .read, FdCtx.soRcvtimeo⟩
  | .write fd _ _ | .writev fd _ _ | .send fd _ _ _ | .sendto fd _ _ _ _ _ | .sendmsg fd _ _ =>
    some ⟨fd, .write, soSndtimeo⟩
  | _ => none

theorem Call.quiet_of_transfer {t : Transfer} (h : c.transfer = some t) : c.Quiet := by
  cases c <;> trivial

/-- On a socket inside the table, each of them goes on to wait without a timeout. -/
theorem transfer_inside (hp : p.Steady) (he : e.hookEnable = true) {t : Transfer}
    (hc : c.transfer = some t) (hfd : p.Inside t.fd)
    (hsocket : p.fdm.kernel.fstat t.fd = some true) :
    invoke e c p = some (.loops .doIo t.event (-1), p.enter t.fd.toNat) := by
  have hdo : doIo e t.fd c t.event t.timeoutSo p =
      some (.loops .doIo t.event (-1), p.enter t.fd.toNat) := by
    rw [doIo_inside hp he hfd, if_pos hsocket]
  cases c with
  | accept =>
    cases hc
    exact Option.bind_eq_some_iff.mpr ⟨_, hdo, rfl⟩
  | read | readv | recv | recvfrom | recvmsg | write | writev | send | sendto | sendmsg =>
    cases hc
    exact hdo
  | sleep | socket | connect | close | fcntl | ioctl | getsockopt | setsockopt => cases hc

/-- Nobody else waits in `do_io`. -/
theorem transfer_of_loops (hp : p.Steady) (he : e.hookEnable = true) {event : IOManager.Event}
    {timeout : Int} (h : invoke e c p = some (.loops .doIo event timeout, p')) :
    ∃ t, c.transfer = some t := by
  have hreturns {fn : Call} {q : Process} :
      original e fn q ≠ some (.loops .doIo event timeout, p') := by
    intro h
    cases h
  have hquiet := quiet_of_not_returns hp he (fun _ => Reply.noConfusion) h
  cases c with
  | accept | read | readv | recv | recvfrom | recvmsg | write | writev | send | sendto | sendmsg =>
    exact ⟨_, rfl⟩
  | sleep =>
    simp only [invoke, sleep, he, Bool.true_eq_false, if_false] at h
    cases h
  | socket =>
    simp only [invoke, socket] at h
    split at h
    · cases h
    · obtain ⟨⟨ctx, q⟩, -, h⟩ := Option.bind_eq_some_iff.mp h
      cases h
  | connect =>
    simp only [invoke, connect, connectWithTimeout, he, Bool.true_eq_false, if_false,
      Option.bind_eq_bind, Option.bind_eq_some_iff] at h
    obtain ⟨⟨ctx, q⟩, -, h⟩ := h
    cases ctx with
    | none => cases h
    | some id =>
      obtain ⟨ctx, -, h⟩ := Option.bind_eq_some_iff.mp h
      dsimp only at h
      split at h
      · cases h
      · split at h
        · exact absurd h hreturns
        · cases h
  | close => exact absurd hquiet id
  | fcntl fd cmd =>
    cases cmd with
    | setfl => exact absurd hquiet id
    | getfl =>
      obtain ⟨⟨ctx, q⟩, -, h⟩ := Option.bind_eq_some_iff.mp h
      cases ctx with
      | none => cases h
      | some id =>
        obtain ⟨ctx, -, h⟩ := Option.bind_eq_some_iff.mp h
        split at h
        · cases h
        · split at h <;> cases h
    | int | get | lock | owner | other => exact absurd h hreturns
  | ioctl fd request =>
    cases request with
    | fionbio => exact absurd hquiet id
    | other => exact absurd h hreturns
  | getsockopt => exact absurd h hreturns
  | setsockopt sockfd level optname optval =>
    simp only [invoke, setsockopt, he, Bool.true_eq_false, if_false] at h
    split at h
    · obtain ⟨⟨ctx, q⟩, -, h⟩ := Option.bind_eq_some_iff.mp h
      cases ctx with
      | none => exact absurd h hreturns
      | some id =>
        cases optval with
        | timeval => exact absurd h hreturns
        | other => cases h
    · exact absurd h hreturns

end

end Hook
