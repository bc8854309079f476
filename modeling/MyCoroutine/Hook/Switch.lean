-- SUMMARY: Which hooked functions leave no trace on a thread that has not asked for hooking.
import MyCoroutine.Hook.Calls

/-! # The switch of a thread

`t_hook_enable` says whether the thread wants hooking. Without it a hooked function
should be the underlying call and nothing else. `accept`, and `fcntl` and `ioctl`
when they touch the mode of a descriptor, reach `FdManager::get` before they look
at the switch, or without looking at it at all. -/

namespace Hook

/-- `FdManager::get(fd, false)` answers null and does nothing. -/
def Unlisted (p : Process) (fd : Int) : Prop :=
  fd = -1 ∨ Counting.intOfSize p.fdm.datas.length ≤ fd

/-- `FdManager::get(fd, true)` finds a pointer and does nothing. The table is longer
than `int` can say. -/
def Found (p : Process) (fd : Int) : Prop :=
  Counting.intOfSize p.fdm.datas.length ≤ fd ∧ (p.fdm.map.live fd.toNat).isSome

/-- The hooked function of `c` reaches no `FdCtx`, and passes on what it is given. -/
def Transparent (e : Env) (p : Process) : Call → Prop
  | .accept s addr addrlen =>
    let fd := (e.sys (.accept s addr addrlen) p.fdm.kernel).1
    fd < 0 ∨ Found p fd
  | .fcntl fd (.setfl _) => Unlisted p fd
  | .fcntl fd .getfl => Unlisted p fd
  | .fcntl _ (.other _ arg) => arg = none
  | .ioctl d (.fionbio value) => value.isSome ∧ Unlisted p d
  | _ => True

end Hook

/-! ## Objects only ever grow in number -/

namespace FdManager

@[simp] theorem create_made_length (m : FdManager) (fd : Nat) :
    (m.create fd).2.made.length = m.made.length + 1 := by
  rw [create_made, List.length_append, List.length_singleton]

end FdManager

namespace Hook

variable {e : Env} {p p' : Process} {c : Call} {fd : Int} {ctx : Option CtxId}

namespace Process

/-- How many objects have been constructed. -/
def objects (p : Process) : Nat :=
  p.fdm.made.length

@[simp] theorem make_objects (e : Env) (c : Call) (p : Process) :
    (p.make e c).2.objects = p.objects := rfl

@[simp] theorem update_objects (id : CtxId) (u : FdCtx.Update) (p : Process) :
    (p.update id u).objects = p.objects :=
  List.length_modify ..

theorem get_unlisted (hp : p.fdm.outOfBounds = false) (h : Unlisted p fd) :
    p.get fd false = some (none, p) := by
  unfold get
  split
  · rfl
  · rename_i hfd
    have hle : Counting.intOfSize p.fdm.datas.length ≤ fd := h.resolve_left hfd
    split
    · exact if_pos ⟨hle, rfl⟩
    · rename_i hnonneg
      have htoNat : (fd.toNat : Int) = fd := Int.toNat_of_nonneg (Int.not_lt.mp hnonneg)
      rw [FdManager.get, htoNat, if_pos hle, if_pos rfl]
      simp [hp]

/-- A lookup that comes back is one of `FdManager::get` within bounds. -/
theorem get_cases {auto : Bool} (hfd : 0 ≤ fd) (hget : p.get fd auto = some (ctx, p')) :
    (p.fdm.get fd.toNat auto none).2.outOfBounds = false ∧
      ctx = (p.fdm.get fd.toNat auto none).1 ∧
      p' = { p with fdm := (p.fdm.get fd.toNat auto none).2 } := by
  have hne : fd ≠ -1 := by omega
  simp only [get, if_neg hne, if_neg (Int.not_lt.mpr hfd)] at hget
  split at hget
  · cases hget
  · rename_i hbounds
    obtain ⟨hctx, hp'⟩ := Prod.mk.inj (Option.some.inj hget)
    exact ⟨Bool.eq_false_iff.mpr hbounds, hctx.symm, hp'.symm⟩

theorem objects_of_create {auto : Bool} (hfd : 0 ≤ fd)
    (hcreate : p.fdm.get fd.toNat auto none = p.fdm.create fd.toNat)
    (hget : p.get fd auto = some (ctx, p')) : p'.objects = p.objects + 1 := by
  obtain ⟨-, -, hp'⟩ := get_cases hfd hget
  simp only [hp', objects, hcreate, FdManager.create_made_length]

/-- A lookup in the table constructs an object. -/
theorem get_listed {auto : Bool} (h : ¬ Unlisted p fd) (hget : p.get fd auto = some (ctx, p')) :
    p'.objects = p.objects + 1 := by
  obtain ⟨hfd, hlt⟩ := not_or.mp h
  rcases Int.lt_or_le fd 0 with hneg | hnonneg
  · rw [get, if_neg hfd, if_pos hneg, if_neg fun hshort => hlt hshort.1] at hget
    cases hget
  · apply objects_of_create hnonneg _ hget
    rw [FdManager.get, Int.toNat_of_nonneg hnonneg, if_neg hlt]

theorem get_found (hp : p.fdm.outOfBounds = false) (hfd : 0 ≤ fd) (h : Found p fd) :
    ∃ ctx, p.get fd true = some (ctx, p) := by
  obtain ⟨hle, hlive⟩ := h
  obtain ⟨id, hid⟩ := Option.isSome_iff_exists.mp hlive
  have hread : p.fdm.read fd.toNat none = (some id, p.fdm) := by
    rw [FdManager.read, Option.join_eq_some_iff.mp hid]
  have htoNat : (fd.toNat : Int) = fd := Int.toNat_of_nonneg hfd
  have hget : p.fdm.get fd.toNat true none = (some id, p.fdm) := by
    rw [FdManager.get, htoNat, if_pos hle]
    simp [hread]
  refine ⟨some id, ?_⟩
  rw [get, if_neg (by omega), if_neg (Int.not_lt.mpr hfd), hget]
  simp [hp]

theorem get_not_found (hfd : 0 ≤ fd) (h : ¬ Found p fd) (hget : p.get fd true = some (ctx, p')) :
    p'.objects = p.objects + 1 := by
  by_cases hlisted : Unlisted p fd
  · have hle : Counting.intOfSize p.fdm.datas.length ≤ fd := hlisted.resolve_left (by omega)
    have hlive : (p.fdm.datas[fd.toNat]?).join = none := by
      apply Option.not_isSome_iff_eq_none.mp
      exact fun hsome => h ⟨hle, hsome⟩
    apply objects_of_create hfd _ hget
    -- it reads the slot before it creates; beyond the end that read is the last
    cases hslot : p.fdm.datas[fd.toNat]? with
    | none =>
      have hout := FdManager.get_beyond (List.getElem?_eq_none_iff.mp hslot) none
      obtain ⟨hin, -⟩ := get_cases hfd hget
      rw [hout] at hin
      cases hin
    | some slot =>
      have hread : p.fdm.read fd.toNat none = (none, p.fdm) := by
        rw [hslot] at hlive
        rw [FdManager.read, hslot]
        exact congrArg (·, p.fdm) hlive
      rw [FdManager.get, Int.toNat_of_nonneg hfd, if_pos hle]
      simp [hread]
  · exact get_listed hlisted hget

end Process

/-! ## Function by function -/

theorem original_objects {r : Reply} (h : original e c p = some (r, p')) :
    p'.objects = p.objects := by
  cases h
  rfl

theorem ne_original {x : Option (Reply × Process)}
    (h : ∀ r p', x = some (r, p') → p'.objects = p.objects + 1) : x ≠ original e c p := by
  intro heq
  have hone := h _ _ heq
  simp at hone

theorem setfl_iff (hp : p.fdm.outOfBounds = false) (arg : BitVec 32) :
    fcntl e fd (.setfl arg) p = original e (.fcntl fd (.setfl arg)) p ↔ Unlisted p fd := by
  constructor
  · contrapose
    intro hlisted
    apply ne_original
    intro r p' hrun
    simp only [fcntl, Option.bind_eq_bind, Option.bind_eq_some_iff] at hrun
    obtain ⟨⟨ctx, q⟩, hget, hrun⟩ := hrun
    rw [← Process.get_listed hlisted hget]
    cases ctx with
    | none => exact original_objects hrun
    | some id =>
      obtain ⟨ctx, -, hrun⟩ := Option.bind_eq_some_iff.mp hrun
      dsimp only at hrun
      split at hrun
      · exact original_objects hrun
      · exact (original_objects hrun).trans (Process.update_objects ..)
  · intro hunlisted
    simp only [fcntl, Process.get_unlisted hp hunlisted, Option.bind_eq_bind, Option.bind_some]

theorem getfl_iff (hp : p.fdm.outOfBounds = false) :
    fcntl e fd .getfl p = original e (.fcntl fd .getfl) p ↔ Unlisted p fd := by
  have hsame : Unlisted (p.make e (.fcntl fd .getfl)).2 fd ↔ Unlisted p fd := Iff.rfl
  constructor
  · contrapose
    intro hlisted
    apply ne_original
    intro r p' hrun
    simp only [fcntl, Option.bind_eq_bind, Option.bind_eq_some_iff] at hrun
    obtain ⟨⟨ctx, q⟩, hget, hrun⟩ := hrun
    have hone := Process.get_listed (hsame.not.mpr hlisted) hget
    rw [Process.make_objects] at hone
    rw [← hone]
    cases ctx with
    | none =>
      cases hrun
      rfl
    | some id =>
      obtain ⟨ctx, -, hrun⟩ := Option.bind_eq_some_iff.mp hrun
      dsimp only at hrun
      split at hrun
      · cases hrun
        rfl
      · split at hrun
        · cases hrun
          rfl
        · cases hrun
          rfl
  · intro hunlisted
    have hget := Process.get_unlisted (p := (p.make e (.fcntl fd .getfl)).2) hp hunlisted
    simp only [fcntl, hget, Option.bind_eq_bind, Option.bind_some]
    rfl

theorem fionbio_iff (hp : p.fdm.outOfBounds = false) (value : Option (BitVec 32)) :
    ioctl e fd (.fionbio value) p = original e (.ioctl fd (.fionbio value)) p ↔
      value.isSome ∧ Unlisted p fd := by
  cases value with
  | none =>
    constructor
    · intro heq
      cases heq
    · rintro ⟨hsome, -⟩
      cases hsome
  | some arg =>
    rw [Option.isSome_some, eq_self, true_and]
    constructor
    · contrapose
      intro hlisted
      apply ne_original
      intro r p' hrun
      simp only [ioctl, Option.bind_eq_bind, Option.bind_some, Option.bind_eq_some_iff] at hrun
      obtain ⟨⟨ctx, q⟩, hget, hrun⟩ := hrun
      rw [← Process.get_listed hlisted hget]
      cases ctx with
      | none => exact original_objects hrun
      | some id =>
        obtain ⟨ctx, -, hrun⟩ := Option.bind_eq_some_iff.mp hrun
        dsimp only at hrun
        split at hrun
        · exact original_objects hrun
        · exact (original_objects hrun).trans (Process.update_objects ..)
    · intro hunlisted
      simp only [ioctl, Process.get_unlisted hp hunlisted, Option.bind_eq_bind, Option.bind_some]

/-- A command that `fcntl` does not know loses its argument. -/
theorem other_iff (cmd : Int) (arg : Option Word) :
    fcntl e fd (.other cmd arg) p = original e (.fcntl fd (.other cmd arg)) p ↔ arg = none := by
  constructor
  · intro heq
    have htrace := congrArg (Option.map fun r => r.2.trace) heq
    simpa [fcntl, original, Process.make] using htrace.symm
  · rintro rfl
    rfl

/-- `do_io` heeds the switch; `accept` enters what it returned all the same. -/
theorem accept_iff (h : e.hookEnable = false) (hp : p.fdm.outOfBounds = false) (s : Int)
    (addr addrlen : Word) :
    accept e s addr addrlen p = original e (.accept s addr addrlen) p ↔
      (e.sys (.accept s addr addrlen) p.fdm.kernel).1 < 0 ∨
        Found p (e.sys (.accept s addr addrlen) p.fdm.kernel).1 := by
  set c : Call := .accept s addr addrlen with hc
  set fd := (e.sys c p.fdm.kernel).1 with hfd
  have haccept : accept e s addr addrlen p = accepted fd (p.make e c).2 := by
    rw [accept, doIo, if_pos h]
    rfl
  have hsame : Found (p.make e c).2 fd ↔ Found p fd := Iff.rfl
  rw [haccept]
  rcases Int.lt_or_le fd 0 with hneg | hnonneg
  · refine iff_of_true ?_ (.inl hneg)
    rw [accepted, if_neg (Int.not_le.mpr hneg)]
    rfl
  · rw [or_iff_right (Int.not_lt.mpr hnonneg)]
    constructor
    · contrapose
      intro hfound
      apply ne_original
      intro r p' hrun
      rw [accepted, if_pos hnonneg] at hrun
      obtain ⟨⟨ctx, q⟩, hget, hrun⟩ := Option.bind_eq_some_iff.mp hrun
      have hone := Process.get_not_found hnonneg (hsame.not.mpr hfound) hget
      rw [Process.make_objects] at hone
      cases hrun
      exact hone
    · intro hfound
      obtain ⟨ctx, hget⟩ := Process.get_found (p := (p.make e c).2) hp hnonneg (hsame.mpr hfound)
      rw [accepted, if_pos hnonneg, hget]
      rfl

theorem socket_eq (h : e.hookEnable = false) (domain type protocol : BitVec 32) :
    socket e domain type protocol p = original e (.socket domain type protocol) p := by
  simp [socket, original, h]

/-! ## Every function -/

/-- Without the switch, a hooked function is the underlying call alone, with the
caller's arguments, the same result and the same state after it, exactly when the
call is `Transparent`. -/
theorem invoke_eq_original_iff (e : Env) (h : e.hookEnable = false) (c : Call) (p : Process)
    (hp : p.fdm.outOfBounds = false) : invoke e c p = original e c p ↔ Transparent e p c := by
  have hdirect (fd : Int) (fn : Call) (event : IOManager.Event) (timeoutSo : Int) :
      doIo e fd fn event timeoutSo p = original e fn p := if_pos h
  cases c with
  | sleep => exact iff_of_true (if_pos h) trivial
  | socket domain type protocol => exact iff_of_true (socket_eq h domain type protocol) trivial
  | connect => exact iff_of_true (if_pos h) trivial
  | accept s addr addrlen => exact accept_iff h hp s addr addrlen
  | read => exact iff_of_true (hdirect ..) trivial
  | readv => exact iff_of_true (hdirect ..) trivial
  | recv => exact iff_of_true (hdirect ..) trivial
  | recvfrom => exact iff_of_true (hdirect ..) trivial
  | recvmsg => exact iff_of_true (hdirect ..) trivial
  | write => exact iff_of_true (hdirect ..) trivial
  | writev => exact iff_of_true (hdirect ..) trivial
  | send => exact iff_of_true (hdirect ..) trivial
  | sendto => exact iff_of_true (hdirect ..) trivial
  | sendmsg => exact iff_of_true (hdirect ..) trivial
  | close => exact iff_of_true (if_pos h) trivial
  | fcntl fd cmd =>
    cases cmd with
    | setfl arg => exact setfl_iff hp arg
    | getfl => exact getfl_iff hp
    | int => exact iff_of_true rfl trivial
    | get => exact iff_of_true rfl trivial
    | lock => exact iff_of_true rfl trivial
    | owner => exact iff_of_true rfl trivial
    | other cmd arg => exact other_iff cmd arg
  | ioctl d request =>
    cases request with
    | fionbio value => exact fionbio_iff hp value
    | other => exact iff_of_true rfl trivial
  | getsockopt => exact iff_of_true rfl trivial
  | setsockopt => exact iff_of_true (if_pos h) trivial

/-! A blocking socket, open for reading and writing, and a thread without the switch. -/

def blockingSocket : Kernel where
  fstat := fun fd => if fd = 3 then some true else none
  flags := fun fd => if fd = 3 then some 2 else none

/-- Only `F_GETFL` means something here. -/
def unhooked : Env where
  hookEnable := false
  iom := false
  sys := fun c k => match c with
    | .fcntl fd .getfl => ((k.getfl fd).toInt, k)
    | _ => (-1, k)
  granted := false

def plain : Process where
  fdm := FdManager.init blockingSocket
  io := IOManager.init 5 32
  pushed := []
  trace := []

theorem invoke_eq_original_iff_write :
    invoke unhooked (.write 3 0 1) plain = original unhooked (.write 3 0 1) plain ↔
      Transparent unhooked plain (.write 3 0 1) :=
  invoke_eq_original_iff unhooked rfl (.write 3 0 1) plain rfl

/-- Asking for the flags of a socket makes it non-blocking, and hides that. -/
theorem not_invoke_eq_original_getfl :
    ¬ ∀ e : Env, e.hookEnable = false → ∀ (c : Call) (p : Process),
      p.fdm.outOfBounds = false → invoke e c p = original e c p := by
  intro hall
  have heq := hall unhooked rfl (.fcntl 3 .getfl) plain rfl
  have hflags := congrArg (Option.map fun r => (r.1, r.2.fdm.kernel.flags 3)) heq
  have hhooked : (invoke unhooked (.fcntl 3 .getfl) plain).map
      (fun r => (r.1, r.2.fdm.kernel.flags 3)) = some (.returns 2, some 0x802) := by decide
  rw [hhooked] at hflags
  revert hflags
  decide

end Hook
