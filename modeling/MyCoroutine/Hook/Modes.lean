-- SUMMARY: The three views of the non-blocking mode of a socket, and the histories in which they agree.
import MyCoroutine.Hook.Histories

/-! # Modes

Whether a socket is non-blocking is written down three times: in the flags of the
kernel, in `m_sysNoBlock` and in `m_userNoBlock`. A socket in the table is meant to
be non-blocking in the kernel at all times, while `F_GETFL` and `do_io` go by what
the user asked for. -/

/-! ## Entries that are sockets -/

namespace FdManager

/-- The entry of `fd` is a socket with `m_sysNoBlock`. -/
def SocketEntry (m : FdManager) (fd : Nat) : Prop :=
  ∃ id c, m.datas[fd]? = some (some id) ∧ m.made[id]? = some c ∧ c.isSocket ∧ c.sysNoBlock

/-- Whatever the user asked for, the sockets in the table never block. -/
def NonBlocking (m : FdManager) : Prop :=
  ∀ fd, m.SocketEntry fd → ∃ f, m.kernel.flags fd = some f ∧ f &&& oNonblock ≠ 0

theorem SocketEntry.lt {m : FdManager} {fd : Nat} (h : m.SocketEntry fd) : fd < m.datas.length := by
  obtain ⟨id, c, hslot, -⟩ := h
  exact (List.getElem?_eq_some_iff.mp hslot).1

end FdManager

namespace Hook

open FdManager (SocketEntry NonBlocking)

variable {p p' : Process} {c : Call} {w : World} {fd : Int} {i n : Nat}

namespace Process

theorem Sound.socketEntry_enter (hp : p.Sound) (hi : (p.enter n).fdm.SocketEntry i) :
    i = n ∧ p.fdm.kernel.fstat n = some true ∨ i ≠ n ∧ p.fdm.SocketEntry i := by
  obtain ⟨id, c, hslot, hmade, hsocket, hsys⟩ := hi
  rcases slot_of_set hslot with ⟨rfl, hnew⟩ | ⟨hne, hold⟩
  · cases hnew
    refine .inl ⟨rfl, ?_⟩
    have hc : (FdCtx.new p.fdm.kernel i).1 = c := by
      simpa [Process.enter] using hmade
    rw [← hc, FdCtx.new_isSocket] at hsocket
    exact of_decide_eq_true hsocket
  · refine .inr ⟨hne, id, c, hold, ?_, hsocket, hsys⟩
    have hlt := hp.linked i id hold
    simpa [Process.enter, List.getElem?_append_left hlt] using hmade

theorem socketEntry_update {id : CtxId} {u : FdCtx.Update}
    (hu : ∀ c : FdCtx,
      (c.update u).isSocket = c.isSocket ∧ (c.update u).sysNoBlock = c.sysNoBlock) :
    (p.update id u).fdm.SocketEntry i ↔ p.fdm.SocketEntry i := by
  have hsame (j : CtxId) (c : FdCtx) : (if id = j then c.update u else c).isSocket = c.isSocket ∧
      (if id = j then c.update u else c).sysNoBlock = c.sysNoBlock := by
    split
    · exact hu c
    · exact ⟨rfl, rfl⟩
  simp only [SocketEntry, update, FdManager.call, List.getElem?_modify]
  constructor
  · rintro ⟨j, c, hslot, hmade, hsocket, hsys⟩
    obtain ⟨c, hc, rfl⟩ := Option.map_eq_some_iff.mp hmade
    exact ⟨j, c, hslot, hc, (hsame j c).1 ▸ hsocket, (hsame j c).2 ▸ hsys⟩
  · rintro ⟨j, c, hslot, hmade, hsocket, hsys⟩
    refine ⟨j, _, hslot, Option.map_eq_some_iff.mpr ⟨c, hmade, rfl⟩, ?_⟩
    exact ⟨(hsame j c).1.trans hsocket, (hsame j c).2.trans hsys⟩

theorem socketEntry_enter_self (hfd : p.Inside fd) (hkind : p.fdm.kernel.fstat fd = some true) :
    (p.enter fd.toNat).fdm.SocketEntry fd.toNat := by
  obtain ⟨n, rfl⟩ := Int.eq_ofNat_of_zero_le hfd.1
  have hlt : n < p.fdm.datas.length := by exact_mod_cast hfd.2
  have hsocket : (FdCtx.new p.fdm.kernel n).1.isSocket = true := by
    rw [FdCtx.new_isSocket]
    exact decide_eq_true hkind
  refine ⟨p.fdm.made.length, _, ?_, p.enter_ctx n, hsocket, ?_⟩
  · simp [enter, hlt]
  · rw [FdCtx.new_sysNoBlock, hsocket]

end Process

/-! ## Keeping the sockets non-blocking -/

theorem update_setUserNoBlock (flag : Bool) (c : FdCtx) :
    (c.update (.setUserNoBlock flag)).isSocket = c.isSocket ∧
      (c.update (.setUserNoBlock flag)).sysNoBlock = c.sysNoBlock :=
  ⟨rfl, rfl⟩

theorem update_setTimeout (type t : Int) (c : FdCtx) :
    (c.update (.setTimeout type t)).isSocket = c.isSocket ∧
      (c.update (.setTimeout type t)).sysNoBlock = c.sysNoBlock := by
  simp only [FdCtx.update]
  split <;> exact ⟨rfl, rfl⟩

namespace Process

theorem Sound.nonBlocking_enter (hp : p.Sound) (h : NonBlocking p.fdm) (n : Nat) :
    NonBlocking (p.enter n).fdm := by
  intro i hi
  have hkernel : (p.enter n).fdm.kernel = (FdCtx.new p.fdm.kernel n).2 := rfl
  rw [hkernel, FdCtx.new_kernel]
  rcases hp.socketEntry_enter hi with ⟨rfl, hsocket⟩ | ⟨hne, hi⟩
  · have hopen : (p.fdm.kernel.flags i).isSome := by
      rw [hp.consistent i, hsocket]
      rfl
    obtain ⟨f, hf⟩ := Option.isSome_iff_exists.mp hopen
    refine ⟨f ||| oNonblock, ?_, or_oNonblock_and f⟩
    simp [hsocket, hf]
  · obtain ⟨f, hf, hbit⟩ := h i hi
    refine ⟨f, ?_, hbit⟩
    have hne' : (i : Int) ≠ n := by exact_mod_cast hne
    split
    · simpa [hne'] using hf
    · exact hf

theorem nonBlocking_update (h : NonBlocking p.fdm) (id : CtxId) {u : FdCtx.Update}
    (hu : ∀ c : FdCtx,
      (c.update u).isSocket = c.isSocket ∧ (c.update u).sysNoBlock = c.sysNoBlock) :
    NonBlocking (p.update id u).fdm :=
  fun i hi => h i ((socketEntry_update hu).mp hi)

theorem Sound.nonBlocking_make (hp : p.Sound) (h : NonBlocking p.fdm) (hc : c.Quiet) :
    NonBlocking (p.make w.env c).2.fdm := by
  intro i hi
  obtain ⟨f, hf, hbit⟩ := h i hi
  have hopen : (p.fdm.kernel.fstat i).isSome := by
    rw [← hp.consistent i, hf]
    rfl
  have hsame := (p.fdm.kernel.answer_extends w.choice hc i hopen).2
  exact ⟨f, hsame.trans hf, hbit⟩

theorem Sound.nonBlocking_quietly (hp : p.Sound) (h : NonBlocking p.fdm)
    (hq : Quietly w.env p p') : NonBlocking p'.fdm := by
  induction hq with
  | refl => exact h
  | enter _ hq ih => exact (hp.quietly hq).nonBlocking_enter ih _
  | make hc hq ih => exact (hp.quietly hq).nonBlocking_make ih hc
  | setTimeout id type t _ ih => exact nonBlocking_update ih id (update_setTimeout type t)

/-- The flags of `fd` do not change, or become non-blocking, or it has no socket entry. -/
theorem nonBlocking_changed (h : NonBlocking p.fdm) {g : BitVec 32 → BitVec 32} {choice : Int}
    (hg : choice = -1 ∨ (∀ f, g f &&& oNonblock ≠ 0) ∨ ∀ i : Nat, i = fd → ¬ p.fdm.SocketEntry i)
    (hc : Kernel.answer w.choice c p.fdm.kernel = p.fdm.kernel.changed choice fd g) :
    NonBlocking (p.make w.env c).2.fdm := by
  intro i hi
  obtain ⟨f, hf, hbit⟩ := h i hi
  have hkernel : (p.make w.env c).2.fdm.kernel = (p.fdm.kernel.changed choice fd g).2 :=
    congrArg Prod.snd hc
  have hentry : p.fdm.SocketEntry i := hi
  rw [hkernel, Kernel.changed]
  split
  · exact ⟨f, hf, hbit⟩
  · rename_i f' hf'
    split
    · exact ⟨f, hf, hbit⟩
    · rename_i hchoice
      rcases eq_or_ne (i : Int) fd with rfl | hne
      · refine ⟨g f', ?_, ?_⟩
        · simp [Kernel.setfl, hf']
        · rcases hg with hfails | hset | hnone
          · exact absurd hfails hchoice
          · exact hset f'
          · exact absurd hentry (hnone i rfl)
      · refine ⟨f, ?_, hbit⟩
        simpa [Kernel.setfl, hne] using hf

/-- A descriptor outside the table has no entry. -/
theorem not_socketEntry_of_outside (h : ¬ p.Inside fd) (i : Nat) (hi : i = fd) :
    ¬ p.fdm.SocketEntry i := by
  intro hentry
  have hlt := hentry.lt
  apply h
  simp only [Inside]
  omega

/-- A descriptor that was no socket when it was looked up has no socket entry. -/
theorem Sound.not_socketEntry_enter (hp : p.Sound) (hfd : p.Inside fd)
    (hkind : p.fdm.kernel.fstat fd ≠ some true) (i : Nat) (hi : i = fd) :
    ¬ (p.enter fd.toNat).fdm.SocketEntry i := by
  intro hentry
  have htoNat : (fd.toNat : Int) = fd := Int.toNat_of_nonneg hfd.1
  rcases hp.socketEntry_enter hentry with ⟨-, hsocket⟩ | ⟨hne, -⟩
  · rw [htoNat] at hsocket
    exact hkind hsocket
  · omega

end Process

/-- The user asks for the blocking mode of a socket in the table by `ioctl`, and the
kernel obeys. -/
def Unblocks (p : Process) (w : World) : Call → Prop
  | .ioctl fd (.fionbio (some arg)) =>
    arg = 0 ∧ w.choice ≠ -1 ∧ p.Inside fd ∧ p.fdm.kernel.fstat fd = some true
  | _ => False

theorem setfl_nonblock (f arg : BitVec 32) :
    (f &&& ~~~Kernel.settable ||| (arg ||| oNonblock) &&& Kernel.settable) &&& oNonblock ≠ 0 := by
  have hsettable : Kernel.settable.getLsbD 11 = true := by decide
  have hbit : oNonblock.getLsbD 11 = true := by decide
  rw [Ne, and_oNonblock_eq_zero]
  simp [hsettable, hbit]

section

variable {r : Reply} (hp : p.Sound) (h : NonBlocking p.fdm)

include hp h

theorem nonBlocking_close (hrun : close w.env fd p = some (r, p')) : NonBlocking p'.fdm := by
  -- the underlying call changes a descriptor that has no entry by then
  have hclosed {q : Process} (hq : NonBlocking q.fdm) (hnone : ∀ i : Nat, i = fd →
      ¬ q.fdm.SocketEntry i) : NonBlocking (q.make w.env (.close fd)).2.fdm := by
    intro i hi
    have hentry : q.fdm.SocketEntry i := hi
    obtain ⟨f, hf, hbit⟩ := hq i hentry
    have hne : (i : Int) ≠ fd := fun heq => hnone i heq hentry
    refine ⟨f, ?_, hbit⟩
    simp only [Process.make, World.env, Kernel.answer]
    split
    · simpa [hne] using hf
    · exact hf
  rcases close_cases hp.toSteady rfl hrun with ⟨hout, hrun⟩ | ⟨hin, q, hq, hrun⟩
  · cases hrun
    exact hclosed h (Process.not_socketEntry_of_outside hout)
  · cases hrun
    have hentered := hp.nonBlocking_enter h fd.toNat
    rw [(hp.toSteady.enter _).del_inside (p.enter_inside.mpr hin)] at hq
    have hdel {i : Nat} (hi : q.fdm.SocketEntry i) :
        i ≠ fd.toNat ∧ (p.enter fd.toNat).fdm.SocketEntry i := by
      obtain ⟨id, c, hslot, hmade, hkind⟩ := hi
      rw [hq] at hslot hmade
      rcases slot_of_set hslot with ⟨-, hnew⟩ | ⟨hne, hold⟩
      · cases hnew
      · exact ⟨hne, id, c, hold, hmade, hkind⟩
    apply hclosed
    · intro i hi
      rw [hq]
      exact hentered i (hdel hi).2
    · intro i hi hentry
      have hne := (hdel hentry).1
      omega

theorem nonBlocking_setfl {arg : BitVec 32} (hrun : fcntl w.env fd (.setfl arg) p = some (r, p')) :
    NonBlocking p'.fdm := by
  rcases setfl_cases hp.toSteady hrun with ⟨hout, hrun⟩ | ⟨hin, hkind, hrun⟩ | ⟨hin, hkind, hrun⟩
  · cases hrun
    exact Process.nonBlocking_changed h (.inr (.inr (Process.not_socketEntry_of_outside hout))) rfl
  · cases hrun
    exact Process.nonBlocking_changed (hp.nonBlocking_enter h _)
      (.inr (.inr (hp.not_socketEntry_enter hin hkind))) rfl
  · cases hrun
    have hasked := Process.nonBlocking_update (hp.nonBlocking_enter h fd.toNat)
      p.fdm.made.length (update_setUserNoBlock (arg &&& oNonblock ≠ 0))
    exact Process.nonBlocking_changed hasked (.inr (.inl fun f => setfl_nonblock f arg)) rfl

theorem nonBlocking_fionbio {value : Option (BitVec 32)}
    (hkeeps : ¬ Unblocks p w (.ioctl fd (.fionbio value)))
    (hrun : ioctl w.env fd (.fionbio value) p = some (r, p')) : NonBlocking p'.fdm := by
  obtain ⟨arg, rfl, ⟨hout, hrun⟩ | ⟨hin, hkind, hrun⟩ | ⟨hin, hkind, hrun⟩⟩ :=
    fionbio_cases hp.toSteady hrun
  · cases hrun
    exact Process.nonBlocking_changed h (.inr (.inr (Process.not_socketEntry_of_outside hout))) rfl
  · cases hrun
    exact Process.nonBlocking_changed (hp.nonBlocking_enter h _)
      (.inr (.inr (hp.not_socketEntry_enter hin hkind))) rfl
  · cases hrun
    have hasked := Process.nonBlocking_update (hp.nonBlocking_enter h fd.toNat)
      p.fdm.made.length (update_setUserNoBlock (arg ≠ 0))
    refine Process.nonBlocking_changed hasked ?_ rfl
    rcases eq_or_ne arg 0 with hzero | hset
    · left
      by_contra hchoice
      exact hkeeps ⟨hzero, hchoice, hin, hkind⟩
    · right
      left
      intro f
      rw [if_pos hset]
      exact or_oNonblock_and f

theorem nonBlocking_invoke (hkeeps : ¬ Unblocks p w c) (hrun : invoke w.env c p = some (r, p')) :
    NonBlocking p'.fdm := by
  by_cases hc : c.Quiet
  · exact hp.nonBlocking_quietly h (invoke_quietly hp.toSteady rfl hc hrun)
  · unfold Call.Quiet at hc
    split at hc
    · exact nonBlocking_close hp h hrun
    · exact nonBlocking_setfl hp h hrun
    · exact nonBlocking_fionbio hp h hkeeps hrun
    · exact absurd trivial hc

end

/-! ## Histories that keep the sockets non-blocking -/

/-- Descriptor flags change in no other way: no descriptor shares its file with another. -/
def Act.Unshared : Act → Prop
  | .reflag _ _ | .call (.fcntl _ (.int .dupfd _)) _ | .call (.fcntl _ (.int .dupfdCloexec _)) _ =>
    False
  | _ => True

instance (a : Act) : Decidable a.Unshared := by
  unfold Act.Unshared
  split <;> infer_instance

/-- No socket in the table is made blocking by `ioctl`. -/
def State.Keeps (s : State) : Act → Prop
  | .call c w => ¬ Unblocks s.process w c
  | .finish _ _ | .reflag _ _ => True

instance (p : Process) (fd : Int) : Decidable (p.Inside fd) :=
  inferInstanceAs (Decidable (_ ∧ _))

instance (p : Process) (w : World) (c : Call) : Decidable (Unblocks p w c) := by
  unfold Unblocks
  split <;> infer_instance

instance (s : State) (a : Act) : Decidable (s.Keeps a) := by
  unfold State.Keeps
  split <;> infer_instance

/-- A history whose flags change by its own calls only, and in which no socket in
the table is made blocking by `ioctl`. -/
def Keeping (s : State) (a : Act) : Prop :=
  a.Unshared ∧ s.Keeps a

instance (s : State) (a : Act) : Decidable (Keeping s a) :=
  inferInstanceAs (Decidable (_ ∧ _))

theorem nonBlocking_step {s s' : State} {a : Act} (hs : s.Sound)
    (h : NonBlocking s.process.fdm) (hg : Keeping s a) (hstep : s.step a = some s') :
    NonBlocking s'.process.fdm := by
  cases a with
  | call c w =>
    obtain ⟨r, hr, rfl⟩ := Option.map_eq_some_iff.mp hstep
    rw [State.replied_process]
    exact nonBlocking_invoke hs.process h hg.2 hr
  | finish c w =>
    simp only [State.step] at hstep
    split at hstep
    · rename_i hc
      obtain ⟨r, hr, rfl⟩ := Option.map_eq_some_iff.mp hstep
      rw [State.replied_process]
      obtain ⟨t, ht⟩ := hs.waiting c hc
      have hq := finish_quietly hs.process.toSteady (Call.quiet_of_transfer ht) hr
      exact hs.process.nonBlocking_quietly h hq
    · cases hstep
  | reflag => exact absurd hg.1 id

/-- In a history that makes no socket in the table blocking by `ioctl`, every
socket with an entry is non-blocking in the kernel at all times. -/
theorem nonBlocking_of_reachable {s : State} (h : histories.Reachable Keeping s) :
    NonBlocking s.process.fdm := by
  have hpreserved := (sound_preserved Keeping).and_of (I := fun s => NonBlocking s.process.fdm)
    fun s a t hs hn hg hstep => nonBlocking_step hs hn hg hstep
  refine (hpreserved.reachable ?_ h).2
  rintro s₀ ⟨kernel, tickleFd, size, hkernel, rfl⟩
  refine ⟨State.start_sound hkernel tickleFd size, ?_⟩
  rintro i ⟨id, c, hslot, -⟩
  -- the table starts out empty
  have hempty : some id ∈ List.replicate 64 none := List.mem_of_getElem? hslot
  cases List.eq_of_mem_replicate hempty

/-! Descriptor 3 is made by `socket`, and asked to be non-blocking and blocking again. -/

def socketRun : List Act :=
  [.call (.socket 2 1 0) (.answering 3), .call (.fcntl 3 (.setfl 0x800)) (.answering 0),
    .call (.fcntl 3 (.setfl 0)) (.answering 0)]

theorem nonBlocking_of_reachable_socketRun :
    ∃ s, histories.Reachable Keeping s ∧ NonBlocking s.process.fdm ∧
      s.process.fdm.kernel.flags 3 = some 0x802 := by
  obtain ⟨s, hs, hflags⟩ := TransitionSystem.Reachable.of_replay (T := histories) (G := Keeping)
    (g := fun s a => Keeping s a) (fun _ _ hg => of_decide_eq_true hg)
    (l := socketRun) (p := fun s => s.process.fdm.kernel.flags 3 = some 0x802) fresh_init
    (by decide)
  exact ⟨s, hs, nonBlocking_of_reachable hs, of_decide_eq_true hflags⟩

/-- `ioctl` alone, where `fcntl` would have kept the flag. -/
def ioctlRun : List Act :=
  [.call (.socket 2 1 0) (.answering 3), .call (.ioctl 3 (.fionbio (some 0))) (.answering 0)]

theorem not_nonBlocking_of_ioctl :
    ¬ ∀ s, histories.Reachable (fun _ a => a.Unshared) s → NonBlocking s.process.fdm := by
  intro hall
  obtain ⟨s, hs, hend⟩ := TransitionSystem.Reachable.of_replay (T := histories)
    (G := fun _ a => a.Unshared) (g := fun _ a => a.Unshared)
    (fun _ _ hg => of_decide_eq_true hg) (l := ioctlRun)
    (p := fun s => s.process.fdm.kernel.flags 3 = some 2 ∧
      s.process.fdm.datas[3]? = some (some 1) ∧
      (s.process.fdm.made[1]?).any fun c => c.isSocket && c.sysNoBlock) fresh_init (by decide)
  obtain ⟨hflags, hslot, hmade⟩ := of_decide_eq_true hend
  obtain ⟨c, hc, hkind⟩ := (Option.any_eq_true _ _).mp hmade
  obtain ⟨f, hf, hbit⟩ := hall s hs 3 ⟨1, c, hslot, hc, Bool.and_eq_true_iff.mp hkind⟩
  have hsame : f = 2 := Option.some.inj (hf.symm.trans hflags)
  rw [hsame] at hbit
  exact hbit (by decide)

/-- Every such `ioctl` breaks it. -/
theorem not_nonBlocking_of_unblocks {s s' : State} (hs : s.Sound) {w : World}
    (hbad : Unblocks s.process w c) (hstep : s.step (.call c w) = some s') :
    ¬ NonBlocking s'.process.fdm := by
  unfold Unblocks at hbad
  split at hbad
  · rename_i fd arg
    obtain ⟨rfl, hchoice, hin, hkind⟩ := hbad
    obtain ⟨⟨r, p'⟩, hr, rfl⟩ := Option.map_eq_some_iff.mp hstep
    obtain ⟨arg, harg, ⟨hout, -⟩ | ⟨-, hnot, -⟩ | ⟨-, -, hrun⟩⟩ :=
      fionbio_cases hs.process.toSteady hr
    · exact absurd hin hout
    · exact absurd hkind hnot
    · cases hrun
      rw [State.replied_process]
      intro hall
      have hentry : ((s.process.enter fd.toNat).update s.process.fdm.made.length
          (.setUserNoBlock (arg ≠ 0))).fdm.SocketEntry fd.toNat :=
        (Process.socketEntry_update (update_setUserNoBlock (arg ≠ 0))).mpr
          (Process.socketEntry_enter_self hin hkind)
      obtain ⟨f, hf, hbit⟩ := hall fd.toNat hentry
      rw [Int.toNat_of_nonneg hin.1] at hf
      simp only [Process.make, World.env, Kernel.answer, Kernel.changed, if_neg hchoice] at hf
      split at hf
      · rename_i hnone
        rw [hnone] at hf
        cases hf
      · rename_i f' hf'
        simp only [Kernel.setfl, Function.update_self, hf', Option.map_some] at hf
        cases hf
        exact hbit (clear_oNonblock_and f')
  · exact absurd hbad id

end Hook
