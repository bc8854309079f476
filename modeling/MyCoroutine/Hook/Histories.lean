-- SUMMARY: Histories of hooked calls with any arguments, and what holds between any two of them.
import MyCoroutine.Lib.TransitionSystem
import MyCoroutine.Hook.Lookups

/-! # Histories of hooked calls

Hooks are enabled. The calls come in any order, with any arguments, from any number
of fibers; a call that waits in `do_io` is taken up again later. The choices of the
kernel are part of the label. -/

namespace Hook

/-! ## States and steps -/

/-- What a call meets: whether `IOManager::GetThis()` is null, the answer to an
`epoll_ctl`, and the choice of the kernel. -/
structure World where
  iom : Bool
  granted : Bool
  choice : Int
  deriving DecidableEq

/-- A thread with hooks enabled. -/
def World.env (w : World) : Env where
  hookEnable := true
  iom := w.iom
  sys := Kernel.answer w.choice
  granted := w.granted

structure State where
  process : Process
  /-- The calls in the loop of `do_io`. -/
  waiting : List Call
  /-- For a socket made by `socket` or `accept` and not closed yet, whether the user
  last asked for the non-blocking mode. No step reads it. -/
  mode : Int → Option Bool

inductive Act where
  | call (c : Call) (w : World)
  /-- The last underlying call of the loop of `c`, and what follows it. -/
  | finish (c : Call) (w : World)
  /-- The flags of an open descriptor change by way of another descriptor of the
  same file. -/
  | reflag (fd : Int) (flags : BitVec 32)
  deriving DecidableEq

/-- The modes after the user's call `c` was answered with `n`. -/
def asked (c : Call) (n : Int) (mode : Int → Option Bool) : Int → Option Bool :=
  match c with
  | .close fd => Function.update mode fd none
  | .socket _ type _ =>
    if n = -1 then mode
    else Function.update mode n (some (decide (type &&& Kernel.sockNonblock ≠ 0)))
  | .accept _ _ _ => if n = -1 then mode else Function.update mode n (some false)
  | .fcntl fd (.setfl arg) =>
    if n = -1 then mode
    else Function.update mode fd ((mode fd).map fun _ => decide (arg &&& oNonblock ≠ 0))
  | .ioctl fd (.fionbio (some arg)) =>
    if n = -1 then mode else Function.update mode fd ((mode fd).map fun _ => decide (arg ≠ 0))
  | _ => mode

/-- The reply to `c`. -/
def State.replied (s : State) (c : Call) (r : Reply × Process) : State :=
  match r.1 with
  | .returns n => { s with process := r.2, mode := asked c n s.mode }
  | .loops .doIo _ _ => { s with process := r.2, waiting := s.waiting ++ [c] }
  | .loops .connectWithTimeout _ _ | .fails _ | .sleeps _ => { s with process := r.2 }

/-- The last underlying call of a loop; `accept` enters what it returned. -/
def finish (e : Env) (c : Call) (p : Process) : Option (Reply × Process) :=
  let r := p.make e c
  match c with
  | .accept _ _ _ => accepted r.1 r.2
  | _ => some (.returns r.1, r.2)

def State.step (s : State) : Act → Option State
  | .call c w => (invoke w.env c s.process).map (s.replied c)
  | .finish c w =>
    if c ∈ s.waiting then
      (finish w.env c s.process).map (State.replied { s with waiting := s.waiting.erase c } c)
    else none
  | .reflag fd flags =>
    if (s.process.fdm.kernel.flags fd).isSome then
      let k := s.process.fdm.kernel.setfl fd flags
      some { s with process := { s.process with fdm := { s.process.fdm with kernel := k } } }
    else none

/-- No call has been made yet. -/
def State.start (kernel : Kernel) (tickleFd size : Nat) : State where
  process :=
    { fdm := FdManager.init kernel
      io := IOManager.init tickleFd size
      pushed := []
      trace := [] }
  waiting := []
  mode := fun _ => none

def histories : TransitionSystem State Act where
  init s := ∃ kernel tickleFd size, kernel.Consistent ∧ s = State.start kernel tickleFd size
  step := State.step

variable {e : Env} {p p' : Process} {c : Call} {fd : Int}

/-! ## States that a history reaches -/

/-- What holds between any two calls. -/
structure Process.Sound (p : Process) : Prop extends p.Steady where
  linked : ∀ (fd : Nat) (id : CtxId), p.fdm.datas[fd]? = some (some id) → id < p.fdm.made.length
  consistent : p.fdm.kernel.Consistent

/-- A slot after a write to one of them. -/
theorem slot_of_set {l : List (Option CtxId)} {n i : Nat} {o : Option CtxId} {id : CtxId}
    (h : (l.set n o)[i]? = some (some id)) :
    i = n ∧ o = some id ∨ i ≠ n ∧ l[i]? = some (some id) := by
  rw [List.getElem?_set] at h
  split at h
  · rename_i heq
    split at h
    · exact .inl ⟨heq.symm, Option.some.inj h⟩
    · cases h
  · rename_i hne
    exact .inr ⟨Ne.symm hne, h⟩

namespace Process

theorem Sound.enter (hp : p.Sound) (fd : Nat) : (p.enter fd).Sound where
  toSteady := hp.toSteady.enter fd
  linked := by
    intro i id hid
    simp only [Process.enter, List.length_append, List.length_singleton] at hid ⊢
    rcases slot_of_set hid with ⟨-, hnew⟩ | ⟨-, hold⟩
    · cases hnew
      exact Nat.lt_succ_self _
    · exact Nat.lt_succ_of_lt (hp.linked i id hold)
  consistent := hp.consistent.new fd

theorem Sound.make (hp : p.Sound) (w : World) (c : Call) : (p.make w.env c).2.Sound where
  toSteady := ⟨hp.sized, hp.bounds⟩
  linked := hp.linked
  consistent := hp.consistent.answer w.choice c

theorem Sound.update (hp : p.Sound) (id : CtxId) (u : FdCtx.Update) : (p.update id u).Sound where
  toSteady := ⟨hp.sized, hp.bounds⟩
  linked := by
    intro i id' hid
    simp only [Process.update, FdManager.call, List.length_modify]
    exact hp.linked i id' hid
  consistent := hp.consistent

theorem Sound.quietly (hp : p.Sound) {w : World} (h : Quietly w.env p p') : p'.Sound := by
  induction h with
  | refl => exact hp
  | enter _ _ ih => exact ih.enter _
  | make _ _ ih => exact ih.make w _
  | setTimeout id type t _ ih => exact ih.update id _

theorem Sound.original (hp : p.Sound) {w : World} {r : Reply} {fn : Call}
    (h : original w.env fn p = some (r, p')) : p'.Sound := by
  cases h
  exact hp.make w fn

/-- The table without the entry of a descriptor inside it. -/
theorem Steady.del_inside (hp : p.Steady) (hfd : p.Inside fd) :
    p.fdm.del fd.toNat = { p.fdm with datas := p.fdm.datas.set fd.toNat none } := by
  obtain ⟨hnonneg, hlt⟩ := hfd
  have hint := Counting.intOfSize_eq hp.sized.2
  have hslot : fd.toNat < p.fdm.datas.length := by omega
  rw [FdManager.del, hint, if_neg (by omega), FdManager.write, if_pos hslot]

theorem Sound.del (hp : p.Sound) (hfd : p.Inside fd) {q : Process}
    (hq : q.fdm = p.fdm.del fd.toNat) : q.Sound := by
  rw [hp.del_inside hfd] at hq
  refine ⟨⟨?_, ?_⟩, ?_, ?_⟩
  · rw [hq, FdManager.Sized]
    simp only [List.length_set]
    exact hp.sized
  · rw [hq]
    exact hp.bounds
  · intro i id hid
    rw [hq] at hid ⊢
    rcases slot_of_set hid with ⟨-, hnew⟩ | ⟨-, hold⟩
    · cases hnew
    · exact hp.linked i id hold
  · rw [hq]
    exact hp.consistent

@[simp] theorem enter_inside (p : Process) {n : Nat} : (p.enter n).Inside fd ↔ p.Inside fd := by
  simp only [Inside, enter, List.length_set]

end Process

theorem Process.Sound.invoke (hp : p.Sound) {w : World} {r : Reply}
    (h : invoke w.env c p = some (r, p')) : p'.Sound := by
  by_cases hc : c.Quiet
  · exact hp.quietly (invoke_quietly hp.toSteady rfl hc h)
  · unfold Call.Quiet at hc
    split at hc
    · rename_i fd
      rcases close_cases hp.toSteady rfl h with ⟨-, h⟩ | ⟨hfd, q, hq, h⟩
      · exact hp.original h
      · have hin : (p.enter fd.toNat).Inside fd := p.enter_inside.mpr hfd
        exact ((hp.enter _).del hin hq).original h
    · rcases setfl_cases hp.toSteady h with ⟨-, h⟩ | ⟨-, -, h⟩ | ⟨-, -, h⟩
      · exact hp.original h
      · exact (hp.enter _).original h
      · exact ((hp.enter _).update _ _).original h
    · obtain ⟨arg, -, ⟨-, h⟩ | ⟨-, -, h⟩ | ⟨-, -, h⟩⟩ := fionbio_cases hp.toSteady h
      · exact hp.original h
      · exact (hp.enter _).original h
      · exact ((hp.enter _).update _ _).original h
    · exact absurd trivial hc

theorem finish_quietly {r : Reply} (hp : p.Steady) (hc : c.Quiet)
    (h : finish e c p = some (r, p')) : Quietly e p p' := by
  have hmade : Quietly e p (p.make e c).2 := .make hc (.refl p)
  unfold finish at h
  split at h
  · exact accepted_quietly hp hmade h
  · cases h
    exact hmade

structure State.Sound (s : State) : Prop where
  process : s.process.Sound
  waiting : ∀ c ∈ s.waiting, ∃ t, c.transfer = some t

@[simp] theorem State.replied_process (s : State) (c : Call) (r : Reply × Process) :
    (s.replied c r).process = r.2 := by
  unfold replied
  split <;> rfl

theorem State.Sound.step {s s' : State} (hs : s.Sound) {a : Act} (h : s.step a = some s') :
    s'.Sound := by
  cases a with
  | call c w =>
    obtain ⟨⟨reply, p⟩, hr, rfl⟩ := Option.map_eq_some_iff.mp h
    refine ⟨?_, ?_⟩
    · rw [replied_process]
      exact hs.process.invoke hr
    · unfold replied
      split
      · exact hs.waiting
      · rename_i hloops
        cases hloops
        intro c' hc'
        rcases List.mem_append.mp hc' with hold | hnew
        · exact hs.waiting c' hold
        · cases List.mem_singleton.mp hnew
          exact transfer_of_loops hs.process.toSteady rfl hr
      all_goals exact hs.waiting
  | finish c w =>
    simp only [State.step] at h
    split at h
    · rename_i hc
      obtain ⟨r, hr, rfl⟩ := Option.map_eq_some_iff.mp h
      obtain ⟨t, ht⟩ := hs.waiting c hc
      have hrest : ∀ c' ∈ s.waiting.erase c, ∃ t, c'.transfer = some t := fun c' hc' =>
        hs.waiting c' (List.mem_of_mem_erase hc')
      refine ⟨?_, ?_⟩
      · rw [replied_process]
        have hquiet := Call.quiet_of_transfer ht
        exact hs.process.quietly (finish_quietly hs.process.toSteady hquiet hr)
      · unfold replied
        split
        · exact hrest
        · intro c' hc'
          rcases List.mem_append.mp hc' with hold | hnew
          · exact hrest c' hold
          · cases List.mem_singleton.mp hnew
            exact ⟨t, ht⟩
        all_goals exact hrest
    · cases h
  | reflag fd flags =>
    simp only [State.step] at h
    split at h
    · cases h
      refine ⟨⟨⟨hs.process.sized, hs.process.bounds⟩, hs.process.linked, ?_⟩, hs.waiting⟩
      exact hs.process.consistent.setfl fd flags
    · cases h

theorem State.start_sound {kernel : Kernel} (h : kernel.Consistent) (tickleFd size : Nat) :
    (State.start kernel tickleFd size).Sound where
  process := by
    refine ⟨⟨FdManager.init_sized kernel, rfl⟩, ?_, h⟩
    intro i id hid
    have hempty : some id ∈ List.replicate 64 none := List.mem_of_getElem? hid
    cases List.eq_of_mem_replicate hempty
  waiting := by
    intro c hc
    cases hc

theorem sound_preserved (G : State → Act → Prop) : histories.Preserved G State.Sound :=
  fun _ _ _ hs _ h => hs.step h

/-! Runs on fixed calls start from no open descriptor. -/

def fresh : State :=
  State.start FdManager.noKernel 5 32

theorem fresh_init : histories.init fresh :=
  ⟨FdManager.noKernel, 5, 32, fun _ => rfl, rfl⟩

/-- A world in which the kernel answers `n`. -/
def World.answering (n : Int) : World where
  iom := true
  granted := true
  choice := n

end Hook
