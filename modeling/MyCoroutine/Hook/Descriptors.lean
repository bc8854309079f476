-- SUMMARY: What the underlying calls do to the descriptors of the kernel, and what constructing an FdCtx does to one.
import MyCoroutine.Hook.Calls

/-! # Descriptors

The underlying calls do to the descriptors what Linux does: `Kernel.answer`. What
the descriptors do not determine, such as the number of a new one or whether data
is there, is a parameter of the answer. -/

/-! ## The mode bit -/

section

variable {f : BitVec 32}

private theorem oNonblock_eq : oNonblock = BitVec.twoPow 32 11 := by
  decide

theorem and_oNonblock_eq_zero : f &&& oNonblock = 0 ↔ f.getLsbD 11 = false := by
  rw [oNonblock_eq, BitVec.and_twoPow]
  cases f.getLsbD 11 <;> decide

theorem or_oNonblock_eq_self (h : f &&& oNonblock ≠ 0) : f ||| oNonblock = f := by
  have hbit : f.getLsbD 11 = true := by
    apply Bool.of_not_eq_false
    exact and_oNonblock_eq_zero.not.mp h
  apply BitVec.eq_of_getLsbD_eq
  intro i hi
  rw [oNonblock_eq, BitVec.getLsbD_or, BitVec.getLsbD_twoPow]
  rcases eq_or_ne 11 i with rfl | hne
  · simp [hbit]
  · simp [hne]

theorem or_oNonblock_and (f : BitVec 32) : (f ||| oNonblock) &&& oNonblock ≠ 0 := by
  rw [Ne, and_oNonblock_eq_zero, oNonblock_eq]
  simp

theorem clear_oNonblock_and (f : BitVec 32) : f &&& ~~~oNonblock &&& oNonblock = 0 := by
  have hclear : ~~~oNonblock &&& oNonblock = 0#32 := by decide
  rw [BitVec.and_assoc, hclear]
  exact BitVec.and_zero

end

/-! ## The kernel -/

namespace Kernel

/-- The flags that `F_SETFL` can change: `O_APPEND`, `O_NONBLOCK`, `O_ASYNC`,
`O_DIRECT` and `O_NOATIME`. -/
def settable : BitVec 32 := 0x46C00

/-- `SOCK_NONBLOCK`. -/
def sockNonblock : BitVec 32 := 0x800

/-- A new descriptor `fd`, if that number is free. -/
def opened (fd : Int) (isSocket : Bool) (flags : BitVec 32) (k : Kernel) : Int × Kernel :=
  if 0 ≤ fd ∧ k.fstat fd = none then
    (fd, { fstat := Function.update k.fstat fd (some isSocket)
           flags := Function.update k.flags fd (some flags) })
  else (-1, k)

/-- A change of the flags of `fd`; -1 where there is no such descriptor. -/
def changed (choice fd : Int) (g : BitVec 32 → BitVec 32) (k : Kernel) : Int × Kernel :=
  match k.flags fd with
  | none => (-1, k)
  | some f => if choice = -1 then (-1, k) else (0, k.setfl fd (g f))

/-- What the underlying call returns, and the descriptors after it. `choice` is
the part of the answer that they do not determine: the number of a new descriptor,
a count, or -1 for a failure. -/
def answer (choice : Int) (c : Hook.Call) (k : Kernel) : Int × Kernel :=
  match c with
  -- open for reading and writing
  | .socket _ type _ => k.opened choice true (2 ||| type &&& sockNonblock)
  | .accept s _ _ => if k.fstat s = some true then k.opened choice true 2 else (-1, k)
  | .close fd =>
    if (k.flags fd).isSome then
      (0, { fstat := Function.update k.fstat fd none, flags := Function.update k.flags fd none })
    else (-1, k)
  | .fcntl fd (.setfl arg) => k.changed choice fd fun f => f &&& ~~~settable ||| arg &&& settable
  | .fcntl fd .getfl =>
    match k.flags fd with
    | none => (-1, k)
    | some f => (f.toInt, k)
  | .fcntl fd (.int .dupfd _) | .fcntl fd (.int .dupfdCloexec _) =>
    match k.fstat fd with
    | none => (-1, k)
    | some isSocket => k.opened choice isSocket (k.getfl fd)
  | .ioctl fd (.fionbio (some arg)) =>
    k.changed choice fd fun f => if arg ≠ 0 then f ||| oNonblock else f &&& ~~~oNonblock
  | _ => (choice, k)

/-- A descriptor that is open has flags, and no other has. -/
def Consistent (k : Kernel) : Prop :=
  ∀ fd, (k.flags fd).isSome = (k.fstat fd).isSome

end Kernel

namespace Hook

/-- The underlying call changes no flag of an open descriptor, and closes none. -/
def Call.Quiet : Call → Prop
  | .close _ | .fcntl _ (.setfl _) | .ioctl _ (.fionbio _) => False
  | _ => True

end Hook

/-! ## What the kernel keeps -/

namespace Kernel

variable {k : Kernel} {choice fd : Int} {c : Hook.Call} {flags : BitVec 32}

/-- Every open descriptor is as it was. -/
def Extends (k k' : Kernel) : Prop :=
  ∀ fd, (k.fstat fd).isSome → k'.fstat fd = k.fstat fd ∧ k'.flags fd = k.flags fd

theorem Extends.refl (k : Kernel) : k.Extends k :=
  fun _ _ => ⟨rfl, rfl⟩

theorem opened_extends (k : Kernel) (fd : Int) (isSocket : Bool) (flags : BitVec 32) :
    k.Extends (k.opened fd isSocket flags).2 := by
  unfold opened
  split
  · rename_i hfree
    intro fd' hopen
    have hne : fd' ≠ fd := by
      rintro rfl
      simp [hfree.2] at hopen
    exact ⟨Function.update_of_ne hne .., Function.update_of_ne hne ..⟩
  · exact .refl k

theorem answer_extends (k : Kernel) (choice : Int) (hc : c.Quiet) :
    k.Extends (k.answer choice c).2 := by
  unfold answer
  split
  · exact opened_extends _ _ _ _
  · split
    · exact opened_extends _ _ _ _
    · exact .refl k
  · cases hc
  · cases hc
  · split <;> exact .refl k
  · split
    · exact .refl k
    · exact opened_extends _ _ _ _
  · split
    · exact .refl k
    · exact opened_extends _ _ _ _
  · cases hc
  · exact .refl k

theorem Consistent.setfl (h : k.Consistent) (fd : Int) (flags : BitVec 32) :
    (k.setfl fd flags).Consistent := by
  intro fd'
  rcases eq_or_ne fd' fd with rfl | hne
  · simp [Kernel.setfl, h fd']
  · simp [Kernel.setfl, hne, h fd']

theorem Consistent.changed (h : k.Consistent) (choice fd : Int) (g : BitVec 32 → BitVec 32) :
    (k.changed choice fd g).2.Consistent := by
  unfold Kernel.changed
  split
  · exact h
  · split
    · exact h
    · exact h.setfl fd _

theorem Consistent.opened (h : k.Consistent) (fd : Int) (isSocket : Bool) (flags : BitVec 32) :
    (k.opened fd isSocket flags).2.Consistent := by
  unfold Kernel.opened
  split
  · intro fd'
    rcases eq_or_ne fd' fd with rfl | hne
    · simp
    · simp [hne, h fd']
  · exact h

theorem Consistent.answer (h : k.Consistent) (choice : Int) (c : Hook.Call) :
    (k.answer choice c).2.Consistent := by
  unfold Kernel.answer
  split
  · exact h.opened _ _ _
  · split
    · exact h.opened _ _ _
    · exact h
  · split
    · rename_i fd _
      intro fd'
      rcases eq_or_ne fd' fd with rfl | hne
      · simp
      · simp [hne, h fd']
    · exact h
  · exact h.changed _ _ _
  · split <;> exact h
  · split
    · exact h
    · exact h.opened _ _ _
  · split
    · exact h
    · exact h.opened _ _ _
  · exact h.changed _ _ _
  · exact h

end Kernel

/-! ## What constructing an FdCtx does -/

namespace FdCtx

/-- The constructor makes a socket non-blocking, and leaves another descriptor alone. -/
theorem new_kernel (k : Kernel) (fd : Int) :
    (new k fd).2 =
      if k.fstat fd = some true then
        { k with flags := Function.update k.flags fd ((k.flags fd).map (· ||| oNonblock)) }
      else k := by
  simp only [new, init, Bool.false_eq_true, if_false]
  cases hkind : k.fstat fd with
  | none => simp
  | some isSocket =>
    cases isSocket with
    | false => simp
    | true =>
      simp only [true_and, if_true]
      cases hflags : k.flags fd with
      | none =>
        have hset : k.getfl fd &&& oNonblock ≠ 0 := by
          rw [Kernel.getfl, hflags]
          decide
        rw [if_neg hset, Option.map_none, ← hflags, Function.update_eq_self]
      | some f =>
        have hgetfl : k.getfl fd = f := by
          rw [Kernel.getfl, hflags]
          rfl
        rw [hgetfl, Option.map_some]
        split
        · simp only [Kernel.setfl, hflags, Option.map_some]
        · rename_i hset
          rw [or_oNonblock_eq_self hset, ← hflags, Function.update_eq_self]

theorem new_isSocket (k : Kernel) (fd : Int) :
    (new k fd).1.isSocket = decide (k.fstat fd = some true) := by
  simp only [new, init, Bool.false_eq_true, if_false]
  cases hkind : k.fstat fd with
  | none => rfl
  | some isSocket => cases isSocket <;> rfl

theorem new_sysNoBlock (k : Kernel) (fd : Int) :
    (new k fd).1.sysNoBlock = (new k fd).1.isSocket := by
  simp only [new, init, Bool.false_eq_true, if_false]

end FdCtx

theorem Kernel.Consistent.new {k : Kernel} (h : k.Consistent) (fd : Int) :
    (FdCtx.new k fd).2.Consistent := by
  rw [FdCtx.new_kernel]
  split
  · intro fd'
    rcases eq_or_ne fd' fd with rfl | hne
    · simp [h fd']
    · simp [hne, h fd']
  · exact h
