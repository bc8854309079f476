-- SUMMARY: FdCtx and FdManager: the table of descriptors, the finite map it is meant to be, and exactly which calls keep to that map.
import MyCoroutine.Lib.Counting

/-! # FdManager

`m_datas` holds, for each descriptor, a pointer to its `FdCtx`. The objects are
listed in the order of their construction, and a pointer is a position in that
list, so that a pointer tells one object from another with the same contents.
A read past the end of `m_datas` gives whatever is in memory there; the state
records that it happened. -/

/-! ## The kernel's side of a descriptor -/

def oNonblock : BitVec 32 := 0x800

structure Kernel where
  /-- `S_ISSOCK` of what `fstat` reports; `none` when it answers -1. -/
  fstat : Int → Option Bool
  /-- The file status flags; `none` when `fcntl` answers -1. -/
  flags : Int → Option (BitVec 32)

namespace Kernel

/-- `fcntl_f(fd, F_GETFL, 0)`. -/
def getfl (k : Kernel) (fd : Int) : BitVec 32 :=
  (k.flags fd).getD (-1)

/-- `fcntl_f(fd, F_SETFL, flags)`. -/
def setfl (k : Kernel) (fd : Int) (flags : BitVec 32) : Kernel :=
  { k with flags := Function.update k.flags fd ((k.flags fd).map fun _ => flags) }

end Kernel

/-! ## FdCtx -/

structure FdCtx where
  isInit : Bool
  isSocket : Bool
  sysNoBlock : Bool
  userNoBlock : Bool
  isClosed : Bool
  fd : Int
  recvTimeout : Int
  sendTimeout : Int
  deriving DecidableEq

namespace FdCtx

/-- `init`, without its result, which is `m_isInit`. -/
def init (c : FdCtx) (k : Kernel) : FdCtx × Kernel :=
  if c.isInit then (c, k)
  else
    let c := { c with recvTimeout := -1, sendTimeout := -1 }
    let c := match k.fstat c.fd with
      | none => { c with isInit := false, isSocket := false }
      | some isSocket => { c with isInit := true, isSocket := isSocket }
    -- the hooked calls count on every socket being non-blocking
    let flags := k.getfl c.fd
    let k := if c.isSocket ∧ flags &&& oNonblock = 0 then k.setfl c.fd (flags ||| oNonblock) else k
    ({ c with sysNoBlock := c.isSocket, userNoBlock := false, isClosed := false }, k)

/-- The constructor. -/
def new (k : Kernel) (fd : Int) : FdCtx × Kernel :=
  init
    { isInit := false
      isSocket := false
      sysNoBlock := false
      userNoBlock := false
      isClosed := false
      fd := fd
      recvTimeout := -1
      sendTimeout := -1 }
    k

/-- `SO_RECVTIMEO`, as `FdManager.h` defines it. -/
def soRcvtimeo : Int := 20

/-- What a holder of the pointer can do to an `FdCtx`. -/
inductive Update where
  | setUserNoBlock (flag : Bool)
  | setSysNoBlock (flag : Bool)
  | setTimeout (type t : Int)
  deriving DecidableEq

def update (c : FdCtx) : Update → FdCtx
  | .setUserNoBlock flag => { c with userNoBlock := flag }
  | .setSysNoBlock flag => { c with sysNoBlock := flag }
  | .setTimeout type t =>
    if type = soRcvtimeo then { c with recvTimeout := t } else { c with sendTimeout := t }

/-- An `FdCtx` of `fd` that nobody has changed. -/
structure Fresh (fd : Int) (c : FdCtx) : Prop where
  fd : c.fd = fd
  userNoBlock : c.userNoBlock = false
  isClosed : c.isClosed = false
  recvTimeout : c.recvTimeout = -1
  sendTimeout : c.sendTimeout = -1

theorem new_fresh (k : Kernel) (fd : Int) : Fresh fd (new k fd).1 := by
  simp only [new, init, Bool.false_eq_true, if_false]
  cases k.fstat fd <;> exact ⟨rfl, rfl, rfl, rfl, rfl⟩

end FdCtx

/-! ## FdManager -/

/-- An `FdCtx::ptr` that is not null, by the number of its construction. -/
abbrev CtxId := Nat

structure FdManager where
  /-- `m_datas`. -/
  datas : List (Option CtxId)
  /-- Every `FdCtx` constructed so far. -/
  made : List FdCtx
  kernel : Kernel
  /-- Some access was made past the end of `m_datas`. -/
  outOfBounds : Bool

namespace FdManager

/-- `m_datas.resize(n)`. -/
def resize (m : FdManager) (n : Nat) : FdManager :=
  { m with datas := m.datas.take n ++ List.replicate (n - m.datas.length) none }

/-- The constructor. -/
def init (kernel : Kernel) : FdManager :=
  { datas := [], made := [], kernel := kernel, outOfBounds := false : FdManager }.resize 64

/-- `m_datas[fd]`, where `stray` is what memory holds there beyond the end. -/
def read (m : FdManager) (fd : Nat) (stray : Option CtxId) : Option CtxId × FdManager :=
  match m.datas[fd]? with
  | some p => (p, m)
  | none => (stray, { m with outOfBounds := true })

/-- `m_datas[fd] = p`. -/
def write (m : FdManager) (fd : Nat) (p : Option CtxId) : FdManager :=
  if fd < m.datas.length then { m with datas := m.datas.set fd p }
  else { m with outOfBounds := true }

/-- The part of `get` under the write lock. -/
def create (m : FdManager) (fd : Nat) : Option CtxId × FdManager :=
  let r := FdCtx.new m.kernel fd
  let ctx := m.made.length
  let m := { m with made := m.made ++ [r.1], kernel := r.2 }
  -- `fd * 1.5`, rounded down
  let m := if Counting.intOfSize m.datas.length ≤ fd then m.resize (fd * 3 / 2) else m
  (some ctx, m.write fd (some ctx))

/-- `get`, for `fd` other than -1. -/
def get (m : FdManager) (fd : Nat) (autoCreate : Bool) (stray : Option CtxId) :
    Option CtxId × FdManager :=
  if Counting.intOfSize m.datas.length ≤ fd then
    if autoCreate = false then (none, m)
    else
      -- this test stands inside the branch for descriptors beyond the end
      let r := m.read fd stray
      if r.1.isSome ∨ autoCreate = false then r.2.read fd stray else r.2.create fd
  else m.create fd

/-- `del`. -/
def del (m : FdManager) (fd : Nat) : FdManager :=
  if Counting.intOfSize m.datas.length ≤ fd then m else m.write fd none

/-! ## Calls -/

inductive Call where
  | get (fd : Nat) (autoCreate : Bool) (stray : Option CtxId)
  | del (fd : Nat)
  /-- A holder of the pointer `p` changes its `FdCtx`. -/
  | update (p : CtxId) (u : FdCtx.Update)
  /-- Descriptors are opened, closed, or changed by others. -/
  | kernel (k : Kernel)

/-- What a call returns, if anything, and the manager after it. -/
def call (m : FdManager) : Call → Option CtxId × FdManager
  | .get fd autoCreate stray => m.get fd autoCreate stray
  | .del fd => (none, m.del fd)
  | .update p u => (none, { m with made := m.made.modify p (FdCtx.update · u) })
  | .kernel k => (none, { m with kernel := k })

/-- `P` holds of every call of a history, in the state in which it is made. -/
def Along (P : FdManager → Call → Prop) : FdManager → List Call → Prop
  | _, [] => True
  | m, c :: calls => P m c ∧ Along P (m.call c).2 calls

end FdManager

/-! ## The map -/

/-- A finite map from descriptors to the `FdCtx` objects of their live entries. -/
@[ext]
structure FdMap where
  live : Nat → Option CtxId
  made : List FdCtx

namespace FdMap

/-- What each call may do to the map, and what it returns. -/
inductive Step (m : FdMap) : FdManager.Call → Option CtxId → FdMap → Prop where
  | find (fd : Nat) (stray : Option CtxId) : Step m (.get fd false stray) (m.live fd) m
  | found (fd : Nat) (stray : Option CtxId) (p : CtxId) (h : m.live fd = some p) :
      Step m (.get fd true stray) (some p) m
  | insert (fd : Nat) (stray : Option CtxId) (c : FdCtx) (h : m.live fd = none)
      (hc : c.Fresh fd) :
      Step m (.get fd true stray) (some m.made.length)
        ⟨Function.update m.live fd (some m.made.length), m.made ++ [c]⟩
  | del (fd : Nat) : Step m (.del fd) none { m with live := Function.update m.live fd none }
  | update (p : CtxId) (u : FdCtx.Update) :
      Step m (.update p u) none { m with made := m.made.modify p (FdCtx.update · u) }
  | kernel (k : Kernel) : Step m (.kernel k) none m

end FdMap

namespace FdManager

/-- The map that the table stands for. -/
def map (m : FdManager) : FdMap where
  live fd := (m.datas[fd]?).join
  made := m.made

/-- The call does to the map what it should, within the bounds of `m_datas`. -/
def ActsAsMap (m : FdManager) (c : Call) : Prop :=
  FdMap.Step m.map c (m.call c).1 (m.call c).2.map ∧ (m.call c).2.outOfBounds = false

/-- `get(fd, false)` is called beyond the end of the table only, and
`get(fd, true)` on an empty slot of it only. -/
def Within (m : FdManager) : Call → Prop
  | .get fd false _ => m.datas.length ≤ fd
  | .get fd true _ => m.datas[fd]? = some none
  | .del _ | .update _ _ | .kernel _ => True

/-! ## Writing, growing and creating -/

variable {m : FdManager} {fd : Nat} {c : Call}

theorem map_live (m : FdManager) (fd : Nat) : m.map.live fd = (m.datas[fd]?).join := rfl

theorem live_of_length_le (h : m.datas.length ≤ fd) : m.map.live fd = none := by
  rw [map_live, List.getElem?_eq_none h]
  rfl

theorem write_live (h : fd < m.datas.length) (p : Option CtxId) :
    (m.write fd p).map.live = Function.update m.map.live fd p := by
  funext i
  rw [map_live, write, if_pos h]
  rcases eq_or_ne i fd with rfl | hi
  · simp [h]
  · simp [hi, Ne.symm hi, map_live]

@[simp] theorem write_made (m : FdManager) (fd : Nat) (p : Option CtxId) :
    (m.write fd p).made = m.made := by
  unfold write
  split <;> rfl

theorem write_outOfBounds (h : fd < m.datas.length) (p : Option CtxId) :
    (m.write fd p).outOfBounds = m.outOfBounds := by
  rw [write, if_pos h]

@[simp] theorem resize_made (m : FdManager) (n : Nat) : (m.resize n).made = m.made := rfl
@[simp] theorem resize_outOfBounds (m : FdManager) (n : Nat) :
    (m.resize n).outOfBounds = m.outOfBounds := rfl

theorem length_resize {n : Nat} (h : m.datas.length ≤ n) : (m.resize n).datas.length = n := by
  simp only [resize, List.take_of_length_le h, List.length_append, List.length_replicate]
  omega

/-- A growth of the table changes no entry. -/
theorem resize_live {n : Nat} (h : m.datas.length ≤ n) : (m.resize n).map.live = m.map.live := by
  funext i
  rw [map_live, map_live, resize, List.take_of_length_le h]
  rcases Nat.lt_or_ge i m.datas.length with hi | hi
  · rw [List.getElem?_append_left hi]
  · rw [List.getElem?_append_right hi, List.getElem?_eq_none hi, List.getElem?_replicate]
    split <;> rfl

/-- The table has at least its first size, and `int` can hold its size. -/
def Sized (m : FdManager) : Prop :=
  64 ≤ m.datas.length ∧ m.datas.length < 0x80000000

/-- `create` enters one new `FdCtx` and leaves every other entry alone, also
when the table grows. -/
theorem create_spec (h : m.Sized) (fd : Nat) :
    ∃ c : FdCtx, c.Fresh fd ∧ (m.create fd).1 = some m.made.length ∧
      (m.create fd).2.map =
        ⟨Function.update m.map.live fd (some m.made.length), m.made ++ [c]⟩ ∧
      (m.create fd).2.outOfBounds = m.outOfBounds := by
  refine ⟨(FdCtx.new m.kernel fd).1, FdCtx.new_fresh .., rfl, ?_⟩
  simp only [create, Counting.intOfSize_eq h.2]
  set m₁ : FdManager := { m with
    made := m.made ++ [(FdCtx.new m.kernel fd).1], kernel := (FdCtx.new m.kernel fd).2 } with hm₁
  have hlive : m₁.map.live = m.map.live := rfl
  have hsize : m₁.datas.length = m.datas.length := rfl
  obtain ⟨hfirst, -⟩ := h
  split
  · rename_i hfd
    have hgrow : m₁.datas.length ≤ fd * 3 / 2 := by omega
    have hlength : fd < (m₁.resize (fd * 3 / 2)).datas.length := by
      rw [length_resize hgrow]
      omega
    refine ⟨FdMap.ext ?_ (write_made ..), write_outOfBounds hlength _⟩
    rw [write_live hlength, resize_live hgrow, hlive]
  · rename_i hfd
    have hlength : fd < m₁.datas.length := by omega
    refine ⟨FdMap.ext ?_ (write_made ..), write_outOfBounds hlength _⟩
    rw [write_live hlength, hlive]

theorem create_made (m : FdManager) (fd : Nat) :
    (m.create fd).2.made = m.made ++ [(FdCtx.new m.kernel fd).1] := by
  simp only [create, write_made]
  split <;> rfl

/-- A lookup never finds an object that was there before: what `get(fd, false)` returns is new. -/
theorem get_fresh {stray : Option CtxId} {p : CtxId} {m' : FdManager}
    (h : m.get fd false stray = (some p, m')) : ∃ c, m'.made[p]? = some c ∧ c.Fresh fd := by
  unfold get at h
  split at h
  · cases h
  · have hmade := create_made m fd
    rw [h] at hmade
    have hp : some m.made.length = some p := congrArg Prod.fst h
    cases hp
    exact ⟨_, by rw [hmade, List.getElem?_concat_length], FdCtx.new_fresh ..⟩

/-! ## When a call acts as the map -/

/-- Constructing an object is never without effect. -/
theorem create_not_same (h : m.Sized) (fd : Nat) : (m.create fd).2.map ≠ m.map := by
  obtain ⟨c, -, -, hmap, -⟩ := create_spec h fd
  rw [hmap]
  intro heq
  -- one object more
  have hlength := congrArg (fun x : FdMap => x.made.length) heq
  simp [map] at hlength

theorem create_outOfBounds (hm : m.outOfBounds = true) (fd : Nat) :
    (m.create fd).2.outOfBounds = true := by
  have hwrite (n : FdManager) (hn : n.outOfBounds = true) (p : Option CtxId) :
      (n.write fd p).outOfBounds = true := by
    unfold write
    split
    · exact hn
    · rfl
  unfold create
  dsimp only
  split
  · refine hwrite _ ?_ _
    exact hm
  · refine hwrite _ ?_ _
    exact hm

/-- Beyond the end of the table `get(fd, true)` reads there before anything else. -/
theorem get_beyond (h : m.datas.length ≤ fd) (stray : Option CtxId) :
    (m.get fd true stray).2.outOfBounds = true := by
  have hint : Counting.intOfSize m.datas.length ≤ fd := by
    have := Counting.intOfSize_le m.datas.length
    omega
  have hread : m.read fd stray = (stray, { m with outOfBounds := true }) := by
    simp only [read, List.getElem?_eq_none h]
  simp only [get, if_pos hint, Bool.true_eq_false, if_false, hread, or_false]
  split
  · simp only [read, List.getElem?_eq_none h]
  · exact create_outOfBounds rfl fd

theorem get_inside (h : m.Sized) (hfd : fd < m.datas.length) (autoCreate : Bool)
    (stray : Option CtxId) : m.get fd autoCreate stray = m.create fd := by
  rw [get, if_neg]
  rw [Counting.intOfSize_eq h.2]
  omega

/-- `get` on a slot of the table enters a new `FdCtx`, so it may do nothing but insert. -/
theorem get_inside_iff (h : m.Sized) (hbounds : m.outOfBounds = false)
    (hfd : fd < m.datas.length) (autoCreate : Bool) (stray : Option CtxId) :
    m.ActsAsMap (.get fd autoCreate stray) ↔ autoCreate = true ∧ m.datas[fd]? = some none := by
  have hcall : m.call (.get fd autoCreate stray) = m.create fd := get_inside h hfd ..
  obtain ⟨p, hp⟩ : ∃ p, m.datas[fd]? = some p := ⟨_, List.getElem?_eq_getElem hfd⟩
  have hlive : m.map.live fd = p := by
    rw [map_live, hp]
    rfl
  rw [ActsAsMap, hcall, hp]
  constructor
  · rintro ⟨hstep, -⟩
    generalize hmap : (m.create fd).2.map = map' at hstep
    generalize (m.create fd).1 = ret at hstep
    cases hstep with
    -- both lookups leave the map alone, `create` never does
    | find => exact absurd hmap (create_not_same h fd)
    | found => exact absurd hmap (create_not_same h fd)
    | insert _ _ _ hnone =>
      rw [hlive] at hnone
      exact ⟨rfl, by rw [hnone]⟩
  · rintro ⟨rfl, hnone⟩
    obtain ⟨c, hfresh, hret, hmap, hout⟩ := create_spec h fd
    refine ⟨?_, hout.trans hbounds⟩
    rw [hret, hmap]
    exact .insert fd stray c (hlive.trans (Option.some.inj hnone)) hfresh

theorem del_actsAsMap (h : m.Sized) (hbounds : m.outOfBounds = false) (fd : Nat) :
    m.ActsAsMap (.del fd) := by
  have hstep : FdMap.Step m.map (.del fd) none _ := .del fd
  simp only [ActsAsMap, call, del, Counting.intOfSize_eq h.2]
  split
  · rename_i hfd
    have hfree : m.map.live fd = none := live_of_length_le (by omega)
    have hsame : Function.update m.map.live fd none = m.map.live := by
      rw [← hfree, Function.update_eq_self]
    rw [hsame] at hstep
    exact ⟨hstep, hbounds⟩
  · rename_i hfd
    have hlength : fd < m.datas.length := by omega
    rw [← write_live hlength] at hstep
    refine ⟨?_, (write_outOfBounds hlength _).trans hbounds⟩
    have hmap : (m.write fd none).map = { m.map with live := (m.write fd none).map.live } :=
      FdMap.ext rfl (write_made ..)
    rw [hmap]
    exact hstep

/-- Within its bounds, a table of ordinary size acts as the map on the calls that
are `Within` it, and on no other. -/
theorem actsAsMap_iff (h : m.Sized) (hbounds : m.outOfBounds = false) (c : Call) :
    m.ActsAsMap c ↔ m.Within c := by
  cases c with
  | get fd autoCreate stray =>
    rcases Nat.lt_or_ge fd m.datas.length with hfd | hfd
    · rw [get_inside_iff h hbounds hfd]
      cases autoCreate with
      | false => exact ⟨fun hcreate => by simp at hcreate, fun hwithin =>
          absurd hwithin (Nat.not_le_of_lt hfd)⟩
      | true => exact and_iff_right rfl
    · cases autoCreate with
      | false =>
        refine ⟨fun _ => hfd, fun _ => ?_⟩
        have hint : Counting.intOfSize m.datas.length ≤ fd := by
          rw [Counting.intOfSize_eq h.2]
          omega
        have hcall : m.call (.get fd false stray) = (m.map.live fd, m) := by
          rw [live_of_length_le hfd]
          simp only [call, get, if_pos hint, if_true]
        rw [ActsAsMap, hcall]
        exact ⟨.find fd stray, hbounds⟩
      | true =>
        have hnot : ¬ m.ActsAsMap (.get fd true stray) := by
          rintro ⟨-, hout⟩
          simp only [call, get_beyond hfd stray] at hout
          cases hout
        refine ⟨fun hacts => absurd hacts hnot, fun hwithin => ?_⟩
        rw [Within, List.getElem?_eq_none hfd] at hwithin
        cases hwithin
  | del fd => exact ⟨fun _ => trivial, fun _ => del_actsAsMap h hbounds fd⟩
  | update p u => exact ⟨fun _ => trivial, fun _ => ⟨.update p u, hbounds⟩⟩
  | kernel k => exact ⟨fun _ => trivial, fun _ => ⟨.kernel k, hbounds⟩⟩

/-! ## Histories -/

@[simp] theorem write_length (m : FdManager) (fd : Nat) (p : Option CtxId) :
    (m.write fd p).datas.length = m.datas.length := by
  unfold write
  split
  · exact List.length_set
  · rfl

/-- The table grows at most when a descriptor beyond its end is entered. -/
theorem call_length (h : m.Sized) {c : Call}
    (hc : ∀ fd stray, c = .get fd true stray → fd < m.datas.length) :
    (m.call c).2.datas.length = m.datas.length := by
  cases c with
  | get fd autoCreate stray =>
    rcases Nat.lt_or_ge fd m.datas.length with hfd | hfd
    · have hlt : ¬ Counting.intOfSize m.datas.length ≤ fd := by
        rw [Counting.intOfSize_eq h.2]
        omega
      simp only [call, get, if_neg hlt, create, write_length]
    · cases autoCreate with
      | false =>
        have hle : Counting.intOfSize m.datas.length ≤ fd := by
          rw [Counting.intOfSize_eq h.2]
          exact Int.ofNat_le.mpr hfd
        simp only [call, get, if_pos hle, if_true]
      | true => exact absurd (hc fd stray rfl) (Nat.not_lt_of_le hfd)
  | del fd =>
    simp only [call, del]
    split
    · rfl
    · exact write_length ..
  | update p u => rfl
  | kernel k => rfl

/-- Calls that stay within the table do not make it grow. -/
theorem Within.sized (h : m.Sized) {c : Call} (hc : m.Within c) : (m.call c).2.Sized := by
  have hinside (fd : Nat) (stray : Option CtxId) (heq : c = .get fd true stray) :
      fd < m.datas.length := by
    subst heq
    exact (List.getElem?_eq_some_iff.mp hc).1
  rwa [Sized, call_length h hinside]

theorem init_sized (k : Kernel) : (init k).Sized := by
  simp [init, Sized, resize]

theorem along_iff (h : m.Sized) (hbounds : m.outOfBounds = false) (calls : List Call) :
    Along ActsAsMap m calls ↔ Along Within m calls := by
  induction calls generalizing m with
  | nil => exact Iff.rfl
  | cons c calls ih =>
    have hiff := actsAsMap_iff h hbounds c
    constructor
    · rintro ⟨hacts, hrest⟩
      have hwithin := hiff.mp hacts
      exact ⟨hwithin, (ih (hwithin.sized h) hacts.2).mp hrest⟩
    · rintro ⟨hwithin, hrest⟩
      have hacts := hiff.mpr hwithin
      exact ⟨hacts, (ih (hwithin.sized h) hacts.2).mpr hrest⟩

/-- In every history from the constructor on, `FdManager` acts as a finite map
throughout exactly when every `get(fd, false)` is made beyond the end of the
table and every `get(fd, true)` on an empty slot of it. -/
theorem history_acts_as_map_iff (k : Kernel) (calls : List Call) :
    Along ActsAsMap (init k) calls ↔ Along Within (init k) calls :=
  along_iff (init_sized k) rfl calls

/-- No descriptor is open. -/
def noKernel : Kernel where
  fstat := fun _ => none
  flags := fun _ => none

/-- The second `get` of descriptor 3 replaces its `FdCtx`, and with it the flag
that the user set. -/
theorem not_acts_as_map_lookup : ¬ ∀ k calls, Along ActsAsMap (init k) calls := by
  intro hall
  have hwithin := (along_iff (init_sized noKernel) rfl _).mp (hall noKernel
    [.get 3 true none, .update 0 (.setUserNoBlock true), .get 3 false none])
  have hlookup : ((init noKernel).call (.get 3 true none)).2.datas.length ≤ 3 := hwithin.2.2.1
  revert hlookup
  decide

end FdManager
