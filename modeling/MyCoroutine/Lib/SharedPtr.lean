-- SUMMARY: Objects behind shared pointers: use counts that follow the pointers there are, and the destructor that the last one runs.
import Mathlib.Data.List.Perm.Basic
import Mathlib.Logic.Function.Basic

/-! # Shared pointers

An object is made with its first pointer. Copying a pointer counts it, dropping one counts
it off, and with the last one the destructor runs; `none` is the use of a pointer that
dangles. The program has its pointers in many places: `Counts l` says that together they
are the list `l`, in any order. -/

namespace SharedPtr

open scoped List

variable {ι δ : Type*}

/-- What there is at an address; `δ` is what the destructor finds. -/
inductive Object (δ : Type*) where
  /-- Nothing has been made. -/
  | raw
  | live (useCount : Nat)
  | destroyed (found : δ)
  deriving DecidableEq

def Object.useCount : Object δ → Nat
  | .live n => n
  | .raw | .destroyed _ => 0

variable [DecidableEq ι]

/-- `new`, into the first pointer. -/
def make (o : ι → Object δ) (i : ι) : Option (ι → Object δ) :=
  match o i with
  | .raw => some (Function.update o i (.live 1))
  | .live _ | .destroyed _ => none

/-- A pointer is copied. -/
def retain (o : ι → Object δ) (i : ι) : Option (ι → Object δ) :=
  match o i with
  | .live n => some (Function.update o i (.live (n + 1)))
  | .raw | .destroyed _ => none

/-- A pointer is dropped; the destructor, if it runs, finds `found`. -/
def release (o : ι → Object δ) (i : ι) (found : δ) : Option (ι → Object δ) :=
  match o i with
  | .live (n + 2) => some (Function.update o i (.live (n + 1)))
  | .live 1 => some (Function.update o i (.destroyed found))
  | .live 0 | .raw | .destroyed _ => none

/-! ## Other objects -/

section

variable {o o' : ι → Object δ} {i j : ι} {found : δ}

theorem make_other (h : make o i = some o') (hj : j ≠ i) : o' j = o j := by
  unfold make at h
  split at h
  · cases h
    exact Function.update_of_ne hj ..
  · cases h
  · cases h

theorem retain_other (h : retain o i = some o') (hj : j ≠ i) : o' j = o j := by
  unfold retain at h
  split at h
  · cases h
    exact Function.update_of_ne hj ..
  · cases h
  · cases h

theorem release_other (h : release o i found = some o') (hj : j ≠ i) : o' j = o j := by
  unfold release at h
  split at h
  · cases h
    exact Function.update_of_ne hj ..
  · cases h
    exact Function.update_of_ne hj ..
  · cases h
  · cases h
  · cases h

end

/-! ## Counts -/

/-- The pointers there are, place by place. -/
structure Counts (l : List ι) (o : ι → Object δ) : Prop where
  useCount : ∀ i, (o i).useCount = l.count i
  positive : ∀ i, o i ≠ .live 0

variable {l l' : List ι} {o o' : ι → Object δ} {i : ι}

theorem Counts.of_raw : Counts [] fun _ : ι => (.raw : Object δ) :=
  ⟨fun _ => rfl, nofun⟩

theorem Counts.perm (h : Counts l o) (hperm : l' ~ l) : Counts l' o :=
  ⟨fun i => (h.useCount i).trans (hperm.count_eq i).symm, h.positive⟩

/-- No pointer dangles. -/
theorem Counts.live (h : Counts l o) (hi : i ∈ l) : o i = .live (l.count i) := by
  have hcount := h.useCount i
  cases ho : o i with
  | live n =>
    rw [ho] at hcount
    exact congrArg Object.live hcount
  | raw | destroyed found =>
    rw [ho] at hcount
    exact absurd hcount (Nat.ne_of_lt (List.count_pos_iff.mpr hi))

theorem Counts.mem_of_live {n : Nat} (h : Counts l o) (ho : o i = .live n) : i ∈ l := by
  have hcount := h.useCount i
  rw [ho] at hcount
  refine List.count_pos_iff.mp (hcount ▸ Nat.pos_of_ne_zero ?_)
  rintro rfl
  exact h.positive i ho

omit [DecidableEq ι] in
/-- Where only a live object changes, what is not live stays as it is. -/
theorem kept_of_live {n : Nat} (hlive : o i = .live n) (hother : ∀ j, j ≠ i → o' j = o j) {j : ι}
    (hj : ∀ n, o j ≠ .live n) : o' j = o j :=
  hother j fun hji => hj n (hji ▸ hlive)

theorem Counts.not_mem (h : Counts l o) (ho : ∀ n, o i ≠ .live n) : i ∉ l :=
  fun hi => ho _ (h.live hi)

/-- An object is counted as it was when its pointers are. -/
theorem Counts.update (h : Counts l o) {x : Object δ} (hx : x.useCount = l'.count i)
    (hpos : x ≠ .live 0) (hother : ∀ j, j ≠ i → l'.count j = l.count j) :
    Counts l' (Function.update o i x) := by
  constructor
  · intro j
    by_cases hji : j = i
    · rw [hji, Function.update_self, hx]
    · rw [Function.update_of_ne hji, h.useCount, hother j hji]
  · intro j
    by_cases hji : j = i
    · rwa [hji, Function.update_self]
    · rw [Function.update_of_ne hji]
      exact h.positive j

theorem Counts.make (h : Counts l o) (hraw : o i = .raw) :
    ∃ o', make o i = some o' ∧ Counts (i :: l) o' ∧ (∀ j, j ≠ i → o' j = o j) ∧
      o' i = .live 1 := by
  have hnot : i ∉ l := h.not_mem fun n => by simp [hraw]
  refine ⟨Function.update o i (.live 1), by rw [SharedPtr.make, hraw],
    h.update ?_ (by simp) fun j hji => ?_,
    fun j hji => Function.update_of_ne hji .., Function.update_self ..⟩
  · rw [List.count_cons_self, List.count_eq_zero_of_not_mem hnot]
    rfl
  · exact List.count_cons_of_ne hji.symm

theorem Counts.retain (h : Counts l o) (hi : i ∈ l) :
    ∃ o', retain o i = some o' ∧ Counts (i :: l) o' ∧ (∀ j, j ≠ i → o' j = o j) ∧
      o' i = .live (l.count i + 1) := by
  have hlive := h.live hi
  refine ⟨Function.update o i (.live (l.count i + 1)), by rw [SharedPtr.retain, hlive],
    h.update ?_ (by simp) fun j hji => ?_,
    fun j hji => Function.update_of_ne hji .., Function.update_self ..⟩
  · exact (List.count_cons_self ..).symm
  · exact List.count_cons_of_ne hji.symm

/-- The destructor runs when, and only when, the pointer was the last one. -/
theorem Counts.release (h : Counts (i :: l) o) (found : δ) :
    ∃ o', release o i found = some o' ∧ Counts l o' ∧ (∀ j, j ≠ i → o' j = o j) ∧
      o' i = if i ∈ l then .live (l.count i) else .destroyed found := by
  have hlive := h.live List.mem_cons_self
  rw [List.count_cons_self] at hlive
  have hother (j : ι) (hji : j ≠ i) : l.count j = (i :: l).count j :=
    (List.count_cons_of_ne hji.symm).symm
  split
  · rename_i hi
    obtain ⟨n, hn⟩ := Nat.exists_eq_add_of_lt (List.count_pos_iff.mpr hi)
    rw [Nat.zero_add] at hn
    rw [hn] at hlive ⊢
    exact ⟨Function.update o i (.live (n + 1)), by rw [SharedPtr.release, hlive],
      h.update hn.symm (by simp) hother,
      fun j hji => Function.update_of_ne hji .., Function.update_self ..⟩
  · rename_i hi
    have hzero := List.count_eq_zero_of_not_mem hi
    rw [hzero] at hlive
    exact ⟨Function.update o i (.destroyed found), by rw [SharedPtr.release, hlive],
      h.update hzero.symm (by simp) hother,
      fun j hji => Function.update_of_ne hji .., Function.update_self ..⟩

end SharedPtr
