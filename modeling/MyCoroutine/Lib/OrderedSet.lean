-- SUMMARY: std::set as a list in the order of its comparator: insertion, removal of an equivalent element, and what they keep of membership and order.
import Mathlib.Data.List.Basic

/-! # Ordered sets

A set is the list of its elements in the order of a comparator `lt`. Elements
neither of which is less than the other are equivalent, and the set holds one of
them. The lemmas on membership ask no more of `lt` than that equivalent elements be
equal, and do not need the list to be sorted; those after them say what `find` and
`erase` add when it is. -/

namespace OrderedSet

variable {α : Type*}

/-- `insert(x)`. -/
def insert (lt : α → α → Bool) (x : α) : List α → List α
  | [] => [x]
  | y :: l =>
    if lt y x then y :: insert lt x l
    else if lt x y then x :: y :: l
    -- neither is less than the other: an equivalent element is there already
    else y :: l

/-- `erase(find(x))`; `none` when `find` returns `end()`. -/
def erase (lt : α → α → Bool) (x : α) : List α → Option (List α)
  | [] => none
  | y :: l =>
    if lt y x then (erase lt x l).map (y :: ·)
    else if lt x y then none
    else some l

variable {lt : α → α → Bool} {x y : α} {l l' : List α}

theorem mem_insert_of_mem (h : y ∈ l) : y ∈ insert lt x l := by
  induction l with
  | nil => cases h
  | cons z l ih =>
    simp only [insert]
    split
    · rcases List.mem_cons.mp h with rfl | h
      · exact List.mem_cons_self
      · exact List.mem_cons_of_mem _ (ih h)
    · split
      · exact List.mem_cons_of_mem _ h
      · exact h

theorem mem_of_mem_insert (h : y ∈ insert lt x l) : y = x ∨ y ∈ l := by
  induction l with
  | nil => exact .inl (List.mem_singleton.mp h)
  | cons z l ih =>
    simp only [insert] at h
    split at h
    · rcases List.mem_cons.mp h with rfl | h
      · exact .inr List.mem_cons_self
      · exact (ih h).imp_right (List.mem_cons_of_mem _)
    · split at h
      · exact List.mem_cons.mp h
      · exact .inr h

theorem mem_of_mem_erase (h : erase lt x l = some l') (hy : y ∈ l') : y ∈ l := by
  induction l generalizing l' with
  | nil => cases h
  | cons z l ih =>
    simp only [erase] at h
    split at h
    · obtain ⟨k, hk, rfl⟩ := Option.map_eq_some_iff.mp h
      rcases List.mem_cons.mp hy with rfl | hy
      · exact List.mem_cons_self
      · exact List.mem_cons_of_mem _ (ih hk hy)
    · split at h <;> cases h
      exact List.mem_cons_of_mem _ hy

section

/- Equivalent elements are equal. -/
variable (hlt : ∀ a b, lt a b = false → lt b a = false → a = b)
include hlt

theorem mem_insert_self : x ∈ insert lt x l := by
  induction l with
  | nil => exact List.mem_singleton_self x
  | cons z l ih =>
    simp only [insert]
    split
    · exact List.mem_cons_of_mem _ ih
    · rename_i hzx
      split
      · exact List.mem_cons_self
      · rename_i hxz
        rw [hlt x z (by simpa using hxz) (by simpa using hzx)]
        exact List.mem_cons_self

theorem mem_erase_of_ne (h : erase lt x l = some l') (hy : y ∈ l) (hne : y ≠ x) : y ∈ l' := by
  induction l generalizing l' with
  | nil => cases h
  | cons z l ih =>
    simp only [erase] at h
    split at h
    · obtain ⟨k, hk, rfl⟩ := Option.map_eq_some_iff.mp h
      rcases List.mem_cons.mp hy with rfl | hy
      · exact List.mem_cons_self
      · exact List.mem_cons_of_mem _ (ih hk hy)
    · rename_i hzx
      split at h <;> cases h
      rename_i hxz
      have hzx' : z = x := hlt z x (by simpa using hzx) (by simpa using hxz)
      rcases List.mem_cons.mp hy with rfl | hy
      · exact absurd hzx' hne
      · exact hy

theorem mem_of_erase (h : erase lt x l = some l') : x ∈ l := by
  induction l generalizing l' with
  | nil => cases h
  | cons z l ih =>
    simp only [erase] at h
    split at h
    · obtain ⟨k, hk, -⟩ := Option.map_eq_some_iff.mp h
      exact List.mem_cons_of_mem _ (ih hk)
    · rename_i hzx
      split at h <;> cases h
      rename_i hxz
      rw [hlt x z (by simpa using hxz) (by simpa using hzx)]
      exact List.mem_cons_self

end

/-! ## Sorted lists -/

/-- The list is strictly increasing, so no element is in it twice. -/
def Sorted (lt : α → α → Bool) (l : List α) : Prop :=
  l.Pairwise fun a b => lt a b = true

theorem Sorted.congr {lt' : α → α → Bool} (h : Sorted lt l)
    (hlt : ∀ a ∈ l, ∀ b ∈ l, lt' a b = lt a b) : Sorted lt' l :=
  h.imp_of_mem fun {a b} ha hb hab => by rw [hlt a ha b hb, hab]

theorem erase_sublist (h : erase lt x l = some l') : l'.Sublist l := by
  induction l generalizing l' with
  | nil => cases h
  | cons z l ih =>
    simp only [erase] at h
    split at h
    · obtain ⟨k, hk, rfl⟩ := Option.map_eq_some_iff.mp h
      exact (ih hk).cons_cons z
    · split at h <;> cases h
      exact List.sublist_cons_self z l

theorem Sorted.insert (htrans : ∀ a b c, lt a b = true → lt b c = true → lt a c = true)
    (h : Sorted lt l) : Sorted lt (insert lt x l) := by
  induction l with
  | nil => exact List.pairwise_singleton _ _
  | cons z l ih =>
    obtain ⟨hz, hl⟩ := List.pairwise_cons.mp h
    simp only [OrderedSet.insert]
    split
    · rename_i hzx
      refine List.pairwise_cons.mpr ⟨fun b hb => ?_, ih hl⟩
      rcases mem_of_mem_insert hb with rfl | hb
      · exact hzx
      · exact hz b hb
    · split
      · rename_i hxz
        refine List.pairwise_cons.mpr ⟨fun b hb => ?_, h⟩
        rcases List.mem_cons.mp hb with rfl | hb
        · exact hxz
        · exact htrans x z b hxz (hz b hb)
      · exact h

section

variable (hirrefl : ∀ a, lt a a = false)
include hirrefl

theorem Sorted.nodup (h : Sorted lt l) : l.Nodup :=
  h.imp fun {a b} hab heq => by
    rw [heq, hirrefl] at hab
    cases hab

/-- `find` succeeds on what is in the set. -/
theorem Sorted.erase_of_mem (h : Sorted lt l) (hx : x ∈ l) :
    ∃ l', OrderedSet.erase lt x l = some l' := by
  induction l with
  | nil => cases hx
  | cons z l ih =>
    obtain ⟨hz, hl⟩ := List.pairwise_cons.mp h
    simp only [OrderedSet.erase]
    rcases List.mem_cons.mp hx with rfl | hx
    · simp [hirrefl]
    · obtain ⟨l', hl'⟩ := ih hl hx
      rw [if_pos (hz x hx), hl']
      exact ⟨z :: l', rfl⟩

/-- What was erased is gone. -/
theorem Sorted.not_mem_of_erase (h : Sorted lt l)
    (hlt : ∀ a b, lt a b = false → lt b a = false → a = b)
    (he : OrderedSet.erase lt x l = some l') :
    x ∉ l' := by
  induction l generalizing l' with
  | nil => cases he
  | cons z l ih =>
    obtain ⟨hz, hl⟩ := List.pairwise_cons.mp h
    simp only [OrderedSet.erase] at he
    split at he
    · rename_i hzx
      obtain ⟨k, hk, rfl⟩ := Option.map_eq_some_iff.mp he
      intro hmem
      rcases List.mem_cons.mp hmem with rfl | hmem
      · rw [hirrefl] at hzx
        cases hzx
      · exact ih hl hk hmem
    · rename_i hzx
      split at he <;> cases he
      rename_i hxz
      have hxz' : x = z := hlt x z (by simpa using hxz) (by simpa using hzx)
      intro hmem
      have := hz x hmem
      rw [← hxz', hirrefl] at this
      cases this

end

end OrderedSet
