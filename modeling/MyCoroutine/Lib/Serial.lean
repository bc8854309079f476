-- SUMMARY: Operations that are taken whole in some order: the order a finished run is explained by.
import Mathlib.Data.List.Perm.Basic
import MyCoroutine.Lib.OneShot

/-! # Some order of the operations

`R s a t` says that the operation `a`, taken whole, leads from `s` to `t`. A run in
which operations overlap is explained by an order of them when each of them, taken
whole in that order, does what it did. An operation may take effect long before it
is over, so the order is not the one in which they end. -/

open scoped List

namespace OneShot

variable {σ α : Type*} {R : σ → α → σ → Prop} {s t u : σ} {l k : List α} {a : α}

/-- Some order of the operations in `l` leads from `s` to `t`. -/
def Serially (R : σ → α → σ → Prop) (s : σ) (l : List α) (t : σ) : Prop :=
  ∃ order, order ~ l ∧ Run R s order t

theorem Serially.refl (R : σ → α → σ → Prop) (s : σ) : Serially R s [] s :=
  ⟨[], .refl _, rfl⟩

theorem Serially.perm (h : Serially R s l t) (hp : l ~ k) : Serially R s k t := by
  obtain ⟨order, horder, hrun⟩ := h
  exact ⟨order, horder.trans hp, hrun⟩

/-- One more operation takes effect. -/
theorem Serially.tail (h : Serially R s l t) (ha : R t a u) : Serially R s (l ++ [a]) u := by
  obtain ⟨order, horder, hrun⟩ := h
  refine ⟨order ++ [a], horder.append_right [a], run_append.mpr ⟨t, hrun, u, ha, rfl⟩⟩

end OneShot
