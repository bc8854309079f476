-- SUMMARY: Collecting what the members of a finite group hold, and unsigned counters that follow it.
import Mathlib.Algebra.GroupWithZero.Nat
import Mathlib.Data.List.Nodup
import Mathlib.Data.List.Pairwise
import Mathlib.Data.List.Perm.Basic
import Mathlib.Logic.Function.Basic

/-! # Counting what a group holds

A finite group of parties, listed without repetition, each in a state `f w`. The
function `h` reads off what a party in a given state holds. When one party
changes state, the collection changes by what that party held and now holds. -/

namespace Counting

/-- `--n` on an unsigned 64-bit counter: it wraps below zero. -/
def pred64 (n : Nat) : Nat :=
  if n = 0 then 0xFFFFFFFFFFFFFFFF else n - 1

@[simp] theorem pred64_succ (n : Nat) : pred64 (n + 1) = n := by
  simp [pred64]

theorem pred64_of_pos {n : Nat} (h : 0 < n) : pred64 n + 1 = n := by
  unfold pred64
  split <;> omega

/-- `++n` on an unsigned 64-bit counter: it wraps to zero. -/
def succ64 (n : Nat) : Nat :=
  (n + 1) % 0x10000000000000000

theorem succ64_of_lt {n : Nat} (h : n + 1 < 0x10000000000000000) : succ64 n = n + 1 :=
  Nat.mod_eq_of_lt h

/-- `static_cast<int>(size)` on an unsigned 64-bit size. -/
def intOfSize (size : Nat) : Int :=
  Int.bmod size 0x100000000

theorem intOfSize_le (size : Nat) : intOfSize size ≤ size := by
  unfold intOfSize Int.bmod
  dsimp only
  split <;> omega

theorem intOfSize_eq {size : Nat} (h : size < 0x80000000) : intOfSize size = size := by
  unfold intOfSize Int.bmod
  dsimp only
  split <;> omega

open scoped List

variable {τ β γ : Type*}

/-- What the parties in `ws` hold, in the order of the group. -/
def held (ws : List τ) (h : β → Option γ) (f : τ → β) : List γ :=
  ws.filterMap fun w => h (f w)

theorem mem_held {ws : List τ} {h : β → Option γ} {f : τ → β} {x : γ} :
    x ∈ held ws h f ↔ ∃ w ∈ ws, h (f w) = some x := by
  simp [held]

theorem held_eq_nil {ws : List τ} {h : β → Option γ} {f : τ → β} :
    held ws h f = [] ↔ ∀ w ∈ ws, h (f w) = none := by
  simp [held]

private theorem held_congr {ws : List τ} {h : β → Option γ} {f g : τ → β}
    (hfg : ∀ w ∈ ws, f w = g w) : held ws h f = held ws h g :=
  List.filterMap_congr fun w hw => by rw [hfg w hw]

/-- When what is held carries distinct marks, the mark tells the party. -/
theorem held_inj {δ : Type*} {ws : List τ} {h : β → Option γ} {f : τ → β} {g : γ → δ}
    (hnd : ((held ws h f).map g).Nodup) {t u : τ} (ht : t ∈ ws) (hu : u ∈ ws) {x y : γ}
    (hx : h (f t) = some x) (hy : h (f u) = some y) (hxy : g x = g y) : t = u := by
  by_contra htu
  have hpair := List.pairwise_filterMap.mp (List.pairwise_map.mp hnd)
  have hsymm : Std.Symm fun t u : τ => ∀ a, h (f t) = some a → ∀ b, h (f u) = some b → g a ≠ g b :=
    ⟨fun _ _ hR b hb a ha => (hR a ha b hb).symm⟩
  exact hpair.forall ht hu htu x hx y hy hxy

variable [DecidableEq τ]

/-- One party moves to state `b`: up to order, the collection loses what it held
and gains what it now holds. -/
theorem held_update {ws : List τ} (hnd : ws.Nodup) {t : τ} (ht : t ∈ ws) (h : β → Option γ)
    (f : τ → β) (b : β) :
    (h (f t)).toList ++ held ws h (Function.update f t b) ~ (h b).toList ++ held ws h f := by
  have hperm : ws ~ t :: ws.erase t := List.perm_cons_erase ht
  -- the others hold what they held
  have hrest : held (ws.erase t) h (Function.update f t b) = held (ws.erase t) h f :=
    held_congr fun w hw => by
      rw [Function.update_of_ne]
      exact fun hwt => hnd.not_mem_erase (hwt ▸ hw)
  have hsplit (g : τ → β) : held ws h g ~ (h (g t)).toList ++ held (ws.erase t) h g := by
    have := hperm.filterMap fun w => h (g w)
    cases hg : h (g t) <;> simpa [held, hg] using this
  have hnew := hsplit (Function.update f t b)
  rw [hrest, Function.update_self] at hnew
  calc (h (f t)).toList ++ held ws h (Function.update f t b)
      _ ~ (h (f t)).toList ++ ((h b).toList ++ held (ws.erase t) h f) := hnew.append_left _
      _ ~ (h b).toList ++ ((h (f t)).toList ++ held (ws.erase t) h f) := by
        rw [← List.append_assoc, ← List.append_assoc]
        exact List.perm_append_comm.append_right _
      _ ~ (h b).toList ++ held ws h f := (hsplit f).symm.append_left _

/-- One party moves to state `b`: a total over the group loses its part and gains the new one. -/
theorem sum_update {ws : List τ} (hnd : ws.Nodup) {t : τ} (ht : t ∈ ws) (g : β → Nat)
    (f : τ → β) (b : β) :
    (ws.map fun w => g (Function.update f t b w)).sum + g (f t) =
      (ws.map fun w => g (f w)).sum + g b := by
  have hperm : ws ~ t :: ws.erase t := List.perm_cons_erase ht
  have hrest : (ws.erase t).map (fun w => g (Function.update f t b w)) =
      (ws.erase t).map fun w => g (f w) :=
    List.map_congr_left fun w hw => by
      rw [Function.update_of_ne]
      exact fun hwt => hnd.not_mem_erase (hwt ▸ hw)
  have hsplit (f : τ → β) :
      (ws.map fun w => g (f w)).sum = g (f t) + ((ws.erase t).map fun w => g (f w)).sum := by
    rw [(hperm.map fun w => g (f w)).sum_nat, List.map_cons, List.sum_cons]
  rw [hsplit, hsplit f, hrest, Function.update_self]
  omega

end Counting
