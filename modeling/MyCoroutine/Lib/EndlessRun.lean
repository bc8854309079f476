-- SUMMARY: Endless runs of a transition system: invariants along them, parties that keep moving, and measures that settle.
import Mathlib.Order.Filter.AtTopBot.Basic
import MyCoroutine.Lib.TransitionSystem

/-! # Endless runs

What a system does in the end is said of its endless runs. At each moment a run takes one
step or none, so that a system which has come to rest still has one. Fairness is a
hypothesis on the run: a party moves again and again. What follows from it rests on
what lasts until somebody moves (`exists_of_kept`) and on measures that never grow
(`settles`, `exists_of_measure`). -/

namespace TransitionSystem

open Filter

variable {σ α τ : Type*} (T : TransitionSystem σ α)

/-- What happens at one moment: a step that `G` allows, or nothing. -/
def Moves (G : σ → α → Prop) (s : σ) : Option α → σ → Prop
  | none, t => t = s
  | some a, t => G s a ∧ T.step s a = some t

/-- An endless run under the guard `G`. -/
structure Run (G : σ → α → Prop) where
  state : ℕ → σ
  label : ℕ → Option α
  init : T.init (state 0)
  moves : ∀ n, T.Moves G (state n) (label n) (state (n + 1))

namespace Run

variable {T} {G : σ → α → Prop} {I : σ → Prop} {s : σ} {a : α} {m n : ℕ}

/-! ## One moment -/

theorem state_of_none (r : T.Run G) (h : r.label n = none) : r.state (n + 1) = r.state n := by
  have hmove := r.moves n
  rwa [h] at hmove

theorem step_of_some (r : T.Run G) (h : r.label n = some a) :
    G (r.state n) a ∧ T.step (r.state n) a = some (r.state (n + 1)) := by
  have hmove := r.moves n
  rwa [h] at hmove

/-! ## Invariants -/

theorem path (r : T.Run G) (hmn : m ≤ n) : T.Path G (r.state m) (r.state n) := by
  induction n, hmn using Nat.le_induction with
  | base => exact .refl _
  | succ n _ ih =>
    cases hlabel : r.label n with
    | none => rwa [r.state_of_none hlabel]
    | some a =>
      obtain ⟨hg, hstep⟩ := r.step_of_some hlabel
      exact .tail ih hg hstep

theorem reachable (r : T.Run G) (n : ℕ) : T.Reachable G (r.state n) :=
  ⟨r.state 0, r.init, r.path (Nat.zero_le n)⟩

/-- What holds once and is kept by each step holds from then on. -/
theorem always (r : T.Run G) (hI : T.Preserved G I) (h : I (r.state m)) (hmn : m ≤ n) :
    I (r.state n) :=
  hI.path (r.path hmn) h

/-! ## A concrete run -/

theorem replay_append {g : σ → α → Bool} (l₁ l₂ : List α) :
    T.replay g s (l₁ ++ l₂) = (T.replay g s l₁).bind fun t => T.replay g t l₂ := by
  induction l₁ generalizing s with
  | nil => rfl
  | cons a l₁ ih =>
    simp only [List.cons_append, replay]
    split
    · cases T.step s a with
      | none => rfl
      | some t => simpa using ih
    · rfl

theorem replay_singleton {g : σ → α → Bool} {t : σ} (h : T.replay g s [a] = some t) :
    g s a = true ∧ T.step s a = some t := by
  simp only [replay] at h
  split at h
  · rename_i hga
    exact ⟨hga, by simpa using h⟩
  · cases h

/-- The run that takes the labels of a replay and then rests. -/
theorem exists_of_replay {g : σ → α → Bool} (hg : ∀ s a, g s a = true → G s a) {l : List α}
    (hs : T.init s) (h : (T.replay g s l).isSome) :
    ∃ r : T.Run G, ∀ i, r.label i = l[i]? ∧
      ∀ p : σ → Bool, (T.replay g s (l.take i)).any p = true → p (r.state i) = true := by
  let state (i : ℕ) : σ := (T.replay g s (l.take i)).getD s
  have hstate (i : ℕ) : T.replay g s (l.take i) = some (state i) := by
    rw [← List.take_append_drop i l, replay_append] at h
    cases htake : T.replay g s (l.take i) with
    | none => simp [htake] at h
    | some t => simp [state, htake]
  refine ⟨⟨state, fun i => l[i]?, hs, fun i => ?_⟩, fun i => ⟨rfl, fun p hp => ?_⟩⟩
  rotate_left
  · rwa [hstate i] at hp
  rcases Nat.lt_or_ge i l.length with hi | hi
  · have hnext := hstate (i + 1)
    rw [List.take_add_one, List.getElem?_eq_getElem hi, Option.toList_some, replay_append,
      hstate i, Option.bind_some] at hnext
    obtain ⟨hga, hstep⟩ := replay_singleton hnext
    rw [List.getElem?_eq_getElem hi]
    exact ⟨hg _ _ hga, hstep⟩
  · have hrest : state (i + 1) = state i := by
      simp only [state, List.take_of_length_le hi, List.take_of_length_le (Nat.le_succ_of_le hi)]
    rw [List.getElem?_eq_none hi]
    exact hrest

/-! ## Parties that move -/

/-- At moment `n` it is `t` that moves. -/
def MovesAt (r : T.Run G) (party : α → Option τ) (t : τ) (n : ℕ) : Prop :=
  (r.label n).bind party = some t

end Run

/-- What lasts until something happens is still there when it happens. -/
theorem exists_of_kept {I P : ℕ → Prop} {m : ℕ} (hP : ∃ᶠ n in atTop, P n) (h : I m)
    (hkept : ∀ n, m ≤ n → I n → ¬ P n → I (n + 1)) : ∃ n, m ≤ n ∧ I n ∧ P n := by
  by_contra hnever
  push Not at hnever
  have hall : ∀ n, m ≤ n → I n := by
    intro n hmn
    induction n, hmn using Nat.le_induction with
    | base => exact h
    | succ n hmn ih => exact hkept n hmn ih (hnever n hmn ih)
  obtain ⟨n, hmn, hPn⟩ := frequently_atTop.mp hP m
  exact hnever n hmn (hall n hmn) hPn

/-! ## Measures -/

/-- A measure that never grows from some moment on is constant in the end. -/
theorem settles {f : ℕ → ℕ} (h : ∀ᶠ n in atTop, f (n + 1) ≤ f n) :
    ∀ᶠ m in atTop, ∀ n, m ≤ n → f n = f m := by
  obtain ⟨N, hN⟩ := eventually_atTop.mp h
  have hanti {m n : ℕ} (hNm : N ≤ m) (hmn : m ≤ n) : f n ≤ f m := by
    induction n, hmn using Nat.le_induction with
    | base => exact Nat.le_refl _
    | succ n hmn ih => exact Nat.le_trans (hN n (Nat.le_trans hNm hmn)) ih
  -- the least value is reached, and never left
  obtain ⟨M, hNM, hleast⟩ : ∃ M, N ≤ M ∧ ∀ n, N ≤ n → f M ≤ f n := by
    have hne : (Set.Ici N).Nonempty := ⟨N, Nat.le_refl N⟩
    exact ⟨Function.argminOn f (Set.Ici N) hne, Function.argminOn_mem f (Set.Ici N) hne,
      fun n hn => Function.argminOn_le f (Set.Ici N) hn⟩
  refine eventually_atTop.mpr ⟨M, fun m hMm n hmn => ?_⟩
  have hNm := Nat.le_trans hNM hMm
  exact Nat.le_antisymm (hanti hNm hmn)
    (Nat.le_trans (hanti hNM hMm) (hleast n (Nat.le_trans hNm hmn)))

/-- What makes a measure shrink again and again unless `Q` holds leads to `Q`. -/
theorem exists_of_measure {f : ℕ → ℕ} {Q : ℕ → Prop} {m : ℕ}
    (hle : ∀ n, m ≤ n → ¬ Q n → f (n + 1) ≤ f n)
    (hlt : ∃ᶠ n in atTop, ¬ Q n → f (n + 1) < f n) : ∃ n, m ≤ n ∧ Q n := by
  by_contra hnever
  push Not at hnever
  have hanti : ∀ᶠ n in atTop, f (n + 1) ≤ f n :=
    eventually_atTop.mpr ⟨m, fun n hn => hle n hn (hnever n hn)⟩
  obtain ⟨N, hmN, hconst⟩ := ((eventually_ge_atTop m).and (settles hanti)).exists
  obtain ⟨n, hNn, hshrinks⟩ := frequently_atTop.mp hlt N
  have hlt := hshrinks (hnever n (Nat.le_trans hmN hNn))
  rw [hconst n hNn, hconst (n + 1) (by omega)] at hlt
  exact Nat.lt_irrefl _ hlt

end TransitionSystem
