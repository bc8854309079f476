-- SUMMARY: Transition systems with computed steps: guarded paths, inductive invariants along them, and the replay of concrete runs.
import Mathlib.Data.Option.Basic

/-! # Transition systems

A system is a set of initial states and a step that is computed from a state
and a label. The label carries every choice that is not the system's own: which
party moves, what the environment answers. A property of all interleavings is
then a property of all lists of labels. -/

/-- A system with a computed step. `step s a = none` says that `a` is not
enabled in `s`, or that taking it ends the run. -/
structure TransitionSystem (σ α : Type*) where
  init : σ → Prop
  step : σ → α → Option σ

namespace TransitionSystem

variable {σ α : Type*} (T : TransitionSystem σ α)

/-! ## Paths and reachable states -/

/-- The states a run joins when each of its steps is taken where `G` allows it. -/
inductive Path (G : σ → α → Prop) : σ → σ → Prop where
  | refl (s : σ) : Path G s s
  | tail {s t u : σ} {a : α} : Path G s t → G t a → T.step t a = some u → Path G s u

/-- The states some run reaches from an initial state, under the guard `G`. -/
def Reachable (G : σ → α → Prop) (s : σ) : Prop :=
  ∃ s₀, T.init s₀ ∧ T.Path G s₀ s

/-- The guard that excludes no step. -/
def free : σ → α → Prop := fun _ _ => True

variable {T} {G : σ → α → Prop} {I J : σ → Prop} {s t u : σ} {a : α}

theorem Path.trans (h₁ : T.Path G s t) (h₂ : T.Path G t u) : T.Path G s u := by
  induction h₂ with
  | refl => exact h₁
  | tail _ hg hstep ih => exact .tail ih hg hstep

theorem Reachable.of_init (h : T.init s) : T.Reachable G s :=
  ⟨s, h, .refl s⟩

theorem Reachable.path (h : T.Reachable G s) (hp : T.Path G s t) : T.Reachable G t := by
  obtain ⟨s₀, h₀, hs⟩ := h
  exact ⟨s₀, h₀, hs.trans hp⟩

theorem Reachable.tail (h : T.Reachable G s) (hg : G s a) (hstep : T.step s a = some t) :
    T.Reachable G t :=
  h.path (.tail (.refl s) hg hstep)

/-! ## Invariants -/

/-- `I` survives every guarded step. -/
def Preserved (T : TransitionSystem σ α) (G : σ → α → Prop) (I : σ → Prop) : Prop :=
  ∀ s a t, I s → G s a → T.step s a = some t → I t

theorem Preserved.path (hI : T.Preserved G I) (h : T.Path G s t) (hs : I s) : I t := by
  induction h with
  | refl => exact hs
  | tail _ hg hstep ih => exact hI _ _ _ ih hg hstep

/-- The invariant rule: true at the start and kept by each step, so true in
every reachable state. -/
theorem Preserved.reachable (hI : T.Preserved G I) (h₀ : ∀ s, T.init s → I s)
    (h : T.Reachable G s) : I s := by
  obtain ⟨s₀, hs₀, hp⟩ := h
  exact hI.path hp (h₀ s₀ hs₀)

/-- An invariant may be proved with one already known at hand. -/
theorem Preserved.and_of (hJ : T.Preserved G J)
    (hI : ∀ s a t, J s → I s → G s a → T.step s a = some t → I t) :
    T.Preserved G fun s => J s ∧ I s :=
  fun s a t h hg hstep => ⟨hJ s a t h.1 hg hstep, hI s a t h.1 h.2 hg hstep⟩

/-! ## Replaying a concrete run -/

/-- Take the labels in order, as long as the test `g` lets each step pass. -/
def replay (T : TransitionSystem σ α) (g : σ → α → Bool) : σ → List α → Option σ
  | s, [] => some s
  | s, a :: as => if g s a then (T.step s a).bind fun t => replay T g t as else none

theorem Path.of_replay {g : σ → α → Bool} (hg : ∀ s a, g s a = true → G s a) {l : List α}
    (h : T.replay g s l = some t) : T.Path G s t := by
  induction l generalizing s with
  | nil =>
    simp only [replay, Option.some.injEq] at h
    exact h ▸ .refl s
  | cons a as ih =>
    simp only [replay] at h
    split at h
    · rename_i hga
      obtain ⟨s', hstep, hrest⟩ := Option.bind_eq_some_iff.mp h
      exact Path.trans (.tail (.refl s) (hg s a hga) hstep) (ih hrest)
    · cases h

/-- A run that can be computed and ends where `p` holds shows such a state reachable. -/
theorem Reachable.of_replay {g : σ → α → Bool} (hg : ∀ s a, g s a = true → G s a)
    {l : List α} {p : σ → Bool} (hs : T.init s) (h : (T.replay g s l).any p = true) :
    ∃ t, T.Reachable G t ∧ p t = true := by
  obtain ⟨t, ht, hp⟩ := (Option.any_eq_true _ _).mp h
  exact ⟨t, ⟨s, hs, Path.of_replay hg ht⟩, hp⟩

/-- A run in two parts that can be computed: the second goes on where the first ends. -/
theorem Reachable.of_replays {H : σ → α → Prop} {f g : σ → α → Bool}
    (hf : ∀ s a, f s a = true → G s a) (hg : ∀ s a, g s a = true → H s a) {k l : List α}
    {p : σ → σ → Bool} (hs : T.init s)
    (h : (T.replay f s k).any (fun u => (T.replay g u l).any (p u)) = true) :
    ∃ t u, T.Reachable G t ∧ T.Path H t u ∧ p t u = true := by
  obtain ⟨t, ht, hrest⟩ := (Option.any_eq_true _ _).mp h
  obtain ⟨u, hu, hp⟩ := (Option.any_eq_true _ _).mp hrest
  exact ⟨t, u, ⟨s, hs, Path.of_replay hf ht⟩, Path.of_replay hg hu, hp⟩

/-! ## Recorded runs -/

/-- The system with a record of its run: a step `a` from `s` adds `note s a`, and
no step reads it. -/
def recording {ρ : Type*} (T : TransitionSystem σ α) (note : σ → α → List ρ) :
    TransitionSystem (σ × List ρ) α where
  init s := T.init s.1 ∧ s.2 = []
  step s a := (T.step s.1 a).map fun t => (t, s.2 ++ note s.1 a)

theorem recording_step {ρ : Type*} {note : σ → α → List ρ} {s t : σ × List ρ}
    (h : (T.recording note).step s a = some t) :
    T.step s.1 a = some t.1 ∧ t.2 = s.2 ++ note s.1 a := by
  obtain ⟨u, hstep, rfl⟩ := Option.map_eq_some_iff.mp h
  exact ⟨hstep, rfl⟩

/-- A recorded run is a run. -/
theorem Reachable.of_recording {ρ : Type*} {note : σ → α → List ρ} {s : σ × List ρ}
    (h : (T.recording note).Reachable (fun s a => G s.1 a) s) : T.Reachable G s.1 := by
  have hkept : (T.recording note).Preserved (fun s a => G s.1 a) fun s => T.Reachable G s.1 :=
    fun _ _ _ hs hg hstep => hs.tail hg (recording_step hstep).1
  exact hkept.reachable (fun s hs => .of_init hs.1) h

end TransitionSystem
