-- SUMMARY: One-shot slots: an occupant is put in once and leaves once, by firing or by being dropped, as the history of a slot shows.
import Mathlib.Data.List.Basic
import Mathlib.Logic.Function.Basic

/-! # One-shot slots

A family of slots, each empty or holding one occupant. An occupant is added to
an empty slot, and it leaves by firing or by being dropped. A log of moves that
obeys these rules determines, slot by slot, what became of every occupant:
`after_add` says what follows an `add`, `before_fire` and `before_drop` what
came before its end. -/

namespace OneShot

variable {σ α ι κ : Type*}

/-! ## Runs of a relation -/

/-- The labels in the list lead from the first state to the second, one step each. -/
def Run (R : σ → α → σ → Prop) : σ → List α → σ → Prop
  | s, [], t => t = s
  | s, a :: l, t => ∃ m, R s a m ∧ Run R m l t

@[simp] theorem run_nil {R : σ → α → σ → Prop} {s t : σ} : Run R s [] t ↔ t = s := Iff.rfl

theorem run_cons {R : σ → α → σ → Prop} {s t : σ} {a : α} {l : List α} :
    Run R s (a :: l) t ↔ ∃ m, R s a m ∧ Run R m l t := Iff.rfl

theorem run_append {R : σ → α → σ → Prop} {s u : σ} {l k : List α} :
    Run R s (l ++ k) u ↔ ∃ t, Run R s l t ∧ Run R t k u := by
  induction l generalizing s with
  | nil => simp
  | cons a l ih =>
    simp only [List.cons_append, run_cons, ih]
    constructor
    · rintro ⟨m, hm, t, hl, hk⟩
      exact ⟨t, ⟨m, hm, hl⟩, hk⟩
    · rintro ⟨t, ⟨m, hm, hl⟩, hk⟩
      exact ⟨m, hm, t, hl, hk⟩

/-! ## One slot -/

/-- What happens to a slot. -/
inductive Act (κ : Type*) where
  | add (c : κ)
  | fire (c : κ)
  | drop
  deriving DecidableEq

/-- The rule: add to an empty slot, fire or drop the occupant. -/
inductive Act.Step : Option κ → Act κ → Option κ → Prop where
  | add (c : κ) : Step none (.add c) (some c)
  | fire (c : κ) : Step (some c) (.fire c) none
  | drop (c : κ) : Step (some c) .drop none

/-- After an `add` the occupant is still there at the end, or what comes next is
that it fires, or that it is dropped. -/
theorem after_add {s b : Option κ} {l k : List (Act κ)} {c : κ}
    (h : Run Act.Step s (l ++ .add c :: k) b) :
    (k = [] ∧ b = some c) ∨ (∃ k', k = .fire c :: k') ∨ ∃ k', k = .drop :: k' := by
  obtain ⟨t, -, hrun⟩ := run_append.mp h
  obtain ⟨m, hstep, hk⟩ := hrun
  cases hstep
  cases k with
  | nil => exact .inl ⟨rfl, hk⟩
  | cons a k' =>
    obtain ⟨m, hstep, -⟩ := hk
    cases hstep
    · exact .inr (.inl ⟨k', rfl⟩)
    · exact .inr (.inr ⟨k', rfl⟩)

/-- An occupied slot was filled by the last act. -/
theorem last_add {l : List (Act κ)} {c : κ} (h : Run Act.Step none l (some c)) :
    ∃ l', l = l' ++ [.add c] := by
  rcases List.eq_nil_or_concat l with rfl | ⟨l', a, rfl⟩
  · cases h
  · rw [List.concat_eq_append] at h ⊢
    obtain ⟨t, -, m, hstep, hm⟩ := run_append.mp h
    obtain rfl : some c = m := hm
    cases hstep
    exact ⟨l', rfl⟩

/-- An occupant was there from the start, or was added. -/
theorem of_occupied {s : Option κ} {l : List (Act κ)} {c : κ} (h : Run Act.Step s l (some c)) :
    s = some c ∨ .add c ∈ l := by
  rcases List.eq_nil_or_concat l with rfl | ⟨l', a, rfl⟩
  · exact .inl (run_nil.mp h).symm
  · rw [List.concat_eq_append] at h ⊢
    obtain ⟨t, -, m, hstep, hm⟩ := run_append.mp h
    obtain rfl : some c = m := hm
    cases hstep
    exact .inr (List.mem_append_right _ List.mem_cons_self)

/-- What fires was added just before. -/
theorem before_fire {l k : List (Act κ)} {b : Option κ} {c : κ}
    (h : Run Act.Step none (l ++ .fire c :: k) b) : ∃ l', l = l' ++ [.add c] := by
  obtain ⟨t, hl, m, hstep, -⟩ := run_append.mp h
  cases hstep
  exact last_add hl

/-- What is dropped was added just before. -/
theorem before_drop {l k : List (Act κ)} {b : Option κ}
    (h : Run Act.Step none (l ++ .drop :: k) b) : ∃ l' c, l = l' ++ [.add c] := by
  obtain ⟨t, hl, m, hstep, -⟩ := run_append.mp h
  cases hstep with
  | drop c =>
    obtain ⟨l', rfl⟩ := last_add hl
    exact ⟨l', c, rfl⟩

/-! ## A family of slots -/

/-- An act on one of the slots. -/
structure Move (ι κ : Type*) where
  slot : ι
  act : Act κ
  deriving DecidableEq

variable [DecidableEq ι]

/-- The rule for a family: the act obeys the rule of its slot. -/
inductive Move.Step (S : ι → Option κ) : Move ι κ → (ι → Option κ) → Prop where
  | mk {i : ι} {a : Act κ} {b : Option κ} (h : a.Step (S i) b) :
      Step S ⟨i, a⟩ (Function.update S i b)

/-- What happened to slot `i`, in order. -/
def history (i : ι) (log : List (Move ι κ)) : List (Act κ) :=
  log.filterMap fun m => if m.slot = i then some m.act else none

@[simp] theorem history_nil (i : ι) : history i ([] : List (Move ι κ)) = [] := rfl

theorem history_cons (i : ι) (m : Move ι κ) (log : List (Move ι κ)) :
    history i (m :: log) = if m.slot = i then m.act :: history i log else history i log := by
  by_cases h : m.slot = i <;> simp [history, h]

theorem mem_of_mem_history {i : ι} {a : Act κ} {log : List (Move ι κ)} (h : a ∈ history i log) :
    ⟨i, a⟩ ∈ log := by
  obtain ⟨m, hm, heq⟩ := List.mem_filterMap.mp h
  split at heq
  · rename_i hslot
    cases heq
    exact hslot ▸ hm
  · cases heq

/-- Each slot of a family lives by the rule of one slot. -/
theorem Run.slot {S T : ι → Option κ} {log : List (Move ι κ)} (h : Run Move.Step S log T) (i : ι) :
    Run Act.Step (S i) (history i log) (T i) := by
  induction log generalizing S with
  | nil =>
    obtain rfl : T = S := h
    rfl
  | cons m log ih =>
    obtain ⟨U, hstep, hlog⟩ := h
    have hrest := ih hlog
    cases hstep with
    | @mk j a b hact =>
      rw [history_cons]
      by_cases hji : j = i
      · subst hji
        rw [if_pos rfl]
        exact ⟨b, hact, by simpa using hrest⟩
      · rw [if_neg hji]
        simpa [Function.update_of_ne (Ne.symm hji)] using hrest

end OneShot
