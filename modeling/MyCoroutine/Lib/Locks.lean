-- SUMMARY: Threads that run straight-line programs over locks and bounded pipes: lock order and deadlock, full pipes, and data races.
import Mathlib.Data.Finset.Max
import MyCoroutine.Lib.Counting
import MyCoroutine.Lib.EndlessRun

/-! # Locks

Threads call programs. A program is the list of what it does that other threads can notice:
it takes and gives back locks, reads and writes variables, and puts into pipes of bounded
capacity, which block while they are full. What a program does under which locks is decided
before it runs (`Along`), so a rule that each program obeys is an invariant of all runs
(`along_of_reachable`). Two rules matter: which locks are taken under which (`Nests`), in
rising order if nobody is to wait in a circle (`Rises`); and that a variable is accessed under
its guard (`Guarded`). -/

namespace Locking

open Counting TransitionSystem

inductive Mode where
  | shared
  | exclusive
  deriving DecidableEq

inductive Act (L X P : Type*) where
  | acquire (l : L) (mode : Mode)
  | release (l : L)
  | read (x : X)
  | write (x : X)
  /-- Blocks while the pipe is full. -/
  | put (pipe : P)
  /-- Empties the pipe. -/
  | drain (pipe : P)
  deriving DecidableEq

/-- What a thread holds. -/
abbrev Held (L : Type*) := List (L × Mode)

abbrev Program (L X P : Type*) := List (Act L X P)

variable {τ L X P : Type*} [DecidableEq L] {a : Act L X P} {p q : Program L X P} {h : Held L}
  {C : Held L → Act L X P → Prop}

/-- What is held after the action. -/
def Act.hold : Act L X P → Held L → Held L
  | .acquire l mode, h => (l, mode) :: h
  | .release l, h => h.filter fun k => k.1 ≠ l
  | .read _, h | .write _, h | .put _, h | .drain _, h => h

/-! ## Rules for programs -/

/-- The program obeys `C` at each of its actions, with what it holds then. -/
def Along (C : Held L → Act L X P → Prop) : Held L → Program L X P → Prop
  | _, [] => True
  | h, a :: p => C h a ∧ Along C (a.hold h) p

/-- What the program holds in the end. -/
def holdAll : Held L → Program L X P → Held L
  | h, [] => h
  | h, a :: p => holdAll (a.hold h) p

/-- From `h` on the program obeys `C`, and it gives back what it takes. -/
structure Keeps (C : Held L → Act L X P → Prop) (h : Held L) (p : Program L X P) : Prop where
  along : Along C h p
  back : holdAll h p = h

/-- A critical section. -/
def locked (l : L) (mode : Mode) (p : Program L X P) : Program L X P :=
  .acquire l mode :: (p ++ [.release l])

theorem along_append : Along C h (p ++ q) ↔ Along C h p ∧ Along C (holdAll h p) q := by
  induction p generalizing h with
  | nil => simp [Along, holdAll]
  | cons a p ih => simp only [List.cons_append, Along, holdAll, ih, and_assoc]

theorem holdAll_append : holdAll h (p ++ q) = holdAll (holdAll h p) q := by
  induction p generalizing h with
  | nil => rfl
  | cons a p ih => exact ih

theorem Keeps.nil : Keeps C h [] := ⟨trivial, rfl⟩

theorem Keeps.append (hp : Keeps C h p) (hq : Keeps C h q) : Keeps C h (p ++ q) := by
  refine ⟨along_append.mpr ⟨hp.along, ?_⟩, ?_⟩
  · rw [hp.back]
    exact hq.along
  · rw [holdAll_append, hp.back, hq.back]

/-- An action that is no lock's. -/
theorem Keeps.cons (ha : C h a) (hhold : a.hold h = h) (hp : Keeps C h p) :
    Keeps C h (a :: p) := by
  refine ⟨⟨ha, ?_⟩, ?_⟩
  · rw [hhold]
    exact hp.along
  · rw [holdAll, hhold, hp.back]

theorem Keeps.ite {c : Prop} [Decidable c] (hp : c → Keeps C h p) (hq : ¬ c → Keeps C h q) :
    Keeps C h (if c then p else q) := by
  split
  · rename_i hc
    exact hp hc
  · rename_i hc
    exact hq hc

/-- A program that takes no lock and gives none back. -/
theorem Keeps.of_forall (hp : ∀ a ∈ p, C h a ∧ a.hold h = h) : Keeps C h p := by
  induction p with
  | nil => exact .nil
  | cons a p ih =>
    obtain ⟨ha, hhold⟩ := hp a List.mem_cons_self
    exact .cons ha hhold (ih fun b hb => hp b (List.mem_cons_of_mem a hb))

theorem Keeps.mono {D : Held L → Act L X P → Prop} (hCD : ∀ h a, C h a → D h a)
    (hp : Keeps C h p) : Keeps D h p := by
  refine ⟨?_, hp.back⟩
  have halong := hp.along
  clear hp
  induction p generalizing h with
  | nil => trivial
  | cons a p ih => exact ⟨hCD h a halong.1, ih halong.2⟩

theorem Keeps.flatMap {ι : Type*} {l : List ι} {f : ι → Program L X P}
    (hf : ∀ i ∈ l, Keeps C h (f i)) : Keeps C h (l.flatMap f) := by
  induction l with
  | nil => exact .nil
  | cons i l ih =>
    rw [List.flatMap_cons]
    exact (hf i List.mem_cons_self).append (ih fun j hj => hf j (List.mem_cons_of_mem i hj))

theorem Keeps.locked {l : L} {mode : Mode} (hacquire : C h (.acquire l mode))
    (hrelease : C ((l, mode) :: h) (.release l)) (hnew : ∀ k ∈ h, k.1 ≠ l)
    (hp : Keeps C ((l, mode) :: h) p) : Keeps C h (locked l mode p) := by
  refine ⟨⟨hacquire, along_append.mpr ⟨hp.along, ?_⟩⟩, ?_⟩
  · change Along C (holdAll ((l, mode) :: h) p) _
    rw [hp.back]
    exact ⟨hrelease, trivial⟩
  · change holdAll ((l, mode) :: h) (p ++ [.release l]) = h
    rw [holdAll_append, hp.back]
    simpa [holdAll, Act.hold] using hnew

/-- A lock is taken only under locks that `r` lets it follow. -/
def Nests (r : L → L → Prop) (h : Held L) : Act L X P → Prop
  | .acquire l _ => ∀ k ∈ h, r k.1 l
  | .release _ | .read _ | .write _ | .put _ | .drain _ => True

/-- Locks are taken in rising order. -/
def Rises (rank : L → ℕ) : Held L → Act L X P → Prop :=
  Nests fun k l => rank k < rank l

omit [DecidableEq L] in
theorem Nests.mono {r r' : L → L → Prop} (hr : ∀ k l, r k l → r' k l) (hnests : Nests r h a) :
    Nests r' h a := by
  cases a with
  | acquire l mode => exact fun k hk => hr k.1 l (hnests k hk)
  | release | read | write | put | drain => trivial

/-- Nobody empties a pipe. -/
def Undrained (_ : Held L) : Act L X P → Prop
  | .drain _ => False
  | .acquire _ _ | .release _ | .read _ | .write _ | .put _ => True

/-- A variable with a guard is read with the guard held, and written with it held alone. -/
def Guarded (guard : X → Option L) (h : Held L) : Act L X P → Prop
  | .read x => ∀ l ∈ guard x, ∃ mode, (l, mode) ∈ h
  | .write x => ∀ l ∈ guard x, (l, .exclusive) ∈ h
  | .acquire _ _ | .release _ | .put _ | .drain _ => True

/-! ## Steps -/

structure State (τ L X P : Type*) where
  /-- What remains of the call that a thread makes. -/
  todo : τ → Program L X P
  held : τ → Held L
  fill : P → ℕ

inductive Label (τ L X P : Type*) where
  | call (t : τ) (p : Program L X P)
  | act (t : τ)

/-- Nobody calls anything, and nothing was put. -/
def State.start : State τ L X P :=
  ⟨fun _ => [], fun _ => [], fun _ => 0⟩

variable [DecidableEq τ] [DecidableEq P]

/-- What is in the pipes after the action. -/
def Act.pour : Act L X P → (P → ℕ) → P → ℕ
  | .put pipe, fill => Function.update fill pipe (fill pipe + 1)
  | .drain pipe, fill => Function.update fill pipe 0
  | .acquire _ _, fill | .release _, fill | .read _, fill | .write _, fill => fill

/-- The action does not block: the lock is free, or shared by all; the pipe has room. -/
def Act.Ready (W : List τ) (capacity : P → ℕ) (s : State τ L X P) : Act L X P → Prop
  | .acquire l mode => ∀ t ∈ W, ∀ k ∈ s.held t, k.1 = l → k.2 = .shared ∧ mode = .shared
  | .put pipe => s.fill pipe < capacity pipe
  | .release _ | .read _ | .write _ | .drain _ => True

instance (W : List τ) (capacity : P → ℕ) (s : State τ L X P) :
    DecidablePred (Act.Ready W capacity s)
  | .acquire l mode => inferInstanceAs (Decidable (∀ t ∈ W, ∀ k ∈ s.held t, k.1 = l →
      k.2 = .shared ∧ mode = .shared))
  | .put pipe => inferInstanceAs (Decidable (s.fill pipe < capacity pipe))
  | .release _ | .read _ | .write _ | .drain _ => .isTrue trivial

/-- Thread `t` calls `p`. -/
def State.enter (s : State τ L X P) (t : τ) (p : Program L X P) : State τ L X P :=
  { s with todo := Function.update s.todo t p }

/-- Thread `t` performs `a`, and `p` remains. -/
def State.perform (s : State τ L X P) (t : τ) (a : Act L X P) (p : Program L X P) :
    State τ L X P where
  todo := Function.update s.todo t p
  held := Function.update s.held t (a.hold (s.held t))
  fill := a.pour s.fill

def step (W : List τ) (capacity : P → ℕ) (s : State τ L X P) :
    Label τ L X P → Option (State τ L X P)
  | .call t p =>
    if t ∈ W ∧ s.todo t = [] then some (s.enter t p) else none
  | .act t =>
    match s.todo t with
    | [] => none
    | a :: p => if t ∈ W ∧ a.Ready W capacity s then some (s.perform t a p) else none

/-- The threads `W`, and pipes of this capacity. -/
def system (W : List τ) (capacity : P → ℕ) :
    TransitionSystem (State τ L X P) (Label τ L X P) where
  init s := s = .start
  step := step W capacity

/-- Only these programs are called. -/
def calls (Allowed : Program L X P → Prop) (_ : State τ L X P) : Label τ L X P → Prop
  | .call _ p => Allowed p
  | .act _ => True

inductive Step (W : List τ) (capacity : P → ℕ) (s : State τ L X P) :
    Label τ L X P → State τ L X P → Prop where
  | call (t : τ) (p : Program L X P) (ht : t ∈ W) (hdone : s.todo t = []) :
      Step W capacity s (.call t p) (s.enter t p)
  | act (t : τ) (a : Act L X P) (p : Program L X P) (ht : t ∈ W) (htodo : s.todo t = a :: p)
      (hready : a.Ready W capacity s) : Step W capacity s (.act t) (s.perform t a p)

variable {W : List τ} {capacity : P → ℕ} {s s' : State τ L X P} {b : Label τ L X P} {t u : τ}

theorem step_cases (hstep : (system W capacity).step s b = some s') : Step W capacity s b s' := by
  change step W capacity s b = some s' at hstep
  cases b with
  | call t p =>
    obtain ⟨⟨ht, hdone⟩, hs⟩ := Option.ite_none_right_eq_some.mp hstep
    cases hs
    exact .call t p ht hdone
  | act t =>
    cases htodo : s.todo t with
    | nil => simp [step, htodo] at hstep
    | cons a p =>
      simp only [step, htodo] at hstep
      obtain ⟨⟨ht, hready⟩, hs⟩ := Option.ite_none_right_eq_some.mp hstep
      cases hs
      exact .act t a p ht htodo hready

theorem step_act (capacity : P → ℕ) (ht : t ∈ W) (htodo : s.todo t = a :: p)
    (hready : a.Ready W capacity s) :
    (system W capacity).step s (.act t) = some (s.perform t a p) := by
  simp [system, step, htodo, ht, hready]

theorem step_call (capacity : P → ℕ) (ht : t ∈ W) (hdone : s.todo t = []) (p : Program L X P) :
    (system W capacity).step s (.call t p) = some (s.enter t p) := by
  simp [system, step, hdone, ht]

omit [DecidableEq L] [DecidableEq P] in
@[simp] theorem enter_todo (s : State τ L X P) (t : τ) (p : Program L X P) :
    (s.enter t p).todo t = p :=
  Function.update_self ..

omit [DecidableEq L] [DecidableEq P] in
@[simp] theorem enter_held (s : State τ L X P) (t : τ) (p : Program L X P) :
    (s.enter t p).held = s.held := rfl

omit [DecidableEq L] [DecidableEq P] in
theorem enter_others (hut : u ≠ t) : (s.enter t p).todo u = s.todo u :=
  Function.update_of_ne hut ..

@[simp] theorem perform_todo (s : State τ L X P) (t : τ)
    (a : Act L X P) (p : Program L X P) : (s.perform t a p).todo t = p :=
  Function.update_self ..

@[simp] theorem perform_held (s : State τ L X P) (t : τ) (a : Act L X P) (p : Program L X P) :
    (s.perform t a p).held t = a.hold (s.held t) :=
  Function.update_self ..

/-- The other threads stay where they are. -/
theorem perform_others (hut : u ≠ t) :
    (s.perform t a p).todo u = s.todo u ∧ (s.perform t a p).held u = s.held u :=
  ⟨Function.update_of_ne hut .., Function.update_of_ne hut ..⟩

/-! ## Every run -/

variable {Allowed : Program L X P → Prop}

/-- What remains of each call obeys the rule, and gives everything back. -/
theorem along_of_reachable (hallowed : ∀ p, Allowed p → Keeps C [] p)
    (hs : (system W capacity).Reachable (calls Allowed) s) (t : τ) :
    Along C (s.held t) (s.todo t) ∧ holdAll (s.held t) (s.todo t) = [] := by
  refine Preserved.reachable (T := system W capacity) (G := calls Allowed)
    (I := fun s => ∀ t, Along C (s.held t) (s.todo t) ∧ holdAll (s.held t) (s.todo t) = [])
    ?_ ?_ hs t
  · intro s b s' hs hg hstep u
    cases step_cases hstep with
    | call t p ht hdone =>
      rcases eq_or_ne u t with rfl | hut
      · have hnone : s.held u = [] := by
          have hback := (hs u).2
          rwa [hdone] at hback
        have hp := hallowed p hg
        rw [enter_todo, enter_held, hnone]
        exact ⟨hp.along, hp.back⟩
      · rw [enter_others hut]
        exact hs u
    | act t a p ht htodo hready =>
      rcases eq_or_ne u t with rfl | hut
      · have hbefore := hs u
        rw [htodo] at hbefore
        rw [perform_todo, perform_held]
        exact ⟨hbefore.1.2, hbefore.2⟩
      · obtain ⟨htodo', hheld⟩ := perform_others (s := s) (a := a) (p := p) hut
        rw [htodo', hheld]
        exact hs u
  · rintro s rfl t
    exact ⟨trivial, rfl⟩

/-- Who is about to take a lock under another nests them as its program does. -/
theorem nests_of_reachable {r : L → L → Prop} (hallowed : ∀ p, Allowed p → Keeps (Nests r) [] p)
    (hs : (system W capacity).Reachable (calls Allowed) s) {l : L} {mode : Mode}
    (htodo : s.todo t = .acquire l mode :: p) : ∀ k ∈ s.held t, r k.1 l := by
  have halong := (along_of_reachable hallowed hs t).1
  rw [htodo] at halong
  exact halong.1

/-- Two threads hold a lock together only when both share it. -/
theorem held_apart (hs : (system W capacity).Reachable (calls Allowed) s) (ht : t ∈ W)
    (hu : u ∈ W) (htu : t ≠ u) {k j : L × Mode} (hk : k ∈ s.held t) (hj : j ∈ s.held u)
    (hkj : k.1 = j.1) : k.2 = .shared ∧ j.2 = .shared := by
  refine Preserved.reachable (T := system W capacity) (G := calls Allowed)
    (I := fun s => ∀ t ∈ W, ∀ u ∈ W, t ≠ u → ∀ k ∈ s.held t, ∀ j ∈ s.held u, k.1 = j.1 →
      k.2 = .shared ∧ j.2 = .shared) ?_ ?_ hs t ht u hu htu k hk j hj hkj
  · intro s b s' hs _ hstep
    cases step_cases hstep with
    | call t p ht hdone => exact hs
    | act t a p ht htodo hready =>
      -- a lock that is new to `t` is free, or shared by all
      have moved (u : τ) (hu : u ∈ W) (htu : t ≠ u) (k : L × Mode) (hk : k ∈ a.hold (s.held t))
          (j : L × Mode) (hj : j ∈ s.held u) (hkj : k.1 = j.1) :
          k.2 = .shared ∧ j.2 = .shared := by
        cases a with
        | acquire l mode =>
          obtain rfl | hk := List.mem_cons.mp hk
          · exact (hready u hu j hj hkj.symm).symm
          · exact hs t ht u hu htu k hk j hj hkj
        | release l => exact hs t ht u hu htu k (List.mem_filter.mp hk).1 j hj hkj
        | read x | write x | put pipe | drain pipe => exact hs t ht u hu htu k hk j hj hkj
      intro u hu v hv huv k hk j hj hkj
      rcases eq_or_ne u t with rfl | hut
      · rw [perform_held] at hk
        rw [(perform_others huv.symm).2] at hj
        exact moved v hv huv k hk j hj hkj
      · rw [(perform_others hut).2] at hk
        rcases eq_or_ne v t with rfl | hvt
        · rw [perform_held] at hj
          exact (moved u hu huv.symm j hj k hk hkj.symm).symm
        · rw [(perform_others hvt).2] at hj
          exact hs u hu v hv huv k hk j hj hkj
  · rintro s rfl t _ u _ _ k hk
    cases hk

/-! ## Deadlock -/

/-- A thread is in the middle of a call, and its next action does not block. -/
def State.CanMove (W : List τ) (capacity : P → ℕ) (s : State τ L X P) (t : τ) : Prop :=
  ∃ a p, s.todo t = a :: p ∧ a.Ready W capacity s

/-- A thread is about to put into a full pipe. -/
def State.AtFull (capacity : P → ℕ) (s : State τ L X P) (t : τ) (pipe : P) : Prop :=
  ∃ p, s.todo t = .put pipe :: p ∧ capacity pipe ≤ s.fill pipe

omit [DecidableEq L] [DecidableEq τ] [DecidableEq P] in
/-- Who does not move waits for a lock that somebody holds, or is at a full pipe. -/
theorem waits_of_not_canMove (htodo : s.todo t ≠ []) (hnot : ¬ s.CanMove W capacity t) :
    (∃ l mode p, s.todo t = .acquire l mode :: p ∧ ∃ u ∈ W, ∃ k ∈ s.held u, k.1 = l) ∨
      ∃ pipe, s.AtFull capacity t pipe := by
  obtain ⟨a, p, hap⟩ := List.exists_cons_of_ne_nil htodo
  have hready : ¬ a.Ready W capacity s := fun hready => hnot ⟨a, p, hap, hready⟩
  cases a with
  | acquire l mode =>
    simp only [Act.Ready] at hready
    push Not at hready
    obtain ⟨u, hu, k, hk, hkl, -⟩ := hready
    exact .inl ⟨l, mode, p, hap, u, hu, k, hk, hkl⟩
  | put pipe => exact .inr ⟨pipe, p, hap, Nat.le_of_not_lt hready⟩
  | release l | read x | write x | drain pipe => exact absurd trivial hready

/-- Where locks are taken in rising order, threads do not wait for each other in a circle:
while a call is unfinished somebody moves, unless somebody is at a full pipe. -/
theorem exists_canMove {rank : L → ℕ} (hallowed : ∀ p, Allowed p → Keeps (Rises rank) [] p)
    (hs : (system W capacity).Reachable (calls Allowed) s) (ht : t ∈ W) (htodo : s.todo t ≠ []) :
    ∃ u ∈ W, s.CanMove W capacity u ∨ ∃ pipe, s.AtFull capacity u pipe := by
  classical
  by_contra hnobody
  push Not at hnobody
  -- of the threads that wait, one waits for the highest lock
  let wanted (u : τ) : ℕ := match s.todo u with
    | .acquire l _ :: _ => rank l
    | _ => 0
  obtain ⟨u, hu, hhighest⟩ := Finset.exists_max_image (W.toFinset.filter fun u => s.todo u ≠ [])
    wanted ⟨t, by simp [ht, htodo]⟩
  simp only [Finset.mem_filter, List.mem_toFinset] at hu hhighest
  have waits {v : τ} (hv : v ∈ W) (htodo : s.todo v ≠ []) :
      ∃ l mode p, s.todo v = .acquire l mode :: p ∧ ∃ w ∈ W, ∃ k ∈ s.held w, k.1 = l :=
    (waits_of_not_canMove htodo (hnobody v hv).1).resolve_right
      fun ⟨pipe, hfull⟩ => (hnobody v hv).2 pipe hfull
  obtain ⟨l, mode, p, hul, v, hv, k, hk, rfl⟩ := waits hu.1 hu.2
  -- who holds it is in a call too, and waits for a higher one
  have hbusy : s.todo v ≠ [] := by
    intro hdone
    have hback := (along_of_reachable hallowed hs v).2
    rw [hdone] at hback
    change s.held v = [] at hback
    rw [hback] at hk
    cases hk
  obtain ⟨l', mode', p', hvl, -⟩ := waits hv hbusy
  have halong := (along_of_reachable hallowed hs v).1
  rw [hvl] at halong
  have hrises : rank k.1 < rank l' := halong.1 k hk
  have hle := hhighest v ⟨hv, hbusy⟩
  simp only [wanted, hul, hvl] at hle
  omega

/-- What remains of all calls. -/
def State.remaining (W : List τ) (s : State τ L X P) : ℕ :=
  (W.map fun t => (s.todo t).length).sum

omit [DecidableEq L] [DecidableEq τ] [DecidableEq P] in
theorem remaining_eq_zero : s.remaining W = 0 ↔ ∀ t ∈ W, s.todo t = [] := by
  simp only [State.remaining, List.sum_eq_zero_iff_forall_eq_nat, List.mem_map]
  constructor
  · intro h t ht
    exact List.length_eq_zero_iff.mp (h _ ⟨t, ht, rfl⟩)
  · rintro h _ ⟨t, ht, rfl⟩
    exact List.length_eq_zero_iff.mpr (h t ht)

theorem remaining_perform (hW : W.Nodup) (ht : t ∈ W) (htodo : s.todo t = a :: p) :
    (s.perform t a p).remaining W + 1 = s.remaining W := by
  have hsum := sum_update hW ht (List.length (α := Act L X P)) s.todo p
  rw [htodo, List.length_cons] at hsum
  change (W.map fun u => (Function.update s.todo t p u).length).sum + 1 = _
  simp only [State.remaining]
  omega

/-- When the calls end and no thread finds a pipe full, and threads that can move do so, then
every call returns. -/
theorem calls_return {rank : L → ℕ} (hallowed : ∀ p, Allowed p → Keeps (Rises rank) [] p)
    (hW : W.Nodup) (r : (system W capacity).Run (calls Allowed))
    (hends : ∀ᶠ n in Filter.atTop, ∀ t p, r.label n ≠ some (.call t p))
    (hroom : ∀ᶠ n in Filter.atTop, ∀ t ∈ W, ∀ pipe, ¬ (r.state n).AtFull capacity t pipe)
    (hmoves : ∃ᶠ n in Filter.atTop, (∃ t ∈ W, (r.state n).CanMove W capacity t) →
      (r.label n).isSome = true) :
    ∀ᶠ n in Filter.atTop, ∀ t ∈ W, (r.state n).todo t = [] := by
  obtain ⟨m, hm⟩ := Filter.eventually_atTop.mp (hends.and hroom)
  -- each action is one less
  have hless {n : ℕ} (hmn : m ≤ n) (hsome : (r.label n).isSome = true) :
      (r.state (n + 1)).remaining W + 1 = (r.state n).remaining W := by
    obtain ⟨b, hb⟩ := Option.isSome_iff_exists.mp hsome
    have hstep := step_cases (r.step_of_some hb).2
    generalize r.state (n + 1) = s' at hstep ⊢
    cases hstep with
    | call t p ht hdone => exact absurd hb ((hm n hmn).1 t p)
    | act t a p ht htodo hready => exact remaining_perform hW ht htodo
  have hnext {n : ℕ} (hmn : m ≤ n) :
      (r.state (n + 1)).remaining W ≤ (r.state n).remaining W := by
    cases hlabel : r.label n with
    | none => rw [r.state_of_none hlabel]
    | some b => have := hless hmn (by rw [hlabel]; rfl); omega
  obtain ⟨k, hmk, hzero⟩ : ∃ k, m ≤ k ∧ (r.state k).remaining W = 0 := by
    refine exists_of_measure (f := fun n => (r.state n).remaining W) (fun n hmn _ => hnext hmn) ?_
    refine (hmoves.and_eventually (Filter.eventually_ge_atTop m)).mono
      fun n ⟨hmove, hmn⟩ hbusy => ?_
    obtain ⟨t, ht, htodo⟩ : ∃ t ∈ W, (r.state n).todo t ≠ [] := by
      by_contra hdone
      push Not at hdone
      exact hbusy (remaining_eq_zero.mpr hdone)
    obtain ⟨u, hu, hcan | ⟨pipe, hfull⟩⟩ := exists_canMove hallowed (r.reachable n) ht htodo
    · have := hless hmn (hmove ⟨u, hu, hcan⟩)
      omega
    · exact absurd hfull ((hm n hmn).2 u hu pipe)
  refine Filter.eventually_atTop.mpr ⟨k, fun n hkn => remaining_eq_zero.mp ?_⟩
  induction n, hkn using Nat.le_induction with
  | base => exact hzero
  | succ n hkn ih => exact Nat.le_zero.mp (ih ▸ hnext (Nat.le_trans hmk hkn))

/-! ## Full pipes -/

/-- A thread is at a full pipe, or waits for a lock that a blocked thread holds. -/
inductive Blocked (W : List τ) (capacity : P → ℕ) (s : State τ L X P) : τ → Prop where
  | full (t : τ) (pipe : P) (h : s.AtFull capacity t pipe) : Blocked W capacity s t
  | waits (t u : τ) (k : L × Mode) (mode : Mode) (p : Program L X P)
      (htodo : s.todo t = .acquire k.1 mode :: p) (hu : u ∈ W) (h : Blocked W capacity s u)
      (hk : k ∈ s.held u) (hmode : ¬ (k.2 = .shared ∧ mode = .shared)) : Blocked W capacity s t

omit [DecidableEq L] [DecidableEq τ] [DecidableEq P] in
theorem Blocked.not_ready (h : Blocked W capacity s t) (htodo : s.todo t = a :: p) :
    ¬ a.Ready W capacity s := by
  cases h with
  | full t pipe hfull =>
    obtain ⟨q, hq, hle⟩ := hfull
    cases hq.symm.trans htodo
    exact Nat.not_lt.mpr hle
  | waits t u k mode q hq hu _ hk hmode =>
    cases hq.symm.trans htodo
    exact fun hready => hmode (hready u hu k hk rfl)

/-- Where nobody empties a pipe, it never gets emptier. -/
theorem fill_step (hundrained : ∀ u pipe q, s.todo u ≠ .drain pipe :: q)
    (hstep : Step W capacity s b s') (pipe : P) : s.fill pipe ≤ s'.fill pipe := by
  cases hstep with
  | call u p hu hdone => exact Nat.le_refl _
  | act u a p hu htodo hready =>
    cases a with
    | put pipe' =>
      change _ ≤ Function.update s.fill pipe' (s.fill pipe' + 1) pipe
      rw [Function.update_apply]
      split
      · rename_i heq
        exact heq ▸ Nat.le_succ _
      · exact Nat.le_refl _
    | drain pipe' => exact absurd htodo (hundrained u pipe' p)
    | acquire l mode | release l | read x | write x => exact Nat.le_refl _

theorem Blocked.step (h : Blocked W capacity s t)
    (hundrained : ∀ u pipe q, s.todo u ≠ .drain pipe :: q) (hstep : Step W capacity s b s') :
    Blocked W capacity s' t ∧ s'.todo t = s.todo t ∧ s'.held t = s.held t := by
  have still {t : τ} (h : Blocked W capacity s t) :
      s'.todo t = s.todo t ∧ s'.held t = s.held t := by
    cases hstep with
    | call u p hu hdone =>
      refine ⟨enter_others ?_, rfl⟩
      rintro rfl
      cases h with
      | full _ _ hfull =>
        obtain ⟨q, hq, -⟩ := hfull
        cases hq.symm.trans hdone
      | waits _ _ _ _ _ htodo => cases htodo.symm.trans hdone
    | act u a p hu htodo hready =>
      refine perform_others ?_
      rintro rfl
      exact h.not_ready htodo hready
  refine ⟨?_, still h⟩
  induction h with
  | full t pipe hfull =>
    have hsame := (still (.full t pipe hfull)).1
    obtain ⟨q, hq, hle⟩ := hfull
    exact .full t pipe ⟨q, hsame.trans hq, Nat.le_trans hle (fill_step hundrained hstep pipe)⟩
  | waits t u k mode p htodo hu hblocked hk hmode ih =>
    have hsame := (still (.waits t u k mode p htodo hu hblocked hk hmode)).1
    exact .waits t u k mode p (hsame.trans htodo) hu ih ((still hblocked).2 ▸ hk) hmode

/-- What is full stays full. -/
theorem full_stays (hallowed : ∀ p, Allowed p → Keeps Undrained [] p)
    (hs : (system W capacity).Reachable (calls Allowed) s)
    (hpath : (system W capacity).Path (calls Allowed) s s') :
    (∀ pipe, s.fill pipe ≤ s'.fill pipe) ∧ ∀ t, Blocked W capacity s t →
      Blocked W capacity s' t ∧ s'.todo t = s.todo t ∧ s'.held t = s.held t := by
  have hkept : (system W capacity).Preserved (calls Allowed) fun v =>
      (system W capacity).Reachable (calls Allowed) v ∧ (∀ pipe, s.fill pipe ≤ v.fill pipe) ∧
        ∀ t, Blocked W capacity s t →
          Blocked W capacity v t ∧ v.todo t = s.todo t ∧ v.held t = s.held t := by
    rintro v b v' ⟨hv, hfill, hsame⟩ hg hstep
    have hundrained (u : τ) (pipe : P) (q : Program L X P) : v.todo u ≠ .drain pipe :: q := by
      intro hq
      have halong := (along_of_reachable hallowed hv u).1
      rw [hq] at halong
      exact halong.1
    refine ⟨hv.tail hg hstep, fun pipe => ?_, fun t ht => ?_⟩
    · exact Nat.le_trans (hfill pipe) (fill_step hundrained (step_cases hstep) pipe)
    · obtain ⟨hblocked, htodo, hheld⟩ := hsame t ht
      obtain ⟨hblocked', htodo', hheld'⟩ := hblocked.step hundrained (step_cases hstep)
      exact ⟨hblocked', htodo'.trans htodo, hheld'.trans hheld⟩
  exact (hkept.path hpath ⟨hs, fun _ => Nat.le_refl _, fun _ ht => ⟨ht, rfl, rfl⟩⟩).2

/-! ## Races -/

/-- Two threads are about to access `x`, and one of them to write it. -/
def State.Race (W : List τ) (s : State τ L X P) (x : X) : Prop :=
  ∃ t ∈ W, ∃ u ∈ W, t ≠ u ∧ (∃ p, s.todo t = .write x :: p) ∧
    ∃ p, s.todo u = .write x :: p ∨ s.todo u = .read x :: p

/-- A variable that is accessed under its guard only is not raced for. -/
theorem not_race {guard : X → Option L} (hallowed : ∀ p, Allowed p → Keeps (Guarded guard) [] p)
    {x : X} {l : L} (hx : guard x = some l)
    (hs : (system W capacity).Reachable (calls Allowed) s) : ¬ s.Race W x := by
  rintro ⟨t, ht, u, hu, htu, ⟨p, hp⟩, q, hq⟩
  have hwrite : (l, .exclusive) ∈ s.held t := by
    have halong := (along_of_reachable hallowed hs t).1
    rw [hp] at halong
    exact halong.1 l hx
  obtain ⟨mode, hmode⟩ : ∃ mode, (l, mode) ∈ s.held u := by
    have halong := (along_of_reachable hallowed hs u).1
    obtain hq | hq := hq <;> rw [hq] at halong
    · exact ⟨.exclusive, halong.1 l hx⟩
    · exact halong.1 l hx
  cases (held_apart hs ht hu htu hwrite hmode rfl).1

/-- A thread gets through the first part of its program on its own. -/
theorem exists_alone {rank : L → ℕ} (Allowed : Program L X P → Prop) (capacity : P → ℕ)
    (ht : t ∈ W) (htodo : s.todo t = p ++ q)
    (hrises : Along (Rises rank) (s.held t) p) (hputs : ∀ pipe, .put pipe ∉ p)
    (hothers : ∀ u ∈ W, u ≠ t → ∀ k ∈ s.held u, ∀ mode, .acquire k.1 mode ∈ p →
      k.2 = .shared ∧ mode = .shared) :
    ∃ s', (system W capacity).Path (calls Allowed) s s' ∧ s'.todo t = q ∧
      s'.held t = holdAll (s.held t) p ∧
      ∀ u, u ≠ t → s'.todo u = s.todo u ∧ s'.held u = s.held u := by
  induction p generalizing s with
  | nil => exact ⟨s, .refl s, htodo, rfl, fun _ _ => ⟨rfl, rfl⟩⟩
  | cons a p ih =>
    have hready : a.Ready W capacity s := by
      cases a with
      | acquire l mode =>
        rintro u hu k hk rfl
        rcases eq_or_ne u t with rfl | hut
        · exact absurd (hrises.1 k hk) (Nat.lt_irrefl _)
        · exact hothers u hu hut k hk mode List.mem_cons_self
      | put pipe => exact absurd List.mem_cons_self (hputs pipe)
      | release l | read x | write x | drain pipe => trivial
    have hstep := step_act capacity ht htodo hready
    obtain ⟨s', hpath, htodo', hheld', hsame⟩ := ih (s := s.perform t a (p ++ q))
      (perform_todo ..) (by rw [perform_held]; exact hrises.2)
      (fun pipe hmem => hputs pipe (List.mem_cons_of_mem a hmem))
      (fun u hu hut k hk mode hmem => by
        rw [(perform_others hut).2] at hk
        exact hothers u hu hut k hk mode (List.mem_cons_of_mem a hmem))
    refine ⟨s', .trans (.tail (a := .act t) (.refl s) trivial hstep) hpath, htodo', ?_,
      fun u hut => ?_⟩
    · rw [hheld', perform_held]
      rfl
    · obtain ⟨htodo, hheld⟩ := perform_others (s := s) (a := a) (p := p ++ q) hut
      exact ⟨(hsame u hut).1.trans htodo, (hsame u hut).2.trans hheld⟩

/-- Two programs race where the locks of the one before its access let the other through. -/
theorem exists_race {rank : L → ℕ} (hallowed : ∀ p, Allowed p → Keeps (Rises rank) [] p)
    (ht : t ∈ W) (hu : u ∈ W) (htu : t ≠ u) {x : X} {p' q' : Program L X P}
    (hp : Allowed (p ++ .write x :: p')) (hq : Allowed (q ++ a :: q'))
    (ha : a = .write x ∨ a = .read x) (hputs : ∀ pipe, .put pipe ∉ p ++ q)
    (hshare : ∀ k ∈ holdAll [] p, ∀ mode, .acquire k.1 mode ∈ q →
      k.2 = .shared ∧ mode = .shared) :
    ∃ s, (system W capacity).Reachable (calls Allowed) s ∧ s.Race W x := by
  have hrises {p q : Program L X P} (hpq : Allowed (p ++ q)) : Along (Rises rank) [] p :=
    (along_append.mp (hallowed _ hpq).along).1
  -- `t` runs up to its access
  have hcall := step_call (s := .start) capacity ht rfl (p ++ .write x :: p')
  obtain ⟨s₁, hpath₁, htodo₁, hheld₁, hsame₁⟩ := exists_alone Allowed capacity
    (s := State.start.enter t (p ++ .write x :: p')) ht (enter_todo ..) (hrises hp)
    (fun pipe hmem => hputs pipe (List.mem_append_left q hmem))
    (fun _ _ _ k hk => by cases hk)
  -- and then `u` up to its own
  have hdone : s₁.todo u = [] := by
    rw [(hsame₁ u htu.symm).1, enter_others htu.symm]
    rfl
  have hnone : s₁.held u = [] := (hsame₁ u htu.symm).2
  have hcall₂ := step_call capacity hu hdone (q ++ a :: q')
  obtain ⟨s₂, hpath₂, htodo₂, -, hsame₂⟩ := exists_alone Allowed capacity
    (s := s₁.enter u (q ++ a :: q')) hu (enter_todo ..) (by rw [enter_held, hnone]; exact hrises hq)
    (fun pipe hmem => hputs pipe (List.mem_append_right p hmem))
    (fun v _ hvu k hk mode hmem => by
      rw [enter_held] at hk
      rcases eq_or_ne v t with rfl | hvt
      · rw [hheld₁] at hk
        exact hshare k hk mode hmem
      · rw [(hsame₁ v hvt).2] at hk
        cases hk)
  have hreach₁ : (system W capacity).Reachable (calls Allowed) s₁ :=
    (Reachable.tail (.of_init rfl) hp hcall).path hpath₁
  have hreach₂ := hreach₁.tail (a := Label.call u (q ++ a :: q')) hq hcall₂
  refine ⟨s₂, hreach₂.path hpath₂, t, ht, u, hu, htu, ⟨p', ?_⟩, q', ?_⟩
  · rw [(hsame₂ t htu).1, enter_others htu, htodo₁]
  · rw [htodo₂]
    obtain rfl | rfl := ha
    · exact .inl rfl
    · exact .inr rfl

end Locking
