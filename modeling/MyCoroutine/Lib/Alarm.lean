-- SUMMARY: One alarm as an automaton: set, moved, cancelled, examined and rung, and what its history says about every ring.
import MyCoroutine.Lib.OneShot

/-! # Alarms

An alarm is set once, with a due time. At each examination it rings if it is due
and is passed over if it is not. A ring ends a one-shot alarm and moves a
recurring one by its period. It may be moved or cancelled while it is pending.
The laws split the history of an alarm at the act they are about. -/

namespace Alarm

open OneShot (Run run_append run_cons)

structure Pending where
  recurring : Bool
  period : Int
  due : Int
  deriving DecidableEq

inductive State where
  | unset
  | pending (p : Pending)
  | over
  deriving DecidableEq

/-- What happens to an alarm. -/
inductive Act where
  | set (p : Pending)
  | cancel
  | move (period due : Int)
  /-- Examined at `now`, and not due. -/
  | pass (now : Int)
  /-- Examined at `now`, and due; `period` is the one it has then. -/
  | ring (now period : Int)
  deriving DecidableEq

inductive Act.Step : State → Act → State → Prop where
  | set (p : Pending) : Step .unset (.set p) (.pending p)
  | cancel (p : Pending) : Step (.pending p) .cancel .over
  | move (p : Pending) (period due : Int) :
      Step (.pending p) (.move period due) (.pending { p with period := period, due := due })
  | pass (p : Pending) (now : Int) (h : now < p.due) : Step (.pending p) (.pass now) (.pending p)
  | ringOnce (p : Pending) (now : Int) (h : p.due ≤ now) (hp : p.recurring = false) :
      Step (.pending p) (.ring now p.period) .over
  | ringAgain (p : Pending) (now : Int) (h : p.due ≤ now) (hp : p.recurring = true) :
      Step (.pending p) (.ring now p.period) (.pending { p with due := now + p.period })

/-- The due time that an act gives the alarm. -/
def Act.due : Act → Option Int
  | .set p => some p.due
  | .move _ due => some due
  | .cancel | .pass _ | .ring _ _ => none

def Act.isPass : Act → Bool
  | .pass _ => true
  | _ => false

variable {s t : State} {l k k₁ k₂ : List Act} {p : Pending}

/-- Nothing happens to an alarm that is over. -/
theorem over_run (h : Run Act.Step .over l s) : l = [] := by
  cases l with
  | nil => rfl
  | cons a l =>
    obtain ⟨_, hstep, -⟩ := h
    cases hstep

/-- Examinations that pass an alarm over leave it as it is, and it is not due at any of them. -/
theorem pass_run (h : Run Act.Step (.pending p) l s) (hl : ∀ a ∈ l, a.isPass = true) :
    s = .pending p ∧ ∀ n, .pass n ∈ l → n < p.due := by
  induction l with
  | nil => exact ⟨h, nofun⟩
  | cons a l ih =>
    obtain ⟨m, hstep, hrest⟩ := h
    have ha := hl a List.mem_cons_self
    cases hstep with
    | pass _ now hnow =>
      obtain ⟨rfl, hpass⟩ := ih hrest fun b hb => hl b (List.mem_cons_of_mem _ hb)
      refine ⟨rfl, fun n hn => ?_⟩
      rcases List.mem_cons.mp hn with heq | hn
      · cases heq
        exact hnow
      · exact hpass n hn
    | cancel | move | ringOnce | ringAgain => cases ha

/-- An alarm that was set or moved, and passed over since, is pending for the time it was given. -/
theorem after_due {a : Act} {d : Int} (h : Run Act.Step s (l ++ a :: k) t) (ha : a.due = some d)
    (hk : ∀ b ∈ k, b.isPass = true) :
    (∀ n, .pass n ∈ k → n < d) ∧ ∃ q, t = .pending q ∧ q.due = d := by
  obtain ⟨u, -, v, hstep, hrest⟩ := run_append.mp h
  cases hstep with
  | set q =>
    cases ha
    obtain ⟨rfl, hpass⟩ := pass_run hrest hk
    exact ⟨hpass, q, rfl, rfl⟩
  | move q period due =>
    cases ha
    obtain ⟨rfl, hpass⟩ := pass_run hrest hk
    exact ⟨hpass, _, rfl, rfl⟩
  | cancel | pass | ringOnce | ringAgain => cases ha

theorem after_cancel (h : Run Act.Step s (l ++ .cancel :: k) t) : k = [] := by
  obtain ⟨u, -, v, hstep, hrest⟩ := run_append.mp h
  cases hstep
  exact over_run hrest

/-- A pending alarm is what it was set to be, and is not set again. -/
theorem pending_run (h : Run Act.Step (.pending p) l s) :
    (∀ q, s = .pending q → q.recurring = p.recurring) ∧ ∀ q, .set q ∉ l := by
  induction l generalizing p with
  | nil =>
    obtain rfl : s = .pending p := h
    exact ⟨fun q hq => by cases hq; rfl, nofun⟩
  | cons a l ih =>
    obtain ⟨m, hstep, hrest⟩ := h
    have hover (hm : m = .over) : s = .over ∧ l = [] := by
      subst hm
      have hl := over_run hrest
      subst hl
      exact ⟨hrest, rfl⟩
    cases hstep with
    | cancel | ringOnce =>
      obtain ⟨rfl, rfl⟩ := hover rfl
      exact ⟨nofun, by simp⟩
    | move | pass | ringAgain =>
      obtain ⟨hrec, hset⟩ := ih hrest
      exact ⟨hrec, by simpa using hset⟩

/-- A one-shot alarm rings last. -/
theorem after_ring_once {n d : Int} (h : Run Act.Step .unset (l ++ .ring n d :: k) t)
    (hp : .set p ∈ l ++ .ring n d :: k) (hrec : p.recurring = false) : k = [] := by
  obtain ⟨u, hl, v, hstep, hrest⟩ := run_append.mp h
  cases l with
  | nil =>
    cases hl
    cases hstep
  | cons a l =>
    obtain ⟨m, hfirst, hl⟩ := hl
    cases hfirst with
    | set q =>
      -- the one `set` is the first act
      have hwhole : Run Act.Step (.pending q) (l ++ .ring n d :: k) t :=
        run_append.mpr ⟨u, hl, run_cons.mpr ⟨v, hstep, hrest⟩⟩
      have hset := (pending_run hwhole).2 p
      have hpq : p = q := by
        rcases List.mem_cons.mp hp with heq | hp
        · cases heq
          rfl
        · exact absurd hp hset
      subst hpq
      cases hstep with
      | ringOnce => exact over_run hrest
      | ringAgain r now hdue hr =>
        have := (pending_run hl).1 r rfl
        rw [hr, hrec] at this
        cases this

/-- Two rings with nothing but examinations between them are at least a period apart. -/
theorem ring_apart {n₁ n₂ d₁ d₂ : Int}
    (h : Run Act.Step s (l ++ .ring n₁ d₁ :: (k₁ ++ .ring n₂ d₂ :: k₂)) t)
    (hk : ∀ a ∈ k₁, a.isPass = true) : n₁ + d₁ ≤ n₂ := by
  obtain ⟨u, -, v, hstep, hrest⟩ := run_append.mp h
  obtain ⟨w, hpass, x, hnext, -⟩ := run_append.mp hrest
  cases hstep with
  | ringOnce =>
    have := over_run hrest
    simp at this
  | ringAgain p =>
    obtain ⟨rfl, -⟩ := pass_run hpass hk
    cases hnext <;> assumption

end Alarm
