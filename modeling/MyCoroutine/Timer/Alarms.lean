-- SUMMARY: Every timer of a manager lives the life of an alarm, so callbacks are emitted when due, once or once a period, and not after a cancel.
import MyCoroutine.Lib.Alarm
import MyCoroutine.Timer.Order

/-! # Timers as alarms

The purpose of the manager: each timer is an alarm. `alarmOf` reads the state of
the alarm off the timer, and `acts` what an operation does to it. Whatever the
manager does with its set, each timer goes through a history of its alarm, and
what is emitted is exactly the callbacks of the timers that ring. -/

namespace TimerManager

open Alarm
open OneShot (Run run_append)

variable {κ : Type}

/-! ## The alarm of a timer -/

def alarmOf : Option (Timer κ) → Alarm.State
  | none => .unset
  | some t => if t.cb.isSome then .pending ⟨t.recurring, t.ms, t.next⟩ else .over

/-- `m_ms` of the timer at `a`. -/
def ms (m : TimerManager κ) (a : Nat) : Int :=
  ((m.timer a).map Timer.ms).getD 0

/-- What an operation that led from `m` to `m'` did to the timer at `a`. -/
def acts (m : TimerManager κ) (op : Op κ) (ans : Answer κ) (m' : TimerManager κ) (a : Nat) :
    List Act :=
  match op with
  | .addTimer b _ _ _ recurring => if b = a then [.set ⟨recurring, m'.ms a, m'.next a⟩] else []
  | .cancel b => if b = a ∧ ans.ok then [.cancel] else []
  | .refresh b _ => if b = a ∧ ans.ok then [.move (m'.ms a) (m'.next a)] else []
  | .reset b _ ms fromNow =>
    -- with the interval that the timer has, and not from now, it returns at once
    if b = a ∧ ans.ok ∧ ¬ (m.ms a = ms ∧ fromNow = false) then [.move (m'.ms a) (m'.next a)]
    else []
  | .listExpiredCb now probe =>
    if a ∈ m.expired now probe then [.ring now (m.ms a)]
    else if a ∈ m.timers then [.pass now]
    else []
  | .getNextTimer _ => []

/-- A manager, and what was done to each of its timers. -/
structure History (κ : Type) where
  manager : TimerManager κ
  log : Nat → List Act

def histories (κ : Type) : TransitionSystem (History κ) (Op κ) where
  init s := ∃ now, s = ⟨init now, fun _ => []⟩
  step s op := (s.manager.operate op).map fun r =>
    ⟨r.2, fun a => s.log a ++ acts s.manager op r.1 r.2 a⟩

/-- A timer is added with a callback. -/
def Op.Given : Op κ → Prop
  | .addTimer _ _ _ cb _ => cb ≠ none
  | .cancel _ | .refresh _ _ | .reset _ _ _ _ | .listExpiredCb _ _ | .getNextTimer _ => True

/-- A call of `listExpiredCb` at `now` triggers no rollover; with an empty set it returns before
it looks at the clock. -/
def NoRollover (m : TimerManager κ) (now : Int) : Prop :=
  m.timers ≠ [] → (m.detectClockRollover now).1 = false

instance (m : TimerManager κ) (now : Int) : Decidable (m.NoRollover now) :=
  inferInstanceAs (Decidable (m.timers ≠ [] → (m.detectClockRollover now).1 = false))

/-- Timers have callbacks, and the clock is never found to be set back. -/
def Steady (m : TimerManager κ) : Op κ → Prop
  | .addTimer _ _ _ cb _ => cb ≠ none
  | .listExpiredCb now _ => m.NoRollover now
  | .cancel _ | .refresh _ _ | .reset _ _ _ _ | .getNextTimer _ => True

def steady (s : History κ) (op : Op κ) : Prop :=
  s.manager.Steady op

/-! ## Each operation -/

variable {m m' : TimerManager κ} {op : Op κ} {ans : Answer κ} {a : Nat} {t : Timer κ}

/-- Every timer in the set has a callback. -/
def Live (m : TimerManager κ) : Prop :=
  ∀ a ∈ m.timers, ∃ t, m.timer a = some t ∧ t.cb ≠ none

theorem alarmOf_some (hcb : t.cb ≠ none) :
    alarmOf (some t) = .pending ⟨t.recurring, t.ms, t.next⟩ :=
  if_pos (Option.isSome_iff_ne_none.mpr hcb)

theorem alarmOf_dead (hcb : t.cb = none) : alarmOf (some t) = .over := by
  simp [alarmOf, hcb]

theorem ms_of_timer (ht : m.timer a = some t) : m.ms a = t.ms := by
  simp [ms, ht]

theorem Live.of_sets (h : Live m) (hs : Sets a t m m') (hcb : t.cb ≠ none) : Live m' := by
  intro b hb
  rw [hs.timer]
  split
  · exact ⟨t, rfl, hcb⟩
  · rename_i hba
    exact h b (((hs.mem b).mp hb).resolve_left hba)

theorem Live.of_drops (h : Live m) (hd : Drops a t m m') : Live m' := by
  intro b hb
  obtain ⟨hba, hb⟩ := (hd.mem b).mp hb
  rw [hd.timer, if_neg hba]
  exact h b hb

theorem Live.of_collects {now : Int} {l : List Nat} {cbs : List (Option κ)} (h : Live m)
    (hc : Collects now l m m' cbs) : Live m' := by
  intro b hb
  rw [hc.timer]
  rcases (hc.mem b).mp hb with ⟨hb, hbl⟩ | ⟨hbl, hrec⟩
  · rw [if_neg hbl]
    exact h b hb
  · obtain ⟨u, hu, hcb⟩ := h b (hc.subset b hbl)
    rw [hu] at hrec ⊢
    rw [if_pos hbl]
    rw [Option.any_some] at hrec
    exact ⟨_, rfl, by simpa [Timer.rang, hrec] using hcb⟩

theorem Steady.given (h : m.Steady op) : op.Given := by
  cases op with
  | addTimer => exact h
  | _ => exact trivial

theorem Live.of_operates (h : Live m) (hg : op.Given) (hop : Operates m op ans m') :
    Live m' := by
  cases hop with
  | addTimer b now ms cb recurring front m' hfresh hsets => exact h.of_sets hsets hg
  | cancelDead => exact h
  | cancel b t m' ht hcb hdrops => exact h.of_drops hdrops
  | refreshDead => exact h
  | refresh b now t m' ht hcb hsets => exact h.of_sets hsets hcb
  | resetSame => exact h
  | resetDead => exact h
  | reset b now ms fromNow front t m' ht hsame hcb hsets => exact h.of_sets hsets hcb
  | listExpiredCb now probe m' cbs hcollects => exact h.of_collects hcollects
  | getNextTimer => exact h

/-- Moving the timer at `b` is a move of its alarm. -/
theorem Sets.moves {b : Nat} {t' : Timer κ} (hs : Sets b t' m m') (ht : m.timer b = some t)
    (hcb : t.cb ≠ none) (hcb' : t'.cb = t.cb) (hrec : t'.recurring = t.recurring) (a : Nat) :
    Run Act.Step (alarmOf (m.timer a)) (if b = a then [.move (m'.ms a) (m'.next a)] else [])
      (alarmOf (m'.timer a)) := by
  by_cases hba : b = a
  · subst hba
    have ht' : m'.timer b = some t' := by rw [hs.timer, if_pos rfl]
    rw [if_pos rfl, ht, ht', alarmOf_some hcb, alarmOf_some (hcb' ▸ hcb), ms_of_timer ht',
      next_of_timer ht', hrec]
    exact ⟨_, .move _ _ _, rfl⟩
  · rw [if_neg hba, hs.timer, if_neg (Ne.symm hba)]
    rfl

/-- An examination of the set rings the alarms that are due and passes over the others. -/
theorem Collects.moves {now : Int} {l : List Nat} {cbs : List (Option κ)} (hlive : Live m)
    (hc : Collects now l m m' cbs) (hroll : m.NoRollover now) (a : Nat) :
    Run Act.Step (alarmOf (m.timer a))
      (if a ∈ l then [.ring now (m.ms a)] else if a ∈ m.timers then [.pass now] else [])
      (alarmOf (m'.timer a)) := by
  rw [hc.timer]
  split
  · rename_i hal
    have ha := hc.subset a hal
    obtain ⟨t, ht, hcb⟩ := hlive a ha
    have hroll := hroll (List.ne_nil_of_mem ha)
    have hdue : t.next ≤ now := next_of_timer ht ▸ (hc.due hroll a ha).mp hal
    rw [ht, Option.map_some, alarmOf_some hcb, ms_of_timer ht]
    cases hrec : t.recurring with
    | true =>
      refine ⟨_, .ringAgain _ now hdue rfl, ?_⟩
      have hrang : t.rang now = { t with next := now + t.ms } := by simp [Timer.rang, hrec]
      rw [hrang, alarmOf_some (by exact hcb), hrec]
      rfl
    | false =>
      refine ⟨_, .ringOnce _ now hdue rfl, ?_⟩
      have hrang : t.rang now = { t with cb := none } := by simp [Timer.rang, hrec]
      rw [hrang, alarmOf_dead rfl]
      rfl
  · rename_i hal
    split
    · rename_i ha
      obtain ⟨t, ht, hcb⟩ := hlive a ha
      have hroll := hroll (List.ne_nil_of_mem ha)
      have hdue : ¬ t.next ≤ now := next_of_timer ht ▸ fun hle => hal ((hc.due hroll a ha).mpr hle)
      rw [ht, alarmOf_some hcb]
      exact ⟨_, .pass _ now (Int.not_le.mp hdue), rfl⟩
    · rfl

/-- Every operation does to each timer what its acts say. -/
theorem Operates.moves (hlive : Live m) (hg : m.Steady op)
    (hop : Operates m op ans m') (a : Nat) :
    Run Act.Step (alarmOf (m.timer a)) (acts m op ans m' a) (alarmOf (m'.timer a)) := by
  cases hop with
  | addTimer b now ms cb recurring front m' hfresh hsets =>
    simp only [acts]
    by_cases hba : b = a
    · subst hba
      have ht' := (hsets.timer b).trans (if_pos rfl)
      have hcb : cb ≠ none := hg
      rw [if_pos rfl, hfresh, ht', alarmOf_some (by exact hcb), ms_of_timer ht', next_of_timer ht']
      exact ⟨_, .set _, rfl⟩
    · rw [if_neg hba, hsets.timer, if_neg (Ne.symm hba)]
      rfl
  | cancelDead => simp [acts]
  | cancel b t m' ht hcb hdrops =>
    simp only [acts, and_true]
    by_cases hba : b = a
    · subst hba
      rw [if_pos rfl, ht, hdrops.timer, if_pos rfl, alarmOf_some hcb, alarmOf_dead rfl]
      exact ⟨_, .cancel _, rfl⟩
    · rw [if_neg hba, hdrops.timer, if_neg (Ne.symm hba)]
      rfl
  | refreshDead => simp [acts]
  | refresh b now t m' ht hcb hsets =>
    simp only [acts, and_true]
    exact hsets.moves ht hcb rfl rfl a
  | resetSame b now ms fromNow t ht hsame =>
    have hnothing : ¬ (b = a ∧ ¬ (m.ms a = ms ∧ fromNow = false)) := by
      rintro ⟨rfl, hnot⟩
      exact hnot (ms_of_timer ht ▸ hsame)
    simp only [acts, true_and, if_neg hnothing]
    rfl
  | resetDead => simp [acts]
  | reset b now ms fromNow front t m' ht hsame hcb hsets =>
    have hmove : (b = a ∧ ¬ (m.ms a = ms ∧ fromNow = false)) ↔ b = a := by
      refine ⟨fun hall => hall.1, ?_⟩
      rintro rfl
      exact ⟨rfl, ms_of_timer ht ▸ hsame⟩
    simp only [acts, true_and, hmove]
    exact hsets.moves ht hcb rfl rfl a
  | listExpiredCb now probe m' cbs hcollects => exact hcollects.moves hlive hg a
  | getNextTimer => rfl

/-! ## Every run -/

/-- Each timer has gone through its log, and the manager is in order. -/
structure Lived (s : History κ) : Prop where
  ordered : Ordered s.manager
  live : Live s.manager
  run : ∀ a, Run Act.Step .unset (s.log a) (alarmOf (s.manager.timer a))

theorem lived_of_reachable {s : History κ} (h : (histories κ).Reachable steady s) : Lived s := by
  refine TransitionSystem.Preserved.reachable ?_ ?_ h
  · intro s op s' hs hg hstep
    obtain ⟨⟨ans, m'⟩, hop, rfl⟩ := Option.map_eq_some_iff.mp hstep
    have hoperates := hs.ordered.operates hop
    refine ⟨hs.ordered.of_operates hoperates, hs.live.of_operates (Steady.given hg) hoperates,
      fun a => ?_⟩
    exact run_append.mpr ⟨_, hs.run a, hoperates.moves hs.live hg a⟩
  · rintro s ⟨now, rfl⟩
    exact ⟨init_ordered now, nofun, fun _ => rfl⟩

theorem alarmOf_eq_pending {x : Option (Timer κ)} {q : Pending} (h : alarmOf x = .pending q) :
    ∃ t, x = some t ∧ t.cb ≠ none ∧ t.next = q.due := by
  cases x with
  | none => cases h
  | some t =>
    by_cases hcb : t.cb = none
    · rw [alarmOf_dead hcb] at h
      cases h
    · rw [alarmOf_some hcb] at h
      cases h
      exact ⟨t, rfl, hcb, rfl⟩

/-- One call of `listExpiredCb` emits the callbacks of the timers that are due then,
each once, and of no other timer; each of these timers has a callback. As to the
whole run: nothing happens to a one-shot timer after it was emitted, nor to any
timer after a `cancel` that returned true; a timer that was added, refreshed or
reset, and not collected since, still has the `m_next` it was given, and no call
was made at or after it; and two emissions of a timer with nothing but calls that
did not find it due between them are at least its `m_ms` apart. -/
theorem emitted_when_due {s : History κ} (h : (histories κ).Reachable steady s) :
    (∀ now probe, s.manager.NoRollover now →
      (s.manager.listExpiredCb now probe).1 =
        (s.manager.expired now probe).map (fun a => (s.manager.timer a).bind Timer.cb) ∧
      (s.manager.expired now probe).Nodup ∧
      ∀ a, a ∈ s.manager.expired now probe ↔
        ∃ t, s.manager.timer a = some t ∧ t.cb ≠ none ∧ t.next ≤ now) ∧
    ∀ a,
      (∀ p, .set p ∈ s.log a → p.recurring = false →
        ∀ l n d k, s.log a = l ++ .ring n d :: k → k = []) ∧
      (∀ l k, s.log a = l ++ .cancel :: k → k = []) ∧
      (∀ l x d k, s.log a = l ++ x :: k → x.due = some d → (∀ y ∈ k, y.isPass = true) →
        (∀ n, .pass n ∈ k → n < d) ∧
        ∃ t, s.manager.timer a = some t ∧ t.cb ≠ none ∧ t.next = d) ∧
      ∀ l n₁ d₁ k₁ n₂ d₂ k₂, s.log a = l ++ .ring n₁ d₁ :: (k₁ ++ .ring n₂ d₂ :: k₂) →
        (∀ y ∈ k₁, y.isPass = true) → n₁ + d₁ ≤ n₂ := by
  have hs := lived_of_reachable h
  refine ⟨fun now probe hroll => ?_, fun a => ⟨?_, ?_, ?_, ?_⟩⟩
  · have hc := hs.ordered.listExpiredCb now probe
    refine ⟨hc.cbs, hc.nodup, fun a => ⟨fun ha => ?_, ?_⟩⟩
    · have hmem := hc.subset a ha
      obtain ⟨t, ht, hcb⟩ := hs.live a hmem
      have hdue := (hc.due (hroll (List.ne_nil_of_mem hmem)) a hmem).mp ha
      exact ⟨t, ht, hcb, next_of_timer ht ▸ hdue⟩
    · rintro ⟨t, ht, hcb, hdue⟩
      have hmem := hs.ordered.kept a t ht hcb
      exact (hc.due (hroll (List.ne_nil_of_mem hmem)) a hmem).mpr ((next_of_timer ht).symm ▸ hdue)
  · intro p hp hrec l n d k hl
    have hrun := hs.run a
    rw [hl] at hrun hp
    exact after_ring_once hrun hp hrec
  · intro l k hl
    have hrun := hs.run a
    rw [hl] at hrun
    exact after_cancel hrun
  · intro l x d k hl hx hk
    have hrun := hs.run a
    rw [hl] at hrun
    obtain ⟨hpass, q, hq, rfl⟩ := after_due hrun hx hk
    exact ⟨hpass, alarmOf_eq_pending hq⟩
  · intro l n₁ d₁ k₁ n₂ d₂ k₂ hl hk
    have hrun := hs.run a
    rw [hl] at hrun
    exact ring_apart hrun hk

/-- The clock is back by more than an hour while the set is empty. Then a recurring timer and
a one-shot timer are due together; the recurring one is emitted twice, and a third is
cancelled. -/
def alarmsRun : List (Op Nat) :=
  [.listExpiredCb (-4000000) 0, .addTimer 7 0 100 (some 1) true, .addTimer 4 0 100 (some 2) false,
    .addTimer 9 0 250 (some 3) false, .listExpiredCb 50 0, .listExpiredCb 100 5, .cancel 9,
    .listExpiredCb 230 0]

instance (s : History Nat) (op : Op Nat) : Decidable (steady s op) := by
  unfold steady Steady
  cases op <;> infer_instance

theorem emitted_when_due_alarmsRun :
    ∃ s, (histories Nat).Reachable steady s ∧
      s.log 7 = [.set ⟨true, 100, 100⟩, .pass 50, .ring 100 100, .ring 230 100] ∧
      s.log 4 = [.set ⟨false, 100, 100⟩, .pass 50, .ring 100 100] ∧
      s.log 9 = [.set ⟨false, 250, 250⟩, .pass 50, .pass 100, .cancel] ∧
      ∀ l k, s.log 9 = l ++ .cancel :: k → k = [] := by
  obtain ⟨s, hs, hp⟩ := TransitionSystem.Reachable.of_replay (T := histories Nat)
    (G := steady) (g := fun s op => decide (steady s op)) (fun _ _ h => of_decide_eq_true h)
    (l := alarmsRun)
    (p := fun s => s.log 7 == [.set ⟨true, 100, 100⟩, .pass 50, .ring 100 100, .ring 230 100] &&
      s.log 4 == [.set ⟨false, 100, 100⟩, .pass 50, .ring 100 100] &&
      s.log 9 == [.set ⟨false, 250, 250⟩, .pass 50, .pass 100, .cancel])
    ⟨0, rfl⟩ (by decide)
  simp only [Bool.and_eq_true, beq_iff_eq] at hp
  exact ⟨s, hs, hp.1.1, hp.1.2, hp.2, ((emitted_when_due hs).2 9).2.1⟩

end TimerManager
