-- SUMMARY: When a clock that is set back is found out: listExpiredCb compares with the last call that found a timer, not with the last call.
import MyCoroutine.Timer.Expiry

/-! # A clock that is set back

`m_previouseTime` is meant to be the reading of the last `listExpiredCb`. A call
that finds the set empty returns before it stores its reading. The state
remembers both readings, that of the last call and that of the last call that
found a timer; the two part when the set was empty. -/

namespace TimerManager

variable {κ : Type}

/-- A manager, and the readings of the earlier calls of `listExpiredCb`. -/
structure Polls (κ : Type) where
  manager : TimerManager κ
  /-- The reading of the last call, or of the constructor. -/
  last : Int
  /-- The reading of the last call that found a timer in the set, or of the constructor. -/
  found : Int

def Polls.after (s : Polls κ) (op : Op κ) (m' : TimerManager κ) : Polls κ :=
  match op with
  | .listExpiredCb now _ => ⟨m', now, if s.manager.timers = [] then s.found else now⟩
  | .addTimer _ _ _ _ _ | .cancel _ | .refresh _ _ | .reset _ _ _ _ | .getNextTimer _ =>
    { s with manager := m' }

def polls (κ : Type) : TransitionSystem (Polls κ) (Op κ) where
  init s := ∃ now, s = ⟨init now, now, now⟩
  step s op := (s.manager.operate op).map fun r => s.after op r.2

/-- A call at `now` that finds a timer goes by the reading of the last call: it takes the
rollover branch, which expires every timer, exactly if `now` is more than an hour before
that reading, and otherwise it expires the timers that are due. -/
structure Polls.Follows (s : Polls κ) (now : Int) (probe : Nat) : Prop where
  branch : s.manager.timers ≠ [] →
    ((s.manager.detectClockRollover now).1 = true ↔ now < s.last - 60 * 60 * 1000)
  emitted : (s.manager.listExpiredCb now probe).1 =
    (s.manager.timers.filter fun a => now < s.last - 60 * 60 * 1000 ∨ s.manager.next a ≤ now).map
      fun a => (s.manager.timer a).bind Timer.cb

/-- `now` is more than an hour before one of the two readings and not before the other. -/
def Polls.Between (s : Polls κ) (now : Int) : Prop :=
  (s.found - 60 * 60 * 1000 ≤ now ∧ now < s.last - 60 * 60 * 1000) ∨
    (s.last - 60 * 60 * 1000 ≤ now ∧ now < s.found - 60 * 60 * 1000)

/-! ## What m_previouseTime holds -/

variable {m m' : TimerManager κ} {op : Op κ} {ans : Answer κ} {s : Polls κ}

theorem listExpiredCb_previouseTime (m : TimerManager κ) (now : Int) (probe : Nat) :
    (m.listExpiredCb now probe).2.previouseTime =
      if m.timers = [] then m.previouseTime else now := by
  cases hl : m.timers with
  | nil => simp [listExpiredCb, hl]
  | cons first rest =>
    simp only [listExpiredCb, hl, reduceCtorEq, if_false]
    split
    · rfl
    · exact (emitExpired_emits now _ _).previouseTime

/-- What holds in every run. -/
structure Polled (s : Polls κ) : Prop where
  ordered : Ordered s.manager
  previouseTime : s.manager.previouseTime = s.found

theorem Polled.after (h : Polled s) (hop : s.manager.operate op = some (ans, m')) :
    Polled (s.after op m') := by
  have hoperates := h.ordered.operates hop
  have hordered := h.ordered.of_operates hoperates
  cases op with
  | listExpiredCb now probe =>
    cases hop
    refine ⟨hordered, ?_⟩
    simp only [Polls.after, listExpiredCb_previouseTime, h.previouseTime]
  | addTimer => exact ⟨hordered, (hoperates.previouseTime nofun).trans h.previouseTime⟩
  | cancel => exact ⟨hordered, (hoperates.previouseTime nofun).trans h.previouseTime⟩
  | refresh => exact ⟨hordered, (hoperates.previouseTime nofun).trans h.previouseTime⟩
  | reset => exact ⟨hordered, (hoperates.previouseTime nofun).trans h.previouseTime⟩
  | getNextTimer => exact ⟨hordered, (hoperates.previouseTime nofun).trans h.previouseTime⟩

theorem polled_of_reachable (h : (polls κ).Reachable TransitionSystem.free s) : Polled s := by
  refine TransitionSystem.Preserved.reachable ?_ ?_ h
  · intro s op s' hs _ hstep
    obtain ⟨⟨ans, m'⟩, hop, rfl⟩ := Option.map_eq_some_iff.mp hstep
    exact hs.after hop
  · rintro s ⟨now, rfl⟩
    exact ⟨init_ordered now, rfl⟩

/-! ## Every run -/

/-- In every run, a call of `listExpiredCb` that finds a timer goes by the reading of the call
before it exactly if its own reading does not lie between the two thresholds: an hour before
the last call, and an hour before the last call that found a timer. When the call
before it found a timer, the two are one. -/
theorem follows_iff (h : (polls κ).Reachable TransitionSystem.free s)
    (hset : s.manager.timers ≠ []) (now : Int) (probe : Nat) :
    s.Follows now probe ↔ ¬ s.Between now := by
  have hs := polled_of_reachable h
  have hdetect : (s.manager.detectClockRollover now).1 = true ↔ now < s.found - 60 * 60 * 1000 := by
    simp only [detectClockRollover, hs.previouseTime, decide_eq_true_eq]
    omega
  constructor
  · intro hf
    have hbranch := hdetect.symm.trans (hf.branch hset)
    unfold Polls.Between
    omega
  · intro hb
    have hbranch : now < s.found - 60 * 60 * 1000 ↔ now < s.last - 60 * 60 * 1000 := by
      unfold Polls.Between at hb
      omega
    refine ⟨fun _ => hdetect.trans hbranch, ?_⟩
    rw [(hs.ordered.listExpiredCb now probe).cbs, hs.ordered.sorted.expired_eq_filter]
    refine congrArg (List.map _) (List.filter_congr fun a _ => ?_)
    rw [Bool.eq_iff_iff, due_iff, hdetect, hbranch, decide_eq_true_iff]

/-- A recurring timer is found at 10000000 ms; then the clock is set back by more than an hour. -/
def recordedRun : List (Op Nat) :=
  [.listExpiredCb 5 0, .addTimer 7 0 100 (some 1) true, .listExpiredCb 10000000 0]

theorem follows_iff_recordedRun :
    ∃ s, (polls Nat).Reachable TransitionSystem.free s ∧ s.manager.next 7 = 10000100 ∧
      s.Follows 6000000 0 := by
  obtain ⟨s, hs, hp⟩ := TransitionSystem.Reachable.of_replay (T := polls Nat)
    (G := TransitionSystem.free) (g := fun _ _ => true) (fun _ _ _ => trivial) (l := recordedRun)
    (p := fun s => s.manager.timers == [7] && s.manager.next 7 == 10000100 && s.last == s.found)
    ⟨0, rfl⟩ (by decide)
  simp only [Bool.and_eq_true, beq_iff_eq] at hp
  obtain ⟨⟨htimers, hnext⟩, hsame⟩ := hp
  refine ⟨s, hs, hnext, (follows_iff hs (by simp [htimers]) 6000000 0).mpr fun hb => ?_⟩
  rw [Polls.Between, hsame] at hb
  omega

/-- The set is empty at 10000000 ms, a timer is added then, and the clock is set back. -/
def missedRun : List (Op Nat) :=
  [.listExpiredCb 10000000 0, .addTimer 7 10000000 1000 (some 1) false]

/-- The timer is left waiting for the old time. -/
theorem not_follows_missedRun :
    ¬ ∀ s : Polls Nat, (polls Nat).Reachable TransitionSystem.free s → s.manager.timers ≠ [] →
      ∀ now probe, s.Follows now probe := by
  intro hall
  obtain ⟨s, hs, hp⟩ := TransitionSystem.Reachable.of_replay (T := polls Nat)
    (G := TransitionSystem.free) (g := fun _ _ => true) (fun _ _ _ => trivial) (l := missedRun)
    (p := fun s => s.manager.timers == [7] && s.last == 10000000 &&
      !(s.manager.detectClockRollover 6000000).1) ⟨0, rfl⟩ (by decide)
  simp only [Bool.and_eq_true, beq_iff_eq, Bool.not_eq_true'] at hp
  obtain ⟨⟨htimers, hlast⟩, hroll⟩ := hp
  have hset : s.manager.timers ≠ [] := by simp [htimers]
  have hbranch := (hall s hs hset 6000000 0).branch hset
  rw [hroll, hlast] at hbranch
  exact absurd (hbranch.mpr (by decide)) Bool.false_ne_true

end TimerManager
