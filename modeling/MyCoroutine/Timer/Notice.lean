-- SUMMARY: When an idle thread is told that the earliest deadline moved forward: the calls that put a timer in front of the set without notice, and no others, break it.
import MyCoroutine.Timer.Order

/-! # Notice of an earlier deadline

An idle thread sleeps for as long as `getNextTimer` told it. `addTimer` and
`reset` notify it when they put a timer at the front of the set, unless
`m_tickled` says that it was notified already. `refresh` and `listExpiredCb`
insert without notice. The state remembers what the last `getNextTimer` saw, and
whether `onTimerInsertedAtFront` was called since. -/

namespace TimerManager

variable {κ : Type}

/-- `m_next` of the first timer. -/
def earliest (m : TimerManager κ) : Option Int :=
  m.timers.head?.map m.next

/-- The reading of the clock that an operation takes. -/
def Op.reading : Op κ → Option Int
  | .addTimer _ now _ _ _ | .refresh _ now | .reset _ now _ _ | .listExpiredCb now _
  | .getNextTimer now => some now
  | .cancel _ => none

structure Watch (κ : Type) where
  manager : TimerManager κ
  /-- The last reading of the clock. -/
  clock : Int
  /-- The earliest `m_next` that the last `getNextTimer` saw, if there was one. -/
  seen : Option (Option Int)
  /-- `onTimerInsertedAtFront` was called since. -/
  notified : Bool

def Watch.after (s : Watch κ) (op : Op κ) (ans : Answer κ) (m' : TimerManager κ) : Watch κ where
  manager := m'
  clock := op.reading.getD s.clock
  seen := match op with
    | .getNextTimer _ => some s.manager.earliest
    | _ => s.seen
  notified := match op with
    | .getNextTimer _ => false
    | _ => s.notified || ans.front

/-- A manager under a clock that does not go back. -/
def watches (κ : Type) : TransitionSystem (Watch κ) (Op κ) where
  init s := ∃ now, s = ⟨init now, now, none, false⟩
  step s op :=
    if op.reading.all (s.clock ≤ ·) then
      (s.manager.operate op).map fun r => s.after op r.1 r.2
    else none

/-- The earliest deadline is now before what was seen. -/
def MovedForward : Option Int → Option Int → Prop
  | none, some _ => True
  | some e, some e' => e' < e
  | _, none => False

/-- If the earliest deadline moved forward, the idle thread was notified. -/
def Watch.Noticed (s : Watch κ) : Prop :=
  ∀ seen, s.seen = some seen → MovedForward seen s.manager.earliest → s.notified = true

/-- While `m_tickled` is clear, neither a refreshed timer nor a recurring one that
expires gets an `m_next` before that of the first timer in the set. -/
def Punctual (m : TimerManager κ) : Op κ → Prop
  | .refresh a now => m.tickled = true ∨
      ∀ first ∈ m.timers.head?, ∀ t ∈ m.timer a, t.cb ≠ none → m.next first ≤ now + t.ms
  | .listExpiredCb now _ => m.tickled = true ∨
      ∀ first ∈ m.timers.head?, ∀ a ∈ m.timers, ∀ t ∈ m.timer a,
        t.recurring = true → t.next ≤ now → m.next first ≤ now + t.ms
  | .addTimer _ _ _ _ _ | .cancel _ | .reset _ _ _ _ | .getNextTimer _ => True

def punctual (s : Watch κ) (op : Op κ) : Prop :=
  s.manager.Punctual op

instance (s : Watch κ) (op : Op κ) : Decidable (punctual s op) := by
  unfold punctual Punctual
  cases op <;> infer_instance

variable {m m' : TimerManager κ} {op : Op κ} {ans : Answer κ} {a : Nat} {t : Timer κ}

/-- `m_previouseTime` stays behind a clock that does not go back. -/
theorem Operates.previouseTime_le (hop : Operates m op ans m') {clock : Int}
    (hprev : m.previouseTime ≤ clock) (hreading : op.reading.all (clock ≤ ·) = true) :
    m'.previouseTime ≤ op.reading.getD clock := by
  have hlater : clock ≤ op.reading.getD clock := by
    cases hr : op.reading with
    | none => exact Int.le_refl _
    | some now =>
      rw [hr] at hreading
      exact of_decide_eq_true hreading
  by_cases hnot : ∀ now probe, op ≠ .listExpiredCb now probe
  · rw [hop.previouseTime hnot]
    exact Int.le_trans hprev hlater
  · simp only [not_forall, not_not] at hnot
    obtain ⟨now, probe, rfl⟩ := hnot
    cases hop with
    | listExpiredCb now probe m' cbs hcollects =>
      rcases hcollects.previouseTime with hp | hp
      · exact hp ▸ Int.le_trans hprev hlater
      · exact Int.le_of_eq hp

/-! ## Nothing before what was seen -/

/-- No timer in the set is due before what was seen. -/
def NotBefore (seen : Option Int) (m : TimerManager κ) : Prop :=
  match seen with
  | none => m.timers = []
  | some e => ∀ a ∈ m.timers, e ≤ m.next a

theorem Sorted.earliest_notBefore (h : m.Sorted) : NotBefore m.earliest m := by
  unfold earliest
  cases hl : m.timers with
  | nil => exact hl
  | cons first l => exact fun a ha => h.head_le (by rw [hl]; rfl) ha

theorem NotBefore.not_moved {seen : Option Int} (h : NotBefore seen m) :
    ¬ MovedForward seen m.earliest := by
  unfold earliest
  cases hl : m.timers with
  | nil => cases seen <;> exact id
  | cons first l =>
    cases seen with
    | none =>
      rw [NotBefore, hl] at h
      cases h
    | some e =>
      have := h first (by rw [hl]; exact List.mem_cons_self)
      exact Int.not_lt.mpr this

/-- Every timer of the new set is due no earlier than one of the old set. -/
theorem NotBefore.mono {seen : Option Int} (h : NotBefore seen m)
    (hle : ∀ b ∈ m'.timers, ∃ a ∈ m.timers, m.next a ≤ m'.next b) : NotBefore seen m' := by
  cases seen with
  | none =>
    refine List.eq_nil_iff_forall_not_mem.mpr fun b hb => ?_
    obtain ⟨a, ha, -⟩ := hle b hb
    rw [show m.timers = [] from h] at ha
    cases ha
  | some e =>
    intro b hb
    obtain ⟨a, ha, hab⟩ := hle b hb
    exact Int.le_trans (h a ha) hab

theorem Sets.next_self (hs : Sets a t m m') : m'.next a = t.next :=
  next_of_timer ((hs.timer a).trans (if_pos rfl))

theorem next_congr {b : Nat} (h : m'.timer b = m.timer b) : m'.next b = m.next b := by
  rw [next, next, h]

theorem Sets.next_of_ne (hs : Sets a t m m') {b : Nat} (hba : b ≠ a) : m'.next b = m.next b :=
  next_congr ((hs.timer b).trans (if_neg hba))

theorem exists_first (ha : a ∈ m.timers) : ∃ first, m.timers.head? = some first :=
  Option.ne_none_iff_exists'.mp fun hnone => by
    rw [List.head?_eq_none_iff.mp hnone] at ha
    cases ha

/-- A timer that went in behind another moved nothing forward. -/
theorem Sets.behind (hs : Sets a t m m') (hfirst : m'.timers.head? ≠ some a) {b : Nat}
    (hb : b ∈ m'.timers) : ∃ c ∈ m.timers, m.next c ≤ m'.next b := by
  obtain ⟨first, hhead⟩ := exists_first hb
  have hne : first ≠ a := by
    rintro rfl
    exact hfirst hhead
  have hin : first ∈ m.timers :=
    ((hs.mem first).mp (List.mem_of_mem_head? hhead)).resolve_left hne
  exact ⟨first, hin, hs.next_of_ne hne ▸ hs.sorted.head_le hhead hb⟩

/-- `addTimer` and `reset` move nothing forward without notice. -/
theorem Notifies.notBefore {seen : Option Int} {front : Bool} (hs : Sets a t m m')
    (hn : Notifies a front m m') (hfront : front = false) (htickled : m.tickled = false)
    (h : NotBefore seen m) : NotBefore seen m' := by
  refine h.mono fun b hb => hs.behind (fun hhead => ?_) hb
  rw [hn.front.mpr ⟨hhead, htickled⟩] at hfront
  cases hfront

/-- A recurring timer that expired is back behind the first, or where it was. -/
theorem Collects.notBefore {now : Int} {probe : Nat} {l : List Nat} {cbs : List (Option κ)}
    {seen : Option Int} (ho : Ordered m) (hc : Collects now l m m' cbs)
    (hroll : (m.detectClockRollover now).1 = false) (hg : m.Punctual (.listExpiredCb now probe))
    (htickled : m.tickled = false) (h : NotBefore seen m) : NotBefore seen m' := by
  refine h.mono fun b hb => ?_
  rcases (hc.mem b).mp hb with ⟨hb, hbl⟩ | ⟨hbl, hrec⟩
  · exact ⟨b, hb, Int.le_of_eq (next_congr ((hc.timer b).trans (if_neg hbl))).symm⟩
  · have hb := hc.subset b hbl
    obtain ⟨t, ht⟩ := ho.made b hb
    rw [ht, Option.any_some] at hrec
    have hdue : t.next ≤ now := next_of_timer ht ▸ (hc.due hroll b hb).mp hbl
    obtain ⟨first, hhead⟩ := exists_first hb
    have ht' : m'.timer b = some { t with next := now + t.ms } := by
      rw [hc.timer, if_pos hbl, ht, Option.map_some, Timer.rang, if_pos hrec]
    refine ⟨first, List.mem_of_mem_head? hhead, ?_⟩
    rw [next_of_timer ht']
    exact (hg.resolve_left (by simp [htickled])) first hhead b hb t ht hrec hdue

/-! ## Every run -/

/-- What holds between two calls of `getNextTimer`. -/
structure Told (s : Watch κ) : Prop where
  ordered : Ordered s.manager
  clock : s.manager.previouseTime ≤ s.clock
  tickled : ∀ seen, s.seen = some seen → s.manager.tickled = true → s.notified = true
  told : ∀ seen, s.seen = some seen → s.notified = true ∨ NotBefore seen s.manager

variable {s s' : Watch κ}

theorem Told.noticed (h : Told s) : s.Noticed := fun seen hseen hmoved =>
  (h.told seen hseen).resolve_right fun hnot => hnot.not_moved hmoved

/-- An operation other than `getNextTimer`. -/
theorem Told.later (h : Told s) (hop : s.manager.operate op = some (ans, m'))
    (hnot : ∀ now, op ≠ .getNextTimer now) (hreading : op.reading.all (s.clock ≤ ·) = true)
    (htickled : m'.tickled = true → s.manager.tickled = true ∨ ans.front = true)
    (htold : ∀ seen, ans.front = false → s.manager.tickled = false → NotBefore seen s.manager →
      NotBefore seen m') : Told (s.after op ans m') := by
  have hseen : (s.after op ans m').seen = s.seen := by
    cases op <;> first | rfl | exact absurd rfl (hnot _)
  have hnotified : (s.after op ans m').notified = (s.notified || ans.front) := by
    cases op <;> first | rfl | exact absurd rfl (hnot _)
  constructor
  · exact h.ordered.of_operates (h.ordered.operates hop)
  · exact (h.ordered.operates hop).previouseTime_le h.clock hreading
  · intro seen hs ht
    rw [hseen] at hs
    rw [hnotified, Bool.or_eq_true]
    exact (htickled ht).imp_left (h.tickled seen hs)
  · intro seen hs
    rw [hseen] at hs
    rw [hnotified, Bool.or_eq_true]
    rcases h.told seen hs with hn | hn
    · exact .inl (.inl hn)
    · cases hf : ans.front with
      | true => exact .inl (.inr rfl)
      | false =>
        cases ht : s.manager.tickled with
        | true => exact .inl (.inl (h.tickled seen hs ht))
        | false => exact .inr (htold seen hf ht hn)

theorem Told.step (h : Told s) (hg : punctual s op) (hstep : (watches κ).step s op = some s') :
    Told s' := by
  simp only [watches] at hstep
  split at hstep
  case isFalse => cases hstep
  rename_i hreading
  obtain ⟨⟨ans, m'⟩, hop, rfl⟩ := Option.map_eq_some_iff.mp hstep
  cases h.ordered.operates hop with
  | addTimer a now ms cb recurring front m' hfresh hsets hfront =>
    refine h.later hop nofun hreading (fun ht => ?_) fun seen => hfront.notBefore hsets
    rwa [hfront.tickled, Bool.or_eq_true] at ht
  | cancelDead => exact h.later hop nofun hreading .inl fun _ _ _ hn => hn
  | cancel a t m' ht hcb hdrops =>
    refine h.later hop nofun hreading (fun ht => ?_) fun seen _ _ hn => ?_
    · exact .inl (hdrops.tickled ▸ ht)
    · refine hn.mono fun b hb => ?_
      obtain ⟨hba, hb⟩ := (hdrops.mem b).mp hb
      exact ⟨b, hb, Int.le_of_eq (next_congr ((hdrops.timer b).trans (if_neg hba))).symm⟩
  | refreshDead => exact h.later hop nofun hreading .inl fun _ _ _ hn => hn
  | refresh a now t m' ht hcb hsets htickled =>
    refine h.later hop nofun hreading (fun ht => .inl (htickled ▸ ht)) fun seen _ hquiet hn => ?_
    have hin := h.ordered.kept a t ht hcb
    obtain ⟨first, hhead⟩ := exists_first hin
    refine hn.mono fun b hb => ?_
    by_cases hba : b = a
    · subst hba
      refine ⟨first, List.mem_of_mem_head? hhead, ?_⟩
      rw [hsets.next_self]
      exact (hg.resolve_left (by simp [hquiet])) first hhead t ht hcb
    · exact ⟨b, ((hsets.mem b).mp hb).resolve_left hba, Int.le_of_eq (hsets.next_of_ne hba).symm⟩
  | resetSame => exact h.later hop nofun hreading .inl fun _ _ _ hn => hn
  | resetDead => exact h.later hop nofun hreading .inl fun _ _ _ hn => hn
  | reset a now ms fromNow front t m' ht hsame hcb hsets hfront =>
    refine h.later hop nofun hreading (fun ht => ?_) fun seen => hfront.notBefore hsets
    rwa [hfront.tickled, Bool.or_eq_true] at ht
  | listExpiredCb now probe m' cbs hcollects =>
    refine h.later hop nofun hreading (fun ht => .inl (hcollects.tickled ▸ ht))
      fun seen _ hquiet => ?_
    have hnow : s.clock ≤ now := of_decide_eq_true hreading
    have hroll := detectClockRollover_of_le (Int.le_trans h.clock hnow)
    exact hcollects.notBefore h.ordered hroll hg hquiet
  | getNextTimer now =>
    constructor
    · exact h.ordered.of_operates (h.ordered.operates hop)
    · exact (h.ordered.operates hop).previouseTime_le h.clock hreading
    · intro seen _ ht
      cases ht
    · intro seen hseen
      cases hseen
      exact .inr h.ordered.sorted.earliest_notBefore

/-- In every run in which, while `m_tickled` is clear, no refreshed timer and no
recurring timer that expires gets an `m_next` before that of the first timer: when
the earliest deadline is before the one that the last `getNextTimer` saw, or that
call saw none, then `onTimerInsertedAtFront` was called since. -/
theorem noticed_of_reachable (h : (watches κ).Reachable punctual s) : s.Noticed := by
  refine (TransitionSystem.Preserved.reachable (I := Told) ?_ ?_ h).noticed
  · exact fun s op s' hs hg hstep => hs.step hg hstep
  · rintro s ⟨now, rfl⟩
    exact ⟨init_ordered now, Int.le_refl _, nofun, nofun⟩

/-- Both ways of a refresh, and the later of two timers comes to the front after the
idle thread has looked. -/
def toldRun : List (Op Nat) :=
  [.addTimer 1 0 1000 (some 1) false, .addTimer 2 0 2000 (some 2) false, .getNextTimer 0,
    .refresh 1 3, .reset 2 5 10 true, .refresh 1 7]

theorem noticed_of_reachable_toldRun :
    ∃ s, (watches Nat).Reachable punctual s ∧ s.seen = some (some 1000) ∧
      s.manager.earliest = some 15 ∧ s.Noticed := by
  obtain ⟨s, hs, hp⟩ := TransitionSystem.Reachable.of_replay (T := watches Nat)
    (G := punctual) (g := fun s op => decide (punctual s op)) (fun _ _ h => of_decide_eq_true h)
    (l := toldRun) (p := fun s => s.seen == some (some 1000) && s.manager.earliest == some 15)
    ⟨0, rfl⟩ (by decide)
  simp only [Bool.and_eq_true, beq_iff_eq] at hp
  exact ⟨s, hs, hp.1, hp.2, noticed_of_reachable hs⟩

/-! ## The run without notice -/

/-- A refresh that the guard leaves out, when the earliest deadline is the one last
seen, is not noticed: the guard asks no more than it must. -/
theorem not_noticed_of_refresh {now : Int} (h : Ordered s.manager)
    (hg : ¬ punctual s (.refresh a now)) (hseen : s.seen = some s.manager.earliest)
    (hnotified : s.notified = false) (hstep : (watches κ).step s (.refresh a now) = some s') :
    ¬ s'.Noticed := by
  simp only [punctual, Punctual, not_or, not_forall] at hg
  obtain ⟨-, first, hhead, t, ht, hcb, hlt⟩ := hg
  simp only [watches] at hstep
  split at hstep
  case isFalse => cases hstep
  obtain ⟨⟨ans, m'⟩, hop, rfl⟩ := Option.map_eq_some_iff.mp hstep
  cases h.operates hop with
  | refreshDead _ _ u hu hdead =>
    rw [ht] at hu
    cases hu
    exact absurd hdead hcb
  | refresh _ _ u m' hu _ hsets =>
    obtain rfl : u = t := Option.some.inj (hu.symm.trans ht)
    obtain ⟨first', hhead'⟩ := exists_first ((hsets.mem a).mpr (.inl rfl))
    have hle := hsets.sorted.head_le hhead' ((hsets.mem a).mpr (.inl rfl))
    rw [hsets.next_self] at hle
    intro hnoticed
    have hmoved : MovedForward s.manager.earliest m'.earliest := by
      rw [earliest, hhead, earliest, hhead']
      exact Int.lt_of_le_of_lt hle (Int.not_le.mp hlt)
    have := hnoticed _ hseen hmoved
    simp [Watch.after, hnotified] at this

/-- The timer gets a shorter interval that does not count yet, the idle thread looks,
and then the timer is refreshed. -/
def overtakenRun : List (Op Nat) :=
  [.addTimer 1 0 1000 (some 1) false, .reset 1 0 10 false, .getNextTimer 0, .refresh 1 0]

theorem not_noticed_overtakenRun :
    ¬ ∀ s : Watch Nat, (watches Nat).Reachable TransitionSystem.free s → s.Noticed := by
  intro hall
  obtain ⟨s, hs, hp⟩ := TransitionSystem.Reachable.of_replay (T := watches Nat)
    (G := TransitionSystem.free) (g := fun _ _ => true) (fun _ _ _ => trivial) (l := overtakenRun)
    (p := fun s => s.seen == some (some 1000) && s.manager.earliest == some 10 && !s.notified)
    ⟨0, rfl⟩ (by decide)
  simp only [Bool.and_eq_true, beq_iff_eq, Bool.not_eq_true'] at hp
  obtain ⟨⟨hseen, hnow⟩, hnot⟩ := hp
  have hmoved : MovedForward (some 1000) s.manager.earliest := by
    rw [hnow]
    exact (by decide : (10 : Int) < 1000)
  rw [hall s hs _ hseen hmoved] at hnot
  cases hnot

end TimerManager
