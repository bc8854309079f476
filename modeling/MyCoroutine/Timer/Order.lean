-- SUMMARY: m_timers in every run: strictly sorted by m_next and address, holding every timer with a callback, never disturbed by a change of m_next.
import MyCoroutine.Lib.TransitionSystem
import MyCoroutine.Timer

/-! # The order of the timers

`m_timers` is keyed by `m_next`, a field that four operations change. `Ordered`
is what they keep: the set is sorted under the current keys and holds every
timer that has a callback. `Operates` says once what each operation does to an
ordered manager; all that is said about runs is read off it. An address is used
for one timer only. -/

/-- What `listExpiredCb` makes of an expired timer. -/
def Timer.rang {κ : Type} (now : Int) (t : Timer κ) : Timer κ :=
  if t.recurring then { t with next := now + t.ms } else { t with cb := none }

namespace TimerManager

variable {κ : Type}

/-! ## Operations -/

/-- An operation, with the readings of the clock that it takes. -/
inductive Op (κ : Type) where
  | addTimer (a : Nat) (now ms : Int) (cb : Option κ) (recurring : Bool)
  | cancel (a : Nat)
  | refresh (a : Nat) (now : Int)
  | reset (a : Nat) (now ms : Int) (fromNow : Bool)
  | listExpiredCb (now : Int) (probe : Nat)
  | getNextTimer (now : Int)
  deriving DecidableEq

/-- What an operation answers. -/
structure Answer (κ : Type) where
  /-- What `cancel`, `refresh` and `reset` return. -/
  ok : Bool
  /-- `onTimerInsertedAtFront` was called. -/
  front : Bool
  /-- What was appended to `cbs`. -/
  cbs : List (Option κ)
  deriving DecidableEq

def operate (m : TimerManager κ) : Op κ → Option (Answer κ × TimerManager κ)
  | .addTimer a now ms cb recurring =>
    (m.addTimer a now ms cb recurring).map fun r => (⟨true, r.1, []⟩, r.2)
  | .cancel a => (m.cancel a).map fun r => (⟨r.1, false, []⟩, r.2)
  | .refresh a now => (m.refresh a now).map fun r => (⟨r.1, false, []⟩, r.2)
  | .reset a now ms fromNow => (m.reset a now ms fromNow).map fun r => (⟨r.1, r.2.1, []⟩, r.2.2)
  | .listExpiredCb now probe =>
    let r := m.listExpiredCb now probe
    some (⟨true, false, r.1⟩, r.2)
  | .getNextTimer now => some (⟨true, false, []⟩, (m.getNextTimer now).2)

/-- A manager that any of the operations is called on, at any reading of the clock. -/
def manager (κ : Type) : TransitionSystem (TimerManager κ) (Op κ) where
  init m := ∃ now, m = init now
  step m op := (m.operate op).map Prod.snd

/-! ## The comparator -/

section

variable (m : TimerManager κ)

theorem less_iff (a b : Nat) :
    m.less a b = true ↔ m.next a < m.next b ∨ (m.next a = m.next b ∧ a < b) := by
  simp only [less, Timer.comparator]
  split
  · simp [*]
  · split
    · simp only [Bool.false_eq_true, false_iff]
      omega
    · simp only [decide_eq_true_iff]
      omega

theorem less_irrefl (a : Nat) : m.less a a = false := by
  rw [Bool.eq_false_iff, ne_eq, less_iff]
  omega

theorem less_trans (a b c : Nat) (hab : m.less a b = true) (hbc : m.less b c = true) :
    m.less a c = true := by
  rw [less_iff] at *
  omega

end

/-! ## Ordered managers -/

/-- The set is sorted under the current keys. -/
def Sorted (m : TimerManager κ) : Prop :=
  OrderedSet.Sorted m.less m.timers

structure Ordered (m : TimerManager κ) : Prop where
  sorted : m.Sorted
  made : ∀ a ∈ m.timers, ∃ t, m.timer a = some t
  /-- A timer with a callback is in the set. -/
  kept : ∀ a t, m.timer a = some t → t.cb ≠ none → a ∈ m.timers

variable {m m' m₁ : TimerManager κ} {a b : Nat} {t t' : Timer κ} {now : Int}

theorem init_ordered (now : Int) : Ordered (init now : TimerManager κ) where
  sorted := List.Pairwise.nil
  made := nofun
  kept := nofun

theorem next_of_timer (ht : m.timer a = some t) : m.next a = t.next := by
  simp [next, ht]

/-- The order reads `m_next` of the timers in the set, and nothing else. -/
theorem Sorted.of_next (h : m.Sorted) (htimers : m'.timers = m.timers)
    (hnext : ∀ a ∈ m.timers, m'.next a = m.next a) : m'.Sorted := by
  unfold Sorted at h ⊢
  rw [htimers]
  exact OrderedSet.Sorted.congr h fun a ha b hb => by
    rw [less, less, hnext a ha, hnext b hb]

/-- A timer outside the set may get any `m_next` and go in. -/
theorem Sorted.place (h : m.Sorted) (ha : a ∉ m.timers) (t : Timer κ) :
    ((m.setTimer a t).insert a).Sorted := by
  have hset : (m.setTimer a t).Sorted := h.of_next rfl fun b hb => by
    have hba : b ≠ a := fun heq => ha (heq ▸ hb)
    simp [next, hba]
  exact OrderedSet.Sorted.insert (less_trans _) hset

/-- The first of the set is due no later than any other. -/
theorem Sorted.head_le (h : m.Sorted) {first : Nat} (hfirst : m.timers.head? = some first)
    (hb : b ∈ m.timers) : m.next first ≤ m.next b := by
  obtain ⟨l, hl⟩ := List.head?_eq_some_iff.mp hfirst
  unfold Sorted at h
  rw [hl] at h hb
  rcases List.mem_cons.mp hb with rfl | hb
  · exact Int.le_refl _
  · have := (m.less_iff first b).mp ((List.pairwise_cons.mp h).1 b hb)
    omega

theorem mem_insert_iff : b ∈ (m.insert a).timers ↔ b = a ∨ b ∈ m.timers := by
  constructor
  · exact mem_of_mem_insert
  · rintro (rfl | hb)
    · exact mem_insert_self m b
    · exact mem_insert_of_mem hb

/-! ## What the operations do -/

/-- The timer at `a` became `t` and is in the set; no other timer was touched. -/
structure Sets (a : Nat) (t : Timer κ) (m m' : TimerManager κ) : Prop where
  timer : ∀ b, m'.timer b = if b = a then some t else m.timer b
  mem : ∀ b, b ∈ m'.timers ↔ b = a ∨ b ∈ m.timers
  sorted : m'.Sorted
  previouseTime : m'.previouseTime = m.previouseTime

/-- The timer at `a` became `t` and is out of the set; no other timer was touched. -/
structure Drops (a : Nat) (t : Timer κ) (m m' : TimerManager κ) : Prop where
  timer : ∀ b, m'.timer b = if b = a then some t else m.timer b
  mem : ∀ b, b ∈ m'.timers ↔ b ≠ a ∧ b ∈ m.timers
  sorted : m'.Sorted
  previouseTime : m'.previouseTime = m.previouseTime
  tickled : m'.tickled = m.tickled

/-- `onTimerInsertedAtFront` is called once until `m_tickled` is cleared. -/
structure Notifies (a : Nat) (front : Bool) (m m' : TimerManager κ) : Prop where
  tickled : m'.tickled = (m.tickled || front)
  front : front = true ↔ m'.timers.head? = some a ∧ m.tickled = false

/-- `listExpiredCb` took the timers in `l` out of the set, emitted their callbacks
and put the recurring ones back. -/
structure Collects (now : Int) (l : List Nat) (m m' : TimerManager κ) (cbs : List (Option κ)) :
    Prop where
  cbs : cbs = l.map fun a => (m.timer a).bind Timer.cb
  nodup : l.Nodup
  subset : ∀ a ∈ l, a ∈ m.timers
  due : (m.detectClockRollover now).1 = false → ∀ a ∈ m.timers, a ∈ l ↔ m.next a ≤ now
  timer : ∀ a, m'.timer a = if a ∈ l then (m.timer a).map (Timer.rang now) else m.timer a
  mem : ∀ a, a ∈ m'.timers ↔
    (a ∈ m.timers ∧ a ∉ l) ∨ (a ∈ l ∧ (m.timer a).any Timer.recurring = true)
  sorted : m'.Sorted
  previouseTime : m'.previouseTime = m.previouseTime ∨ m'.previouseTime = now
  tickled : m'.tickled = m.tickled

/-! ## addTimer, cancel, refresh and reset -/

theorem Ordered.of_drops (h : Ordered m) (hd : Drops a t m m') (ht : t.cb = none) :
    Ordered m' where
  sorted := hd.sorted
  made := by
    intro b hb
    obtain ⟨hba, hb⟩ := (hd.mem b).mp hb
    rw [hd.timer, if_neg hba]
    exact h.made b hb
  kept := by
    intro b u hu hcb
    rw [hd.timer] at hu
    split at hu
    · cases hu
      exact absurd ht hcb
    · rename_i hba
      exact (hd.mem b).mpr ⟨hba, h.kept b u hu hcb⟩

theorem Ordered.of_sets (h : Ordered m) (hs : Sets a t m m') : Ordered m' where
  sorted := hs.sorted
  made := by
    intro b hb
    rw [hs.timer]
    split
    · exact ⟨t, rfl⟩
    · rename_i hba
      exact h.made b (((hs.mem b).mp hb).resolve_left hba)
  kept := by
    intro b u hu hcb
    rw [hs.timer] at hu
    split at hu
    · rename_i hba
      exact (hs.mem b).mpr (.inl hba)
    · exact (hs.mem b).mpr (.inr (h.kept b u hu hcb))

/-- What is in the set is found in it. -/
theorem Sorted.erase (h : m.Sorted) (ha : a ∈ m.timers) :
    ∃ m₁, m.erase a = some m₁ ∧ m₁.Sorted ∧ m₁.timer = m.timer ∧
      (∀ b, b ∈ m₁.timers ↔ b ≠ a ∧ b ∈ m.timers) ∧
      m₁.previouseTime = m.previouseTime ∧ m₁.tickled = m.tickled := by
  obtain ⟨l, hl⟩ := OrderedSet.Sorted.erase_of_mem m.less_irrefl h ha
  have herase : m.erase a = some { m with timers := l } := by
    rw [TimerManager.erase, hl]
    rfl
  have hsub : l.Sublist m.timers := OrderedSet.erase_sublist hl
  have hgone : a ∉ l := OrderedSet.Sorted.not_mem_of_erase m.less_irrefl h m.eq_of_not_less hl
  refine ⟨_, herase, h.sublist hsub, rfl, fun b => ⟨fun hb => ⟨?_, hsub.subset hb⟩, ?_⟩, rfl, rfl⟩
  · rintro rfl
    exact hgone hb
  · rintro ⟨hba, hb⟩
    exact mem_erase_of_ne herase hb hba

/-- The timer at `a` goes in under a key of its own. -/
theorem sets_of_insert (hsorted : m.Sorted) (ha : a ∉ m.timers) (t : Timer κ)
    (htimer : m'.timer = ((m.setTimer a t).insert a).timer)
    (htimers : m'.timers = ((m.setTimer a t).insert a).timers)
    (hprev : m'.previouseTime = m.previouseTime) : Sets a t m m' where
  timer := by
    intro b
    rw [htimer, insert_timer, setTimer_timer]
  mem := by
    intro b
    rw [htimers, mem_insert_iff]
    rfl
  sorted := (hsorted.place ha t).of_next htimers fun b _ => by
    rw [next, next, htimer]
  previouseTime := hprev

theorem Sets.of_erase (htimer : m₁.timer = m.timer)
    (hmem : ∀ b, b ∈ m₁.timers ↔ b ≠ a ∧ b ∈ m.timers)
    (hprev : m₁.previouseTime = m.previouseTime) (hs : Sets a t m₁ m') : Sets a t m m' where
  timer := by
    intro b
    rw [hs.timer, htimer]
  mem := by
    intro b
    rw [hs.mem, hmem]
    tauto
  sorted := hs.sorted
  previouseTime := hs.previouseTime.trans hprev

theorem addTimerPtr_notifies (m : TimerManager κ) (a : Nat) :
    Notifies a (m.addTimerPtr a).1 m (m.addTimerPtr a).2 := by
  have htickled : (m.insert a).tickled = m.tickled := rfl
  constructor
  · simp only [addTimerPtr, htickled]
    split
    · simp [*]
    · simp [*]
  · simp only [addTimerPtr, htickled, decide_eq_true_iff]
    split <;> exact Iff.rfl

theorem Ordered.addTimer (h : Ordered m) {ms : Int} {cb : Option κ} {recurring front : Bool}
    (hop : m.addTimer a now ms cb recurring = some (front, m')) :
    m.timer a = none ∧ Sets a ⟨recurring, ms, now + ms, cb⟩ m m' ∧ Notifies a front m m' := by
  unfold TimerManager.addTimer at hop
  split at hop
  · cases hop
  rename_i hfree
  have hnone : m.timer a = none := by simpa using hfree
  have ha : a ∉ m.timers := fun ha => by
    obtain ⟨t, ht⟩ := h.made a ha
    rw [ht] at hnone
    cases hnone
  have hsets : Sets a ⟨recurring, ms, now + ms, cb⟩ m
      ((m.setTimer a ⟨recurring, ms, now + ms, cb⟩).addTimerPtr a).2 :=
    sets_of_insert h.sorted ha _ (addTimerPtr_timer ..) (addTimerPtr_timers ..)
      (addTimerPtr_previouseTime ..)
  have hnotifies := addTimerPtr_notifies (m.setTimer a ⟨recurring, ms, now + ms, cb⟩) a
  rw [Option.some.inj hop] at hsets hnotifies
  exact ⟨hnone, hsets, ⟨hnotifies.tickled, hnotifies.front⟩⟩

/-- `cancel` finds the timer if it has a callback. -/
theorem Ordered.cancel (h : Ordered m) (ht : m.timer a = some t) :
    (t.cb = none ∧ m.cancel a = some (false, m)) ∨
      (t.cb ≠ none ∧ ∃ m', m.cancel a = some (true, m') ∧ Drops a { t with cb := none } m m') := by
  unfold TimerManager.cancel
  simp only [ht, Option.bind_eq_bind, Option.bind_some]
  by_cases hcb : t.cb = none
  · exact .inl ⟨hcb, by simp [hcb]⟩
  have hset : (m.setTimer a { t with cb := none }).Sorted := h.sorted.of_next rfl fun b _ => by
    by_cases hba : b = a
    · subst hba
      simp [next, ht]
    · simp [next, hba]
  obtain ⟨m₁, herase, hsorted, htimer, hmem, hprev, htickled⟩ := hset.erase (h.kept a t ht hcb)
  have hsome : t.cb.isSome = true := Option.isSome_iff_ne_none.mpr hcb
  refine .inr ⟨hcb, m₁, ?_, fun b => ?_, hmem, hsorted, hprev, htickled⟩
  · simp only [hsome, if_true, herase, Option.bind_some, Option.pure_def]
  · rw [htimer, setTimer_timer]

/-- `refresh` finds the timer if it has a callback. -/
theorem Ordered.refresh (h : Ordered m) (ht : m.timer a = some t) (now : Int) :
    (t.cb = none ∧ m.refresh a now = some (false, m)) ∨
      (t.cb ≠ none ∧ ∃ m', m.refresh a now = some (true, m') ∧
        Sets a { t with next := now + t.ms } m m' ∧ m'.tickled = m.tickled) := by
  unfold TimerManager.refresh
  simp only [ht, Option.bind_eq_bind, Option.bind_some]
  by_cases hcb : t.cb = none
  · exact .inl ⟨hcb, by simp [hcb]⟩
  obtain ⟨m₁, herase, hsorted, htimer, hmem, hprev, htickled⟩ := h.sorted.erase (h.kept a t ht hcb)
  have hgone : a ∉ m₁.timers := fun ha => ((hmem a).mp ha).1 rfl
  have hsome : t.cb.isSome = true := Option.isSome_iff_ne_none.mpr hcb
  refine .inr ⟨hcb, (m₁.setTimer a { t with next := now + t.ms }).insert a, ?_, ?_, htickled⟩
  · simp only [hsome, if_true, herase, Option.pure_def]
  · exact (sets_of_insert hsorted hgone { t with next := now + t.ms } rfl rfl rfl).of_erase htimer
      hmem hprev

/-- `reset` finds the timer if it has a callback. -/
theorem Ordered.reset (h : Ordered m) (ht : m.timer a = some t) (now ms : Int) (fromNow : Bool) :
    ((t.ms = ms ∧ fromNow = false) ∧ m.reset a now ms fromNow = some (true, false, m)) ∨
      (¬ (t.ms = ms ∧ fromNow = false) ∧ t.cb = none ∧
        m.reset a now ms fromNow = some (false, false, m)) ∨
      (¬ (t.ms = ms ∧ fromNow = false) ∧ t.cb ≠ none ∧
        ∃ front m', m.reset a now ms fromNow = some (true, front, m') ∧
        Sets a { t with ms := ms, next := (if fromNow then now else t.next - ms) + ms } m m' ∧
        Notifies a front m m') := by
  unfold TimerManager.reset
  simp only [ht, Option.bind_eq_bind, Option.bind_some]
  by_cases hsame : t.ms = ms ∧ fromNow = false
  · exact .inl ⟨hsame, by simp [hsame]⟩
  refine .inr ?_
  rw [if_neg hsame]
  by_cases hcb : t.cb = none
  · exact .inl ⟨hsame, hcb, by simp [hcb]⟩
  obtain ⟨m₁, herase, hsorted, htimer, hmem, hprev, htickled⟩ := h.sorted.erase (h.kept a t ht hcb)
  have hgone : a ∉ m₁.timers := fun ha => ((hmem a).mp ha).1 rfl
  have hsome : t.cb.isSome = true := Option.isSome_iff_ne_none.mpr hcb
  set t' : Timer κ := { t with ms := ms, next := (if fromNow then now else t.next - ms) + ms }
  have hnotifies := addTimerPtr_notifies (m₁.setTimer a t') a
  refine .inr ⟨hsame, hcb, ((m₁.setTimer a t').addTimerPtr a).1,
    ((m₁.setTimer a t').addTimerPtr a).2, ?_, ?_, ?_⟩
  · simp only [hsome, if_true, herase, Option.pure_def]
  · have hsets : Sets a t' m₁ ((m₁.setTimer a t').addTimerPtr a).2 :=
      sets_of_insert hsorted hgone t' (addTimerPtr_timer (m₁.setTimer a t') a)
        (addTimerPtr_timers (m₁.setTimer a t') a) (addTimerPtr_previouseTime (m₁.setTimer a t') a)
    exact hsets.of_erase htimer hmem hprev
  · constructor
    · rw [← htickled]
      exact hnotifies.tickled
    · rw [← htickled]
      exact hnotifies.front

/-! ## listExpiredCb -/

/-- `expired` in `listExpiredCb`: the timers it takes out. -/
def expired (m : TimerManager κ) (now : Int) (probe : Nat) : List Nat :=
  match m.timers with
  | [] => []
  | first :: _ =>
    let r := m.detectClockRollover now
    if r.1 = false ∧ m.next first > now then []
    else (r.2.splitExpired r.1 now probe).1

/-- In a list that is sorted by a key, what follows the elements that satisfy `p` has
a key of at least `n`, if those that do not satisfy it have one. -/
theorem le_of_mem_dropWhile {key : Nat → Int} {p : Nat → Bool} {n : Int} {l : List Nat}
    (hl : l.Pairwise fun a b => key a ≤ key b) (hp : ∀ b ∈ l, p b = false → n ≤ key b)
    (ha : a ∈ l.dropWhile p) : n ≤ key a := by
  induction l with
  | nil => cases ha
  | cons b l ih =>
    obtain ⟨hb, hl⟩ := List.pairwise_cons.mp hl
    cases hpb : p b with
    | true =>
      rw [List.dropWhile_cons_of_pos hpb] at ha
      exact ih hl (fun c hc => hp c (List.mem_cons_of_mem _ hc)) ha
    | false =>
      have hnb := hp b List.mem_cons_self hpb
      rw [List.dropWhile_cons_of_neg (by simp [hpb])] at ha
      rcases List.mem_cons.mp ha with rfl | ha
      · exact hnb
      · exact Int.le_trans hnb (hb a ha)

/-- The cut is one of the list. -/
theorem splitExpired_append (m : TimerManager κ) (rollover : Bool) (now : Int) (probe : Nat) :
    (m.splitExpired rollover now probe).1 ++ (m.splitExpired rollover now probe).2 = m.timers := by
  cases rollover with
  | true => simp [splitExpired]
  | false =>
    simp only [splitExpired, Bool.false_eq_true, if_false, List.append_assoc,
      List.takeWhile_append_dropWhile]

/-- The timers left in the set are not due. -/
theorem Sorted.not_due (h : m.Sorted) (now : Int) (probe : Nat)
    (ha : a ∈ (m.splitExpired false now probe).2) : now < m.next a := by
  have hkeys : m.timers.Pairwise fun a b => m.next a ≤ m.next b :=
    List.Pairwise.imp (fun {a b} hab => by rw [less_iff] at hab; omega) h
  simp only [splitExpired, Bool.false_eq_true, if_false] at ha
  generalize hbelow : (fun a => Timer.comparator (some (m.next a, a)) (some (now, probe))) = below
    at ha
  -- `lower_bound` goes past all that is before `now`, and the loop past what is at it
  have hnotBefore : ∀ b ∈ m.timers, below b = false → now ≤ m.next b := by
    intro b _ hb
    rw [← hbelow] at hb
    simp only [Timer.comparator] at hb
    split at hb
    · cases hb
    · omega
  refine le_of_mem_dropWhile (hkeys.sublist (List.dropWhile_sublist below)) ?_ ha
  intro b hb hne
  have hle : now ≤ m.next b := le_of_mem_dropWhile hkeys hnotBefore hb
  have hne' : m.next b ≠ now := by simpa using hne
  omega

/-- The loop over expired timers that are out of the set. -/
structure Loops (now : Int) (l : List Nat) (m m' : TimerManager κ) (cbs : List (Option κ)) :
    Prop where
  cbs : cbs = l.map fun a => (m.timer a).bind Timer.cb
  timer : ∀ a, m'.timer a = if a ∈ l then (m.timer a).map (Timer.rang now) else m.timer a
  mem : ∀ a, a ∈ m'.timers ↔ a ∈ m.timers ∨ (a ∈ l ∧ (m.timer a).any Timer.recurring = true)
  sorted : m'.Sorted
  previouseTime : m'.previouseTime = m.previouseTime
  tickled : m'.tickled = m.tickled

/-- One turn of the loop. -/
theorem emitOne_loops (h : m.Sorted) (ht : m.timer a = some t) (ha : a ∉ m.timers) (now : Int) :
    Loops now [a] m (emitOne now a t m) [t.cb] := by
  have htimer : ∀ b, (emitOne now a t m).timer b =
      if b ∈ [a] then (m.timer b).map (Timer.rang now) else m.timer b := by
    intro b
    rw [emitOne_timer]
    by_cases hba : b = a
    · subst hba
      simp [ht, Timer.rang]
    · simp [hba]
  refine ⟨by simp [ht], htimer, ?_, ?_, ?_, ?_⟩
  · intro b
    unfold emitOne
    cases hrec : t.recurring with
    | true =>
      rw [if_pos rfl, mem_insert_iff, or_comm]
      refine or_congr_right ⟨?_, fun hb => List.mem_singleton.mp hb.1⟩
      rintro rfl
      exact ⟨List.mem_singleton_self b, by simp [ht, hrec]⟩
    | false =>
      refine ⟨.inl, fun hb => hb.resolve_right ?_⟩
      rintro ⟨hba, hany⟩
      rw [List.mem_singleton.mp hba, ht] at hany
      simp [hrec] at hany
  · unfold emitOne
    split
    · exact h.place ha _
    · refine h.of_next rfl fun b hb => ?_
      have hba : b ≠ a := fun heq => ha (heq ▸ hb)
      simp [next, hba]
  · unfold emitOne
    split <;> rfl
  · unfold emitOne
    split <;> rfl

theorem emitExpired_loops (now : Int) {l : List Nat} {m : TimerManager κ} (h : m.Sorted)
    (hnodup : l.Nodup) (hmade : ∀ a ∈ l, ∃ t, m.timer a = some t) (hout : ∀ a ∈ l, a ∉ m.timers) :
    Loops now l m (emitExpired now l m).2 (emitExpired now l m).1 := by
  induction l generalizing m with
  | nil => exact ⟨rfl, by simp [emitExpired], by simp [emitExpired], h, rfl, rfl⟩
  | cons a l ih =>
    obtain ⟨hal, hnodup⟩ := List.nodup_cons.mp hnodup
    obtain ⟨t, ht⟩ := hmade a List.mem_cons_self
    have hone := emitOne_loops h ht (hout a List.mem_cons_self) now
    -- the turn for `a` touches no timer of the rest
    have hother : ∀ b ∈ l, (emitOne now a t m).timer b = m.timer b := by
      intro b hb
      have hba : b ≠ a := fun heq => hal (heq ▸ hb)
      rw [hone.timer, if_neg (by simpa using hba)]
    have hrest := ih hone.sorted hnodup
      (fun b hb => by
        rw [hother b hb]
        exact hmade b (List.mem_cons_of_mem _ hb))
      (fun b hb hmem => by
        rcases (hone.mem b).mp hmem with hmem | ⟨hba, -⟩
        · exact hout b (List.mem_cons_of_mem _ hb) hmem
        · exact hal (List.mem_singleton.mp hba ▸ hb))
    rw [emitExpired_cons now l ht]
    constructor
    · rw [List.map_cons, ht, hrest.cbs]
      exact congrArg (t.cb :: ·) (List.map_congr_left fun b hb => by rw [hother b hb])
    · intro b
      rw [hrest.timer, hone.timer]
      by_cases hba : b = a
      · subst hba
        simp [hal]
      · by_cases hbl : b ∈ l <;> simp [hba, hbl]
    · intro b
      rw [hrest.mem, hone.mem]
      by_cases hba : b = a
      · subst hba
        simp [hal]
      · by_cases hbl : b ∈ l
        · simp [hba, hbl, hother b hbl]
        · simp [hba, hbl]
    · exact hrest.sorted
    · exact hrest.previouseTime.trans hone.previouseTime
    · exact hrest.tickled.trans hone.tickled

theorem Collects.nothing (h : m.Sorted) (htimers : m'.timers = m.timers)
    (htimer : m'.timer = m.timer) (htickled : m'.tickled = m.tickled)
    (hprev : m'.previouseTime = m.previouseTime ∨ m'.previouseTime = now)
    (hdue : (m.detectClockRollover now).1 = false → ∀ a ∈ m.timers, now < m.next a) :
    Collects now [] m m' [] where
  cbs := rfl
  nodup := List.nodup_nil
  subset := by simp
  due := by
    intro hroll a ha
    have := hdue hroll a ha
    simp only [List.not_mem_nil, false_iff]
    omega
  timer := by simp [htimer]
  mem := by simp [htimers]
  sorted := h.of_next htimers fun a _ => by rw [next, next, htimer]
  previouseTime := hprev
  tickled := htickled

/-- The set is cut in two lists that share no timer, and both are in order. -/
theorem Sorted.cut (h : m.Sorted) (now : Int) (probe : Nat) :
    let r := m.detectClockRollover now
    let e := r.2.splitExpired r.1 now probe
    e.1 ++ e.2 = m.timers ∧ e.1.Nodup ∧ (∀ a ∈ e.1, a ∉ e.2) ∧
      ({ r.2 with timers := e.2 } : TimerManager κ).Sorted := by
  intro r e
  have happend : e.1 ++ e.2 = m.timers := splitExpired_append r.2 r.1 now probe
  have hnodup : (e.1 ++ e.2).Nodup := by
    rw [happend]
    exact OrderedSet.Sorted.nodup m.less_irrefl h
  obtain ⟨hnodup₁, -, hdisj⟩ := List.nodup_append.mp hnodup
  have hsuffix : e.2.Sublist m.timers := happend ▸ List.sublist_append_right e.1 e.2
  exact ⟨happend, hnodup₁, fun a ha hmem => hdisj a ha a hmem rfl, h.sublist hsuffix⟩

/-- The part of `listExpiredCb` after the early returns. -/
theorem Sorted.collects (h : m.Sorted) (hmade : ∀ a ∈ m.timers, ∃ t, m.timer a = some t)
    (now : Int) (probe : Nat) :
    let r := m.detectClockRollover now
    let e := r.2.splitExpired r.1 now probe
    Collects now e.1 m (emitExpired now e.1 { r.2 with timers := e.2 }).2
      (emitExpired now e.1 { r.2 with timers := e.2 }).1 := by
  intro r e
  obtain ⟨happend, hnodup, hdisj, hleft⟩ := h.cut now probe
  have hsub : ∀ a ∈ e.1, a ∈ m.timers := fun a ha => happend ▸ List.mem_append_left _ ha
  have hloops := emitExpired_loops now hleft hnodup (fun a ha => hmade a (hsub a ha)) hdisj
  constructor
  · exact hloops.cbs
  · exact hnodup
  · exact hsub
  · intro hroll a ha
    have hkey : r.2.next a = m.next a := rfl
    have hroll' : r.1 = false := hroll
    constructor
    · intro hae
      have := ((splitExpired_spec r.2 r.1 now probe).2.1 a hae).2 hroll
      rwa [hkey] at this
    · intro hdue
      rw [← happend] at ha
      refine (List.mem_append.mp ha).resolve_right fun hae => ?_
      have hr : r.2.Sorted := h.of_next rfl fun _ _ => rfl
      have hae' : a ∈ (r.2.splitExpired false now probe).2 := hroll' ▸ hae
      have := hr.not_due now probe hae'
      rw [hkey] at this
      omega
  · exact hloops.timer
  · intro a
    rw [hloops.mem, ← happend, List.mem_append]
    refine or_congr_left ⟨fun hae => ⟨.inr hae, fun hae' => hdisj a hae' hae⟩, ?_⟩
    exact fun hae => hae.1.resolve_left hae.2
  · exact hloops.sorted
  · exact .inr hloops.previouseTime
  · exact hloops.tickled

theorem Sorted.listExpiredCb (h : m.Sorted) (hmade : ∀ a ∈ m.timers, ∃ t, m.timer a = some t)
    (now : Int) (probe : Nat) :
    Collects now (m.expired now probe) m (m.listExpiredCb now probe).2
      (m.listExpiredCb now probe).1 := by
  cases hl : m.timers with
  | nil =>
    simp only [TimerManager.listExpiredCb, expired, hl]
    exact .nothing h rfl rfl rfl (.inl rfl) (by simp [hl])
  | cons first rest =>
    simp only [TimerManager.listExpiredCb, expired, hl]
    split
    · rename_i hearly
      refine .nothing h rfl rfl rfl (.inr rfl) fun _ a ha => ?_
      have := h.head_le (by rw [hl]; rfl) ha
      omega
    · exact h.collects hmade now probe

theorem Ordered.listExpiredCb (h : Ordered m) (now : Int) (probe : Nat) :
    Collects now (m.expired now probe) m (m.listExpiredCb now probe).2
      (m.listExpiredCb now probe).1 :=
  h.sorted.listExpiredCb h.made now probe

theorem Ordered.of_collects (h : Ordered m) {l : List Nat} {cbs : List (Option κ)}
    (hc : Collects now l m m' cbs) : Ordered m' where
  sorted := hc.sorted
  made := by
    intro a ha
    have hin : a ∈ m.timers := by
      rcases (hc.mem a).mp ha with ha | ha
      · exact ha.1
      · exact hc.subset a ha.1
    obtain ⟨t, ht⟩ := h.made a hin
    rw [hc.timer, ht]
    split
    · exact ⟨_, rfl⟩
    · exact ⟨t, rfl⟩
  kept := by
    intro a u hu hcb
    rw [hc.timer] at hu
    split at hu
    · rename_i hal
      obtain ⟨t, ht, rfl⟩ := Option.map_eq_some_iff.mp hu
      refine (hc.mem a).mpr (.inr ⟨hal, ?_⟩)
      -- a one-shot timer has lost its callback
      rw [ht, Option.any_some]
      by_contra hrec
      exact hcb (by simp [Timer.rang, hrec])
    · rename_i hal
      exact (hc.mem a).mpr (.inl ⟨h.kept a u hu hcb, hal⟩)

/-! ## What an operation can do -/

/-- The ways an operation can go on an ordered manager. -/
inductive Operates (m : TimerManager κ) : Op κ → Answer κ → TimerManager κ → Prop where
  | addTimer (a : Nat) (now ms : Int) (cb : Option κ) (recurring front : Bool)
      (m' : TimerManager κ) (hfresh : m.timer a = none)
      (hsets : Sets a ⟨recurring, ms, now + ms, cb⟩ m m') (hfront : Notifies a front m m') :
      Operates m (.addTimer a now ms cb recurring) ⟨true, front, []⟩ m'
  | cancelDead (a : Nat) (t : Timer κ) (ht : m.timer a = some t) (hcb : t.cb = none) :
      Operates m (.cancel a) ⟨false, false, []⟩ m
  | cancel (a : Nat) (t : Timer κ) (m' : TimerManager κ) (ht : m.timer a = some t)
      (hcb : t.cb ≠ none) (hdrops : Drops a { t with cb := none } m m') :
      Operates m (.cancel a) ⟨true, false, []⟩ m'
  | refreshDead (a : Nat) (now : Int) (t : Timer κ) (ht : m.timer a = some t) (hcb : t.cb = none) :
      Operates m (.refresh a now) ⟨false, false, []⟩ m
  | refresh (a : Nat) (now : Int) (t : Timer κ) (m' : TimerManager κ) (ht : m.timer a = some t)
      (hcb : t.cb ≠ none) (hsets : Sets a { t with next := now + t.ms } m m')
      (htickled : m'.tickled = m.tickled) :
      Operates m (.refresh a now) ⟨true, false, []⟩ m'
  | resetSame (a : Nat) (now ms : Int) (fromNow : Bool) (t : Timer κ) (ht : m.timer a = some t)
      (hsame : t.ms = ms ∧ fromNow = false) :
      Operates m (.reset a now ms fromNow) ⟨true, false, []⟩ m
  | resetDead (a : Nat) (now ms : Int) (fromNow : Bool) (t : Timer κ) (ht : m.timer a = some t)
      (hsame : ¬ (t.ms = ms ∧ fromNow = false)) (hcb : t.cb = none) :
      Operates m (.reset a now ms fromNow) ⟨false, false, []⟩ m
  | reset (a : Nat) (now ms : Int) (fromNow front : Bool) (t : Timer κ) (m' : TimerManager κ)
      (ht : m.timer a = some t) (hsame : ¬ (t.ms = ms ∧ fromNow = false)) (hcb : t.cb ≠ none)
      (hsets : Sets a { t with ms := ms, next := (if fromNow then now else t.next - ms) + ms } m m')
      (hfront : Notifies a front m m') :
      Operates m (.reset a now ms fromNow) ⟨true, front, []⟩ m'
  | listExpiredCb (now : Int) (probe : Nat) (m' : TimerManager κ) (cbs : List (Option κ))
      (hcollects : Collects now (m.expired now probe) m m' cbs) :
      Operates m (.listExpiredCb now probe) ⟨true, false, cbs⟩ m'
  | getNextTimer (now : Int) :
      Operates m (.getNextTimer now) ⟨true, false, []⟩ { m with tickled := false }

theorem getNextTimer_snd (m : TimerManager κ) (now : Int) :
    (m.getNextTimer now).2 = { m with tickled := false } := by
  unfold getNextTimer
  dsimp only
  split <;> rfl

theorem Ordered.operates (h : Ordered m) {op : Op κ} {ans : Answer κ}
    (hop : m.operate op = some (ans, m')) : Operates m op ans m' := by
  cases op with
  | addTimer a now ms cb recurring =>
    obtain ⟨⟨front, m'⟩, hadd, heq⟩ := Option.map_eq_some_iff.mp hop
    cases heq
    obtain ⟨hfresh, hsets, hfront⟩ := h.addTimer hadd
    exact .addTimer a now ms cb recurring front m' hfresh hsets hfront
  | cancel a =>
    obtain ⟨⟨ok, m'⟩, hcancel, heq⟩ := Option.map_eq_some_iff.mp hop
    cases heq
    obtain ⟨t, ht, -⟩ := Option.bind_eq_some_iff.mp hcancel
    rcases h.cancel ht with ⟨hcb, heq⟩ | ⟨hcb, m'', heq, hdrops⟩
    · cases heq.symm.trans hcancel
      exact .cancelDead a t ht hcb
    · cases heq.symm.trans hcancel
      exact .cancel a t m' ht hcb hdrops
  | refresh a now =>
    obtain ⟨⟨ok, m'⟩, hrefresh, heq⟩ := Option.map_eq_some_iff.mp hop
    cases heq
    obtain ⟨t, ht, -⟩ := Option.bind_eq_some_iff.mp hrefresh
    rcases h.refresh ht now with ⟨hcb, heq⟩ | ⟨hcb, m'', heq, hsets, htickled⟩
    · cases heq.symm.trans hrefresh
      exact .refreshDead a now t ht hcb
    · cases heq.symm.trans hrefresh
      exact .refresh a now t m' ht hcb hsets htickled
  | reset a now ms fromNow =>
    obtain ⟨⟨ok, front, m'⟩, hreset, heq⟩ := Option.map_eq_some_iff.mp hop
    cases heq
    obtain ⟨t, ht, -⟩ := Option.bind_eq_some_iff.mp hreset
    rcases h.reset ht now ms fromNow with
      ⟨hsame, heq⟩ | ⟨hsame, hcb, heq⟩ | ⟨hsame, hcb, front', m'', heq, hsets, hfront⟩
    · cases heq.symm.trans hreset
      exact .resetSame a now ms fromNow t ht hsame
    · cases heq.symm.trans hreset
      exact .resetDead a now ms fromNow t ht hsame hcb
    · cases heq.symm.trans hreset
      exact .reset a now ms fromNow front t m' ht hsame hcb hsets hfront
  | listExpiredCb now probe =>
    cases hop
    exact .listExpiredCb now probe _ _ (h.listExpiredCb now probe)
  | getNextTimer now =>
    cases hop
    rw [getNextTimer_snd]
    exact .getNextTimer now

theorem Ordered.of_operates (h : Ordered m) {op : Op κ} {ans : Answer κ}
    (hop : Operates m op ans m') : Ordered m' := by
  cases hop with
  | addTimer a now ms cb recurring front m' hfresh hsets => exact h.of_sets hsets
  | cancelDead => exact h
  | cancel a t m' ht hcb hdrops => exact h.of_drops hdrops rfl
  | refreshDead => exact h
  | refresh a now t m' ht hcb hsets => exact h.of_sets hsets
  | resetSame => exact h
  | resetDead => exact h
  | reset a now ms fromNow front t m' ht hsame hcb hsets => exact h.of_sets hsets
  | listExpiredCb now probe m' cbs hcollects => exact h.of_collects hcollects
  | getNextTimer now => exact ⟨h.sorted.of_next rfl fun _ _ => rfl, h.made, h.kept⟩

theorem Ordered.perform (h : Ordered m) {call : Call κ} (hop : m.perform call now = some m') :
    Ordered m' := by
  have hoperate : ∃ op ans, m.operate op = some (ans, m') := by
    cases call with
    | addTimer a ms cb recurring =>
      obtain ⟨r, hadd, rfl⟩ := Option.map_eq_some_iff.mp hop
      exact ⟨.addTimer a now ms cb recurring, _, by rw [operate, hadd]; rfl⟩
    | cancel a =>
      obtain ⟨r, hcancel, rfl⟩ := Option.map_eq_some_iff.mp hop
      exact ⟨.cancel a, _, by rw [operate, hcancel]; rfl⟩
    | refresh a =>
      obtain ⟨r, hrefresh, rfl⟩ := Option.map_eq_some_iff.mp hop
      exact ⟨.refresh a now, _, by rw [operate, hrefresh]; rfl⟩
    | reset a ms fromNow =>
      obtain ⟨r, hreset, rfl⟩ := Option.map_eq_some_iff.mp hop
      exact ⟨.reset a now ms fromNow, _, by rw [operate, hreset]; rfl⟩
  obtain ⟨op, ans, hop⟩ := hoperate
  exact h.of_operates (h.operates hop)

/-- Only `listExpiredCb` changes `m_previouseTime`. -/
theorem Operates.previouseTime {op : Op κ} {ans : Answer κ} (hop : Operates m op ans m')
    (hnot : ∀ now probe, op ≠ .listExpiredCb now probe) : m'.previouseTime = m.previouseTime := by
  cases hop with
  | addTimer a now ms cb recurring front m' hfresh hsets => exact hsets.previouseTime
  | cancelDead => rfl
  | cancel a t m' ht hcb hdrops => exact hdrops.previouseTime
  | refreshDead => rfl
  | refresh a now t m' ht hcb hsets => exact hsets.previouseTime
  | resetSame => rfl
  | resetDead => rfl
  | reset a now ms fromNow front t m' ht hsame hcb hsets => exact hsets.previouseTime
  | listExpiredCb now probe => exact absurd rfl (hnot now probe)
  | getNextTimer => rfl

/-- A clock that has not gone back is not found to be set back. -/
theorem detectClockRollover_of_le (h : m.previouseTime ≤ now) :
    (m.detectClockRollover now).1 = false := by
  simp only [detectClockRollover, decide_eq_false_iff_not]
  omega

/-! ## Every run -/

theorem ordered_of_reachable (h : (manager κ).Reachable TransitionSystem.free m) : Ordered m := by
  refine TransitionSystem.Preserved.reachable ?_ ?_ h
  · intro m op m' hm _ hstep
    obtain ⟨⟨ans, m''⟩, hop, rfl⟩ := Option.map_eq_some_iff.mp hstep
    exact hm.of_operates (hm.operates hop)
  · rintro m ⟨now, rfl⟩
    exact init_ordered now

/-- Whatever was called before, and whatever the clock showed: the set is strictly
sorted by `m_next` and address, no timer is in it twice, and every timer with a
callback is in it, where `find` finds it. `m_next` is assigned to timers outside
the set only: to the one that `refresh` and `reset` have just taken out, to each
expired timer when the loop comes to it, and to a new one. -/
theorem timers_ordered (h : (manager κ).Reachable TransitionSystem.free m) :
    (m.timers.Pairwise fun a b => m.next a < m.next b ∨ (m.next a = m.next b ∧ a < b)) ∧
    m.timers.Nodup ∧
    (∀ a t, m.timer a = some t → t.cb ≠ none →
      a ∈ m.timers ∧ ∃ m₁, m.erase a = some m₁ ∧ a ∉ m₁.timers) ∧
    (∀ a t, m.timer a = some t → m.cancel a ≠ none) ∧
    (∀ a, m.timer a = none → a ∉ m.timers) ∧
    ∀ now probe pre a post,
      let r := m.detectClockRollover now
      let e := r.2.splitExpired r.1 now probe
      e.1 = pre ++ a :: post → a ∉ (emitExpired now pre { r.2 with timers := e.2 }).2.timers := by
  have ho := ordered_of_reachable h
  refine ⟨?_, OrderedSet.Sorted.nodup m.less_irrefl ho.sorted, ?_, ?_, ?_, ?_⟩
  · exact List.Pairwise.imp (fun {a b} hab => (m.less_iff a b).mp hab) ho.sorted
  · intro a t ht hcb
    have hkept := ho.kept a t ht hcb
    obtain ⟨m₁, herase, -, -, hmem, -⟩ := ho.sorted.erase hkept
    exact ⟨hkept, m₁, herase, fun ha => ((hmem a).mp ha).1 rfl⟩
  · intro a t ht
    rcases ho.cancel ht with ⟨-, heq⟩ | ⟨-, m', heq, -⟩
    · rw [heq]
      exact nofun
    · rw [heq]
      exact nofun
  · intro a hnone ha
    obtain ⟨t, ht⟩ := ho.made a ha
    rw [ht] at hnone
    cases hnone
  · intro now probe pre a post r e he
    obtain ⟨happend, hnodup, hdisj, hleft⟩ := ho.sorted.cut now probe
    have hsub : ∀ b ∈ e.1, b ∈ m.timers := fun b hb => happend ▸ List.mem_append_left _ hb
    rw [show (r.2.splitExpired r.1 now probe).1 = pre ++ a :: post from he] at hnodup hdisj
    obtain ⟨hpre, -, hapre⟩ := List.nodup_append.mp hnodup
    -- the turns before that of `a` put nothing but their own timers in
    have hloops := emitExpired_loops now hleft hpre
      (fun b hb => ho.made b (hsub b (he ▸ List.mem_append_left _ hb)))
      (fun b hb => hdisj b (List.mem_append_left _ hb))
    rw [hloops.mem]
    rintro (hmem | ⟨hmem, -⟩)
    · exact hdisj a (List.mem_append_right _ List.mem_cons_self) hmem
    · exact hapre a hmem a List.mem_cons_self rfl

/-- Two timers are due together, one is moved to tie with a third, and then the
clock is set back by more than an hour, so that all of them expire. -/
def rolloverRun : List (Op Nat) :=
  [.addTimer 7 0 100 (some 1) true, .addTimer 4 0 100 (some 2) false,
    .addTimer 9 0 50 (some 3) false, .reset 9 10 90 true, .refresh 4 20,
    .listExpiredCb (-4000000) 0, .addTimer 2 (-4000000) 100 (some 4) false, .cancel 9]

theorem timers_ordered_rolloverRun :
    ∃ m, (manager Nat).Reachable TransitionSystem.free m ∧ m.timers = [2, 7] ∧
      m.next 2 = m.next 7 ∧ m.timers.Nodup := by
  obtain ⟨m, hm, hp⟩ := TransitionSystem.Reachable.of_replay (T := manager Nat)
    (G := TransitionSystem.free) (g := fun _ _ => true) (fun _ _ _ => trivial)
    (l := rolloverRun) (p := fun m => m.timers == [2, 7] && m.next 2 == m.next 7) ⟨0, rfl⟩
    (by decide)
  simp only [Bool.and_eq_true, beq_iff_eq] at hp
  exact ⟨m, hm, hp.1, hp.2, (timers_ordered hm).2.1⟩

end TimerManager
