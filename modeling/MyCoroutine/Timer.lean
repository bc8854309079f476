-- SUMMARY: Timer and TimerManager: adding, cancelling, refreshing and resetting timers, and the collection of the expired ones.
import Mathlib.Data.List.TakeWhile
import Mathlib.Logic.Function.Basic
import MyCoroutine.Lib.OrderedSet

/-! # Timers

A timer is known by its address. `m_timers` is the list of the addresses in it,
in the order of `Timer::Comparator`, which reads `m_next` through the pointer.
Times are milliseconds, without a bound. Each function takes the reading of the
clock that `getNow()` returns in it. `none` stands for undefined behaviour, such
as `erase(end())`. Callbacks are of any type `κ`. -/

structure Timer (κ : Type) where
  recurring : Bool
  ms : Int
  next : Int
  /-- `none` is the empty function. -/
  cb : Option κ
  deriving DecidableEq

/-- `Timer::Comparator` on two pointers, each with the `m_next` and the address
of what it points to. -/
def Timer.comparator (lhs rhs : Option (Int × Nat)) : Bool :=
  match lhs, rhs with
  | none, none => false
  | none, some _ => true
  | some _, none => false
  | some l, some r => if l.1 < r.1 then true else if l.1 > r.1 then false else l.2 < r.2

structure TimerManager (κ : Type) where
  /-- The `Timer` at each address, if one was constructed there. -/
  timer : Nat → Option (Timer κ)
  /-- `m_timers`. -/
  timers : List Nat
  tickled : Bool
  previouseTime : Int

namespace TimerManager

variable {κ : Type}

/-- The constructor, at clock reading `now`. -/
def init (now : Int) : TimerManager κ where
  timer := fun _ => none
  timers := []
  tickled := false
  previouseTime := now

/-- `m_next` of the timer at `a`. -/
def next (m : TimerManager κ) (a : Nat) : Int :=
  ((m.timer a).map Timer.next).getD 0

/-- The comparator on the timers at `a` and `b`. -/
def less (m : TimerManager κ) (a b : Nat) : Bool :=
  Timer.comparator (some (m.next a, a)) (some (m.next b, b))

def setTimer (m : TimerManager κ) (a : Nat) (t : Timer κ) : TimerManager κ :=
  { m with timer := Function.update m.timer a (some t) }

/-- `m_timers.insert(timer)`. -/
def insert (m : TimerManager κ) (a : Nat) : TimerManager κ :=
  { m with timers := OrderedSet.insert m.less a m.timers }

/-- `m_timers.erase(m_timers.find(timer))`. -/
def erase (m : TimerManager κ) (a : Nat) : Option (TimerManager κ) :=
  (OrderedSet.erase m.less a m.timers).map fun l => { m with timers := l }

/-- `addTimer(Timer::ptr, WriteLock&)`: whether `onTimerInsertedAtFront` is called. -/
def addTimerPtr (m : TimerManager κ) (a : Nat) : Bool × TimerManager κ :=
  let m := m.insert a
  let atFront := m.timers.head? = some a ∧ m.tickled = false
  (atFront, if atFront then { m with tickled := true } else m)

/-- `addTimer(ms, cb, recurring)`, which constructs the timer at the free address `a`. -/
def addTimer (m : TimerManager κ) (a : Nat) (now ms : Int) (cb : Option κ) (recurring : Bool) :
    Option (Bool × TimerManager κ) :=
  if (m.timer a).isSome then none
  else some ((m.setTimer a ⟨recurring, ms, now + ms, cb⟩).addTimerPtr a)

/-- `Timer::cancel`. -/
def cancel (m : TimerManager κ) (a : Nat) : Option (Bool × TimerManager κ) := do
  let t ← m.timer a
  if t.cb.isSome then
    -- there is no test for `end()` here, unlike in `refresh` and `reset`
    let m ← (m.setTimer a { t with cb := none }).erase a
    return (true, m)
  else return (false, m)

/-- `Timer::refresh`. -/
def refresh (m : TimerManager κ) (a : Nat) (now : Int) : Option (Bool × TimerManager κ) := do
  let t ← m.timer a
  if t.cb.isSome then
    match m.erase a with
    | none => return (false, m)
    | some m => return (true, (m.setTimer a { t with next := now + t.ms }).insert a)
  else return (false, m)

/-- `Timer::reset`: what it returns, and whether `onTimerInsertedAtFront` is called. -/
def reset (m : TimerManager κ) (a : Nat) (now ms : Int) (fromNow : Bool) :
    Option (Bool × Bool × TimerManager κ) := do
  let t ← m.timer a
  if t.ms = ms ∧ fromNow = false then return (true, false, m)
  else if t.cb.isSome then
    match m.erase a with
    | none => return (false, false, m)
    | some m =>
      let start := if fromNow then now else t.next - ms
      let r := (m.setTimer a { t with ms := ms, next := start + ms }).addTimerPtr a
      return (true, r.1, r.2)
  else return (false, false, m)

/-- `getNextTimer`: the delay until the first timer, -1 for none. -/
def getNextTimer (m : TimerManager κ) (now : Int) : Int × TimerManager κ :=
  let m := { m with tickled := false }
  match m.timers with
  | [] => (-1, m)
  | a :: _ => (if now ≥ m.next a then 0 else m.next a - now, m)

/-- `detectClockRollover`. -/
def detectClockRollover (m : TimerManager κ) (now : Int) : Bool × TimerManager κ :=
  (now < m.previouseTime ∧ now < m.previouseTime - 60 * 60 * 1000, { m with previouseTime := now })

/-- The timers that `listExpiredCb` takes out, and those it leaves: all of them
after a rollover, else those below the probe timer and then those due at `now`. -/
def splitExpired (m : TimerManager κ) (rollover : Bool) (now : Int) (probe : Nat) :
    List Nat × List Nat :=
  if rollover then (m.timers, [])
  else
    let below := fun a => Timer.comparator (some (m.next a, a)) (some (now, probe))
    let it := m.timers.dropWhile below
    (m.timers.takeWhile below ++ it.takeWhile (fun a => m.next a = now),
      it.dropWhile (fun a => m.next a = now))

/-- The loop over the expired timers in `listExpiredCb`. -/
def emitExpired (now : Int) : List Nat → TimerManager κ → List (Option κ) × TimerManager κ
  | [], m => ([], m)
  | a :: expired, m =>
    match m.timer a with
    | none => emitExpired now expired m
    | some t =>
      let r := emitExpired now expired
        (if t.recurring then (m.setTimer a { t with next := now + t.ms }).insert a
        else m.setTimer a { t with cb := none })
      (t.cb :: r.1, r.2)

/-- `listExpiredCb`, whose `now_timer` gets the address `probe`: what it appends to `cbs`. -/
def listExpiredCb (m : TimerManager κ) (now : Int) (probe : Nat) :
    List (Option κ) × TimerManager κ :=
  match m.timers with
  | [] => ([], m)
  | first :: _ =>
    let r := m.detectClockRollover now
    -- the early return keeps the new `m_previouseTime`
    if r.1 = false ∧ m.next first > now then ([], r.2)
    else
      let e := r.2.splitExpired r.1 now probe
      emitExpired now e.1 { r.2 with timers := e.2 }

/-! ## Membership -/

variable {m m' : TimerManager κ} {a b : Nat} {t t' : Timer κ} {now : Int}

@[simp] theorem setTimer_timers (m : TimerManager κ) (a : Nat) (t : Timer κ) :
    (m.setTimer a t).timers = m.timers := rfl
@[simp] theorem setTimer_timer (m : TimerManager κ) (a : Nat) (t : Timer κ) (b : Nat) :
    (m.setTimer a t).timer b = if b = a then some t else m.timer b :=
  Function.update_apply ..
@[simp] theorem insert_timer (m : TimerManager κ) (a : Nat) : (m.insert a).timer = m.timer := rfl

/-- Two timers that the comparator does not separate are one. -/
theorem eq_of_not_less (m : TimerManager κ) (a b : Nat) (hab : m.less a b = false)
    (hba : m.less b a = false) : a = b := by
  simp only [less, Timer.comparator] at hab hba
  split at hab
  · cases hab
  rename_i hlt
  split at hab
  · rename_i hgt
    rw [if_pos hgt] at hba
    cases hba
  · rename_i hgt
    rw [if_neg hgt, if_neg hlt] at hba
    simp only [decide_eq_false_iff_not] at hab hba
    omega

theorem mem_insert_self (m : TimerManager κ) (a : Nat) : a ∈ (m.insert a).timers :=
  OrderedSet.mem_insert_self m.eq_of_not_less

theorem mem_insert_of_mem (h : b ∈ m.timers) : b ∈ (m.insert a).timers :=
  OrderedSet.mem_insert_of_mem h

theorem mem_of_mem_insert (h : b ∈ (m.insert a).timers) : b = a ∨ b ∈ m.timers :=
  OrderedSet.mem_of_mem_insert h

theorem erase_timer (h : m.erase a = some m') : m'.timer = m.timer := by
  obtain ⟨l, -, rfl⟩ := Option.map_eq_some_iff.mp h
  rfl

theorem mem_erase_of_ne (h : m.erase a = some m') (hb : b ∈ m.timers) (hne : b ≠ a) :
    b ∈ m'.timers := by
  obtain ⟨l, hl, rfl⟩ := Option.map_eq_some_iff.mp h
  exact OrderedSet.mem_erase_of_ne m.eq_of_not_less hl hb hne

theorem mem_of_mem_erase (h : m.erase a = some m') (hb : b ∈ m'.timers) : b ∈ m.timers := by
  obtain ⟨l, hl, rfl⟩ := Option.map_eq_some_iff.mp h
  exact OrderedSet.mem_of_mem_erase hl hb

theorem mem_of_erase (h : m.erase a = some m') : a ∈ m.timers := by
  obtain ⟨l, hl, -⟩ := Option.map_eq_some_iff.mp h
  exact OrderedSet.mem_of_erase m.eq_of_not_less hl

@[simp] theorem addTimerPtr_timers (m : TimerManager κ) (a : Nat) :
    (m.addTimerPtr a).2.timers = (m.insert a).timers := by
  simp only [addTimerPtr]
  split <;> rfl

@[simp] theorem addTimerPtr_timer (m : TimerManager κ) (a : Nat) :
    (m.addTimerPtr a).2.timer = m.timer := by
  simp only [addTimerPtr]
  split <;> rfl

@[simp] theorem addTimerPtr_previouseTime (m : TimerManager κ) (a : Nat) :
    (m.addTimerPtr a).2.previouseTime = m.previouseTime := by
  simp only [addTimerPtr]
  split <;> rfl

/-! ## What an operation on one timer leaves alone -/

/-- From `m` to `m'` only the timer at `a` may have changed: no other timer is
touched, in the set or out of it, and no timer gains a callback. -/
structure OnlyAt (a : Nat) (m m' : TimerManager κ) : Prop where
  timer : ∀ b, b ≠ a → m'.timer b = m.timer b
  mem : ∀ b, b ≠ a → b ∈ m.timers → b ∈ m'.timers
  subset : ∀ b ∈ m'.timers, b ∈ m.timers
  cb : ∀ t', m'.timer a = some t' → ∃ t, m.timer a = some t ∧ (t'.cb = none ∨ t'.cb = t.cb)
  previouseTime : m'.previouseTime = m.previouseTime

theorem OnlyAt.refl (a : Nat) (m : TimerManager κ) : OnlyAt a m m where
  timer := fun _ _ => rfl
  mem := fun _ _ h => h
  subset := fun _ h => h
  cb := fun t' h => ⟨t', h, .inr rfl⟩
  previouseTime := rfl

theorem erase_previouseTime (h : m.erase a = some m') : m'.previouseTime = m.previouseTime := by
  obtain ⟨l, -, rfl⟩ := Option.map_eq_some_iff.mp h
  rfl

theorem cancel_onlyAt {ok : Bool} (h : m.cancel a = some (ok, m')) : OnlyAt a m m' := by
  unfold cancel at h
  obtain ⟨t, ht, h⟩ := Option.bind_eq_some_iff.mp h
  split at h
  · obtain ⟨m₁, herase, h⟩ := Option.bind_eq_some_iff.mp h
    cases h
    have htimer := erase_timer herase
    constructor
    · intro b hb
      simp [htimer, hb]
    · exact fun b hb hmem => mem_erase_of_ne herase hmem hb
    · intro b hmem
      have := mem_of_mem_erase herase hmem
      exact this
    · intro t' ht'
      simp only [htimer, setTimer_timer, if_true, Option.some.injEq] at ht'
      exact ⟨t, ht, .inl (ht' ▸ rfl)⟩
    · have := erase_previouseTime herase
      exact this
  · cases h
    exact .refl a m

/-- Taking a timer out, changing all but its callback, and putting it back. -/
theorem reinsert_onlyAt {m₁ : TimerManager κ} (ht : m.timer a = some t)
    (herase : m.erase a = some m₁) (t' : Timer κ) (hcb : t'.cb = t.cb)
    (htimers : m'.timers = ((m₁.setTimer a t').insert a).timers)
    (htimer : m'.timer = (m₁.setTimer a t').timer)
    (hprev : m'.previouseTime = m₁.previouseTime) : OnlyAt a m m' := by
  have htimer₁ := erase_timer herase
  constructor
  · intro b hb
    simp [htimer, hb, htimer₁]
  · intro b hb hmem
    have hmem₁ := mem_erase_of_ne herase hmem hb
    rw [htimers]
    exact mem_insert_of_mem hmem₁
  · intro b hmem
    rw [htimers] at hmem
    rcases mem_of_mem_insert hmem with rfl | hmem
    · exact mem_of_erase herase
    · exact mem_of_mem_erase herase hmem
  · intro t'' ht''
    simp only [htimer, setTimer_timer, if_true, Option.some.injEq] at ht''
    exact ⟨t, ht, .inr (ht'' ▸ hcb)⟩
  · rw [hprev, erase_previouseTime herase]

theorem refresh_onlyAt {ok : Bool} (h : m.refresh a now = some (ok, m')) : OnlyAt a m m' := by
  unfold refresh at h
  obtain ⟨t, ht, h⟩ := Option.bind_eq_some_iff.mp h
  split at h
  · split at h
    · cases h
      exact .refl a m
    · rename_i m₁ herase
      cases h
      exact reinsert_onlyAt ht herase { t with next := now + t.ms } rfl rfl rfl rfl
  · cases h
    exact .refl a m

theorem reset_onlyAt {ms : Int} {fromNow ok front : Bool}
    (h : m.reset a now ms fromNow = some (ok, front, m')) : OnlyAt a m m' := by
  unfold reset at h
  obtain ⟨t, ht, h⟩ := Option.bind_eq_some_iff.mp h
  split at h
  · cases h
    exact .refl a m
  · split at h
    · split at h
      · cases h
        exact .refl a m
      · rename_i m₁ herase
        cases h
        exact reinsert_onlyAt ht herase
          { t with ms := ms, next := (if fromNow then now else t.next - ms) + ms } rfl
          (addTimerPtr_timers ..) (addTimerPtr_timer ..) (addTimerPtr_previouseTime ..)
    · cases h
      exact .refl a m

/-! ## addTimer -/

/-- `addTimer` puts one fresh timer into the set and touches no other. -/
structure Adds (a : Nat) (t : Timer κ) (m m' : TimerManager κ) : Prop where
  fresh : m.timer a = none
  timer : ∀ b, m'.timer b = if b = a then some t else m.timer b
  mem : ∀ b, b ∈ m'.timers ↔ b = a ∨ b ∈ m.timers
  previouseTime : m'.previouseTime = m.previouseTime

theorem addTimer_adds {ms : Int} {cb : Option κ} {recurring front : Bool}
    (h : m.addTimer a now ms cb recurring = some (front, m')) :
    Adds a ⟨recurring, ms, now + ms, cb⟩ m m' := by
  unfold addTimer at h
  split at h
  · cases h
  rename_i hfree
  obtain rfl : m' = ((m.setTimer a ⟨recurring, ms, now + ms, cb⟩).addTimerPtr a).2 := by
    rw [Option.some.inj h]
  constructor
  · simpa using hfree
  · intro b
    rw [addTimerPtr_timer]
    exact setTimer_timer ..
  · intro b
    rw [addTimerPtr_timers]
    constructor
    · intro hb
      have := mem_of_mem_insert hb
      exact this
    · rintro (rfl | hb)
      · exact mem_insert_self ..
      · have : b ∈ (m.setTimer a ⟨recurring, ms, now + ms, cb⟩).timers := hb
        exact mem_insert_of_mem this
  · exact addTimerPtr_previouseTime ..

/-! ## listExpiredCb -/

/-- What the loop over the expired timers `l` does. -/
structure Emits (now : Int) (l : List Nat) (m m' : TimerManager κ) (cbs : List (Option κ)) :
    Prop where
  other : ∀ a, a ∉ l → m'.timer a = m.timer a
  once : ∀ a ∈ l, ∀ t, m.timer a = some t → t.recurring = false →
    m'.timer a = some { t with cb := none } ∧ t.cb ∈ cbs
  mem : ∀ a ∈ m.timers, a ∈ m'.timers
  subset : ∀ a ∈ m'.timers, a ∈ m.timers ∨ a ∈ l
  emitted : ∀ c ∈ cbs, ∃ a ∈ l, ∃ t, m.timer a = some t ∧ (c = t.cb ∨ c = none)
  cb : ∀ a t', m'.timer a = some t' → ∃ t, m.timer a = some t ∧ (t'.cb = none ∨ t'.cb = t.cb)
  previouseTime : m'.previouseTime = m.previouseTime

/-- The loop body for the timer at `a`. -/
def emitOne (now : Int) (a : Nat) (t : Timer κ) (m : TimerManager κ) : TimerManager κ :=
  if t.recurring then (m.setTimer a { t with next := now + t.ms }).insert a
  else m.setTimer a { t with cb := none }

theorem emitOne_timer (m : TimerManager κ) (now : Int) (a : Nat) (t : Timer κ) (b : Nat) :
    (emitOne now a t m).timer b = if b = a then
      some (if t.recurring then { t with next := now + t.ms } else { t with cb := none })
      else m.timer b := by
  unfold emitOne
  split <;> simp

theorem mem_emitOne (m : TimerManager κ) (t : Timer κ) (h : b ∈ m.timers) :
    b ∈ (emitOne now a t m).timers := by
  unfold emitOne
  split
  · have : b ∈ (m.setTimer a { t with next := now + t.ms }).timers := h
    exact mem_insert_of_mem this
  · exact h

theorem mem_of_mem_emitOne (h : b ∈ (emitOne now a t m).timers) : b ∈ m.timers ∨ b = a := by
  unfold emitOne at h
  split at h
  · exact (mem_of_mem_insert h).symm
  · exact .inl h

theorem emitExpired_cons (now : Int) (l : List Nat) (h : m.timer a = some t) :
    emitExpired now (a :: l) m =
      (t.cb :: (emitExpired now l (emitOne now a t m)).1,
        (emitExpired now l (emitOne now a t m)).2) := by
  simp only [emitExpired, h]
  rfl

theorem emitExpired_emits (now : Int) (l : List Nat) (m : TimerManager κ) :
    Emits now l m (emitExpired now l m).2 (emitExpired now l m).1 := by
  induction l generalizing m with
  | nil =>
    exact ⟨fun _ _ => rfl, nofun, fun _ h => h, fun _ h => .inl h, nofun,
      fun _ t h => ⟨t, h, .inr rfl⟩, rfl⟩
  | cons a l ih =>
    cases ht : m.timer a with
    | none =>
      have hskip : emitExpired now (a :: l) m = emitExpired now l m := by
        simp only [emitExpired, ht]
      have hrec := ih m
      rw [hskip]
      constructor
      · exact fun b hb => hrec.other b fun hmem => hb (List.mem_cons_of_mem _ hmem)
      · intro b hb u hu
        rcases List.mem_cons.mp hb with rfl | hb
        · rw [ht] at hu
          cases hu
        · exact hrec.once b hb u hu
      · exact hrec.mem
      · exact fun b hb => (hrec.subset b hb).imp_right (List.mem_cons_of_mem _)
      · intro c hc
        obtain ⟨b, hb, u, hu, hcu⟩ := hrec.emitted c hc
        exact ⟨b, List.mem_cons_of_mem _ hb, u, hu, hcu⟩
      · exact hrec.cb
      · exact hrec.previouseTime
    | some t =>
      have hrec := ih (emitOne now a t m)
      have htimer := emitOne_timer m now a t
      rw [emitExpired_cons now l ht]
      constructor
      · intro b hb
        rw [List.mem_cons, not_or] at hb
        rw [hrec.other b hb.2, htimer, if_neg hb.1]
      · intro b hb u hu honce
        by_cases hba : b = a
        · -- the timer emitted now has no callback left, should it come up again in `l`
          subst hba
          obtain rfl : t = u := Option.some.inj (ht.symm.trans hu)
          have hnow : (emitOne now b t m).timer b = some { t with cb := none } := by
            rw [htimer, if_pos rfl, if_neg (by simp [honce])]
          refine ⟨?_, List.mem_cons_self⟩
          by_cases hbl : b ∈ l
          · exact (hrec.once b hbl _ hnow honce).1
          · rw [hrec.other b hbl, hnow]
        · have hnow : (emitOne now a t m).timer b = some u := by
            rw [htimer, if_neg hba, hu]
          have hbl : b ∈ l := (List.mem_cons.mp hb).resolve_left hba
          obtain ⟨hafter, hcb⟩ := hrec.once b hbl u hnow honce
          exact ⟨hafter, List.mem_cons_of_mem _ hcb⟩
      · exact fun b hb => hrec.mem b (mem_emitOne m t hb)
      · intro b hb
        rcases hrec.subset b hb with hb | hb
        · rcases mem_of_mem_emitOne hb with hb | rfl
          · exact .inl hb
          · exact .inr List.mem_cons_self
        · exact .inr (List.mem_cons_of_mem _ hb)
      · intro c hc
        rcases List.mem_cons.mp hc with rfl | hc
        · exact ⟨a, List.mem_cons_self, t, ht, .inl rfl⟩
        · obtain ⟨b, hb, u, hu, hcu⟩ := hrec.emitted c hc
          rw [htimer] at hu
          split at hu
          · rename_i hba
            refine ⟨a, List.mem_cons_self, t, ht, ?_⟩
            cases hu
            split at hcu
            · exact hcu
            · exact .inr (hcu.elim id id)
          · exact ⟨b, List.mem_cons_of_mem _ hb, u, hu, hcu⟩
      · intro b u' hu'
        obtain ⟨u, hu, hcb⟩ := hrec.cb b u' hu'
        rw [htimer] at hu
        split at hu
        · rename_i hba
          cases hu
          refine ⟨t, hba ▸ ht, ?_⟩
          split at hcb
          · exact hcb
          · exact .inl (hcb.elim id id)
        · exact ⟨u, hu, hcb⟩
      · rw [hrec.previouseTime]
        unfold emitOne
        split <;> rfl

/-- The timers taken out are due, unless the clock was found to be set back. -/
theorem splitExpired_spec (m : TimerManager κ) (rollover : Bool) (now : Int) (probe : Nat) :
    (∀ a ∈ m.timers, a ∈ (m.splitExpired rollover now probe).1 ∨
      a ∈ (m.splitExpired rollover now probe).2) ∧
    (∀ a ∈ (m.splitExpired rollover now probe).1,
      a ∈ m.timers ∧ (rollover = false → m.next a ≤ now)) ∧
    (∀ a ∈ (m.splitExpired rollover now probe).2, a ∈ m.timers) := by
  cases rollover with
  | true => exact ⟨fun _ h => .inl h, fun _ h => ⟨h, nofun⟩, nofun⟩
  | false =>
    simp only [splitExpired, Bool.false_eq_true, if_false]
    generalize hbelow : (fun a => Timer.comparator (some (m.next a, a)) (some (now, probe))) = below
    have hbelow' : ∀ a, below a = true → m.next a ≤ now := by
      intro a ha
      rw [← hbelow] at ha
      simp only [Timer.comparator] at ha
      split at ha
      · omega
      · split at ha
        · cases ha
        · omega
    refine ⟨fun a ha => ?_, fun a ha => ?_, fun a ha => ?_⟩
    · have hcut (p : Nat → Bool) (l : List Nat) (hl : a ∈ l) :
          a ∈ l.takeWhile p ∨ a ∈ l.dropWhile p :=
        List.mem_append.mp (by rwa [List.takeWhile_append_dropWhile])
      rcases hcut below _ ha with ha | ha
      · exact .inl (List.mem_append_left _ ha)
      · exact (hcut _ _ ha).imp_left (List.mem_append_right _)
    · rcases List.mem_append.mp ha with ha | ha
      · exact ⟨List.takeWhile_subset _ ha, fun _ => hbelow' a (List.mem_takeWhile_imp ha)⟩
      · refine ⟨List.dropWhile_subset _ (List.takeWhile_subset _ ha), fun _ => ?_⟩
        have := List.mem_takeWhile_imp ha
        simp only [decide_eq_true_eq] at this
        exact Int.le_of_eq this
    · exact List.dropWhile_subset _ (List.dropWhile_subset _ ha)

/-- What `listExpiredCb` does at clock reading `now`. -/
structure Expires (now : Int) (m m' : TimerManager κ) (cbs : List (Option κ)) : Prop where
  /-- A one-shot timer is left as it is, in the set or out of it, or its callback is emitted. -/
  once : ∀ a t, m.timer a = some t → t.recurring = false →
    (m'.timer a = some t ∧ (a ∈ m.timers → a ∈ m'.timers)) ∨
      (m'.timer a = some { t with cb := none } ∧ t.cb ∈ cbs)
  /-- What is emitted is the callback of a timer in the set, due if no rollover was detected. -/
  emitted : ∀ c, some c ∈ cbs → ∃ a ∈ m.timers, ∃ t, m.timer a = some t ∧ t.cb = some c ∧
    ((m.detectClockRollover now).1 = false → t.next ≤ now)
  subset : ∀ a ∈ m'.timers, a ∈ m.timers
  cb : ∀ a t', m'.timer a = some t' → ∃ t, m.timer a = some t ∧ (t'.cb = none ∨ t'.cb = t.cb)
  previouseTime : m'.previouseTime = m.previouseTime ∨ m'.previouseTime = now

theorem Expires.of_same (htimer : m'.timer = m.timer) (htimers : m'.timers = m.timers)
    (hprev : m'.previouseTime = m.previouseTime ∨ m'.previouseTime = now) :
    Expires now m m' [] where
  once := fun _ _ ht _ => .inl ⟨htimer ▸ ht, fun ha => htimers ▸ ha⟩
  emitted := nofun
  subset := fun _ ha => htimers ▸ ha
  cb := fun _ t' ht' => ⟨t', htimer ▸ ht', .inr rfl⟩
  previouseTime := hprev

/-- The part of `listExpiredCb` after the early returns. -/
theorem Expires.of_split (m : TimerManager κ) (now : Int) (probe : Nat) {rollover : Bool}
    (hroll : (m.detectClockRollover now).1 = false → rollover = false) {m₁ : TimerManager κ}
    (hm₁ : m₁ = { m with previouseTime := now }) :
    Expires now m
      (emitExpired now (m₁.splitExpired rollover now probe).1
        { m₁ with timers := (m₁.splitExpired rollover now probe).2 }).2
      (emitExpired now (m₁.splitExpired rollover now probe).1
        { m₁ with timers := (m₁.splitExpired rollover now probe).2 }).1 := by
  have htimer : m₁.timer = m.timer := by rw [hm₁]
  have htimers : m₁.timers = m.timers := by rw [hm₁]
  have hprev : m₁.previouseTime = now := by rw [hm₁]
  clear hm₁
  obtain ⟨hcover, htaken, hleft⟩ := m₁.splitExpired_spec rollover now probe
  rw [htimers] at hcover htaken hleft
  generalize m₁.splitExpired rollover now probe = e at hcover htaken hleft
  have hemits := emitExpired_emits now e.1 { m₁ with timers := e.2 }
  constructor
  · intro a t ht honce
    rw [← htimer] at ht
    -- the loop over the expired timers touches no other timer
    by_cases hae : a ∈ e.1
    · exact .inr (hemits.once a hae t ht honce)
    · refine .inl ⟨(hemits.other a hae).trans ht, fun ha => hemits.mem a ?_⟩
      exact (hcover a ha).resolve_left hae
  · intro c hc
    obtain ⟨a, hae, t, ht, hcb⟩ := hemits.emitted _ hc
    refine ⟨a, (htaken a hae).1, t, htimer ▸ ht, (hcb.resolve_right nofun).symm, fun hnone => ?_⟩
    have hnext : m₁.next a = t.next := by
      have ht' : m₁.timer a = some t := ht
      simp [next, ht']
    exact hnext ▸ (htaken a hae).2 (hroll hnone)
  · intro a ha
    rcases hemits.subset a ha with ha | ha
    · exact hleft a ha
    · exact (htaken a ha).1
  · intro a t' ht'
    obtain ⟨t, ht, hcb⟩ := hemits.cb a t' ht'
    exact ⟨t, htimer ▸ ht, hcb⟩
  · exact .inr (hemits.previouseTime.trans hprev)

theorem listExpiredCb_expires (m : TimerManager κ) (now : Int) (probe : Nat) :
    Expires now m (m.listExpiredCb now probe).2 (m.listExpiredCb now probe).1 := by
  unfold listExpiredCb
  split
  · exact .of_same rfl rfl (.inl rfl)
  dsimp only
  split
  · exact .of_same rfl rfl (.inr rfl)
  exact .of_split m now probe id rfl

/-! ## The calls that user code makes -/

/-- A call on a manager or on one of its timers. -/
inductive Call (κ : Type) where
  | addTimer (a : Nat) (ms : Int) (cb : Option κ) (recurring : Bool)
  | cancel (a : Nat)
  | refresh (a : Nat)
  | reset (a : Nat) (ms : Int) (fromNow : Bool)
  deriving DecidableEq

/-- The manager after a call at clock reading `now`. -/
def perform (m : TimerManager κ) (call : Call κ) (now : Int) : Option (TimerManager κ) :=
  match call with
  | .addTimer a ms cb recurring => (m.addTimer a now ms cb recurring).map Prod.snd
  | .cancel a => (m.cancel a).map Prod.snd
  | .refresh a => (m.refresh a now).map Prod.snd
  | .reset a ms fromNow => (m.reset a now ms fromNow).map fun r => r.2.2

/-- The timer a call is made for. -/
def Call.address : Call κ → Nat
  | .addTimer a _ _ _ | .cancel a | .refresh a | .reset a _ _ => a

/-- A call adds a fresh timer or touches one timer alone. -/
theorem perform_cases {call : Call κ} (h : m.perform call now = some m') :
    (∃ a ms cb recurring, call = .addTimer a ms cb recurring ∧
      Adds a ⟨recurring, ms, now + ms, cb⟩ m m') ∨
    ((∀ a ms cb recurring, call ≠ .addTimer a ms cb recurring) ∧ OnlyAt call.address m m') := by
  cases call with
  | addTimer a ms cb recurring =>
    obtain ⟨r, hadd, rfl⟩ := Option.map_eq_some_iff.mp h
    exact .inl ⟨a, ms, cb, recurring, rfl, addTimer_adds hadd⟩
  | cancel a =>
    obtain ⟨r, hcancel, rfl⟩ := Option.map_eq_some_iff.mp h
    exact .inr ⟨nofun, cancel_onlyAt hcancel⟩
  | refresh a =>
    obtain ⟨r, hrefresh, rfl⟩ := Option.map_eq_some_iff.mp h
    exact .inr ⟨nofun, refresh_onlyAt hrefresh⟩
  | reset a ms fromNow =>
    obtain ⟨r, hreset, rfl⟩ := Option.map_eq_some_iff.mp h
    exact .inr ⟨nofun, reset_onlyAt hreset⟩

end TimerManager
