-- SUMMARY: What the holder of a timer gets from reset, cancel and refresh: where reset moves the deadline, and when the answer tells that the timer is pending.
import MyCoroutine.Timer.Alarms
import MyCoroutine.Timer.Expiry

/-! # Handles of timers

User code holds a `Timer::ptr` and may call it at any time, after the timer has
expired or was cancelled too. `reset` without `from_now` is meant to keep the
start and to change the interval; it takes the new interval off `m_next` to find
the start, where the old one is due. And it answers true before it looks at the
timer when the interval is the one it has. -/

namespace TimerManager

variable {κ : Type} {m m' : TimerManager κ} {op : Op κ} {ans : Answer κ} {a : Nat} {t : Timer κ}

/-! ## Waiting for a deadline -/

/-- The operation does not name the timer at `a`, and is no `listExpiredCb` that
reads `d` or later or finds the clock set back. -/
def Awaits (a : Nat) (d : Int) (m : TimerManager κ) : Op κ → Prop
  | .cancel b | .refresh b _ | .reset b _ _ _ => b ≠ a
  | .listExpiredCb now _ => (m.detectClockRollover now).1 = false ∧ now < d
  | .addTimer _ _ _ _ _ | .getNextTimer _ => True

/-- The timer at `a` is `t` and is in the set. -/
structure Waiting (a : Nat) (t : Timer κ) (m : TimerManager κ) : Prop where
  ordered : Ordered m
  timer : m.timer a = some t
  mem : a ∈ m.timers

theorem Waiting.of_sets {b : Nat} {u : Timer κ} (h : Waiting a t m) (hba : b ≠ a)
    (hs : Sets b u m m') : Waiting a t m' where
  ordered := h.ordered.of_sets hs
  timer := by rw [hs.timer, if_neg hba.symm, h.timer]
  mem := (hs.mem a).mpr (.inr h.mem)

theorem Waiting.of_operates (h : Waiting a t m) (hg : Awaits a t.next m op)
    (hop : Operates m op ans m') : Waiting a t m' := by
  cases hop with
  | addTimer b now ms cb recurring front m' hfresh hsets =>
    have hba : b ≠ a := by
      rintro rfl
      rw [h.timer] at hfresh
      cases hfresh
    exact h.of_sets hba hsets
  | cancelDead => exact h
  | cancel b u m' hu hcb hdrops =>
    refine ⟨h.ordered.of_drops hdrops rfl, ?_, (hdrops.mem a).mpr ⟨Ne.symm hg, h.mem⟩⟩
    rw [hdrops.timer, if_neg (Ne.symm hg), h.timer]
  | refreshDead => exact h
  | refresh b now u m' hu hcb hsets => exact h.of_sets hg hsets
  | resetSame => exact h
  | resetDead => exact h
  | reset b now ms fromNow front u m' hu hsame hcb hsets => exact h.of_sets hg hsets
  | listExpiredCb now probe m' cbs hcollects =>
    have hnot : a ∉ m.expired now probe := fun ha => by
      have hdue := (hcollects.due hg.1 a h.mem).mp ha
      rw [next_of_timer h.timer] at hdue
      exact absurd hdue (Int.not_le.mpr hg.2)
    refine ⟨h.ordered.of_collects hcollects, ?_, (hcollects.mem a).mpr (.inl ⟨h.mem, hnot⟩)⟩
    rw [hcollects.timer, if_neg hnot, h.timer]
  | getNextTimer now =>
    have hordered := h.ordered.of_operates (.getNextTimer (κ := κ) now)
    exact ⟨hordered, h.timer, h.mem⟩

theorem Waiting.of_path (h : Waiting a t m) (hp : (manager κ).Path (Awaits a t.next) m m') :
    Waiting a t m' := by
  refine TransitionSystem.Preserved.path (I := Waiting a t) ?_ hp h
  intro m op m' hm hg hstep
  obtain ⟨⟨ans, m''⟩, hop, rfl⟩ := Option.map_eq_some_iff.mp hstep
  exact hm.of_operates hg (hm.ordered.operates hop)

theorem Waiting.mem_expired (h : Waiting a t m) (now : Int) (probe : Nat) :
    a ∈ m.expired now probe ↔ (m.detectClockRollover now).1 = true ∨ t.next ≤ now := by
  rw [h.ordered.sorted.mem_expired, due_iff, next_of_timer h.timer]
  exact and_iff_right h.mem

/-! ## reset -/

/-- `reset` on the timer `t` at `a` answers true and gives it the interval `ms` and
the deadline `d`; it is in the set once, and no other timer is touched. From there
on, while no operation names the timer, the first `listExpiredCb` that reads `d` or
later takes it out, and no earlier one does unless it finds the clock set back. -/
def Restarts (m : TimerManager κ) (a : Nat) (t : Timer κ) (now ms : Int) (fromNow : Bool)
    (d : Int) : Prop :=
  ∃ front m', m.reset a now ms fromNow = some (true, front, m') ∧
    Sets a { t with ms := ms, next := d } m m' ∧ m'.timers.Nodup ∧
    ∀ m'', (manager κ).Path (Awaits a d) m' m'' → ∀ n probe,
      m''.timer a = some { t with ms := ms, next := d } ∧
      (a ∈ m''.expired n probe ↔ (m''.detectClockRollover n).1 = true ∨ d ≤ n)

theorem Restarts.of_sets {now ms d : Int} {fromNow front : Bool} (h : Ordered m)
    (hreset : m.reset a now ms fromNow = some (true, front, m'))
    (hs : Sets a { t with ms := ms, next := d } m m') : Restarts m a t now ms fromNow d := by
  have hordered := h.of_sets hs
  have hwaiting : Waiting a { t with ms := ms, next := d } m' :=
    ⟨hordered, (hs.timer a).trans (if_pos rfl), (hs.mem a).mpr (.inl rfl)⟩
  refine ⟨front, m', hreset, hs, OrderedSet.Sorted.nodup m'.less_irrefl hs.sorted, ?_⟩
  intro m'' hp n probe
  have hlater := hwaiting.of_path hp
  exact ⟨hlater.timer, hlater.mem_expired n probe⟩

/-- A timer that was started at `start` is moved to `now + ms` by `reset(ms, true)`.
`reset(ms, false)` moves it to `start + ms` only if `ms` is the interval it has:
otherwise the deadline stays where it was. -/
theorem restarts_iff (h : Ordered m) (ht : m.timer a = some t) (hcb : t.cb ≠ none) {start : Int}
    (hstart : t.next = start + t.ms) (now ms : Int) (fromNow : Bool) :
    Restarts m a t now ms fromNow ((if fromNow then now else start) + ms) ↔
      fromNow = true ∨ ms = t.ms := by
  rcases h.reset ht now ms fromNow with
    ⟨⟨hms, hfrom⟩, heq⟩ | ⟨-, hdead, -⟩ | ⟨hmoves, -, front, m', heq, hsets, -⟩
  · refine iff_of_true ?_ (.inr hms.symm)
    have hself : { t with ms := ms, next := (if fromNow then now else start) + ms } = t := by
      rw [hfrom, ← hms]
      simp [← hstart]
    refine .of_sets h heq ?_
    rw [hself]
    refine ⟨fun b => ?_, fun b => ?_, h.sorted, rfl⟩
    · split
      · rename_i hba
        rw [hba, ht]
      · rfl
    · exact ⟨.inr, fun hb => hb.elim (fun hba => hba ▸ h.kept a t ht hcb) id⟩
  · exact absurd hdead hcb
  · cases hfrom : fromNow with
    | true =>
      refine iff_of_true ?_ (.inl rfl)
      rw [hfrom] at heq hsets
      exact .of_sets h heq hsets
    | false =>
      have hne : ms ≠ t.ms := fun hms => hmoves ⟨hms.symm, hfrom⟩
      refine iff_of_false ?_ (by simp [hne])
      rintro ⟨front', m'', heq', hsets', -⟩
      rw [hfrom] at heq
      rw [heq] at heq'
      cases heq'
      have htimer := (hsets.timer a).symm.trans (hsets'.timer a)
      simp only [if_true, hfrom, Bool.false_eq_true, if_false, Option.some.injEq,
        Timer.mk.injEq] at htimer
      omega

/-- A timer among others. -/
def amongRun : List (Op Nat) :=
  [.addTimer 7 0 300 (some 1) true, .addTimer 4 100 250 (some 2) false,
    .addTimer 9 120 50 (some 3) false]

theorem restarts_iff_amongRun :
    ∃ m, (manager Nat).Reachable TransitionSystem.free m ∧
      Restarts m 4 ⟨false, 250, 350, some 2⟩ 130 40 true 170 ∧
      ¬ Restarts m 4 ⟨false, 250, 350, some 2⟩ 130 40 false 140 := by
  obtain ⟨m, hm, hp⟩ := TransitionSystem.Reachable.of_replay (T := manager Nat)
    (G := TransitionSystem.free) (g := fun _ _ => true) (fun _ _ _ => trivial) (l := amongRun)
    (p := fun m => m.timer 4 == some ⟨false, 250, 350, some 2⟩) ⟨0, rfl⟩ (by decide)
  have ht := beq_iff_eq.mp hp
  have hstart : (350 : Int) = 100 + 250 := rfl
  have hiff := restarts_iff (ordered_of_reachable hm) ht nofun hstart 130 40
  exact ⟨m, hm, (hiff true).mpr (.inl rfl), fun h => by simpa using (hiff false).mp h⟩

/-- The deadline of a timer started at 0 with 1000 ms stays at 1000 when the
interval becomes 10. -/
def shortenRun : List (Op Nat) :=
  [.addTimer 1 0 1000 (some 1) false]

theorem not_restarts_shortenRun :
    ¬ ∀ (m : TimerManager Nat) (a : Nat) (t : Timer Nat) (start : Int),
      (manager Nat).Reachable TransitionSystem.free m → m.timer a = some t → t.cb ≠ none →
      t.next = start + t.ms → ∀ now ms fromNow,
      Restarts m a t now ms fromNow ((if fromNow then now else start) + ms) := by
  intro hall
  obtain ⟨m, hm, hp⟩ := TransitionSystem.Reachable.of_replay (T := manager Nat)
    (G := TransitionSystem.free) (g := fun _ _ => true) (fun _ _ _ => trivial) (l := shortenRun)
    (p := fun m => m.timer 1 == some ⟨false, 1000, 1000, some 1⟩ &&
      ((m.reset 1 5 10 false).any fun r => r.2.2.next 1 == 1000)) ⟨0, rfl⟩ (by decide)
  simp only [Bool.and_eq_true, beq_iff_eq] at hp
  obtain ⟨ht, hstays⟩ := hp
  obtain ⟨front, m', heq, hsets, -⟩ := hall m 1 _ 0 hm ht nofun rfl 5 10 false
  have hnext := next_of_timer ((hsets.timer 1).trans (if_pos rfl))
  rw [heq, Option.any_some, hnext] at hstays
  cases hstays

/-! ## The answers -/

/-- The operation returns: true exactly if the timer at `a` is in the set, and when
it returns false nothing has changed. -/
def Answers (m : TimerManager κ) (a : Nat) (r : Option (Bool × TimerManager κ)) : Prop :=
  ∃ ok m', r = some (ok, m') ∧ (ok = true ↔ a ∈ m.timers) ∧ (ok = false → m' = m)

/-- `reset`, as far as its caller can see. -/
def resetAnswer (m : TimerManager κ) (a : Nat) (now ms : Int) (fromNow : Bool) :
    Option (Bool × TimerManager κ) :=
  (m.reset a now ms fromNow).map fun r => (r.1, r.2.2)

theorem live_of_reachable (h : (manager κ).Reachable (fun _ op => op.Given) m) :
    Ordered m ∧ Live m := by
  refine TransitionSystem.Preserved.reachable (I := fun m => Ordered m ∧ Live m) ?_ ?_ h
  · rintro m op m' ⟨ho, hl⟩ hg hstep
    obtain ⟨⟨ans, m''⟩, hop, rfl⟩ := Option.map_eq_some_iff.mp hstep
    have hoperates := ho.operates hop
    exact ⟨ho.of_operates hoperates, hl.of_operates hg hoperates⟩
  · rintro m ⟨now, rfl⟩
    exact ⟨init_ordered now, nofun⟩

/-- A timer is pending as long as it has its callback. -/
theorem Live.mem_iff (h : Live m) (ho : Ordered m) (ht : m.timer a = some t) :
    a ∈ m.timers ↔ t.cb ≠ none := by
  refine ⟨fun ha => ?_, ho.kept a t ht⟩
  obtain ⟨u, hu, hcb⟩ := h a ha
  obtain rfl : u = t := Option.some.inj (hu.symm.trans ht)
  exact hcb

theorem Answers.of_false {r : Option (Bool × TimerManager κ)} (ha : a ∉ m.timers)
    (hr : r = some (false, m)) : Answers m a r :=
  ⟨false, m, hr, by simp [ha], fun _ => rfl⟩

theorem Answers.of_true {r : Option (Bool × TimerManager κ)} (ha : a ∈ m.timers)
    (hr : r = some (true, m')) : Answers m a r :=
  ⟨true, m', hr, by simp [ha], nofun⟩

/-- In every run, for every timer that was ever made, `cancel`, `refresh` and `reset`
answer whether the timer is pending and change nothing when it is not, except that
`reset` with the interval the timer has, and not from now, answers true even when
the timer is over. -/
theorem answers_iff (h : (manager κ).Reachable (fun _ op => op.Given) m)
    (ht : m.timer a = some t) (now ms : Int) (fromNow : Bool) :
    (Answers m a (m.cancel a) ∧ Answers m a (m.refresh a now) ∧
      Answers m a (m.resetAnswer a now ms fromNow)) ↔
      a ∈ m.timers ∨ ms ≠ t.ms ∨ fromNow = true := by
  obtain ⟨ho, hl⟩ := live_of_reachable h
  have hmem := hl.mem_iff ho ht
  have hcancel : Answers m a (m.cancel a) := by
    rcases ho.cancel ht with ⟨hcb, heq⟩ | ⟨hcb, m', heq, -⟩
    · exact .of_false (by simp [hmem, hcb]) heq
    · exact .of_true (hmem.mpr hcb) heq
  have hrefresh : Answers m a (m.refresh a now) := by
    rcases ho.refresh ht now with ⟨hcb, heq⟩ | ⟨hcb, m', heq, -⟩
    · exact .of_false (by simp [hmem, hcb]) heq
    · exact .of_true (hmem.mpr hcb) heq
  have hreset : Answers m a (m.resetAnswer a now ms fromNow) ↔
      a ∈ m.timers ∨ ms ≠ t.ms ∨ fromNow = true := by
    rcases ho.reset ht now ms fromNow with
      ⟨⟨hms, hfrom⟩, heq⟩ | ⟨hsame, hcb, heq⟩ | ⟨hsame, hcb, front, m', heq, -⟩
    · -- the early return, before the callback is looked at
      have hr : m.resetAnswer a now ms fromNow = some (true, m) := by rw [resetAnswer, heq]; rfl
      constructor
      · rintro ⟨ok, m', heq', hok, -⟩
        rw [hr] at heq'
        cases heq'
        exact .inl (hok.mp rfl)
      · intro hor
        exact .of_true (hor.resolve_right (by simp [hms, hfrom])) hr
    · refine iff_of_true (.of_false (by simp [hmem, hcb]) (by rw [resetAnswer, heq]; rfl)) ?_
      have : ¬ (t.ms = ms) ∨ fromNow = true := by
        rw [not_and_or, Bool.not_eq_false] at hsame
        exact hsame
      exact .inr (this.imp_left fun hne heq => hne heq.symm)
    · have ha := hmem.mpr hcb
      exact iff_of_true (.of_true ha (by rw [resetAnswer, heq]; rfl)) (.inl ha)
  rw [hreset]
  exact ⟨fun hall => hall.2.2, fun hor => ⟨hcancel, hrefresh, hor⟩⟩

/-- One timer expires, one is cancelled, and one is left. -/
def outlivedRun : List (Op Nat) :=
  [.addTimer 1 0 100 (some 1) false, .addTimer 2 0 200 (some 2) true,
    .addTimer 3 0 300 (some 3) false, .listExpiredCb 150 0, .cancel 2]

instance (op : Op Nat) : Decidable op.Given :=
  match op with
  | .addTimer _ _ _ cb _ => decidable_of_iff (cb.isSome = true) Option.isSome_iff_ne_none
  | .cancel _ | .refresh _ _ | .reset _ _ _ _ | .listExpiredCb _ _ | .getNextTimer _ =>
    .isTrue trivial

theorem answers_iff_outlivedRun :
    ∃ m, (manager Nat).Reachable (fun _ op => op.Given) m ∧ m.timers = [3] ∧
      Answers m 1 (m.cancel 1) ∧ Answers m 2 (m.refresh 2 160) ∧
      Answers m 3 (m.resetAnswer 3 160 300 false) ∧
      ¬ Answers m 1 (m.resetAnswer 1 160 100 false) := by
  obtain ⟨m, hm, hp⟩ := TransitionSystem.Reachable.of_replay (T := manager Nat)
    (G := fun _ op => op.Given) (g := fun _ op => decide op.Given)
    (fun _ _ h => of_decide_eq_true h) (l := outlivedRun)
    (p := fun m => m.timers == [3] && m.timer 1 == some ⟨false, 100, 100, none⟩ &&
      m.timer 2 == some ⟨true, 200, 200, none⟩ && m.timer 3 == some ⟨false, 300, 300, some 3⟩)
    ⟨0, rfl⟩ (by decide)
  simp only [Bool.and_eq_true, beq_iff_eq] at hp
  obtain ⟨⟨⟨htimers, h1⟩, h2⟩, h3⟩ := hp
  obtain ⟨hcancel, hrefresh, -⟩ := (answers_iff hm h1 160 50 true).mpr (.inr (.inr rfl))
  have hcancelled := (answers_iff hm h2 160 50 true).mpr (.inr (.inr rfl))
  have hreset := (answers_iff hm h3 160 300 false).mpr (.inl (by simp [htimers]))
  refine ⟨m, hm, htimers, hcancel, hcancelled.2.1, hreset.2.2, fun hanswers => ?_⟩
  have hor := (answers_iff hm h1 160 100 false).mp ⟨hcancel, hrefresh, hanswers⟩
  simp [htimers] at hor

/-- A one-shot timer expires. -/
def expiredRun : List (Op Nat) :=
  [.addTimer 1 0 100 (some 1) false, .listExpiredCb 150 0]

/-- `reset` with its old interval tells the holder that the timer is pending. -/
theorem not_answers_expiredRun :
    ¬ ∀ (m : TimerManager Nat) (a : Nat) (t : Timer Nat),
      (manager Nat).Reachable (fun _ op => op.Given) m → m.timer a = some t →
      ∀ now ms fromNow, Answers m a (m.cancel a) ∧ Answers m a (m.refresh a now) ∧
        Answers m a (m.resetAnswer a now ms fromNow) := by
  intro hall
  obtain ⟨m, hm, hp⟩ := TransitionSystem.Reachable.of_replay (T := manager Nat)
    (G := fun _ op => op.Given) (g := fun _ op => decide op.Given)
    (fun _ _ h => of_decide_eq_true h) (l := expiredRun)
    (p := fun m => m.timers == [] && m.timer 1 == some ⟨false, 100, 100, none⟩ &&
      ((m.resetAnswer 1 160 100 false).map Prod.fst == some true)) ⟨0, rfl⟩ (by decide)
  simp only [Bool.and_eq_true, beq_iff_eq] at hp
  obtain ⟨⟨htimers, ht⟩, htrue⟩ := hp
  obtain ⟨-, -, ok, m', heq, hok, -⟩ := hall m 1 _ hm ht 160 100 false
  rw [heq, Option.map_some, Option.some.injEq] at htrue
  have hmem := hok.mp htrue
  simp [htimers] at hmem

end TimerManager
