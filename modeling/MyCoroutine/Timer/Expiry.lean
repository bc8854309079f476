-- SUMMARY: What listExpiredCb takes out of a sorted set, exactly: the timers that are due, in the order of the set; and that getNextTimer foretells when it takes any.
import MyCoroutine.Timer.Order

/-! # Expiry

`listExpiredCb` finds the timers to take out by a search with a probe timer, a
walk over the timers that tie with it, a look at the first timer alone, or not at
all after a rollover. In a sorted set all of this is one filter. `getNextTimer`
looks at the first timer only, and agrees with the filter. -/

namespace TimerManager

variable {κ : Type} {m : TimerManager κ}

/-- What `listExpiredCb` is to take out at clock reading `now`. -/
def due (m : TimerManager κ) (now : Int) (a : Nat) : Bool :=
  (m.detectClockRollover now).1 || m.next a ≤ now

theorem due_iff (m : TimerManager κ) (now : Int) (a : Nat) :
    m.due now a = true ↔ (m.detectClockRollover now).1 = true ∨ m.next a ≤ now := by
  simp [due]

/-- A list that is cut in elements that satisfy `p` and elements that do not. -/
theorem eq_filter_of_append {α : Type} {p : α → Bool} {l pre post : List α} (h : pre ++ post = l)
    (hpre : ∀ a ∈ pre, p a = true) (hpost : ∀ a ∈ post, p a = false) : pre = l.filter p := by
  rw [← h, List.filter_append, List.filter_eq_self.mpr hpre,
    List.filter_eq_nil_iff.mpr fun a ha => by simp [hpost a ha], List.append_nil]

/-! ## The cut is a filter -/

theorem Sorted.splitExpired_eq_filter (h : m.Sorted) (now : Int) (probe : Nat) :
    let r := m.detectClockRollover now
    (r.2.splitExpired r.1 now probe).1 = m.timers.filter (m.due now) := by
  intro r
  have happend := splitExpired_append r.2 r.1 now probe
  have htaken := (splitExpired_spec r.2 r.1 now probe).2.1
  cases hroll : r.1 with
  | true =>
    have hall : ∀ a ∈ m.timers, m.due now a = true := fun a _ => (m.due_iff now a).mpr (.inl hroll)
    exact (List.filter_eq_self.mpr hall).symm
  | false =>
    rw [hroll] at happend htaken
    refine eq_filter_of_append happend (fun a ha => ?_) fun a ha => ?_
    · have hle : m.next a ≤ now := (htaken a ha).2 rfl
      exact (m.due_iff now a).mpr (.inr hle)
    · have hr : r.2.Sorted := h.of_next rfl fun _ _ => rfl
      have hlt : now < m.next a := hr.not_due now probe ha
      rw [Bool.eq_false_iff, ne_eq, due_iff, not_or]
      exact ⟨by rw [hroll]; exact Bool.false_ne_true, Int.not_le.mpr hlt⟩

/-- Wherever the probe timer lies, `listExpiredCb` takes out the timers that are due. -/
theorem Sorted.expired_eq_filter (h : m.Sorted) (now : Int) (probe : Nat) :
    m.expired now probe = m.timers.filter (m.due now) := by
  cases hl : m.timers with
  | nil => simp [expired, hl]
  | cons first rest =>
    simp only [expired, hl]
    split
    · rename_i hearly
      -- the first timer is not due, so none is
      refine (List.filter_eq_nil_iff.mpr fun a ha => ?_).symm
      have hle := h.head_le (by rw [hl]; rfl) (hl ▸ ha)
      rw [due_iff, hearly.1]
      simp only [Bool.false_eq_true, false_or]
      omega
    · rw [← hl]
      exact h.splitExpired_eq_filter now probe

theorem Sorted.mem_expired (h : m.Sorted) (now : Int) (probe a : Nat) :
    a ∈ m.expired now probe ↔ a ∈ m.timers ∧ m.due now a = true := by
  rw [h.expired_eq_filter, List.mem_filter]

/-! ## listExpiredCb -/

/-- What `listExpiredCb` does to a sorted set, wherever its probe timer lies: it
appends the callbacks of the timers that are due, each once and in the order of
the set; a timer that is not due stays as it is, a recurring one that is due is
back under `now + m_ms`, and a one-shot one that is due is out and has lost its
callback. A recurring timer that goes back at or before `now` is not taken again. -/
theorem listExpiredCb_of_sorted (h : m.Sorted) (hmade : ∀ a ∈ m.timers, ∃ t, m.timer a = some t)
    (now : Int) (probe : Nat) (cbs : List (Option κ)) :
    let expired := m.timers.filter (m.due now)
    let m' := (m.listExpiredCb now probe).2
    cbs ++ (m.listExpiredCb now probe).1 =
      cbs ++ expired.map (fun a => (m.timer a).bind Timer.cb) ∧
    (∀ a, a ∈ expired ↔
      a ∈ m.timers ∧ ((m.detectClockRollover now).1 = true ∨ m.next a ≤ now)) ∧
    expired.Nodup ∧ m'.Sorted ∧ m'.timers.Nodup ∧
    (∀ a, a ∉ m.timers → a ∉ m'.timers ∧ m'.timer a = m.timer a) ∧
    ∀ a ∈ m.timers, ∀ t, m.timer a = some t →
      (a ∉ expired → a ∈ m'.timers ∧ m'.timer a = some t) ∧
      (a ∈ expired → t.recurring = true →
        a ∈ m'.timers ∧ m'.timer a = some { t with next := now + t.ms }) ∧
      (a ∈ expired → t.recurring = false →
        a ∉ m'.timers ∧ m'.timer a = some { t with cb := none }) := by
  intro expired m'
  have hc := h.listExpiredCb hmade now probe
  rw [h.expired_eq_filter now probe] at hc
  refine ⟨congrArg (cbs ++ ·) hc.cbs, fun a => ?_, hc.nodup, hc.sorted, ?_, fun a ha => ?_,
    fun a ha t ht => ⟨fun hae => ?_, fun hae hrec => ?_, fun hae hrec => ?_⟩⟩
  · rw [List.mem_filter, due_iff]
  · exact OrderedSet.Sorted.nodup (less_irrefl _) hc.sorted
  · have hae : a ∉ expired := fun hae => ha (hc.subset a hae)
    refine ⟨fun hmem => ?_, (hc.timer a).trans (if_neg hae)⟩
    rcases (hc.mem a).mp hmem with hmem | hmem
    · exact ha hmem.1
    · exact hae hmem.1
  · exact ⟨(hc.mem a).mpr (.inl ⟨ha, hae⟩), ((hc.timer a).trans (if_neg hae)).trans ht⟩
  · refine ⟨(hc.mem a).mpr (.inr ⟨hae, by simp [ht, hrec]⟩), ?_⟩
    rw [hc.timer, if_pos hae, ht, Option.map_some, Timer.rang, if_pos hrec]
  · have hrec' : ¬ t.recurring = true := by simp [hrec]
    refine ⟨fun hmem => ?_, ?_⟩
    · rcases (hc.mem a).mp hmem with hmem | hmem
      · exact hmem.2 hae
      · have := hmem.2
        rw [ht, Option.any_some] at this
        exact hrec' this
    · rw [hc.timer, if_pos hae, ht, Option.map_some, Timer.rang, if_neg hrec']

/-- Three timers with one deadline or the next, the second of them recurring at once. -/
def tiedTimers : TimerManager Nat where
  timer
    | 3 => some ⟨false, 100, 100, some 1⟩
    | 5 => some ⟨true, 0, 100, some 2⟩
    | 8 => some ⟨false, 101, 101, some 3⟩
    | _ => none
  timers := [3, 5, 8]
  tickled := false
  previouseTime := 0

theorem listExpiredCb_of_sorted_tiedTimers :
    [some 9] ++ (tiedTimers.listExpiredCb 100 4).1 = [some 9, some 1, some 2] ∧
      5 ∈ (tiedTimers.listExpiredCb 100 4).2.timers ∧
      (tiedTimers.listExpiredCb 100 4).2.timer 5 = some ⟨true, 0, 100, some 2⟩ := by
  have hmade : ∀ a ∈ tiedTimers.timers, ∃ t, tiedTimers.timer a = some t := fun a ha =>
    Option.isSome_iff_exists.mp ((by decide : ∀ a ∈ tiedTimers.timers,
      (tiedTimers.timer a).isSome = true) a ha)
  have hsorted : tiedTimers.Sorted := by
    unfold Sorted OrderedSet.Sorted
    decide
  obtain ⟨hcbs, -, -, -, -, -, htimers⟩ := listExpiredCb_of_sorted hsorted hmade 100 4 [some 9]
  obtain ⟨-, hrec, -⟩ := htimers 5 (by decide) ⟨true, 0, 100, some 2⟩ rfl
  exact ⟨hcbs, hrec (by decide) rfl⟩

/-! ## getNextTimer -/

theorem getNextTimer_nil (hl : m.timers = []) (now : Int) : (m.getNextTimer now).1 = -1 := by
  simp [getNextTimer, hl]

theorem getNextTimer_cons {first : Nat} {rest : List Nat} (hl : m.timers = first :: rest)
    (now : Int) :
    (m.getNextTimer now).1 = if now ≥ m.next first then 0 else m.next first - now := by
  simp [getNextTimer, hl, next]

/-- Nothing is taken out before the first timer is due. -/
theorem Sorted.expired_eq_nil_iff (h : m.Sorted) {first : Nat} {rest : List Nat}
    (hl : m.timers = first :: rest) {now : Int} (hroll : (m.detectClockRollover now).1 = false)
    (probe : Nat) : m.expired now probe = [] ↔ now < m.next first := by
  rw [h.expired_eq_filter, List.filter_eq_nil_iff]
  simp only [due_iff, hroll, Bool.false_eq_true, false_or, Int.not_le]
  constructor
  · exact fun hall => hall first (hl ▸ List.mem_cons_self)
  · intro hlt a ha
    exact Int.lt_of_lt_of_le hlt (h.head_le (by rw [hl]; rfl) ha)

/-- `getNextTimer` answers -1 for an empty set and for no other, 0 when a timer is
due, and otherwise the time that is left until `listExpiredCb` takes a timer out:
a call before `now + d` emits nothing and one at or after it does. -/
theorem getNextTimer_foretells (h : (manager κ).Reachable TransitionSystem.free m) (now : Int) :
    let d := (m.getNextTimer now).1
    let m' := (m.getNextTimer now).2
    (d = -1 ↔ m.timers = []) ∧ (d = 0 ↔ ∃ a ∈ m.timers, m.next a ≤ now) ∧
    (d ≠ -1 → d ≠ 0 → 0 < d) ∧
    ∀ t probe, now ≤ t → (m'.detectClockRollover t).1 = false →
      (d = -1 → (m'.listExpiredCb t probe).1 = []) ∧
      (d ≠ -1 → ((m'.listExpiredCb t probe).1 = [] ↔ t < now + d)) := by
  intro d m'
  have ho := ordered_of_reachable h
  have hm' : m' = { m with tickled := false } := getNextTimer_snd m now
  have ho' : m'.Sorted := ho.sorted.of_next (by rw [hm']) fun a _ => by rw [hm']; rfl
  have hmade' : ∀ a ∈ m'.timers, ∃ t, m'.timer a = some t := by
    rw [hm']
    exact ho.made
  have hemits (t : Int) (probe : Nat) :
      (m'.listExpiredCb t probe).1 = [] ↔ m'.expired t probe = [] := by
    rw [(ho'.listExpiredCb hmade' t probe).cbs, List.map_eq_nil_iff]
  cases hl : m.timers with
  | nil =>
    have hd : d = -1 := getNextTimer_nil hl now
    have hl' : m'.timers = [] := by rw [hm', ← hl]
    refine ⟨by simp [hd], by simp [hd], fun hne => absurd hd hne, fun t probe _ _ => ⟨?_, ?_⟩⟩
    · intro _
      rw [hemits]
      simp [expired, hl']
    · exact fun hne => absurd hd hne
  | cons first rest =>
    have hd : d = if now ≥ m.next first then 0 else m.next first - now := getNextTimer_cons hl now
    have hl' : m'.timers = first :: rest := by rw [hm', ← hl]
    have hfirst : m'.next first = m.next first := by rw [hm']; rfl
    have hsomeDue : (∃ a ∈ first :: rest, m.next a ≤ now) ↔ m.next first ≤ now := by
      constructor
      · rintro ⟨a, ha, hle⟩
        exact Int.le_trans (ho.sorted.head_le (by rw [hl]; rfl) (hl ▸ ha)) hle
      · exact fun hle => ⟨first, List.mem_cons_self, hle⟩
    rw [hsomeDue]
    refine ⟨?_, ?_, ?_, fun t probe ht hroll => ⟨fun hne => ?_, fun _ => ?_⟩⟩
    · simp only [reduceCtorEq, iff_false]
      split at hd <;> omega
    · split at hd <;> omega
    · split at hd <;> omega
    · split at hd <;> omega
    · rw [hemits, ho'.expired_eq_nil_iff hl' hroll probe, hfirst]
      split at hd <;> omega

/-- A one-shot and a recurring timer, one of them moved. -/
def delayRun : List (Op Nat) :=
  [.addTimer 7 0 100 (some 1) true, .addTimer 4 0 300 (some 2) false, .listExpiredCb 120 0,
    .refresh 4 150]

theorem getNextTimer_foretells_delayRun :
    ∃ m, (manager Nat).Reachable TransitionSystem.free m ∧ m.timers = [7, 4] ∧
      (m.getNextTimer 170).1 = 50 ∧ ((m.getNextTimer 170).2.listExpiredCb 219 0).1 = [] ∧
      ((m.getNextTimer 170).2.listExpiredCb 220 0).1 ≠ [] := by
  obtain ⟨m, hm, hp⟩ := TransitionSystem.Reachable.of_replay (T := manager Nat)
    (G := TransitionSystem.free) (g := fun _ _ => true) (fun _ _ _ => trivial) (l := delayRun)
    (p := fun m => m.timers == [7, 4] && (m.getNextTimer 170).1 == 50 &&
      !((m.getNextTimer 170).2.detectClockRollover 219).1 &&
      !((m.getNextTimer 170).2.detectClockRollover 220).1) ⟨0, rfl⟩ (by decide)
  simp only [Bool.and_eq_true, beq_iff_eq, Bool.not_eq_true'] at hp
  obtain ⟨⟨⟨htimers, hd⟩, hroll⟩, hroll'⟩ := hp
  obtain ⟨-, -, -, hforetells⟩ := getNextTimer_foretells hm 170
  have hbefore := (hforetells 219 0 (by decide) hroll).2 (by rw [hd]; decide)
  have hafter := (hforetells 220 0 (by decide) hroll').2 (by rw [hd]; decide)
  rw [hd] at hbefore hafter
  have hsome : ((m.getNextTimer 170).2.listExpiredCb 220 0).1 ≠ [] := fun hnil =>
    absurd (hafter.mp hnil) (by decide)
  exact ⟨m, hm, htimers, hd, hbefore.mpr (by decide), hsome⟩

end TimerManager
