-- SUMMARY: Nobody starves in the task queue: how many scans may pass a task over, and that a task some worker may take is completed.
import Mathlib.Order.Interval.Finset.Nat
import MyCoroutine.Lib.EndlessRun
import MyCoroutine.Scheduler.Conservation

/-! # Waiting in the queue

`schedule` appends to `m_tasks` and a scan starts at its front. A scan that could take a
task takes it or one ahead of it, so the place of a task bounds how often it is passed
over, whatever is scheduled behind it. -/

namespace Scheduler

open Filter TransitionSystem

variable {τ : Type} [DecidableEq τ] {W : List τ} {s s' : State τ} {a : Label τ}
  {G : State τ → Label τ → Prop} {k m n : ℕ}

/-- The step is a scan of a thread that may take the push number `k`. -/
def State.chance (s : State τ) (k : Nat) : Label τ → Bool
  | .scan t => s.tasks.any fun e => e.seq = k && eligible t s.fiberState e
  | _ => false

/-- The entries ahead of the push number `k`. -/
def State.ahead (s : State τ) (k : Nat) : Nat :=
  s.queued.idxOf k

/-! ## One step -/

/-- Only `schedule` and the scan change the queue. -/
theorem Step.queue (h : Step W s a s') :
    (∃ caller task, a = .schedule caller task ∧ s' = s.schedule task) ∨
      (∃ t, a = .scan t ∧ TakesFirst s s' t) ∨ ((∀ t, a ≠ .scan t) ∧ s'.tasks = s.tasks) := by
  cases h with
  | schedule caller task => exact .inl ⟨caller, task, rfl, rfl⟩
  | take t e ht hpc he => exact .inr (.inl ⟨t, rfl, (Step.take t e ht hpc he).takesFirst⟩)
  | leave t ht hpc hnone hterm =>
    exact .inr (.inl ⟨t, rfl, (Step.leave t ht hpc hnone hterm).takesFirst⟩)
  | rest t ht hpc hnone hterm =>
    exact .inr (.inl ⟨t, rfl, (Step.rest t ht hpc hnone hterm).takesFirst⟩)
  | idle t =>
    refine .inr (.inr ⟨nofun, ?_⟩)
    unfold State.idleTurn
    split <;> rfl
  | resume | yield | finish | save | complete | stop | outside => exact .inr (.inr ⟨nofun, rfl⟩)

omit [DecidableEq τ] in
theorem schedule_queued (s : State τ) (task : ScheduleTask τ) :
    ∃ l, (∀ k ∈ l, k = s.pushed.length) ∧ (s.schedule task).queued = s.queued ++ l := by
  unfold State.queued State.schedule scheduleNoLock
  dsimp only
  split
  · exact ⟨[s.pushed.length], by simp, by simp⟩
  · exact ⟨[], by simp, by simp⟩

theorem Step.queued_of (h : Step W s a s') (hk : k < s.pushed.length) (hk' : k ∈ s'.queued) :
    k ∈ s.queued := by
  obtain ⟨caller, task, rfl, rfl⟩ | ⟨t, rfl, htakes⟩ | ⟨hscan, htasks⟩ := h.queue
  · obtain ⟨l, hl, hqueued⟩ := schedule_queued s task
    rw [hqueued, List.mem_append] at hk'
    exact hk'.resolve_right fun hmem => Nat.ne_of_lt hk (hl k hmem)
  · unfold State.queued at hk' ⊢
    obtain ⟨pre, e, post, htasks, hrest, -⟩ | ⟨htasks, -⟩ := htakes
    · rw [hrest, List.map_append, List.mem_append] at hk'
      rw [htasks, List.map_append, List.map_cons, List.mem_append, List.mem_cons]
      tauto
    · rwa [htasks] at hk'
  · rwa [State.queued, htasks] at hk'

/-- Who leaves the queue moves those behind it one place up. -/
theorem idxOf_remove (l₁ l₂ : List Nat) {x : Nat} (hx : x ≠ k) :
    (l₁ ++ l₂).idxOf k + (if k ∈ l₁ then 0 else 1) = (l₁ ++ x :: l₂).idxOf k := by
  by_cases hmem : k ∈ l₁
  · rw [if_pos hmem, List.idxOf_append_of_mem hmem, List.idxOf_append_of_mem hmem]
    rfl
  · rw [if_neg hmem, List.idxOf_append_of_notMem hmem, List.idxOf_append_of_notMem hmem,
      List.idxOf_cons_ne l₂ hx]
    omega

omit [DecidableEq τ] in
theorem Conserved.entry_unique (h : Conserved W s) {e x : TaskEntry τ} (he : e ∈ s.tasks)
    (hx : x ∈ s.tasks) (hseq : e.seq = x.seq) : e = x :=
  List.inj_on_of_nodup_map (List.Nodup.of_append_left (List.Nodup.of_append_left h.nodup)) he hx
    hseq

/-- A task does not fall behind, and moves up at each scan that could have taken it. -/
theorem Conserved.ahead_step (h : Conserved W s) (hk : k ∈ s.queued) (hstep : Step W s a s')
    (hk' : k ∈ s'.queued) :
    s'.ahead k + (if s.chance k a then 1 else 0) ≤ s.ahead k := by
  unfold State.ahead
  obtain ⟨caller, task, rfl, rfl⟩ | ⟨t, rfl, htakes⟩ | ⟨hscan, htasks⟩ := hstep.queue
  · obtain ⟨l, -, hqueued⟩ := schedule_queued s task
    rw [hqueued, List.idxOf_append_of_mem hk]
    exact Nat.le_refl _
  · obtain ⟨pre, e, post, htasks, hrest, -, -, hpre⟩ | ⟨htasks, -, hnone⟩ := htakes
    · have hqueued : s.queued = pre.map TaskEntry.seq ++ e.seq :: post.map TaskEntry.seq := by
        simp [State.queued, htasks]
      have hqueued' : s'.queued = pre.map TaskEntry.seq ++ post.map TaskEntry.seq := by
        simp [State.queued, hrest]
      rw [hqueued'] at hk' ⊢
      have hne : e.seq ≠ k := by
        rintro rfl
        have hnodup := List.Nodup.of_append_left (List.Nodup.of_append_left h.nodup)
        rw [hqueued] at hnodup
        exact (List.nodup_middle.mp hnodup).notMem hk'
      rw [hqueued, ← idxOf_remove _ _ hne]
      apply Nat.add_le_add_left
      split
      · rename_i hchance
        -- the entry it could have taken is not one it passed over
        rw [if_neg]
        intro hmem
        obtain ⟨x, hx, rfl⟩ := List.mem_map.mp hmem
        simp only [State.chance, List.any_eq_true, Bool.and_eq_true, decide_eq_true_eq] at hchance
        obtain ⟨y, hy, hseq, helig⟩ := hchance
        have hyx : y = x := h.entry_unique hy (by rw [htasks]; simp [hx]) hseq
        rw [hyx, hpre x hx] at helig
        cases helig
      · exact Nat.zero_le _
    · have hchance : s.chance k (.scan t) = false := by
        simp only [State.chance, List.any_eq_false, Bool.and_eq_true, not_and]
        intro x hx _
        rw [hnone x hx]
        exact Bool.false_ne_true
      rw [hchance, State.queued, htasks]
      exact Nat.le_refl _
  · have hchance : s.chance k a = false := by
      cases a with
      | scan t => exact absurd rfl (hscan t)
      | _ => rfl
    rw [hchance, State.queued, htasks]
    exact Nat.le_refl _

/-- A task in the hands of a thread stays there until it is completed. -/
theorem Step.holding_kept {t : τ} {e : TaskEntry τ} (h : Step W s a s')
    (he : (s.pc t).holding = some e) :
    (s'.pc t).holding = some e ∨ e.seq ∈ s'.finished := by
  have other {s₁ : State τ} {u : τ} {pc : Pc τ} (hs₁ : s₁.pc = s.pc)
      (hpc : t = u → pc.holding = some e) : ((s₁.setPc u pc).pc t).holding = some e := by
    rw [State.setPc_pc]
    split
    · rename_i htu
      exact hpc htu
    · rwa [hs₁]
  have here {u : τ} {pc : Pc τ} (hpc : s.pc u = pc) (htu : t = u) : pc.holding = some e := by
    rw [← hpc, ← htu, he]
  cases h with
  | schedule | stop | outside => exact .inl he
  | take u x ht hpc => exact .inl (other rfl fun htu => by cases here hpc htu)
  | leave u ht hpc => exact .inl (other rfl fun htu => by cases here hpc htu)
  | rest u ht hpc => exact .inl (other rfl fun htu => by cases here hpc htu)
  | resume u x f y ht hpc | yield u x f y ht hpc | finish u x f y ht hpc | save u x f y ht hpc =>
    exact .inl (other rfl fun htu => by simpa [Pc.holding] using here hpc htu)
  | complete u x ht hpc =>
    by_cases htu : t = u
    · cases here hpc htu
      exact .inr (List.mem_append_right _ (List.mem_singleton_self _))
    · exact .inl (other rfl fun h => absurd h htu)
  | idle u ht hpc =>
    left
    unfold State.idleTurn
    split <;> exact other rfl fun htu => by cases here hpc htu

theorem Step.finished_subset (h : Step W s a s') : s.finished ⊆ s'.finished := by
  cases h with
  | idle =>
    unfold State.idleTurn
    split <;> exact List.Subset.refl _
  | complete => exact List.subset_append_left _ _
  | _ => exact List.Subset.refl _

theorem Step.pushed_grows (h : Step W s a s') : s.pushed <+: s'.pushed := by
  cases h with
  | schedule caller task =>
    unfold State.schedule
    dsimp only
    split
    · exact List.prefix_append _ _
    · exact List.prefix_refl _
  | idle =>
    unfold State.idleTurn
    split <;> exact List.prefix_refl _
  | _ => exact List.prefix_refl _

/-! ## Every run -/

/-- At moment `i` a thread scans that may take the push number `k`. -/
def chanceAt (r : (system W).Run G) (k i : Nat) : Bool :=
  (r.label i).any ((r.state i).chance k)

theorem pushed_mono (r : (system W).Run G) (hmn : m ≤ n) :
    (r.state m).pushed <+: (r.state n).pushed :=
  Preserved.path (I := fun s => (r.state m).pushed <+: s.pushed)
    (fun _ _ _ h _ hstep => h.trans (step_cases hstep).pushed_grows) (r.path hmn)
    (List.prefix_refl _)

theorem queued_of_next (r : (system W).Run G) (hk : k < (r.state n).pushed.length)
    (h : k ∈ (r.state (n + 1)).queued) : k ∈ (r.state n).queued := by
  cases hlabel : r.label n with
  | none => rwa [r.state_of_none hlabel] at h
  | some a => exact (step_cases (r.step_of_some hlabel).2).queued_of hk h

theorem ahead_next (hW : W.Nodup) (r : (system W).Run G) (hk : k ∈ (r.state n).queued)
    (h : k ∈ (r.state (n + 1)).queued) :
    (r.state (n + 1)).ahead k + (if chanceAt r k n then 1 else 0) ≤ (r.state n).ahead k := by
  unfold chanceAt
  cases hlabel : r.label n with
  | none =>
    rw [r.state_of_none hlabel]
    exact Nat.le_refl _
  | some a =>
    exact (conserved_of_reachable hW (r.reachable n)).ahead_step hk
      (step_cases (r.step_of_some hlabel).2) h

omit [DecidableEq τ] in
theorem Conserved.lt_pushed (h : Conserved W s) (hk : k ∈ s.queued) : k < s.pushed.length :=
  List.mem_range.mp (h.places.subset (by simp [hk]))

/-- While a task waits, the scans that could have taken it and the tasks that are still
ahead of it are together no more than the tasks that were ahead of it. -/
theorem passed_over_le (hW : W.Nodup) (r : (system W).Run G) (hm : k ∈ (r.state m).queued)
    (hmn : m ≤ n) (hn : k ∈ (r.state n).queued) :
    ((Finset.Ico m n).filter fun i => chanceAt r k i).card + (r.state n).ahead k ≤
      (r.state m).ahead k := by
  have hlt : k < (r.state m).pushed.length :=
    (conserved_of_reachable hW (r.reachable m)).lt_pushed hm
  induction n, hmn using Nat.le_induction with
  | base => simp
  | succ n hmn ih =>
    have hk : k ∈ (r.state n).queued :=
      queued_of_next r (Nat.lt_of_lt_of_le hlt (pushed_mono r hmn).length_le) hn
    have hnext := ahead_next hW r hk hn
    have hcard : ((Finset.Ico m (n + 1)).filter fun i => chanceAt r k i).card =
        ((Finset.Ico m n).filter fun i => chanceAt r k i).card +
          if chanceAt r k n then 1 else 0 := by
      rw [Nat.Ico_succ_right_eq_insert_Ico hmn, Finset.filter_insert]
      split
      · exact Finset.card_insert_of_notMem (by simp)
      · rfl
    have := ih hk
    omega

/-- Three callbacks; thread 1 takes the one behind the other two, which are pinned to
thread 0, and thread 0 then takes them in order. -/
def waitingRun : List (Label Nat) :=
  [.schedule none (.ofCb (some 5) (some 0)), .schedule none (.ofCb (some 6) (some 0)),
    .schedule none (.ofCb (some 7) none), .scan 1, .resume 1, .scan 0, .resume 0, .finish 0,
    .save 0, .finish 1, .complete 0, .scan 0, .save 1, .resume 0, .complete 1, .finish 0,
    .save 0, .complete 0]

theorem waitingRun_replay :
    ((system [0, 1]).replay (fun _ _ => true) start waitingRun).isSome = true := by
  decide

theorem passed_over_le_waitingRun :
    ∃ r : (system [0, 1]).Run free, 1 ∈ (r.state 3).queued ∧ 1 ∈ (r.state 11).queued ∧
      ((Finset.Ico 3 11).filter fun i => chanceAt r 1 i).card + (r.state 11).ahead 1 ≤
        (r.state 3).ahead 1 := by
  obtain ⟨r, hr⟩ := Run.exists_of_replay (G := free) (fun _ _ _ => trivial) start_initial
    waitingRun_replay
  have h₁ : 1 ∈ (r.state 3).queued := by
    simpa using (hr 3).2 (fun s => s.queued.contains 1) (by decide)
  have h₂ : 1 ∈ (r.state 11).queued := by
    simpa using (hr 11).2 (fun s => s.queued.contains 1) (by decide)
  exact ⟨r, h₁, h₂, passed_over_le (by decide) r h₁ (by decide) h₂⟩

/-- Nobody starves: where no thread keeps a task for ever, a task is completed unless from
some moment on no scan could have taken it. -/
theorem completed_of_chances (hW : W.Nodup) (r : (system W).Run G)
    (hreturns : ∀ t ∈ W, ∃ᶠ n in atTop, ((r.state n).pc t).holding = none)
    (hk : k < (r.state m).pushed.length)
    (hchances : ∃ᶠ n in atTop, k ∈ (r.state n).queued → chanceAt r k n = true) :
    ∃ n, m ≤ n ∧ k ∈ (r.state n).finished := by
  have hpushed {n : ℕ} (hmn : m ≤ n) : k < (r.state n).pushed.length :=
    Nat.lt_of_lt_of_le hk (pushed_mono r hmn).length_le
  have hback {n : ℕ} (hmn : m ≤ n) (h : k ∈ (r.state (n + 1)).queued) : k ∈ (r.state n).queued :=
    queued_of_next r (hpushed hmn) h
  -- its place in the queue drops at each scan that could have taken it
  obtain ⟨n, hmn, hleft⟩ : ∃ n, m ≤ n ∧ k ∉ (r.state (n + 1)).queued := by
    apply exists_of_measure (f := fun n => (r.state n).ahead k)
    · intro n hmn hn
      have hn := not_not.mp hn
      have := ahead_next hW r (hback hmn hn) hn
      omega
    · refine (hchances.and_eventually (eventually_ge_atTop m)).mono ?_
      rintro n ⟨hchance, hmn⟩ hn
      have hn := not_not.mp hn
      have := ahead_next hW r (hback hmn hn) hn
      rw [if_pos (hchance (hback hmn hn))] at this
      omega
  have hc := conserved_of_reachable hW (r.reachable (n + 1))
  have hcount := hc.count (hpushed (Nat.le_succ_of_le hmn))
  rw [List.count_eq_zero_of_not_mem hleft, Nat.zero_add] at hcount
  by_cases hfinished : k ∈ (r.state (n + 1)).finished
  · exact ⟨n + 1, Nat.le_succ_of_le hmn, hfinished⟩
  -- it is in the hands of a thread, and stays there until it is completed
  rw [List.count_eq_zero_of_not_mem hfinished] at hcount
  have hhands : k ∈ ((r.state (n + 1)).inHands W).map TaskEntry.seq :=
    List.count_pos_iff.mp (by omega)
  obtain ⟨e, he, rfl⟩ := List.mem_map.mp hhands
  obtain ⟨t, ht, he⟩ := Counting.mem_held.mp he
  have hnext (i : ℕ)
      (hi : ((r.state i).pc t).holding = some e ∨ e.seq ∈ (r.state i).finished) :
      ((r.state (i + 1)).pc t).holding = some e ∨ e.seq ∈ (r.state (i + 1)).finished := by
    cases hlabel : r.label i with
    | none => rwa [r.state_of_none hlabel]
    | some a =>
      have hstep := step_cases (r.step_of_some hlabel).2
      rcases hi with hi | hi
      · exact hstep.holding_kept hi
      · exact .inr (hstep.finished_subset hi)
  obtain ⟨i, hni, hkept, hnone⟩ :=
    exists_of_kept (hreturns t ht) (.inl he) fun i _ hi _ => hnext i hi
  rw [hnone] at hkept
  exact ⟨i, by omega, hkept.resolve_left nofun⟩

theorem completed_of_chances_waitingRun :
    ∃ r : (system [0, 1]).Run free, 1 < (r.state 3).pushed.length ∧ 1 ∈ (r.state 3).queued ∧
      ∃ n, 3 ≤ n ∧ 1 ∈ (r.state n).finished := by
  obtain ⟨r, hr⟩ := Run.exists_of_replay (G := free) (fun _ _ _ => trivial) start_initial
    waitingRun_replay
  have hend (p : State Nat → Bool) (h : ((system [0, 1]).replay (fun _ _ => true) start
      waitingRun).any p) : ∀ᶠ n in atTop, p (r.state n) = true := by
    refine eventually_atTop.mpr ⟨waitingRun.length, fun n hn => (hr n).2 p ?_⟩
    rwa [List.take_of_length_le hn]
  have hpushed : 1 < (r.state 3).pushed.length := by
    simpa using (hr 3).2 (fun s => decide (1 < s.pushed.length)) (by decide)
  have hqueued : 1 ∈ (r.state 3).queued := by
    simpa using (hr 3).2 (fun s => s.queued.contains 1) (by decide)
  refine ⟨r, hpushed, hqueued, completed_of_chances (by decide) r (fun t ht => ?_) hpushed ?_⟩
  · refine ((hend (fun s => [0, 1].all fun t => (s.pc t).holding.isNone) (by decide)).mono
      fun n hn => ?_).frequently
    simpa using List.all_eq_true.mp hn t ht
  · refine ((hend (fun s => s.queued.isEmpty) (by decide)).mono fun n hn hk => ?_).frequently
    rw [List.isEmpty_iff.mp hn] at hk
    cases hk

end Scheduler
