-- SUMMARY: No task is lost or run twice: where every pushed task is in every reachable state of the scheduler.
import MyCoroutine.Scheduler.Machine

/-! # Conservation of tasks

The invariant `Conserved` accounts for every push: up to order, the numbers in
the queue, the numbers in the hands of the threads and the numbers of the
completed tasks are exactly the numbers given out so far. A step that neither
pushes, takes nor completes leaves all of it alone (`Conserved.of_same`); the
three that do move one number from one place to the next. -/

namespace Scheduler

open Counting
open scoped List

variable {τ : Type} {W : List τ} {s s' : State τ} {a : Label τ}

/-- The tasks in the hands of the threads `W`. -/
def State.inHands (W : List τ) (s : State τ) : List (TaskEntry τ) :=
  held W Pc.holding s.pc

/-- The pushes that are still in the queue. -/
def State.queued (s : State τ) : List Nat :=
  s.tasks.map TaskEntry.seq

structure Conserved (W : List τ) (s : State τ) : Prop where
  entry : ∀ e ∈ s.tasks ++ s.inHands W, s.pushed[e.seq]? = some e.task
  places : s.queued ++ (s.inHands W).map TaskEntry.seq ++ s.finished ~ List.range s.pushed.length
  ordered : s.queued.Pairwise (· < ·)
  active : s.activeThreadCount = (s.inHands W).length
  pinned : ∀ t ∈ W, ∀ e, (s.pc t).holding = some e →
    e.task.thread = none ∨ e.task.thread = some t
  fifo : ∀ i j a b, s.pushed[i]? = some a → s.pushed[j]? = some b → i < j →
    a.fiber = none → b.fiber = none → a.thread = b.thread → i ∈ s.queued → j ∈ s.queued

theorem Initial.conserved (h : Initial s) : Conserved W s := by
  have hhands : s.inHands W = [] := held_eq_nil.mpr fun w _ => by rw [h.pc w]; rfl
  constructor
  · simp [hhands, h.tasks]
  · simp [State.queued, hhands, h.tasks, h.finished, h.pushed]
  · simp [State.queued, h.tasks]
  · simp [hhands, h.active]
  · intro t _ e he
    rw [h.pc t] at he
    cases he
  · intro i j a b ha
    simp [h.pushed] at ha

/-- Steps that push, take and complete nothing. -/
theorem Conserved.of_same (h : Conserved W s) (htasks : s'.tasks = s.tasks)
    (hpushed : s'.pushed = s.pushed) (hfinished : s'.finished = s.finished)
    (hactive : s'.activeThreadCount = s.activeThreadCount)
    (hpc : ∀ t, (s'.pc t).holding = (s.pc t).holding) : Conserved W s' := by
  have hhands : s'.inHands W = s.inHands W := List.filterMap_congr fun t _ => hpc t
  have hqueued : s'.queued = s.queued := by rw [State.queued, htasks, State.queued]
  constructor
  · rw [htasks, hhands, hpushed]; exact h.entry
  · rw [hqueued, hhands, hfinished, hpushed]; exact h.places
  · rw [hqueued]; exact h.ordered
  · rw [hactive, hhands]; exact h.active
  · intro t ht e he
    exact h.pinned t ht e (hpc t ▸ he)
  · rw [hqueued, hpushed]; exact h.fifo

theorem Conserved.nodup (h : Conserved W s) :
    (s.queued ++ (s.inHands W).map TaskEntry.seq ++ s.finished).Nodup :=
  h.places.nodup_iff.mpr List.nodup_range

theorem Conserved.hand_unique (h : Conserved W s) {t u : τ} (ht : t ∈ W) (hu : u ∈ W)
    {e e' : TaskEntry τ} (he : (s.pc t).holding = some e) (he' : (s.pc u).holding = some e')
    (hseq : e.seq = e'.seq) : t = u :=
  held_inj (List.Nodup.of_append_right (List.Nodup.of_append_left h.nodup)) ht hu he he' hseq

theorem Conserved.hand_not_queued (h : Conserved W s) {t : τ} (ht : t ∈ W) {e : TaskEntry τ}
    (he : (s.pc t).holding = some e) : ∀ x ∈ s.tasks, x.seq ≠ e.seq := by
  intro x hx hseq
  have hdisj := List.disjoint_of_nodup_append (List.Nodup.of_append_left h.nodup)
  apply hdisj (List.mem_map_of_mem hx)
  rw [hseq]
  exact List.mem_map_of_mem (mem_held.mpr ⟨t, ht, he⟩)

/-! ## The three steps that move a task -/

theorem Conserved.schedule (h : Conserved W s) (task : ScheduleTask τ) :
    Conserved W (s.schedule task) := by
  cases hne : task.nonEmpty with
  | false =>
    have htasks : (s.schedule task).tasks = s.tasks := by
      simp [State.schedule, scheduleNoLock, hne]
    have hpushed : (s.schedule task).pushed = s.pushed := by
      simp [State.schedule, hne]
    exact h.of_same htasks hpushed rfl rfl fun _ => rfl
  | true =>
    have htasks : (s.schedule task).tasks = s.tasks ++ [⟨s.pushed.length, task⟩] := by
      simp [State.schedule, scheduleNoLock, hne]
    have hpushed : (s.schedule task).pushed = s.pushed ++ [task] := by
      simp [State.schedule, hne]
    have hhands : (s.schedule task).inHands W = s.inHands W := rfl
    have hqueued : (s.schedule task).queued = s.queued ++ [s.pushed.length] := by
      simp [State.queued, htasks]
    have hlt : ∀ i ∈ s.queued, i < s.pushed.length := by
      intro i hi
      have : i ∈ List.range s.pushed.length := h.places.subset (by simp [hi])
      exact List.mem_range.mp this
    constructor
    · intro e he
      rw [htasks, hhands] at he
      rw [hpushed]
      have : e ∈ s.tasks ++ s.inHands W ∨ e = ⟨s.pushed.length, task⟩ := by
        simp only [List.mem_append, List.mem_singleton] at he ⊢
        tauto
      rcases this with he | rfl
      · have := h.entry e he
        rw [List.getElem?_append_left (List.getElem?_eq_some_iff.mp this).1, this]
      · simp
    · rw [hqueued, hhands, hpushed, List.length_append, List.length_singleton, List.range_succ]
      have hplaces := h.places.append_right [s.pushed.length]
      refine List.Perm.trans ?_ hplaces
      simp only [List.append_assoc]
      apply List.Perm.append_left
      have hcomm : [s.pushed.length] ++ ((s.inHands W).map TaskEntry.seq ++ s.finished) ~
          (s.inHands W).map TaskEntry.seq ++ s.finished ++ [s.pushed.length] :=
        List.perm_append_comm
      rwa [List.append_assoc] at hcomm
    · -- the new number is larger than every number in the queue
      rw [hqueued, List.pairwise_append]
      exact ⟨h.ordered, List.pairwise_singleton _ _, fun i hi j hj => by
        rw [List.mem_singleton.mp hj]; exact hlt i hi⟩
    · rw [hhands]; exact h.active
    · exact h.pinned
    · intro i j a b hi hj hij ha hb hab hmem
      rw [hqueued, List.mem_append, List.mem_singleton] at hmem ⊢
      rw [hpushed] at hi hj
      have hjle : j < s.pushed.length + 1 := by
        simpa using (List.getElem?_eq_some_iff.mp hj).1
      rcases Nat.lt_succ_iff_lt_or_eq.mp hjle with hjlt | rfl
      · left
        rw [List.getElem?_append_left hjlt] at hj
        rw [List.getElem?_append_left (by omega)] at hi
        exact h.fifo i j a b hi hj hij ha hb hab (hmem.resolve_right (by omega))
      · exact .inr rfl

variable [DecidableEq τ]

/-- A thread that moves without taking or laying down a task holds what it held. -/
theorem holding_setPc {t : τ} {pc : Pc τ} (h : pc.holding = (s.pc t).holding) (u : τ) :
    ((s.setPc t pc).pc u).holding = (s.pc u).holding := by
  by_cases hu : u = t
  · subst hu
    simpa [State.setPc] using h
  · simp [State.setPc, Function.update_of_ne hu]

theorem inHands_setPc (hW : W.Nodup) {t : τ} (ht : t ∈ W) (s : State τ) (pc : Pc τ) :
    (s.pc t).holding.toList ++ (s.setPc t pc).inHands W ~ pc.holding.toList ++ s.inHands W :=
  held_update hW ht Pc.holding s.pc pc

theorem Conserved.take (hW : W.Nodup) (h : Conserved W s) {t : τ} (ht : t ∈ W)
    (hpc : s.pc t = .scan) {e : TaskEntry τ} (he : (scan t s.fiberState s.tasks).task = some e) :
    Conserved W ({ s with
      tasks := (scan t s.fiberState s.tasks).tasks
      activeThreadCount := s.activeThreadCount + 1 }.setPc t (.took e)) := by
  obtain ⟨pre, post, htasks, hrest, hpre, helig⟩ := scan_some he
  rw [hrest]
  set s₁ : State τ := { s with
    tasks := pre ++ post, activeThreadCount := s.activeThreadCount + 1 } with hs₁
  have hhands : (s₁.setPc t (.took e)).inHands W ~ e :: s.inHands W := by
    have := inHands_setPc hW ht s₁ (.took e)
    rwa [show s₁.pc t = .scan from hpc] at this
  have hqueued : s.queued = pre.map TaskEntry.seq ++ e.seq :: post.map TaskEntry.seq := by
    simp [State.queued, htasks]
  have hqueued' : (s₁.setPc t (.took e)).queued =
      pre.map TaskEntry.seq ++ post.map TaskEntry.seq := by
    simp [hs₁, State.queued, State.setPc]
  constructor
  · intro x hx
    apply h.entry x
    have hx' : x ∈ pre ++ post ++ (e :: s.inHands W) :=
      (hhands.append_left (pre ++ post)).subset hx
    rw [htasks]
    simp only [List.mem_append, List.mem_cons] at hx' ⊢
    tauto
  · rw [hqueued']
    refine List.Perm.trans ?_ h.places
    rw [hqueued]
    apply List.Perm.append_right
    refine ((hhands.map TaskEntry.seq).append_left _).trans ?_
    simp only [List.map_cons, List.append_assoc, List.cons_append]
    apply List.Perm.append_left
    exact List.perm_middle
  · rw [hqueued']
    have := h.ordered
    rw [hqueued] at this
    exact this.sublist (by simp)
  · have := hhands.length_eq
    simp only [List.length_cons] at this
    rw [this, ← h.active]
    rfl
  · intro u hu x hx
    by_cases hut : u = t
    · subst hut
      have : e = x := by simpa [State.setPc, Pc.holding] using hx
      subst this
      simp only [eligible, decide_eq_true_eq] at helig
      exact helig.1
    · exact h.pinned u hu x (by simpa [State.setPc, hs₁, Function.update_of_ne hut] using hx)
  · intro i j a b hi hj hij ha hb hab hmem
    rw [hqueued'] at hmem ⊢
    have hold := h.fifo i j a b hi hj hij ha hb hab (by
      rw [hqueued]; simp only [List.mem_append, List.mem_cons] at hmem ⊢; tauto)
    rw [hqueued] at hold
    simp only [List.mem_append, List.mem_cons] at hold ⊢
    rcases hold with hold | rfl | hold
    · exact .inl hold
    · -- the entry taken is `j`; an older callback with its pin would have come first
      exfalso
      have hord := h.ordered
      rw [hqueued, List.pairwise_append] at hord
      have hipre : i ∈ pre.map TaskEntry.seq := by
        rcases List.mem_append.mp hmem with hmem | hmem
        · exact hmem
        · have := (List.pairwise_cons.mp hord.2.1).1 i hmem
          omega
      obtain ⟨x, hx, rfl⟩ := List.mem_map.mp hipre
      have hxa : x.task = a := by
        have := h.entry x (by rw [htasks]; simp [hx])
        exact Option.some.inj (this.symm.trans hi)
      have heb : e.task = b := by
        have := h.entry e (by rw [htasks]; simp)
        exact Option.some.inj (this.symm.trans hj)
      have hxno := hpre x hx
      simp only [eligible, decide_eq_false_iff_not, decide_eq_true_eq, hxa, heb, ha, hb, hab]
        at hxno helig
      exact hxno helig
    · exact .inr hold

theorem Conserved.complete (hW : W.Nodup) (h : Conserved W s) {t : τ} (ht : t ∈ W)
    {e : TaskEntry τ} (hpc : s.pc t = .returned e) :
    0 < s.activeThreadCount ∧
      Conserved W ({ s with
        activeThreadCount := pred64 s.activeThreadCount
        finished := s.finished ++ [e.seq] }.setPc t .scan) := by
  set s₁ : State τ := { s with
    activeThreadCount := pred64 s.activeThreadCount, finished := s.finished ++ [e.seq] } with hs₁
  have hhands : e :: (s₁.setPc t .scan).inHands W ~ s.inHands W := by
    have := inHands_setPc hW ht s₁ .scan
    rwa [show s₁.pc t = .returned e from hpc] at this
  have hlen := hhands.length_eq
  rw [List.length_cons, ← h.active] at hlen
  refine ⟨by omega, ?_⟩
  constructor
  · intro x hx
    refine h.entry x (((hhands.append_left s.tasks)).subset ?_)
    simp only [List.mem_append, List.mem_cons] at hx ⊢
    rcases hx with hx | hx
    · exact .inl hx
    · exact .inr (.inr hx)
  · refine List.Perm.trans ?_ h.places
    have hmap : (e :: (s₁.setPc t .scan).inHands W).map TaskEntry.seq ~
        (s.inHands W).map TaskEntry.seq := hhands.map _
    change s.queued ++ ((s₁.setPc t .scan).inHands W).map TaskEntry.seq ++
      (s.finished ++ [e.seq]) ~ _
    simp only [List.append_assoc]
    apply List.Perm.append_left
    refine List.Perm.trans ?_ (hmap.append_right _)
    rw [List.map_cons, List.cons_append, ← List.append_assoc]
    exact List.perm_append_comm
  · exact h.ordered
  · change pred64 s.activeThreadCount = _
    rw [← hlen, pred64_succ]
  · intro u hu x hx
    by_cases hut : u = t
    · subst hut
      simp [State.setPc, Pc.holding] at hx
    · exact h.pinned u hu x (by simpa [State.setPc, hs₁, Function.update_of_ne hut] using hx)
  · exact h.fifo

/-! ## Every run -/

theorem Conserved.step (hW : W.Nodup) (h : Conserved W s) (hstep : Step W s a s') :
    Conserved W s' := by
  cases hstep with
  | schedule caller task => exact h.schedule task
  | take t e ht hpc he => exact h.take hW ht hpc he
  | complete t e ht hpc => exact (h.complete hW ht hpc).2
  | leave t ht hpc => exact h.of_same rfl rfl rfl rfl (holding_setPc (by rw [hpc]; rfl))
  | rest t ht hpc => exact h.of_same rfl rfl rfl rfl (holding_setPc (by rw [hpc]; rfl))
  | resume t e f x ht hpc =>
    exact h.of_same rfl rfl rfl rfl
      (holding_setPc (s := { s with put := _ }.setFiber f x) (by rw [State.setFiber, hpc]; rfl))
  | yield t e f x ht hpc _ y =>
    exact h.of_same rfl rfl rfl rfl
      (holding_setPc (s := s.setFiber f y) (by rw [State.setFiber, hpc]; rfl))
  | finish t e f x ht hpc =>
    exact h.of_same rfl rfl rfl rfl
      (holding_setPc (s := s.setFiber f _) (by rw [State.setFiber, hpc]; rfl))
  | save t e f x ht hpc =>
    exact h.of_same rfl rfl rfl rfl
      (holding_setPc (s := s.setFiber f _) (by rw [State.setFiber, hpc]; rfl))
  | idle t ht hpc =>
    have hpc' : ∀ u, ((s.idleTurn t).pc u).holding = (s.pc u).holding := by
      intro u
      have : ((s.setPc t .scan).pc u).holding = (s.pc u).holding :=
        holding_setPc (by rw [hpc]; rfl) u
      unfold State.idleTurn
      split <;> exact this
    refine h.of_same ?_ ?_ ?_ ?_ hpc' <;> (unfold State.idleTurn; split <;> rfl)
  | stop => exact h.of_same rfl rfl rfl rfl fun _ => rfl
  | outside f x => exact h.of_same rfl rfl rfl rfl fun _ => rfl

theorem conserved_of_reachable (hW : W.Nodup) {G : State τ → Label τ → Prop}
    (h : (system W).Reachable G s) : Conserved W s :=
  TransitionSystem.Preserved.reachable
    (fun _ _ _ hs _ hstep => hs.step hW (step_cases hstep)) (fun _ hs => Initial.conserved hs) h

/-! ## Where every task is -/

/-- The locked scan of `t` from `s` to `s'` took out the first entry it may take
and left every other one in place, or found none. -/
def TakesFirst (s s' : State τ) (t : τ) : Prop :=
  (∃ pre e post, s.tasks = pre ++ e :: post ∧ s'.tasks = pre ++ post ∧ s'.pc t = .took e ∧
    eligible t s.fiberState e = true ∧ ∀ x ∈ pre, eligible t s.fiberState x = false) ∨
  (s'.tasks = s.tasks ∧ (s'.pc t).holding = none ∧
    ∀ x ∈ s.tasks, eligible t s.fiberState x = false)

theorem Step.takesFirst {t : τ} (h : Step W s (.scan t) s') : TakesFirst s s' t := by
  cases h with
  | take _ e _ _ he =>
    obtain ⟨pre, post, htasks, hrest, hpre, helig⟩ := scan_some he
    exact .inl ⟨pre, e, post, htasks, hrest, by simp [State.setPc], helig, hpre⟩
  | leave _ _ _ hnone => exact .inr ⟨rfl, by simp [State.setPc, Pc.holding], (scan_none hnone).2⟩
  | rest _ _ _ hnone => exact .inr ⟨rfl, by simp [State.setPc, Pc.holding], (scan_none hnone).2⟩

omit [DecidableEq τ] in
theorem Conserved.count (h : Conserved W s) {k : Nat} (hk : k < s.pushed.length) :
    s.queued.count k + ((s.inHands W).map TaskEntry.seq).count k + s.finished.count k = 1 := by
  have := h.places.count_eq k
  simp only [List.count_append] at this
  rw [this]
  exact List.count_eq_one_of_mem List.nodup_range (List.mem_range.mpr hk)

/-- The tasks of the pushes that are completed. -/
def State.completed (s : State τ) : List (ScheduleTask τ) :=
  s.finished.filterMap (s.pushed[·]?)

omit [DecidableEq τ] in
/-- The pushes, place by place. -/
theorem Conserved.pushed_perm (h : Conserved W s) :
    s.pushed ~ s.tasks.map TaskEntry.task ++ (s.inHands W).map TaskEntry.task ++ s.completed := by
  have hentries {l : List (TaskEntry τ)} (hl : l ⊆ s.tasks ++ s.inHands W) :
      (l.map TaskEntry.seq).filterMap (s.pushed[·]?) = l.map TaskEntry.task := by
    rw [List.filterMap_map, ← List.filterMap_eq_map]
    exact List.filterMap_congr fun e he => h.entry e (hl he)
  have hall : (List.range s.pushed.length).filterMap (s.pushed[·]?) = s.pushed := by
    induction s.pushed with
    | nil => rfl
    | cons x l ih =>
      rw [List.length_cons, List.range_succ_eq_map, List.filterMap_cons, List.filterMap_map]
      exact congrArg (x :: ·) ih
  have hperm := (h.places.filterMap (s.pushed[·]?)).symm
  rw [hall, List.filterMap_append, List.filterMap_append, State.queued,
    hentries (List.subset_append_left ..), hentries (List.subset_append_right ..)] at hperm
  exact hperm

theorem Conserved.count_task (h : Conserved W s) (task : ScheduleTask τ) :
    s.pushed.count task = (s.tasks.map TaskEntry.task).count task +
      ((s.inHands W).map TaskEntry.task).count task + s.completed.count task := by
  rw [h.pushed_perm.count_eq, List.count_append, List.count_append]

omit [DecidableEq τ] in
theorem Conserved.active_eq (h : Conserved W s) :
    s.activeThreadCount = W.countP fun t => (s.pc t).holding.isSome := by
  rw [h.active, State.inHands, held, List.length_filterMap_eq_countP]

/-- In every reachable state each non-empty task pushed is in the queue, in the
hands of one thread, or completed, and in one of these places once; the queue
keeps push order; a scan takes the first entry its thread may take and moves no
other; the active count is the number of threads between taking and completing,
and is positive where it is decremented; a pinned task is only in the hands of
its thread; and of two callbacks with one pin the later one does not leave the
queue before the earlier. -/
theorem tasks_conserved (hW : W.Nodup) (h : (system W).Reachable TransitionSystem.free s) :
    (∀ k < s.pushed.length,
      s.queued.count k + ((s.inHands W).map TaskEntry.seq).count k + s.finished.count k = 1) ∧
    (∀ e ∈ s.tasks ++ s.inHands W, s.pushed[e.seq]? = some e.task) ∧
    s.queued.Pairwise (· < ·) ∧
    (∀ t s', (system W).step s (.scan t) = some s' → TakesFirst s s' t) ∧
    (s.activeThreadCount = W.countP fun t => (s.pc t).holding.isSome) ∧
    (∀ t s', (system W).step s (.complete t) = some s' → 0 < s.activeThreadCount) ∧
    (∀ t ∈ W, ∀ e, (s.pc t).holding = some e → e.task.thread = none ∨ e.task.thread = some t) ∧
    (∀ i j a b, s.pushed[i]? = some a → s.pushed[j]? = some b → i < j → a.fiber = none →
      b.fiber = none → a.thread = b.thread → j ∉ s.queued → i ∉ s.queued) := by
  have hc : Conserved W s := conserved_of_reachable hW h
  refine ⟨fun k hk => hc.count hk, hc.entry, hc.ordered, ?_, hc.active_eq, ?_, hc.pinned, ?_⟩
  · intro t s' hstep
    exact (step_cases hstep).takesFirst
  · intro t s' hstep
    cases step_cases hstep with
    | complete _ e ht hpc => exact (hc.complete hW ht hpc).1
  · intro i j a b hi hj hij ha hb hab hnot hmem
    exact hnot (hc.fifo i j a b hi hj hij ha hb hab hmem)

/-- Two callbacks pinned to thread 1 and one that is not pinned; thread 0 passes
over the pinned ones, and thread 1 has the first of them in its hands. -/
def pinnedRun : List (Label Nat) :=
  [.schedule none (.ofCb (some 7) (some 1)), .schedule none (.ofCb (some 8) (some 1)),
    .schedule none (.ofCb (some 9) none), .scan 0, .scan 1, .resume 0, .finish 0, .save 0,
    .complete 0]

theorem tasks_conserved_pinnedRun :
    ∃ s, (system [0, 1]).Reachable TransitionSystem.free s ∧ s.pushed.length = 3 ∧
      s.queued = [1] ∧ s.finished = [2] ∧
      (∀ k < s.pushed.length, s.queued.count k +
        ((s.inHands [0, 1]).map TaskEntry.seq).count k + s.finished.count k = 1) := by
  obtain ⟨s, hs, hp⟩ := TransitionSystem.Reachable.of_replay (T := system [0, 1])
    (G := TransitionSystem.free) (g := fun _ _ => true) (fun _ _ _ => trivial) (l := pinnedRun)
    (p := fun s => s.pushed.length == 3 && s.queued == [1] && s.finished == [2])
    start_initial (by decide)
  simp only [Bool.and_eq_true, beq_iff_eq] at hp
  exact ⟨s, hs, hp.1.1, hp.1.2, hp.2, (tasks_conserved (by decide) hs).1⟩

end Scheduler
