import Blackstone.Library.Runs

/-!
# The thread pool

`thread_pool.cpp`. A worker takes a task from the queue and only then counts it in `activeTasks`,
and `waitForAll` reads `activeTasks` before the queue. A task is seen by neither read when it
waits between queue and counter at the first read, or leaves the queue after it. So `waitForAll`
returns with all the tasks before it done exactly when those that slipped through are done by
then (`barrier_iff`).

A thread that is detached by `resize` goes on like the others.
-/

namespace Blackstone.Bank

open Runs

/-- Where a worker is in its loop. -/
inductive WorkerPhase where
  | waiting
  | popped (task : ℕ)
  | counted (task : ℕ)
  | ran
  deriving DecidableEq

/-- `ThreadPool`. The tasks are numbered in the order in which they are enqueued. -/
structure ThreadPool where
  tasks : List ℕ
  activeTasks : ℕ
  workers : List WorkerPhase

/-- The thread in `waitForAll`, with the number of tasks that were enqueued before the call. -/
inductive Waiter where
  | outside
  | readingActive (early : ℕ)
  | readingTasks (early : ℕ)

/-- A pool and its users, with the tasks that have run and those that slipped through the reads
of `waitForAll`. -/
structure PoolUse where
  pool : ThreadPool
  waiter : Waiter
  enqueued : ℕ
  finished : List ℕ
  slipped : List ℕ

/-- The next step of a thread. -/
inductive PoolStep where
  | enqueue
  | resize (more : ℕ)
  | worker (i : ℕ)
  | waitForAll
  | waiter

namespace PoolUse

/-- The constructor of a pool. -/
def create (threads : ℕ) : PoolUse where
  pool := ⟨[], 0, List.replicate threads .waiting⟩
  waiter := .outside
  enqueued := 0
  finished := []
  slipped := []

/-- A worker waits for a task and takes it from the queue. -/
def pop (s : PoolUse) (i : ℕ) : PoolUse :=
  match s.pool.tasks with
  | [] => s
  | task :: tasks =>
    { s with
      pool := { s.pool with tasks := tasks, workers := s.pool.workers.set i (.popped task) }
      slipped := task :: s.slipped }

/-- `activeTasks++`. -/
def count (s : PoolUse) (i task : ℕ) : PoolUse :=
  { s with
    pool := { s.pool with
      activeTasks := s.pool.activeTasks + 1
      workers := s.pool.workers.set i (.counted task) } }

/-- `task()`. -/
def runTask (s : PoolUse) (i task : ℕ) : PoolUse :=
  { s with
    pool := { s.pool with workers := s.pool.workers.set i .ran }
    finished := task :: s.finished }

/-- `activeTasks--`. -/
def uncount (s : PoolUse) (i : ℕ) : PoolUse :=
  { s with
    pool := { s.pool with
      activeTasks := s.pool.activeTasks - 1
      workers := s.pool.workers.set i .waiting } }

/-- The next step of a worker in its loop. -/
def stepWorker (s : PoolUse) (i : ℕ) : PoolUse :=
  match s.pool.workers[i]? with
  | none => s
  | some .waiting => s.pop i
  | some (.popped task) => s.count i task
  | some (.counted task) => s.runTask i task
  | some .ran => s.uncount i

/-- The task of a worker that has not counted it. -/
def uncounted : WorkerPhase → Option ℕ
  | .popped task => some task
  | _ => none

/-- The next read of `waitForAll`. -/
def stepWaiter (s : PoolUse) : PoolUse :=
  match s.waiter with
  | .outside => s
  | .readingActive early =>
    if 0 < s.pool.activeTasks then s
    else
      { s with
        waiter := .readingTasks early
        slipped := s.pool.workers.filterMap uncounted }
  | .readingTasks early =>
    if s.pool.tasks = [] then { s with waiter := .outside }
    else { s with waiter := .readingActive early }

/-- A thread takes its next step. -/
def step (s : PoolUse) : PoolStep → PoolUse
  | .enqueue =>
    { s with
      pool := { s.pool with tasks := s.pool.tasks ++ [s.enqueued] }
      enqueued := s.enqueued + 1 }
  | .resize more =>
    { s with
      pool := { s.pool with workers := s.pool.workers ++ List.replicate more .waiting } }
  | .worker i => s.stepWorker i
  | .waitForAll =>
    match s.waiter with
    | .outside => { s with waiter := .readingActive s.enqueued }
    | _ => s
  | .waiter => s.stepWaiter

/-- The step with which `waitForAll` returns. -/
def Returns (s : PoolUse) (e : PoolStep) (early : ℕ) : Prop :=
  e = .waiter ∧ s.waiter = .readingTasks early ∧ s.pool.tasks = []

/-- When `waitForAll` returns, the tasks that were enqueued before it have run. -/
def Barrier (s : PoolUse) (e : PoolStep) : Prop :=
  ∀ early, Returns s e early → ∀ task < early, task ∈ s.finished

/-- When `waitForAll` returns, the tasks that slipped through its reads have run. -/
def SlippedDone (s : PoolUse) (e : PoolStep) : Prop :=
  ∀ early, Returns s e early → ∀ task ∈ s.slipped, task < early → task ∈ s.finished

/-! ## Where the tasks are -/

/-- The task that a worker has not yet run. -/
def held : WorkerPhase → Option ℕ
  | .popped task => some task
  | .counted task => some task
  | _ => none

/-- A worker between its two changes of `activeTasks`. -/
def isCounted : WorkerPhase → Bool
  | .counted _ => true
  | .ran => true
  | _ => false

/-- The counter agrees with the workers, every task is in the queue, with a worker or done, and
between the reads of `waitForAll` those with a worker have slipped through. -/
structure Sound (s : PoolUse) : Prop where
  counted : s.pool.activeTasks = s.pool.workers.countP isCounted
  placed : ∀ task < s.enqueued, task ∈ s.pool.tasks ∨
    (∃ w ∈ s.pool.workers, held w = some task) ∨ task ∈ s.finished
  entered : ∀ early, s.waiter = .readingActive early → early ≤ s.enqueued
  seen : ∀ early, s.waiter = .readingTasks early → early ≤ s.enqueued ∧
    ∀ task < early, task ∈ s.pool.tasks ∨ task ∈ s.slipped ∨ task ∈ s.finished

theorem sound_create (threads : ℕ) : (create threads).Sound where
  counted := by
    rw [create, List.countP_replicate]
    rfl
  placed task h := absurd h (Nat.not_lt_zero task)
  entered early h := nomatch h
  seen early h := nomatch h

variable {s : PoolUse} {i : ℕ}

/-- A worker that moves on still holds its task, or has run it. -/
theorem held_set {old : WorkerPhase} (hold : s.pool.workers[i]? = some old) (next : WorkerPhase)
    {finished : List ℕ} (hfinished : s.finished ⊆ finished)
    (hnext : ∀ task, held old = some task → held next = some task ∨ task ∈ finished) {task : ℕ}
    (h : (∃ w ∈ s.pool.workers, held w = some task) ∨ task ∈ s.finished) :
    (∃ w ∈ s.pool.workers.set i next, held w = some task) ∨ task ∈ finished := by
  rcases h with ⟨w, hw, hheld⟩ | hdone
  · by_cases heq : w = old
    · subst heq
      rcases hnext task hheld with hstill | hdone
      · exact Or.inl ⟨next, mem_set_phase_self hold next, hstill⟩
      · exact Or.inr hdone
    · exact Or.inl ⟨w, mem_set_phase hold hw heq next, hheld⟩
  · exact Or.inr (hfinished hdone)

theorem Sound.pop (h : s.Sound) (hold : s.pool.workers[i]? = some .waiting) : (s.pop i).Sound := by
  rw [PoolUse.pop]
  cases htasks : s.pool.tasks with
  | nil => exact h
  | cons first tasks =>
    have hcount := countP_set_phase hold (.popped first) isCounted
    refine ⟨?_, fun task hlt => ?_, h.entered, fun early hwaiter => ?_⟩
    · rw [h.counted]
      exact hcount.symm
    · have hplaced := h.placed task hlt
      rw [htasks, List.mem_cons, or_assoc] at hplaced
      rcases hplaced with rfl | hqueue | hrest
      · exact Or.inr (Or.inl ⟨.popped task, mem_set_phase_self hold _, rfl⟩)
      · exact Or.inl hqueue
      · exact Or.inr (held_set hold _ (List.Subset.refl _) (fun _ hheld => nomatch hheld) hrest)
    · obtain ⟨hle, hseen⟩ := h.seen early hwaiter
      refine ⟨hle, fun task hlt => ?_⟩
      have hplaced := hseen task hlt
      rw [htasks, List.mem_cons, or_assoc] at hplaced
      rcases hplaced with rfl | hqueue | hslipped | hdone
      · exact Or.inr (Or.inl List.mem_cons_self)
      · exact Or.inl hqueue
      · exact Or.inr (Or.inl (List.mem_cons_of_mem _ hslipped))
      · exact Or.inr (Or.inr hdone)

theorem Sound.count (h : s.Sound) {task : ℕ}
    (hold : s.pool.workers[i]? = some (.popped task)) : (s.count i task).Sound := by
  refine ⟨?_, fun task' hlt => ?_, h.entered, h.seen⟩
  · show s.pool.activeTasks + 1 = (s.pool.workers.set i (.counted task)).countP isCounted
    rw [h.counted]
    exact (countP_set_phase hold (.counted task) isCounted).symm
  · exact (h.placed task' hlt).imp_right
      (held_set hold (.counted task) (List.Subset.refl _) (fun _ hheld => Or.inl hheld))

theorem Sound.runTask (h : s.Sound) {task : ℕ}
    (hold : s.pool.workers[i]? = some (.counted task)) : (s.runTask i task).Sound := by
  refine ⟨?_, fun task' hlt => ?_, h.entered, fun early hwaiter => ?_⟩
  · show s.pool.activeTasks = (s.pool.workers.set i .ran).countP isCounted
    rw [h.counted]
    exact (Nat.add_right_cancel (countP_set_phase hold .ran isCounted)).symm
  · refine (h.placed task' hlt).imp_right
      (held_set hold .ran (List.subset_cons_self _ _) (fun done hheld => Or.inr ?_))
    rw [← Option.some.inj hheld]
    exact List.mem_cons_self
  · obtain ⟨hle, hseen⟩ := h.seen early hwaiter
    exact ⟨hle, fun task' hlt => (hseen task' hlt).imp_right
      (Or.imp_right (List.mem_cons_of_mem _))⟩

theorem Sound.uncount (h : s.Sound) (hold : s.pool.workers[i]? = some .ran) :
    (s.uncount i).Sound := by
  refine ⟨?_, fun task' hlt => ?_, h.entered, h.seen⟩
  · show s.pool.activeTasks - 1 = (s.pool.workers.set i .waiting).countP isCounted
    have hcount := countP_set_phase hold .waiting isCounted
    rw [h.counted]
    exact Nat.sub_eq_of_eq_add hcount.symm
  · exact (h.placed task' hlt).imp_right
      (held_set hold .waiting (List.Subset.refl _) (fun _ hheld => nomatch hheld))

theorem Sound.stepWorker (h : s.Sound) (i : ℕ) : (s.stepWorker i).Sound := by
  rw [PoolUse.stepWorker]
  cases hold : s.pool.workers[i]? with
  | none => exact h
  | some phase =>
    cases phase with
    | waiting => exact h.pop hold
    | popped task => exact h.count hold
    | counted task => exact h.runTask hold
    | ran => exact h.uncount hold

/-- When no worker is counted, the tasks with a worker slip through. -/
theorem Sound.readActive (h : s.Sound) (hnone : s.pool.activeTasks = 0) {task : ℕ}
    (hlt : task < s.enqueued) :
    task ∈ s.pool.tasks ∨ task ∈ s.pool.workers.filterMap uncounted ∨ task ∈ s.finished := by
  refine (h.placed task hlt).imp_right (Or.imp_left ?_)
  rintro ⟨w, hw, hheld⟩
  rw [List.mem_filterMap]
  refine ⟨w, hw, ?_⟩
  rw [h.counted, List.countP_eq_zero] at hnone
  cases w with
  | popped task' => exact hheld
  | counted task' => exact absurd rfl (hnone _ hw)
  | waiting => exact hheld
  | ran => exact hheld

theorem Sound.stepWaiter (h : s.Sound) : s.stepWaiter.Sound := by
  rw [PoolUse.stepWaiter]
  cases hwaiter : s.waiter with
  | outside => exact h
  | readingActive early =>
    dsimp only
    split_ifs with hactive
    · exact h
    · refine ⟨h.counted, h.placed, fun _ heq => (nomatch heq), fun early' heq => ?_⟩
      rw [← Waiter.readingTasks.inj heq]
      have hle := h.entered early hwaiter
      exact ⟨hle, fun task hlt =>
        h.readActive (Nat.eq_zero_of_not_pos hactive) (hlt.trans_le hle)⟩
  | readingTasks early =>
    dsimp only
    split_ifs
    · exact ⟨h.counted, h.placed, fun _ heq => (nomatch heq), fun _ heq => (nomatch heq)⟩
    · refine ⟨h.counted, h.placed, fun early' heq => ?_, fun _ heq => (nomatch heq)⟩
      rw [← Waiter.readingActive.inj heq]
      exact (h.seen early hwaiter).1

theorem Sound.step (h : s.Sound) (e : PoolStep) : (s.step e).Sound := by
  cases e with
  | enqueue =>
    refine ⟨h.counted, fun task hlt => ?_, fun early hwaiter => ?_, fun early hwaiter => ?_⟩
    · rcases Nat.lt_succ_iff_lt_or_eq.mp hlt with hold | rfl
      · exact (h.placed task hold).imp_left (List.mem_append_left _)
      · exact Or.inl (List.mem_append_right _ List.mem_cons_self)
    · exact (h.entered early hwaiter).trans (Nat.le_succ _)
    · obtain ⟨hle, hseen⟩ := h.seen early hwaiter
      exact ⟨hle.trans (Nat.le_succ _), fun task hlt =>
        (hseen task hlt).imp_left (List.mem_append_left _)⟩
  | resize more =>
    refine ⟨?_, fun task hlt => ?_, h.entered, h.seen⟩
    · show s.pool.activeTasks = (s.pool.workers ++ _).countP _
      rw [h.counted, List.countP_append, List.countP_replicate]
      rfl
    · refine (h.placed task hlt).imp_right (Or.imp_left ?_)
      rintro ⟨w, hw, hheld⟩
      exact ⟨w, List.mem_append_left _ hw, hheld⟩
  | worker i => exact h.stepWorker i
  | waitForAll =>
    rw [PoolUse.step]
    cases hwaiter : s.waiter with
    | outside =>
      refine ⟨h.counted, h.placed, fun early heq => ?_, fun _ heq => (nomatch heq)⟩
      rw [← Waiter.readingActive.inj heq]
    | readingActive early => exact h
    | readingTasks early => exact h
  | waiter => exact h.stepWaiter

/-! ## Returns -/

/-- At a return, the early tasks that are not done have slipped through. -/
theorem barrier_iff_slippedDone (h : s.Sound) (e : PoolStep) : Barrier s e ↔ SlippedDone s e := by
  refine forall_congr' fun early => forall_congr' fun hreturns => ?_
  obtain ⟨-, hwaiter, htasks⟩ := hreturns
  constructor
  · exact fun hdone task _ hlt => hdone task hlt
  · intro hslipped task hlt
    have hseen := (h.seen early hwaiter).2 task hlt
    rw [htasks, or_iff_right List.not_mem_nil] at hseen
    exact hseen.elim (fun hmem => hslipped task hmem hlt) (fun hdone => hdone)

/-- No task that was enqueued before `waitForAll` is between the queue and the counter when
`activeTasks` is read as zero, and none leaves the queue between that read and the next one. -/
def NoSlip (s : PoolUse) : PoolStep → Prop
  | .waiter => ∀ early, s.waiter = .readingActive early → s.pool.activeTasks = 0 →
    ∀ task < early, .popped task ∉ s.pool.workers
  | .worker i => ∀ early, s.waiter = .readingTasks early → s.pool.workers[i]? = some .waiting →
    ∀ task < early, s.pool.tasks.head? ≠ some task
  | _ => True

/-- No early task has slipped through. -/
def Clean (s : PoolUse) : Prop :=
  ∀ early, s.waiter = .readingTasks early → ∀ task ∈ s.slipped, early ≤ task

theorem Clean.stepWorker (h : s.Clean) (hnoSlip : NoSlip s (.worker i)) :
    (s.stepWorker i).Clean := by
  rw [PoolUse.stepWorker]
  cases hold : s.pool.workers[i]? with
  | none => exact h
  | some phase =>
    cases phase with
    | waiting =>
      show (s.pop i).Clean
      rw [PoolUse.pop]
      cases htasks : s.pool.tasks with
      | nil => exact h
      | cons first tasks =>
        intro early hwaiter task hmem
        rcases List.mem_cons.mp hmem with rfl | hbefore
        · by_contra hlt
          refine hnoSlip early hwaiter hold task (not_le.mp hlt) ?_
          rw [htasks]
          rfl
        · exact h early hwaiter task hbefore
    | popped task => exact h
    | counted task => exact h
    | ran => exact h

theorem Clean.stepWaiter (h : s.Clean) (hnoSlip : NoSlip s .waiter) : s.stepWaiter.Clean := by
  rw [PoolUse.stepWaiter]
  cases hwaiter : s.waiter with
  | outside => exact h
  | readingActive early =>
    dsimp only
    split_ifs with hactive
    · exact h
    · intro early' heq task hmem
      rw [← Waiter.readingTasks.inj heq]
      obtain ⟨w, hw, huncounted⟩ := List.mem_filterMap.mp hmem
      by_contra hlt
      refine hnoSlip early hwaiter (Nat.eq_zero_of_not_pos hactive) task (not_le.mp hlt) ?_
      cases w with
      | popped task' => rwa [← Option.some.inj huncounted]
      | waiting => cases huncounted
      | counted task' => cases huncounted
      | ran => cases huncounted
  | readingTasks early =>
    dsimp only
    split_ifs
    · exact fun _ heq => nomatch heq
    · exact fun _ heq => nomatch heq

theorem Clean.step (h : s.Clean) {e : PoolStep} (hnoSlip : NoSlip s e) : (s.step e).Clean := by
  cases e with
  | enqueue => exact h
  | resize more => exact h
  | worker i => exact h.stepWorker hnoSlip
  | waitForAll =>
    rw [PoolUse.step]
    cases hwaiter : s.waiter with
    | outside => exact fun _ heq => nomatch heq
    | readingActive early => exact h
    | readingTasks early => exact h
  | waiter => exact h.stepWaiter hnoSlip

/-- In a run of any number of workers, `waitForAll` waits for the tasks before it exactly when
the tasks that slip through its reads are done when it returns; where none slips through, it
always does. -/
theorem barrier_iff (threads : ℕ) (steps : List PoolStep) :
    (Along step Barrier (create threads) steps ↔ Along step SlippedDone (create threads) steps) ∧
      (Along step NoSlip (create threads) steps → Along step Barrier (create threads) steps) := by
  constructor
  · exact along_congr_of_invariant Sound (fun _ e h => barrier_iff_slippedDone h e)
      (fun _ e h _ => h.step e) steps (sound_create threads)
  · have hclean : (create threads).Clean := fun _ heq => nomatch heq
    have hstep : ∀ s e, s.Sound ∧ s.Clean → NoSlip s e → (s.step e).Sound ∧ (s.step e).Clean :=
      fun s e h hnoSlip => ⟨h.1.step e, h.2.step hnoSlip⟩
    refine Along.imp_of_invariant hstep (fun s e h _ => ?_) ⟨sound_create threads, hclean⟩
    refine (barrier_iff_slippedDone h.1 e).mpr fun early hreturns task hmem hlt => ?_
    exact absurd hlt (not_lt.mpr (h.2 early hreturns.2.1 task hmem))

/-- One worker takes the only task, and `waitForAll` returns before it is counted. -/
theorem not_barrier_uncounted :
    let s := run step (create 1) [.enqueue, .worker 0, .waitForAll, .waiter]
    s.pool.workers = [.popped 0] ∧ s.finished = [] ∧ Returns s .waiter 1 ∧
      ¬ Along step Barrier (create 1) [.enqueue, .worker 0, .waitForAll, .waiter, .waiter] := by
  refine ⟨rfl, rfl, ⟨rfl, rfl, rfl⟩, ?_⟩
  rintro ⟨-, -, -, -, hreturn, -⟩
  exact absurd (hreturn 1 ⟨rfl, rfl, rfl⟩ 0 Nat.zero_lt_one) List.not_mem_nil

end PoolUse

end Blackstone.Bank
