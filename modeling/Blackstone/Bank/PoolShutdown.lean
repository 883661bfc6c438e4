import Blackstone.Bank.ThreadPool

/-!
# The end of a thread pool

`thread_pool.cpp`, with the mutex and the condition variable. A worker tests its predicate under
the mutex and then blocks; `notify_all` of the destructor wakes those that are blocked. The
destructor sets `stop` without the mutex, so a worker may have tested the predicate before and
block after the notification.

* `exactlyOnce`: in every run, a task that was enqueued is at one place: in the queue, with a
  worker, done, or cleared.
* `exists_poolUse`: without `clear`, what the pool does here is a run of the pool that knows no
  mutex.
* `stuck_iff`: the destructor can be left waiting for a worker exactly when a worker is between its
  test and its block when `notify_all` is called.
-/

namespace Blackstone.Bank

open Runs

/-- Where a worker is in its loop. From `testing` to `blocking` it holds the mutex. -/
inductive WorkerLoop where
  | entering
  | testing
  | blocking
  | blocked
  | popped (task : ℕ)
  | counted (task : ℕ)
  | ran
  | exited
  deriving DecidableEq

/-- Where the destructor is. -/
inductive Destructor where
  | uncalled
  | stopped
  | joining
  deriving DecidableEq

/-- A pool, with the number of callers of `enqueue` behind its test of `stop` and of those that
are about to notify. The tasks are numbered in the order in which they enter the queue; the last
three fields are the history. -/
structure PoolLife where
  tasks : List ℕ
  stop : Bool
  activeTasks : ℕ
  workers : List WorkerLoop
  callers : ℕ
  notifying : ℕ
  destructor : Destructor
  enqueued : ℕ
  finished : List ℕ
  cleared : List ℕ

/-- The next step of a thread, a choice of `notify_one`, or a spurious wakeup. -/
inductive LifeStep where
  | enqueue
  | push
  | notifyOne (i : ℕ)
  | spurious (i : ℕ)
  | worker (i : ℕ)
  | clear
  | setStop
  | notifyAll
  deriving DecidableEq

namespace PoolLife

/-- The constructor of a pool. -/
def create (threads : ℕ) : PoolLife where
  tasks := []
  stop := false
  activeTasks := 0
  workers := List.replicate threads .entering
  callers := 0
  notifying := 0
  destructor := .uncalled
  enqueued := 0
  finished := []
  cleared := []

/-- The worker holds `queueMutex`. -/
def holdsMutex : WorkerLoop → Bool
  | .testing => true
  | .blocking => true
  | _ => false

def MutexFree (s : PoolLife) : Prop := ∀ w ∈ s.workers, holdsMutex w = false

instance (s : PoolLife) : Decidable s.MutexFree := List.decidableBAll _ _

/-- A worker moves on. -/
def setPhase (s : PoolLife) (i : ℕ) (next : WorkerLoop) : PoolLife :=
  { s with workers := s.workers.set i next }

/-- The predicate of `condition.wait` and what follows it, with the mutex. -/
def test (s : PoolLife) (i : ℕ) : PoolLife :=
  match s.tasks with
  | [] => s.setPhase i (if s.stop then .exited else .blocking)
  | task :: tasks => { s.setPhase i (.popped task) with tasks := tasks }

/-- The next step of a worker in its loop. -/
def stepWorker (s : PoolLife) (i : ℕ) : PoolLife :=
  match s.workers[i]? with
  | some .entering => if s.MutexFree then s.setPhase i .testing else s
  | some .testing => s.test i
  | some .blocking => s.setPhase i .blocked
  | some (.popped task) =>
    { s.setPhase i (.counted task) with activeTasks := s.activeTasks + 1 }
  | some (.counted task) => { s.setPhase i .ran with finished := task :: s.finished }
  | some .ran => { s.setPhase i .entering with activeTasks := s.activeTasks - 1 }
  | _ => s

/-- A blocked worker wakes up, and asks for the mutex. -/
def wake : WorkerLoop → WorkerLoop
  | .blocked => .entering
  | phase => phase

/-- A thread takes its next step. -/
def step (s : PoolLife) : LifeStep → PoolLife
  | .enqueue => if s.stop then s else { s with callers := s.callers + 1 }
  | .push =>
    if 0 < s.callers ∧ s.MutexFree then
      { s with
        tasks := s.tasks ++ [s.enqueued]
        callers := s.callers - 1
        notifying := s.notifying + 1
        enqueued := s.enqueued + 1 }
    else s
  | .notifyOne i =>
    if s.notifying = 0 then s
    else if s.workers[i]? = some .blocked then
      { s.setPhase i .entering with notifying := s.notifying - 1 }
    else if .blocked ∈ s.workers then s
    else { s with notifying := s.notifying - 1 }
  | .spurious i => if s.workers[i]? = some .blocked then s.setPhase i .entering else s
  | .worker i => s.stepWorker i
  | .clear =>
    if s.MutexFree then { s with tasks := [], cleared := s.tasks ++ s.cleared } else s
  | .setStop =>
    if s.destructor = .uncalled then { s with stop := true, destructor := .stopped } else s
  | .notifyAll =>
    if s.destructor = .stopped then
      { s with workers := s.workers.map wake, destructor := .joining }
    else s

/-! ## Where the tasks are -/

/-- The worker has the task in its hands. -/
def holdsTask (task : ℕ) : WorkerLoop → Bool
  | .popped task' => task' == task
  | .counted task' => task' == task
  | _ => false

/-- Worker counted in `activeTasks`. -/
def isActive : WorkerLoop → Bool
  | .counted _ => true
  | .ran => true
  | _ => false

/-- How often a task is in the queue, with a worker, done or cleared. -/
def places (s : PoolLife) (task : ℕ) : ℕ :=
  s.tasks.count task + s.workers.countP (holdsTask task) + s.finished.count task +
    s.cleared.count task

/-- The counter agrees with the workers, and every task that was enqueued is at one place. -/
structure Sound (s : PoolLife) : Prop where
  active : s.activeTasks = s.workers.countP isActive
  placed : ∀ task, s.places task = if task < s.enqueued then 1 else 0
  stopped : s.stop = true ↔ s.destructor ≠ .uncalled

theorem sound_create (threads : ℕ) : (create threads).Sound where
  active := by
    rw [create, List.countP_replicate]
    rfl
  placed := by simp [places, create, holdsTask]
  stopped := by simp [create]

variable {s : PoolLife} {i : ℕ} {old : WorkerLoop}

/-- A worker moves on: what leaves its hands is found elsewhere. -/
theorem Sound.move (h : s.Sound) {s' : PoolLife} {next : WorkerLoop}
    (hold : s.workers[i]? = some old) (hworkers : s'.workers = s.workers.set i next)
    (hkept : s'.enqueued = s.enqueued ∧ s'.stop = s.stop ∧ s'.destructor = s.destructor)
    (hactive : s'.activeTasks + (if isActive old then 1 else 0) =
      s.activeTasks + (if isActive next then 1 else 0))
    (hplaces : ∀ task, s'.tasks.count task + s'.finished.count task + s'.cleared.count task +
        (if holdsTask task next then 1 else 0) =
      s.tasks.count task + s.finished.count task + s.cleared.count task +
        (if holdsTask task old then 1 else 0)) : s'.Sound := by
  obtain ⟨henqueued, hstop, hdestructor⟩ := hkept
  refine ⟨?_, fun task => ?_, ?_⟩
  · have hcount := countP_set_phase hold next isActive
    rw [h.active] at hactive
    rw [hworkers]
    omega
  · have hcount := countP_set_phase hold next (holdsTask task)
    have hplaced := h.placed task
    have hmoved := hplaces task
    rw [henqueued, ← hplaced]
    simp only [places, hworkers]
    omega
  · rw [hstop, hdestructor]
    exact h.stopped

theorem Sound.test (h : s.Sound) (hold : s.workers[i]? = some .testing) : (s.test i).Sound := by
  unfold PoolLife.test
  split
  · split_ifs
    · exact h.move hold rfl ⟨rfl, rfl, rfl⟩ rfl (fun _ => rfl)
    · exact h.move hold rfl ⟨rfl, rfl, rfl⟩ rfl (fun _ => rfl)
  · rename_i first tasks htasks
    refine h.move hold rfl ⟨rfl, rfl, rfl⟩ rfl fun task => ?_
    simp only [PoolLife.setPhase, htasks, holdsTask, List.count_cons, beq_iff_eq,
      Bool.false_eq_true, if_false]
    omega

theorem Sound.stepWorker (h : s.Sound) (i : ℕ) : (s.stepWorker i).Sound := by
  unfold PoolLife.stepWorker
  split
  · rename_i hold
    split_ifs
    · exact h.move hold rfl ⟨rfl, rfl, rfl⟩ rfl (fun _ => rfl)
    · exact h
  · rename_i hold
    exact h.test hold
  · rename_i hold
    exact h.move hold rfl ⟨rfl, rfl, rfl⟩ rfl (fun _ => rfl)
  · rename_i task hold
    exact h.move hold rfl ⟨rfl, rfl, rfl⟩ rfl (fun _ => rfl)
  · rename_i task hold
    refine h.move hold rfl ⟨rfl, rfl, rfl⟩ rfl fun task' => ?_
    simp only [PoolLife.setPhase, holdsTask, List.count_cons, beq_iff_eq, Bool.false_eq_true,
      if_false]
    omega
  · rename_i hold
    have hpos : 0 < s.workers.countP isActive :=
      List.countP_pos_iff.mpr ⟨_, List.mem_of_getElem? hold, rfl⟩
    refine h.move hold rfl ⟨rfl, rfl, rfl⟩ ?_ (fun _ => rfl)
    rw [← h.active] at hpos
    simp only [isActive, Bool.false_eq_true, if_false, if_true]
    omega
  · exact h

theorem countP_wake (p : WorkerLoop → Bool) (hblocked : p .blocked = p .entering)
    (workers : List WorkerLoop) : (workers.map wake).countP p = workers.countP p := by
  rw [List.countP_map]
  refine List.countP_congr fun w _ => ?_
  cases w <;> simp [wake, hblocked]

theorem Sound.step (h : s.Sound) (e : LifeStep) : (s.step e).Sound := by
  cases e with
  | enqueue =>
    simp only [PoolLife.step]
    split_ifs
    · exact h
    · exact ⟨h.active, h.placed, h.stopped⟩
  | push =>
    simp only [PoolLife.step]
    split_ifs
    · refine ⟨h.active, fun task => ?_, h.stopped⟩
      have hplaced := h.placed task
      simp only [places, List.count_append, List.count_singleton, beq_iff_eq] at hplaced ⊢
      split_ifs at hplaced ⊢ <;> omega
    · exact h
  | notifyOne i =>
    simp only [PoolLife.step]
    split_ifs with _ hblocked
    · exact h
    · exact h.move hblocked rfl ⟨rfl, rfl, rfl⟩ rfl (fun _ => rfl)
    · exact h
    · exact ⟨h.active, h.placed, h.stopped⟩
  | spurious i =>
    simp only [PoolLife.step]
    split_ifs with hblocked
    · exact h.move hblocked rfl ⟨rfl, rfl, rfl⟩ rfl (fun _ => rfl)
    · exact h
  | worker i => exact h.stepWorker i
  | clear =>
    simp only [PoolLife.step]
    split_ifs
    · refine ⟨h.active, fun task => ?_, h.stopped⟩
      have hplaced := h.placed task
      simp only [places, List.count_append, List.count_nil] at hplaced ⊢
      omega
    · exact h
  | setStop =>
    simp only [PoolLife.step]
    split_ifs
    · exact ⟨h.active, h.placed, by simp⟩
    · exact h
  | notifyAll =>
    simp only [PoolLife.step]
    split_ifs with hstopped
    · refine ⟨?_, fun task => ?_, ?_⟩
      · rw [countP_wake isActive rfl]
        exact h.active
      · have hplaced := h.placed task
        rw [places] at hplaced
        rw [places, countP_wake (holdsTask task) rfl]
        exact hplaced
      · exact h.stopped.trans (iff_of_true (by rw [hstopped]; decide) fun heq => nomatch heq)
    · exact h

theorem sound_run (threads : ℕ) (steps : List LifeStep) :
    (run step (create threads) steps).Sound :=
  run_invariant (P := fun _ _ => True) (fun _ e h _ => h.step e) (sound_create threads)
    (along_true _ _)

/-- In every run a task that was enqueued is at one place, and once all the workers are gone it
is in the queue, done or cleared. -/
theorem exactlyOnce (threads : ℕ) (steps : List LifeStep) {s : PoolLife}
    (hs : s = run step (create threads) steps) (task : ℕ) (htask : task < s.enqueued) :
    s.places task = 1 ∧
      ((∀ w ∈ s.workers, w = .exited) →
        s.tasks.count task + s.finished.count task + s.cleared.count task = 1) := by
  have hplaced : s.places task = 1 := by
    rw [hs] at htask ⊢
    rw [(sound_run threads steps).placed, if_pos htask]
  refine ⟨hplaced, fun hexited => ?_⟩
  have hnone : s.workers.countP (holdsTask task) = 0 := by
    rw [List.countP_eq_zero]
    intro w hw
    rw [hexited w hw]
    exact Bool.false_ne_true
  rw [places, hnone] at hplaced
  exact hplaced

/-! ## The pool without the mutex -/

/-- A worker that waits for the mutex or for a task, or is gone, waits. -/
def view : WorkerLoop → WorkerPhase
  | .popped task => .popped task
  | .counted task => .counted task
  | .ran => .ran
  | _ => .waiting

/-- The pool of the coarser machine in the same state. -/
structure Simulates (u : PoolUse) (s : PoolLife) : Prop where
  pool : u.pool = ⟨s.tasks, s.activeTasks, s.workers.map view⟩
  enqueued : u.enqueued = s.enqueued
  finished : u.finished = s.finished

variable {u : PoolUse}

/-- A worker that still waits is not seen to move. -/
theorem Simulates.setPhase (h : Simulates u s) (hold : s.workers[i]? = some old)
    (next : WorkerLoop) (hview : view next = view old) : Simulates u (s.setPhase i next) := by
  refine ⟨?_, h.enqueued, h.finished⟩
  have hsame : (s.workers.map view).set i (view next) = s.workers.map view := by
    obtain ⟨hi, rfl⟩ := List.getElem?_eq_some_iff.mp hold
    rw [hview, ← List.getElem_map view (h := by simpa using hi), List.set_getElem_self]
  rw [h.pool, PoolLife.setPhase, List.map_set, hsame]

theorem Simulates.stepWorker (h : Simulates u s) (i : ℕ) :
    ∃ uses, Simulates (run PoolUse.step u uses) (s.stepWorker i) := by
  have hworker : ∀ {w : WorkerLoop}, s.workers[i]? = some w →
      u.pool.workers[i]? = some (view w) := by
    intro w hold
    rw [h.pool, List.getElem?_map, hold]
    rfl
  unfold PoolLife.stepWorker
  split
  · rename_i hold
    split_ifs
    · exact ⟨[], h.setPhase hold _ rfl⟩
    · exact ⟨[], h⟩
  · rename_i hold
    unfold PoolLife.test
    split
    · refine ⟨[], h.setPhase hold _ ?_⟩
      split_ifs
      · rfl
      · rfl
    · rename_i task tasks htasks
      refine ⟨[.worker i], ?_⟩
      have hstep : u.stepWorker i = u.pop i := by
        simp only [PoolUse.stepWorker, hworker hold, view]
      rw [run_cons, run_nil, PoolUse.step, hstep, PoolUse.pop, h.pool, htasks]
      exact ⟨by rw [PoolLife.setPhase, List.map_set]; rfl, h.enqueued, h.finished⟩
  · rename_i hold
    exact ⟨[], h.setPhase hold _ rfl⟩
  · rename_i task hold
    refine ⟨[.worker i], ?_⟩
    have hstep : u.stepWorker i = u.count i task := by
      simp only [PoolUse.stepWorker, hworker hold, view]
    rw [run_cons, run_nil, PoolUse.step, hstep, PoolUse.count, h.pool]
    exact ⟨by rw [PoolLife.setPhase, List.map_set]; rfl, h.enqueued, h.finished⟩
  · rename_i task hold
    refine ⟨[.worker i], ?_⟩
    have hstep : u.stepWorker i = u.runTask i task := by
      simp only [PoolUse.stepWorker, hworker hold, view]
    rw [run_cons, run_nil, PoolUse.step, hstep, PoolUse.runTask, h.pool, h.finished]
    exact ⟨by rw [PoolLife.setPhase, List.map_set]; rfl, h.enqueued, rfl⟩
  · rename_i hold
    refine ⟨[.worker i], ?_⟩
    have hstep : u.stepWorker i = u.uncount i := by
      simp only [PoolUse.stepWorker, hworker hold, view]
    rw [run_cons, run_nil, PoolUse.step, hstep, PoolUse.uncount, h.pool]
    exact ⟨by rw [PoolLife.setPhase, List.map_set]; rfl, h.enqueued, h.finished⟩
  · exact ⟨[], h⟩

theorem Simulates.step (h : Simulates u s) {e : LifeStep} (hclear : e ≠ .clear) :
    ∃ uses, Simulates (run PoolUse.step u uses) (s.step e) := by
  cases e with
  | enqueue =>
    refine ⟨[], ?_⟩
    simp only [PoolLife.step]
    split_ifs
    · exact h
    · exact ⟨h.pool, h.enqueued, h.finished⟩
  | push =>
    simp only [PoolLife.step]
    split_ifs
    · refine ⟨[.enqueue], ?_⟩
      rw [run_cons, run_nil, PoolUse.step]
      exact ⟨by rw [h.pool, h.enqueued], by rw [h.enqueued], h.finished⟩
    · exact ⟨[], h⟩
  | notifyOne i =>
    refine ⟨[], ?_⟩
    simp only [PoolLife.step]
    split_ifs with _ hblocked
    · exact h
    · have hwoken := h.setPhase hblocked .entering rfl
      exact ⟨hwoken.pool, hwoken.enqueued, hwoken.finished⟩
    · exact h
    · exact ⟨h.pool, h.enqueued, h.finished⟩
  | spurious i =>
    refine ⟨[], ?_⟩
    simp only [PoolLife.step]
    split_ifs with hblocked
    · exact h.setPhase hblocked _ rfl
    · exact h
  | worker i => exact h.stepWorker i
  | clear => exact absurd rfl hclear
  | setStop =>
    refine ⟨[], ?_⟩
    simp only [PoolLife.step]
    split_ifs
    · exact ⟨h.pool, h.enqueued, h.finished⟩
    · exact h
  | notifyAll =>
    refine ⟨[], ?_⟩
    simp only [PoolLife.step]
    split_ifs
    · refine ⟨?_, h.enqueued, h.finished⟩
      have hview : view ∘ wake = view := by
        funext w
        cases w <;> rfl
      rw [run_nil, h.pool, List.map_map, hview]
    · exact h

theorem exists_poolUse (threads : ℕ) {steps : List LifeStep} (hclear : ∀ e ∈ steps, e ≠ .clear) :
    ∃ uses, Simulates (run PoolUse.step (PoolUse.create threads) uses)
      (run step (create threads) steps) := by
  have hkeep : ∀ (s : PoolLife) (e : LifeStep),
      (∃ uses, Simulates (run PoolUse.step (PoolUse.create threads) uses) s) → e ≠ .clear →
        ∃ uses, Simulates (run PoolUse.step (PoolUse.create threads) uses) (s.step e) := by
    rintro s e ⟨uses, h⟩ hne
    obtain ⟨more, hmore⟩ := h.step hne
    refine ⟨uses ++ more, ?_⟩
    rwa [run, List.foldl_append]
  refine run_invariant hkeep ⟨[], ?_⟩ (along_of_forall hclear)
  · refine ⟨?_, rfl, rfl⟩
    rw [run_nil, create, List.map_replicate]
    rfl

/-! ## The last wakeup -/

/-- No worker has a step. -/
def Quiescent (s : PoolLife) : Prop := ∀ i, s.stepWorker i = s

/-- The destructor waits for a worker that waits for a notification. -/
def Stuck (s : PoolLife) : Prop :=
  s.destructor = .joining ∧ s.Quiescent ∧ .blocked ∈ s.workers

/-- No thread notifies, and there is no spurious wakeup. -/
def NoWake : LifeStep → Prop
  | .notifyOne _ => False
  | .spurious _ => False
  | _ => True

/-- How many steps a worker has before it needs a task or leaves. -/
def weight : WorkerLoop → ℕ
  | .popped _ => 6
  | .counted _ => 5
  | .ran => 4
  | .entering => 3
  | .testing => 2
  | .blocking => 1
  | .blocked => 0
  | .exited => 0

def remaining (s : PoolLife) : ℕ := (s.workers.map weight).sum + 5 * s.tasks.length

theorem sum_weight_set {workers : List WorkerLoop} (hold : workers[i]? = some old)
    (next : WorkerLoop) :
    ((workers.set i next).map weight).sum + weight old =
      (workers.map weight).sum + weight next := by
  induction workers generalizing i with
  | nil => cases hold
  | cons first workers ih =>
    cases i with
    | zero =>
      obtain rfl := Option.some.inj hold
      simp only [List.set_cons_zero, List.map_cons, List.sum_cons]
      omega
    | succ i =>
      have hrest := ih hold
      simp only [List.set_cons_succ, List.map_cons, List.sum_cons]
      omega

/-- A worker that moves on brings the end nearer, also by taking a task. -/
theorem remaining_lt (hold : s.workers[i]? = some old) {s' : PoolLife} {next : WorkerLoop}
    (hworkers : s'.workers = s.workers.set i next)
    (hweight : weight next + 5 * s'.tasks.length < weight old + 5 * s.tasks.length) :
    s'.remaining < s.remaining := by
  have hsum := sum_weight_set hold next
  rw [remaining, remaining, hworkers]
  omega

/-- A worker in this phase has a step. -/
def CanMove (s : PoolLife) : WorkerLoop → Prop
  | .entering => s.MutexFree
  | .blocked => False
  | .exited => False
  | _ => True

theorem remaining_stepWorker (hold : s.workers[i]? = some old) (hmoves : s.CanMove old) :
    (s.stepWorker i).remaining < s.remaining := by
  unfold stepWorker
  cases old with
  | entering =>
    have hfree : s.MutexFree := hmoves
    simp only [hold]
    rw [if_pos hfree]
    exact remaining_lt hold rfl (Nat.add_lt_add_right (by decide) _)
  | testing =>
    simp only [hold]
    unfold test
    split
    · split_ifs
      · exact remaining_lt hold rfl (Nat.add_lt_add_right (by decide) _)
      · exact remaining_lt hold rfl (Nat.add_lt_add_right (by decide) _)
    · rename_i first tasks htasks
      refine remaining_lt hold rfl ?_
      simp only [weight, htasks, List.length_cons]
      omega
  | blocking =>
    simp only [hold]
    exact remaining_lt hold rfl (Nat.add_lt_add_right (by decide) _)
  | blocked => exact hmoves.elim
  | popped task =>
    simp only [hold]
    exact remaining_lt hold rfl (Nat.add_lt_add_right (Nat.lt_succ_self 5) _)
  | counted task =>
    simp only [hold]
    exact remaining_lt hold rfl (Nat.add_lt_add_right (Nat.lt_succ_self 4) _)
  | ran =>
    simp only [hold]
    exact remaining_lt hold rfl (Nat.add_lt_add_right (by decide) _)
  | exited => exact hmoves.elim

theorem stepWorker_eq_self (hold : s.workers[i]? = some old) (hstays : ¬s.CanMove old) :
    s.stepWorker i = s := by
  unfold stepWorker
  cases old with
  | entering =>
    simp only [hold]
    exact if_neg hstays
  | blocked => simp only [hold]
  | exited => simp only [hold]
  | testing => exact absurd trivial hstays
  | blocking => exact absurd trivial hstays
  | popped task => exact absurd trivial hstays
  | counted task => exact absurd trivial hstays
  | ran => exact absurd trivial hstays

/-- Where no worker has a step, nobody holds the mutex, and all are blocked or gone. -/
theorem quiescent_iff : s.Quiescent ↔ ∀ w ∈ s.workers, w = .blocked ∨ w = .exited := by
  constructor
  · intro hquiescent
    have hstays : ∀ w ∈ s.workers, ¬s.CanMove w := by
      intro w hw hmoves
      obtain ⟨i, hold⟩ := List.mem_iff_getElem?.mp hw
      have hlt := remaining_stepWorker hold hmoves
      rw [hquiescent i] at hlt
      exact Nat.lt_irrefl _ hlt
    have hfree : s.MutexFree := by
      intro w hw
      have hstay := hstays w hw
      cases w with
      | testing => exact absurd trivial hstay
      | blocking => exact absurd trivial hstay
      | _ => rfl
    intro w hw
    have hstay := hstays w hw
    cases w with
    | entering => exact absurd hfree hstay
    | blocked => exact Or.inl rfl
    | exited => exact Or.inr rfl
    | _ => exact absurd trivial hstay
  · intro hidle i
    cases hold : s.workers[i]? with
    | none =>
      unfold stepWorker
      simp only [hold]
    | some w =>
      apply stepWorker_eq_self hold
      rcases hidle w (List.mem_of_getElem? hold) with rfl | rfl
      · exact not_false
      · exact not_false

/-- The workers alone come to an end. -/
theorem exists_quiescent (s : PoolLife) :
    ∃ indices : List ℕ, (run step s (indices.map .worker)).Quiescent := by
  induction hn : s.remaining using Nat.strong_induction_on generalizing s with
  | _ n ih =>
    by_cases hidle : ∀ w ∈ s.workers, ¬s.CanMove w
    · refine ⟨[], fun i => ?_⟩
      rw [List.map_nil, run_nil]
      cases hold : s.workers[i]? with
      | none =>
        unfold stepWorker
        simp only [hold]
      | some w => exact stepWorker_eq_self hold (hidle w (List.mem_of_getElem? hold))
    · push Not at hidle
      obtain ⟨w, hw, hmoves⟩ := hidle
      obtain ⟨i, hold⟩ := List.mem_iff_getElem?.mp hw
      obtain ⟨indices, hquiescent⟩ :=
        ih _ (hn ▸ remaining_stepWorker hold hmoves) (s.stepWorker i) rfl
      exact ⟨i :: indices, hquiescent⟩

/-- No worker waits for a notification or is about to. -/
structure Awake (s : PoolLife) : Prop where
  stop : s.stop = true
  joining : s.destructor = .joining
  awake : ∀ w ∈ s.workers, w ≠ .blocked ∧ w ≠ .blocking

theorem Awake.setPhase (h : s.Awake) (i : ℕ) (next : WorkerLoop)
    (hnext : next ≠ .blocked ∧ next ≠ .blocking) : (s.setPhase i next).Awake := by
  refine ⟨h.stop, h.joining, fun w hw => ?_⟩
  rcases List.mem_or_eq_of_mem_set hw with hold | rfl
  · exact h.awake w hold
  · exact hnext

theorem Awake.step (h : s.Awake) (e : LifeStep) : (s.step e).Awake := by
  cases e with
  | enqueue =>
    simp only [PoolLife.step]
    rw [if_pos h.stop]
    exact h
  | push =>
    simp only [PoolLife.step]
    split_ifs
    · exact ⟨h.stop, h.joining, h.awake⟩
    · exact h
  | notifyOne i =>
    simp only [PoolLife.step]
    split_ifs with _ hblocked
    · exact h
    · exact absurd rfl (h.awake _ (List.mem_of_getElem? hblocked)).1
    · exact h
    · exact ⟨h.stop, h.joining, h.awake⟩
  | spurious i =>
    simp only [PoolLife.step]
    split_ifs with hblocked
    · exact absurd rfl (h.awake _ (List.mem_of_getElem? hblocked)).1
    · exact h
  | worker i =>
    simp only [PoolLife.step, stepWorker]
    split
    · split_ifs
      · exact h.setPhase _ _ (by decide)
      · exact h
    · unfold test
      split
      · rw [h.stop, if_pos rfl]
        exact h.setPhase _ _ (by decide)
      · rename_i first tasks htasks
        have hmoved := h.setPhase i (.popped first) ⟨nofun, nofun⟩
        exact ⟨hmoved.stop, hmoved.joining, hmoved.awake⟩
    · rename_i hold
      exact absurd rfl (h.awake _ (List.mem_of_getElem? hold)).2
    · rename_i task hold
      have hmoved := h.setPhase i (.counted task) ⟨nofun, nofun⟩
      exact ⟨hmoved.stop, hmoved.joining, hmoved.awake⟩
    · have hmoved := h.setPhase i .ran (by decide)
      exact ⟨hmoved.stop, hmoved.joining, hmoved.awake⟩
    · have hmoved := h.setPhase i .entering (by decide)
      exact ⟨hmoved.stop, hmoved.joining, hmoved.awake⟩
    · exact h
  | clear =>
    simp only [PoolLife.step]
    split_ifs
    · exact ⟨h.stop, h.joining, h.awake⟩
    · exact h
  | setStop =>
    simp only [PoolLife.step, h.joining]
    exact h
  | notifyAll =>
    simp only [PoolLife.step, h.joining]
    exact h

/-- This worker missed the notification. -/
structure Missed (s : PoolLife) (i : ℕ) : Prop where
  joining : s.destructor = .joining
  waits : s.workers[i]? = some .blocking ∨ s.workers[i]? = some .blocked

theorem Missed.step (h : s.Missed i) {e : LifeStep} (hwake : NoWake e) : (s.step e).Missed i := by
  have hother : ∀ {j : ℕ} {old : WorkerLoop} (next : WorkerLoop), s.workers[j]? = some old →
      old ≠ .blocking → old ≠ .blocked → (s.setPhase j next).Missed i := by
    intro j old next hold hblocking hblocked
    refine ⟨h.joining, ?_⟩
    have hij : j ≠ i := by
      rintro rfl
      rcases h.waits with hwaits | hwaits
      · exact hblocking (Option.some.inj (hold.symm.trans hwaits))
      · exact hblocked (Option.some.inj (hold.symm.trans hwaits))
    rw [setPhase, List.getElem?_set_ne hij]
    exact h.waits
  cases e with
  | enqueue =>
    simp only [PoolLife.step]
    split_ifs
    · exact h
    · exact ⟨h.joining, h.waits⟩
  | push =>
    simp only [PoolLife.step]
    split_ifs
    · exact ⟨h.joining, h.waits⟩
    · exact h
  | notifyOne j => exact hwake.elim
  | spurious j => exact hwake.elim
  | worker j =>
    simp only [PoolLife.step, stepWorker]
    split
    · rename_i hold
      split_ifs
      · exact hother _ hold nofun nofun
      · exact h
    · rename_i hold
      unfold test
      split
      · exact hother _ hold nofun nofun
      · rename_i first tasks htasks
        have hmoved := hother (.popped first) hold nofun nofun
        exact ⟨hmoved.joining, hmoved.waits⟩
    · rename_i hold
      refine ⟨h.joining, ?_⟩
      by_cases hij : j = i
      · subst hij
        have hlt := (List.getElem?_eq_some_iff.mp hold).1
        exact Or.inr (List.getElem?_set_self hlt)
      · rw [setPhase, List.getElem?_set_ne hij]
        exact h.waits
    · rename_i task hold
      have hmoved := hother (.counted task) hold nofun nofun
      exact ⟨hmoved.joining, hmoved.waits⟩
    · rename_i task hold
      have hmoved := hother .ran hold nofun nofun
      exact ⟨hmoved.joining, hmoved.waits⟩
    · rename_i hold
      have hmoved := hother .entering hold nofun nofun
      exact ⟨hmoved.joining, hmoved.waits⟩
    · exact h
  | clear =>
    simp only [PoolLife.step]
    split_ifs
    · exact ⟨h.joining, h.waits⟩
    · exact h
  | setStop =>
    simp only [PoolLife.step, h.joining]
    exact h
  | notifyAll =>
    simp only [PoolLife.step, h.joining]
    exact h

/-- Let the destructor be about to call `notify_all`. If a worker is between its test and its
block, the threads can come to a state in which the destructor waits for ever, unless somebody
else notifies. If no worker is, then whenever the workers have come to an end, all of them are
gone and the destructor returns. -/
theorem stuck_iff (threads : ℕ) (steps : List LifeStep) {s : PoolLife}
    (hs : s = run step (create threads) steps) (hdestructor : s.destructor = .stopped) :
    ((∃ more : List LifeStep, (∀ e ∈ more, NoWake e) ∧
        (run step (s.step .notifyAll) more).Stuck) ↔ .blocking ∈ s.workers) ∧
      (.blocking ∉ s.workers → ∀ more : List LifeStep,
        (run step (s.step .notifyAll) more).Quiescent →
          ∀ w ∈ (run step (s.step .notifyAll) more).workers, w = .exited) := by
  have hnotified : s.step .notifyAll =
      { s with workers := s.workers.map wake, destructor := .joining } := by
    simp only [PoolLife.step]
    exact if_pos hdestructor
  have hstop : s.stop = true := by
    rw [hs] at hdestructor ⊢
    rw [(sound_run threads steps).stopped, hdestructor]
    decide
  have hawake : .blocking ∉ s.workers → ∀ more : List LifeStep,
      (run step (s.step .notifyAll) more).Awake := by
    intro hnone more
    refine run_invariant (P := fun _ _ => True) (fun _ e h _ => h.step e) ?_ (along_true _ _)
    rw [hnotified]
    refine ⟨hstop, rfl, fun w hw => ?_⟩
    obtain ⟨w', hw', rfl⟩ := List.mem_map.mp hw
    cases w' with
    | blocking => exact absurd hw' hnone
    | _ => exact ⟨nofun, nofun⟩
  refine ⟨⟨?_, fun hblocking => ?_⟩, fun hnone more hquiescent w hw => ?_⟩
  · rintro ⟨more, -, -, -, hblocked⟩
    by_contra hnone
    exact absurd rfl ((hawake hnone more).awake _ hblocked).1
  · obtain ⟨i, hi⟩ := List.mem_iff_getElem?.mp hblocking
    obtain ⟨indices, hquiescent⟩ := exists_quiescent (s.step .notifyAll)
    have hnoWake : ∀ e ∈ indices.map LifeStep.worker, NoWake e := by
      intro e he
      obtain ⟨j, -, rfl⟩ := List.mem_map.mp he
      trivial
    have hmissed : (run step (s.step .notifyAll) (indices.map .worker)).Missed i := by
      have hkeep : ∀ (s' : PoolLife) (e : LifeStep),
          s'.Missed i → NoWake e → (s'.step e).Missed i :=
        fun _ _ h hwake => h.step hwake
      refine run_invariant hkeep ?_ (along_of_forall hnoWake)
      rw [hnotified]
      refine ⟨rfl, Or.inl ?_⟩
      rw [List.getElem?_map, hi]
      rfl
    refine ⟨indices.map .worker, hnoWake, hmissed.joining, hquiescent, ?_⟩
    rcases hmissed.waits with hwaits | hwaits
    · have hidle := quiescent_iff.mp hquiescent _ (List.mem_of_getElem? hwaits)
      exact absurd hidle (by decide)
    · exact List.mem_of_getElem? hwaits
  · rcases quiescent_iff.mp hquiescent w hw with rfl | rfl
    · exact absurd rfl ((hawake hnone more).awake _ hw).1
    · rfl

/-- The destructor runs between the test of the worker and its block. -/
theorem stuck_iff_one :
    (∃ more : List LifeStep, (∀ e ∈ more, NoWake e) ∧
      (run step (run step (create 1) [.worker 0, .worker 0, .setStop, .notifyAll]) more).Stuck) :=
  (stuck_iff 1 [.worker 0, .worker 0, .setStop] rfl (by decide)).1.mpr (by decide)

/-- One task, and its worker is gone. -/
theorem exactlyOnce_one :
    (run step (create 1) [.enqueue, .push, .worker 0, .worker 0, .worker 0]).places 0 = 1 :=
  (exactlyOnce 1 [.enqueue, .push, .worker 0, .worker 0, .worker 0] rfl 0 (by decide)).1

end PoolLife

end Blackstone.Bank
