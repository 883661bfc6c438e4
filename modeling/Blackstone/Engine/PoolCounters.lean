import Blackstone.Engine.DoubleSpend

/-!
# The counters of the pool

A worker that processed a transaction increments `size`, which the pop has already lowered.
From then on the size is one more than the number of pending transactions, and a later pop
returns a slot that holds none.

`poolSound_run_iff`: the counters and the history of the pool stay sound in every state of
a run if and only if no worker gets to that increment. `staleReplay_not_sound` is a run in
which a transaction is popped twice.
-/

namespace Blackstone.Engine

open RingBuffer Runs

variable {n : Nat}

/-- The three counters agree, the pool is not overfull, and what was popped is what was
added first. -/
structure PoolSound (engine : P2pEngine n) : Prop where
  size_eq : engine.pool.tail.toNat = engine.pool.head.toNat + engine.pool.size.toNat
  size_le : engine.pool.size ≤ engine.pool.capacity
  popped_le : engine.popped <+: engine.added

/-- The event is not the increment of a worker that processed a transaction. -/
def NoIncrement (engine : P2pEngine n) (event : EngineEvent n) : Prop :=
  ∀ i tx, event = .worker i → engine.jobs (some i) ≠ some ⟨tx, .finished true⟩

/-- The pool holds what was added and not popped. -/
def Pending (engine : P2pEngine n) : Prop :=
  (∃ q, PoolRep engine.pool q ∧ engine.added = engine.popped ++ q) ∧
    engine.pool.tail.toNat = engine.added.length

theorem Pending.sound {engine : P2pEngine n} (h : Pending engine) : PoolSound engine := by
  obtain ⟨⟨q, hrep, hadded⟩, _⟩ := h
  refine ⟨?_, ?_, ⟨q, hadded.symm⟩⟩
  · rw [hrep.counters.tail_eq, hrep.counters.size_eq]
  · rw [UInt64.le_iff_toNat_le, hrep.counters.size_eq]
    exact hrep.counters.len_le

theorem Pending.addStep {engine : P2pEngine n} (h : Pending engine) (tx : Transaction)
    (hadds : (addStep engine tx).added.length < 2 ^ 64) : Pending (addStep engine tx) := by
  obtain ⟨⟨q, hrep, hadded⟩, htail⟩ := h
  cases haccepted : (transactionPoolAdd engine.pool tx).1 with
  | false =>
    have hpool := transactionPoolAdd_refused haccepted
    refine ⟨⟨q, ?_, ?_⟩, ?_⟩
    · simp only [Engine.addStep, hpool]
      exact hrep
    · simp only [Engine.addStep, haccepted]
      exact hadded
    · simp only [Engine.addStep, haccepted, hpool]
      exact htail
  | true =>
    have hlength : (Engine.addStep engine tx).added.length = engine.added.length + 1 := by
      simp only [Engine.addStep, haccepted, if_true, List.length_append, List.length_singleton]
    have hroom : engine.pool.tail.toNat + 1 < 2 ^ 64 := by omega
    obtain ⟨hnext, htail'⟩ := hrep.add hroom haccepted
    refine ⟨⟨q ++ [tx], hnext, ?_⟩, ?_⟩
    · simp only [Engine.addStep, haccepted, if_true, hadded, List.append_assoc]
    · rw [hlength]
      exact htail'.trans (by rw [htail])

/-- A pop moves the oldest pending transaction to the popped ones. -/
theorem Pending.pop {engine : P2pEngine n} (h : Pending engine) {tx : Transaction}
    {pool : TxPool} (hpop : transactionPoolPop engine.pool = (some tx, pool)) :
    (∃ q, PoolRep pool q ∧ engine.added = engine.popped ++ [tx] ++ q) ∧
      pool.tail.toNat = engine.added.length := by
  obtain ⟨⟨q, hrep, hadded⟩, htail⟩ := h
  obtain ⟨hhead, hrest, hsame⟩ := hrep.pop
  rw [hpop] at hhead hrest hsame
  refine ⟨⟨q.tail, hrest, history_pop hadded hhead.symm⟩, ?_⟩
  rw [← htail]
  exact congrArg UInt64.toNat hsame

theorem Pending.pop_none {engine : P2pEngine n} (h : Pending engine) {pool : TxPool}
    (hpop : transactionPoolPop engine.pool = (none, pool)) :
    (∃ q, PoolRep pool q ∧ engine.added = engine.popped ++ q) ∧
      pool.tail.toNat = engine.added.length := by
  obtain ⟨⟨q, hrep, hadded⟩, htail⟩ := h
  obtain ⟨hhead, hrest, hsame⟩ := hrep.pop
  rw [hpop] at hhead hrest hsame
  obtain rfl := List.head?_eq_none_iff.mp hhead.symm
  refine ⟨⟨[], hrest, hadded⟩, ?_⟩
  rw [← htail]
  exact congrArg UInt64.toNat hsame

theorem added_isPrefix_step (engine : P2pEngine n) (event : EngineEvent n) :
    engine.added <+: (engineStep engine event).added := by
  have hadd : ∀ tx, engine.added <+: (addStep engine tx).added := by
    intro tx
    unfold addStep
    dsimp only
    split
    · exact List.prefix_append _ _
    · exact List.prefix_refl _
  cases event with
  | add tx => exact hadd tx
  | worker i =>
    have hmove := workerStep_move engine i
    change engine.added <+: (workerStep engine i).added
    generalize workerStep engine i = engine' at hmove
    cases hmove <;> exact List.prefix_refl _
  | miner found =>
    have hmove := minerStep_move engine found
    change engine.added <+: (minerStep engine found).added
    generalize minerStep engine found = engine' at hmove
    cases hmove with
    | giveBack => exact hadd _
    | _ => exact List.prefix_refl _

theorem added_isPrefix_run (engine : P2pEngine n) (events : List (EngineEvent n)) :
    engine.added <+: (run engineStep engine events).added := by
  induction events generalizing engine with
  | nil => exact List.prefix_refl _
  | cons event events ih => exact (added_isPrefix_step engine event).trans (ih _)

theorem Pending.step {engine : P2pEngine n} (h : Pending engine) {event : EngineEvent n}
    (hno : NoIncrement engine event)
    (hadds : (engineStep engine event).added.length < 2 ^ 64) :
    Pending (engineStep engine event) := by
  cases event with
  | add tx => exact h.addStep tx hadds
  | worker i =>
    have hmove := workerStep_move engine i
    change Pending (workerStep engine i)
    generalize workerStep engine i = engine' at hmove
    cases hmove with
    | starve _ hpop => exact h.pop_none hpop
    | pop _ hpop => exact h.pop hpop
    | leave => exact h
    | count hjob => exact absurd hjob (hno i _ rfl)
    | work => exact h
  | miner found =>
    have hmove := minerStep_move engine found
    change (minerStep engine found).added.length < _ at hadds
    change Pending (minerStep engine found)
    generalize minerStep engine found = engine' at hmove hadds
    cases hmove with
    | pop _ hpop => exact h.pop hpop
    | drained _ hpop => exact h.pop_none hpop
    | giveBack => exact h.addStep _ hadds
    | wait => exact h
    | start => exact h
    | filled => exact h
    | abandon => exact h
    | addBlock => exact h
    | reward => exact h
    | take => exact h
    | work => exact h
    | leave => exact h
    | done => exact h

/-- After the increment the size is one too many. -/
theorem not_sound_of_increment {engine : P2pEngine n} (h : Pending engine) {i : Fin n}
    {tx : Transaction} (hjob : engine.jobs (some i) = some ⟨tx, .finished true⟩) :
    ¬ PoolSound (engineStep engine (.worker i)) := by
  intro hsound
  have hstep : engineStep engine (.worker i) = { engine with
      pool := { engine.pool with size := engine.pool.size + 1 }
      jobs := Function.update engine.jobs (some i) none } := by
    simp only [engineStep, workerStep, hjob, if_true]
  have hbefore := h.sound.size_eq
  have hafter := hsound.size_eq
  rw [hstep] at hafter
  dsimp only at hafter
  have hsame : engine.pool.size + 1 = engine.pool.size := UInt64.toNat_inj.mp (by omega)
  exact absurd hsame (by simp)

theorem poolSound_iff_of_pending {engine : P2pEngine n} (h : Pending engine)
    {events : List (EngineEvent n)}
    (hadds : (run engineStep engine events).added.length < 2 ^ 64) :
    (∀ pre post, events = pre ++ post → PoolSound (run engineStep engine pre)) ↔
      Along engineStep NoIncrement engine events := by
  induction events generalizing engine with
  | nil =>
    refine ⟨fun _ => trivial, fun _ pre post hsplit => ?_⟩
    rw [(List.append_eq_nil_iff.mp hsplit.symm).1]
    exact h.sound
  | cons event events ih =>
    have hnext := (added_isPrefix_run (engineStep engine event) events).length_le
    rw [Along]
    by_cases hno : NoIncrement engine event
    · have hpending := h.step hno (Nat.lt_of_le_of_lt hnext hadds)
      rw [and_iff_right hno, ← ih hpending hadds]
      constructor
      · intro hall pre post hsplit
        exact hall (event :: pre) post (by rw [hsplit, List.cons_append])
      · intro hall pre post hsplit
        cases pre with
        | nil => exact h.sound
        | cons event' pre =>
          obtain ⟨rfl, hrest⟩ := List.cons.inj hsplit
          exact hall pre post hrest
    · refine ⟨fun hall => ?_, fun hboth => absurd hboth.1 hno⟩
      unfold NoIncrement at hno
      simp only [not_forall, not_not] at hno
      obtain ⟨i, tx, rfl, hjob⟩ := hno
      exact absurd (hall [.worker i] events rfl) (not_sound_of_increment h hjob)

/-- In a run with fewer than `2^64` additions, the pool is sound in every state exactly
when no worker increments its size. -/
theorem poolSound_run_iff (n : Nat) (memory : Nat → Transaction) {capacity : UInt64}
    (hcap : 0 < capacity) (cache : BalanceCache) (chain : Blockchain)
    (events : List (EngineEvent n))
    (hadds : (run engineStep (engineStart n (transactionPoolCreate memory capacity) cache chain)
      events).added.length < 2 ^ 64) :
    (∀ pre post, events = pre ++ post → PoolSound (run engineStep
        (engineStart n (transactionPoolCreate memory capacity) cache chain) pre)) ↔
      Along engineStep NoIncrement
        (engineStart n (transactionPoolCreate memory capacity) cache chain) events := by
  apply poolSound_iff_of_pending _ hadds
  exact ⟨⟨[], poolRep_create memory hcap, rfl⟩, rfl⟩

/-! ## A replayed transaction -/

/-- One worker, a pool of one slot, and a sender who owns 1000. -/
def replayStart : P2pEngine 1 :=
  engineStart 1 (transactionPoolCreate (fun _ => spend 2) 1) spenderCache blockchainCreate

theorem replayStart_sound_iff :
    (∀ pre post, [EngineEvent.add (spend 1), .worker 0, .miner true] = pre ++ post →
      PoolSound (run engineStep replayStart pre)) ↔
        Along engineStep NoIncrement replayStart
          [.add (spend 1), .worker 0, .miner true] :=
  poolSound_run_iff 1 (fun _ => spend 2) (by decide) spenderCache blockchainCreate _
    (by decide +kernel)

/-- The worker processes the one transaction and looks at the pool again. -/
def replayEvents : List (EngineEvent 1) := .add (spend 1) :: List.replicate 7 (.worker 0)

/-- The transaction that was added once is popped twice. -/
theorem staleReplay_not_sound :
    (run engineStep replayStart replayEvents).added = [spend 1] ∧
      (run engineStep replayStart replayEvents).popped = [spend 1, spend 1] ∧
      ¬ PoolSound (run engineStep replayStart replayEvents) := by
  have hadded : (run engineStep replayStart replayEvents).added = [spend 1] := by
    decide +kernel
  have hpopped : (run engineStep replayStart replayEvents).popped = [spend 1, spend 1] := by
    decide +kernel
  refine ⟨hadded, hpopped, fun hsound => ?_⟩
  have hlength := hsound.popped_le.length_le
  rw [hadded, hpopped] at hlength
  exact absurd hlength (by decide)

end Blackstone.Engine
