import Blackstone.TokenNode.Core

/-!
# Exactly-once execution

`exactlyOnce_run_iff`: in a run every verified transaction that left the pool is debited
once and credited once, or in the hands of a worker, if and only if the block miner pops
none of them and every update of a worker finds an entry in the table.
`minedTransfer_not_exactlyOnce` is a run in which a transaction ends in a block and is never
applied.

The proof counts, for one transaction, the departures that no debit and no worker accounts
for. A step never lowers that number, and raises it exactly when it violates the condition
(`missing_coreStep`, `spares_iff`).
-/

namespace Blackstone.TokenNode

open Balance Runs

variable {n : Nat}

/-- The debits of `tx` that a worker has still to make. -/
def WorkerPhase.owedDebits (tx : Transaction) : WorkerPhase → Int
  | .popped tx' => if tx' = tx then 1 else 0
  | _ => 0

/-- The credits of `tx` that a worker has still to make. -/
def WorkerPhase.owedCredits (tx : Transaction) : WorkerPhase → Int
  | .idle => 0
  | .popped tx' => if tx' = tx then 1 else 0
  | .debited tx' => if tx' = tx then 1 else 0

@[simp] theorem owedDebits_idle (tx : Transaction) : WorkerPhase.idle.owedDebits tx = 0 := rfl

@[simp] theorem owedDebits_popped (tx tx' : Transaction) :
    (WorkerPhase.popped tx').owedDebits tx = if tx' = tx then 1 else 0 := rfl

@[simp] theorem owedDebits_debited (tx tx' : Transaction) :
    (WorkerPhase.debited tx').owedDebits tx = 0 := rfl

@[simp] theorem owedCredits_idle (tx : Transaction) : WorkerPhase.idle.owedCredits tx = 0 := rfl

@[simp] theorem owedCredits_popped (tx tx' : Transaction) :
    (WorkerPhase.popped tx').owedCredits tx = if tx' = tx then 1 else 0 := rfl

@[simp] theorem owedCredits_debited (tx tx' : Transaction) :
    (WorkerPhase.debited tx').owedCredits tx = if tx' = tx then 1 else 0 := rfl

/-- The departures of `tx` without a debit and without a worker to make it. -/
def missingDebits (core : Core n) (tx : Transaction) : Int :=
  core.departed.count tx - core.debited.count tx - ∑ i, (core.workers i).owedDebits tx

/-- The departures of `tx` without a credit and without a worker to make it. -/
def missingCredits (core : Core n) (tx : Transaction) : Int :=
  core.departed.count tx - core.credited.count tx - ∑ i, (core.workers i).owedCredits tx

/-- Every verified transaction that left the pool is debited once and credited once, or a
worker is still at it. -/
def ExactlyOnce (core : Core n) : Prop :=
  ∀ tx, txVerify tx = true →
    core.departed.count tx = core.debited.count tx + ∑ i, (core.workers i).owedDebits tx ∧
    core.departed.count tx = core.credited.count tx + ∑ i, (core.workers i).owedCredits tx

/-- The block miner takes no verified transaction, and the update of a worker finds an
entry. -/
def Spares (miner : Miner) (core : Core n) : CoreEvent n → Prop
  | .submit _ => True
  | .worker i =>
    match core.workers i with
    | .idle => True
    | .popped tx => txVerify tx = true → HasRoom core.cache (tx.sender, tx.tokenId)
    | .debited tx => txVerify tx = true → HasRoom core.cache (tx.receiver, tx.tokenId)
  | .consensus _ _ =>
    match core.consensus with
    | .collecting _ txs =>
      mayPop miner txs = true → ∀ tx, (txPoolPop core.pool).1 = some tx → txVerify tx = false
    | _ => True
  | .reuse _ _ => True

/-- The debits of `tx` that an event leaves without a worker to make them. -/
def lostDebits (miner : Miner) (core : Core n) (tx : Transaction) : CoreEvent n → Int
  | .submit _ => 0
  | .worker i =>
    match core.workers i with
    | .popped tx' => if tx' = tx ∧ ¬ HasRoom core.cache (tx'.sender, tx'.tokenId) then 1 else 0
    | _ => 0
  | .consensus _ _ =>
    match core.consensus with
    | .collecting _ txs =>
      if mayPop miner txs = true ∧ (txPoolPop core.pool).1 = some tx then 1 else 0
    | _ => 0
  | .reuse _ _ => 0

/-- The credits of `tx` that an event leaves without a worker to make them. -/
def lostCredits (miner : Miner) (core : Core n) (tx : Transaction) : CoreEvent n → Int
  | .submit _ => 0
  | .worker i =>
    match core.workers i with
    | .debited tx' =>
      if tx' = tx ∧ ¬ HasRoom core.cache (tx'.receiver, tx'.tokenId) then 1 else 0
    | _ => 0
  | .consensus _ _ =>
    match core.consensus with
    | .collecting _ txs =>
      if mayPop miner txs = true ∧ (txPoolPop core.pool).1 = some tx then 1 else 0
    | _ => 0
  | .reuse _ _ => 0

theorem count_concat (txs : List Transaction) (tx' tx : Transaction) :
    ((txs ++ [tx']).count tx : Int) = txs.count tx + if tx' = tx then 1 else 0 := by
  rw [List.count_append, List.count_singleton, Nat.cast_add]
  by_cases h : tx' = tx <;> simp [h]

/-- The count of `tx` in a log that `tx'` enters on a condition. -/
theorem count_concat_ite (p : Prop) [Decidable p] (txs : List Transaction)
    (tx' tx : Transaction) :
    ((if p then txs ++ [tx'] else txs).count tx : Int) =
      txs.count tx + (if tx' = tx then 1 else 0) - if tx' = tx ∧ ¬ p then 1 else 0 := by
  by_cases hp : p
  · rw [if_pos hp, count_concat]
    simp [hp]
  · simp [hp]

/-- A worker step loses nothing but the updates that find no entry. -/
theorem missing_workerStep (miner : Miner) (core : Core n) (i : Fin n) {tx : Transaction}
    (hverify : txVerify tx = true) :
    missingDebits (workerStep core i) tx =
        missingDebits core tx + lostDebits miner core tx (.worker i) ∧
      missingCredits (workerStep core i) tx =
        missingCredits core tx + lostCredits miner core tx (.worker i) := by
  have hmove := workerStep_move core i
  generalize workerStep core i = core' at hmove
  cases hmove with
  | starve hphase hpop =>
    simp [missingDebits, missingCredits, lostDebits, lostCredits, hphase]
  | pop hphase hpop =>
    simp only [missingDebits, missingCredits, lostDebits, lostCredits, hphase, count_concat,
      sum_update_phase, owedDebits_idle, owedDebits_popped, owedCredits_idle, owedCredits_popped]
    omega
  | @reject tx' hphase hreject =>
    have hne : tx' ≠ tx := by
      intro heq
      rw [heq, hverify] at hreject
      cases hreject
    simp only [missingDebits, missingCredits, lostDebits, lostCredits, hphase,
      sum_update_phase, owedDebits_idle, owedDebits_popped, owedCredits_idle, owedCredits_popped,
      hne, false_and, if_false]
    omega
  | debit hphase _ =>
    simp only [missingDebits, missingCredits, lostDebits, lostCredits, hphase, count_concat_ite,
      sum_update_phase, owedDebits_debited, owedDebits_popped, owedCredits_debited,
      owedCredits_popped]
    omega
  | credit hphase =>
    simp only [missingDebits, missingCredits, lostDebits, lostCredits, hphase, count_concat_ite,
      sum_update_phase, owedDebits_debited, owedDebits_idle, owedCredits_debited,
      owedCredits_idle]
    omega

/-- A step of the consensus thread loses exactly the transaction that it pops. -/
theorem missing_consensusStep (miner : Miner) (core : Core n) (now addr : UInt64)
    (tx : Transaction) :
    missingDebits (consensusStep miner core now addr) tx =
        missingDebits core tx + lostDebits miner core tx (.consensus now addr) ∧
      missingCredits (consensusStep miner core now addr) tx =
        missingCredits core tx + lostCredits miner core tx (.consensus now addr) := by
  have hmove := consensusStep_move miner core now addr
  generalize consensusStep miner core now addr = core' at hmove
  cases hmove with
  | pop hphase hmay hpop =>
    simp only [missingDebits, missingCredits, lostDebits, lostCredits, hphase, hmay, hpop,
      count_concat, true_and, Option.some.injEq]
    omega
  | drained hphase hpop =>
    simp [missingDebits, missingCredits, lostDebits, lostCredits, hphase, hpop]
  | filled hphase hmay =>
    simp [missingDebits, missingCredits, lostDebits, lostCredits, hphase, hmay]
  | wait hphase => simp [lostDebits, lostCredits, hphase]
  | start hphase => simp [missingDebits, missingCredits, lostDebits, lostCredits, hphase]
  | validate hphase hvalid =>
    simp [missingDebits, missingCredits, lostDebits, lostCredits, hphase]
  | drop hphase hvalid =>
    simp [missingDebits, missingCredits, lostDebits, lostCredits, hphase]
  | add hphase => simp [missingDebits, missingCredits, lostDebits, lostCredits, hphase]
  | reward hphase => simp [missingDebits, missingCredits, lostDebits, lostCredits, hphase]

theorem missing_coreStep (miner : Miner) (core : Core n) (event : CoreEvent n)
    {tx : Transaction} (hverify : txVerify tx = true) :
    missingDebits (coreStep miner core event) tx =
        missingDebits core tx + lostDebits miner core tx event ∧
      missingCredits (coreStep miner core event) tx =
        missingCredits core tx + lostCredits miner core tx event := by
  cases event with
  | submit tx' =>
    simp [coreStep, submitStep, missingDebits, missingCredits, lostDebits, lostCredits]
  | worker i => exact missing_workerStep miner core i hverify
  | consensus now addr => exact missing_consensusStep miner core now addr tx
  | reuse i block =>
    rw [coreStep, reuseStep]
    split <;> simp [missingDebits, missingCredits, lostDebits, lostCredits]

theorem lost_nonneg (miner : Miner) (core : Core n) (tx : Transaction) (event : CoreEvent n) :
    0 ≤ lostDebits miner core tx event ∧ 0 ≤ lostCredits miner core tx event := by
  cases event with
  | submit tx' => exact ⟨Int.le_refl 0, Int.le_refl 0⟩
  | worker i =>
    simp only [lostDebits, lostCredits]
    cases core.workers i with
    | idle => exact ⟨Int.le_refl 0, Int.le_refl 0⟩
    | popped tx' =>
      refine ⟨?_, Int.le_refl 0⟩
      dsimp only
      split <;> omega
    | debited tx' =>
      refine ⟨Int.le_refl 0, ?_⟩
      dsimp only
      split <;> omega
  | consensus now addr =>
    simp only [lostDebits, lostCredits]
    cases core.consensus with
    | collecting header txs =>
      dsimp only
      split <;> omega
    | idle => exact ⟨Int.le_refl 0, Int.le_refl 0⟩
    | created block => exact ⟨Int.le_refl 0, Int.le_refl 0⟩
    | validated block => exact ⟨Int.le_refl 0, Int.le_refl 0⟩
    | added block => exact ⟨Int.le_refl 0, Int.le_refl 0⟩
  | reuse i block => exact ⟨Int.le_refl 0, Int.le_refl 0⟩

/-- No verified transaction is lost by an update that may find no entry. -/
theorem lostUpdate_eq_zero_iff (p : Prop) [Decidable p] (tx' : Transaction) :
    (∀ tx, txVerify tx = true → (if tx' = tx ∧ ¬ p then (1 : Int) else 0) = 0) ↔
      (txVerify tx' = true → p) := by
  constructor
  · intro h hverify
    by_contra hno
    have hzero := h tx' hverify
    rw [if_pos ⟨rfl, hno⟩] at hzero
    exact absurd hzero one_ne_zero
  · intro h tx hverify
    rw [if_neg]
    rintro ⟨rfl, hno⟩
    exact hno (h hverify)

/-- The condition on an event says that it loses no verified transaction. -/
theorem spares_iff (miner : Miner) (core : Core n) (event : CoreEvent n) :
    Spares miner core event ↔ ∀ tx, txVerify tx = true →
      lostDebits miner core tx event = 0 ∧ lostCredits miner core tx event = 0 := by
  cases event with
  | submit tx' => exact ⟨fun _ _ _ => ⟨rfl, rfl⟩, fun _ => trivial⟩
  | worker i =>
    simp only [Spares, lostDebits, lostCredits]
    cases core.workers i with
    | idle => exact ⟨fun _ _ _ => ⟨rfl, rfl⟩, fun _ => trivial⟩
    | popped tx' => simp only [and_true, lostUpdate_eq_zero_iff]
    | debited tx' => simp only [true_and, lostUpdate_eq_zero_iff]
  | consensus now addr =>
    simp only [Spares, lostDebits, lostCredits]
    cases core.consensus with
    | collecting header txs =>
      dsimp only
      constructor
      · intro h tx hverify
        have hno : ¬ (mayPop miner txs = true ∧ (txPoolPop core.pool).1 = some tx) := by
          intro hpop
          have hreject := h hpop.1 tx hpop.2
          rw [hverify] at hreject
          cases hreject
        exact ⟨if_neg hno, if_neg hno⟩
      · intro h hmay tx hpop
        by_contra hverify
        have hzero := (h tx (Bool.eq_true_of_not_eq_false hverify)).1
        rw [if_pos ⟨hmay, hpop⟩] at hzero
        exact absurd hzero one_ne_zero
    | idle => exact ⟨fun _ _ _ => ⟨rfl, rfl⟩, fun _ => trivial⟩
    | created block => exact ⟨fun _ _ _ => ⟨rfl, rfl⟩, fun _ => trivial⟩
    | validated block => exact ⟨fun _ _ _ => ⟨rfl, rfl⟩, fun _ => trivial⟩
    | added block => exact ⟨fun _ _ _ => ⟨rfl, rfl⟩, fun _ => trivial⟩
  | reuse i block => exact ⟨fun _ _ _ => ⟨rfl, rfl⟩, fun _ => trivial⟩

theorem exactlyOnce_iff (core : Core n) :
    ExactlyOnce core ↔ ∀ tx, txVerify tx = true →
      missingDebits core tx = 0 ∧ missingCredits core tx = 0 := by
  unfold ExactlyOnce missingDebits missingCredits
  refine forall_congr' fun tx => imp_congr_right fun _ => ?_
  omega

/-- What is missing stays missing. -/
theorem missing_le_run (miner : Miner) (core : Core n) (events : List (CoreEvent n))
    {tx : Transaction} (hverify : txVerify tx = true) :
    missingDebits core tx ≤ missingDebits (run (coreStep miner) core events) tx ∧
      missingCredits core tx ≤ missingCredits (run (coreStep miner) core events) tx := by
  induction events generalizing core with
  | nil => exact ⟨Int.le_refl _, Int.le_refl _⟩
  | cons event events ih =>
    have hstep := missing_coreStep miner core event hverify
    have hlost := lost_nonneg miner core tx event
    have hrest := ih (coreStep miner core event)
    rw [run_cons]
    omega

theorem exactlyOnce_of_run {miner : Miner} {core : Core n} (h : ExactlyOnce core)
    (events : List (CoreEvent n)) :
    ExactlyOnce (run (coreStep miner) core events) ↔
      Along (coreStep miner) (Spares miner) core events := by
  induction events generalizing core with
  | nil => exact ⟨fun _ => trivial, fun _ => h⟩
  | cons event events ih =>
    rw [run_cons, Along]
    by_cases hspares : Spares miner core event
    · have hnext : ExactlyOnce (coreStep miner core event) := by
        rw [exactlyOnce_iff] at h ⊢
        intro tx hverify
        have hstep := missing_coreStep miner core event hverify
        have hlost := (spares_iff miner core event).mp hspares tx hverify
        have hbefore := h tx hverify
        omega
      rw [and_iff_right hspares]
      exact ih hnext
    · refine ⟨fun hend => ?_, fun hboth => absurd hboth.1 hspares⟩
      rw [spares_iff] at hspares
      rw [exactlyOnce_iff] at h hend
      exfalso
      apply hspares
      intro tx hverify
      have hstep := missing_coreStep miner core event hverify
      have hlost := lost_nonneg miner core tx event
      have hrest := missing_le_run miner (coreStep miner core event) events hverify
      have hbefore := h tx hverify
      have hafter := hend tx hverify
      omega

/-- From a start of the threads, every verified transaction that left the pool is debited
once and credited once, or in the hands of a worker, exactly when the block miner popped
none of them and every update of a worker found an entry. -/
theorem exactlyOnce_run_iff (miner : Miner) (n : Nat) (pool : TxPool) (cache : BalanceCache)
    (chain : Blockchain) (events : List (CoreEvent n)) :
    ExactlyOnce (run (coreStep miner) (coreStart n pool cache chain) events) ↔
      Along (coreStep miner) (Spares miner) (coreStart n pool cache chain) events := by
  apply exactlyOnce_of_run
  intro tx _
  simp [coreStart]

/-! ## A transfer that ends in a block -/

/-- A node with one worker, whose sender owns 5000. -/
def transferStart : Core 1 :=
  coreStart 1 fundedNode.pool fundedNode.cache (blockchainCreate 1700000000)

/-- The transfer is submitted, and the consensus thread makes a block of it before the
worker looks at the pool. -/
def transferEvents : List (CoreEvent 1) :=
  .submit sampleTx :: List.replicate 6 (.consensus 1700000001 0)

/-- The block of the transfer. -/
def transferBlock : Block :=
  fillBlock (blockHeader minerCreate (blockchainCreate 1700000000) 1700000001) [⟨0, sampleTx⟩]

theorem transferBlock_valid :
    consensusValidateBlock consensusCreate transferBlock (blockchainCreate 1700000000) = true := by
  have hlast : blockchainGetBlock (blockchainCreate 1700000000) 0 =
      some (storeDigest (genesisHeader 1700000000)) := rfl
  have hprev : transferBlock.prevHash = (storeDigest (genesisHeader 1700000000)).blockHash := rfl
  have hheight : transferBlock.height = 1 := rfl
  have hchain : (blockchainCreate 1700000000).height = 1 := rfl
  have htime : ¬ transferBlock.timestamp ≤ (storeDigest (genesisHeader 1700000000)).timestamp := by
    decide +kernel
  have htarget : hashPrefix transferBlock.blockHash ≤ 1 := by
    decide +kernel
  have hdiff : consensusCreate.minDifficulty / transferBlock.difficulty = 1 := by
    decide +kernel
  have hne : transferBlock.difficulty ≠ 0 := by decide +kernel
  simp [consensusValidateBlock, hheight, hchain, hlast, hprev, htime, hdiff, hne, htarget]

/-- The node before the block is validated. -/
def createdCore : Core 1 :=
  { transferStart with
    pool := (txPoolPop (txPoolAdd fundedNode.pool sampleTx).2).2
    consensus := .created transferBlock
    accepted := [sampleTx]
    departed := [sampleTx] }

theorem transfer_run :
    run (coreStep minerCreate) transferStart transferEvents =
      { createdCore with
        cache := balanceCacheUpdate fundedNode.cache transferBlock.miner 0 transferBlock.reward
        chain := (blockchainAddBlock (blockchainCreate 1700000000) transferBlock).2
        consensus := .idle
        rewarded := [transferBlock] } := by
  have hcreated : run (coreStep minerCreate) transferStart
      (.submit sampleTx :: List.replicate 3 (.consensus 1700000001 0)) = createdCore := rfl
  have hvalidated : coreStep minerCreate createdCore (.consensus 1700000001 0) =
      { createdCore with consensus := .validated transferBlock } :=
    if_pos transferBlock_valid
  have hroom : HasRoom createdCore.cache (transferBlock.miner, 0) := by decide +kernel
  calc run (coreStep minerCreate) transferStart transferEvents
      = run (coreStep minerCreate) (run (coreStep minerCreate) transferStart
          (.submit sampleTx :: List.replicate 3 (.consensus 1700000001 0)))
          (List.replicate 3 (.consensus 1700000001 0)) := rfl
    _ = run (coreStep minerCreate) { createdCore with consensus := .validated transferBlock }
          (List.replicate 2 (.consensus 1700000001 0)) := by
        rw [hcreated, List.replicate_succ, run_cons, hvalidated]
    _ = _ := by
        simp only [List.replicate, run_cons, run_nil, coreStep, consensusStep]
        rw [if_pos hroom]
        rfl

/-- The transfer has left the pool, its block is in the chain and all threads are back at
the start of their loops, but nothing was ever debited or credited. -/
theorem minedTransfer_not_exactlyOnce :
    (∀ i, (run (coreStep minerCreate) transferStart transferEvents).workers i = .idle) ∧
      (run (coreStep minerCreate) transferStart transferEvents).consensus = .idle ∧
      (run (coreStep minerCreate) transferStart transferEvents).chain.height = 2 ∧
      (run (coreStep minerCreate) transferStart transferEvents).departed = [sampleTx] ∧
      ¬ ExactlyOnce (run (coreStep minerCreate) transferStart transferEvents) := by
  rw [transfer_run]
  refine ⟨fun _ => rfl, rfl, rfl, rfl, fun h => ?_⟩
  have hdebits := (h sampleTx (by decide +kernel)).1
  revert hdebits
  decide +kernel

end Blackstone.TokenNode
