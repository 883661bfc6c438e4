import Blackstone.Engine.Ledger
import Blackstone.Engine.TxPool

/-!
# The threads of the engine

Any number of workers and the mining thread. A thread runs `process_transaction` in four
atomic steps: it reads the height of the chain, it reads the balance, it debits the sender
and it credits the receiver. A worker that processed a transaction then increments the size
of the pool, outside the lock of the pool. The mining thread fills blocks from the same
pool, puts back a transaction that exceeds the gas limit, and processes the transactions of
a block once the block is in the chain.

Whether the nonce search finds a block depends on a clock and on the memory of the block;
the event of the mining thread says so. The cleanup thread is not part of the model.
`WorkerMove` and `MinerMove` list what a step can do.
-/

namespace Blackstone.Engine

open Balance Runs

/-- Where a thread is in `process_transaction`. -/
inductive Progress where
  | started
  | timed (currentBlock : UInt32)
  | verified
  | debited
  | finished (accepted : Bool)
  deriving DecidableEq

/-- A call of `process_transaction` that a thread is in. -/
structure Job where
  tx : Transaction
  progress : Progress
  deriving DecidableEq

/-- One atomic step of `process_transaction`. -/
def jobStep (cache : BalanceCache) (chain : Blockchain) (job : Job) : Job × BalanceCache :=
  match job.progress with
  | .started => ({ job with progress := .timed (currentBlock chain) }, cache)
  | .timed height =>
    if verifyTransaction job.tx cache height then ({ job with progress := .verified }, cache)
    else ({ job with progress := .finished false }, cache)
  | .verified => ({ job with progress := .debited }, debitSender cache job.tx)
  | .debited => ({ job with progress := .finished true }, creditReceiver cache job.tx)
  | .finished _ => (job, cache)

/-- The steps of a job while no other thread runs. -/
def jobSteps (chain : Blockchain) : Nat → Job × BalanceCache → Job × BalanceCache
  | 0, state => state
  | k + 1, (job, cache) => jobSteps chain k (jobStep cache chain job)

/-- Four uninterrupted steps are a call of `process_transaction`. -/
theorem jobSteps_eq_processTransaction (cache : BalanceCache) (chain : Blockchain)
    (tx : Transaction) :
    jobSteps chain 4 (⟨tx, .started⟩, cache) =
      (⟨tx, .finished (processTransaction cache chain tx).1⟩,
        (processTransaction cache chain tx).2) := by
  by_cases hverify : verifyTransaction tx cache (currentBlock chain) = true
  · simp only [jobSteps, jobStep, processTransaction, hverify, if_true]
  · simp only [jobSteps, jobStep, processTransaction, hverify, if_false, Bool.false_eq_true]

/-- Where the mining thread is in the loop of `consensus_thread_function`. -/
inductive MinerPhase where
  | idle
  | collecting (txs : List Transaction) (totalGas : UInt64)
  | returning (txs : List Transaction) (tx : Transaction)
  | mining (block : Block)
  | rewarding (block : Block)
  | processing (txs : List Transaction)
  deriving DecidableEq

/-- The threads that process transactions; `none` is the mining thread. -/
abbrev Thread (n : Nat) := Option (Fin n)

/-- The parts of `p2p_engine_t` that the threads share, and the threads. The last two
fields are the history of the pool, which no step reads. -/
structure P2pEngine (n : Nat) where
  pool : TxPool
  cache : BalanceCache
  chain : Blockchain
  jobs : Thread n → Option Job
  miner : MinerPhase
  added : List Transaction
  popped : List Transaction

/-- All threads are about to start their loops. -/
def engineStart (n : Nat) (pool : TxPool) (cache : BalanceCache) (chain : Blockchain) :
    P2pEngine n where
  pool := pool
  cache := cache
  chain := chain
  jobs _ := none
  miner := .idle
  added := []
  popped := []

/-- A step of a thread, or an addition to the pool from outside. -/
inductive EngineEvent (n : Nat) where
  | add (tx : Transaction)
  | worker (i : Fin n)
  | miner (found : Bool)
  deriving DecidableEq

variable {n : Nat}

/-- `transaction_pool_add`, with the history. -/
def addStep (engine : P2pEngine n) (tx : Transaction) : P2pEngine n :=
  { engine with
    pool := (transactionPoolAdd engine.pool tx).2
    added := if (transactionPoolAdd engine.pool tx).1 then engine.added ++ [tx]
      else engine.added }

/-- A thread takes the next step of its job. -/
def workStep (engine : P2pEngine n) (t : Thread n) (job : Job) : P2pEngine n :=
  { engine with
    jobs := Function.update engine.jobs t (some (jobStep engine.cache engine.chain job).1)
    cache := (jobStep engine.cache engine.chain job).2 }

/-- One step of `worker_thread_function`. -/
def workerStep (engine : P2pEngine n) (i : Fin n) : P2pEngine n :=
  match engine.jobs (some i) with
  | none =>
    match transactionPoolPop engine.pool with
    | (some tx, pool) =>
      { engine with
        pool := pool
        jobs := Function.update engine.jobs (some i) (some ⟨tx, .started⟩)
        popped := engine.popped ++ [tx] }
    | (none, pool) => { engine with pool := pool }
  | some ⟨_, .finished accepted⟩ =>
    { engine with
      pool := if accepted then { engine.pool with size := engine.pool.size + 1 }
        else engine.pool
      jobs := Function.update engine.jobs (some i) none }
  | some job => workStep engine (some i) job

/-- The address that `consensus_thread_function` mines for. -/
def minerAddress : Address := ⟨(Vector.replicate 64 0).setIfInBounds 0 1⟩

/-- The block that `create_block` makes of the transactions that it kept. -/
def createBlock (chain : Blockchain) (txs : List Transaction) : Block where
  height := chain.height
  transactions := txs
  miner := minerAddress
  reward := 5000000000
  difficulty :=
    if chain.height > 0 then
      match chain.blocks (chain.height - 1).toNat with
      | some prev => prev.difficulty
      | none => 0
    else 0x0000FFFF
  gasUsed := txs.foldl (fun gas tx => gas + tx.gasLimit.toUInt32) 0
  gasLimit := 8000000

/-- One step of `consensus_thread_function`. -/
def minerStep (engine : P2pEngine n) (found : Bool) : P2pEngine n :=
  match engine.miner with
  | .idle =>
    if engine.pool.size ≥ 10 then { engine with miner := .collecting [] 0 } else engine
  | .collecting txs totalGas =>
    if txs.length < blockSize then
      match transactionPoolPop engine.pool with
      | (some tx, pool) =>
        { engine with
          pool := pool
          miner := if totalGas + tx.gasLimit ≤ 8000000
            then .collecting (txs ++ [tx]) (totalGas + tx.gasLimit) else .returning txs tx
          popped := engine.popped ++ [tx] }
      | (none, pool) =>
        { engine with pool := pool, miner := .mining (createBlock engine.chain txs) }
    else { engine with miner := .mining (createBlock engine.chain txs) }
  | .returning txs tx =>
    { addStep engine tx with miner := .mining (createBlock engine.chain txs) }
  | .mining block =>
    if found then
      match blockchainAddBlock engine.chain block with
      | (true, chain) => { engine with chain := chain, miner := .rewarding block }
      | (false, chain) => { engine with chain := chain, miner := .idle }
    else { engine with miner := .idle }
  | .rewarding block =>
    { engine with
      cache := balanceCacheUpdate engine.cache block.miner 0 block.reward
      miner := .processing block.transactions }
  | .processing txs =>
    match engine.jobs none with
    | some ⟨_, .finished _⟩ => { engine with jobs := Function.update engine.jobs none none }
    | some job => workStep engine none job
    | none =>
      match txs with
      | [] => { engine with miner := .idle }
      | tx :: rest =>
        { engine with
          jobs := Function.update engine.jobs none (some ⟨tx, .started⟩)
          miner := .processing rest }

def engineStep (engine : P2pEngine n) : EngineEvent n → P2pEngine n
  | .add tx => addStep engine tx
  | .worker i => workerStep engine i
  | .miner found => minerStep engine found

/-! ## What a step can do -/

/-- The job that an event takes a step of. -/
def actingJob (engine : P2pEngine n) : EngineEvent n → Option (Thread n × Job)
  | .add _ => none
  | .worker i => (engine.jobs (some i)).map fun job => (some i, job)
  | .miner _ =>
    match engine.miner with
    | .processing _ => (engine.jobs none).map fun job => (none, job)
    | _ => none

/-- The steps of a worker. -/
inductive WorkerMove (engine : P2pEngine n) (i : Fin n) : P2pEngine n → Prop
  | starve {pool : TxPool} (hjob : engine.jobs (some i) = none)
      (hpop : transactionPoolPop engine.pool = (none, pool)) :
      WorkerMove engine i { engine with pool := pool }
  | pop {tx : Transaction} {pool : TxPool} (hjob : engine.jobs (some i) = none)
      (hpop : transactionPoolPop engine.pool = (some tx, pool)) :
      WorkerMove engine i { engine with
        pool := pool
        jobs := Function.update engine.jobs (some i) (some ⟨tx, .started⟩)
        popped := engine.popped ++ [tx] }
  | leave {tx : Transaction} (hjob : engine.jobs (some i) = some ⟨tx, .finished false⟩) :
      WorkerMove engine i { engine with jobs := Function.update engine.jobs (some i) none }
  | count {tx : Transaction} (hjob : engine.jobs (some i) = some ⟨tx, .finished true⟩) :
      WorkerMove engine i { engine with
        pool := { engine.pool with size := engine.pool.size + 1 }
        jobs := Function.update engine.jobs (some i) none }
  | work {job : Job} (hjob : engine.jobs (some i) = some job)
      (hopen : ∀ accepted, job.progress ≠ .finished accepted) :
      WorkerMove engine i (workStep engine (some i) job)

theorem workerStep_move (engine : P2pEngine n) (i : Fin n) :
    WorkerMove engine i (workerStep engine i) := by
  unfold workerStep
  split
  · rename_i hjob
    split
    · rename_i hpop
      exact .pop hjob hpop
    · rename_i hpop
      exact .starve hjob hpop
  · rename_i tx accepted hjob
    cases accepted with
    | true => exact .count hjob
    | false => exact .leave hjob
  · rename_i job hopen hjob
    refine .work hjob fun accepted hfinished => hopen job.tx accepted ?_
    rw [← hfinished]

/-- The steps of the mining thread. -/
inductive MinerMove (engine : P2pEngine n) : P2pEngine n → Prop
  | wait (hphase : engine.miner = .idle) : MinerMove engine engine
  | start (hphase : engine.miner = .idle) :
      MinerMove engine { engine with miner := .collecting [] 0 }
  | pop {txs : List Transaction} {totalGas : UInt64} {tx : Transaction} {pool : TxPool}
      {next : MinerPhase} (hphase : engine.miner = .collecting txs totalGas)
      (hpop : transactionPoolPop engine.pool = (some tx, pool))
      (hnext : (∃ gas, next = .collecting (txs ++ [tx]) gas) ∨ next = .returning txs tx) :
      MinerMove engine { engine with
        pool := pool, miner := next, popped := engine.popped ++ [tx] }
  | drained {txs : List Transaction} {totalGas : UInt64} {pool : TxPool}
      (hphase : engine.miner = .collecting txs totalGas)
      (hpop : transactionPoolPop engine.pool = (none, pool)) :
      MinerMove engine
        { engine with pool := pool, miner := .mining (createBlock engine.chain txs) }
  | filled {txs : List Transaction} {totalGas : UInt64}
      (hphase : engine.miner = .collecting txs totalGas) :
      MinerMove engine { engine with miner := .mining (createBlock engine.chain txs) }
  | giveBack {txs : List Transaction} {tx : Transaction}
      (hphase : engine.miner = .returning txs tx) :
      MinerMove engine
        { addStep engine tx with miner := .mining (createBlock engine.chain txs) }
  | abandon {block : Block} (hphase : engine.miner = .mining block) :
      MinerMove engine { engine with miner := .idle }
  | addBlock {block : Block} {chain : Blockchain} (hphase : engine.miner = .mining block)
      (hadd : blockchainAddBlock engine.chain block = (true, chain)) :
      MinerMove engine { engine with chain := chain, miner := .rewarding block }
  | reward {block : Block} (hphase : engine.miner = .rewarding block) :
      MinerMove engine { engine with
        cache := balanceCacheUpdate engine.cache block.miner 0 block.reward
        miner := .processing block.transactions }
  | take {tx : Transaction} {rest : List Transaction}
      (hphase : engine.miner = .processing (tx :: rest)) (hjob : engine.jobs none = none) :
      MinerMove engine { engine with
        jobs := Function.update engine.jobs none (some ⟨tx, .started⟩)
        miner := .processing rest }
  | work {txs : List Transaction} {job : Job} (hphase : engine.miner = .processing txs)
      (hjob : engine.jobs none = some job)
      (hopen : ∀ accepted, job.progress ≠ .finished accepted) :
      MinerMove engine (workStep engine none job)
  | leave {txs : List Transaction} {tx : Transaction} {accepted : Bool}
      (hphase : engine.miner = .processing txs)
      (hjob : engine.jobs none = some ⟨tx, .finished accepted⟩) :
      MinerMove engine { engine with jobs := Function.update engine.jobs none none }
  | done (hphase : engine.miner = .processing []) (hjob : engine.jobs none = none) :
      MinerMove engine { engine with miner := .idle }

theorem minerStep_move (engine : P2pEngine n) (found : Bool) :
    MinerMove engine (minerStep engine found) := by
  unfold minerStep
  split
  · rename_i hphase
    split
    · exact .start hphase
    · exact .wait hphase
  · rename_i txs totalGas hphase
    split
    · split
      · rename_i tx pool hpop
        refine .pop hphase hpop ?_
        split
        · exact Or.inl ⟨_, rfl⟩
        · exact Or.inr rfl
      · rename_i hpop
        exact .drained hphase hpop
    · exact .filled hphase
  · rename_i hphase
    exact .giveBack hphase
  · rename_i block hphase
    split
    · split
      · rename_i hadd
        exact .addBlock hphase hadd
      · rename_i chain hadd
        have hsame : chain = engine.chain := by
          unfold blockchainAddBlock at hadd
          split at hadd
          · exact (Prod.mk.inj hadd).2.symm
          · cases (Prod.mk.inj hadd).1
        rw [hsame]
        exact .abandon hphase
    · exact .abandon hphase
  · rename_i hphase
    exact .reward hphase
  · rename_i txs hphase
    split
    · rename_i hjob
      exact .leave hphase hjob
    · rename_i job hopen hjob
      refine .work hphase hjob fun accepted hfinished => hopen job.tx accepted ?_
      rw [← hfinished]
    · rename_i hjob
      cases txs with
      | nil => exact .done hphase hjob
      | cons tx rest => exact .take hphase hjob

/-! ## Invariants of every run -/

theorem cacheOk_jobStep {cache : BalanceCache} (h : CacheOk hashKey cache) (chain : Blockchain)
    (job : Job) : CacheOk hashKey (jobStep cache chain job).2 := by
  unfold jobStep
  split
  · exact h
  · split <;> exact h
  · exact h.update _ _ _
  · exact h.update _ _ _
  · exact h

/-- The table is in order, and the mining thread has a job only while it processes a
block. -/
structure EngineOk (engine : P2pEngine n) : Prop where
  cache : CacheOk hashKey engine.cache
  miner : ∀ job, engine.jobs none = some job → ∃ txs, engine.miner = .processing txs

theorem engineOk_start (n : Nat) (pool : TxPool) {cache : BalanceCache}
    (h : CacheOk hashKey cache) (chain : Blockchain) :
    EngineOk (engineStart n pool cache chain) where
  cache := h
  miner := fun _ hjob => by cases hjob

/-- A worker leaves the other threads alone. -/
theorem workerStep_frame (engine : P2pEngine n) (i : Fin n) :
    (workerStep engine i).miner = engine.miner ∧ (workerStep engine i).chain = engine.chain ∧
      ∀ t, t ≠ some i → (workerStep engine i).jobs t = engine.jobs t := by
  have hmove := workerStep_move engine i
  generalize workerStep engine i = engine' at hmove
  cases hmove with
  | starve => exact ⟨rfl, rfl, fun _ _ => rfl⟩
  | pop => exact ⟨rfl, rfl, fun t ht => Function.update_of_ne ht _ _⟩
  | leave => exact ⟨rfl, rfl, fun t ht => Function.update_of_ne ht _ _⟩
  | count => exact ⟨rfl, rfl, fun t ht => Function.update_of_ne ht _ _⟩
  | work => exact ⟨rfl, rfl, fun t ht => Function.update_of_ne ht _ _⟩

theorem cacheOk_workerStep {engine : P2pEngine n} (h : CacheOk hashKey engine.cache)
    (i : Fin n) : CacheOk hashKey (workerStep engine i).cache := by
  have hmove := workerStep_move engine i
  generalize workerStep engine i = engine' at hmove
  cases hmove with
  | starve => exact h
  | pop => exact h
  | leave => exact h
  | count => exact h
  | work => exact cacheOk_jobStep h _ _

theorem EngineOk.step {engine : P2pEngine n} (h : EngineOk engine) (event : EngineEvent n) :
    EngineOk (engineStep engine event) := by
  cases event with
  | add tx => exact ⟨h.cache, h.miner⟩
  | worker i =>
    obtain ⟨hminer, _, hjobs⟩ := workerStep_frame engine i
    refine ⟨cacheOk_workerStep h.cache i, fun job hjob => ?_⟩
    change (workerStep engine i).jobs none = some job at hjob
    change ∃ txs, (workerStep engine i).miner = .processing txs
    rw [hjobs none (Option.some_ne_none i).symm] at hjob
    rw [hminer]
    exact h.miner job hjob
  | miner found =>
    have hmove := minerStep_move engine found
    change EngineOk (minerStep engine found)
    generalize minerStep engine found = engine' at hmove
    -- outside `processing` the mining thread has no job
    have hquiet : ∀ {phase : MinerPhase}, engine.miner = phase →
        (∀ txs, phase ≠ .processing txs) → engine'.cache = engine.cache →
        engine'.jobs = engine.jobs → EngineOk engine' := by
      intro phase hphase hne hcache hjobs
      refine ⟨by rw [hcache]; exact h.cache, fun job hjob => ?_⟩
      rw [hjobs] at hjob
      obtain ⟨txs, htxs⟩ := h.miner job hjob
      exact absurd (hphase.symm.trans htxs) (hne txs)
    cases hmove with
    | wait => exact h
    | start hphase => exact hquiet hphase (by simp) rfl rfl
    | pop hphase => exact hquiet hphase (by simp) rfl rfl
    | drained hphase => exact hquiet hphase (by simp) rfl rfl
    | filled hphase => exact hquiet hphase (by simp) rfl rfl
    | giveBack hphase => exact hquiet hphase (by simp) rfl rfl
    | abandon hphase => exact hquiet hphase (by simp) rfl rfl
    | addBlock hphase => exact hquiet hphase (by simp) rfl rfl
    | reward => exact ⟨h.cache.update _ _ _, fun _ _ => ⟨_, rfl⟩⟩
    | take => exact ⟨h.cache, fun _ _ => ⟨_, rfl⟩⟩
    | work hphase => exact ⟨cacheOk_jobStep h.cache _ _, fun _ _ => ⟨_, hphase⟩⟩
    | leave hphase => exact ⟨h.cache, fun _ _ => ⟨_, hphase⟩⟩
    | done _ hjob =>
      refine ⟨h.cache, fun job hjob' => ?_⟩
      cases hjob.symm.trans hjob'

end Blackstone.Engine
