import Blackstone.TokenNode.Consensus
import Blackstone.TokenNode.Worker

/-!
# The threads of the token node

`p2p_core.c`: any number of workers and the consensus thread run next to submissions. A
thread takes one step at a time, each of which holds at most one lock. Both the workers and
`miner_create_block` take transactions out of the same pool; only the workers update the
balances of senders and receivers. `WorkerMove` and `ConsensusMove` list what a step can
do; every invariant of the node is proved by cases on them.

A block is freed as soon as it is in the chain; the event `reuse` lets the memory of such a
block change at any time. The cleanup thread is not part of the model.
-/

namespace Blackstone.TokenNode

open Balance Runs

/-- Where a worker is in its loop. -/
inductive WorkerPhase where
  | idle
  | popped (tx : Transaction)
  | debited (tx : Transaction)
  deriving DecidableEq

/-- Where the consensus thread is in its loop. -/
inductive ConsensusPhase where
  | idle
  | collecting (header : Block) (txs : List TxPtr)
  | created (block : Block)
  | validated (block : Block)
  | added (block : Block)
  deriving DecidableEq

/-- The shared parts of `p2p_core_t` and the threads. The last five fields are the history
of the run, which no step reads. -/
structure Core (n : Nat) where
  pool : TxPool
  cache : BalanceCache
  chain : Blockchain
  workers : Fin n → WorkerPhase
  consensus : ConsensusPhase
  accepted : List Transaction
  departed : List Transaction
  debited : List Transaction
  credited : List Transaction
  rewarded : List Block

/-- All threads are about to start their loops. -/
def coreStart (n : Nat) (pool : TxPool) (cache : BalanceCache) (chain : Blockchain) :
    Core n where
  pool := pool
  cache := cache
  chain := chain
  workers _ := .idle
  consensus := .idle
  accepted := []
  departed := []
  debited := []
  credited := []
  rewarded := []

/-- One step of a thread. The consensus thread is given the time and the address that
`malloc` returns. -/
inductive CoreEvent (n : Nat) where
  | submit (tx : Transaction)
  | worker (i : Fin n)
  | consensus (now : UInt64) (addr : UInt64)
  | reuse (i : Nat) (block : Block)

variable {n : Nat}

/-- `p2p_core_submit_transaction`. -/
def submitStep (core : Core n) (tx : Transaction) : Core n :=
  { core with
    pool := (txPoolAdd core.pool tx).2
    accepted := if (txPoolAdd core.pool tx).1 then core.accepted ++ [tx] else core.accepted }

/-- One step of `worker_thread_func`. An update counts when the table has an entry for it. -/
def workerStep (core : Core n) (i : Fin n) : Core n :=
  match core.workers i with
  | .idle =>
    match txPoolPop core.pool with
    | (some tx, pool) =>
      { core with
        pool := pool
        workers := Function.update core.workers i (.popped tx)
        departed := core.departed ++ [tx] }
    | (none, pool) => { core with pool := pool }
  | .popped tx =>
    if txVerify tx then
      { core with
        cache := workerDebit core.cache tx
        workers := Function.update core.workers i (.debited tx)
        debited := if HasRoom core.cache (tx.sender, tx.tokenId) then core.debited ++ [tx]
          else core.debited }
    else { core with workers := Function.update core.workers i .idle }
  | .debited tx =>
    { core with
      cache := workerCredit core.cache tx
      workers := Function.update core.workers i .idle
      credited := if HasRoom core.cache (tx.receiver, tx.tokenId) then core.credited ++ [tx]
        else core.credited }

/-- The guard of the loop of `miner_create_block`. -/
def mayPop (miner : Miner) (txs : List TxPtr) : Bool :=
  txs.length < miner.maxTransactionsPerBlock.toNat ∧ txs.length < 100

/-- One step of `consensus_thread_func`. -/
def consensusStep (miner : Miner) (core : Core n) (now addr : UInt64) : Core n :=
  match core.consensus with
  | .idle =>
    if core.pool.size ≥ 5 ∨ core.chain.height < 5 then
      { core with consensus := .collecting (blockHeader miner core.chain now) [] }
    else core
  | .collecting header txs =>
    if mayPop miner txs then
      match txPoolPop core.pool with
      | (some tx, pool) =>
        { core with
          pool := pool
          consensus := .collecting header (txs ++ [⟨addr, tx⟩])
          departed := core.departed ++ [tx] }
      | (none, pool) =>
        { core with pool := pool, consensus := .created (fillBlock header txs) }
    else { core with consensus := .created (fillBlock header txs) }
  | .created block =>
    if consensusValidateBlock consensusCreate block core.chain then
      { core with consensus := .validated block }
    else { core with consensus := .idle }
  | .validated block =>
    { core with
      chain := (blockchainAddBlock core.chain block).2
      consensus := .added block }
  | .added block =>
    { core with
      cache := balanceCacheUpdate core.cache block.miner 0 block.reward
      consensus := .idle
      rewarded := if HasRoom core.cache (block.miner, 0) then core.rewarded ++ [block]
        else core.rewarded }

/-- The memory of a freed block changes. Only the genesis block is never freed. -/
def reuseStep (core : Core n) (i : Nat) (block : Block) : Core n :=
  if 0 < i ∧ (core.chain.blocks i).isSome then
    { core with
      chain := { core.chain with
        blocks := Function.update core.chain.blocks i (some block) } }
  else core

def coreStep (miner : Miner) (core : Core n) : CoreEvent n → Core n
  | .submit tx => submitStep core tx
  | .worker i => workerStep core i
  | .consensus now addr => consensusStep miner core now addr
  | .reuse i block => reuseStep core i block

/-! ## What a step can do -/

/-- The steps of a worker. -/
inductive WorkerMove (core : Core n) (i : Fin n) : Core n → Prop
  | starve {pool : TxPool} (hphase : core.workers i = .idle)
      (hpop : txPoolPop core.pool = (none, pool)) :
      WorkerMove core i { core with pool := pool }
  | pop {tx : Transaction} {pool : TxPool} (hphase : core.workers i = .idle)
      (hpop : txPoolPop core.pool = (some tx, pool)) :
      WorkerMove core i { core with
        pool := pool
        workers := Function.update core.workers i (.popped tx)
        departed := core.departed ++ [tx] }
  | reject {tx : Transaction} (hphase : core.workers i = .popped tx)
      (hverify : txVerify tx = false) :
      WorkerMove core i { core with workers := Function.update core.workers i .idle }
  | debit {tx : Transaction} (hphase : core.workers i = .popped tx)
      (hverify : txVerify tx = true) :
      WorkerMove core i { core with
        cache := workerDebit core.cache tx
        workers := Function.update core.workers i (.debited tx)
        debited := if HasRoom core.cache (tx.sender, tx.tokenId) then core.debited ++ [tx]
          else core.debited }
  | credit {tx : Transaction} (hphase : core.workers i = .debited tx) :
      WorkerMove core i { core with
        cache := workerCredit core.cache tx
        workers := Function.update core.workers i .idle
        credited := if HasRoom core.cache (tx.receiver, tx.tokenId) then core.credited ++ [tx]
          else core.credited }

theorem workerStep_move (core : Core n) (i : Fin n) :
    WorkerMove core i (workerStep core i) := by
  unfold workerStep
  split
  · rename_i hphase
    split
    · rename_i hpop
      exact .pop hphase hpop
    · rename_i hpop
      exact .starve hphase hpop
  · rename_i hphase
    split
    · rename_i hverify
      exact .debit hphase hverify
    · rename_i hverify
      exact .reject hphase (Bool.eq_false_iff.mpr hverify)
  · rename_i hphase
    exact .credit hphase

/-- The steps of the consensus thread. -/
inductive ConsensusMove (miner : Miner) (core : Core n) (now addr : UInt64) : Core n → Prop
  | wait (hphase : core.consensus = .idle) : ConsensusMove miner core now addr core
  | start (hphase : core.consensus = .idle) :
      ConsensusMove miner core now addr
        { core with consensus := .collecting (blockHeader miner core.chain now) [] }
  | pop {header : Block} {txs : List TxPtr} {tx : Transaction} {pool : TxPool}
      (hphase : core.consensus = .collecting header txs) (hmay : mayPop miner txs = true)
      (hpop : txPoolPop core.pool = (some tx, pool)) :
      ConsensusMove miner core now addr { core with
        pool := pool
        consensus := .collecting header (txs ++ [⟨addr, tx⟩])
        departed := core.departed ++ [tx] }
  | drained {header : Block} {txs : List TxPtr} {pool : TxPool}
      (hphase : core.consensus = .collecting header txs)
      (hpop : txPoolPop core.pool = (none, pool)) :
      ConsensusMove miner core now addr
        { core with pool := pool, consensus := .created (fillBlock header txs) }
  | filled {header : Block} {txs : List TxPtr}
      (hphase : core.consensus = .collecting header txs) (hmay : mayPop miner txs = false) :
      ConsensusMove miner core now addr
        { core with consensus := .created (fillBlock header txs) }
  | validate {block : Block} (hphase : core.consensus = .created block)
      (hvalid : consensusValidateBlock consensusCreate block core.chain = true) :
      ConsensusMove miner core now addr { core with consensus := .validated block }
  | drop {block : Block} (hphase : core.consensus = .created block)
      (hvalid : consensusValidateBlock consensusCreate block core.chain = false) :
      ConsensusMove miner core now addr { core with consensus := .idle }
  | add {block : Block} (hphase : core.consensus = .validated block) :
      ConsensusMove miner core now addr { core with
        chain := (blockchainAddBlock core.chain block).2
        consensus := .added block }
  | reward {block : Block} (hphase : core.consensus = .added block) :
      ConsensusMove miner core now addr { core with
        cache := balanceCacheUpdate core.cache block.miner 0 block.reward
        consensus := .idle
        rewarded := if HasRoom core.cache (block.miner, 0) then core.rewarded ++ [block]
          else core.rewarded }

theorem consensusStep_move (miner : Miner) (core : Core n) (now addr : UInt64) :
    ConsensusMove miner core now addr (consensusStep miner core now addr) := by
  unfold consensusStep
  split
  · rename_i hphase
    split
    · exact .start hphase
    · exact .wait hphase
  · rename_i hphase
    split
    · rename_i hmay
      split
      · rename_i hpop
        exact .pop hphase hmay hpop
      · rename_i hpop
        exact .drained hphase hpop
    · rename_i hmay
      exact .filled hphase (Bool.eq_false_iff.mpr hmay)
  · rename_i hphase
    split
    · rename_i hvalid
      exact .validate hphase hvalid
    · rename_i hvalid
      exact .drop hphase (Bool.eq_false_iff.mpr hvalid)
  · rename_i hphase
    exact .add hphase
  · rename_i hphase
    exact .reward hphase

end Blackstone.TokenNode
