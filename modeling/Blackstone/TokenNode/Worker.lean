import Blackstone.Balance.Ledger
import Blackstone.Library.Runs
import Blackstone.TokenNode.BalanceCache
import Blackstone.TokenNode.TxPool

/-!
# The worker of the token node

`tx_verify` and the body of `worker_thread_func`. A worker debits the sender and credits
the receiver of every transaction that `tx_verify` accepts, and `tx_verify` never looks at
the balance cache.

`worker_lawful_iff`: the worker steps of a run overdraw no sender, wrap no balance and lose
only the fees if and only if an exact ledger with the same initial balances can carry out
the same transactions. `emptyNode_not_lawful` is a run that overdraws an empty account.
-/

namespace Blackstone.TokenNode

open Balance ExactLedger Runs

/-- `tx_verify`. The source ignores its two other arguments, the cache and the height. -/
def txVerify (tx : Transaction) : Bool :=
  if tx.amount = 0 then false
  else if tx.fee.toUInt64 > tx.amount / 10 then false
  else if tx.sender = tx.receiver then false
  else true

def workerFee (tx : Transaction) : UInt64 :=
  let fee := tx.amount / 1000
  if fee < 1 then 1 else fee

def workerTotal (tx : Transaction) : UInt64 := tx.amount + workerFee tx

/-- `balance_cache_update(cache, &tx->from, tx->token_id, -total)`. -/
def workerDebit (cache : BalanceCache) (tx : Transaction) : BalanceCache :=
  balanceCacheUpdate cache tx.sender tx.tokenId (-workerTotal tx)

/-- `balance_cache_update(cache, &tx->to, tx->token_id, tx->amount)`. -/
def workerCredit (cache : BalanceCache) (tx : Transaction) : BalanceCache :=
  balanceCacheUpdate cache tx.receiver tx.tokenId tx.amount

/-- What a worker does with a transaction it popped. -/
def workerApply (cache : BalanceCache) (tx : Transaction) : BalanceCache :=
  if txVerify tx then workerCredit (workerDebit cache tx) tx else cache

/-- The parts of `p2p_core_t` that submissions and workers use. -/
structure Node where
  pool : TxPool
  cache : BalanceCache

inductive NodeEvent where
  | submit (tx : Transaction)
  | work
  deriving DecidableEq

/-- `p2p_core_submit_transaction`, or one round of the loop of a worker. -/
def nodeStep (node : Node) : NodeEvent → Node
  | .submit tx => { node with pool := (txPoolAdd node.pool tx).2 }
  | .work =>
    match txPoolPop node.pool with
    | (some tx, pool) => { node with pool := pool, cache := workerApply node.cache tx }
    | (none, pool) => { node with pool := pool }

/-! ## The law of a worker step -/

/-- Changing the balance of `k` by the exact amount `change` stays inside 64 bits, or the
table has no entry for it. -/
def NoWrap (cache : BalanceCache) (k : Key Address) (change : Int) : Prop :=
  HasRoom cache k →
    0 ≤ (balanceCacheGet cache k.1 k.2).toNat + change ∧
      (balanceCacheGet cache k.1 k.2).toNat + change < 2 ^ 64

/-- An applied transaction is covered by the sender's balance, its two updates wrap
nothing, and every step changes the total of a token only by the deducted fee. -/
structure LawfulStep (cache : BalanceCache) (tx : Transaction) : Prop where
  covered : txVerify tx = true →
    tx.amount.toNat + (workerFee tx).toNat ≤ (balanceCacheGet cache tx.sender tx.tokenId).toNat
  debit : txVerify tx = true → NoWrap cache (tx.sender, tx.tokenId)
    (-(tx.amount.toNat + (workerFee tx).toNat))
  credit : txVerify tx = true → NoWrap (workerDebit cache tx) (tx.receiver, tx.tokenId)
    tx.amount.toNat
  conserved : ∀ t, totalBalance cache t = totalBalance (workerApply cache tx) t +
    if txVerify tx = true ∧ tx.tokenId = t then (workerFee tx).toNat else 0

/-- The law for an event: it concerns the transaction that a worker pops. -/
def LawfulEvent (node : Node) (event : NodeEvent) : Prop :=
  event = .work → ∀ tx, (txPoolPop node.pool).1 = some tx → LawfulStep node.cache tx

/-! ## The exact ledger of a run -/

/-- The fee that a worker deducts, over the naturals. -/
def exactFee (tx : Transaction) : Nat := max 1 (tx.amount.toNat / 1000)

/-- One transaction on an exact ledger with at most `limit` accounts. -/
def settle (limit : Nat) (sheet : Sheet (Key Address)) (tx : Transaction) :
    Option (Sheet (Key Address)) :=
  if txVerify tx then
    sheet.transfer (2 ^ 64) limit (tx.sender, tx.tokenId) (tx.receiver, tx.tokenId)
      (tx.amount.toNat + exactFee tx) tx.amount.toNat
  else some sheet

def settleAll (limit : Nat) (sheet : Sheet (Key Address)) :
    List Transaction → Option (Sheet (Key Address))
  | [] => some sheet
  | tx :: txs => (settle limit sheet tx).bind fun sheet => settleAll limit sheet txs

/-- The transactions that the workers of a run pop. -/
def poppedBy (pool : TxPool) : List NodeEvent → List Transaction
  | [] => []
  | .submit tx :: events => poppedBy (txPoolAdd pool tx).2 events
  | .work :: events =>
    match txPoolPop pool with
    | (some tx, pool) => tx :: poppedBy pool events
    | (none, pool) => poppedBy pool events

/-! ## Results -/

theorem toNat_workerFee (tx : Transaction) : (workerFee tx).toNat = exactFee tx := by
  have hone : (1 : UInt64).toNat = 1 := rfl
  have hdiv : (tx.amount / 1000).toNat = tx.amount.toNat / 1000 := UInt64.toNat_div _ _
  unfold workerFee exactFee
  simp only [UInt64.lt_iff_toNat_lt, apply_ite UInt64.toNat, hone, hdiv]
  split <;> omega

theorem txVerify_iff (tx : Transaction) :
    txVerify tx = true ↔
      0 < tx.amount.toNat ∧ tx.fee.toNat ≤ tx.amount.toNat / 10 ∧ tx.sender ≠ tx.receiver := by
  have hzero : tx.amount = 0 ↔ tx.amount.toNat = 0 := by
    rw [← UInt64.toNat_inj, UInt64.toNat_zero]
  have hten : (tx.amount / 10).toNat = tx.amount.toNat / 10 := UInt64.toNat_div _ _
  unfold txVerify
  simp only [hzero, gt_iff_lt, UInt64.lt_iff_toNat_lt, UInt32.toNat_toUInt64, hten]
  by_cases hamount : tx.amount.toNat = 0
  · rw [if_pos hamount]
    exact ⟨fun h => absurd h Bool.false_ne_true,
      fun h => absurd hamount (Nat.pos_iff_ne_zero.mp h.1)⟩
  · by_cases hfee : tx.amount.toNat / 10 < tx.fee.toNat
    · rw [if_neg hamount, if_pos hfee]
      exact ⟨fun h => absurd h Bool.false_ne_true, fun h => absurd hfee (Nat.not_lt.mpr h.2.1)⟩
    · rw [if_neg hamount, if_neg hfee]
      by_cases hself : tx.sender = tx.receiver
      · rw [if_pos hself]
        exact ⟨fun h => absurd h Bool.false_ne_true, fun h => absurd hself h.2.2⟩
      · rw [if_neg hself]
        exact ⟨fun _ => ⟨by omega, by omega, hself⟩, fun _ => rfl⟩

/-- When the sender covers it, the deducted 64-bit total is the exact one. -/
theorem toNat_workerTotal {cache : BalanceCache} {tx : Transaction}
    (hcovered : tx.amount.toNat + exactFee tx ≤
      (balanceCacheGet cache tx.sender tx.tokenId).toNat) :
    (workerTotal tx).toNat = tx.amount.toNat + exactFee tx := by
  have hword := (balanceCacheGet cache tx.sender tx.tokenId).toNat_lt
  rw [workerTotal, toNat_add_of_lt (by rw [toNat_workerFee]; omega), toNat_workerFee]

/-- What the exact ledger asks of a transaction that passes `tx_verify`. -/
structure Settles (cache : BalanceCache) (tx : Transaction) : Prop where
  covered : tx.amount.toNat + exactFee tx ≤ (balanceCacheGet cache tx.sender tx.tokenId).toNat
  room : HasRoom cache (tx.receiver, tx.tokenId)
  bounded : (balanceCacheGet cache tx.receiver tx.tokenId).toNat + tx.amount.toNat < 2 ^ 64

section Step

variable {cache : BalanceCache} (hcache : CacheOk hashAddress cache)
include hcache

theorem cacheOk_workerApply (tx : Transaction) :
    CacheOk hashAddress (workerApply cache tx) := by
  unfold workerApply
  split
  · exact (hcache.update _ _ _).update _ _ _
  · exact hcache

variable {tx : Transaction}

/-- The debit of a covered transaction, and what it leaves for the credit. -/
theorem workerDebit_spec (hverify : txVerify tx = true)
    (hcovered : tx.amount.toNat + exactFee tx ≤
      (balanceCacheGet cache tx.sender tx.tokenId).toNat) :
    sheetOf (hcache.update tx.sender tx.tokenId (-workerTotal tx)) =
        (sheetOf hcache).debited (tx.sender, tx.tokenId) (tx.amount.toNat + exactFee tx) ∧
      (HasRoom (workerDebit cache tx) (tx.receiver, tx.tokenId) ↔
        HasRoom cache (tx.receiver, tx.tokenId)) ∧
      balanceCacheGet (workerDebit cache tx) tx.receiver tx.tokenId =
        balanceCacheGet cache tx.receiver tx.tokenId ∧
      ∀ t, totalBalance cache t = totalBalance (workerDebit cache tx) t +
        if tx.tokenId = t then tx.amount.toNat + exactFee tx else 0 := by
  have htotal := toNat_workerTotal hcovered
  have hamount := ((txVerify_iff tx).mp hverify).1
  have hne := ((txVerify_iff tx).mp hverify).2.2
  have hpos : 0 < (workerTotal tx).toNat := by omega
  have hle : (workerTotal tx).toNat ≤
      (cacheGet hashAddress cache tx.sender tx.tokenId).toNat := by
    rw [htotal]
    exact hcovered
  have hkey : (tx.receiver, tx.tokenId) ≠ (tx.sender, tx.tokenId) :=
    fun heq => hne (Prod.mk.inj heq).1.symm
  have hkeys : keys (workerDebit cache tx) = keys cache := by
    have hmem := mem_keys_of_balance hcache (lt_of_lt_of_le hpos hle)
    have hupdate := hcache.keys_update tx.sender tx.tokenId (-workerTotal tx)
    rwa [if_pos (HasRoom.of_mem hmem), Finset.insert_eq_of_mem hmem] at hupdate
  have hcapacity : (workerDebit cache tx).capacity = cache.capacity :=
    cacheUpdate_capacity _ _ _ _ _
  refine ⟨?_, ?_, hcache.cacheGet_update_of_ne hkey _, ?_⟩
  · rw [sheetOf_debit hcache hpos hle, htotal]
  · unfold HasRoom
    rw [hkeys, hcapacity]
  · intro t
    have hloss := hcache.total_debit hle t
    rwa [htotal] at hloss

/-- The transaction of a lawful step is one that the exact ledger can settle. -/
theorem settles_of_lawfulStep (h : LawfulStep cache tx) (hverify : txVerify tx = true) :
    Settles cache tx := by
  have hcovered := h.covered hverify
  rw [toNat_workerFee] at hcovered
  obtain ⟨_, hroom, hbalance, hloss⟩ := workerDebit_spec hcache hverify hcovered
  have hamount := ((txVerify_iff tx).mp hverify).1
  have hhas : HasRoom cache (tx.receiver, tx.tokenId) := by
    -- a dropped credit would lose the amount besides the fee
    by_contra hno
    have hdropped : workerCredit (workerDebit cache tx) tx = workerDebit cache tx :=
      (hcache.update _ _ _).cacheUpdate_of_noRoom (fun hr => hno (hroom.mp hr)) _
    have hconserved := h.conserved tx.tokenId
    have hgone := hloss tx.tokenId
    rw [workerApply, if_pos hverify, hdropped, if_pos ⟨hverify, rfl⟩, toNat_workerFee]
      at hconserved
    rw [if_pos rfl] at hgone
    omega
  have hwrap := (h.credit hverify (hroom.mpr hhas)).2
  dsimp only at hwrap
  rw [hbalance] at hwrap
  exact ⟨hcovered, hhas, by exact_mod_cast hwrap⟩

/-- A step for a transaction that the exact ledger can settle conserves every token. -/
theorem conserved_of_settles (h : txVerify tx = true → Settles cache tx) (t : UInt32) :
    totalBalance cache t = totalBalance (workerApply cache tx) t +
      if txVerify tx = true ∧ tx.tokenId = t then (workerFee tx).toNat else 0 := by
  by_cases hverify : txVerify tx = true
  · have hsettles := h hverify
    obtain ⟨_, hroom, hbalance, hloss⟩ := workerDebit_spec hcache hverify hsettles.covered
    have hgain := (hcache.update tx.sender tx.tokenId (-workerTotal tx)).total_credit
      (hroom.mpr hsettles.room) (by
        have hbounded := hsettles.bounded
        rw [← hbalance] at hbounded
        exact hbounded) t
    have hlost := hloss t
    rw [workerApply, if_pos hverify, toNat_workerFee]
    change totalBalance (workerCredit (workerDebit cache tx) tx) t = _ at hgain
    by_cases ht : tx.tokenId = t
    · rw [if_pos ht] at hgain hlost
      rw [if_pos ⟨hverify, ht⟩]
      change _ = totalBalance (workerDebit cache tx) t + _ at hgain
      omega
    · rw [if_neg ht] at hgain hlost
      rw [if_neg (fun hboth => ht hboth.2)]
      change _ = totalBalance (workerDebit cache tx) t + _ at hgain
      omega
  · rw [workerApply, if_neg hverify, if_neg (fun hboth => hverify hboth.1), Nat.add_zero]

/-- A step is lawful exactly when the exact ledger can settle its transaction. -/
theorem lawfulStep_iff :
    LawfulStep cache tx ↔ (txVerify tx = true → Settles cache tx) := by
  constructor
  · intro h hverify
    exact settles_of_lawfulStep hcache h hverify
  · intro h
    constructor
    · intro hverify
      rw [toNat_workerFee]
      exact (h hverify).covered
    · intro hverify _
      have hcovered := (h hverify).covered
      have hword := (balanceCacheGet cache tx.sender tx.tokenId).toNat_lt
      rw [toNat_workerFee]
      dsimp only
      omega
    · intro hverify _
      obtain ⟨_, _, hbalance, _⟩ := workerDebit_spec hcache hverify (h hverify).covered
      have hbounded := (h hverify).bounded
      dsimp only
      rw [hbalance]
      omega
    · exact conserved_of_settles hcache h

/-- A transaction that the exact ledger can settle changes it as it changes the table. -/
theorem settle_of_settles (h : txVerify tx = true → Settles cache tx) :
    settle (reach cache.capacity) (sheetOf hcache) tx =
      some (sheetOf (cacheOk_workerApply hcache tx)) := by
  unfold settle
  by_cases hverify : txVerify tx = true
  · have hsettles := h hverify
    have hne : (tx.sender, tx.tokenId) ≠ (tx.receiver, tx.tokenId) :=
      fun heq => ((txVerify_iff tx).mp hverify).2.2 (Prod.mk.inj heq).1
    obtain ⟨hsheet, hroom, hbalance, _⟩ := workerDebit_spec hcache hverify hsettles.covered
    have hbounded := hsettles.bounded
    rw [← hbalance] at hbounded
    have hcredit := sheetOf_credit (hcache.update tx.sender tx.tokenId (-workerTotal tx))
      (hroom.mpr hsettles.room) hbounded
    have happly : workerApply cache tx = workerCredit (workerDebit cache tx) tx := by
      rw [workerApply, if_pos hverify]
    rw [if_pos hverify, Sheet.transfer_eq hne,
      if_pos ⟨hsettles.covered, hsettles.room, hsettles.bounded⟩, ← hsheet, ← hcredit]
    exact congrArg some (sheetOf_congr _ _ happly.symm)
  · have happly : workerApply cache tx = cache := by
      rw [workerApply, if_neg hverify]
    rw [if_neg hverify]
    exact congrArg some (sheetOf_congr _ _ happly.symm)

theorem settle_of_not_settles (hverify : txVerify tx = true) (h : ¬ Settles cache tx) :
    settle (reach cache.capacity) (sheetOf hcache) tx = none := by
  have hne : (tx.sender, tx.tokenId) ≠ (tx.receiver, tx.tokenId) :=
    fun heq => ((txVerify_iff tx).mp hverify).2.2 (Prod.mk.inj heq).1
  rw [settle, if_pos hverify, Sheet.transfer_eq hne, if_neg]
  intro hall
  exact h ⟨hall.1, hall.2.1, hall.2.2⟩

end Step

theorem workerApply_capacity (cache : BalanceCache) (tx : Transaction) :
    (workerApply cache tx).capacity = cache.capacity := by
  unfold workerApply
  split
  · exact (cacheUpdate_capacity _ _ _ _ _).trans (cacheUpdate_capacity _ _ _ _ _)
  · rfl

/-- The workers of a run overdraw no sender, wrap no balance and lose only the fees exactly
when the exact ledger with the same initial balances settles all they pop. -/
theorem worker_lawful_iff (node : Node) (hcache : CacheOk hashAddress node.cache)
    (events : List NodeEvent) :
    Along nodeStep LawfulEvent node events ↔
      (settleAll (min node.cache.capacity (2 ^ 32)) (sheetOf hcache)
        (poppedBy node.pool events)).isSome := by
  induction events generalizing node with
  | nil => exact ⟨fun _ => rfl, fun _ => trivial⟩
  | cons event events ih =>
    cases event with
    | submit tx =>
      have hlawful : LawfulEvent node (.submit tx) := fun heq => absurd heq (by simp)
      rw [Along, poppedBy, and_iff_right hlawful]
      exact ih { node with pool := (txPoolAdd node.pool tx).2 } hcache
    | work =>
      rw [Along, poppedBy]
      cases hpop : txPoolPop node.pool with
      | mk popped pool =>
        cases popped with
        | none =>
          have hlawful : LawfulEvent node .work := by
            intro _ tx htx
            rw [hpop] at htx
            cases htx
          have hstep : nodeStep node .work = { node with pool := pool } := by
            simp only [nodeStep, hpop]
          rw [and_iff_right hlawful, hstep]
          exact ih { node with pool := pool } hcache
        | some tx =>
          have hlawful : LawfulEvent node .work ↔ LawfulStep node.cache tx := by
            unfold LawfulEvent
            rw [hpop]
            constructor
            · intro h
              exact h rfl tx rfl
            · intro h _ tx' htx'
              rwa [← Option.some.inj htx']
          have hstep : nodeStep node .work =
              { node with pool := pool, cache := workerApply node.cache tx } := by
            simp only [nodeStep, hpop]
          have hrest := ih { node with pool := pool, cache := workerApply node.cache tx }
            (cacheOk_workerApply hcache tx)
          rw [workerApply_capacity] at hrest
          rw [hlawful, hstep, hrest, lawfulStep_iff hcache]
          dsimp only
          rw [settleAll]
          by_cases hsettles : txVerify tx = true → Settles node.cache tx
          · rw [and_iff_right hsettles]
            have hsettle := settle_of_settles hcache hsettles
            unfold reach at hsettle
            rw [hsettle, Option.bind_some]
          · obtain ⟨hverify, hnot⟩ := Classical.not_imp.mp hsettles
            have hsettle := settle_of_not_settles hcache hverify hnot
            unfold reach at hsettle
            rw [hsettle, Option.bind_none]
            exact ⟨fun h => absurd h.1 hsettles, fun h => absurd h Bool.false_ne_true⟩

/-! ## A covered run and an overdraft -/

/-- An address of the given first byte and zeros. -/
def addressOf (b : UInt8) : Address := ⟨(Vector.replicate 32 0).setIfInBounds 0 b⟩

/-- A transfer of 1000 between two accounts. -/
def sampleTx : Transaction :=
  { Transaction.zero with sender := addressOf 1, receiver := addressOf 2, amount := 1000 }

/-- A node whose sender owns 5000. -/
def fundedNode : Node :=
  ⟨txPoolCreate 4, balanceCacheUpdate (balanceCacheCreate 4) (addressOf 1) 0 5000⟩

theorem fundedNode_ok : CacheOk hashAddress fundedNode.cache := by
  have hcreate : CacheOk hashAddress (balanceCacheCreate 4) :=
    cacheOk_create hashAddress Address.zero (by decide)
  exact hcreate.update (addressOf 1) 0 5000

theorem fundedNode_lawful : Along nodeStep LawfulEvent fundedNode [.submit sampleTx, .work] :=
  (worker_lawful_iff fundedNode fundedNode_ok _).mpr (by decide +kernel)

/-- A node with no balances at all. -/
def emptyNode : Node := ⟨txPoolCreate 4, balanceCacheCreate 4⟩

/-- On an empty cache the sender is debited 1001 all the same, and its balance wraps. -/
theorem emptyNode_not_lawful :
    ¬ Along nodeStep LawfulEvent emptyNode [.submit sampleTx, .work] ∧
      balanceCacheGet (run nodeStep emptyNode [.submit sampleTx, .work]).cache (addressOf 1) 0 =
        UInt64.ofNat (2 ^ 64 - 1001) := by
  refine ⟨fun halong => ?_, by decide +kernel⟩
  have hpop : (txPoolPop (nodeStep emptyNode (.submit sampleTx)).pool).1 = some sampleTx := by
    decide +kernel
  have hcovered := (halong.2.1 rfl sampleTx hpop).covered (by decide +kernel)
  revert hcovered
  decide +kernel

end Blackstone.TokenNode
