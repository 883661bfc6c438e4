import Blackstone.Balance.Ledger
import Blackstone.Engine.Types
import Blackstone.Library.Runs

/-!
# The ledger of the engine

The balance cache of `main_file.cpp`, `verify_transaction` and `process_transaction`. The
cost of a transaction is computed in 64 bits, in both functions alike.

`solvent_iff`: over a set of transactions, no run of `process_transaction` accepts one that
the sender cannot pay or raises the total of a token, whatever the table holds, if and only
if the exact cost of every transaction of the set fits a word. `wrappingTransfer_accepted`
is a transaction that an account without balance can send.
-/

namespace Blackstone.Engine

open Balance Runs

/-- The hash of a key: the first two bytes of the address and the token id. -/
def hashKey (addr : Address) (tokenId : UInt32) : UInt32 :=
  addr.bytes[0].toUInt32 ^^^ (addr.bytes[1].toUInt32 <<< 8) ^^^ tokenId

abbrev BalanceCache := Balance.BalanceCache Address

/-- `balance_cache_create`, when the allocations succeed. -/
def balanceCacheCreate (capacity : Nat) : BalanceCache := cacheCreate Address.zero capacity

def balanceCacheUpdate (cache : BalanceCache) (addr : Address) (tokenId : UInt32)
    (delta : UInt64) : BalanceCache :=
  cacheUpdate hashKey cache addr tokenId delta

def balanceCacheGet (cache : BalanceCache) (addr : Address) (tokenId : UInt32) : UInt64 :=
  cacheGet hashKey cache addr tokenId

/-- `tx->amount + tx->fee + (tx->gas_price * tx->gas_limit / 1000000000)`. -/
def totalCost (tx : Transaction) : UInt64 :=
  tx.amount + tx.fee.toUInt64 + tx.gasPrice.toUInt64 * tx.gasLimit / 1000000000

def verifyTransaction (tx : Transaction) (cache : BalanceCache) (currentBlock : UInt32) : Bool :=
  if balanceCacheGet cache tx.sender tx.tokenId < totalCost tx then false
  else if tx.deadline > 0 ∧ tx.deadline < currentBlock then false
  else true

/-- The height of the latest block, or 0 if there is none. -/
def currentBlock (chain : Blockchain) : UInt32 :=
  match blockchainGetBlock chain (chain.height - 1) with
  | some block => block.height
  | none => 0

def debitSender (cache : BalanceCache) (tx : Transaction) : BalanceCache :=
  balanceCacheUpdate cache tx.sender tx.tokenId (-totalCost tx)

def creditReceiver (cache : BalanceCache) (tx : Transaction) : BalanceCache :=
  balanceCacheUpdate cache tx.receiver tx.tokenId tx.amount

/-- `process_transaction`: whether the transaction was accepted, and the table after it. -/
def processTransaction (cache : BalanceCache) (chain : Blockchain) (tx : Transaction) :
    Bool × BalanceCache :=
  if verifyTransaction tx cache (currentBlock chain) then
    (true, creditReceiver (debitSender cache tx) tx)
  else (false, cache)

/-! ## The law of a run -/

/-- The cost of a transaction over the naturals. -/
def exactCost (tx : Transaction) : Nat :=
  tx.amount.toNat + tx.fee.toNat + tx.gasPrice.toNat * tx.gasLimit.toNat / 1000000000

/-- A call of `process_transaction`: the chain may be a different one at every call. -/
abbrev Call := Blockchain × Transaction

def callStep (cache : BalanceCache) (call : Call) : BalanceCache :=
  (processTransaction cache call.1 call.2).2

/-- An accepted call is paid for. -/
def PaidFor (cache : BalanceCache) (call : Call) : Prop :=
  (processTransaction cache call.1 call.2).1 = true →
    exactCost call.2 ≤ (balanceCacheGet cache call.2.sender call.2.tokenId).toNat

/-- Every accepted call is paid for, and the total of no token is higher in the end. -/
structure SolventRun (cache : BalanceCache) (calls : List Call) : Prop where
  paidFor : Along callStep PaidFor cache calls
  total_le : ∀ t, totalBalance (run callStep cache calls) t ≤ totalBalance cache t

/-- Neither the gas product nor the whole cost exceeds 64 bits. -/
structure FitsWord (tx : Transaction) : Prop where
  gas : tx.gasPrice.toNat * tx.gasLimit.toNat < 2 ^ 64
  cost : exactCost tx < 2 ^ 64

theorem toNat_totalCost (tx : Transaction) :
    (totalCost tx).toNat = (tx.amount.toNat + tx.fee.toNat +
      tx.gasPrice.toNat * tx.gasLimit.toNat % 2 ^ 64 / 1000000000) % 2 ^ 64 := by
  have hgas : (tx.gasPrice.toUInt64 * tx.gasLimit / 1000000000).toNat =
      tx.gasPrice.toNat * tx.gasLimit.toNat % 2 ^ 64 / 1000000000 := by
    rw [UInt64.toNat_div, UInt64.toNat_mul, UInt32.toNat_toUInt64]
    rfl
  rw [totalCost, UInt64.toNat_add, UInt64.toNat_add, UInt32.toNat_toUInt64, hgas]
  omega

/-- The 64-bit cost is exact when everything fits, and too low otherwise. -/
theorem totalCost_of_fits {tx : Transaction} (h : FitsWord tx) :
    (totalCost tx).toNat = exactCost tx := by
  rw [toNat_totalCost, Nat.mod_eq_of_lt h.gas]
  exact Nat.mod_eq_of_lt h.cost

theorem totalCost_lt_of_not_fits {tx : Transaction} (h : ¬ FitsWord tx) :
    (totalCost tx).toNat < exactCost tx := by
  rw [toNat_totalCost]
  unfold exactCost
  by_cases hgas : tx.gasPrice.toNat * tx.gasLimit.toNat < 2 ^ 64
  · have hcost : ¬ exactCost tx < 2 ^ 64 := fun hlt => h ⟨hgas, hlt⟩
    unfold exactCost at hcost
    rw [Nat.mod_eq_of_lt hgas]
    generalize tx.gasPrice.toNat * tx.gasLimit.toNat / 1000000000 = gas at hcost ⊢
    omega
  · generalize tx.gasPrice.toNat * tx.gasLimit.toNat = product at hgas ⊢
    have hwrapped : product % 2 ^ 64 + 1000000000 ≤ product := by omega
    have hless : product % 2 ^ 64 / 1000000000 < product / 1000000000 := by
      generalize product % 2 ^ 64 = rest at hwrapped ⊢
      omega
    have hmod := Nat.mod_le
      (tx.amount.toNat + tx.fee.toNat + product % 2 ^ 64 / 1000000000) (2 ^ 64)
    omega

/-! ## Runs over transactions that fit -/

section Step

variable {cache : BalanceCache} (hcache : CacheOk hashKey cache) (chain : Blockchain)
  (tx : Transaction)
include hcache

theorem cacheOk_processTransaction :
    CacheOk hashKey (processTransaction cache chain tx).2 := by
  unfold processTransaction
  split
  · exact (hcache.update _ _ _).update _ _ _
  · exact hcache

omit hcache in
/-- An accepted transaction costs, in 64 bits, at most the balance of its sender. -/
theorem totalCost_le_of_accepted (h : (processTransaction cache chain tx).1 = true) :
    (totalCost tx).toNat ≤ (balanceCacheGet cache tx.sender tx.tokenId).toNat := by
  have hverify : verifyTransaction tx cache (currentBlock chain) = true := by
    by_contra hreject
    rw [processTransaction, if_neg hreject] at h
    cases h
  by_contra hlt
  rw [verifyTransaction, if_pos (UInt64.lt_iff_toNat_lt.mpr (Nat.lt_of_not_le hlt))] at hverify
  cases hverify

/-- A call raises no total when the amount is part of the debited cost. -/
theorem total_processTransaction (hamount : tx.amount.toNat ≤ (totalCost tx).toNat)
    (t : UInt32) :
    totalBalance (processTransaction cache chain tx).2 t ≤ totalBalance cache t := by
  by_cases haccept : (processTransaction cache chain tx).1 = true
  · have hcovered := totalCost_le_of_accepted chain tx haccept
    have hresult : (processTransaction cache chain tx).2 =
        creditReceiver (debitSender cache tx) tx := by
      unfold processTransaction at haccept ⊢
      split at haccept
      · rename_i hverify
        rw [if_pos hverify]
      · cases haccept
    have hdebit : totalBalance cache t = totalBalance (debitSender cache tx) t +
        if tx.tokenId = t then (totalCost tx).toNat else 0 := hcache.total_debit hcovered t
    have hcredit : totalBalance (creditReceiver (debitSender cache tx) tx) t ≤
        totalBalance (debitSender cache tx) t +
          if tx.tokenId = t then tx.amount.toNat else 0 :=
      (hcache.update _ _ _).total_credit_le _ _ _ t
    rw [hresult]
    by_cases ht : tx.tokenId = t
    · rw [if_pos ht] at hdebit hcredit
      omega
    · rw [if_neg ht] at hdebit hcredit
      omega
  · have hresult : (processTransaction cache chain tx).2 = cache := by
      unfold processTransaction at haccept ⊢
      split at haccept
      · exact absurd rfl haccept
      · rename_i hreject
        rw [if_neg hreject]
    rw [hresult]

end Step

/-- Over transactions that fit, every run is solvent. -/
theorem solventRun_of_fits {cache : BalanceCache} (hcache : CacheOk hashKey cache)
    {calls : List Call} (hfits : ∀ call ∈ calls, FitsWord call.2) :
    SolventRun cache calls := by
  induction calls generalizing cache with
  | nil => exact ⟨trivial, fun _ => Nat.le_refl _⟩
  | cons call calls ih =>
    have hcall := hfits call List.mem_cons_self
    have hnext := ih (cacheOk_processTransaction hcache call.1 call.2)
      fun call' hmem => hfits call' (List.mem_cons_of_mem _ hmem)
    have hexact := totalCost_of_fits hcall
    refine ⟨⟨fun haccept => ?_, hnext.paidFor⟩, fun t => ?_⟩
    · rw [← hexact]
      exact totalCost_le_of_accepted call.1 call.2 haccept
    · have hamount : call.2.amount.toNat ≤ (totalCost call.2).toNat := by
        rw [hexact, exactCost]
        omega
      exact (hnext.total_le t).trans (total_processTransaction hcache call.1 call.2 hamount t)

/-! ## Transactions that do not fit -/

/-- A table in which only the sender has a balance: the 64-bit cost. -/
def exactlyFunded (tx : Transaction) : BalanceCache :=
  balanceCacheUpdate (balanceCacheCreate 1) tx.sender tx.tokenId (totalCost tx)

theorem exactlyFunded_spec (tx : Transaction) :
    CacheOk hashKey (exactlyFunded tx) ∧
      balanceCacheGet (exactlyFunded tx) tx.sender tx.tokenId = totalCost tx := by
  have hcreate : CacheOk hashKey (balanceCacheCreate 1) :=
    cacheOk_create hashKey Address.zero Nat.one_pos
  have hkeys : keys (balanceCacheCreate 1) = ∅ := keys_create Address.zero 1
  have hroom : HasRoom (balanceCacheCreate 1) (tx.sender, tx.tokenId) := by
    apply HasRoom.of_card
    rw [hkeys, Finset.card_empty]
    decide
  have hzero : cacheGet hashKey (balanceCacheCreate 1) tx.sender tx.tokenId = 0 := by
    apply hcreate.cacheGet_of_notMem
    rw [hkeys]
    exact Finset.notMem_empty _
  refine ⟨hcreate.update _ _ _, ?_⟩
  have hself := hcreate.cacheGet_update_self hroom (totalCost tx)
  rw [hzero, UInt64.zero_add] at hself
  exact hself

/-- On the genesis chain no deadline has passed, so the exactly funded sender is accepted. -/
theorem accepted_exactlyFunded (tx : Transaction) :
    (processTransaction (exactlyFunded tx) blockchainCreate tx).1 = true := by
  have hblock : currentBlock blockchainCreate = 0 := rfl
  have hverify : verifyTransaction tx (exactlyFunded tx) (currentBlock blockchainCreate) =
      true := by
    rw [verifyTransaction, (exactlyFunded_spec tx).2, if_neg (UInt64.lt_irrefl _), hblock,
      if_neg (fun h => UInt32.not_lt_zero h.2)]
  rw [processTransaction, if_pos hverify]

/-- Over a set of transactions every run is solvent, from every table and on every chain,
exactly when each transaction of the set fits. -/
theorem solvent_iff (txs : Set Transaction) :
    (∀ cache, CacheOk hashKey cache → ∀ calls : List Call, (∀ call ∈ calls, call.2 ∈ txs) →
      SolventRun cache calls) ↔ ∀ tx ∈ txs, FitsWord tx := by
  constructor
  · intro h tx hmem
    by_contra hno
    have hrun := h (exactlyFunded tx) (exactlyFunded_spec tx).1 [(blockchainCreate, tx)]
      (fun call hcall => by rw [List.mem_singleton.mp hcall]; exact hmem)
    have hpaid := hrun.paidFor.1 (accepted_exactlyFunded tx)
    dsimp only at hpaid
    rw [(exactlyFunded_spec tx).2] at hpaid
    exact absurd hpaid (Nat.not_le.mpr (totalCost_lt_of_not_fits hno))
  · intro h cache hcache calls hcalls
    exact solventRun_of_fits hcache fun call hmem => h call.2 (hcalls call hmem)

/-- A transfer of `2^64 - 1` with fee 1: its 64-bit cost is zero. -/
def wrappingTransfer : Transaction where
  sender := Address.zero
  receiver := ⟨Vector.replicate 64 1⟩
  amount := UInt64.ofNat (2 ^ 64 - 1)
  tokenId := 0
  fee := 1
  gasPrice := 0
  gasLimit := 0
  deadline := 0

/-- An account without balance sends it, and the receiver gets the amount. -/
theorem wrappingTransfer_accepted :
    (processTransaction (balanceCacheCreate 4) blockchainCreate wrappingTransfer).1 = true ∧
      balanceCacheGet (balanceCacheCreate 4) wrappingTransfer.sender 0 = 0 ∧
      exactCost wrappingTransfer = 2 ^ 64 ∧
      totalBalance (balanceCacheCreate 4) 0 = 0 ∧
      totalBalance
        (processTransaction (balanceCacheCreate 4) blockchainCreate wrappingTransfer).2 0 =
          2 ^ 64 - 1 := by
  decide +kernel

end Blackstone.Engine
