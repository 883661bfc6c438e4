import Mathlib.Algebra.BigOperators.Group.List.Basic
import Mathlib.Algebra.Order.Ring.Nat
import Mathlib.Data.Multiset.AddSub
import Blackstone.Engine.Threads

/-!
# Block assembly

`create_block`, run alone. It pops transactions while their gas limits fit, and puts the first
one that does not fit back at the end of the pool. No transaction is lost, and the block is never
too long. But the sum of the gas limits is a 64-bit word: a transaction whose gas limit makes it
wrap around passes for one that fits.

`assembles_iff`: the block keeps its gas limit exactly when no transaction that comes after
fitting ones makes the sum wrap.
-/

namespace Blackstone.Engine.BlockAssembly

open RingBuffer Cyclic

/-- The gas limit of a block. -/
def blockGasLimit : UInt64 := 8000000

/-- The loop that fetches transactions, with `n` rounds left. -/
def fetch : ℕ → TxPool → List Transaction → UInt64 → List Transaction × TxPool
  | 0, pool, txs, _ => (txs, pool)
  | n + 1, pool, txs, totalGas =>
    match transactionPoolPop pool with
    | (none, pool) => (txs, pool)
    | (some tx, pool) =>
      if totalGas + tx.gasLimit ≤ blockGasLimit then
        fetch n pool (txs ++ [tx]) (totalGas + tx.gasLimit)
      else (txs, (transactionPoolAdd pool tx).2)

/-- `create_block`, without the hashes. -/
def createBlock (chain : Blockchain) (pool : TxPool) (miner : Address) : Block × TxPool :=
  let (txs, pool) := fetch blockSize pool [] 0
  ({ Engine.createBlock chain txs with miner := miner }, pool)

/-! ## What the pool holds -/

/-- The transactions that are pending, the next one in front. -/
def pending (pool : TxPool) : List Transaction :=
  (List.range pool.size.toNat).map fun i =>
    pool.pool ((pool.head.toNat + i) % pool.capacity.toNat)

/-- The counters of a pool agree: its size is the distance of tail and head, and it is not
overfull. -/
structure Agrees (pool : TxPool) : Prop where
  tail_eq : pool.tail.toNat = pool.head.toNat + pool.size.toNat
  size_le : pool.size.toNat ≤ pool.capacity.toNat

@[simp] theorem length_pending (pool : TxPool) : (pending pool).length = pool.size.toNat := by
  rw [pending, List.length_map, List.length_range]

theorem window_pending {pool : TxPool} (h : Agrees pool) :
    Window pool.pool pool.capacity.toNat pool.head.toNat (pending pool) where
  length_le := by
    rw [length_pending]
    exact h.size_le
  cell j hj := by simp [pending]

theorem pending_eq {pool : TxPool} {q : List Transaction}
    (h : Window pool.pool pool.capacity.toNat pool.head.toNat q)
    (hsize : pool.size.toNat = q.length) : pending pool = q := by
  apply List.ext_getElem
  · rw [length_pending, hsize]
  · intro i hi hq
    rw [← h.cell i hq]
    simp [pending]

/-- Nothing is popped from an empty pool. -/
theorem pop_of_nil {pool : TxPool} (hnil : pending pool = []) :
    transactionPoolPop pool = (none, pool) := by
  have hsize : pool.size.toNat = 0 := by rw [← length_pending, hnil, List.length_nil]
  rw [transactionPoolPop, if_pos (UInt64.toNat_inj.mp hsize)]

/-- A pop takes the next transaction. -/
theorem pop_of_cons {pool : TxPool} (h : Agrees pool) {tx : Transaction} {q : List Transaction}
    (hcons : pending pool = tx :: q) :
    ∃ popped, transactionPoolPop pool = (some tx, popped) ∧ Agrees popped ∧ pending popped = q ∧
      q.length < popped.capacity.toNat := by
  have hwindow := window_pending h
  rw [hcons] at hwindow
  have hlength : pool.size.toNat = q.length + 1 := by
    rw [← length_pending, hcons, List.length_cons]
  have hsome : ¬ pool.size = 0 := by
    intro hzero
    rw [hzero, UInt64.toNat_zero] at hlength
    omega
  have hword := pool.tail.toNat_lt
  have htail := h.tail_eq
  have hhead : (pool.head + 1).toNat = pool.head.toNat + 1 := toNat_succ (by omega)
  have hsize : (pool.size - 1).toNat = q.length := by
    rw [toNat_pred (by omega), hlength]
    rfl
  have hcapacity := h.size_le
  refine ⟨{ pool with head := pool.head + 1, size := pool.size - 1 }, ?_, ⟨?_, ?_⟩, ?_, ?_⟩
  · rw [transactionPoolPop, if_neg hsome, UInt64.toNat_mod, hwindow.head]
  · show pool.tail.toNat = (pool.head + 1).toNat + (pool.size - 1).toNat
    omega
  · show (pool.size - 1).toNat ≤ pool.capacity.toNat
    omega
  · apply pending_eq _ hsize
    show Window pool.pool pool.capacity.toNat (pool.head + 1).toNat q
    rw [hhead]
    exact hwindow.pop
  · show q.length < pool.capacity.toNat
    omega

/-- An addition to a pool that is not full goes to the end. -/
theorem pending_add {pool : TxPool} (h : Agrees pool)
    (hspace : (pending pool).length < pool.capacity.toNat) (tx : Transaction) :
    pending (transactionPoolAdd pool tx).2 = pending pool ++ [tx] := by
  rw [length_pending] at hspace
  have hopen : ¬ pool.size ≥ pool.capacity := by
    rw [ge_iff_le, UInt64.le_iff_toNat_le]
    omega
  have hword := pool.capacity.toNat_lt
  have hsize : (pool.size + 1).toNat = pool.size.toNat + 1 := toNat_succ (by omega)
  have hindex : (pool.tail % pool.capacity).toNat =
      (pool.head.toNat + (pending pool).length) % pool.capacity.toNat := by
    rw [UInt64.toNat_mod, h.tail_eq, length_pending]
  rw [transactionPoolAdd, if_neg hopen]
  apply pending_eq
  · show Window (Function.update pool.pool (pool.tail % pool.capacity).toNat tx)
      pool.capacity.toNat pool.head.toNat (pending pool ++ [tx])
    rw [hindex]
    exact (window_pending h).push (by rwa [length_pending]) tx
  · show (pool.size + 1).toNat = (pending pool ++ [tx]).length
    rw [hsize, List.length_append, length_pending, List.length_singleton]

/-! ## The loop on queues -/

/-- The transactions that the loop takes from a queue, with `n` rounds left. -/
def taken : ℕ → UInt64 → List Transaction → List Transaction
  | 0, _, _ => []
  | _ + 1, _, [] => []
  | n + 1, totalGas, tx :: q =>
    if totalGas + tx.gasLimit ≤ blockGasLimit then tx :: taken n (totalGas + tx.gasLimit) q
    else []

/-- The queue that it leaves. -/
def left : ℕ → UInt64 → List Transaction → List Transaction
  | 0, _, q => q
  | _ + 1, _, [] => []
  | n + 1, totalGas, tx :: q =>
    if totalGas + tx.gasLimit ≤ blockGasLimit then left n (totalGas + tx.gasLimit) q
    else q ++ [tx]

theorem fetch_spec (n : ℕ) {pool : TxPool} (h : Agrees pool) (txs : List Transaction)
    (totalGas : UInt64) :
    (fetch n pool txs totalGas).1 = txs ++ taken n totalGas (pending pool) ∧
      pending (fetch n pool txs totalGas).2 = left n totalGas (pending pool) := by
  induction n generalizing pool txs totalGas with
  | zero => exact ⟨(List.append_nil txs).symm, rfl⟩
  | succ n ih =>
    cases hq : pending pool with
    | nil =>
      rw [fetch, pop_of_nil hq]
      exact ⟨(List.append_nil txs).symm, hq⟩
    | cons tx q =>
      obtain ⟨popped, hpop, hagrees, hpending, hspace⟩ := pop_of_cons h hq
      rw [fetch, hpop, taken, left]
      dsimp only
      split_ifs with hfits
      · obtain ⟨htaken, hleft⟩ := ih hagrees (txs ++ [tx]) (totalGas + tx.gasLimit)
        rw [htaken, hleft, hpending, List.append_assoc, List.singleton_append]
        exact ⟨rfl, rfl⟩
      · refine ⟨(List.append_nil txs).symm, ?_⟩
        rw [pending_add hagrees (by rwa [hpending]), hpending]

theorem length_taken_le (n : ℕ) (totalGas : UInt64) (q : List Transaction) :
    (taken n totalGas q).length ≤ n := by
  induction n generalizing totalGas q with
  | zero => exact Nat.le_refl 0
  | succ n ih =>
    cases q with
    | nil => exact Nat.zero_le _
    | cons tx q =>
      rw [taken]
      split_ifs
      · exact Nat.succ_le_succ (ih _ q)
      · exact Nat.zero_le _

/-- Nothing is lost: the transactions are taken or left, one of them perhaps at another place. -/
theorem perm_taken_left (n : ℕ) (totalGas : UInt64) (q : List Transaction) :
    (taken n totalGas q ++ left n totalGas q).Perm q := by
  induction n generalizing totalGas q with
  | zero => exact List.Perm.refl q
  | succ n ih =>
    cases q with
    | nil => exact List.Perm.refl []
    | cons tx q =>
      rw [taken, left]
      split_ifs
      · exact (ih _ q).cons tx
      · exact List.perm_append_singleton tx q

/-! ## The sum of the gas limits -/

/-- The sum of the gas limits, as a natural number. -/
def naturalGas (txs : List Transaction) : ℕ := (txs.map fun tx => tx.gasLimit.toNat).sum

@[simp] theorem naturalGas_cons (tx : Transaction) (txs : List Transaction) :
    naturalGas (tx :: txs) = tx.gasLimit.toNat + naturalGas txs := by
  rw [naturalGas, List.map_cons, List.sum_cons, naturalGas]

/-- No transaction of the first `n` that comes after fitting ones makes the sum wrap, when
`spent` is used up already. -/
def NoWrap (n spent : ℕ) (q : List Transaction) : Prop :=
  ∀ i tx, i < n → q[i]? = some tx → spent + naturalGas (q.take i) ≤ 8000000 →
    spent + naturalGas (q.take i) + tx.gasLimit.toNat < 2 ^ 64

theorem noWrap_cons_iff {n spent : ℕ} (hspent : spent ≤ 8000000) (tx : Transaction)
    (q : List Transaction) :
    NoWrap (n + 1) spent (tx :: q) ↔
      spent + tx.gasLimit.toNat < 2 ^ 64 ∧ NoWrap n (spent + tx.gasLimit.toNat) q := by
  constructor
  · intro h
    refine ⟨?_, ?_⟩
    · exact h 0 tx (Nat.succ_pos n) rfl hspent
    · intro i next hi hnext hfits
      have hstep := h (i + 1) next (Nat.succ_lt_succ hi) hnext
      rw [List.take_succ_cons, naturalGas_cons, ← Nat.add_assoc] at hstep
      exact hstep hfits
  · rintro ⟨hhead, hrest⟩ i next hi hnext hfits
    cases i with
    | zero =>
      obtain rfl := Option.some.inj hnext
      exact hhead
    | succ i =>
      rw [List.take_succ_cons, naturalGas_cons, ← Nat.add_assoc] at hfits ⊢
      exact hrest i next (Nat.lt_of_succ_lt_succ hi) hnext hfits

/-- Behind a transaction that does not fit there is no condition. -/
theorem noWrap_of_spent {n spent : ℕ} (hspent : 8000000 < spent) (q : List Transaction) :
    NoWrap n spent q := by
  intro i tx _ _ hfits
  omega

theorem fits_iff (totalGas gasLimit : UInt64) :
    totalGas + gasLimit ≤ blockGasLimit ↔
      (totalGas.toNat + gasLimit.toNat) % 2 ^ 64 ≤ 8000000 := by
  rw [UInt64.le_iff_toNat_le, UInt64.toNat_add]
  rfl

/-- What is taken fits exactly when no transaction makes the sum wrap. -/
theorem naturalGas_taken_le_iff (n : ℕ) {totalGas : UInt64} (hgas : totalGas.toNat ≤ 8000000)
    (q : List Transaction) :
    totalGas.toNat + naturalGas (taken n totalGas q) ≤ 8000000 ↔ NoWrap n totalGas.toNat q := by
  induction n generalizing totalGas q with
  | zero => exact ⟨fun _ i tx hi => absurd hi (Nat.not_lt_zero i), fun _ => hgas⟩
  | succ n ih =>
    cases q with
    | nil =>
      refine ⟨fun _ i tx _ hnone => ?_, fun _ => hgas⟩
      cases hnone
    | cons tx q =>
      have hword := tx.gasLimit.toNat_lt
      rw [noWrap_cons_iff hgas, taken]
      rcases Nat.lt_or_ge (totalGas.toNat + tx.gasLimit.toNat) (2 ^ 64) with hlt | hge
      · have hsum : (totalGas + tx.gasLimit).toNat = totalGas.toNat + tx.gasLimit.toNat := by
          rw [UInt64.toNat_add, Nat.mod_eq_of_lt hlt]
        by_cases hfits : totalGas + tx.gasLimit ≤ blockGasLimit
        · have hsmall := (fits_iff _ _).mp hfits
          rw [Nat.mod_eq_of_lt hlt] at hsmall
          have hrest := @ih (totalGas + tx.gasLimit) (by omega) q
          rw [hsum] at hrest
          rw [if_pos hfits, naturalGas_cons, ← Nat.add_assoc, hrest]
          exact ⟨fun h => ⟨hlt, h⟩, fun h => h.2⟩
        · have hlarge := (fits_iff _ _).not.mp hfits
          rw [Nat.mod_eq_of_lt hlt] at hlarge
          rw [if_neg hfits]
          exact ⟨fun _ => ⟨hlt, noWrap_of_spent (by omega) q⟩, fun _ => hgas⟩
      · -- the wrapped sum is below the one before, so the transaction is taken
        have hfits : totalGas + tx.gasLimit ≤ blockGasLimit := by
          rw [fits_iff, Nat.mod_eq_sub_mod hge, Nat.mod_eq_of_lt (by omega)]
          omega
        rw [if_pos hfits, naturalGas_cons]
        constructor
        · intro h
          omega
        · intro h
          omega

/-- `gas_used` is the sum of the gas limits in 32 bits. -/
theorem toNat_gasUsed (txs : List Transaction) (gas : UInt32) :
    (txs.foldl (fun gas tx => gas + tx.gasLimit.toUInt32) gas).toNat =
      (gas.toNat + naturalGas txs) % 2 ^ 32 := by
  induction txs generalizing gas with
  | nil =>
    show gas.toNat = (gas.toNat + 0) % 2 ^ 32
    rw [Nat.add_zero, Nat.mod_eq_of_lt gas.toNat_lt]
  | cons tx txs ih =>
    rw [List.foldl_cons, ih, UInt32.toNat_add, UInt64.toNat_toUInt32, naturalGas_cons]
    omega

/-! ## The block -/

/-- The block is neither too long nor over its gas limit, it counts its gas, and every pending
transaction is in it or still pending. -/
structure Assembles (chain : Blockchain) (pool : TxPool) (miner : Address) : Prop where
  length_le : (createBlock chain pool miner).1.transactions.length ≤ blockSize
  gas_le : naturalGas (createBlock chain pool miner).1.transactions ≤ 8000000
  gas_used : naturalGas (createBlock chain pool miner).1.transactions =
    (createBlock chain pool miner).1.gasUsed.toNat
  kept : (pending pool : Multiset Transaction) =
    ↑(createBlock chain pool miner).1.transactions + ↑(pending (createBlock chain pool miner).2)

variable {chain : Blockchain} {pool : TxPool} {miner : Address}

theorem createBlock_transactions (h : Agrees pool) :
    (createBlock chain pool miner).1.transactions = taken blockSize 0 (pending pool) :=
  (fetch_spec blockSize h [] 0).1

theorem pending_createBlock (h : Agrees pool) :
    pending (createBlock chain pool miner).2 = left blockSize 0 (pending pool) :=
  (fetch_spec blockSize h [] 0).2

theorem createBlock_gasUsed :
    (createBlock chain pool miner).1.gasUsed.toNat =
      naturalGas (createBlock chain pool miner).1.transactions % 2 ^ 32 := by
  have hsum := toNat_gasUsed (fetch blockSize pool [] 0).1 0
  rw [UInt32.toNat_zero, Nat.zero_add] at hsum
  exact hsum

/-- No transaction is lost, and the block is never too long. -/
theorem createBlock_keeps (h : Agrees pool) :
    (createBlock chain pool miner).1.transactions.length ≤ blockSize ∧
      (pending pool : Multiset Transaction) =
        ↑(createBlock chain pool miner).1.transactions +
          ↑(pending (createBlock chain pool miner).2) := by
  rw [createBlock_transactions h, pending_createBlock h, Multiset.coe_add, Multiset.coe_eq_coe]
  exact ⟨length_taken_le _ _ _, (perm_taken_left _ _ _).symm⟩

/-- The block is as it should be exactly when no transaction, of the first ones that are
fetched, makes the sum of the gas limits wrap after a sum that fits. -/
theorem assembles_iff (h : Agrees pool) (chain : Blockchain) (miner : Address) :
    Assembles chain pool miner ↔ NoWrap blockSize 0 (pending pool) := by
  have hgas := @naturalGas_taken_le_iff blockSize 0 (Nat.zero_le _) (pending pool)
  rw [UInt64.toNat_zero, Nat.zero_add, ← @createBlock_transactions chain pool miner h] at hgas
  rw [← hgas]
  constructor
  · exact Assembles.gas_le
  · intro hle
    obtain ⟨hlength, hkept⟩ := @createBlock_keeps chain pool miner h
    refine ⟨hlength, hle, ?_, hkept⟩
    rw [createBlock_gasUsed, Nat.mod_eq_of_lt (by omega)]

/-- A transaction of which only the gas limit matters. -/
def gasTransaction (gasLimit : UInt64) : Transaction where
  sender := Address.zero
  receiver := Address.zero
  amount := 0
  tokenId := 0
  fee := 0
  gasPrice := 0
  gasLimit := gasLimit
  deadline := 0

/-- A pool of two transactions. -/
def twoTransactions (first second : UInt64) : TxPool where
  pool := Function.update (fun _ => gasTransaction first) 1 (gasTransaction second)
  head := 0
  tail := 2
  size := 2
  capacity := 4

theorem agrees_twoTransactions (first second : UInt64) : Agrees (twoTransactions first second) :=
  ⟨rfl, by show 2 ≤ 4; omega⟩

/-- A transaction that fits and one that does not. -/
theorem assembles_unfitting :
    Assembles blockchainCreate (twoTransactions 21000 8000000) Address.zero := by
  apply (assembles_iff (agrees_twoTransactions _ _) _ _).mpr
  have hpending : pending (twoTransactions 21000 8000000) =
      [gasTransaction 21000, gasTransaction 8000000] := rfl
  rw [hpending]
  intro i tx _ htx hfits
  have hword : tx.gasLimit.toNat ≤ 8000000 := by
    rcases i with _ | _ | i
    · obtain rfl := Option.some.inj htx
      decide
    · obtain rfl := Option.some.inj htx
      decide
    · cases htx
  omega

/-- The second transaction makes the sum zero. -/
theorem not_assembles_wrapping :
    ¬ Assembles blockchainCreate (twoTransactions 1 0xFFFFFFFFFFFFFFFF) Address.zero := by
  intro h
  have hgas := h.gas_le
  revert hgas
  decide +kernel

end Blackstone.Engine.BlockAssembly
