import Blackstone.Library.RingBuffer
import Blackstone.TokenNode.Types

/-!
# The transaction pool of the token node

`tx_pool.c`: a ring buffer with two parallel arrays, one of transactions and one of their
hashes, addressed by the counters `head` and `tail` modulo the capacity. The abstract
pool is a queue bounded by the capacity (`fifoStep`). `PoolRep` relates the two,
`poolStep_simulates` is the step of the simulation, and `txPool_refines_fifo` says that
both give the same answers to every sequence of calls with fewer than `2^64` additions.
-/

namespace Blackstone.TokenNode

open RingBuffer

/-- `tx_pool_t`, without its lock. -/
structure TxPool where
  transactions : Nat → Transaction
  hashes : Nat → Hash
  head : UInt64
  tail : UInt64
  size : UInt64
  capacity : UInt64

def Transaction.zero : Transaction where
  sender := Address.zero
  receiver := Address.zero
  amount := 0
  tokenId := 0
  timestamp := 0
  nonce := 0
  txHash := Hash.zero
  signature := Hash.zero
  fee := 0
  gasPrice := 0
  gasLimit := 0
  version := 0
  processed := false

/-- `tx_pool_create`, when the allocations succeed. -/
def txPoolCreate (capacity : UInt64) : TxPool where
  transactions _ := Transaction.zero
  hashes _ := Hash.zero
  head := 0
  tail := 0
  size := 0
  capacity := capacity

/-- `tx_pool_add`. -/
def txPoolAdd (pool : TxPool) (tx : Transaction) : Bool × TxPool :=
  if pool.size ≥ pool.capacity then (false, pool)
  else
    let idx := (pool.tail % pool.capacity).toNat
    (true, { pool with
      transactions := Function.update pool.transactions idx tx
      hashes := Function.update pool.hashes idx tx.txHash
      tail := pool.tail + 1
      size := pool.size + 1 })

/-- `tx_pool_pop`, when the allocation of the copy succeeds. -/
def txPoolPop (pool : TxPool) : Option Transaction × TxPool :=
  if pool.size = 0 then (none, pool)
  else
    let idx := (pool.head % pool.capacity).toNat
    (some (pool.transactions idx),
      { pool with head := pool.head + 1, size := pool.size - 1 })

/-- `tx_pool_peek`, when the allocation of the copy succeeds. -/
def txPoolPeek (pool : TxPool) : Option Transaction :=
  if pool.size = 0 then none
  else some (pool.transactions (pool.head % pool.capacity).toNat)

/-- The loop of `tx_pool_contains`, from position `current` on. -/
def containsLoop (pool : TxPool) (txHash : Hash) (current : UInt64) : Bool :=
  if current < pool.tail then
    if pool.hashes (current % pool.capacity).toNat = txHash then true
    else containsLoop pool txHash (current + 1)
  else false
termination_by pool.tail.toNat - current.toNat
decreasing_by
  rename_i hlt _
  have hlt' := UInt64.lt_iff_toNat_lt.mp hlt
  have hword := pool.tail.toNat_lt
  have hnext : (current + 1).toNat = current.toNat + 1 := by
    rw [UInt64.toNat_add]
    exact Nat.mod_eq_of_lt (by simpa using by omega)
  omega

/-- `tx_pool_contains`. -/
def txPoolContains (pool : TxPool) (txHash : Hash) : Bool :=
  containsLoop pool txHash pool.head

/-! ## Calls and their answers -/

/-- A call of the pool interface. -/
inductive PoolOp where
  | add (tx : Transaction)
  | pop
  | peek
  | contains (txHash : Hash)

/-- What a call returns. -/
inductive PoolAnswer where
  | added (accepted : Bool)
  | transaction (tx : Option Transaction)
  | found (yes : Bool)
  deriving DecidableEq

/-- One call on the pool of the source. -/
def poolStep (pool : TxPool) : PoolOp → PoolAnswer × TxPool
  | .add tx => (.added (txPoolAdd pool tx).1, (txPoolAdd pool tx).2)
  | .pop => (.transaction (txPoolPop pool).1, (txPoolPop pool).2)
  | .peek => (.transaction (txPoolPeek pool), pool)
  | .contains txHash => (.found (txPoolContains pool txHash), pool)

/-- The answers of the pool of the source to a sequence of calls. -/
def poolAnswers (pool : TxPool) : List PoolOp → List PoolAnswer
  | [] => []
  | op :: ops => (poolStep pool op).1 :: poolAnswers (poolStep pool op).2 ops

/-- One call on a queue bounded by `capacity`: the abstract pool. -/
def fifoStep (capacity : Nat) (q : List Transaction) : PoolOp → PoolAnswer × List Transaction
  | .add tx => if q.length < capacity then (.added true, q ++ [tx]) else (.added false, q)
  | .pop => (.transaction q.head?, q.tail)
  | .peek => (.transaction q.head?, q)
  | .contains txHash => (.found (q.any (fun tx => tx.txHash = txHash)), q)

/-- The answers of the bounded queue to a sequence of calls. -/
def fifoAnswers (capacity : Nat) (q : List Transaction) : List PoolOp → List PoolAnswer
  | [] => []
  | op :: ops => (fifoStep capacity q op).1 :: fifoAnswers capacity (fifoStep capacity q op).2 ops

/-- The number of additions among the calls. -/
def additions : List PoolOp → Nat
  | [] => 0
  | .add _ :: ops => additions ops + 1
  | _ :: ops => additions ops

/-! ## The representation relation -/

/-- The pool holds the queue `q`: both arrays have it from `head` on, aligned, and the
three counters agree about its length. -/
structure PoolRep (pool : TxPool) (q : List Transaction) : Prop where
  counters : Counters pool.capacity pool.head pool.tail pool.size q.length
  transactions : Window pool.transactions pool.capacity.toNat pool.head.toNat q
  hashes : Window pool.hashes pool.capacity.toNat pool.head.toNat (q.map Transaction.txHash)

theorem poolRep_create {capacity : UInt64} (hcap : 0 < capacity) :
    PoolRep (txPoolCreate capacity) [] where
  counters := ⟨UInt64.lt_iff_toNat_lt.mp hcap, rfl, rfl, Nat.zero_le _⟩
  transactions := Window.empty _ _ _
  hashes := Window.empty _ _ _

theorem PoolRep.empty_iff {pool : TxPool} {q : List Transaction} (h : PoolRep pool q) :
    pool.size = 0 ↔ q = [] := by
  rw [h.counters.empty_iff, List.length_eq_zero_iff]

/-- A successful addition appends to the queue. -/
theorem PoolRep.add {pool : TxPool} {q : List Transaction} (h : PoolRep pool q)
    (hspace : q.length < pool.capacity.toNat) (hroom : pool.tail.toNat + 1 < 2 ^ 64)
    (tx : Transaction) :
    txPoolAdd pool tx = (true, (txPoolAdd pool tx).2) ∧
      PoolRep (txPoolAdd pool tx).2 (q ++ [tx]) := by
  have hopen : ¬ pool.size ≥ pool.capacity := by
    rw [h.counters.full_iff]
    omega
  have hidx := h.counters.tail_index
  rw [txPoolAdd, if_neg hopen]
  refine ⟨rfl, ?_, ?_, ?_⟩
  · rw [List.length_append, List.length_singleton]
    exact h.counters.push hspace hroom
  · simp only [hidx]
    exact h.transactions.push hspace tx
  · simp only [hidx, List.map_append, List.map_cons, List.map_nil]
    have hpush := h.hashes.push (by rw [List.length_map]; exact hspace) tx.txHash
    rwa [List.length_map] at hpush

theorem PoolRep.size_ne_zero {pool : TxPool} {tx : Transaction} {q : List Transaction}
    (h : PoolRep pool (tx :: q)) : pool.size ≠ 0 := by
  intro hzero
  exact List.cons_ne_nil _ _ (h.empty_iff.mp hzero)

/-- A pop takes the oldest transaction, if there is one. -/
theorem PoolRep.pop {pool : TxPool} {q : List Transaction} (h : PoolRep pool q) :
    (txPoolPop pool).1 = q.head? ∧ PoolRep (txPoolPop pool).2 q.tail ∧
      (txPoolPop pool).2.capacity = pool.capacity ∧ (txPoolPop pool).2.tail = pool.tail := by
  unfold txPoolPop
  cases q with
  | nil =>
    rw [if_pos (h.empty_iff.mpr rfl)]
    exact ⟨rfl, h, rfl, rfl⟩
  | cons tx q =>
    have hhead := h.counters.toNat_head_succ
    rw [if_neg h.size_ne_zero]
    refine ⟨?_, ⟨h.counters.pop, ?_, ?_⟩, rfl, rfl⟩
    · simp only [UInt64.toNat_mod, h.transactions.head, List.head?_cons]
    · simp only [hhead]
      exact h.transactions.pop
    · simp only [hhead]
      exact Window.pop h.hashes

/-- The scan from a position inside the window sees the pending transactions after it. -/
theorem PoolRep.containsLoop_eq {pool : TxPool} {q : List Transaction} (h : PoolRep pool q)
    (txHash : Hash) :
    ∀ n j, j + n = q.length → ∀ current : UInt64, current.toNat = pool.head.toNat + j →
      containsLoop pool txHash current =
        (q.drop j).any (fun tx => tx.txHash = txHash) := by
  intro n
  induction n with
  | zero =>
    intro j hj current hcurrent
    have hend : ¬ current < pool.tail := by
      rw [UInt64.lt_iff_toNat_lt, h.counters.tail_eq]
      omega
    rw [containsLoop, if_neg hend, List.drop_eq_nil_of_le (by omega)]
    rfl
  | succ n ih =>
    intro j hj current hcurrent
    have hin : current < pool.tail := by
      rw [UInt64.lt_iff_toNat_lt, h.counters.tail_eq]
      omega
    have hlt : j < q.length := by omega
    have hnext : (current + 1).toNat = pool.head.toNat + (j + 1) := by
      have hword := pool.tail.toNat_lt
      have := h.counters.tail_eq
      rw [toNat_succ (by omega)]
      omega
    have hcell : pool.hashes (current % pool.capacity).toNat = q[j].txHash := by
      have hcell := h.hashes.cell j (by rw [List.length_map]; exact hlt)
      rw [UInt64.toNat_mod, hcurrent, hcell, List.getElem_map]
    rw [containsLoop, if_pos hin, hcell, List.drop_eq_getElem_cons hlt, List.any_cons,
      ih (j + 1) (by omega) _ hnext]
    by_cases heq : q[j].txHash = txHash
    · rw [if_pos heq, decide_eq_true heq, Bool.true_or]
    · rw [if_neg heq, decide_eq_false heq, Bool.false_or]

theorem PoolRep.contains_eq {pool : TxPool} {q : List Transaction} (h : PoolRep pool q)
    (txHash : Hash) :
    txPoolContains pool txHash = q.any (fun tx => tx.txHash = txHash) := by
  rw [txPoolContains, h.containsLoop_eq txHash q.length 0 (by omega) pool.head (by omega),
    List.drop_zero]

theorem PoolRep.peek_eq {pool : TxPool} {q : List Transaction} (h : PoolRep pool q) :
    txPoolPeek pool = q.head? := by
  rw [txPoolPeek]
  cases q with
  | nil => rw [if_pos (h.empty_iff.mpr rfl), List.head?_nil]
  | cons tx q =>
    rw [if_neg h.size_ne_zero, List.head?_cons, UInt64.toNat_mod, h.transactions.head]

/-! ## The simulation -/

/-- One call gives the same answer on both sides and keeps them related. -/
theorem poolStep_simulates {pool : TxPool} {q : List Transaction} (h : PoolRep pool q)
    (op : PoolOp) (hroom : pool.tail.toNat + additions [op] < 2 ^ 64) :
    (poolStep pool op).1 = (fifoStep pool.capacity.toNat q op).1 ∧
      PoolRep (poolStep pool op).2 (fifoStep pool.capacity.toNat q op).2 ∧
      (poolStep pool op).2.capacity = pool.capacity ∧
      (poolStep pool op).2.tail.toNat ≤ pool.tail.toNat + additions [op] := by
  cases op with
  | add tx =>
    simp only [poolStep, fifoStep, additions] at hroom ⊢
    by_cases hspace : q.length < pool.capacity.toNat
    · obtain ⟨hres, hrep⟩ := h.add hspace (by omega) tx
      rw [if_pos hspace]
      refine ⟨by rw [hres], hrep, ?_, ?_⟩
      · rw [txPoolAdd]
        split <;> rfl
      · have hlen := hrep.counters.tail_eq
        have hhead : (txPoolAdd pool tx).2.head = pool.head := by
          rw [txPoolAdd]
          split <;> rfl
        have := h.counters.tail_eq
        rw [hhead, List.length_append, List.length_singleton] at hlen
        omega
    · have hfull : txPoolAdd pool tx = (false, pool) := by
        rw [txPoolAdd, if_pos (h.counters.full_iff.mpr (by omega))]
      rw [if_neg hspace, hfull]
      exact ⟨rfl, h, rfl, Nat.le_add_right _ _⟩
  | pop =>
    simp only [poolStep, fifoStep, additions] at hroom ⊢
    obtain ⟨hhead, hrep, hcap, htail⟩ := h.pop
    exact ⟨congrArg PoolAnswer.transaction hhead, hrep, hcap, by rw [htail]; omega⟩
  | peek =>
    exact ⟨congrArg PoolAnswer.transaction h.peek_eq, h, rfl, Nat.le_add_right _ _⟩
  | contains txHash =>
    exact ⟨congrArg PoolAnswer.found (h.contains_eq txHash), h, rfl, Nat.le_add_right _ _⟩

theorem additions_cons (op : PoolOp) (ops : List PoolOp) :
    additions (op :: ops) = additions [op] + additions ops := by
  cases op <;> simp only [additions] <;> omega

/-- From related states both sides answer every sequence of calls alike. -/
theorem poolAnswers_eq {pool : TxPool} {q : List Transaction} (h : PoolRep pool q)
    (ops : List PoolOp) (hroom : pool.tail.toNat + additions ops < 2 ^ 64) :
    poolAnswers pool ops = fifoAnswers pool.capacity.toNat q ops := by
  induction ops generalizing pool q with
  | nil => rfl
  | cons op ops ih =>
    rw [additions_cons] at hroom
    obtain ⟨hanswer, hrep, hcap, htail⟩ := poolStep_simulates h op (by omega)
    rw [poolAnswers, fifoAnswers, hanswer, ih hrep (by omega), hcap]

/-- The pool answers every sequence of calls with fewer than `2^64` additions as the
bounded queue does. -/
theorem txPool_refines_fifo (capacity : UInt64) (hcap : 0 < capacity) (ops : List PoolOp)
    (hadds : additions ops < 2 ^ 64) :
    poolAnswers (txPoolCreate capacity) ops = fifoAnswers capacity.toNat [] ops :=
  poolAnswers_eq (poolRep_create hcap) ops (by simpa [txPoolCreate] using hadds)

/-- A one-slot pool refuses the second addition, and is reused after a pop. -/
theorem txPool_refines_fifo_one :
    poolAnswers (txPoolCreate 1)
        [.add Transaction.zero, .add Transaction.zero, .pop, .add Transaction.zero,
          .contains Hash.zero] =
      fifoAnswers 1 []
        [.add Transaction.zero, .add Transaction.zero, .pop, .add Transaction.zero,
          .contains Hash.zero] :=
  txPool_refines_fifo 1 (by decide) _ (by decide)

end Blackstone.TokenNode
