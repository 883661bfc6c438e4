import Blackstone.Engine.Types
import Blackstone.Library.RingBuffer

/-!
# The transaction pool of the engine

`transaction_pool_create`, `transaction_pool_add` and `transaction_pool_pop`. The memory of
the pool is not cleared when it is allocated. `PoolRep` says which queue a pool holds.
-/

namespace Blackstone.Engine

open RingBuffer

/-- `transaction_pool_t`, without its lock, its event and its two statistics. -/
structure TxPool where
  pool : Nat → Transaction
  head : UInt64
  tail : UInt64
  size : UInt64
  capacity : UInt64

/-- `transaction_pool_create`: `memory` is what the allocated memory holds. -/
def transactionPoolCreate (memory : Nat → Transaction) (capacity : UInt64) : TxPool where
  pool := memory
  head := 0
  tail := 0
  size := 0
  capacity := capacity

def transactionPoolAdd (pool : TxPool) (tx : Transaction) : Bool × TxPool :=
  if pool.size ≥ pool.capacity then (false, pool)
  else
    (true, { pool with
      pool := Function.update pool.pool (pool.tail % pool.capacity).toNat tx
      tail := pool.tail + 1
      size := pool.size + 1 })

/-- `transaction_pool_pop`, when the allocation of the copy succeeds. -/
def transactionPoolPop (pool : TxPool) : Option Transaction × TxPool :=
  if pool.size = 0 then (none, pool)
  else
    (some (pool.pool (pool.head % pool.capacity).toNat),
      { pool with head := pool.head + 1, size := pool.size - 1 })

/-- The pool holds the queue `q`. -/
structure PoolRep (pool : TxPool) (q : List Transaction) : Prop where
  counters : Counters pool.capacity pool.head pool.tail pool.size q.length
  window : Window pool.pool pool.capacity.toNat pool.head.toNat q

theorem poolRep_create (memory : Nat → Transaction) {capacity : UInt64} (hcap : 0 < capacity) :
    PoolRep (transactionPoolCreate memory capacity) [] where
  counters := ⟨UInt64.lt_iff_toNat_lt.mp hcap, rfl, rfl, Nat.zero_le _⟩
  window := Window.empty _ _ _

/-- A refused addition leaves the pool alone. -/
theorem transactionPoolAdd_refused {pool : TxPool} {tx : Transaction}
    (h : (transactionPoolAdd pool tx).1 = false) : (transactionPoolAdd pool tx).2 = pool := by
  unfold transactionPoolAdd at h ⊢
  split at h
  · rename_i hfull
    rw [if_pos hfull]
  · cases h

/-- An accepted addition appends to the queue. -/
theorem PoolRep.add {pool : TxPool} {q : List Transaction} (h : PoolRep pool q)
    (hroom : pool.tail.toNat + 1 < 2 ^ 64) {tx : Transaction}
    (haccepted : (transactionPoolAdd pool tx).1 = true) :
    PoolRep (transactionPoolAdd pool tx).2 (q ++ [tx]) ∧
      (transactionPoolAdd pool tx).2.tail.toNat = pool.tail.toNat + 1 := by
  have hopen : ¬ pool.size ≥ pool.capacity := by
    intro hfull
    rw [transactionPoolAdd, if_pos hfull] at haccepted
    cases haccepted
  have hspace : q.length < pool.capacity.toNat := by
    rw [h.counters.full_iff] at hopen
    omega
  have hidx := h.counters.tail_index
  rw [transactionPoolAdd, if_neg hopen]
  refine ⟨⟨?_, ?_⟩, toNat_succ hroom⟩
  · rw [List.length_append, List.length_singleton]
    exact h.counters.push hspace hroom
  · simp only [hidx]
    exact h.window.push hspace tx

/-- A pop takes the oldest transaction, if there is one. -/
theorem PoolRep.pop {pool : TxPool} {q : List Transaction} (h : PoolRep pool q) :
    (transactionPoolPop pool).1 = q.head? ∧ PoolRep (transactionPoolPop pool).2 q.tail ∧
      (transactionPoolPop pool).2.tail = pool.tail := by
  unfold transactionPoolPop
  cases q with
  | nil =>
    rw [if_pos (h.counters.empty_iff.mpr rfl)]
    exact ⟨rfl, h, rfl⟩
  | cons tx q =>
    have hsome : ¬ pool.size = 0 := by
      rw [h.counters.empty_iff]
      exact Nat.succ_ne_zero _
    have hhead := h.counters.toNat_head_succ
    rw [if_neg hsome]
    refine ⟨?_, ⟨h.counters.pop, ?_⟩, rfl⟩
    · simp only [UInt64.toNat_mod, h.window.head, List.head?_cons]
    · simp only [hhead]
      exact h.window.pop

end Blackstone.Engine
