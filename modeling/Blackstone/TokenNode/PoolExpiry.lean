import Blackstone.Library.Retention
import Blackstone.Library.Runs
import Blackstone.TokenNode.TxPool

/-!
# Expiry in the transaction pool

`tx_pool_cleanup` of `tx_pool.c` walks over the positions from the old head to the tail and
moves the head by one for every transaction it finds too old. What is pending is what the
following pops return (`pendingTxs`, `pop_pending`). On an unwrapped pool the call therefore
drops as many pending transactions from the front as are too old, wherever those stand
(`Balanced.pending_cleanup`); on a pool whose tail has wrapped round it does nothing.
`txPoolCleanup_filters_iff` says exactly when this removes the expired ones and no others.
-/

namespace Blackstone.TokenNode

open RingBuffer Retention Runs

/-! ## The call -/

/-- The transaction at a position of the ring. -/
def TxPool.slot (pool : TxPool) (position : UInt64) : Transaction :=
  pool.transactions (position % pool.capacity).toNat

/-- The body of the loop of `tx_pool_cleanup` at position `current`. -/
def cleanupStep (pool : TxPool) (now current : UInt64) : TxPool :=
  if now - (pool.slot current).timestamp > 3600 then
    { pool with head := pool.head + 1, size := pool.size - 1 }
  else pool

theorem cleanupStep_tail (pool : TxPool) (now current : UInt64) :
    (cleanupStep pool now current).tail = pool.tail := by
  unfold cleanupStep
  split <;> rfl

theorem toNat_succ_of_lt {current bound : UInt64} (h : current < bound) :
    (current + 1).toNat = current.toNat + 1 := by
  have hlt := UInt64.lt_iff_toNat_lt.mp h
  have hword := bound.toNat_lt
  exact toNat_succ (by omega)

/-- The loop of `tx_pool_cleanup`, from position `current` on. -/
def cleanupLoop (pool : TxPool) (now current : UInt64) : TxPool :=
  if current < pool.tail then cleanupLoop (cleanupStep pool now current) now (current + 1)
  else pool
termination_by pool.tail.toNat - current.toNat
decreasing_by
  rename_i hlt
  have hnext := toNat_succ_of_lt hlt
  have hlt' := UInt64.lt_iff_toNat_lt.mp hlt
  rw [cleanupStep_tail]
  omega

/-- `tx_pool_cleanup`, where `now` is the value of `time(NULL)`. -/
def txPoolCleanup (pool : TxPool) (now : UInt64) : TxPool := cleanupLoop pool now pool.head

/-- A call that changes the pool. -/
inductive PoolCall where
  | op (call : PoolOp)
  | cleanup (now : UInt64)

/-- The pool after a call. -/
def poolCall (pool : TxPool) : PoolCall → TxPool
  | .op call => (poolStep pool call).2
  | .cleanup now => txPoolCleanup pool now

/-! ## What is pending -/

/-- The transactions at `n` consecutive positions. -/
def TxPool.slots (pool : TxPool) (position : UInt64) : Nat → List Transaction
  | 0 => []
  | n + 1 => pool.slot position :: pool.slots (position + 1) n

/-- The transactions in the pool, in the order in which pops return them. -/
def pendingTxs (pool : TxPool) : List Transaction := pool.slots pool.head pool.size.toNat

/-- Positions are read through the cells and the capacity only. -/
theorem slots_congr {pool pool' : TxPool} (hcells : pool'.transactions = pool.transactions)
    (hcap : pool'.capacity = pool.capacity) (position : UInt64) (n : Nat) :
    pool'.slots position n = pool.slots position n := by
  induction n generalizing position with
  | zero => rfl
  | succ n ih => rw [TxPool.slots, TxPool.slots, TxPool.slot, TxPool.slot, hcells, hcap, ih]

/-- A pop returns the first pending transaction and leaves the others. -/
theorem pop_pending (pool : TxPool) :
    (txPoolPop pool).1 = (pendingTxs pool).head? ∧
      pendingTxs (txPoolPop pool).2 = (pendingTxs pool).tail := by
  unfold pendingTxs
  by_cases hsize : pool.size = 0
  · rw [txPoolPop, if_pos hsize, hsize]
    exact ⟨rfl, rfl⟩
  · have hpos : 0 < pool.size.toNat :=
      Nat.pos_of_ne_zero (fun hzero => hsize (UInt64.toNat_inj.mp hzero))
    have hnext : pool.size.toNat = (pool.size - 1).toNat + 1 := by
      rw [toNat_pred hpos]
      omega
    rw [txPoolPop, if_neg hsize, hnext]
    refine ⟨rfl, ?_⟩
    apply slots_congr
    · rfl
    · rfl

theorem length_slots (pool : TxPool) (position : UInt64) (n : Nat) :
    (pool.slots position n).length = n := by
  induction n generalizing position with
  | zero => rfl
  | succ n ih => rw [TxPool.slots, List.length_cons, ih]

theorem drop_slots (pool : TxPool) (position : UInt64) (n k : Nat) :
    (pool.slots position n).drop k = pool.slots (position + UInt64.ofNat k) (n - k) := by
  induction k generalizing position n with
  | zero => simp
  | succ k ih =>
    cases n with
    | zero => simp [TxPool.slots]
    | succ n =>
      rw [TxPool.slots, List.drop_succ_cons, ih, Nat.add_sub_add_right, UInt64.ofNat_add,
        UInt64.add_comm (UInt64.ofNat k), ← UInt64.add_assoc]
      rfl

/-- On a pool that holds a queue, the pending transactions are that queue. -/
theorem PoolRep.pending {pool : TxPool} {q : List Transaction} (h : PoolRep pool q) :
    pendingTxs pool = q := by
  induction q generalizing pool with
  | nil =>
    rw [pendingTxs, h.empty_iff.mpr rfl]
    rfl
  | cons tx q ih =>
    obtain ⟨hhead, hrest⟩ := pop_pending pool
    obtain ⟨hfirst, hrep, -, -⟩ := h.pop
    rw [ih hrep] at hrest
    rw [hfirst] at hhead
    cases hpending : pendingTxs pool with
    | nil =>
      rw [hpending] at hhead
      cases hhead
    | cons tx' q' =>
      rw [hpending] at hhead hrest
      cases hhead
      rw [hrest, List.tail_cons]

/-! ## What the loop does -/

/-- The test of `tx_pool_cleanup`: unsigned subtraction of the timestamps. -/
def foundOld (now : UInt64) (tx : Transaction) : Bool := decide (now - tx.timestamp > 3600)

/-- The age in seconds, over the integers, exceeds an hour. -/
def expired (now : UInt64) (tx : Transaction) : Bool :=
  decide (3600 < (now.toNat : ℤ) - tx.timestamp.toNat)

/-- The head moves over `k` transactions. -/
def TxPool.skip (pool : TxPool) (k : Nat) : TxPool :=
  { pool with head := pool.head + UInt64.ofNat k, size := pool.size - UInt64.ofNat k }

theorem cleanupStep_eq (pool : TxPool) (now current : UInt64) :
    cleanupStep pool now current =
      pool.skip (if foundOld now (pool.slot current) then 1 else 0) := by
  by_cases hold : now - (pool.slot current).timestamp > 3600
  · rw [cleanupStep, if_pos hold, foundOld, decide_eq_true hold, if_pos rfl]
    rfl
  · rw [cleanupStep, if_neg hold, foundOld, decide_eq_false hold, if_neg Bool.false_ne_true]
    rw [TxPool.skip]
    simp

theorem skip_skip (pool : TxPool) (j k : Nat) : (pool.skip j).skip k = pool.skip (j + k) := by
  have hhead : pool.head + UInt64.ofNat j + UInt64.ofNat k = pool.head + UInt64.ofNat (j + k) := by
    rw [UInt64.ofNat_add, UInt64.add_assoc]
  have hsize : pool.size - UInt64.ofNat j - UInt64.ofNat k = pool.size - UInt64.ofNat (j + k) := by
    rw [UInt64.ofNat_add]
    grind
  simp only [TxPool.skip, hhead, hsize]

theorem slots_skip (pool : TxPool) (k : Nat) (position : UInt64) (n : Nat) :
    (pool.skip k).slots position n = pool.slots position n := by
  apply slots_congr
  · rfl
  · rfl

/-- The loop skips as many transactions as it finds old on its way to the tail. -/
theorem cleanupLoop_eq (now : UInt64) (n : Nat) (pool : TxPool) (current : UInt64)
    (hn : current.toNat + n = pool.tail.toNat) :
    cleanupLoop pool now current =
      pool.skip ((pool.slots current n).countP (foundOld now)) := by
  induction n generalizing pool current with
  | zero =>
    have hend : ¬ current < pool.tail := by
      rw [UInt64.lt_iff_toNat_lt]
      omega
    rw [cleanupLoop, if_neg hend]
    simp [TxPool.slots, TxPool.skip]
  | succ n ih =>
    have hin : current < pool.tail := by
      rw [UInt64.lt_iff_toNat_lt]
      omega
    have hnext := toNat_succ_of_lt hin
    rw [cleanupLoop, if_pos hin, ih _ _ (by rw [cleanupStep_tail]; omega), cleanupStep_eq,
      slots_skip, skip_skip, TxPool.slots, List.countP_cons, Nat.add_comm]

/-! ## Reachable pools -/

/-- The counters of a reachable pool: the tail is the head moved by the size. -/
def Balanced (pool : TxPool) : Prop := pool.tail = pool.head + pool.size

theorem balanced_create (capacity : UInt64) : Balanced (txPoolCreate capacity) := rfl

theorem Balanced.skip {pool : TxPool} (h : Balanced pool) (k : Nat) : Balanced (pool.skip k) := by
  show pool.tail = pool.head + UInt64.ofNat k + (pool.size - UInt64.ofNat k)
  rw [h]
  grind

theorem Balanced.size_eq {pool : TxPool} (h : Balanced pool) (hle : pool.head ≤ pool.tail) :
    pool.head.toNat + pool.size.toNat = pool.tail.toNat := by
  have hsize : pool.size = pool.tail - pool.head := by
    rw [h]
    grind
  have := UInt64.le_iff_toNat_le.mp hle
  rw [hsize, UInt64.toNat_sub_of_le _ _ hle]
  omega

/-- Cleanup of an unwrapped pool: as many transactions are skipped as are found old. -/
theorem Balanced.txPoolCleanup_eq {pool : TxPool} (h : Balanced pool)
    (hle : pool.head ≤ pool.tail) (now : UInt64) :
    txPoolCleanup pool now = pool.skip ((pendingTxs pool).countP (foundOld now)) :=
  cleanupLoop_eq now _ _ _ (h.size_eq hle)

/-- Cleanup of a wrapped pool does nothing. -/
theorem txPoolCleanup_of_wrapped {pool : TxPool} (hlt : pool.tail < pool.head) (now : UInt64) :
    txPoolCleanup pool now = pool := by
  have hend : ¬ pool.head < pool.tail := by
    rw [UInt64.lt_iff_toNat_lt]
    have := UInt64.lt_iff_toNat_lt.mp hlt
    omega
  rw [txPoolCleanup, cleanupLoop, if_neg hend]

theorem Balanced.cleanup {pool : TxPool} (h : Balanced pool) (now : UInt64) :
    Balanced (txPoolCleanup pool now) := by
  by_cases hle : pool.head ≤ pool.tail
  · rw [h.txPoolCleanup_eq hle]
    exact h.skip _
  · rw [txPoolCleanup_of_wrapped (UInt64.not_le.mp hle)]
    exact h

theorem Balanced.poolCall {pool : TxPool} (h : Balanced pool) (call : PoolCall) :
    Balanced (poolCall pool call) := by
  cases call with
  | cleanup now => exact h.cleanup now
  | op op =>
    cases op with
    | add tx =>
      show Balanced (txPoolAdd pool tx).2
      rw [txPoolAdd]
      split
      · exact h
      · show pool.tail + 1 = pool.head + (pool.size + 1)
        rw [h, UInt64.add_assoc]
    | pop =>
      show Balanced (txPoolPop pool).2
      rw [txPoolPop]
      split
      · exact h
      · show pool.tail = pool.head + 1 + (pool.size - 1)
        rw [h]
        grind
    | peek => exact h
    | contains txHash => exact h

theorem balanced_run (capacity : UInt64) (calls : List PoolCall) :
    Balanced (run poolCall (txPoolCreate capacity) calls) :=
  run_invariant (fun _ call h _ => h.poolCall call) (balanced_create capacity)
    (along_true _ calls)

/-! ## What survives -/

/-- The pending transactions after the cleanup of an unwrapped pool. -/
theorem Balanced.pending_cleanup {pool : TxPool} (h : Balanced pool)
    (hle : pool.head ≤ pool.tail) (now : UInt64) :
    pendingTxs (txPoolCleanup pool now) =
      (pendingTxs pool).drop ((pendingTxs pool).countP (foundOld now)) := by
  have hcount : (pendingTxs pool).countP (foundOld now) ≤ pool.size.toNat := by
    have := List.countP_le_length (p := foundOld now) (l := pendingTxs pool)
    rwa [pendingTxs, length_slots] at this
  have hword := pool.size.toNat_lt
  have hk : (UInt64.ofNat ((pendingTxs pool).countP (foundOld now))).toNat =
      (pendingTxs pool).countP (foundOld now) :=
    UInt64.toNat_ofNat_of_lt' (lt_of_le_of_lt hcount hword)
  rw [h.txPoolCleanup_eq hle]
  generalize (pendingTxs pool).countP (foundOld now) = k at hcount hk
  have hsize : (pool.size - UInt64.ofNat k).toNat = pool.size.toNat - k := by
    rw [UInt64.toNat_sub_of_le _ _ (by rw [UInt64.le_iff_toNat_le, hk]; exact hcount), hk]
  rw [pendingTxs, pendingTxs, drop_slots, slots_skip]
  show pool.slots _ (pool.size - UInt64.ofNat k).toNat = _
  rw [hsize]
  rfl

/-- Unsigned subtraction finds every expired transaction, and besides them those dated
further ahead than an hour before the range of the clock ends. -/
theorem foundOld_iff (now : UInt64) (tx : Transaction) :
    foundOld now tx = true ↔
      expired now tx = true ∨
        now < tx.timestamp ∧ tx.timestamp.toNat + 3600 < now.toNat + 2 ^ 64 := by
  have hnow := now.toNat_lt
  have htime := tx.timestamp.toNat_lt
  have hhour : (3600 : UInt64).toNat = 3600 := rfl
  rw [foundOld, expired, decide_eq_true_iff, decide_eq_true_iff, gt_iff_lt,
    UInt64.lt_iff_toNat_lt, UInt64.lt_iff_toNat_lt, UInt64.toNat_sub, hhour]
  omega

/-- Cleanup at the clock value `now` is exact on the pool: on an unwrapped pool no pending
transaction is dated ahead, unless by nearly the whole range of the clock, and the expired
ones stand first; on a wrapped pool nothing is expired. -/
def CleansExactly (pool : TxPool) (now : UInt64) : Prop :=
  if pool.head ≤ pool.tail then
    (∀ tx ∈ pendingTxs pool, now < tx.timestamp →
      now.toNat + 2 ^ 64 ≤ tx.timestamp.toNat + 3600) ∧
    InFront (expired now) (pendingTxs pool)
  else ∀ tx ∈ pendingTxs pool, expired now tx = false

theorem not_expired_of_ahead {now : UInt64} {tx : Transaction} (h : now < tx.timestamp) :
    expired now tx = false := by
  have := UInt64.lt_iff_toNat_lt.mp h
  rw [expired, decide_eq_false_iff_not]
  omega

theorem Balanced.cleanup_filters_iff {pool : TxPool} (h : Balanced pool) (now : UInt64) :
    pendingTxs (txPoolCleanup pool now) =
        (pendingTxs pool).filter (fun tx => !expired now tx) ↔
      CleansExactly pool now := by
  unfold CleansExactly
  by_cases hle : pool.head ≤ pool.tail
  · rw [if_pos hle, h.pending_cleanup hle, drop_countP_eq_filter_iff]
    · apply and_congr_left
      intro _
      apply forall₂_congr
      intro tx _
      rw [foundOld_iff]
      constructor
      · intro hfound hahead
        by_contra hnear
        have hexpired := hfound (Or.inr ⟨hahead, by omega⟩)
        rw [not_expired_of_ahead hahead] at hexpired
        exact Bool.false_ne_true hexpired
      · intro hfar hfound
        rcases hfound with hexpired | ⟨hahead, hnear⟩
        · exact hexpired
        · have := hfar hahead
          omega
    · intro tx _ hexpired
      exact (foundOld_iff now tx).mpr (Or.inl hexpired)
  · rw [if_neg hle, txPoolCleanup_of_wrapped (UInt64.not_le.mp hle), eq_comm,
      List.filter_eq_self]
    simp

/-- On the pool reached by any sequence of calls, cleanup keeps the transactions that are
not expired, and only those, exactly when `CleansExactly` holds. -/
theorem txPoolCleanup_filters_iff (capacity : UInt64) (calls : List PoolCall) (now : UInt64) :
    pendingTxs (txPoolCleanup (run poolCall (txPoolCreate capacity) calls) now) =
        (pendingTxs (run poolCall (txPoolCreate capacity) calls)).filter
          (fun tx => !expired now tx) ↔
      CleansExactly (run poolCall (txPoolCreate capacity) calls) now :=
  (balanced_run capacity calls).cleanup_filters_iff now

/-- Two additions to a pool of two slots: a transaction of time 10000, then one of time 0. -/
def freshFirst : TxPool :=
  run poolCall (txPoolCreate 2)
    [.op (.add { Transaction.zero with timestamp := 10000 }), .op (.add Transaction.zero)]

/-- At time 10000 the fresh one is dropped in place of the expired one. -/
theorem txPoolCleanup_drops_fresh :
    pendingTxs (txPoolCleanup freshFirst 10000) ≠
      (pendingTxs freshFirst).filter (fun tx => !expired 10000 tx) := by
  have hbalanced : Balanced freshFirst := balanced_run _ _
  intro h
  rw [hbalanced.pending_cleanup (by decide)] at h
  exact absurd (congrArg (List.map Transaction.timestamp) h) (by decide)

end Blackstone.TokenNode
