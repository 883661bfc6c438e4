import Blackstone.Balance.Cache
import Mathlib.Data.UInt

/-!
# The balance cache as a finite map

A run applies updates and lookups to a freshly created cache. Its specification is the
finite map that assigns to every key the sum, modulo `2^64`, of the deltas updated for it.

`refinesMap_iff`: a run from `cacheCreate` agrees with the finite map after every prefix,
with the right entry count and both loops ending in time, if and only if it updates at
most `reach capacity` distinct keys.
-/

namespace Blackstone.Balance

variable {A : Type}

/-- A call of the cache interface. -/
inductive CacheOp (A : Type) where
  | update (addr : A) (tokenId : UInt32) (delta : UInt64)
  | get (addr : A) (tokenId : UInt32)

variable [DecidableEq A]

/-- The cache after one call. A lookup changes only the statistics. -/
def CacheOp.apply (hash : A → UInt32 → UInt32) (cache : BalanceCache A) :
    CacheOp A → BalanceCache A
  | .update a t delta => cacheUpdate hash cache a t delta
  | .get _ _ => cache

/-- The cache after a sequence of calls. -/
def runCache (hash : A → UInt32 → UInt32) (cache : BalanceCache A)
    (ops : List (CacheOp A)) : BalanceCache A :=
  ops.foldl (CacheOp.apply hash) cache

/-- The delta that a call adds to key `k`, if any. -/
def CacheOp.deltaFor (k : Key A) : CacheOp A → Option UInt64
  | .update a t delta => if (a, t) = k then some delta else none
  | .get _ _ => none

/-- The sum modulo `2^64` of the deltas updated for key `k`. -/
def deltaSum (ops : List (CacheOp A)) (k : Key A) : UInt64 :=
  (ops.filterMap (CacheOp.deltaFor k)).sum

/-- The key that a call updates, if any. -/
def CacheOp.updated : CacheOp A → Finset (Key A)
  | .update a t _ => {(a, t)}
  | .get _ _ => ∅

/-- The distinct keys that a sequence of calls updates. -/
def touched (ops : List (CacheOp A)) : Finset (Key A) :=
  ops.foldl (fun s op => s ∪ op.updated) ∅

/-- The run from a new cache agrees with the finite map after every prefix of `ops`. -/
def RefinesMap (hash : A → UInt32 → UInt32) (zero : A) (capacity : Nat)
    (ops : List (CacheOp A)) : Prop :=
  ∀ pre, pre <+: ops →
    (∀ a t, cacheGet hash (runCache hash (cacheCreate zero capacity) pre) a t =
      deltaSum pre (a, t)) ∧
    (runCache hash (cacheCreate zero capacity) pre).count = (touched pre).card ∧
    ∀ k, (updateLoop hash (runCache hash (cacheCreate zero capacity) pre) k capacity).isSome ∧
      (getLoop hash (runCache hash (cacheCreate zero capacity) pre) k capacity).isSome

/-! ## Sequences extended by one call -/

theorem runCache_concat (hash : A → UInt32 → UInt32) (cache : BalanceCache A)
    (ops : List (CacheOp A)) (op : CacheOp A) :
    runCache hash cache (ops ++ [op]) = op.apply hash (runCache hash cache ops) := by
  simp only [runCache, List.foldl_append, List.foldl_cons, List.foldl_nil]

theorem touched_concat (ops : List (CacheOp A)) (op : CacheOp A) :
    touched (ops ++ [op]) = touched ops ∪ op.updated := by
  simp only [touched, List.foldl_append, List.foldl_cons, List.foldl_nil]

theorem deltaSum_concat (ops : List (CacheOp A)) (op : CacheOp A) (k : Key A) :
    deltaSum (ops ++ [op]) k = deltaSum ops k + (op.deltaFor k).getD 0 := by
  simp only [deltaSum, List.filterMap_append, List.sum_append]
  cases h : op.deltaFor k <;> simp [h]

theorem touched_subset_concat (ops : List (CacheOp A)) (op : CacheOp A) :
    touched ops ⊆ touched (ops ++ [op]) := by
  rw [touched_concat]
  exact Finset.subset_union_left

theorem touched_mono {pre ops : List (CacheOp A)} (h : pre <+: ops) :
    touched pre ⊆ touched ops := by
  obtain ⟨rest, rfl⟩ := h
  induction rest using List.reverseRecOn with
  | nil => rw [List.append_nil]
  | append_singleton rest op ih =>
    rw [← List.append_assoc]
    exact ih.trans (touched_subset_concat _ _)

/-! ## The run -/

variable {hash : A → UInt32 → UInt32}

@[simp] theorem runCache_capacity (hash : A → UInt32 → UInt32) (cache : BalanceCache A)
    (ops : List (CacheOp A)) : (runCache hash cache ops).capacity = cache.capacity := by
  induction ops using List.reverseRecOn with
  | nil => rfl
  | append_singleton ops op ih =>
    rw [runCache_concat]
    cases op with
    | update a t delta => rw [CacheOp.apply, cacheUpdate_capacity, ih]
    | get a t => exact ih

/-- Every run keeps the invariant, whatever keys it uses. -/
theorem CacheOk.run {cache : BalanceCache A} (h : CacheOk hash cache)
    (ops : List (CacheOp A)) : CacheOk hash (runCache hash cache ops) := by
  induction ops using List.reverseRecOn with
  | nil => exact h
  | append_singleton ops op ih =>
    rw [runCache_concat]
    cases op with
    | update a t delta => exact ih.update a t delta
    | get a t => exact ih

/-- As long as the updated keys fit, the cache stores exactly them, with their sums. -/
theorem run_represents (zero : A) {capacity : Nat} (hcap : 0 < capacity)
    (ops : List (CacheOp A)) (hfit : (touched ops).card ≤ reach capacity) :
    keys (runCache hash (cacheCreate zero capacity) ops) = touched ops ∧
      ∀ a t, cacheGet hash (runCache hash (cacheCreate zero capacity) ops) a t =
        deltaSum ops (a, t) := by
  have hnew := cacheOk_create hash zero hcap
  induction ops using List.reverseRecOn with
  | nil =>
    have hkeys : keys (cacheCreate zero capacity) = ∅ := keys_create zero capacity
    refine ⟨hkeys, fun a t => ?_⟩
    exact hnew.cacheGet_of_notMem (by rw [hkeys]; exact Finset.notMem_empty _)
  | append_singleton ops op ih =>
    obtain ⟨hkeys, hget⟩ :=
      ih ((Finset.card_le_card (touched_subset_concat ops op)).trans hfit)
    have hok := hnew.run ops
    rw [runCache_concat, touched_concat]
    cases op with
    | get a t =>
      refine ⟨by rw [CacheOp.updated, Finset.union_empty]; exact hkeys, fun a' t' => ?_⟩
      rw [deltaSum_concat]
      simpa only [CacheOp.apply, CacheOp.deltaFor, Option.getD_none, UInt64.add_zero]
        using hget a' t'
    | update a t delta =>
      have hroom : HasRoom (runCache hash (cacheCreate zero capacity) ops) (a, t) := by
        by_cases hmem : (a, t) ∈ touched ops
        · exact HasRoom.of_mem (hkeys ▸ hmem)
        · refine HasRoom.of_card ?_
          rw [touched_concat, CacheOp.updated, Finset.union_comm, ← Finset.insert_eq,
            Finset.card_insert_of_notMem hmem] at hfit
          rw [hkeys, runCache_capacity]
          exact hfit
      refine ⟨?_, fun a' t' => ?_⟩
      · rw [CacheOp.apply, hok.keys_update, if_pos hroom, hkeys, CacheOp.updated,
          Finset.union_comm, ← Finset.insert_eq]
      · rw [deltaSum_concat, CacheOp.apply, CacheOp.deltaFor]
        by_cases hkey : (a, t) = (a', t')
        · rw [if_pos hkey]
          obtain ⟨rfl, rfl⟩ := Prod.mk.inj hkey
          rw [hok.cacheGet_update_self hroom, hget, Option.getD_some]
        · rw [if_neg hkey, hok.cacheGet_update_of_ne (Ne.symm hkey), hget, Option.getD_none,
            UInt64.add_zero]

/-- A run agrees with the finite map exactly when its updated keys fit into the entries
that a 32-bit index reaches. -/
theorem refinesMap_iff (zero : A) {capacity : Nat} (hcap : 0 < capacity)
    (ops : List (CacheOp A)) :
    RefinesMap hash zero capacity ops ↔ (touched ops).card ≤ reach capacity := by
  have hok := fun pre => (cacheOk_create hash zero hcap).run pre
  constructor
  · intro h
    obtain ⟨_, hcount, _⟩ := h ops (List.prefix_refl ops)
    rw [← hcount, (hok ops).count_eq]
    have := keys_card_le (runCache hash (cacheCreate zero capacity) ops)
    rwa [runCache_capacity] at this
  · intro hfit pre hpre
    obtain ⟨hkeys, hget⟩ := run_represents zero hcap pre
      ((Finset.card_le_card (touched_mono hpre)).trans hfit)
    refine ⟨hget, by rw [(hok pre).count_eq, hkeys], fun k => ?_⟩
    obtain ⟨p, hp, _⟩ := (hok pre).updateLoop_spec k
    obtain ⟨r, hr, _⟩ := (hok pre).getLoop_spec k
    rw [runCache_capacity] at hp hr
    exact ⟨Option.isSome_of_mem hp, Option.isSome_of_mem hr⟩

end Blackstone.Balance
