import Blackstone.Balance.FiniteMap
import Blackstone.TokenNode.Types

/-!
# The balance cache of the token node

`balance_cache.c`: the shared table with 32-byte addresses and the polynomial hash
`hash_address`. `balanceCache_refines_iff` settles when the cache is a finite map, and
`balanceCache_not_refines` gives a run that goes wrong: with more than `2^32` entries
the 32-bit slot index never reaches the entries from `2^32` on, so the update of one key
too many is dropped.
-/

namespace Blackstone.TokenNode

open Balance

/-- `hash_address`: `h = h * 31 + byte` over the address, then over the token id. -/
def hashAddress (addr : Address) (tokenId : UInt32) : UInt32 :=
  addr.bytes.toList.foldl (fun h b => h * 31 + b.toUInt32) 0 * 31 + tokenId

/-- `balance_cache_t`. -/
abbrev BalanceCache := Balance.BalanceCache Address

/-- `balance_cache_create`, when both allocations succeed. -/
def balanceCacheCreate (capacity : Nat) : BalanceCache := cacheCreate Address.zero capacity

/-- `balance_cache_update`. -/
def balanceCacheUpdate (cache : BalanceCache) (addr : Address) (tokenId : UInt32)
    (delta : UInt64) : BalanceCache :=
  cacheUpdate hashAddress cache addr tokenId delta

/-- `balance_cache_get`. -/
def balanceCacheGet (cache : BalanceCache) (addr : Address) (tokenId : UInt32) : UInt64 :=
  cacheGet hashAddress cache addr tokenId

/-! ## The cache as a finite map -/

/-- The cache after a call of its interface. -/
def balanceCacheStep (cache : BalanceCache) : CacheOp Address → BalanceCache
  | .update addr tokenId delta => balanceCacheUpdate cache addr tokenId delta
  | .get _ _ => cache

/-- The cache after a sequence of calls on a new cache. -/
def balanceCacheRun (capacity : Nat) (ops : List (CacheOp Address)) : BalanceCache :=
  ops.foldl balanceCacheStep (balanceCacheCreate capacity)

/-- After every prefix of the calls a lookup returns the sum of the deltas updated for its
key, `count` is the number of distinct updated keys, and both loops end within `capacity`
rounds. -/
def BalanceCacheRefines (capacity : Nat) (ops : List (CacheOp Address)) : Prop :=
  ∀ pre, pre <+: ops →
    (∀ addr tokenId, balanceCacheGet (balanceCacheRun capacity pre) addr tokenId =
      deltaSum pre (addr, tokenId)) ∧
    (balanceCacheRun capacity pre).count = (touched pre).card ∧
    ∀ k, (updateLoop hashAddress (balanceCacheRun capacity pre) k capacity).isSome ∧
      (getLoop hashAddress (balanceCacheRun capacity pre) k capacity).isSome

theorem balanceCacheRun_eq (capacity : Nat) (ops : List (CacheOp Address)) :
    balanceCacheRun capacity ops =
      runCache hashAddress (cacheCreate Address.zero capacity) ops := by
  unfold balanceCacheRun runCache
  congr 1
  funext cache op
  cases op <;> rfl

/-- The cache is the finite map of its calls exactly when they update at most
`min capacity 2^32` distinct keys. -/
theorem balanceCache_refines_iff (capacity : Nat) (hcap : 0 < capacity)
    (ops : List (CacheOp Address)) :
    BalanceCacheRefines capacity ops ↔ (touched ops).card ≤ min capacity (2 ^ 32) := by
  unfold BalanceCacheRefines
  simp only [balanceCacheRun_eq]
  exact refinesMap_iff Address.zero hcap ops

/-- The keys of the second and the third update collide in the two-entry table. -/
theorem balanceCache_refines_two :
    BalanceCacheRefines 2
      [.update Address.zero 1 5, .update Address.zero 3 7, .update Address.zero 1 2] := by
  rw [balanceCache_refines_iff 2 (by decide)]
  decide +kernel

/-! ## One key too many -/

/-- The zero address with the token ids below `n`, after one more address. -/
def manyKeys (n : Nat) : List (Balance.Key Address) :=
  (⟨Vector.replicate 32 1⟩, 0) ::
    (List.range n).map (fun i => (Address.zero, UInt32.ofNat i))

theorem manyKeys_nodup {n : Nat} (hn : n ≤ 2 ^ 32) : (manyKeys n).Nodup := by
  refine List.nodup_cons.mpr ⟨?_, ?_⟩
  · intro hmem
    obtain ⟨i, _, heq⟩ := List.mem_map.mp hmem
    have haddr : Address.zero = ⟨Vector.replicate 32 1⟩ := congrArg Prod.fst heq
    exact absurd haddr (by decide)
  · refine List.Nodup.map_on ?_ List.nodup_range
    intro i hi j hj heq
    have hi' := List.mem_range.mp hi
    have hj' := List.mem_range.mp hj
    have htoken : UInt32.ofNat i = UInt32.ofNat j := congrArg Prod.snd heq
    have hnat := congrArg UInt32.toNat htoken
    rwa [UInt32.toNat_ofNat', UInt32.toNat_ofNat', Nat.mod_eq_of_lt (by omega),
      Nat.mod_eq_of_lt (by omega)] at hnat

/-- `1` is updated for each of the given keys. -/
def updateEach (ks : List (Balance.Key Address)) : List (CacheOp Address) :=
  ks.map (fun k => .update k.1 k.2 1)

theorem touched_updateEach (ks : List (Balance.Key Address)) :
    touched (updateEach ks) = ks.toFinset := by
  induction ks using List.reverseRecOn with
  | nil => rfl
  | append_singleton ks k ih =>
    have hsplit : updateEach (ks ++ [k]) = updateEach ks ++ [.update k.1 k.2 1] := by
      simp only [updateEach, List.map_append, List.map_cons, List.map_nil]
    rw [hsplit, touched_concat, ih, List.toFinset_append]
    rfl

theorem card_touched_manyKeys {n : Nat} (hn : n ≤ 2 ^ 32) :
    (touched (updateEach (manyKeys n))).card = n + 1 := by
  rw [touched_updateEach, List.toFinset_card_of_nodup (manyKeys_nodup hn), manyKeys,
    List.length_cons, List.length_map, List.length_range]

/-- With `2^32 + 1` entries and as many distinct keys, the last update is dropped. -/
theorem balanceCache_not_refines :
    (touched (updateEach (manyKeys (2 ^ 32)))).card ≤ 2 ^ 32 + 1 ∧
      ¬ BalanceCacheRefines (2 ^ 32 + 1) (updateEach (manyKeys (2 ^ 32))) := by
  have hcard := card_touched_manyKeys (Nat.le_refl (2 ^ 32))
  refine ⟨Nat.le_of_eq hcard, fun h => ?_⟩
  unfold BalanceCacheRefines at h
  simp only [balanceCacheRun_eq] at h
  have hfit := (refinesMap_iff Address.zero (Nat.succ_pos _) _).mp h
  rw [hcard] at hfit
  exact absurd (hfit.trans (Nat.min_le_right _ _)) (Nat.not_succ_le_self _)

end Blackstone.TokenNode
