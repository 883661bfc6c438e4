import Blackstone.Library.Loops
import Blackstone.Library.MerklePromotion
import Blackstone.TokenNode.Miner

/-!
# The Merkle root of the token node

`compute_merkle_root` hashes the pairs of a level into the beginning of the array that it
reads them from, and moves an odd last digest behind them. The loop ends, and what it leaves
in the first place is the root of the recursion that pairs neighbours and promotes an odd
last digest. Where the pair hash is injective on the pairs that are hashed, the root
determines the digests among lists of the same length.
-/

namespace Blackstone.TokenNode

open Loops Merkle Merkle.HashTree

/-- The digest of two digests behind each other. -/
def pairDigest (left right : Hash) : Hash :=
  hashCompute (left.bytes.toList ++ right.bytes.toList)

/-- One round of the loop over the levels, on the array and `level_size`. -/
def merkleRound (s : (ℕ → Hash) × ℕ) : (ℕ → Hash) × ℕ :=
  let levels := merklePairs s.1 s.2
  if s.2 % 2 = 1 then (Function.update levels (s.2 / 2) (levels (s.2 - 1)), s.2 / 2 + 1)
  else (levels, s.2 / 2)

/-- The array that the digests are copied to. -/
def copiedHashes (txHashes : List Hash) : ℕ → Hash := fun i => txHashes.getD i Hash.zero

/-- The loop over the levels, from the copied digests; `none` when it has not ended after as
many rounds as there are digests. -/
def merkleRounds (txHashes : List Hash) : Option ((ℕ → Hash) × ℕ) :=
  loop (fun s => decide (s.2 > 1)) (fun s => some (merkleRound s)) txHashes.length
    (copiedHashes txHashes, txHashes.length)

/-! ## The loop -/

theorem merklePairs_eq (levels : ℕ → Hash) (size : ℕ) :
    merklePairs levels size = combineInPlace pairDigest (size / 2) levels := rfl

theorem merkleRound_eq (levels : ℕ → Hash) (size : ℕ) :
    merkleRound (levels, size) = (nextInPlace pairDigest levels size, (size + 1) / 2) := by
  simp only [merkleRound, nextInPlace, merklePairs_eq]
  split
  · exact Prod.ext rfl (by show size / 2 + 1 = (size + 1) / 2; omega)
  · exact Prod.ext rfl (by show size / 2 = (size + 1) / 2; omega)

/-- The recursion that models the loop does one round at a time. -/
theorem merkleLoop_of_long {levels : ℕ → Hash} {size : ℕ} (hlong : size > 1) :
    merkleLoop levels size = merkleLoop (merkleRound (levels, size)).1
      (merkleRound (levels, size)).2 := by
  rw [merkleLoop, dif_pos hlong]
  simp only [merkleRound]
  split <;> rfl

/-- The loop leaves the top of the recursion. -/
theorem promotedTop_firstNodes {levels : ℕ → Hash} {size : ℕ} (hpos : 0 < size) :
    promotedTop pairDigest (firstNodes levels size) = some (merkleLoop levels size) := by
  induction size using Nat.strongRecOn generalizing levels with
  | ind size ih =>
    rw [promotedTop.eq_def]
    have hsize : (firstNodes levels size).length = size := by
      rw [firstNodes, List.length_map, List.length_range]
    rw [hsize]
    by_cases hlong : size > 1
    · rw [if_pos hlong, ← firstNodes_nextInPlace, merkleLoop_of_long hlong, merkleRound_eq]
      exact ih _ (by omega) (by omega)
    · obtain rfl : size = 1 := by omega
      rw [if_neg hlong, merkleLoop, dif_neg hlong]
      rfl

/-- The loop ends with one digest left. -/
theorem loop_merkleRound {fuel size : ℕ} {levels : ℕ → Hash} (hpos : 0 < size)
    (hfuel : size ≤ fuel) :
    ∃ result, loop (fun s => decide (s.2 > 1)) (fun s => some (merkleRound s)) fuel
        (levels, size) = some (result, 1) ∧ result 0 = merkleLoop levels size := by
  induction fuel generalizing size levels with
  | zero => omega
  | succ fuel ih =>
    rw [loop]
    by_cases hlong : size > 1
    · obtain ⟨result, hrun, htop⟩ :=
        @ih ((size + 1) / 2) (nextInPlace pairDigest levels size) (by omega) (by omega)
      refine ⟨result, ?_, ?_⟩
      · rw [if_pos (decide_eq_true hlong), Option.bind_some, merkleRound_eq, hrun]
      · rw [htop, merkleLoop_of_long hlong, merkleRound_eq]
    · obtain rfl : size = 1 := by omega
      refine ⟨levels, ?_, ?_⟩
      · rw [if_neg (by simp)]
      · rw [merkleLoop, dif_neg hlong]

/-! ## The root -/

theorem firstNodes_copiedHashes (txHashes : List Hash) :
    firstNodes (copiedHashes txHashes) txHashes.length = txHashes := by
  apply List.ext_getElem
  · rw [firstNodes, List.length_map, List.length_range]
  · intro i hi hlt
    rw [← Option.some_inj, ← List.getElem?_eq_getElem, firstNodes_getElem? _ hlt, copiedHashes,
      List.getD_eq_getElem _ _ hlt]

/-- The branches for no and for one digest agree with the loop. -/
theorem computeMerkleRoot_eq {txHashes : List Hash} (hne : txHashes ≠ []) :
    computeMerkleRoot txHashes = merkleLoop (copiedHashes txHashes) txHashes.length := by
  rcases txHashes with _ | ⟨txHash, _ | ⟨next, rest⟩⟩
  · exact absurd rfl hne
  · rw [merkleLoop, dif_neg (by simp)]
    rfl
  · rfl

theorem promotedTop_eq {txHashes : List Hash} (hne : txHashes ≠ []) :
    promotedTop pairDigest txHashes = some (computeMerkleRoot txHashes) := by
  have htop := @promotedTop_firstNodes (copiedHashes txHashes) _ (List.length_pos_iff.mpr hne)
  rwa [firstNodes_copiedHashes, ← computeMerkleRoot_eq hne] at htop

/-- For every non-empty list of digests the loop ends, and the root is the one of the
recursion. Different lists of the same length have different roots, where the pair hash is
injective on the pairs that are hashed for them. -/
theorem computeMerkleRoot_refines {txHashes : List Hash} (hne : txHashes ≠ []) :
    (∃ levels, merkleRounds txHashes = some (levels, 1) ∧
        levels 0 = computeMerkleRoot txHashes) ∧
      promotedTop pairDigest txHashes = some (computeMerkleRoot txHashes) ∧
      ∀ txHashes' : List Hash, txHashes.length = txHashes'.length → txHashes ≠ txHashes' →
        InjectiveOn pairDigest (promotedPairs pairDigest txHashes)
          (promotedPairs pairDigest txHashes') →
        computeMerkleRoot txHashes ≠ computeMerkleRoot txHashes' := by
  refine ⟨?_, promotedTop_eq hne, ?_⟩
  · rw [computeMerkleRoot_eq hne]
    exact loop_merkleRound (List.length_pos_iff.mpr hne) (Nat.le_refl _)
  · intro txHashes' hlength hdiffer hinj heq
    have hne' : txHashes' ≠ [] := by
      rintro rfl
      exact hne (List.length_eq_zero_iff.mp hlength)
    apply hdiffer
    apply eq_of_promotedTop_eq hlength hinj
    rw [promotedTop_eq hne, promotedTop_eq hne', heq]

/-- A digest with a single byte set. -/
def digestOf (b : UInt8) : Hash := ⟨Vector.ofFn fun i => if i.val = 0 then b else 0⟩

theorem promotedPairs_three (a b c : Hash) :
    promotedPairs pairDigest [a, b, c] = [(a, b), (pairDigest a b, c)] := by
  rw [promotedPairs, if_pos (by simp), promoteLevel, promoteLevel, promotedPairs,
    if_pos (by simp), promoteLevel, promoteLevel, promotedPairs, if_neg (by simp)]
  · rfl
  all_goals rintro x y rest ⟨⟩

/-- Three digests, of which the last is promoted, and three that differ in the last one. -/
theorem thirdDigest_changes_root :
    computeMerkleRoot [digestOf 1, digestOf 2, digestOf 3] ≠
      computeMerkleRoot [digestOf 1, digestOf 2, digestOf 4] := by
  refine (computeMerkleRoot_refines (List.cons_ne_nil _ _)).2.2 _ rfl (by decide) ?_
  rw [promotedPairs_three, promotedPairs_three]
  unfold InjectiveOn
  decide +kernel

end Blackstone.TokenNode
