import Mathlib.Algebra.Order.BigOperators.Group.List
import Blackstone.Bank.Sha1
import Blackstone.Library.Merkle

/-!
# Merkle proofs of the banking system

`merkle_tree.cpp`, with the hash function that it calls as a parameter. A level of odd
length is padded while hashing, but the proof of its last node skips the sibling, while
verification expects one for every level.

`merkleProof_verifies_iff`: over the hash functions, the proofs of a leaf verify exactly
when the leaf is `Paired`. For the hash function of the source this makes a paired leaf
verify, and `thirdLeaf_rejected` is the proof of an unpaired one that does not.
-/

namespace Blackstone.Bank

open Merkle

/-- `MerkleTree`. -/
structure MerkleTree where
  leaves : List Str
  tree : List (List Str)
  root : Str
  built : Bool

variable (hash : Str → Str)

/-- `MerkleTree::hashPair`. -/
def hashPair (left right : Str) : Str := hash (left ++ right)

/-- `MerkleTree::build`. -/
def MerkleTree.build (t : MerkleTree) : MerkleTree :=
  if t.leaves.isEmpty then { t with root := hash (ascii "empty"), built := true }
  else
    { t with
      tree := levels (hashPair hash) t.leaves.length t.leaves
      root := (topLevel (hashPair hash) t.leaves.length t.leaves)[0]?.getD (hash (ascii "empty"))
      built := true }

/-- The constructor from a list of leaf hashes. -/
def MerkleTree.ofLeaves (leafHashes : List Str) : MerkleTree :=
  MerkleTree.build hash { leaves := leafHashes, tree := [], root := [], built := false }

/-- `MerkleTree::getProof`. -/
def MerkleTree.getProof (t : MerkleTree) (leafIndex : Nat) : List Str :=
  if !t.built || leafIndex ≥ t.leaves.length then [] else pathOf t.tree leafIndex

/-- The static `MerkleTree::verifyProof`. -/
def verifyProof (leafHash : Str) (proof : List Str) (root : Str) (index : Nat) : Bool :=
  decide (climb (hashPair hash) leafHash index proof = root)

/-- `MerkleTree::verifyProof` of a tree. -/
def MerkleTree.verifyProof (t : MerkleTree) (leafHash : Str) (proof : List Str)
    (leafIndex : Nat) : Bool :=
  Bank.verifyProof hash leafHash proof t.root leafIndex

/-- `MerkleTree::computeMerkleRoot`. -/
def computeMerkleRoot (hashes : List Str) : Str :=
  if hashes.isEmpty then hash (ascii "empty")
  else (topLevel (hashPair hash) hashes.length hashes)[0]?.getD []

/-- `MerkleTree::computeProof`. -/
def computeProof (hashes : List Str) (targetIndex : Nat) : List Str :=
  if targetIndex ≥ hashes.length then []
  else path (hashPair hash) hashes.length hashes targetIndex

/-- Both proofs of leaf `i` verify: the one of the built tree and the static one. -/
def ProofsVerify (leaves : List Str) (i : Fin leaves.length) : Prop :=
  (MerkleTree.ofLeaves hash leaves).verifyProof hash leaves[i]
      ((MerkleTree.ofLeaves hash leaves).getProof i) i = true ∧
    verifyProof hash leaves[i] (computeProof hash leaves i) (computeMerkleRoot hash leaves) i = true

/-! ## Both proofs are the same -/

variable {hash} {leaves : List Str} (i : Fin leaves.length)

include i in
theorem leaves_ne_nil : leaves.isEmpty = false := by
  rw [List.isEmpty_eq_false_iff]
  rintro rfl
  exact i.elim0

theorem computeProof_eq :
    computeProof hash leaves i = path (hashPair hash) leaves.length leaves i := by
  rw [computeProof, if_neg (Nat.not_le.mpr i.isLt)]

include i in
theorem ofLeaves_eq :
    MerkleTree.ofLeaves hash leaves =
      { leaves := leaves
        tree := levels (hashPair hash) leaves.length leaves
        root := (topLevel (hashPair hash) leaves.length leaves)[0]?.getD (hash (ascii "empty"))
        built := true } := by
  rw [MerkleTree.ofLeaves, MerkleTree.build]
  simp only [leaves_ne_nil i]
  rfl

theorem getProof_eq :
    (MerkleTree.ofLeaves hash leaves).getProof i =
      path (hashPair hash) leaves.length leaves i := by
  rw [ofLeaves_eq i, MerkleTree.getProof, if_neg (by simp), pathOf_levels _ (Nat.le_refl _)]

include i in
/-- The tree has a top, and both roots are it. -/
theorem exists_root :
    ∃ root, (topLevel (hashPair hash) leaves.length leaves)[0]? = some root ∧
      (MerkleTree.ofLeaves hash leaves).root = root ∧ computeMerkleRoot hash leaves = root := by
  have hone := length_topLevel (hashPair hash) (Nat.zero_lt_of_lt i.isLt) (Nat.le_refl _)
  obtain ⟨root, hroot⟩ := List.length_eq_one_iff.mp hone
  refine ⟨root, ?_, ?_, ?_⟩
  · rw [hroot]
    rfl
  · rw [ofLeaves_eq i]
    show _ = root
    rw [hroot]
    rfl
  · rw [computeMerkleRoot, leaves_ne_nil i, if_neg Bool.false_ne_true, hroot]
    rfl

theorem proofsVerify_iff :
    ProofsVerify hash leaves i ↔
      (topLevel (hashPair hash) leaves.length leaves)[0]? =
        some (climb (hashPair hash) leaves[i] i
          (path (hashPair hash) leaves.length leaves i)) := by
  obtain ⟨root, hroot, htree, hstatic⟩ := @exists_root hash leaves i
  rw [ProofsVerify, MerkleTree.verifyProof, verifyProof, verifyProof, getProof_eq,
    computeProof_eq, htree, hstatic, hroot, decide_eq_true_iff, and_self, Option.some_inj, eq_comm]

/-- A paired leaf verifies. -/
theorem proofsVerify_of_paired (hpaired : Paired leaves.length i) : ProofsVerify hash leaves i :=
  (proofsVerify_iff i).mpr
    (climb_path _ (Nat.le_refl _) (List.getElem?_eq_getElem i.isLt) hpaired)

/-! ## Leaves that are not paired -/

/-- A hash function that counts: below the bound all strings have equally long hashes, from
there on a hash is longer than its string. -/
def countingHash (bound : Nat) (s : Str) : Str :=
  if s.length < bound then List.replicate bound 0 else 0 :: s

theorem length_countingHash_of_lt {bound : Nat} {s : Str} (h : s.length < bound) :
    (countingHash bound s).length = bound := by
  rw [countingHash, if_pos h, List.length_replicate]

theorem length_countingHash_of_le {bound : Nat} {x y : Str} (h : bound ≤ x.length + y.length) :
    (hashPair (countingHash bound) x y).length = x.length + y.length + 1 := by
  rw [hashPair, countingHash, if_neg (by rw [List.length_append]; omega), List.length_cons,
    List.length_append]

/-- Some hash function rejects the proofs of a leaf that is not paired. -/
theorem exists_hash_of_not_paired (hunpaired : ¬ Paired leaves.length i) :
    ∃ hash : Str → Str, ¬ ProofsVerify hash leaves i := by
  -- all leaves together are shorter than the bound
  let bound := 2 * (leaves.map List.length).sum + 1
  have hsum : ∀ x ∈ leaves, x.length ≤ (leaves.map List.length).sum :=
    fun x hx => List.single_le_sum (fun _ _ => Nat.zero_le _) _ (List.mem_map_of_mem hx)
  have hleaf : ∀ x ∈ leaves, x.length < bound := by
    intro x hx
    have := hsum x hx
    omega
  have hpair : ∀ x ∈ leaves, ∀ y ∈ leaves,
      (hashPair (countingHash bound) x y).length = bound := by
    intro x hx y hy
    apply length_countingHash_of_lt
    have := hsum x hx
    have := hsum y hy
    rw [List.length_append]
    omega
  have hweight : ∀ x y : Str, bound ≤ x.length + y.length →
      (hashPair (countingHash bound) x y).length = x.length + y.length + 1 :=
    fun x y => length_countingHash_of_le
  refine ⟨countingHash bound, ?_⟩
  intro hverify
  exact Nat.lt_irrefl _ (climb_path_lt_of_not_paired hweight (Nat.le_refl _) hleaf hpair
    (List.getElem?_eq_getElem i.isLt) hunpaired ((proofsVerify_iff i).mp hverify))

/-- The proofs of a leaf verify with every hash function exactly when the leaf is paired;
with the hash function of the source they do so at least then. -/
theorem merkleProof_verifies_iff (leaves : List Str) (i : Fin leaves.length) :
    (Paired leaves.length i → ProofsVerify sha1 leaves i) ∧
      ((∀ hash : Str → Str, ProofsVerify hash leaves i) ↔ Paired leaves.length i) := by
  refine ⟨proofsVerify_of_paired i, ?_, fun hpaired _ => proofsVerify_of_paired i hpaired⟩
  intro hall
  by_contra hunpaired
  obtain ⟨hash, hno⟩ := exists_hash_of_not_paired i hunpaired
  exact hno (hall hash)

/-- The third of three leaves has no sibling on its level, and its proof is rejected. -/
theorem thirdLeaf_rejected :
    ¬ ProofsVerify sha1 [ascii "a", ascii "b", ascii "c"] ⟨2, Nat.lt_succ_self 2⟩ := by
  intro h
  have hstatic := h.2
  revert hstatic
  decide +kernel

end Blackstone.Bank
