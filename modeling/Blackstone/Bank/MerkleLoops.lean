import Blackstone.Bank.Transaction
import Blackstone.Library.MerkleLoops

/-!
# The three Merkle loops of the banking system

`MerkleTree::build`, `MerkleTree::computeMerkleRoot` and `BankTransaction::calculateMerkleRoot`,
statement by statement: a loop over the levels around a loop over the pairs of a level, each
on a vector of its own. Reads behind the end of a vector and loops that do not end in as many
rounds as there are leaves are `none`.

`merkleRoots_agree`: none of this happens, and the three roots are the one of the recursion
`topLevel`.
-/

namespace Blackstone.Bank.MerkleLoops

open Loops Merkle

variable (hash : Str → Str)

/-- One round of the loop of `MerkleTree::build`, on `tree` and `currentLevel`. -/
def buildRound (s : List (List Str) × List Str) : Option (List (List Str) × List Str) := do
  let currentLevel :=
    if s.2.length % 2 = 1 then s.2 ++ s.2.getLast?.toList else s.2
  let nextLevel ← pairLoop (hashPair hash) currentLevel
  some (s.1 ++ [nextLevel], nextLevel)

/-- `MerkleTree::build`. -/
def build (t : MerkleTree) : Option MerkleTree :=
  if t.leaves.isEmpty then some { t with root := hash (ascii "empty"), built := true }
  else do
    let (tree, currentLevel) ← loop (fun s => decide (s.2.length > 1)) (buildRound hash)
      t.leaves.length ([t.leaves], t.leaves)
    some { t with
      tree := tree
      root := currentLevel[0]?.getD (hash (ascii "empty"))
      built := true }

/-- `MerkleTree::rebuild`. -/
def rebuild (t : MerkleTree) : Option MerkleTree := build hash t

/-- The constructor from a list of leaf hashes. -/
def ofLeaves (leafHashes : List Str) : Option MerkleTree :=
  rebuild hash { leaves := leafHashes, tree := [], root := [], built := false }

/-- `MerkleTree::getRoot`. -/
def getRoot (t : MerkleTree) : Str := t.root

/-- One round of the loops of `MerkleTree::computeMerkleRoot` and
`BankTransaction::calculateMerkleRoot`, which hash the pairs themselves. -/
def rootRound (hashes : List Str) : Option (List Str) :=
  let hashes :=
    if hashes.length % 2 = 1 then hashes ++ hashes.getLast?.toList else hashes
  pairLoop (fun left right => hash (left ++ right)) hashes

/-- `MerkleTree::computeMerkleRoot`: the root, and what the caller finds in `hashes`. -/
def computeMerkleRoot (hashes : List Str) : Option (Str × List Str) :=
  if hashes.isEmpty then some (hash (ascii "empty"), hashes)
  else do
    let hashes ← loop (fun hashes => decide (hashes.length > 1)) (rootRound hash) hashes.length
      hashes
    let root ← hashes[0]?
    some (root, hashes)

/-- `BankTransaction::calculateMerkleRoot`. -/
def calculateMerkleRoot (transactions : List Transaction) : Option Str :=
  if transactions.isEmpty then some (hash (ascii "empty"))
  else do
    let hashes := transactions.foldl (fun hashes tx => hashes ++ [tx.hash]) []
    let hashes ← loop (fun hashes => decide (hashes.length > 1)) (rootRound hash) hashes.length
      hashes
    hashes[0]?

/-! ## The rounds -/

variable {hash}

theorem buildRound_eq (tree : List (List Str)) (level : List Str) :
    buildRound hash (tree, level) =
      some (tree ++ [nextLevel (hashPair hash) level], nextLevel (hashPair hash) level) := by
  have hpairs := pairLoop_padLevel (hashPair hash) level
  unfold padLevel at hpairs
  simp only [buildRound, hpairs, Option.bind_eq_bind, Option.bind_some]

theorem rootRound_eq (level : List Str) :
    rootRound hash level = some (nextLevel (hashPair hash) level) :=
  pairLoop_padLevel (hashPair hash) level

/-- The loop over the hashes ends on the top of the tree. -/
theorem rootLoop_eq (level : List Str) :
    loop (fun hashes => decide (hashes.length > 1)) (rootRound hash) level.length level =
      some (topLevel (hashPair hash) level.length level) :=
  loop_topLevel (hashPair hash) rootRound_eq (Nat.le_refl _)

/-! ## The functions -/

/-- The loop builds the tree of the recursion, with all its levels. -/
theorem build_eq (t : MerkleTree) : build hash t = some (t.build hash) := by
  rw [build, MerkleTree.build]
  split
  · rfl
  · have hloop := loop_levels (hashPair hash) buildRound_eq [] (Nat.le_refl t.leaves.length)
    rw [List.nil_append, List.nil_append] at hloop
    rw [hloop]
    rfl

theorem ofLeaves_eq (leafHashes : List Str) :
    ofLeaves hash leafHashes = some (MerkleTree.ofLeaves hash leafHashes) :=
  build_eq _

/-- The top of a tree over at least one leaf. -/
theorem exists_top {hashes : List Str} (hne : hashes ≠ []) :
    ∃ top, topLevel (hashPair hash) hashes.length hashes = [top] :=
  List.length_eq_one_iff.mp
    (length_topLevel (hashPair hash) (List.length_pos_iff.mpr hne) (Nat.le_refl _))

theorem isEmpty_eq_false {α : Type} {xs : List α} (hne : xs ≠ []) : xs.isEmpty = false :=
  List.isEmpty_eq_false_iff.mpr hne

theorem ofLeaves_root (hashes : List Str) :
    (MerkleTree.ofLeaves hash hashes).root = Bank.computeMerkleRoot hash hashes := by
  rw [MerkleTree.ofLeaves, MerkleTree.build, Bank.computeMerkleRoot]
  by_cases hne : hashes = []
  · subst hne
    rfl
  · obtain ⟨top, htop⟩ := @exists_top hash _ hne
    simp only [isEmpty_eq_false hne, htop]
    rfl

theorem computeMerkleRoot_eq (hashes : List Str) :
    (computeMerkleRoot hash hashes).map Prod.fst = some (Bank.computeMerkleRoot hash hashes) := by
  rw [computeMerkleRoot, Bank.computeMerkleRoot]
  by_cases hne : hashes = []
  · subst hne
    rfl
  · obtain ⟨top, htop⟩ := @exists_top hash _ hne
    rw [isEmpty_eq_false hne, if_neg Bool.false_ne_true, if_neg Bool.false_ne_true, rootLoop_eq,
      htop]
    rfl

theorem foldl_push (transactions : List Transaction) :
    transactions.foldl (fun hashes tx => hashes ++ [tx.hash]) [] =
      transactions.map Transaction.hash := by
  rw [List.foldl_append_eq_append, List.nil_append, ← List.flatMap_def,
    List.map_eq_flatMap]

theorem calculateMerkleRoot_eq (transactions : List Transaction) :
    calculateMerkleRoot hash transactions =
      some (Bank.computeMerkleRoot hash (transactions.map Transaction.hash)) := by
  rw [calculateMerkleRoot, Bank.computeMerkleRoot]
  by_cases hne : transactions = []
  · subst hne
    rfl
  · have hhashes : transactions.map Transaction.hash ≠ [] := by
      rwa [Ne, List.map_eq_nil_iff]
    obtain ⟨top, htop⟩ := @exists_top hash _ hhashes
    rw [isEmpty_eq_false hne, isEmpty_eq_false hhashes, if_neg Bool.false_ne_true,
      if_neg Bool.false_ne_true, foldl_push]
    dsimp only
    rw [rootLoop_eq, htop]
    rfl

/-- For every list of leaf hashes all three loops end, and their roots are the same. -/
theorem merkleRoots_agree (leafHashes : List Str) :
    ∃ root, (ofLeaves sha1 leafHashes).map getRoot = some root ∧
      (computeMerkleRoot sha1 leafHashes).map Prod.fst = some root ∧
      (∀ transactions : List Transaction, transactions.map Transaction.hash = leafHashes →
        calculateMerkleRoot sha1 transactions = some root) ∧
      root = Bank.computeMerkleRoot sha1 leafHashes := by
  refine ⟨Bank.computeMerkleRoot sha1 leafHashes, ?_, computeMerkleRoot_eq leafHashes, ?_, rfl⟩
  · rw [ofLeaves_eq, Option.map_some, getRoot, ofLeaves_root]
  · intro transactions hhashes
    rw [calculateMerkleRoot_eq, hhashes]

end Blackstone.Bank.MerkleLoops
