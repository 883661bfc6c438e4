import Blackstone.Bank.Transaction
import Blackstone.Library.MerkleCommitment
import Mathlib.Data.List.Nodup

/-!
# What a Merkle root commits to

`calculateMerkleRoot` pads a level of odd length with its last node, and it does not tell
the hash of a transaction from the hash of two nodes. Where `sha1` is injective on the
strings it is called with, two lists of transactions have the same root exactly when the
padded tree of one is the padded tree of the other, cut at some height
(`calculateMerkleRoot_commits`). Among lists of the same length, a root determines the
hashes.
-/

namespace Blackstone.Bank

open Merkle Merkle.HashTree

/-- The strings that are hashed on the way to a root. -/
def hashedStrings (hash : Str → Str) (hashes : List Str) : List Str :=
  (combinedPairs (hashPair hash) hashes.length hashes).map (fun p => p.1 ++ p.2)

/-- The padded tree over the hashes of some transactions. -/
def hashTree (transactions : List Transaction) : HashTree Str :=
  paddedTree (transactions.map Transaction.hash)

/-- The hash function is injective on the strings hashed for two lists. -/
def InjectiveFor (hash : Str → Str) (hashes hashes' : List Str) : Prop :=
  Set.InjOn hash {s | s ∈ hashedStrings hash hashes ∨ s ∈ hashedStrings hash hashes'}

/-! ## Widths -/

theorem mem_of_mem_pairsOf {level : List Str} {p : Str × Str} (hp : p ∈ pairsOf level) :
    p.1 ∈ level ∧ p.2 ∈ level := by
  induction level using pairsOf.induct with
  | case1 x y rest ih =>
    rcases List.mem_cons.mp hp with rfl | hrest
    · exact ⟨List.mem_cons_self, List.mem_cons_of_mem _ List.mem_cons_self⟩
    · exact ⟨List.mem_cons_of_mem _ (List.mem_cons_of_mem _ (ih hrest).1),
        List.mem_cons_of_mem _ (List.mem_cons_of_mem _ (ih hrest).2)⟩
  | case2 level hshort =>
    obtain rfl | ⟨x, rfl⟩ := eq_nil_or_singleton hshort
    · cases hp
    · cases hp

/-- The two strings of a combined pair have the same width. -/
theorem width_of_mem_combinedPairs {fuel w : Nat} {level : List Str}
    (hwidth : ∀ x ∈ level, x.length = w) {p : Str × Str}
    (hp : p ∈ combinedPairs (hashPair sha1) fuel level) : p.1.length = p.2.length := by
  induction fuel generalizing w level with
  | zero => cases hp
  | succ fuel ih =>
    rw [combinedPairs] at hp
    split at hp
    · rcases List.mem_append.mp hp with hhere | habove
      · obtain ⟨h1, h2⟩ := mem_of_mem_pairsOf hhere
        rw [hwidth _ (mem_of_mem_padLevel h1), hwidth _ (mem_of_mem_padLevel h2)]
      · have hnext : ∀ x ∈ nextLevel (hashPair sha1) level, x.length = 40 := by
          apply forall_mem_nextLevel
          intro x _ y _
          exact length_sha1 _
        exact ih hnext habove
    · cases hp

theorem injectiveOn_of_injectiveFor {hashes hashes' : List Str} {w : Nat}
    (hwidth : ∀ x ∈ hashes, x.length = w) (hwidth' : ∀ x ∈ hashes', x.length = w)
    (hinj : InjectiveFor sha1 hashes hashes') :
    InjectiveOn (hashPair sha1) (combinedPairs (hashPair sha1) hashes.length hashes)
      (combinedPairs (hashPair sha1) hashes'.length hashes') := by
  intro p hp q hq heq
  have hstrings : p.1 ++ p.2 = q.1 ++ q.2 := by
    apply hinj _ _ heq
    · exact Or.inl (List.mem_map_of_mem (f := fun r : Str × Str => r.1 ++ r.2) hp)
    · exact Or.inr (List.mem_map_of_mem (f := fun r : Str × Str => r.1 ++ r.2) hq)
  have hpw := width_of_mem_combinedPairs hwidth hp
  have hqw := width_of_mem_combinedPairs hwidth' hq
  have hlength := congrArg List.length hstrings
  rw [List.length_append, List.length_append] at hlength
  obtain ⟨h1, h2⟩ := List.append_inj hstrings (by omega)
  exact Prod.ext h1 h2

/-! ## Roots -/

theorem calculateMerkleRoot_eq {transactions : List Transaction} (hne : transactions ≠ []) :
    calculateMerkleRoot transactions = eval (hashPair sha1) (hashTree transactions) := by
  have hhashes : transactions.map Transaction.hash ≠ [] := by
    rwa [Ne, List.map_eq_nil_iff]
  rw [calculateMerkleRoot, computeMerkleRoot, List.isEmpty_eq_false_iff.mpr hhashes,
    if_neg Bool.false_ne_true, eval_paddedTree (hashPair sha1) hhashes]
  rfl

/-- Two non-empty lists of transactions with hashes of one width have the same root exactly
when the padded tree of one is the padded tree of the other, cut at some height. In
particular lists of the same length with different hashes have different roots. -/
theorem calculateMerkleRoot_commits {transactions transactions' : List Transaction}
    (hne : transactions ≠ []) (hne' : transactions' ≠ []) {w : Nat}
    (hwidth : ∀ tx ∈ transactions, tx.hash.length = w)
    (hwidth' : ∀ tx ∈ transactions', tx.hash.length = w)
    (hinj : InjectiveFor sha1 (transactions.map Transaction.hash)
      (transactions'.map Transaction.hash)) :
    (calculateMerkleRoot transactions = calculateMerkleRoot transactions' ↔
      (∃ k, hashTree transactions = cut (hashPair sha1) k (hashTree transactions')) ∨
        ∃ k, hashTree transactions' = cut (hashPair sha1) k (hashTree transactions)) ∧
    (transactions.length = transactions'.length →
      transactions.map Transaction.hash ≠ transactions'.map Transaction.hash →
        calculateMerkleRoot transactions ≠ calculateMerkleRoot transactions') := by
  have hhashes : transactions.map Transaction.hash ≠ [] := by
    rwa [Ne, List.map_eq_nil_iff]
  have hhashes' : transactions'.map Transaction.hash ≠ [] := by
    rwa [Ne, List.map_eq_nil_iff]
  have hpairs := injectiveOn_of_injectiveFor (List.forall_mem_map.mpr hwidth)
    (List.forall_mem_map.mpr hwidth') hinj
  have hiff := eval_eq_iff_cut hhashes hhashes' hpairs
  rw [calculateMerkleRoot_eq hne, calculateMerkleRoot_eq hne']
  refine ⟨hiff, ?_⟩
  intro hlength hdifferent hroot
  have hmapLength : (transactions.map Transaction.hash).length =
      (transactions'.map Transaction.hash).length := by
    rw [List.length_map, List.length_map, hlength]
  rcases hiff.mp hroot with ⟨k, hk⟩ | ⟨k, hk⟩
  · exact hdifferent (eq_of_cut hhashes hhashes' hmapLength hk)
  · exact hdifferent (eq_of_cut hhashes' hhashes hmapLength.symm hk).symm

/-- A transaction with a given hash. -/
def transactionWithHash (hash : Str) : Transaction where
  txId := []
  fromAccount := []
  toAccount := []
  amount := 0
  timestamp := 0
  nonce := 0
  signature := []
  hash := hash
  metadata := []

/-- Transactions with the given hashes. -/
def transactionsWith (hashes : List String) : List Transaction :=
  hashes.map (fun hash => transactionWithHash (ascii hash))

/-- A hash function is injective where the hashes of some distinct strings are distinct. -/
theorem injectiveFor_of_nodup {hash : Str → Str} {hashes hashes' : List Str}
    (strings : List Str) (hstrings : hashedStrings hash hashes ⊆ strings)
    (hstrings' : hashedStrings hash hashes' ⊆ strings) (h : (strings.map hash).Nodup) :
    InjectiveFor hash hashes hashes' := by
  have hmem : ∀ s, s ∈ hashedStrings hash hashes ∨ s ∈ hashedStrings hash hashes' →
      s ∈ strings := by
    rintro s (hs | hs)
    · exact hstrings hs
    · exact hstrings' hs
  intro s hs t ht heq
  exact List.inj_on_of_nodup_map h (hmem s hs) (hmem t ht) heq

/-- Two lists of two transactions. -/
theorem pairs_commit :
    (calculateMerkleRoot (transactionsWith ["a", "b"]) =
        calculateMerkleRoot (transactionsWith ["b", "a"]) ↔
      (∃ k, hashTree (transactionsWith ["a", "b"]) =
          cut (hashPair sha1) k (hashTree (transactionsWith ["b", "a"]))) ∨
        ∃ k, hashTree (transactionsWith ["b", "a"]) =
          cut (hashPair sha1) k (hashTree (transactionsWith ["a", "b"]))) ∧
    ((transactionsWith ["a", "b"]).length = (transactionsWith ["b", "a"]).length →
      (transactionsWith ["a", "b"]).map Transaction.hash ≠
          (transactionsWith ["b", "a"]).map Transaction.hash →
        calculateMerkleRoot (transactionsWith ["a", "b"]) ≠
          calculateMerkleRoot (transactionsWith ["b", "a"])) :=
  calculateMerkleRoot_commits (w := 1) (List.cons_ne_nil _ _) (List.cons_ne_nil _ _) (by decide)
    (by decide) (injectiveFor_of_nodup [ascii "ab", ascii "ba"] (by decide) (by decide)
      (by decide +kernel))

/-- The third hash repeated: two lists with one root. -/
theorem repeated_last_same_root :
    (∀ tx ∈ transactionsWith ["a", "b", "c"], tx.hash.length = 1) ∧
      (∀ tx ∈ transactionsWith ["a", "b", "c", "c"], tx.hash.length = 1) ∧
      InjectiveFor sha1 ((transactionsWith ["a", "b", "c"]).map Transaction.hash)
        ((transactionsWith ["a", "b", "c", "c"]).map Transaction.hash) ∧
      (transactionsWith ["a", "b", "c"]).map Transaction.hash ≠
        (transactionsWith ["a", "b", "c", "c"]).map Transaction.hash ∧
      calculateMerkleRoot (transactionsWith ["a", "b", "c"]) =
        calculateMerkleRoot (transactionsWith ["a", "b", "c", "c"]) := by
  refine ⟨by decide, by decide, ?_, by decide, rfl⟩
  -- the same strings are hashed for both lists
  exact injectiveFor_of_nodup _ (List.Subset.refl _) (List.Subset.refl _) (by decide +kernel)

end Blackstone.Bank
