import Blackstone.Bank.Blockchain

/-!
# Replaying the chain

The balances and the transaction lists of the banking chain are what replaying its blocks
gives, blocks refer to the block before them, and a refused call leaves everything alone
(`sound_run`, `callResult_cases`). Block indices are 32-bit integers that count the blocks:
they are the positions in the chain as long as it has at most `2^31` blocks, which makes
`chainLaw_iff` an equivalence.
-/

namespace Blackstone.Bank

open DefaultMap Runs

/-- The transactions of all blocks, in order. -/
def BankingBlockchain.allTransactions (s : BankingBlockchain) : List Transaction :=
  s.chain.flatMap Block.transactions

/-- What is derived from the chain agrees with it. -/
structure ChainLaw (s : BankingBlockchain) : Prop where
  balances : s.balances = applyTransfers ∅ s.allTransactions
  accountTransactions : s.accountTransactions = s.allTransactions.foldl recordTransaction ∅
  total : total s.balances = 0
  index : ∀ i (hi : i < s.chain.length), s.chain[i].index.toInt = i
  previousHash : ∀ i (hi : i + 1 < s.chain.length), s.chain[i + 1].previousHash = s.chain[i].hash

/-- A call that returns false has changed nothing. -/
def Atomic (s : BankingBlockchain) (call : ChainCall) : Prop :=
  (callResult s call).1 = false → (callResult s call).2 = s

theorem atomic (s : BankingBlockchain) (call : ChainCall) : Atomic s call := by
  intro hrefused
  rcases callResult_cases s call with hresult | ⟨block, hresult, -⟩
  · rw [hresult]
  · rw [hresult] at hrefused
    exact absurd hrefused Bool.true_eq_false.mp

/-! ## The invariant -/

/-- The invariant of the two insertions; indices are counted in 32 bits. -/
structure Sound (s : BankingBlockchain) : Prop where
  balances : s.balances = applyTransfers ∅ s.allTransactions
  accountTransactions : s.accountTransactions = s.allTransactions.foldl recordTransaction ∅
  index : ∀ i block, s.chain[i]? = some block → block.index = Int32.ofNat i
  previousHash : s.chain.IsChain (fun previous block => block.previousHash = previous.hash)

theorem sound_create : Sound BankingBlockchain.create where
  balances := rfl
  accountTransactions := rfl
  index i block hblock := by
    obtain ⟨hi, rfl⟩ := List.getElem?_eq_some_iff.mp hblock
    obtain rfl : i = 0 := Nat.lt_one_iff.mp hi
    rfl
  previousHash := List.IsChain.singleton _

theorem allTransactions_insertBlock (s : BankingBlockchain) (block : Block) :
    (s.insertBlock block).allTransactions = s.allTransactions ++ block.transactions := by
  show (s.chain ++ [block]).flatMap Block.transactions = _
  rw [List.flatMap_append, List.flatMap_singleton]
  rfl

theorem Sound.insertBlock {s : BankingBlockchain} (h : Sound s) {call : ChainCall} {block : Block}
    (hfits : Fits s call block) : Sound (s.insertBlock block) where
  balances := by
    rw [allTransactions_insertBlock, applyTransfers, List.foldl_append]
    show applyTransfers s.balances block.transactions = _
    rw [h.balances]
    rfl
  accountTransactions := by
    rw [allTransactions_insertBlock, List.foldl_append]
    show block.transactions.foldl recordTransaction s.accountTransactions = _
    rw [h.accountTransactions]
  index i last hlast := by
    have hmem : (s.chain ++ [block])[i]? = some last := hlast
    rcases Nat.lt_trichotomy i s.chain.length with hold | rfl | hbeyond
    · rw [List.getElem?_append_left hold] at hmem
      exact h.index i last hmem
    · rw [List.getElem?_concat_length] at hmem
      cases hmem
      exact hfits.index
    · rw [List.getElem?_eq_none (by rw [List.length_append]; exact hbeyond)] at hmem
      cases hmem
  previousHash := by
    show (s.chain ++ [block]).IsChain _
    apply List.IsChain.append h.previousHash (List.IsChain.singleton _)
    intro previous hprevious next hnext
    rw [List.getLast?_eq_some_getLast s.nonempty] at hprevious
    cases hprevious
    cases hnext
    exact hfits.previousHash

theorem Sound.getElem_index {s : BankingBlockchain} (h : Sound s) {i : Nat}
    (hi : i < s.chain.length) : s.chain[i].index = Int32.ofNat i :=
  h.index i _ (List.getElem?_eq_getElem hi)

theorem sound_run (calls : List ChainCall) :
    Sound (run chainStep BankingBlockchain.create calls) := by
  apply run_invariant (P := fun _ _ => True) ?_ sound_create (along_true _ calls)
  intro s call h _
  apply chainStep_induction h
  intro block hfits
  exact h.insertBlock hfits

/-! ## The law -/

theorem total_applyTransfers (balances : Map Str ℚ) (transactions : List Transaction) :
    total (applyTransfers balances transactions) = total balances := by
  induction transactions generalizing balances with
  | nil => rfl
  | cons tx transactions ih =>
    rw [applyTransfers, List.foldl_cons]
    exact (ih _).trans (total_move rfl _ _ _ _)

/-- A position is its own index as long as it fits into 31 bits. -/
theorem toInt_ofNat_eq_iff {n : Nat} :
    (∀ i, i < n → (Int32.ofNat i).toInt = i) ↔ n ≤ 2 ^ 31 := by
  constructor
  · intro h
    by_contra hlong
    have hwrapped := h (2 ^ 31) (by omega)
    exact absurd hwrapped (by decide)
  · intro h i hi
    exact Int32.toInt_ofNat_of_lt (by omega)

/-- In the state that any sequence of calls reaches, the law holds and refused calls change
nothing exactly when the chain has at most `2^31` blocks. -/
theorem chainLaw_iff (calls : List ChainCall) :
    (ChainLaw (run chainStep BankingBlockchain.create calls) ∧
        ∀ call, Atomic (run chainStep BankingBlockchain.create calls) call) ↔
      (run chainStep BankingBlockchain.create calls).chain.length ≤ 2 ^ 31 := by
  have hsound := sound_run calls
  generalize run chainStep BankingBlockchain.create calls = s at hsound
  rw [← toInt_ofNat_eq_iff]
  constructor
  · intro h i hi
    rw [← hsound.getElem_index hi]
    exact h.1.index i hi
  · intro h
    refine ⟨⟨hsound.balances, hsound.accountTransactions, ?_, ?_, ?_⟩, atomic s⟩
    · rw [hsound.balances, total_applyTransfers, total_empty]
    · intro i hi
      rw [hsound.getElem_index hi]
      exact h i hi
    · intro i hi
      exact List.isChain_iff_getElem.mp hsound.previousHash i hi

/-- So many calls of `addBlockDirect` with blocks without transactions. -/
def emptyBlocks : Nat → BankingBlockchain → List ChainCall
  | 0, _ => []
  | n + 1, s =>
    .addBlockDirect (s.peerBlock [] []) :: emptyBlocks n (s.insertBlock (s.peerBlock [] []))

theorem length_run_emptyBlocks (n : Nat) (s : BankingBlockchain) :
    (run chainStep s (emptyBlocks n s)).chain.length = s.chain.length + n := by
  induction n generalizing s with
  | zero => rfl
  | succ n ih =>
    have hvalid : validateTransactions s.balances [] = true := rfl
    rw [emptyBlocks, run_cons, chainStep, callResult_peerBlock hvalid, ih]
    show (s.chain ++ [_]).length + n = _
    rw [List.length_append, List.length_singleton]
    omega

/-- After `2^31` blocks the index of the last one is negative. -/
theorem emptyBlocks_wrap_index :
    ¬ ChainLaw (run chainStep BankingBlockchain.create
      (emptyBlocks (2 ^ 31) BankingBlockchain.create)) := by
  intro hlaw
  have hsound := sound_run (emptyBlocks (2 ^ 31) BankingBlockchain.create)
  have hlength := length_run_emptyBlocks (2 ^ 31) BankingBlockchain.create
  generalize run chainStep BankingBlockchain.create (emptyBlocks (2 ^ 31) _) = s
    at hlaw hsound hlength
  have hindices : ∀ i, i < s.chain.length → (Int32.ofNat i).toInt = i := by
    intro i hi
    rw [← hsound.getElem_index hi]
    exact hlaw.index i hi
  have hshort := toInt_ofNat_eq_iff.mp hindices
  have hone : BankingBlockchain.create.chain.length = 1 := rfl
  omega

end Blackstone.Bank
