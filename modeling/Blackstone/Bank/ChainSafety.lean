import Mathlib.Algebra.Order.Ring.Rat
import Mathlib.Tactic.Linarith
import Blackstone.Bank.Replay

/-!
# What the insertions check and what they leave open

Both insertions compare the running balance of the sender with the amount, which protects
balances only from transfers of at least zero (`nonNegative_iff`). Neither looks at the ids
that the chain contains already (`txIds_nodup_iff`), and `addBlockDirect` takes the Merkle
root of a block as it comes, while `verifyChain` compares it (`verifyChain_iff`). Each
theorem is an equivalence over all runs.
-/

namespace Blackstone.Bank

open DefaultMap Runs

/-! ## Balances -/

/-- No account is in debt. -/
def NonNegative (balances : Map Str ℚ) : Prop := ∀ account, 0 ≤ readAt balances account

/-- A correctly signed transfer to another account has an amount of at least zero. -/
def HonestAmount (tx : Transaction) : Prop :=
  verifyTransaction tx tx.fromAccount = true → tx.fromAccount ≠ tx.toAccount → 0 ≤ tx.amount

/-- What validation makes sure of for the first transaction. -/
theorem validateTransactions_cons {balances : Map Str ℚ} {tx : Transaction}
    {transactions : List Transaction} :
    validateTransactions balances (tx :: transactions) = true ↔
      verifyTransaction tx tx.fromAccount = true ∧ tx.amount ≤ readAt balances tx.fromAccount ∧
        validateTransactions (move balances tx.fromAccount tx.toAccount tx.amount)
          transactions = true := by
  rw [validateTransactions]
  by_cases hsigned : verifyTransaction tx tx.fromAccount = true
  · by_cases hshort : readAt balances tx.fromAccount < tx.amount
    · simp [hsigned, hshort, not_le.mpr hshort]
    · simp [hsigned, hshort, not_lt.mp hshort]
  · simp [hsigned]

/-- A covered transfer of at least zero leaves nobody in debt. -/
theorem NonNegative.move {balances : Map Str ℚ} (h : NonNegative balances) {source target : Str}
    {amount : ℚ} (hcovered : amount ≤ readAt balances source)
    (hamount : source ≠ target → 0 ≤ amount) :
    NonNegative (move balances source target amount) := by
  intro account
  by_cases hself : source = target
  · rw [hself, readAt_move_self]
    exact h account
  · have hpos := hamount hself
    have hold := h account
    rw [readAt_move]
    by_cases hsource : account = source
    · rw [if_pos hsource, if_neg (hsource ▸ hself), hsource]
      linarith
    · rw [if_neg hsource]
      split
      · linarith
      · linarith

theorem NonNegative.applyTransfers {balances : Map Str ℚ} (h : NonNegative balances)
    {transactions : List Transaction}
    (hvalid : validateTransactions balances transactions = true)
    (hhonest : ∀ tx ∈ transactions, HonestAmount tx) :
    NonNegative (applyTransfers balances transactions) := by
  induction transactions generalizing balances with
  | nil => exact h
  | cons tx transactions ih =>
    obtain ⟨hsigned, hcovered, hrest⟩ := validateTransactions_cons.mp hvalid
    have hmove := h.move hcovered (hhonest tx List.mem_cons_self hsigned)
    exact ih hmove hrest (fun tx' htx' => hhonest tx' (List.mem_cons_of_mem _ htx'))

theorem NonNegative.chainStep {s : BankingBlockchain} {call : ChainCall}
    (h : NonNegative s.balances) (hhonest : ∀ tx ∈ call.transactions, HonestAmount tx) :
    NonNegative (chainStep s call).balances := by
  apply chainStep_induction (H := fun s => NonNegative s.balances) h
  intro block hfits
  apply h.applyTransfers hfits.valid
  rw [hfits.transactions]
  exact hhonest

/-- A signed transfer below zero is accepted and leaves its target in debt. -/
theorem not_nonNegative_of_theft {tx : Transaction}
    (hsigned : verifyTransaction tx tx.fromAccount = true) (hne : tx.fromAccount ≠ tx.toAccount)
    (hneg : tx.amount < 0) (merkleRoot : Str) :
    ¬ NonNegative (run chainStep BankingBlockchain.create
      [.addBlockDirect (BankingBlockchain.create.peerBlock [tx] merkleRoot)]).balances := by
  have hempty : ∀ account, readAt BankingBlockchain.create.balances account = 0 :=
    fun account => readAt_empty account
  have hvalid : validateTransactions BankingBlockchain.create.balances [tx] = true := by
    rw [validateTransactions_cons, hempty]
    exact ⟨hsigned, le_of_lt hneg, rfl⟩
  intro h
  have htarget := h tx.toAccount
  rw [run_cons, run_nil, chainStep, callResult_peerBlock hvalid] at htarget
  have hread : readAt (move BankingBlockchain.create.balances tx.fromAccount tx.toAccount
      tx.amount) tx.toAccount = tx.amount := by
    rw [readAt_move, hempty, if_neg hne.symm, if_pos rfl, sub_zero, zero_add]
  have hdebt : 0 ≤ tx.amount := hread ▸ htarget
  exact absurd hdebt (not_le.mpr hneg)

/-- All runs over a set of transactions keep all balances at zero or above exactly when
every correctly signed transfer in the set, other than from an account to itself, has an
amount of at least zero. -/
theorem nonNegative_iff (submitted : Set Transaction) :
    (∀ calls : List ChainCall, (∀ call ∈ calls, ∀ tx ∈ call.transactions, tx ∈ submitted) →
        NonNegative (run chainStep BankingBlockchain.create calls).balances) ↔
      ∀ tx ∈ submitted, HonestAmount tx := by
  constructor
  · intro hall tx htx hsigned hne
    by_contra hneg
    apply not_nonNegative_of_theft hsigned hne (not_le.mp hneg) (calculateMerkleRoot [tx])
    apply hall
    intro call hcall tx' htx'
    obtain rfl := List.mem_singleton.mp hcall
    obtain rfl := List.mem_singleton.mp htx'
    exact htx
  · intro hhonest calls hcalls
    have hempty : NonNegative BankingBlockchain.create.balances :=
      fun account => le_of_eq (readAt_empty account).symm
    have hstep : ∀ s call, NonNegative s.balances → (∀ tx ∈ call.transactions, HonestAmount tx) →
        NonNegative (chainStep s call).balances := fun s call h => h.chainStep
    exact run_invariant hstep hempty
      (along_of_forall (fun call hcall tx htx => hhonest tx (hcalls call hcall tx htx)))

/-- A transfer of -5 from an account to another one, signed with the name of the first. -/
def negativeTransfer : Transaction :=
  let tx : Transaction :=
    { txId := ascii "t1"
      fromAccount := ascii "Mallory"
      toAccount := ascii "Alice"
      amount := -5
      timestamp := 1
      nonce := 1
      signature := []
      hash := []
      metadata := [] }
  tx.sign tx.fromAccount

/-- The first block of a peer over some transactions. -/
def firstBlock (transactions : List Transaction) : ChainCall :=
  .addBlockDirect
    (BankingBlockchain.create.peerBlock transactions (calculateMerkleRoot transactions))

theorem negativeTransfer_overdraws :
    ¬ NonNegative (run chainStep BankingBlockchain.create
      [firstBlock [negativeTransfer]]).balances := by
  have hne : negativeTransfer.fromAccount ≠ negativeTransfer.toAccount := by decide
  have hneg : negativeTransfer.amount < 0 := by decide
  exact not_nonNegative_of_theft (verifyTransaction_sign _ _) hne hneg _

/-! ## Transaction ids -/

/-- The ids of the transactions in all blocks, in order. -/
def txIds (s : BankingBlockchain) : List Str := s.allTransactions.map Transaction.txId

/-- The ids of the transactions that a call submits. -/
def ChainCall.ids (call : ChainCall) : List Str := call.transactions.map Transaction.txId

/-- If the call is accepted, its ids are new and not repeated among themselves. -/
def FreshIds (s : BankingBlockchain) (call : ChainCall) : Prop :=
  (callResult s call).1 = true → call.ids.Nodup ∧ (txIds s).Disjoint call.ids

theorem txIds_step_nodup_iff (s : BankingBlockchain) (call : ChainCall) :
    (txIds (chainStep s call)).Nodup ↔ (txIds s).Nodup ∧ FreshIds s call := by
  apply chainStep_iff (H := fun s => (txIds s).Nodup)
  · intro hrefused haccepted
    exact absurd haccepted hrefused
  · intro block haccepted hfits
    have hids : txIds (s.insertBlock block) = txIds s ++ call.ids := by
      rw [txIds, allTransactions_insertBlock, List.map_append, hfits.transactions]
      rfl
    rw [hids, List.nodup_append']
    apply and_congr_right
    intro _
    constructor
    · intro hfresh _
      exact hfresh
    · intro hfresh
      exact hfresh haccepted

/-- The ids in the chain are pairwise distinct exactly when every accepted call submits new
ids and each of them once. -/
theorem txIds_nodup_iff (calls : List ChainCall) :
    (txIds (run chainStep BankingBlockchain.create calls)).Nodup ↔
      Along chainStep FreshIds BankingBlockchain.create calls := by
  have hnil : (txIds BankingBlockchain.create).Nodup := List.nodup_nil
  have hrun := run_iff_along (fun s => (txIds s).Nodup) txIds_step_nodup_iff
    (s := BankingBlockchain.create) calls
  exact hrun.trans ⟨fun h => h.2, fun h => ⟨hnil, h⟩⟩

/-- The same transfer with nothing to move. -/
def idleTransfer : Transaction :=
  { negativeTransfer with amount := 0 }.sign negativeTransfer.fromAccount

/-- A block that contains a transaction twice is accepted. -/
theorem idleTransfer_replayed :
    ¬ (txIds (run chainStep BankingBlockchain.create
      [firstBlock [idleTransfer, idleTransfer]])).Nodup := by
  intro hnodup
  have hsigned : verifyTransaction idleTransfer idleTransfer.fromAccount = true :=
    verifyTransaction_sign _ _
  have hcovered : ∀ balances : Map Str ℚ, NonNegative balances →
      idleTransfer.amount ≤ readAt balances idleTransfer.fromAccount :=
    fun balances h => h _
  have hempty : NonNegative BankingBlockchain.create.balances :=
    fun account => le_of_eq (readAt_empty account).symm
  have hvalid : validateTransactions BankingBlockchain.create.balances
      [idleTransfer, idleTransfer] = true := by
    rw [validateTransactions_cons, validateTransactions_cons]
    exact ⟨hsigned, hcovered _ hempty, hsigned,
      hcovered _ (hempty.move (hcovered _ hempty) (fun _ => le_refl 0)), rfl⟩
  rw [run_cons, run_nil, chainStep, firstBlock, callResult_peerBlock hvalid, txIds,
    allTransactions_insertBlock, List.map_append] at hnodup
  exact absurd (List.nodup_append'.mp hnodup).2.1 (by simp [BankingBlockchain.peerBlock,
    BankingBlockchain.newBlock])

/-! ## Merkle roots -/

/-- A block from outside that is accepted has the Merkle root of its transactions. -/
def TrueRoot (s : BankingBlockchain) (call : ChainCall) : Prop :=
  ∀ block, call = .addBlockDirect block → (callResult s call).1 = true →
    block.merkleRoot = calculateMerkleRoot block.transactions

theorem verifyBlock_iff {previous block : Block} {i : Nat} :
    verifyBlock previous i block = true ↔
      block.previousHash = previous.hash ∧ block.calculateHash = block.hash ∧
        block.index = Int32.ofNat i ∧
        block.merkleRoot = calculateMerkleRoot block.transactions := by
  unfold verifyBlock
  split_ifs <;> simp_all

theorem verifyFrom_append (previous : Block) (i : Nat) (rest : List Block) (block : Block) :
    verifyFrom previous i (rest ++ [block]) = true ↔
      verifyFrom previous i rest = true ∧
        verifyBlock ((previous :: rest).getLast (List.cons_ne_nil _ _)) (i + rest.length)
          block = true := by
  induction rest generalizing previous i with
  | nil => simp [verifyFrom]
  | cons next rest ih =>
    rw [List.cons_append, verifyFrom, verifyFrom]
    by_cases hnext : verifyBlock previous i next = true
    · simp only [hnext]
      rw [List.length_cons, Nat.add_comm rest.length, ← Nat.add_assoc]
      exact ih next (i + 1)
    · simp [hnext]

theorem verifyChain_insertBlock (s : BankingBlockchain) (block : Block) :
    (s.insertBlock block).verifyChain = true ↔
      s.verifyChain = true ∧ verifyBlock s.back s.chain.length block = true := by
  obtain ⟨chain, balances, accountTransactions, blockIndex, hne⟩ := s
  cases chain with
  | nil => exact absurd rfl hne
  | cons genesis rest =>
    have happend := verifyFrom_append genesis 1 rest block
    rw [Nat.add_comm 1] at happend
    exact happend

theorem verifyChain_step_iff (s : BankingBlockchain) (call : ChainCall) :
    (chainStep s call).verifyChain = true ↔ s.verifyChain = true ∧ TrueRoot s call := by
  apply chainStep_iff (H := fun s => s.verifyChain = true)
  · intro hrefused block _ haccepted
    exact absurd haccepted hrefused
  · intro block haccepted hfits
    rw [verifyChain_insertBlock, verifyBlock_iff]
    apply and_congr_right
    intro _
    cases call with
    | addBlock transactions validator timestamp nonces =>
      constructor
      · intro _ received hcall
        cases hcall
      · intro _
        exact ⟨hfits.previousHash, hfits.calculateHash, hfits.index, hfits.merkleRoot⟩
    | addBlockDirect received =>
      obtain rfl : block = received := hfits.merkleRoot
      constructor
      · intro hverified same hcall _
        cases hcall
        exact hverified.2.2.2
      · intro hroot
        exact ⟨hfits.previousHash, hfits.calculateHash, hfits.index, hroot block rfl haccepted⟩

/-- After a run, `verifyChain` returns true exactly when every accepted block from outside
had the Merkle root of its transactions. -/
theorem verifyChain_iff (calls : List ChainCall) :
    (run chainStep BankingBlockchain.create calls).verifyChain = true ↔
      Along chainStep TrueRoot BankingBlockchain.create calls := by
  have hrun := run_iff_along (fun s : BankingBlockchain => s.verifyChain = true)
    verifyChain_step_iff (s := BankingBlockchain.create) calls
  exact hrun.trans ⟨fun h => h.2, fun h => ⟨rfl, h⟩⟩

/-- A block without transactions and with an empty Merkle root is accepted. -/
theorem emptyRoot_accepted :
    ¬ (run chainStep BankingBlockchain.create
      [.addBlockDirect (BankingBlockchain.create.peerBlock [] [])]).verifyChain = true := by
  intro hverified
  have hvalid : validateTransactions BankingBlockchain.create.balances [] = true := rfl
  rw [run_cons, run_nil, chainStep, callResult_peerBlock hvalid, verifyChain_insertBlock,
    verifyBlock_iff] at hverified
  have hroot : [] = sha1 (ascii "empty") := hverified.2.2.2.2
  have hlength := length_sha1 (ascii "empty")
  rw [← hroot] at hlength
  cases hlength

end Blackstone.Bank
