import Blackstone.Bank.Transaction
import Blackstone.Library.DefaultMap
import Blackstone.Library.Runs

/-!
# The chain of the banking system

`block.cpp` and the two ways into the chain of `blockchain.cpp`. `addBlock` builds and mines
a block of its own, `addBlockDirect` takes a block from outside; both validate the
transactions on a copy of the balances first. `callResult_cases` is what a call can do: it
leaves the chain alone, or it appends one block that fits.
-/

namespace Blackstone.Bank

open DefaultMap Runs

/-! ## Blocks -/

/-- `Block`. -/
structure Block where
  index : Int32
  previousHash : Str
  timestamp : UInt64
  transactions : List Transaction
  merkleRoot : Str
  hash : Str
  nonce : UInt64
  validator : Str
  difficulty : UInt64
  version : Str

/-- `Block::getHeaderData`. -/
def Block.headerData (block : Block) : Str :=
  decimalInt block.index.toInt ++ block.previousHash ++ decimal block.timestamp.toNat ++
    block.merkleRoot ++ decimal block.nonce.toNat ++ block.validator ++
    decimal block.difficulty.toNat ++ block.version

/-- `Block::calculateHash`. -/
def Block.calculateHash (block : Block) : Str := sha1Double block.headerData

/-- The test of `Block::mineBlock` on the first digits of the hash. -/
def leadingZeros (hash : Str) (difficulty : Nat) : Bool :=
  (List.range difficulty).all (fun i => (hash.take difficulty).getD i 0 = 48)

/-- The block with the nonce of an attempt and the hash that belongs to it. -/
def Block.attempt (block : Block) (nonce : UInt64) : Block :=
  { block with nonce := nonce, hash := { block with nonce := nonce }.calculateHash }

/-- The loop of `Block::mineBlock`, on the random numbers it draws. -/
def mineLoop (block : Block) (targetDifficulty : UInt64) (nonces : Nat → UInt64) :
    (remaining attempt : Nat) → Bool × Block
  | 0, _ => (false, block)
  | remaining + 1, attempt =>
    let tried := block.attempt (nonces attempt)
    if leadingZeros tried.hash targetDifficulty.toNat then (true, tried)
    else mineLoop tried targetDifficulty nonces remaining (attempt + 1)

/-- `Block::mineBlock`. Irreducible, so that no proof evaluates it by accident. -/
@[irreducible] def Block.mineBlock (block : Block) (targetDifficulty maxAttempts : UInt64)
    (nonces : Nat → UInt64) : Bool × Block :=
  mineLoop { block with difficulty := targetDifficulty } targetDifficulty nonces
    maxAttempts.toNat 0

/-! ## The chain -/

/-- `BankingBlockchain`, without its lock. -/
structure BankingBlockchain where
  chain : List Block
  balances : Map Str ℚ
  accountTransactions : Map Str (List Str)
  blockIndex : Map Str Block
  nonempty : chain ≠ []

/-- `BankingBlockchain::createGenesisBlock`. -/
def createGenesisBlock : Block :=
  let genesis : Block :=
    { index := 0
      previousHash := sha1 (ascii "GENESIS")
      timestamp := 0
      transactions := []
      merkleRoot := sha1 (ascii "GENESIS_BLOCK")
      hash := []
      nonce := 0
      validator := ascii "SYSTEM"
      difficulty := 4
      version := [] }
  { genesis with hash := genesis.calculateHash }

/-- The constructor. -/
def BankingBlockchain.create : BankingBlockchain where
  chain := [createGenesisBlock]
  balances := ∅
  accountTransactions := ∅
  blockIndex := ∅
  nonempty := List.cons_ne_nil _ _

/-- `chain.back()`. -/
def BankingBlockchain.back (s : BankingBlockchain) : Block := s.chain.getLast s.nonempty

/-- `BankingBlockchain::validateTransactions` on the copy of the balances. -/
def validateTransactions (tempBalances : Map Str ℚ) : List Transaction → Bool
  | [] => true
  | tx :: transactions =>
    if !verifyTransaction tx tx.fromAccount then false
    else if readAt tempBalances tx.fromAccount < tx.amount then false
    else
      validateTransactions (move tempBalances tx.fromAccount tx.toAccount tx.amount) transactions

/-- The balances after the transfers of a list. -/
def applyTransfers (balances : Map Str ℚ) (transactions : List Transaction) : Map Str ℚ :=
  transactions.foldl (fun m tx => move m tx.fromAccount tx.toAccount tx.amount) balances

/-- The transaction lists of both accounts of a transaction get its id. -/
def recordTransaction (listed : Map Str (List Str)) (tx : Transaction) : Map Str (List Str) :=
  modifyAt (modifyAt listed tx.fromAccount (· ++ [tx.txId])) tx.toAccount (· ++ [tx.txId])

/-- `BankingBlockchain::updateBalances`. -/
def BankingBlockchain.updateBalances (s : BankingBlockchain) (transactions : List Transaction) :
    BankingBlockchain :=
  { s with
    balances := applyTransfers s.balances transactions
    accountTransactions := transactions.foldl recordTransaction s.accountTransactions }

/-- The last three statements of both insertions. -/
def BankingBlockchain.insertBlock (s : BankingBlockchain) (block : Block) : BankingBlockchain :=
  let s' := s.updateBalances block.transactions
  { s' with
    chain := s'.chain ++ [block]
    blockIndex := s'.blockIndex.insert block.hash block
    nonempty := List.append_ne_nil_of_right_ne_nil _ (List.cons_ne_nil _ _) }

/-- The block that `addBlock` starts to mine. -/
def BankingBlockchain.newBlock (s : BankingBlockchain) (transactions : List Transaction)
    (validator : Str) (timestamp : UInt64) : Block where
  index := Int32.ofNat s.chain.length
  previousHash := s.back.hash
  timestamp := timestamp
  transactions := transactions
  merkleRoot := calculateMerkleRoot transactions
  hash := []
  nonce := 0
  validator := validator
  difficulty := 4
  version := []

/-- `BankingBlockchain::addBlock`, with the clock and the random numbers it reads. -/
def BankingBlockchain.addBlock (s : BankingBlockchain) (transactions : List Transaction)
    (validator : Str) (timestamp : UInt64) (nonces : Nat → UInt64) : Bool × BankingBlockchain :=
  if !validateTransactions s.balances transactions then (false, s)
  else
    let mined := (s.newBlock transactions validator timestamp).mineBlock 4 1000000 nonces
    if !mined.1 then (false, s) else (true, s.insertBlock mined.2)

/-- `BankingBlockchain::addBlockDirect`. -/
def BankingBlockchain.addBlockDirect (s : BankingBlockchain) (block : Block) :
    Bool × BankingBlockchain :=
  if block.index ≠ Int32.ofNat s.chain.length then (false, s)
  else if block.previousHash ≠ s.back.hash then (false, s)
  else if block.calculateHash ≠ block.hash then (false, s)
  else if !validateTransactions s.balances block.transactions then (false, s)
  else (true, s.insertBlock block)

/-- The tests of `BankingBlockchain::verifyChain` on block `i`. -/
def verifyBlock (previous : Block) (i : Nat) (block : Block) : Bool :=
  if block.previousHash ≠ previous.hash then false
  else if block.calculateHash ≠ block.hash then false
  else if block.index ≠ Int32.ofNat i then false
  else if block.merkleRoot ≠ calculateMerkleRoot block.transactions then false
  else true

/-- The loop of `BankingBlockchain::verifyChain` from block `i` on. -/
def verifyFrom (previous : Block) (i : Nat) : List Block → Bool
  | [] => true
  | block :: rest =>
    if !verifyBlock previous i block then false else verifyFrom block (i + 1) rest

/-- `BankingBlockchain::verifyChain`. -/
def BankingBlockchain.verifyChain (s : BankingBlockchain) : Bool :=
  match s.chain with
  | [] => true
  | genesis :: rest => verifyFrom genesis 1 rest

/-! ## Calls -/

/-- A call of one of the two insertions. -/
inductive ChainCall where
  | addBlock (transactions : List Transaction) (validator : Str) (timestamp : UInt64)
      (nonces : Nat → UInt64)
  | addBlockDirect (block : Block)

/-- The transactions that a call submits. -/
def ChainCall.transactions : ChainCall → List Transaction
  | .addBlock transactions _ _ _ => transactions
  | .addBlockDirect block => block.transactions

/-- What a call returns and leaves behind. -/
def callResult (s : BankingBlockchain) : ChainCall → Bool × BankingBlockchain
  | .addBlock transactions validator timestamp nonces =>
    s.addBlock transactions validator timestamp nonces
  | .addBlockDirect block => s.addBlockDirect block

/-- The chain after a call. -/
def chainStep (s : BankingBlockchain) (call : ChainCall) : BankingBlockchain :=
  (callResult s call).2

/-! ## What a call can do -/

/-- Everything but the nonce, the hash and the difficulty is as it was. -/
structure SameContent (mined block : Block) : Prop where
  index : mined.index = block.index
  previousHash : mined.previousHash = block.previousHash
  transactions : mined.transactions = block.transactions
  merkleRoot : mined.merkleRoot = block.merkleRoot

theorem mineLoop_spec {targetDifficulty : UInt64} {nonces : Nat → UInt64}
    (remaining attempt : Nat) (block : Block)
    (hfound : (mineLoop block targetDifficulty nonces remaining attempt).1 = true) :
    (mineLoop block targetDifficulty nonces remaining attempt).2.calculateHash =
        (mineLoop block targetDifficulty nonces remaining attempt).2.hash ∧
      SameContent (mineLoop block targetDifficulty nonces remaining attempt).2 block := by
  induction remaining generalizing block attempt with
  | zero => exact absurd hfound Bool.false_ne_true
  | succ remaining ih =>
    rw [mineLoop] at hfound ⊢
    split
    · exact ⟨rfl, rfl, rfl, rfl, rfl⟩
    · rename_i hzeros
      rw [if_neg hzeros] at hfound
      obtain ⟨hhash, hindex, hprevious, htransactions, hroot⟩ := ih _ _ hfound
      exact ⟨hhash, hindex, hprevious, htransactions, hroot⟩

theorem mineBlock_spec {block : Block} {targetDifficulty maxAttempts : UInt64}
    {nonces : Nat → UInt64}
    (hfound : (block.mineBlock targetDifficulty maxAttempts nonces).1 = true) :
    (block.mineBlock targetDifficulty maxAttempts nonces).2.calculateHash =
        (block.mineBlock targetDifficulty maxAttempts nonces).2.hash ∧
      SameContent (block.mineBlock targetDifficulty maxAttempts nonces).2 block := by
  unfold Block.mineBlock at hfound ⊢
  obtain ⟨hhash, hindex, hprevious, htransactions, hroot⟩ := mineLoop_spec _ _ _ hfound
  exact ⟨hhash, hindex, hprevious, htransactions, hroot⟩

/-- A block that a call may append. -/
structure Fits (s : BankingBlockchain) (call : ChainCall) (block : Block) : Prop where
  index : block.index = Int32.ofNat s.chain.length
  previousHash : block.previousHash = s.back.hash
  calculateHash : block.calculateHash = block.hash
  transactions : block.transactions = call.transactions
  valid : validateTransactions s.balances block.transactions = true
  /-- The root of a block from outside is taken as it is. -/
  merkleRoot : match call with
    | .addBlock _ _ _ _ => block.merkleRoot = calculateMerkleRoot block.transactions
    | .addBlockDirect received => block = received

/-- A call is refused and changes nothing, or it appends a block that fits. -/
theorem callResult_cases (s : BankingBlockchain) (call : ChainCall) :
    callResult s call = (false, s) ∨
      ∃ block, callResult s call = (true, s.insertBlock block) ∧ Fits s call block := by
  cases call with
  | addBlock transactions validator timestamp nonces =>
    unfold callResult BankingBlockchain.addBlock
    by_cases hvalid : validateTransactions s.balances transactions = true
    · by_cases hfound :
        ((s.newBlock transactions validator timestamp).mineBlock 4 1000000 nonces).1 = true
      · obtain ⟨hhash, hsame⟩ := mineBlock_spec hfound
        right
        refine ⟨_, ?_, hsame.index, hsame.previousHash, hhash, hsame.transactions, ?_, ?_⟩
        · simp only [hvalid, hfound]
          rfl
        · rw [hsame.transactions]
          exact hvalid
        · show _ = calculateMerkleRoot _
          rw [hsame.merkleRoot, hsame.transactions]
          rfl
      · left
        simp only [hvalid, hfound]
        rfl
    · left
      simp only [hvalid]
      rfl
  | addBlockDirect block =>
    simp only [callResult, BankingBlockchain.addBlockDirect]
    split
    · exact Or.inl rfl
    · rename_i hindex
      split
      · exact Or.inl rfl
      · rename_i hprevious
        split
        · exact Or.inl rfl
        · rename_i hhash
          split
          · exact Or.inl rfl
          · rename_i hvalid
            right
            refine ⟨block, rfl, not_not.mp hindex, not_not.mp hprevious, not_not.mp hhash, rfl,
              ?_, rfl⟩
            simpa using hvalid

/-- What holds before a call and after every insertion that fits holds after the call. -/
theorem chainStep_induction {H : BankingBlockchain → Prop} {s : BankingBlockchain}
    {call : ChainCall} (hs : H s) (hinsert : ∀ block, Fits s call block → H (s.insertBlock block)) :
    H (chainStep s call) := by
  rcases callResult_cases s call with hresult | ⟨block, hresult, hfits⟩
  · rw [chainStep, hresult]
    exact hs
  · rw [chainStep, hresult]
    exact hinsert block hfits

/-- A property that an insertion keeps under a condition `C`, which refused calls meet. -/
theorem chainStep_iff {H : BankingBlockchain → Prop} {C : Prop} {s : BankingBlockchain}
    {call : ChainCall} (hrefused : (callResult s call).1 ≠ true → C)
    (hinsert : ∀ block, (callResult s call).1 = true → Fits s call block →
      (H (s.insertBlock block) ↔ H s ∧ C)) :
    H (chainStep s call) ↔ H s ∧ C := by
  rcases callResult_cases s call with hresult | ⟨block, hresult, hfits⟩
  · have hcondition : C := by
      apply hrefused
      rw [hresult]
      exact Bool.false_ne_true
    rw [chainStep, hresult]
    exact (and_iff_left hcondition).symm
  · rw [chainStep, hresult]
    apply hinsert block ?_ hfits
    rw [hresult]

/-- A block from outside that fits is appended. -/
theorem addBlockDirect_of_fits {s : BankingBlockchain} {block : Block}
    (h : Fits s (.addBlockDirect block) block) :
    callResult s (.addBlockDirect block) = (true, s.insertBlock block) := by
  unfold callResult BankingBlockchain.addBlockDirect
  simp only [h.index, h.previousHash, h.calculateHash, h.valid]
  simp

/-- A block over given transactions that a peer can send next, with a Merkle root of the
peer's choice. -/
def BankingBlockchain.peerBlock (s : BankingBlockchain) (transactions : List Transaction)
    (merkleRoot : Str) : Block :=
  let block : Block :=
    { s.newBlock transactions [] 0 with merkleRoot := merkleRoot }
  { block with hash := block.calculateHash }

/-- It is appended when its transactions are valid. -/
theorem callResult_peerBlock {s : BankingBlockchain} {transactions : List Transaction}
    (hvalid : validateTransactions s.balances transactions = true) (merkleRoot : Str) :
    callResult s (.addBlockDirect (s.peerBlock transactions merkleRoot)) =
      (true, s.insertBlock (s.peerBlock transactions merkleRoot)) :=
  addBlockDirect_of_fits
    { index := rfl
      previousHash := rfl
      calculateHash := rfl
      transactions := rfl
      valid := hvalid
      merkleRoot := rfl }

end Blackstone.Bank
