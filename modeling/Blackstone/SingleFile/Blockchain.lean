import Mathlib.Algebra.Order.Ring.Rat
import Mathlib.Tactic.NormNum
import Blackstone.Bank.MerkleTree
import Blackstone.Library.DefaultMap

/-!
# The chain of the single-file program

`BankingBlockchain` of `app.cpp`. Its `addBlock` checks a transaction and applies it before
it looks at the next one, and returns at the first one that fails. What was applied before
stays applied: `addBlock_atomic_iff` says that a refused call leaves no trace exactly when
it fails on the first transaction.
-/

namespace Blackstone.SingleFile

open Bank (Str ascii decimal decimalInt toString6 sha1 sha1Double sha1Hmac computeMerkleRoot)
open DefaultMap

/-- `BankTransactionCore::Transaction`. -/
structure Transaction where
  txId : Str
  fromAccount : Str
  toAccount : Str
  amount : ℚ
  timestamp : UInt64
  nonce : UInt64
  signature : Str
  hash : Str

/-- The string `data` that is signed. -/
def Transaction.data (tx : Transaction) : Str :=
  tx.txId ++ tx.fromAccount ++ tx.toAccount ++ toString6 tx.amount ++
    decimal tx.timestamp.toNat ++ decimal tx.nonce.toNat

/-- `BankTransactionCore::verifyTransaction`. -/
def verifyTransaction (tx : Transaction) (publicKey : Str) : Bool :=
  decide (sha1Hmac publicKey tx.data = tx.signature)

/-- `BankTransactionCore::calculateMerkleRoot`. -/
def calculateMerkleRoot (transactions : List Transaction) : Str :=
  computeMerkleRoot sha1 (transactions.map Transaction.hash)

/-- `BankingBlockchain::Block`. -/
structure Block where
  index : Int32
  previousHash : Str
  timestamp : UInt64
  transactions : List Transaction
  merkleRoot : Str
  hash : Str
  nonce : UInt64
  validator : Str

/-- `BankingBlockchain::calculateHash`. -/
def calculateHash (block : Block) : Str :=
  sha1Double (decimalInt block.index.toInt ++ block.previousHash ++
    decimal block.timestamp.toNat ++ block.merkleRoot ++ decimal block.nonce.toNat ++
    block.validator)

/-- `BankingBlockchain`, without its lock, its logger and the name of its validator. -/
structure BankingBlockchain where
  chain : List Block
  balances : Map Str ℚ
  accountTransactions : Map Str (List Str)
  nonempty : chain ≠ []

/-- `BankingBlockchain::createGenesisBlock`, with the reading of the clock. -/
def createGenesisBlock (timestamp : UInt64) : Block :=
  let genesis : Block :=
    { index := 0
      previousHash := sha1 (ascii "GENESIS")
      timestamp := timestamp
      transactions := []
      merkleRoot := sha1 (ascii "GENESIS_BLOCK")
      hash := []
      nonce := 0
      validator := ascii "SYSTEM" }
  { genesis with hash := calculateHash genesis }

/-- The constructor. -/
def BankingBlockchain.create (timestamp : UInt64) : BankingBlockchain where
  chain := [createGenesisBlock timestamp]
  balances := ∅
  accountTransactions := ∅
  nonempty := List.cons_ne_nil _ _

/-- The mining loop of `addBlock`, on the random numbers it draws. A block without a fitting
nonce keeps its empty hash. -/
def mineLoop (block : Block) (nonces : Nat → UInt64) : (remaining attempt : Nat) → Block
  | 0, _ => block
  | remaining + 1, attempt =>
    let tried := { block with nonce := nonces attempt }
    if (calculateHash tried).take 4 = ascii "0000" then { tried with hash := calculateHash tried }
    else mineLoop tried nonces remaining (attempt + 1)

/-- The block that `addBlock` builds. Irreducible, so that no proof evaluates it by
accident. -/
@[irreducible] def BankingBlockchain.minedBlock (s : BankingBlockchain)
    (transactions : List Transaction) (validator : Str) (timestamp : UInt64)
    (nonces : Nat → UInt64) : Block :=
  mineLoop
    { index := Int32.ofNat s.chain.length
      previousHash := (s.chain.getLast s.nonempty).hash
      timestamp := timestamp
      transactions := transactions
      merkleRoot := calculateMerkleRoot transactions
      hash := []
      nonce := 0
      validator := validator } nonces 1000000 0

/-- The four statements that apply a transaction. -/
def BankingBlockchain.applyTransaction (s : BankingBlockchain) (tx : Transaction) :
    BankingBlockchain :=
  { s with
    balances := move s.balances tx.fromAccount tx.toAccount tx.amount
    accountTransactions :=
      modifyAt (modifyAt s.accountTransactions tx.fromAccount (· ++ [tx.txId]))
        tx.toAccount (· ++ [tx.txId]) }

/-- The loop of `addBlock` over the transactions. -/
def BankingBlockchain.applyLoop (s : BankingBlockchain) :
    List Transaction → Bool × BankingBlockchain
  | [] => (true, s)
  | tx :: transactions =>
    if verifyTransaction tx tx.fromAccount then
      if readAt s.balances tx.fromAccount ≥ tx.amount then
        (s.applyTransaction tx).applyLoop transactions
      else (false, { s with balances := touch s.balances tx.fromAccount })
    else (false, s)

/-- `BankingBlockchain::addBlock`, with the clock and the random numbers it reads. -/
def BankingBlockchain.addBlock (s : BankingBlockchain) (transactions : List Transaction)
    (validator : Str) (timestamp : UInt64) (nonces : Nat → UInt64) : Bool × BankingBlockchain :=
  let newBlock := s.minedBlock transactions validator timestamp nonces
  let applied := s.applyLoop transactions
  if !applied.1 then (false, applied.2)
  else
    (true, { applied.2 with
      chain := applied.2.chain ++ [newBlock]
      nonempty := List.append_ne_nil_of_right_ne_nil _ (List.cons_ne_nil _ _) })

/-! ## Traces -/

/-- The same chain, the same balance and the same list of transactions for every account. -/
structure SameView (s' s : BankingBlockchain) : Prop where
  chain : s'.chain = s.chain
  balances : ∀ account, readAt s'.balances account = readAt s.balances account
  accountTransactions : ∀ account,
    readAt s'.accountTransactions account = readAt s.accountTransactions account

/-- The transaction is correctly signed and covered by the balance of its sender. -/
def Acceptable (s : BankingBlockchain) (tx : Transaction) : Prop :=
  verifyTransaction tx tx.fromAccount = true ∧ tx.amount ≤ readAt s.balances tx.fromAccount

/-- Every transaction is acceptable after the ones before it. -/
def AllAcceptable (s : BankingBlockchain) : List Transaction → Prop
  | [] => True
  | tx :: transactions => Acceptable s tx ∧ AllAcceptable (s.applyTransaction tx) transactions

theorem applyLoop_cons_of_acceptable {s : BankingBlockchain} {tx : Transaction}
    (h : Acceptable s tx) (transactions : List Transaction) :
    s.applyLoop (tx :: transactions) = (s.applyTransaction tx).applyLoop transactions := by
  rw [BankingBlockchain.applyLoop, if_pos h.1, if_pos h.2]

/-- A transaction that is not acceptable ends the loop and leaves no trace of its own. -/
theorem applyLoop_cons_of_refused {s : BankingBlockchain} {tx : Transaction}
    (h : ¬ Acceptable s tx) (transactions : List Transaction) :
    (s.applyLoop (tx :: transactions)).1 = false ∧
      SameView (s.applyLoop (tx :: transactions)).2 s := by
  rw [BankingBlockchain.applyLoop]
  split
  · rename_i hsigned
    rw [if_neg (fun hcovered => h ⟨hsigned, hcovered⟩)]
    exact ⟨rfl, rfl, fun account => readAt_touch _ _ _, fun _ => rfl⟩
  · exact ⟨rfl, rfl, fun _ => rfl, fun _ => rfl⟩

theorem applyLoop_true_iff (s : BankingBlockchain) (transactions : List Transaction) :
    (s.applyLoop transactions).1 = true ↔ AllAcceptable s transactions := by
  induction transactions generalizing s with
  | nil => exact ⟨fun _ => trivial, fun _ => rfl⟩
  | cons tx transactions ih =>
    by_cases h : Acceptable s tx
    · rw [applyLoop_cons_of_acceptable h, ih, AllAcceptable, and_iff_right h]
    · rw [(applyLoop_cons_of_refused h transactions).1, AllAcceptable]
      exact ⟨fun hfalse => absurd hfalse Bool.false_ne_true, fun hall => absurd hall.1 h⟩

theorem length_readAt_push (listed : Map Str (List Str)) (account k : Str) (txId : Str) :
    (readAt listed k).length ≤ (readAt (modifyAt listed account (· ++ [txId])) k).length := by
  rw [readAt_modifyAt]
  split
  · rename_i heq
    rw [heq, List.length_append]
    exact Nat.le_add_right _ _
  · exact Nat.le_refl _

theorem length_listed_applyTransaction (s : BankingBlockchain) (tx : Transaction)
    (account : Str) :
    (readAt s.accountTransactions account).length ≤
      (readAt (s.applyTransaction tx).accountTransactions account).length :=
  Nat.le_trans (length_readAt_push _ _ _ _) (length_readAt_push _ _ _ _)

/-- Transaction lists only grow. -/
theorem length_listed_applyLoop (s : BankingBlockchain) (transactions : List Transaction)
    (account : Str) :
    (readAt s.accountTransactions account).length ≤
      (readAt (s.applyLoop transactions).2.accountTransactions account).length := by
  induction transactions generalizing s with
  | nil => exact Nat.le_refl _
  | cons tx transactions ih =>
    by_cases h : Acceptable s tx
    · rw [applyLoop_cons_of_acceptable h]
      exact Nat.le_trans (length_listed_applyTransaction s tx account) (ih _)
    · rw [(applyLoop_cons_of_refused h transactions).2.accountTransactions]

/-- An applied transaction is listed. -/
theorem length_listed_lt (s : BankingBlockchain) (tx : Transaction) :
    (readAt s.accountTransactions tx.fromAccount).length <
      (readAt (s.applyTransaction tx).accountTransactions tx.fromAccount).length := by
  apply Nat.lt_of_lt_of_le ?_ (length_readAt_push _ _ _ _)
  rw [readAt_modifyAt_self, List.length_append]
  exact Nat.lt_succ_self _

/-- Once a transaction is applied, its sender sees it. -/
theorem not_sameView_of_acceptable {s : BankingBlockchain} {tx : Transaction}
    (h : Acceptable s tx) (transactions : List Transaction) :
    ¬ SameView (s.applyLoop (tx :: transactions)).2 s := by
  intro hview
  rw [applyLoop_cons_of_acceptable h] at hview
  have hgrown := Nat.lt_of_lt_of_le (length_listed_lt s tx)
    (length_listed_applyLoop (s.applyTransaction tx) transactions tx.fromAccount)
  rw [hview.accountTransactions] at hgrown
  exact Nat.lt_irrefl _ hgrown

/-! ## Refused calls -/

/-- A call that returns false leaves no trace. -/
def AtomicInsertion (s : BankingBlockchain) (transactions : List Transaction) (validator : Str)
    (timestamp : UInt64) (nonces : Nat → UInt64) : Prop :=
  (s.addBlock transactions validator timestamp nonces).1 = false →
    SameView (s.addBlock transactions validator timestamp nonces).2 s

/-- The first transaction is not acceptable. -/
def FirstRefused (s : BankingBlockchain) : List Transaction → Prop
  | [] => False
  | tx :: _ => ¬ Acceptable s tx

theorem addBlock_result (s : BankingBlockchain) (transactions : List Transaction)
    (validator : Str) (timestamp : UInt64) (nonces : Nat → UInt64) :
    (s.addBlock transactions validator timestamp nonces).1 = (s.applyLoop transactions).1 ∧
      ((s.applyLoop transactions).1 = false →
        (s.addBlock transactions validator timestamp nonces).2 = (s.applyLoop transactions).2) := by
  simp only [BankingBlockchain.addBlock]
  cases hresult : (s.applyLoop transactions).1 with
  | true => exact ⟨rfl, fun h => absurd h.symm Bool.false_ne_true⟩
  | false => exact ⟨rfl, fun _ => rfl⟩

/-- A refused call leaves no trace exactly when the call is not refused at all or fails on
its first transaction. -/
theorem addBlock_atomic_iff (s : BankingBlockchain) (transactions : List Transaction)
    (validator : Str) (timestamp : UInt64) (nonces : Nat → UInt64) :
    AtomicInsertion s transactions validator timestamp nonces ↔
      AllAcceptable s transactions ∨ FirstRefused s transactions := by
  obtain ⟨hresult, hstate⟩ := addBlock_result s transactions validator timestamp nonces
  rw [AtomicInsertion, hresult, ← applyLoop_true_iff]
  cases transactions with
  | nil => exact ⟨fun _ => Or.inl rfl, fun _ h => absurd h.symm Bool.false_ne_true⟩
  | cons tx transactions =>
    by_cases hfirst : Acceptable s tx
    · constructor
      · intro hatomic
        by_contra hno
        have hfalse : (s.applyLoop (tx :: transactions)).1 = false := by
          rw [← Bool.not_eq_true]
          exact fun htrue => hno (Or.inl htrue)
        have hview := hatomic hfalse
        rw [hstate hfalse] at hview
        exact not_sameView_of_acceptable hfirst transactions hview
      · intro hor hfalse
        rcases hor with htrue | hrefused
        · rw [htrue] at hfalse
          cases hfalse
        · exact absurd hfirst hrefused
    · obtain ⟨hfalse, hview⟩ := applyLoop_cons_of_refused hfirst transactions
      constructor
      · intro _
        exact Or.inr hfirst
      · intro _ _
        rw [hstate hfalse]
        exact hview

/-- A transfer of an amount, signed with the name of its sender. -/
def signedTransfer (amount : ℚ) : Transaction :=
  let tx : Transaction :=
    { txId := ascii "t1"
      fromAccount := ascii "Alice"
      toAccount := ascii "Bob"
      amount := amount
      timestamp := 1
      nonce := 1
      signature := []
      hash := [] }
  { tx with signature := sha1Hmac tx.fromAccount tx.data }

theorem signedTransfer_acceptable_iff {s : BankingBlockchain} {amount : ℚ} :
    Acceptable s (signedTransfer amount) ↔ amount ≤ readAt s.balances (ascii "Alice") :=
  and_iff_right (decide_eq_true rfl)

/-- A transfer of nothing and a transfer that is not covered: the first one stays. -/
theorem addBlock_leaves_trace :
    ¬ AtomicInsertion (BankingBlockchain.create 0) [signedTransfer 0, signedTransfer 5]
      (ascii "bank") 0 (fun _ => 0) := by
  intro hatomic
  obtain ⟨hresult, hstate⟩ := addBlock_result (BankingBlockchain.create 0)
    [signedTransfer 0, signedTransfer 5] (ascii "bank") 0 (fun _ => 0)
  have hempty : ∀ account, readAt (BankingBlockchain.create 0).balances account = 0 :=
    fun account => readAt_empty account
  have hfirst : Acceptable (BankingBlockchain.create 0) (signedTransfer 0) := by
    rw [signedTransfer_acceptable_iff, hempty]
  have hsecond : ¬ Acceptable ((BankingBlockchain.create 0).applyTransaction (signedTransfer 0))
      (signedTransfer 5) := by
    rw [signedTransfer_acceptable_iff]
    show ¬ 5 ≤ readAt (move _ _ _ (0 : ℚ)) _
    rw [readAt_move, hempty]
    norm_num
  have hfalse : ((BankingBlockchain.create 0).applyLoop
      [signedTransfer 0, signedTransfer 5]).1 = false := by
    rw [applyLoop_cons_of_acceptable hfirst, (applyLoop_cons_of_refused hsecond []).1]
  have hview := hatomic (hresult.trans hfalse)
  rw [hstate hfalse] at hview
  exact not_sameView_of_acceptable hfirst _ hview

end Blackstone.SingleFile
