import Blackstone.Bank.MerkleTree

/-!
# Transactions of the banking system

`transaction.cpp`. A transaction is signed with a hash over its fields under a key, and it
is verified by hashing the same fields again.
-/

namespace Blackstone.Bank

/-- `BankTransaction::Transaction`. -/
structure Transaction where
  txId : Str
  fromAccount : Str
  toAccount : Str
  amount : ℚ
  timestamp : UInt64
  nonce : UInt64
  signature : Str
  hash : Str
  metadata : Str

/-- The string `data` that is signed. -/
def Transaction.data (tx : Transaction) : Str :=
  tx.txId ++ tx.fromAccount ++ tx.toAccount ++ toString6 tx.amount ++
    decimal tx.timestamp.toNat ++ decimal tx.nonce.toNat

/-- `BankTransaction::generateTxId`. -/
def generateTxId (source target : Str) (amount : ℚ) (timestamp nonce : UInt64) : Str :=
  sha1 (source ++ target ++ toString6 amount ++ decimal timestamp.toNat ++ decimal nonce.toNat)

/-- `BankTransaction::calculateHash`. -/
def Transaction.calculateHash (tx : Transaction) : Str := sha1Double (tx.data ++ tx.signature)

/-- The transaction with its signature under a key. -/
def Transaction.sign (tx : Transaction) (privateKey : Str) : Transaction :=
  { tx with signature := sha1Hmac privateKey tx.data }

/-- `BankTransaction::createTransaction`, from the clock and the random number it reads. -/
def createTransaction (source target : Str) (amount : ℚ) (privateKey : Str)
    (timestamp nonce : UInt64) : Transaction :=
  let tx : Transaction :=
    { txId := generateTxId source target amount timestamp nonce
      fromAccount := source
      toAccount := target
      amount := amount
      timestamp := timestamp
      nonce := nonce
      signature := []
      hash := []
      metadata := [] }
  let signed := tx.sign privateKey
  { signed with hash := signed.calculateHash }

/-- `BankTransaction::verifyTransaction`. -/
def verifyTransaction (tx : Transaction) (publicKey : Str) : Bool :=
  decide (sha1Hmac publicKey tx.data = tx.signature)

/-- `BankTransaction::calculateMerkleRoot`, the loop of `computeMerkleRoot` over the hashes
of the transactions. -/
def calculateMerkleRoot (transactions : List Transaction) : Str :=
  computeMerkleRoot sha1 (transactions.map Transaction.hash)

@[simp] theorem verifyTransaction_sign (tx : Transaction) (key : Str) :
    verifyTransaction (tx.sign key) key = true :=
  decide_eq_true rfl

end Blackstone.Bank
