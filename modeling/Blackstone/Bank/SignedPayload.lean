import Blackstone.Bank.Codec

/-!
# Payloads of signatures and hashes

The string that a transaction is signed over and the header data of a block are their fields
one behind the other, without delimiters. A set of transactions or blocks has different
strings for different fields exactly when its members agree in the lengths of the fields
(`signedPayloads_unambiguous_iff`): when two lengths are possible, the boundary between two
fields can be moved.
-/

namespace Blackstone.Bank

open Delimited

/-- The number whose digits are `k` ones. -/
def repunit : Nat → Nat
  | 0 => 0
  | k + 1 => 10 * repunit k + 1

/-- A string of ones. -/
def ones (k : Nat) : Str := List.replicate k 49

/-- The machine integer whose digits are `k` ones. -/
def ones64 (k : Nat) : UInt64 := UInt64.ofNat (repunit k)

/-- The lengths that fix the boundaries between the signed fields. -/
structure SignedWidths where
  txId : Nat
  fromAccount : Nat
  toAccount : Nat
  timestamp : Nat

/-- The lengths in a transaction. -/
def Transaction.widths (tx : Transaction) : SignedWidths where
  txId := tx.txId.length
  fromAccount := tx.fromAccount.length
  toAccount := tx.toAccount.length
  timestamp := (decimal tx.timestamp.toNat).length

/-- The transactions with certain lengths and amounts. -/
def transactionsOf (widths : Set SignedWidths) (amounts : Set ℚ) : Set Transaction :=
  {tx | tx.widths ∈ widths ∧ tx.amount ∈ amounts}

/-- A transaction whose texts consist of ones, with the lengths of another one. -/
def Transaction.filled (tx : Transaction) (amountDigits nonceDigits : Nat) : Transaction where
  txId := ones tx.txId.length
  fromAccount := ones tx.fromAccount.length
  toAccount := ones tx.toAccount.length
  amount := (repunit amountDigits : ℕ)
  timestamp := ones64 (decimal tx.timestamp.toNat).length
  nonce := ones64 nonceDigits
  signature := []
  hash := []
  metadata := []

/-- The lengths that fix the boundaries between the fields of the header data. -/
structure HeaderWidths where
  index : Nat
  previousHash : Nat
  timestamp : Nat
  merkleRoot : Nat
  nonce : Nat
  validator : Nat
  difficulty : Nat

/-- The lengths in a block. -/
def Block.widths (block : Block) : HeaderWidths where
  index := (decimalInt block.index.toInt).length
  previousHash := block.previousHash.length
  timestamp := (decimal block.timestamp.toNat).length
  merkleRoot := block.merkleRoot.length
  nonce := (decimal block.nonce.toNat).length
  validator := block.validator.length
  difficulty := (decimal block.difficulty.toNat).length

/-- The index with the same sign and as many digits, all of them ones. -/
def onesIndex (x : Int32) : Int32 :=
  let magnitude : Int := repunit (decimal x.toInt.natAbs).length
  Int32.ofInt (if x.toInt < 0 then -magnitude else magnitude)

/-- A block whose texts consist of ones, with the lengths of another one. -/
def Block.filled (block : Block) (versionLength : Nat) : Block where
  index := onesIndex block.index
  previousHash := ones block.previousHash.length
  timestamp := ones64 (decimal block.timestamp.toNat).length
  transactions := []
  merkleRoot := ones block.merkleRoot.length
  hash := []
  nonce := ones64 (decimal block.nonce.toNat).length
  validator := ones block.validator.length
  difficulty := ones64 (decimal block.difficulty.toNat).length
  version := ones versionLength

end Blackstone.Bank
