import Blackstone.Bank.AmountText
import Blackstone.Bank.Blockchain

/-!
# The text forms of transactions and blocks

`serialize` and `deserialize` of `transaction.cpp` and `block.cpp`. Both use the delimiter
`'|'`: a block writes its transactions, with their delimiters, behind its own fields, and
reads every field behind its own as a whole transaction. A transaction is read back as it
was written, up to its amount (`transaction_codec`); a block is read back exactly when it
has no transactions (`block_codec_iff`).
-/

namespace Blackstone.Bank

open Delimited

/-- How amounts are written and read; `std::stod` refuses the empty string. -/
structure AmountFormat where
  print : ℚ → Str
  parse : Str → Option ℚ
  parse_nil : parse [] = none

/-- The format of the streams. -/
def streamFormat : AmountFormat where
  print := printDouble
  parse := stod
  parse_nil := rfl

/-! ## Transactions -/

/-- `BankTransaction::serialize`. -/
def Transaction.serialize (fmt : AmountFormat) (tx : Transaction) : Str :=
  join bar [tx.txId, tx.fromAccount, tx.toAccount, fmt.print tx.amount,
    decimal tx.timestamp.toNat, decimal tx.nonce.toNat, tx.signature, tx.hash, tx.metadata]

/-- `BankTransaction::deserialize`. -/
def Transaction.deserialize (fmt : AmountFormat) (data : Str) : Option Transaction :=
  let txId := getline bar data
  let fromAccount := getline bar txId.2
  let toAccount := getline bar fromAccount.2
  let amountStr := getline bar toAccount.2
  let tsStr := getline bar amountStr.2
  let nonceStr := getline bar tsStr.2
  let signature := getline bar nonceStr.2
  let hash := getline bar signature.2
  let metadata := getline bar hash.2
  match fmt.parse amountStr.1, stoull tsStr.1, stoull nonceStr.1 with
  | some amount, some timestamp, some nonce =>
    some
      { txId := txId.1
        fromAccount := fromAccount.1
        toAccount := toAccount.1
        amount := amount
        timestamp := timestamp
        nonce := nonce
        signature := signature.1
        hash := hash.1
        metadata := metadata.1 }
  | _, _, _ => none

/-- The strings of a transaction are free of delimiters. -/
structure Transaction.BarFree (tx : Transaction) : Prop where
  txId : bar ∉ tx.txId
  fromAccount : bar ∉ tx.fromAccount
  toAccount : bar ∉ tx.toAccount
  signature : bar ∉ tx.signature
  hash : bar ∉ tx.hash
  metadata : bar ∉ tx.metadata

/-- A transaction is read back with the amount that its printed amount denotes. -/
theorem transaction_codec {fmt : AmountFormat} {tx : Transaction} (h : tx.BarFree)
    (hprint : bar ∉ fmt.print tx.amount) :
    Transaction.deserialize fmt (tx.serialize fmt) =
      (fmt.parse (fmt.print tx.amount)).map (fun amount => { tx with amount := amount }) := by
  simp only [Transaction.deserialize, Transaction.serialize, join, getline_append_cons h.txId,
    getline_append_cons h.fromAccount, getline_append_cons h.toAccount,
    getline_append_cons hprint, getline_append_cons (bar_not_mem_decimal _),
    getline_append_cons h.signature, getline_append_cons h.hash, getline_all h.metadata,
    stoull_decimal]
  cases fmt.parse (fmt.print tx.amount) <;> rfl

/-- A text without delimiters is no transaction. -/
theorem transaction_deserialize_of_not_mem (fmt : AmountFormat) {token : Str}
    (h : bar ∉ token) : Transaction.deserialize fmt token = none := by
  simp only [Transaction.deserialize, getline_all h, getline_nil, fmt.parse_nil]

/-! ## Blocks -/

/-- `Block::serialize`. -/
def Block.serialize (fmt : AmountFormat) (block : Block) : Str :=
  block.transactions.foldl (fun text tx => text ++ bar :: tx.serialize fmt)
    (join bar [decimalInt block.index.toInt, block.previousHash, decimal block.timestamp.toNat,
      block.merkleRoot, block.hash, decimal block.nonce.toNat, block.validator,
      decimal block.difficulty.toNat, block.version])

/-- The body of the loop of `Block::deserialize`, over the fields that the loop reads. -/
def readTransactions (fmt : AmountFormat) : List Str → Option (List Transaction)
  | [] => some []
  | txData :: fields =>
    if txData = [] then readTransactions fmt fields
    else
      match Transaction.deserialize fmt txData with
      | none => none
      | some tx => (readTransactions fmt fields).map (tx :: ·)

/-- `Block::deserialize`. -/
def Block.deserialize (fmt : AmountFormat) (data : Str) : Option Block :=
  let indexStr := getline bar data
  let previousHash := getline bar indexStr.2
  let tsStr := getline bar previousHash.2
  let merkleRoot := getline bar tsStr.2
  let hash := getline bar merkleRoot.2
  let nonceStr := getline bar hash.2
  let validator := getline bar nonceStr.2
  let diffStr := getline bar validator.2
  let version := getline bar diffStr.2
  match stoi indexStr.1, stoull tsStr.1, stoull nonceStr.1, stoull diffStr.1,
      readTransactions fmt (getlines bar version.2.length version.2) with
  | some index, some timestamp, some nonce, some difficulty, some transactions =>
    some
      { index := index
        previousHash := previousHash.1
        timestamp := timestamp
        transactions := transactions
        merkleRoot := merkleRoot.1
        hash := hash.1
        nonce := nonce
        validator := validator.1
        difficulty := difficulty
        version := version.1 }
  | _, _, _, _, _ => none

/-- The strings of a block and of its transactions are free of delimiters. -/
structure Block.BarFree (block : Block) : Prop where
  previousHash : bar ∉ block.previousHash
  merkleRoot : bar ∉ block.merkleRoot
  hash : bar ∉ block.hash
  validator : bar ∉ block.validator
  version : bar ∉ block.version
  transactions : ∀ tx ∈ block.transactions, tx.BarFree

/-- Fields without delimiters yield no transaction: they are skipped when they are empty,
and refused otherwise. -/
theorem readTransactions_of_not_mem (fmt : AmountFormat) {fields : List Str}
    (h : ∀ field ∈ fields, bar ∉ field) :
    readTransactions fmt fields = if ∀ field ∈ fields, field = [] then some [] else none := by
  induction fields with
  | nil =>
    rw [if_pos]
    · rfl
    · intro field hfield
      cases hfield
  | cons field fields ih =>
    rw [readTransactions]
    by_cases hnil : field = []
    · rw [if_pos hnil, ih (fun f hf => h f (List.mem_cons_of_mem _ hf))]
      simp [hnil]
    · rw [if_neg hnil, transaction_deserialize_of_not_mem fmt (h field List.mem_cons_self)]
      simp [hnil]

/-- Whatever text a block is read from, it has no transactions. -/
theorem transactions_of_deserialize {fmt : AmountFormat} {data : Str} {block : Block}
    (h : Block.deserialize fmt data = some block) : block.transactions = [] := by
  simp only [Block.deserialize] at h
  rw [readTransactions_of_not_mem fmt (fun _ hfield => not_mem_of_mem_getlines hfield)] at h
  split at h
  · rename_i htransactions
    rw [← Option.some.inj h]
    split at htransactions
    · exact (Option.some.inj htransactions).symm
    · cases htransactions
  · cases h

/-- A block is read back as it was written exactly when it has no transactions. -/
theorem block_codec_iff (fmt : AmountFormat) {block : Block} (h : block.BarFree) :
    Block.deserialize fmt (block.serialize fmt) = some block ↔ block.transactions = [] := by
  constructor
  · exact transactions_of_deserialize
  · intro hnil
    simp only [Block.deserialize, Block.serialize, hnil, List.foldl_nil, join,
      getline_append_cons (bar_not_mem_decimalInt _), getline_append_cons h.previousHash,
      getline_append_cons (bar_not_mem_decimal _), getline_append_cons h.merkleRoot,
      getline_append_cons h.hash, getline_append_cons h.validator, getline_all h.version,
      stoi_decimalInt, stoull_decimal]
    show some { block with transactions := [] } = some block
    rw [← hnil]

/-- A block with one transaction of a whole amount. -/
def paidBlock : Block where
  index := 1
  previousHash := ascii "p"
  timestamp := 7
  transactions :=
    [{ txId := ascii "t"
       fromAccount := ascii "Alice"
       toAccount := ascii "Bob"
       amount := 5
       timestamp := 3
       nonce := 4
       signature := ascii "s"
       hash := ascii "h"
       metadata := [] }]
  merkleRoot := ascii "m"
  hash := ascii "b"
  nonce := 2
  validator := ascii "v"
  difficulty := 4
  version := ascii "1"

/-- The same block without its transaction. -/
theorem emptyBlock_codec :
    Block.deserialize streamFormat
        (Block.serialize streamFormat { paidBlock with transactions := [] }) =
      some { paidBlock with transactions := [] } ↔ ([] : List Transaction) = [] :=
  block_codec_iff streamFormat
    ⟨by decide, by decide, by decide, by decide, by decide, fun _ htx => (nomatch htx)⟩

/-- `std::stod` throws on the first field of the transaction. -/
theorem paidBlock_not_read :
    Block.deserialize streamFormat (paidBlock.serialize streamFormat) = none := by
  apply Option.isNone_iff_eq_none.mp
  decide +kernel

theorem foldl_serialize (fmt : AmountFormat) (text : Str) (transactions : List Transaction) :
    transactions.foldl (fun text tx => text ++ bar :: tx.serialize fmt) text =
      text ++ transactions.flatMap (fun tx => bar :: tx.serialize fmt) := by
  induction transactions generalizing text with
  | nil => exact (List.append_nil text).symm
  | cons tx transactions ih => rw [List.foldl_cons, ih, List.flatMap_cons, List.append_assoc]

/-- Where printed amounts are not empty and free of delimiters, the reader throws on every
block that has transactions. -/
theorem deserialize_of_transactions {fmt : AmountFormat} {block : Block} (h : block.BarFree)
    (hprint : ∀ amount, fmt.print amount ≠ [] ∧ bar ∉ fmt.print amount)
    (hne : block.transactions ≠ []) :
    Block.deserialize fmt (block.serialize fmt) = none := by
  obtain ⟨tx, transactions, hcons⟩ := List.exists_cons_of_ne_nil hne
  obtain ⟨b, hb⟩ := List.exists_mem_of_ne_nil _ (hprint tx.amount).1
  have htail : b ∈ tx.serialize fmt ++
      transactions.flatMap (fun tx => bar :: tx.serialize fmt) := by
    simp [Transaction.serialize, join, hb]
  have hrefused : readTransactions fmt (getlines bar
      (tx.serialize fmt ++ transactions.flatMap (fun tx => bar :: tx.serialize fmt)).length
      (tx.serialize fmt ++ transactions.flatMap (fun tx => bar :: tx.serialize fmt))) = none := by
    rw [readTransactions_of_not_mem fmt (fun _ hfield => not_mem_of_mem_getlines hfield), if_neg]
    intro hempty
    rw [eq_of_mem_of_getlines (Nat.le_refl _) hempty htail] at hb
    exact (hprint tx.amount).2 hb
  simp only [Block.deserialize, Block.serialize, hcons, foldl_serialize, List.flatMap_cons, join,
    List.append_assoc, List.cons_append,
    getline_append_cons (bar_not_mem_decimalInt _), getline_append_cons h.previousHash,
    getline_append_cons (bar_not_mem_decimal _), getline_append_cons h.merkleRoot,
    getline_append_cons h.hash, getline_append_cons h.validator, getline_append_cons h.version,
    stoi_decimalInt, stoull_decimal, hrefused]

end Blackstone.Bank
