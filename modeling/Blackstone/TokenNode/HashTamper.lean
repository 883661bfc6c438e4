import Blackstone.Library.SingleChange
import Blackstone.TokenNode.Hash
import Blackstone.TokenNode.TxPool

/-!
# Changes of a single byte

Each round of `hash_compute` is injective, in the states and in the byte: the byte is combined
by an exclusive or and the result multiplied by an odd constant. So the states stay apart
after two texts have differed in one byte, and the digest begins with the states.

`singleByte_detected` says so for the digest, for `hash_verify` and for the fields that
`tx_compute_hash` covers.
-/

namespace Blackstone.TokenNode

open SingleChange

/-- `hash_verify`, for pointers that are not `NULL`. -/
def hashVerify (hash : Hash) (data : List UInt8) : Bool := decide (hash = hashCompute data)

/-- The bytes that `tx_compute_hash` copies into its buffer, one field behind the other. -/
def txBuffer (tx : Transaction) : List UInt8 :=
  tx.sender.bytes.toList ++ tx.receiver.bytes.toList ++ leBytes 8 tx.amount.toNat ++
    leBytes 4 tx.tokenId.toNat ++ leBytes 8 tx.timestamp.toNat ++ leBytes 8 tx.nonce.toNat ++
    leBytes 4 tx.fee.toNat

/-- `tx_compute_hash`. -/
def txComputeHash (tx : Transaction) : Transaction :=
  { tx with txHash := hashCompute (txBuffer tx) }

/-! ## The fields of the buffer -/

/-- The fields that are copied. -/
inductive TxField where
  | sender | receiver | amount | tokenId | timestamp | nonce | fee
  deriving DecidableEq

/-- All fields, in the order of the buffer. -/
def TxField.all : List TxField :=
  [.sender, .receiver, .amount, .tokenId, .timestamp, .nonce, .fee]

/-- A field as it lies in memory. -/
def Transaction.fieldBytes (tx : Transaction) : TxField → List UInt8
  | .sender => tx.sender.bytes.toList
  | .receiver => tx.receiver.bytes.toList
  | .amount => leBytes 8 tx.amount.toNat
  | .tokenId => leBytes 4 tx.tokenId.toNat
  | .timestamp => leBytes 8 tx.timestamp.toNat
  | .nonce => leBytes 8 tx.nonce.toNat
  | .fee => leBytes 4 tx.fee.toNat

theorem txBuffer_eq (tx : Transaction) : txBuffer tx = TxField.all.flatMap tx.fieldBytes := by
  simp only [txBuffer, TxField.all, List.flatMap_cons, List.flatMap_nil, Transaction.fieldBytes,
    List.append_assoc, List.append_nil]

theorem TxField.nodup_all : TxField.all.Nodup := by decide

theorem TxField.mem_all (field : TxField) : field ∈ TxField.all := by
  cases field <;> decide

/-- The buffer fits into the 256 bytes that are reserved for it. -/
theorem length_txBuffer (tx : Transaction) : (txBuffer tx).length = 96 := by
  simp [txBuffer]

/-! ## The rounds -/

/-- Different bytes drive equal states apart. -/
theorem hashStep_byte_injective (h : UInt64 × UInt64) : Function.Injective (hashStep h) := by
  intro a b heq
  have hfst := mul_right_cancel_of_inv 0xce965057aff6957b (by decide) (Prod.mk.inj heq).1
  have hbyte := congrArg UInt64.toNat ((UInt64.xor_right_inj _).mp hfst)
  rwa [UInt8.toNat_toUInt64, UInt8.toNat_toUInt64, UInt8.toNat_inj] at hbyte

theorem hashStep_state_injective (b : UInt8) : Function.Injective fun h => hashStep h b :=
  fun _ _ heq => hashStep_inj b heq

theorem hashCompute_ne {xs ys : List UInt8} (h : DifferInOne xs ys) :
    hashCompute xs ≠ hashCompute ys := by
  intro heq
  have hstates := hashCompute_append_inj xs ys []
  rw [List.append_nil, List.append_nil] at hstates
  exact h.foldl_ne hashStep_state_injective hashStep_byte_injective _ (hstates.mp heq)

/-- A transaction with one byte of one field changed. -/
def FieldTampered (tx tx' : Transaction) (field : TxField) : Prop :=
  (∀ other, other ≠ field → tx.fieldBytes other = tx'.fieldBytes other) ∧
    DifferInOne (tx.fieldBytes field) (tx'.fieldBytes field)

theorem FieldTampered.differInOne {tx tx' : Transaction} {field : TxField}
    (h : FieldTampered tx tx' field) : DifferInOne (txBuffer tx) (txBuffer tx') := by
  rw [txBuffer_eq, txBuffer_eq]
  exact h.2.flatMap h.1 TxField.nodup_all field.mem_all

/-- Texts that differ in one byte have different digests, and the digest of one does not
verify the other. A transaction with one byte of a covered field changed has another hash. -/
theorem singleByte_detected (data data' : List UInt8) (tx tx' : Transaction) (field : TxField) :
    (DifferInOne data data' →
        hashCompute data ≠ hashCompute data' ∧ hashVerify (hashCompute data) data' = false) ∧
      (FieldTampered tx tx' field → (txComputeHash tx).txHash ≠ (txComputeHash tx').txHash) := by
  refine ⟨?_, ?_⟩
  · intro hdata
    exact ⟨hashCompute_ne hdata, decide_eq_false (hashCompute_ne hdata)⟩
  · intro htx
    exact hashCompute_ne htx.differInOne

/-- A fee of 1 in place of 0, and the text `01 02` in place of `01 00`. -/
theorem changedFee_detected :
    hashCompute [1, 0] ≠ hashCompute [1, 2] ∧
      (txComputeHash Transaction.zero).txHash ≠
        (txComputeHash { Transaction.zero with fee := 1 }).txHash := by
  have hdata : DifferInOne [(1 : UInt8), 0] [1, 2] := differInOne_parts (by decide) [1] []
  have hfee : DifferInOne (Transaction.zero.fieldBytes .fee)
      ({ Transaction.zero with fee := 1 }.fieldBytes .fee) :=
    differInOne_parts (by decide : (0 : UInt8) ≠ 1) [] [0, 0, 0]
  have hrest : ∀ other, other ≠ TxField.fee → Transaction.zero.fieldBytes other =
      { Transaction.zero with fee := 1 }.fieldBytes other := by
    intro other hne
    cases other <;> first | rfl | exact absurd rfl hne
  obtain ⟨htext, htx⟩ := singleByte_detected [1, 0] [1, 2] Transaction.zero
    { Transaction.zero with fee := 1 } .fee
  exact ⟨(htext hdata).1, htx ⟨hrest, hfee⟩⟩

end Blackstone.TokenNode
