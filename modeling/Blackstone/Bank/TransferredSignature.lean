import Blackstone.Bank.Codec

/-!
# Signatures of transferred transactions

A signature covers the amount with six digits after the point; `serialize` writes the amount
with six significant digits. A transaction that was signed, written and read back is signed
for another amount unless its amount has at most six significant digits
(`transferred_verify_iff`).
-/

namespace Blackstone.Bank

open SignificantDigits

/-! ## Transfer -/

/-- The transaction with the amount that it has after a transfer. -/
def Transaction.transferred (tx : Transaction) : Transaction :=
  { tx with amount := roundSignificant 5 tx.amount }

/-- The string whose hash is the signature. -/
def Transaction.signedText (tx : Transaction) (key : Str) : Str := key ++ tx.data ++ key

/-- Two different strings with one hash. -/
def Sha1Collision (x y : Str) : Prop := x ≠ y ∧ sha1 x = sha1 y

theorem createTransaction_barFree {source target : Str} (hsource : bar ∉ source)
    (htarget : bar ∉ target) (amount : ℚ) (key : Str) (timestamp nonce : UInt64) :
    (createTransaction source target amount key timestamp nonce).BarFree where
  txId := bar_not_mem_sha1 _
  fromAccount := hsource
  toAccount := htarget
  signature := bar_not_mem_sha1 _
  hash := bar_not_mem_sha1 _
  metadata := List.not_mem_nil

/-- What the receiver of a transaction reads. -/
theorem deserialize_serialize_transferred {tx : Transaction} (h : tx.BarFree) :
    Transaction.deserialize streamFormat (tx.serialize streamFormat) = some tx.transferred := by
  rw [transaction_codec h (bar_not_mem_printDouble tx.amount)]
  show (stod (printDouble tx.amount)).map _ = _
  rw [stod_printDouble]
  rfl

/-- The signed string of a whole amount survives the transfer exactly when the amount does. -/
theorem signedText_transferred_iff {tx : Transaction} {n : ℕ} (h : tx.amount = n) (key : Str) :
    tx.transferred.signedText key = tx.signedText key ↔ HasDigits 5 tx.amount := by
  obtain ⟨r, hr⟩ := exists_roundSignificant_natCast 5 n
  have hround : tx.transferred.amount = r := by
    rw [← hr, ← h]
    rfl
  have hdata : tx.transferred.data = tx.txId ++ tx.fromAccount ++ tx.toAccount ++
      toString6 tx.transferred.amount ++ decimal tx.timestamp.toNat ++ decimal tx.nonce.toNat :=
    rfl
  rw [← roundSignificant_eq_self_iff, Transaction.signedText, Transaction.signedText,
    List.append_left_inj, List.append_right_inj, hdata, Transaction.data, List.append_left_inj,
    List.append_left_inj, List.append_right_inj, hround, h, toString6_natCast_inj, hr,
    Nat.cast_inj]

/-- The receiver of a created transaction of a whole amount verifies its signature exactly
when the amount has at most six significant digits, or the two signed strings, that differ
then, have one hash. -/
theorem transferred_verify_iff {source target : Str} (hsource : bar ∉ source)
    (htarget : bar ∉ target) (n : ℕ) (key : Str) (timestamp nonce : UInt64) :
    (∃ received, Transaction.deserialize streamFormat
        ((createTransaction source target n key timestamp nonce).serialize streamFormat) =
          some received ∧ verifyTransaction received key = true) ↔
      HasDigits 5 (n : ℚ) ∨
        Sha1Collision
          ((createTransaction source target n key timestamp nonce).transferred.signedText key)
          ((createTransaction source target n key timestamp nonce).signedText key) := by
  have hfree := createTransaction_barFree hsource htarget n key timestamp nonce
  obtain ⟨tx, htx⟩ : ∃ tx, tx = createTransaction source target n key timestamp nonce :=
    ⟨_, rfl⟩
  have hamount : tx.amount = n := by
    rw [htx]
    rfl
  have hsigned : tx.signature = sha1 (tx.signedText key) := by
    rw [htx]
    rfl
  rw [← htx] at hfree ⊢
  have hverify : verifyTransaction tx.transferred key = true ↔
      sha1 (tx.transferred.signedText key) = sha1 (tx.signedText key) := by
    rw [← hsigned]
    exact decide_eq_true_iff
  have htext := signedText_transferred_iff hamount key
  rw [deserialize_serialize_transferred hfree, ← hamount, ← htext, Sha1Collision]
  constructor
  · rintro ⟨received, hreceived, haccepted⟩
    rw [← Option.some.inj hreceived, hverify] at haccepted
    by_cases hsame : tx.transferred.signedText key = tx.signedText key
    · exact Or.inl hsame
    · exact Or.inr ⟨hsame, haccepted⟩
  · intro h
    refine ⟨tx.transferred, rfl, hverify.mpr ?_⟩
    rcases h with hsame | hcollision
    · rw [hsame]
    · exact hcollision.2

/-- A transaction of 250 from Alice to Bob. -/
theorem transferred_verify_iff_250 :
    (∃ received, Transaction.deserialize streamFormat
        ((createTransaction (ascii "Alice") (ascii "Bob") (250 : ℕ) (ascii "key") 3 4).serialize
          streamFormat) = some received ∧ verifyTransaction received (ascii "key") = true) ↔
      HasDigits 5 ((250 : ℕ) : ℚ) ∨
        Sha1Collision
          ((createTransaction (ascii "Alice") (ascii "Bob") (250 : ℕ) (ascii "key") 3
            4).transferred.signedText (ascii "key"))
          ((createTransaction (ascii "Alice") (ascii "Bob") (250 : ℕ) (ascii "key") 3
            4).signedText (ascii "key")) :=
  transferred_verify_iff (by decide) (by decide) 250 (ascii "key") 3 4

/-- The amount 1234567 is written as `1.23457e+06`. -/
theorem transferred_1234567_refused :
    ¬ ∃ received, Transaction.deserialize streamFormat
        ((createTransaction (ascii "Alice") (ascii "Bob") (1234567 : ℕ) (ascii "key") 3
          4).serialize streamFormat) = some received ∧
        verifyTransaction received (ascii "key") = true := by
  have hrefused : (Transaction.deserialize streamFormat
      ((createTransaction (ascii "Alice") (ascii "Bob") (1234567 : ℕ) (ascii "key") 3
        4).serialize streamFormat)).any
      (fun received => verifyTransaction received (ascii "key")) = false := by
    decide +kernel
  rintro ⟨received, hread, haccepted⟩
  rw [hread, Option.any_some, haccepted] at hrefused
  cases hrefused

end Blackstone.Bank
