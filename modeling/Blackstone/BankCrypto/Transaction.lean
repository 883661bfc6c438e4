import Blackstone.BankCrypto.Hmac
import Blackstone.BankCrypto.Session
import Blackstone.BankCrypto.Utils

/-!
# Transactions

`transaction/bank_transaction_create.cpp` and `bank_transaction_verify.cpp`. A transaction is
verified by its `verified` mark, the hash of its signed bytes and its signature. Creation sets all
three, and `transactionSign` sets the mark and the signature only: what it signs is verified
exactly when the hash was right already (`transactions_verified_iff`). `bank_sign_data` and
`bank_verify_signature` are declared but not defined in the library; they are a parameter.
-/

namespace Blackstone.BankCrypto

/-- `bank_transaction`, without its metadata. -/
structure Transaction where
  transactionId : UInt64
  timestamp : UInt64
  fromAccount : Bytes 32
  toAccount : Bytes 32
  amount : UInt64
  currency : Bytes 8
  signature : Bytes 32
  verified : ℤ
  nonce : UInt64
  referenceHash : Bytes 32

def Transaction.zero : Transaction where
  transactionId := 0
  timestamp := 0
  fromAccount := zeroBytes 32
  toAccount := zeroBytes 32
  amount := 0
  currency := zeroBytes 8
  signature := zeroBytes 32
  verified := 0
  nonce := 0
  referenceHash := zeroBytes 32

/-- A transaction with its fields set, before it is signed. -/
def Transaction.draft (txId : UInt64) (fromAccount toAccount : Bytes 32) (amount : UInt64)
    (currency : Bytes 8) (time : ℤ) : Transaction :=
  { Transaction.zero with
    transactionId := txId
    timestamp := UInt64.ofInt time
    fromAccount := fromAccount
    toAccount := toAccount
    amount := amount
    currency := currency }

/-- The bytes of a `uint64_t` in memory. -/
def nativeBytes (x : UInt64) : List UInt8 :=
  (List.range 8).map fun i => (x >>> UInt64.ofNat (8 * i)).toUInt8

/-- The bytes that are hashed and signed. -/
def signedBytes (tx : Transaction) : List UInt8 :=
  nativeBytes tx.transactionId ++ nativeBytes tx.timestamp ++ tx.fromAccount.toList ++
    tx.toAccount.toList ++ nativeBytes tx.amount ++ tx.currency.toList ++ nativeBytes tx.nonce

/-- The key that `bank_get_session_key` gives out, with one reading of the clock. -/
def Globals.liveHmacKey (g : Globals) (sessionId now : ℤ) : Option (Bytes 32) :=
  (getSessionKey g sessionId now now).2.map Prod.snd

/-- `bank_sign_data` and `bank_verify_signature`. -/
structure SignatureFunctions where
  signData : (g : Globals) → (sessionId now : ℤ) → (data : List UInt8) → Option (Bytes 32)
  verifySignature : (g : Globals) → (sessionId now : ℤ) → (data : List UInt8) →
    (signature : Bytes 32) → Bool

/-- With a live session, they compute and compare HMAC-SHA256 under its key. -/
structure SignatureFunctions.ByHmac (f : SignatureFunctions) : Prop where
  sign : ∀ {g sessionId now key} data, g.liveHmacKey sessionId now = some key →
    ∃ signature, f.signData g sessionId now data = some signature ∧
      hmacSha256 key.toList data = some signature.toList
  verify : ∀ {g sessionId now key} data signature, g.liveHmacKey sessionId now = some key →
    (f.verifySignature g sessionId now data signature = true ↔
      hmacSha256 key.toList data = some signature.toList)

section Calls

variable (f : SignatureFunctions)

/-- `bank_create_transaction`: what it returns, and the transaction. `nonce` is what
`bank_rng_bytes` gives, which returns 0 only when the library is not initialised. -/
def createTransaction (g : Globals) (txId : UInt64) (fromAccount toAccount : Bytes 32)
    (amount : UInt64) (currency : Bytes 8) (sessionId : ℤ) (time : ℤ) (nonce : UInt64) (now : ℤ) :
    Option (Bool × Transaction) := do
  let tx := Transaction.draft txId fromAccount toAccount amount currency time
  if !g.libraryInitialized then return (false, tx)
  let tx := { tx with nonce := nonce }
  let data := signedBytes tx
  match f.signData g sessionId now data with
  | none => return (false, tx)
  | some signature =>
    let hash ← sha256 data
    return (true,
      { tx with
        signature := signature
        referenceHash := copyTo tx.referenceHash hash
        verified := 1 })

/-- `bank_verify_transaction`. -/
def verifyTransaction (g : Globals) (tx : Transaction) (sessionId now : ℤ) : Option Bool := do
  if tx.verified = 0 then return false
  let data := signedBytes tx
  let hash ← sha256 data
  if !secureCompare tx.referenceHash (copyTo (zeroBytes 32) hash) then return false
  return f.verifySignature g sessionId now data tx.signature

/-- `bank_transaction_sign`. -/
def transactionSign (tx : Transaction) (key : List UInt8) : Option Transaction := do
  let mac ← hmacSha256 key (signedBytes tx)
  return { tx with signature := copyTo tx.signature mac, verified := 1 }

end Calls

/-- The hash of a transaction is the one of its signed bytes. -/
def Transaction.HashRight (tx : Transaction) : Prop :=
  tx.referenceHash.toList = Sha2.digest Sha2.sha256 (signedBytes tx)

theorem signedBytes_marked (tx : Transaction) (signature referenceHash : Bytes 32)
    (verified : ℤ) :
    signedBytes { tx with
      signature := signature
      referenceHash := referenceHash
      verified := verified } = signedBytes tx := rfl

theorem hashRight_congr {tx tx' : Transaction} (hbytes : signedBytes tx' = signedBytes tx)
    (hhash : tx'.referenceHash = tx.referenceHash) : tx'.HashRight ↔ tx.HashRight := by
  rw [Transaction.HashRight, Transaction.HashRight, hbytes, hhash]

section Verification

variable {f : SignatureFunctions} {g : Globals} {sessionId now : ℤ} {key : Bytes 32}

theorem verifyTransaction_iff (hf : f.ByHmac) {tx : Transaction}
    (hlive : g.liveHmacKey sessionId now = some key) :
    verifyTransaction f g tx sessionId now = some true ↔
      tx.verified ≠ 0 ∧ tx.HashRight ∧
        hmacSha256 key.toList (signedBytes tx) = some tx.signature.toList := by
  have hhash : secureCompare tx.referenceHash (copyTo (zeroBytes 32)
      (Sha2.digest Sha2.sha256 (signedBytes tx))) = true ↔ tx.HashRight := by
    rw [secureCompare_iff, ← Vector.toList_inj, toList_copyTo_full (length_sha256 _)]
    rfl
  rw [← hf.verify (signedBytes tx) tx.signature hlive, ← hhash, verifyTransaction]
  by_cases hverified : tx.verified = 0
  · simp [hverified]
  · rw [if_neg hverified]
    dsimp only
    rw [sha256_eq]
    by_cases hright : secureCompare tx.referenceHash (copyTo (zeroBytes 32)
      (Sha2.digest Sha2.sha256 (signedBytes tx))) = true <;> simp [hverified, hright]

/-- A transaction that is created has everything that is verified. -/
theorem createTransaction_spec (hf : f.ByHmac) (hlive : g.liveHmacKey sessionId now = some key)
    {txId : UInt64} {fromAccount toAccount : Bytes 32} {amount : UInt64} {currency : Bytes 8}
    {time : ℤ} {nonce : UInt64} {tx : Transaction}
    (h : createTransaction f g txId fromAccount toAccount amount currency sessionId time nonce now =
      some (true, tx)) :
    tx.verified ≠ 0 ∧ tx.HashRight ∧
      hmacSha256 key.toList (signedBytes tx) = some tx.signature.toList := by
  rw [createTransaction] at h
  cases hlibrary : g.libraryInitialized with
  | false =>
    rw [hlibrary] at h
    cases h
  | true =>
    rw [hlibrary, if_neg (by decide)] at h
    dsimp only at h
    generalize hdraft : { Transaction.draft txId fromAccount toAccount amount currency time with
      nonce := nonce } = draft at h
    obtain ⟨signature, hsignature, hmac⟩ := hf.sign (signedBytes draft) hlive
    rw [hsignature] at h
    dsimp only at h
    rw [sha256_eq, Option.bind_eq_bind, Option.bind_some] at h
    obtain rfl := (Prod.mk.inj (Option.some.inj h)).2
    subst hdraft
    exact ⟨one_ne_zero, toList_copyTo_full (length_sha256 _), hmac⟩

/-- A transaction that is signed has everything that is verified but the hash. -/
theorem transactionSign_spec (tx : Transaction) (key : Bytes 32) :
    ∃ signed, transactionSign tx key.toList = some signed ∧ signed.verified ≠ 0 ∧
      (signed.HashRight ↔ tx.HashRight) ∧
      hmacSha256 key.toList (signedBytes signed) = some signed.signature.toList := by
  have hmac := hmacSha256_eq key.toList (signedBytes tx)
  have hlength := length_rfcHmac key.toList (signedBytes tx)
  generalize rfcHmac key.toList (signedBytes tx) = mac at hmac hlength
  have hsign : transactionSign tx key.toList =
      some { tx with signature := copyTo tx.signature mac, verified := 1 } := by
    rw [transactionSign, hmac]
    rfl
  have hbytes := signedBytes_marked tx (copyTo tx.signature mac) tx.referenceHash 1
  refine ⟨_, hsign, one_ne_zero, hashRight_congr hbytes rfl, ?_⟩
  rw [toList_copyTo_full hlength, hbytes]
  exact hmac

/-- While the session is live: what is created with it is verified, and what is signed with its
key is verified too, exactly when the hash in the transaction was right before it was signed. -/
theorem transactions_verified_iff (hf : f.ByHmac) {g₁ g₂ : Globals} {now₁ now₂ : ℤ}
    (hlive₁ : g₁.liveHmacKey sessionId now₁ = some key)
    (hlive₂ : g₂.liveHmacKey sessionId now₂ = some key) (tx : Transaction) :
    ((∀ txId fromAccount toAccount amount currency time nonce created,
        createTransaction f g₁ txId fromAccount toAccount amount currency sessionId time nonce
            now₁ = some (true, created) →
          verifyTransaction f g₂ created sessionId now₂ = some true) ∧
      ∀ signed, transactionSign tx key.toList = some signed →
        verifyTransaction f g₂ signed sessionId now₂ = some true) ↔
      tx.HashRight := by
  obtain ⟨signed, hsign, hverified, hhash, hmac⟩ := transactionSign_spec tx key
  have hsigned : verifyTransaction f g₂ signed sessionId now₂ = some true ↔ tx.HashRight := by
    rw [verifyTransaction_iff hf hlive₂, hhash]
    exact ⟨fun h => h.2.1, fun h => ⟨hverified, h, hmac⟩⟩
  constructor
  · rintro ⟨-, h⟩
    exact hsigned.mp (h signed hsign)
  · intro h
    constructor
    · intro txId fromAccount toAccount amount currency time nonce created hcreate
      rw [verifyTransaction_iff hf hlive₂]
      exact createTransaction_spec hf hlive₁ hcreate
    · intro signed' hsign'
      rw [hsign] at hsign'
      obtain rfl := Option.some.inj hsign'
      exact hsigned.mpr h

end Verification

/-- The signature functions over the session keys. -/
def hmacSignatures : SignatureFunctions where
  signData g sessionId now data :=
    (g.liveHmacKey sessionId now).map fun key => copyTo (zeroBytes 32) (rfcHmac key.toList data)
  verifySignature g sessionId now data signature :=
    match g.liveHmacKey sessionId now with
    | none => false
    | some key => secureCompare signature (copyTo (zeroBytes 32) (rfcHmac key.toList data))

theorem hmacSignatures_byHmac : hmacSignatures.ByHmac where
  sign {g sessionId now key} data hlive := by
    have hsign : hmacSignatures.signData g sessionId now data =
        some (copyTo (zeroBytes 32) (rfcHmac key.toList data)) := by
      rw [hmacSignatures]
      dsimp only
      rw [hlive, Option.map_some]
    refine ⟨_, hsign, ?_⟩
    rw [hmacSha256_eq, toList_copyTo_full (length_rfcHmac _ _)]
  verify {g sessionId now key} data signature hlive := by
    have hcompare : hmacSignatures.verifySignature g sessionId now data signature =
        secureCompare signature (copyTo (zeroBytes 32) (rfcHmac key.toList data)) := by
      rw [hmacSignatures]
      dsimp only
      rw [hlive]
    rw [hcompare, secureCompare_iff, ← Vector.toList_inj, hmacSha256_eq, Option.some_inj,
      toList_copyTo_full (length_rfcHmac _ _), eq_comm]

def hourKey : Bytes 32 :=
  ((hourSession keyIdPrimitives initialisedState [65]).1.sessionMgr.keys 0).hmacKey

theorem transactions_verified_iff_hour :
    let g := (hourSession keyIdPrimitives initialisedState [65]).1
    ((∀ txId fromAccount toAccount amount currency time nonce created,
        createTransaction hmacSignatures g txId fromAccount toAccount amount currency 1 time nonce
            102 = some (true, created) →
          verifyTransaction hmacSignatures g created 1 103 = some true) ∧
      ∀ signed, transactionSign Transaction.zero hourKey.toList = some signed →
        verifyTransaction hmacSignatures g signed 1 103 = some true) ↔
      Transaction.zero.HashRight :=
  transactions_verified_iff hmacSignatures_byHmac rfl rfl Transaction.zero

/-- The transaction of zeros, signed with the key of a live session, is not verified with it. -/
theorem zeroTransaction_rejected :
    let g := (hourSession keyIdPrimitives initialisedState [65]).1
    g.liveHmacKey 1 102 = some hourKey ∧
      ¬∃ f signed, SignatureFunctions.ByHmac f ∧
        transactionSign Transaction.zero hourKey.toList = some signed ∧
        verifyTransaction f g signed 1 102 = some true := by
  intro g
  have hlive : g.liveHmacKey 1 102 = some hourKey := rfl
  refine ⟨hlive, ?_⟩
  rintro ⟨f, signed, hf, hsign, hverify⟩
  obtain ⟨signed', hsign', -, hhash, -⟩ := transactionSign_spec Transaction.zero hourKey
  obtain rfl := Option.some.inj (hsign.symm.trans hsign')
  have hright := hhash.mp ((verifyTransaction_iff hf hlive).mp hverify).2.1
  have hwrong : List.replicate 32 0 ≠
      Sha2.digest Sha2.sha256 (signedBytes Transaction.zero) := by decide +kernel
  exact hwrong hright

end Blackstone.BankCrypto
