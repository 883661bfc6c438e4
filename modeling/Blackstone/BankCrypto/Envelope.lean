import Blackstone.BankCrypto.Gcm
import Blackstone.BankCrypto.Session
import Blackstone.BankCrypto.Utils

/-!
# Secure envelopes

`envelope/bank_envelope_create.cpp` and `bank_envelope_extract.cpp`. An envelope names its session
by a fingerprint of the two keys. Extraction takes the first active session with the fingerprint,
and the check of its expiry comes afterwards (`extractEnvelope_spec`); verification looks at the
checksum and the fingerprint only (`verifyEnvelope_iff`).
-/

namespace Blackstone.BankCrypto

/-- `bank_secure_envelope`. Of `encrypted_data`, the `encrypted_len` bytes that are used. -/
structure Envelope where
  encryptedData : List UInt8
  iv : Bytes 12
  tag : Bytes 16
  timestamp : UInt64
  crc32 : UInt32
  version : UInt32
  authTag : Bytes 32
  compressionFlag : UInt8

/-- The two output buffers of `bank_extract_envelope`. -/
structure Output where
  plain : List UInt8
  plainLen : ℕ

/-- The two keys of a session, as they are hashed. -/
def SessionKey.hashInput (k : SessionKey) : List UInt8 := k.sessionKey.toList ++ k.hmacKey.toList

/-- The fingerprint of the keys of a session. -/
def fingerprint (p : Primitives) (k : SessionKey) : Bytes 32 := p.sha256 k.hashInput

section Calls

variable (p : Primitives) (encryptBlock : Bytes 32 → Bytes 16 → Bytes 16)

/-! ## The calls -/

/-- `bank_encrypt_data`: the ciphertext and the tag. `iv` is what `bank_rng_bytes` gives, which
returns 0 only when the library is not initialised. -/
def encryptData (g : Globals) (plain aad : List UInt8) (sessionId : ℤ) (iv : Bytes 12)
    (now lastUsedAt : ℤ) : Globals × Option (List UInt8 × Bytes 16) :=
  if !g.ctx.initialized then (g, none)
  else if 10485760 < plain.length then (g, none)
  else if !g.libraryInitialized then (g, none)
  else
    match getSessionKey g sessionId now lastUsedAt with
    | (g, none) => (g, none)
    | (g, some (sessionKey, _)) =>
      match gcmEncrypt encryptBlock sessionKey iv.toList aad plain with
      | none => (g, none)
      | some result =>
        ({ g with ctx := { g.ctx with totalEncryptions := g.ctx.totalEncryptions + 1 } },
          some result)

/-- The readings of the clock in `bank_create_envelope`: for both calls of `bank_get_session_key`,
and for the time stamp. -/
structure EnvelopeTimes where
  encryptNow : ℤ
  encryptUsedAt : ℤ
  keysNow : ℤ
  keysUsedAt : ℤ
  timestamp : ℤ

/-- `bank_create_envelope`. -/
def createEnvelope (g : Globals) (plain aad : List UInt8) (sessionId : ℤ) (iv : Bytes 12)
    (times : EnvelopeTimes) : Globals × Option Envelope :=
  if 10485760 - 1024 < plain.length then (g, none)
  else
    match encryptData encryptBlock g plain aad sessionId iv times.encryptNow
      times.encryptUsedAt with
    | (g, none) => (g, none)
    | (g, some (cipher, tag)) =>
      match getSessionKey g sessionId times.keysNow times.keysUsedAt with
      | (g, none) => (g, none)
      | (g, some (sessionKey, hmacKey)) =>
        (g, some
          { encryptedData := cipher
            iv := iv
            tag := tag
            timestamp := UInt64.ofInt times.timestamp
            crc32 := BankCrypto.crc32 cipher
            version := 2
            authTag := p.sha256 (sessionKey.toList ++ hmacKey.toList)
            compressionFlag := 0 })

/-- The loop over the sessions in `bank_extract_envelope` and `bank_verify_envelope`. -/
def findSession (m : SessionManager) (authTag : Bytes 32) : Option (Fin 32) :=
  (List.finRange 32).find? fun i =>
    (m.keys i).active && secureCompare authTag (fingerprint p (m.keys i))

/-- `bank_decrypt_data`. -/
def decryptData (g : Globals) (cipher aad : List UInt8) (sessionId : ℤ) (iv : Bytes 12)
    (tag : Bytes 16) (now lastUsedAt : ℤ) (out : Output) : Globals × Bool × Output :=
  if !g.ctx.initialized then (g, false, out)
  else if 10485760 < cipher.length then (g, false, out)
  else
    match getSessionKey g sessionId now lastUsedAt with
    | (g, none) => (g, false, out)
    | (g, some (sessionKey, _)) =>
      match gcmDecrypt encryptBlock sessionKey iv.toList aad cipher tag out.plain with
      | (false, plain) => (g, false, { out with plain := plain })
      | (true, plain) =>
        ({ g with ctx := { g.ctx with totalDecryptions := g.ctx.totalDecryptions + 1 } },
          true, ⟨plain, cipher.length⟩)

/-- `bank_extract_envelope`. -/
def extractEnvelope (g : Globals) (e : Envelope) (aad : List UInt8) (now lastUsedAt : ℤ)
    (out : Output) : Globals × Bool × Output :=
  if crc32 e.encryptedData ≠ e.crc32 then (g, false, out)
  else
    match findSession p g.sessionMgr e.authTag with
    | none => (g, false, out)
    | some i =>
      decryptData encryptBlock g e.encryptedData aad (i + 1) e.iv e.tag now lastUsedAt out

/-- `bank_verify_envelope`, which does not use the associated data. -/
def verifyEnvelope (g : Globals) (e : Envelope) (_aad : List UInt8) : Bool :=
  if crc32 e.encryptedData ≠ e.crc32 then false
  else (findSession p g.sessionMgr e.authTag).isSome

end Calls

/-! ## Acceptance -/

section Acceptance

variable {p : Primitives} {encryptBlock : Bytes 32 → Bytes 16 → Bytes 16} {g : Globals}
  {e : Envelope} {aad : List UInt8} {now lastUsedAt : ℤ} {out : Output}

/-- The tag of the envelope is the one of its ciphertext and the associated data under a key. -/
def Envelope.TagRight (e : Envelope) (encryptBlock : Bytes 32 → Bytes 16 → Bytes 16)
    (aad : List UInt8) (key : Bytes 32) : Prop :=
  e.tag = gcmTag (encryptBlock key) e.iv.toList aad e.encryptedData

instance (aad : List UInt8) (key : Bytes 32) :
    Decidable (e.TagRight encryptBlock aad key) :=
  inferInstanceAs (Decidable (_ = _))

theorem findSession_some {m : SessionManager} {authTag : Bytes 32} {i : Fin 32}
    (h : findSession p m authTag = some i) :
    (m.keys i).active = true ∧ authTag = fingerprint p (m.keys i) := by
  have hfound := List.find?_some h
  rw [Bool.and_eq_true, secureCompare_iff] at hfound
  exact hfound

theorem findSession_zero {m : SessionManager} (hactive : (m.keys 0).active = true) :
    findSession p m (fingerprint p (m.keys 0)) = some 0 := by
  rw [findSession, List.finRange_succ, List.find?_cons_of_pos]
  rw [Bool.and_eq_true, secureCompare_iff]
  exact ⟨hactive, rfl⟩

theorem verifyEnvelope_iff :
    verifyEnvelope p g e aad = true ↔
      crc32 e.encryptedData = e.crc32 ∧ ∃ i, findSession p g.sessionMgr e.authTag = some i := by
  rw [verifyEnvelope]
  by_cases hcrc : crc32 e.encryptedData = e.crc32
  · rw [if_neg (not_not.mpr hcrc), Option.isSome_iff_exists]
    exact ⟨fun h => ⟨hcrc, h⟩, fun h => h.2⟩
  · rw [if_pos hcrc]
    exact ⟨fun h => absurd h Bool.false_ne_true, fun h => absurd h.1 hcrc⟩

theorem decryptData_spec {i : Fin 32} (hactive : (g.sessionMgr.keys i).active = true) :
    (decryptData encryptBlock g e.encryptedData aad (i + 1) e.iv e.tag now lastUsedAt out).2 =
      if g.ctx.initialized = true ∧ e.encryptedData.length ≤ 10485760 ∧
          now ≤ (g.sessionMgr.keys i).expiresAt ∧
          e.TagRight encryptBlock aad (g.sessionMgr.keys i).sessionKey then
        (true, ⟨gctr (encryptBlock (g.sessionMgr.keys i).sessionKey) (startCounter e.iv.toList)
          e.encryptedData ++ out.plain.drop e.encryptedData.length, e.encryptedData.length⟩)
      else (false, out) := by
  rw [decryptData]
  by_cases hinitialized : g.ctx.initialized = true
  · by_cases hlength : e.encryptedData.length ≤ 10485760
    · rw [if_neg (by simp [hinitialized]), if_neg (by omega),
        getSessionKey_of_active hinitialized (sessionSlot_succ i) hactive]
      by_cases hexpired : (g.sessionMgr.keys i).expiresAt < now
      · rw [if_pos hexpired, if_neg (by intro h; omega)]
      · rw [if_neg hexpired]
        dsimp only
        rw [gcmDecrypt_eq _ _ Vector.length_toList]
        by_cases htag : e.tag = gcmTag (encryptBlock (g.sessionMgr.keys i).sessionKey)
          e.iv.toList aad e.encryptedData
        · rw [if_pos htag, if_pos ⟨hinitialized, hlength, by omega, htag⟩]
        · rw [if_neg htag, if_neg fun h => htag h.2.2.2]
    · rw [if_neg (by simp [hinitialized]), if_pos (by omega), if_neg fun h => hlength h.2.1]
  · rw [if_pos (by simp [hinitialized]), if_neg fun h => hinitialized h.1]

/-- Extraction: the checksum, the first active session with the fingerprint, and what its
decryption checks. -/
theorem extractEnvelope_spec :
    (extractEnvelope p encryptBlock g e aad now lastUsedAt out).2.1 = true ↔
      crc32 e.encryptedData = e.crc32 ∧ ∃ i, findSession p g.sessionMgr e.authTag = some i ∧
        g.ctx.initialized = true ∧ e.encryptedData.length ≤ 10485760 ∧
        now ≤ (g.sessionMgr.keys i).expiresAt ∧
        e.TagRight encryptBlock aad (g.sessionMgr.keys i).sessionKey := by
  rw [extractEnvelope]
  by_cases hcrc : crc32 e.encryptedData = e.crc32
  · rw [if_neg (not_not.mpr hcrc)]
    cases hfind : findSession p g.sessionMgr e.authTag with
    | none =>
      constructor
      · intro h
        cases h
      · rintro ⟨-, i, hi, -⟩
        cases hi
    | some i =>
      dsimp only
      rw [decryptData_spec (findSession_some hfind).1]
      split_ifs with hall
      · exact ⟨fun _ => ⟨hcrc, i, rfl, hall⟩, fun _ => rfl⟩
      · constructor
        · intro h
          cases h
        · rintro ⟨-, j, hj, hall'⟩
          cases hj
          exact absurd hall' hall
  · rw [if_pos hcrc]
    constructor
    · intro h
      cases h
    · rintro ⟨h, -⟩
      exact absurd h hcrc

/-- Verification agrees with extraction exactly when the envelope is rejected by its checksum or
its fingerprint, or everything else that extraction checks is right. -/
theorem verify_agrees_iff (hlength : e.encryptedData.length ≤ 10485760) :
    (verifyEnvelope p g e aad = true ↔
        (extractEnvelope p encryptBlock g e aad now lastUsedAt out).2.1 = true) ↔
      crc32 e.encryptedData ≠ e.crc32 ∨
        ∀ i, findSession p g.sessionMgr e.authTag = some i →
          g.ctx.initialized = true ∧ now ≤ (g.sessionMgr.keys i).expiresAt ∧
            e.TagRight encryptBlock aad (g.sessionMgr.keys i).sessionKey := by
  rw [verifyEnvelope_iff, extractEnvelope_spec]
  constructor
  · intro h
    by_cases hcrc : crc32 e.encryptedData = e.crc32
    · right
      intro i hi
      obtain ⟨-, j, hj, hinitialized, -, hexpiry, htag⟩ := h.mp ⟨hcrc, i, hi⟩
      obtain rfl : i = j := Option.some.inj (hi.symm.trans hj)
      exact ⟨hinitialized, hexpiry, htag⟩
    · exact Or.inl hcrc
  · rintro (hcrc | hall)
    · exact ⟨fun h => absurd h.1 hcrc, fun h => absurd h.1 hcrc⟩
    · constructor
      · rintro ⟨hcrc, i, hi⟩
        obtain ⟨hinitialized, hexpiry, htag⟩ := hall i hi
        exact ⟨hcrc, i, hi, hinitialized, hlength, hexpiry, htag⟩
      · rintro ⟨hcrc, i, hi, -⟩
        exact ⟨hcrc, i, hi⟩

end Acceptance

/-- An envelope of no data with the fingerprint of a session and a tag of zeros. -/
def forgedEnvelope (p : Primitives) (k : SessionKey) : Envelope where
  encryptedData := []
  iv := zeroBytes 12
  tag := zeroBytes 16
  timestamp := 0
  crc32 := 0
  version := 2
  authTag := fingerprint p k
  compressionFlag := 0

theorem verify_agrees_iff_forged :
    let g := (hourSession keyIdPrimitives initialisedState [65]).1
    let e := forgedEnvelope keyIdPrimitives (g.sessionMgr.keys 0)
    (verifyEnvelope keyIdPrimitives g e [] = true ↔
        (extractEnvelope keyIdPrimitives (fun _ block => block) g e [] 4000 4000 ⟨[], 0⟩).2.1 =
          true) ↔
      crc32 e.encryptedData ≠ e.crc32 ∨
        ∀ i, findSession keyIdPrimitives g.sessionMgr e.authTag = some i →
          g.ctx.initialized = true ∧ 4000 ≤ (g.sessionMgr.keys i).expiresAt ∧
            e.TagRight (fun _ block => block) [] (g.sessionMgr.keys i).sessionKey :=
  verify_agrees_iff (Nat.zero_le _)

/-- The session of the envelope expired at 3701. At 4000 the envelope is verified and not
extracted, whatever the hash function and the cipher are. -/
theorem expiredSession_verified :
    ¬∃ (p : Primitives) (encryptBlock : Bytes 32 → Bytes 16 → Bytes 16) (out : Output),
      let g := (hourSession p initialisedState [65]).1
      let e := forgedEnvelope p (g.sessionMgr.keys 0)
      verifyEnvelope p g e [] = true ↔
        (extractEnvelope p encryptBlock g e [] 4000 4000 out).2.1 = true := by
  rintro ⟨p, encryptBlock, out, hagree⟩
  have hactive : ((hourSession p initialisedState [65]).1.sessionMgr.keys 0).active = true := rfl
  have hfound := findSession_zero (p := p) hactive
  have hcrc : crc32 [] = 0 := by decide
  have hextract := hagree.mp (verifyEnvelope_iff.mpr ⟨hcrc, 0, hfound⟩)
  obtain ⟨-, i, hi, -, -, hexpiry, -⟩ := extractEnvelope_spec.mp hextract
  obtain rfl : 0 = i := Option.some.inj (hfound.symm.trans hi)
  have hexpired : ¬(4000 : ℤ) ≤ 3701 := by decide
  exact hexpired hexpiry

end Blackstone.BankCrypto
