import Blackstone.Library.SlotPool

/-!
# The global state of the bank crypto library

`bank_types.h` and `core/bank_crypto.cpp`. The library keeps its keys in `g_ctx` and its
sessions in `g_session_mgr`. Both are cleared by `wipeMaster`; the two initialisations set the
keys and some of the session counters, and leave the session slots as they are.
-/

namespace Blackstone.BankCrypto

/-- A buffer of `n` bytes. -/
abbrev Bytes (n : ℕ) := Vector UInt8 n

/-- `bank_secure_zero`. -/
def zeroBytes (n : ℕ) : Bytes n := Vector.replicate n 0

/-- `memcpy` to the start of a buffer. -/
def copyTo {n : ℕ} (buffer : Bytes n) (bytes : List UInt8) : Bytes n :=
  Vector.ofFn fun i => bytes.getD i buffer[i]

/-- A loop over two buffers that are not equal finds a difference. -/
theorem bytes_eq_iff {n : ℕ} {a b : Bytes n} : a = b ↔ ∀ i ∈ List.finRange n, a[i] = b[i] := by
  constructor
  · rintro rfl _ _
    rfl
  · intro h
    exact Vector.ext fun i hi => h ⟨i, hi⟩ (List.mem_finRange _)

/-- The hash functions that the keys are computed with. -/
structure Primitives where
  sha256 : List UInt8 → Bytes 32
  pbkdf2HmacSha256 : (password salt : List UInt8) → (iterations keyLen : ℕ) → Bytes keyLen

/-- What `bank_random_bytes` returns and leaves in the buffer. -/
structure RandomRead (n : ℕ) where
  ok : Bool
  bytes : Bytes n

/-- `bank_crypto_context`. -/
structure CryptoContext where
  masterKey : Bytes 32
  salt : Bytes 32
  antiTamperSeed : Bytes 32
  keyRotationSeed : Bytes 32
  initialized : Bool
  refCount : ℤ
  totalEncryptions : UInt64
  totalDecryptions : UInt64
  keyCreatedAt : ℤ
  keyChain : Fin 8 → Bytes 32
  currentKeyIndex : Fin 8

/-- `bank_session_key`. -/
structure SessionKey where
  sessionKey : Bytes 32
  hmacKey : Bytes 32
  keyId : Bytes 256
  keyIdLen : ℕ
  createdAt : ℤ
  expiresAt : ℤ
  lastUsedAt : ℤ
  useCount : UInt64
  active : Bool
  salt : Bytes 16

/-- `bank_session_manager`. -/
structure SessionManager where
  keys : Fin 32 → SessionKey
  count : ℤ
  totalSessionsCreated : UInt64
  totalSessionsDestroyed : UInt64

/-- A context of zero bytes. -/
def CryptoContext.zero : CryptoContext where
  masterKey := zeroBytes 32
  salt := zeroBytes 32
  antiTamperSeed := zeroBytes 32
  keyRotationSeed := zeroBytes 32
  initialized := false
  refCount := 0
  totalEncryptions := 0
  totalDecryptions := 0
  keyCreatedAt := 0
  keyChain := fun _ => zeroBytes 32
  currentKeyIndex := 0

/-- A session slot of zero bytes. -/
def SessionKey.zero : SessionKey where
  sessionKey := zeroBytes 32
  hmacKey := zeroBytes 32
  keyId := zeroBytes 256
  keyIdLen := 0
  createdAt := 0
  expiresAt := 0
  lastUsedAt := 0
  useCount := 0
  active := false
  salt := zeroBytes 16

/-- A session manager of zero bytes. -/
def SessionManager.zero : SessionManager where
  keys := fun _ => SessionKey.zero
  count := 0
  totalSessionsCreated := 0
  totalSessionsDestroyed := 0

/-- The global variables of the library. -/
structure Globals where
  ctx : CryptoContext
  sessionMgr : SessionManager
  libraryInitialized : Bool
  libraryStartTime : ℤ

/-- The global variables when the program starts. -/
def Globals.start : Globals where
  ctx := CryptoContext.zero
  sessionMgr := SessionManager.zero
  libraryInitialized := false
  libraryStartTime := 0

/-! ## Initialisation -/

/-- The end of both initialisations, for the context. -/
def CryptoContext.begin (c : CryptoContext) (now : ℤ) : CryptoContext :=
  { c with
    keyChain := Function.update c.keyChain 0 c.masterKey
    currentKeyIndex := 0
    keyCreatedAt := now
    totalEncryptions := 0
    totalDecryptions := 0
    initialized := true
    refCount := 1 }

/-- The reads of the random source in `bank_init_master_random`. -/
structure MasterReads where
  masterKey : RandomRead 32
  salt : RandomRead 32
  antiTamperSeed : RandomRead 32
  keyRotationSeed : RandomRead 32

/-- Every read succeeds. -/
def MasterReads.ok (r : MasterReads) : Bool :=
  r.masterKey.ok && r.salt.ok && r.antiTamperSeed.ok && r.keyRotationSeed.ok

/-- `bank_init_master_random`. -/
def initMasterRandom (g : Globals) (r : MasterReads) (createdAt startTime : ℤ) :
    Globals × Bool :=
  let c₁ := { g.ctx with masterKey := r.masterKey.bytes }
  if !r.masterKey.ok then ({ g with ctx := c₁ }, false)
  else
    let c₂ := { c₁ with salt := r.salt.bytes }
    if !r.salt.ok then ({ g with ctx := { c₂ with masterKey := zeroBytes 32 } }, false)
    else
      let c₃ := { c₂ with antiTamperSeed := r.antiTamperSeed.bytes }
      if !r.antiTamperSeed.ok then
        ({ g with ctx := { c₃ with masterKey := zeroBytes 32 } }, false)
      else
        let c₄ := { c₃ with keyRotationSeed := r.keyRotationSeed.bytes }
        if !r.keyRotationSeed.ok then
          ({ g with ctx := { c₄ with masterKey := zeroBytes 32 } }, false)
        else
          ({ ctx := c₄.begin createdAt
             sessionMgr :=
              { g.sessionMgr with
                count := 0
                totalSessionsCreated := 0
                totalSessionsDestroyed := 0 }
             libraryInitialized := true
             libraryStartTime := startTime }, true)

/-- `bank_init_master`. The reads of the random source are not checked, and the totals of the
session manager are kept. -/
def initMaster (g : Globals) (key salt : List UInt8)
    (antiTamperSeed keyRotationSeed : RandomRead 32) (createdAt startTime : ℤ) : Globals × Bool :=
  if key.length ≠ 32 ∨ salt.length ≠ 32 then (g, false)
  else
    let c :=
      { g.ctx with
        masterKey := copyTo g.ctx.masterKey key
        salt := copyTo g.ctx.salt salt
        antiTamperSeed := antiTamperSeed.bytes
        keyRotationSeed := keyRotationSeed.bytes }
    ({ ctx := c.begin createdAt
       sessionMgr := { g.sessionMgr with count := 0 }
       libraryInitialized := true
       libraryStartTime := startTime }, true)

/-! ## Rotation and wipe -/

/-- `bank_rotate_master_key`. -/
def rotateMasterKey (p : Primitives) (g : Globals) (now : ℤ) : Globals :=
  if !g.ctx.initialized then g
  else
    let newIndex := g.ctx.currentKeyIndex + 1
    let newKey :=
      p.sha256 ((g.ctx.keyChain g.ctx.currentKeyIndex).toList ++ g.ctx.keyRotationSeed.toList)
    { g with
      ctx :=
        { g.ctx with
          keyChain := Function.update g.ctx.keyChain newIndex newKey
          currentKeyIndex := newIndex
          keyCreatedAt := now } }

/-- `bank_wipe_master`. -/
def wipeMaster (g : Globals) : Globals :=
  if !g.ctx.initialized then g
  else
    { g with
      ctx := CryptoContext.zero
      sessionMgr := SessionManager.zero
      libraryInitialized := false }

/-! ## What happens to the session manager -/

theorem initMasterRandom_sessionMgr (g : Globals) (r : MasterReads) (createdAt startTime : ℤ) :
    (initMasterRandom g r createdAt startTime).1.sessionMgr =
      if r.ok then
        { g.sessionMgr with
          count := 0
          totalSessionsCreated := 0
          totalSessionsDestroyed := 0 }
      else g.sessionMgr := by
  obtain ⟨⟨keyOk, _⟩, ⟨saltOk, _⟩, ⟨seedOk, _⟩, ⟨rotationOk, _⟩⟩ := r
  cases keyOk
  · rfl
  cases saltOk
  · rfl
  cases seedOk
  · rfl
  cases rotationOk <;> rfl

theorem initMaster_sessionMgr (g : Globals) (key salt : List UInt8)
    (antiTamperSeed keyRotationSeed : RandomRead 32) (createdAt startTime : ℤ) :
    (initMaster g key salt antiTamperSeed keyRotationSeed createdAt startTime).1.sessionMgr =
      if key.length = 32 ∧ salt.length = 32 then { g.sessionMgr with count := 0 }
      else g.sessionMgr := by
  rw [initMaster]
  by_cases hlength : key.length = 32 ∧ salt.length = 32
  · rw [if_neg (by tauto), if_pos hlength]
  · rw [if_pos (by tauto), if_neg hlength]

theorem rotateMasterKey_sessionMgr (p : Primitives) (g : Globals) (now : ℤ) :
    (rotateMasterKey p g now).sessionMgr = g.sessionMgr := by
  rw [rotateMasterKey]
  split <;> rfl

theorem wipeMaster_sessionMgr (g : Globals) :
    (wipeMaster g).sessionMgr =
      if g.ctx.initialized then SessionManager.zero else g.sessionMgr := by
  rw [wipeMaster]
  cases g.ctx.initialized <;> rfl

end Blackstone.BankCrypto
