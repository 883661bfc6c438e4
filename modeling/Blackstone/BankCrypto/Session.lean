import Blackstone.BankCrypto.Context

/-!
# Sessions

`session/bank_session_create.cpp`, `bank_session_get.cpp` and `bank_session_destroy.cpp`. A
session takes the first free slot of the manager, and its id is one more than the slot. It is
given back when it is destroyed, and when it is found to have expired.
-/

namespace Blackstone.BankCrypto

open Runs SlotPool

/-- The slot of a session id from 1 to `BANK_MAX_SESSION_KEYS`. -/
def sessionSlot (sessionId : ℤ) : Option (Fin 32) :=
  if h : 1 ≤ sessionId ∧ sessionId ≤ 32 then some ⟨(sessionId - 1).toNat, by omega⟩ else none

theorem sessionSlot_succ (slot : Fin 32) : sessionSlot ((slot : ℤ) + 1) = some slot := by
  have hslot : (slot : ℕ) < 32 := slot.isLt
  rw [sessionSlot, dif_pos (by omega)]
  congr 1
  apply Fin.ext
  change ((slot : ℤ) + 1 - 1).toNat = slot
  omega

theorem sessionSlot_inj {sessionId sessionId' : ℤ} {slot : Fin 32}
    (h : sessionSlot sessionId = some slot) (h' : sessionSlot sessionId' = some slot) :
    sessionId = sessionId' := by
  have hslot : ∀ {n : ℤ}, sessionSlot n = some slot → n = (slot : ℤ) + 1 := by
    intro n hn
    rw [sessionSlot] at hn
    split_ifs at hn with hrange
    rw [← Option.some.inj hn]
    change n = (((n - 1).toNat : ℕ) : ℤ) + 1
    omega
  rw [hslot h, hslot h']

/-! ## The session manager -/

/-- A slot whose session was found to have expired. -/
def SessionKey.expire (k : SessionKey) : SessionKey :=
  { k with
    active := false
    sessionKey := zeroBytes 32
    hmacKey := zeroBytes 32 }

/-- A slot whose session is destroyed. -/
def SessionKey.destroy (k : SessionKey) : SessionKey :=
  { k with
    sessionKey := zeroBytes 32
    hmacKey := zeroBytes 32
    keyId := zeroBytes 256
    active := false }

/-- A new session in a slot. -/
def SessionManager.take (m : SessionManager) (slot : Fin 32) (k : SessionKey) :
    SessionManager :=
  { m with
    keys := Function.update m.keys slot k
    count := m.count + 1
    totalSessionsCreated := m.totalSessionsCreated + 1 }

/-- A change of a session that stays active. -/
def SessionManager.touch (m : SessionManager) (slot : Fin 32) (k : SessionKey) :
    SessionManager :=
  { m with keys := Function.update m.keys slot k }

/-- The end of a session. -/
def SessionManager.release (m : SessionManager) (slot : Fin 32) (k : SessionKey) :
    SessionManager :=
  { m with
    keys := Function.update m.keys slot k
    count := m.count - 1
    totalSessionsDestroyed := m.totalSessionsDestroyed + 1 }

/-! ## The calls -/

/-- `bank_derive_session_key`: the session key and the HMAC key. -/
def deriveSessionKey (p : Primitives) (c : CryptoContext) (keyId : List UInt8) :
    Bytes 32 × Bytes 32 :=
  let data := c.salt.toList ++ keyId.take 32
  let derived := p.pbkdf2HmacSha256 (c.keyChain c.currentKeyIndex).toList data 100000 64
  (Vector.ofFn fun i : Fin 32 => derived[i.val], Vector.ofFn fun i : Fin 32 => derived[32 + i.val])

/-- The master key that sessions are derived from. -/
def CryptoContext.currentKey (c : CryptoContext) : List UInt8 :=
  (c.keyChain c.currentKeyIndex).toList

/-- The session key and the HMAC key, as a function of the salt. -/
def derivedKeys (p : Primitives) (c : CryptoContext) (salt : List UInt8) : Bytes 32 × Bytes 32 :=
  let derived := p.pbkdf2HmacSha256 c.currentKey salt 100000 64
  (Vector.ofFn fun i : Fin 32 => derived[i.val], Vector.ofFn fun i : Fin 32 => derived[32 + i.val])

/-- The readings of the clock in `bank_create_session`. -/
structure CreateTimes where
  createdAt : ℤ
  now : ℤ
  lastUsedAt : ℤ

/-- What `bank_create_session` writes to the slot that it takes. -/
def newSession (p : Primitives) (c : CryptoContext) (old : SessionKey) (keyId : List UInt8)
    (ttlSeconds : ℤ) (times : CreateTimes) (salt : RandomRead 16) : SessionKey where
  sessionKey := (deriveSessionKey p c keyId).1
  hmacKey := (deriveSessionKey p c keyId).2
  keyId := copyTo old.keyId keyId
  keyIdLen := keyId.length
  createdAt := times.createdAt
  expiresAt := times.now + ttlSeconds
  lastUsedAt := times.lastUsedAt
  useCount := 0
  active := true
  salt := salt.bytes

/-- `bank_create_session`. -/
def createSession (p : Primitives) (g : Globals) (keyId : List UInt8) (ttlSeconds : ℤ)
    (times : CreateTimes) (salt : RandomRead 16) : Globals × ℤ :=
  if !g.ctx.initialized then (g, 0)
  else if 256 < keyId.length then (g, 0)
  else if 32 ≤ g.sessionMgr.count then (g, 0)
  else
    match firstFree SessionKey.active g.sessionMgr.keys with
    | none => (g, 0)
    | some slot =>
      let k := newSession p g.ctx (g.sessionMgr.keys slot) keyId ttlSeconds times salt
      ({ g with sessionMgr := g.sessionMgr.take slot k }, slot + 1)

/-- `bank_get_session_key`, with the keys that it copies out when it returns 1. -/
def getSessionKey (g : Globals) (sessionId now lastUsedAt : ℤ) :
    Globals × Option (Bytes 32 × Bytes 32) :=
  if !g.ctx.initialized then (g, none)
  else
    match sessionSlot sessionId with
    | none => (g, none)
    | some idx =>
      let k := g.sessionMgr.keys idx
      if !k.active then (g, none)
      else if k.expiresAt < now then
        ({ g with sessionMgr := g.sessionMgr.release idx k.expire }, none)
      else
        let used := { k with lastUsedAt := lastUsedAt, useCount := k.useCount + 1 }
        ({ g with sessionMgr := g.sessionMgr.touch idx used }, some (k.sessionKey, k.hmacKey))

/-- `bank_destroy_session`. It does not ask whether the library is initialised. -/
def destroySession (g : Globals) (sessionId : ℤ) : Globals :=
  match sessionSlot sessionId with
  | none => g
  | some idx =>
    let k := g.sessionMgr.keys idx
    if k.active then { g with sessionMgr := g.sessionMgr.release idx k.destroy } else g

/-- One round of the loop of `bank_cleanup_expired_sessions`. -/
def SessionManager.expireSlot (now : ℤ) (m : SessionManager) (i : Fin 32) : SessionManager :=
  if (m.keys i).active ∧ (m.keys i).expiresAt < now then m.release i (m.keys i).expire else m

/-- `bank_cleanup_expired_sessions`. -/
def cleanupExpiredSessions (g : Globals) (now : ℤ) : Globals :=
  { g with
    sessionMgr := (List.finRange 32).foldl (SessionManager.expireSlot now) g.sessionMgr }

theorem getSessionKey_of_active {g : Globals} {sessionId : ℤ} {idx : Fin 32}
    (hinitialized : g.ctx.initialized = true) (hslot : sessionSlot sessionId = some idx)
    (hactive : (g.sessionMgr.keys idx).active = true) (now lastUsedAt : ℤ) :
    getSessionKey g sessionId now lastUsedAt =
      if (g.sessionMgr.keys idx).expiresAt < now then
        ({ g with sessionMgr := g.sessionMgr.release idx (g.sessionMgr.keys idx).expire }, none)
      else
        ({ g with
            sessionMgr := g.sessionMgr.touch idx
              { g.sessionMgr.keys idx with
                lastUsedAt := lastUsedAt
                useCount := (g.sessionMgr.keys idx).useCount + 1 } },
          some ((g.sessionMgr.keys idx).sessionKey, (g.sessionMgr.keys idx).hmacKey)) := by
  rw [getSessionKey, hslot]
  simp only [hinitialized, hactive, Bool.not_true, Bool.false_eq_true, if_false]

/-- All that a creation does: nothing, or it takes the first free slot. -/
theorem createSession_cases (p : Primitives) (g : Globals) (keyId : List UInt8) (ttlSeconds : ℤ)
    (times : CreateTimes) (salt : RandomRead 16) :
    createSession p g keyId ttlSeconds times salt = (g, 0) ∨
      ∃ slot, g.ctx.initialized = true ∧ keyId.length ≤ 256 ∧ g.sessionMgr.count < 32 ∧
        firstFree SessionKey.active g.sessionMgr.keys = some slot ∧
        createSession p g keyId ttlSeconds times salt =
          ({ g with
              sessionMgr := g.sessionMgr.take slot
                (newSession p g.ctx (g.sessionMgr.keys slot) keyId ttlSeconds times salt) },
            (slot : ℤ) + 1) := by
  rw [createSession]
  split_ifs with huninitialised hlong hfull
  · exact Or.inl rfl
  · exact Or.inl rfl
  · exact Or.inl rfl
  cases hslot : firstFree SessionKey.active g.sessionMgr.keys with
  | none => exact Or.inl rfl
  | some slot =>
    exact Or.inr ⟨slot, by simpa using huninitialised, Nat.not_lt.mp hlong, not_le.mp hfull, rfl,
      rfl⟩

/-- All that a lookup does: nothing, or it ends an expired session, or it uses a live one. -/
theorem getSessionKey_cases (g : Globals) (sessionId now lastUsedAt : ℤ) :
    getSessionKey g sessionId now lastUsedAt = (g, none) ∨
      ∃ idx, g.ctx.initialized = true ∧ sessionSlot sessionId = some idx ∧
        (g.sessionMgr.keys idx).active = true ∧
        ((g.sessionMgr.keys idx).expiresAt < now ∧
          getSessionKey g sessionId now lastUsedAt =
            ({ g with sessionMgr := g.sessionMgr.release idx (g.sessionMgr.keys idx).expire },
              none) ∨
        now ≤ (g.sessionMgr.keys idx).expiresAt ∧
          getSessionKey g sessionId now lastUsedAt =
            ({ g with
                sessionMgr := g.sessionMgr.touch idx
                  { g.sessionMgr.keys idx with
                    lastUsedAt := lastUsedAt
                    useCount := (g.sessionMgr.keys idx).useCount + 1 } },
              some ((g.sessionMgr.keys idx).sessionKey, (g.sessionMgr.keys idx).hmacKey))) := by
  rw [getSessionKey]
  split_ifs with huninitialised
  · exact Or.inl rfl
  have hinitialized : g.ctx.initialized = true := by simpa using huninitialised
  cases hslot : sessionSlot sessionId with
  | none => exact Or.inl rfl
  | some idx =>
    dsimp only
    split_ifs with hinactive hexpired
    · exact Or.inl rfl
    · exact Or.inr ⟨idx, hinitialized, rfl, by simpa using hinactive, Or.inl ⟨hexpired, rfl⟩⟩
    · exact Or.inr ⟨idx, hinitialized, rfl, by simpa using hinactive,
        Or.inr ⟨not_lt.mp hexpired, rfl⟩⟩

/-- All that a destruction does. -/
theorem destroySession_cases (g : Globals) (sessionId : ℤ) :
    destroySession g sessionId = g ∨
      ∃ idx, sessionSlot sessionId = some idx ∧ (g.sessionMgr.keys idx).active = true ∧
        destroySession g sessionId =
          { g with
            sessionMgr := g.sessionMgr.release idx (g.sessionMgr.keys idx).destroy } := by
  rw [destroySession]
  cases hslot : sessionSlot sessionId with
  | none => exact Or.inl rfl
  | some idx =>
    dsimp only
    split_ifs with hactive
    · exact Or.inr ⟨idx, rfl, hactive, rfl⟩
    · exact Or.inl rfl

theorem getSessionKey_some {g : Globals} {sessionId now lastUsedAt : ℤ} {keys : Bytes 32 × Bytes 32}
    (h : (getSessionKey g sessionId now lastUsedAt).2 = some keys) :
    ∃ idx, g.ctx.initialized = true ∧ sessionSlot sessionId = some idx ∧
      (g.sessionMgr.keys idx).active = true ∧ now ≤ (g.sessionMgr.keys idx).expiresAt := by
  obtain heq | ⟨idx, hinitialized, hslot, hactive, ⟨-, heq⟩ | ⟨hlive, -⟩⟩ :=
    getSessionKey_cases g sessionId now lastUsedAt
  · rw [heq] at h
    cases h
  · rw [heq] at h
    cases h
  · exact ⟨idx, hinitialized, hslot, hactive, hlive⟩

/-! ## Runs -/

/-- A call of the library, with what the clock and the random source say during it. -/
inductive Call where
  | initMasterRandom (reads : MasterReads) (createdAt startTime : ℤ)
  | initMaster (key salt : List UInt8) (antiTamperSeed keyRotationSeed : RandomRead 32)
      (createdAt startTime : ℤ)
  | createSession (keyId : List UInt8) (ttlSeconds : ℤ) (times : CreateTimes)
      (salt : RandomRead 16)
  | getSessionKey (sessionId now lastUsedAt : ℤ)
  | destroySession (sessionId : ℤ)
  | cleanupExpiredSessions (now : ℤ)
  | rotateMasterKey (now : ℤ)
  | wipeMaster

/-- The global variables after a call. -/
def Globals.step (p : Primitives) (g : Globals) : Call → Globals
  | .initMasterRandom reads createdAt startTime =>
    (BankCrypto.initMasterRandom g reads createdAt startTime).1
  | .initMaster key salt antiTamperSeed keyRotationSeed createdAt startTime =>
    (BankCrypto.initMaster g key salt antiTamperSeed keyRotationSeed createdAt startTime).1
  | .createSession keyId ttlSeconds times salt =>
    (BankCrypto.createSession p g keyId ttlSeconds times salt).1
  | .getSessionKey sessionId now lastUsedAt =>
    (BankCrypto.getSessionKey g sessionId now lastUsedAt).1
  | .destroySession sessionId => BankCrypto.destroySession g sessionId
  | .cleanupExpiredSessions now => BankCrypto.cleanupExpiredSessions g now
  | .rotateMasterKey now => BankCrypto.rotateMasterKey p g now
  | .wipeMaster => BankCrypto.wipeMaster g

/-! ## Calls that leave a session alone -/

/-- The creation of a session, or the destruction of another one. -/
def Call.Elsewhere (sessionId : ℤ) : Call → Prop
  | .createSession .. => True
  | .destroySession destroyed => destroyed ≠ sessionId
  | _ => False

section Elsewhere

variable {p : Primitives} {g : Globals} {sessionId : ℤ} {slot : Fin 32}

theorem createSession_elsewhere (hactive : (g.sessionMgr.keys slot).active = true)
    (keyId : List UInt8) (ttlSeconds : ℤ) (times : CreateTimes) (salt : RandomRead 16) :
    (createSession p g keyId ttlSeconds times salt).1.sessionMgr.keys slot =
        g.sessionMgr.keys slot ∧
      (createSession p g keyId ttlSeconds times salt).1.ctx = g.ctx := by
  obtain heq | ⟨taken, -, -, -, hfree, heq⟩ :=
    createSession_cases p g keyId ttlSeconds times salt
  · rw [heq]
    exact ⟨rfl, rfl⟩
  · have hinactive := firstFree_spec hfree
    have hne : slot ≠ taken := by
      rintro rfl
      rw [hactive] at hinactive
      cases hinactive
    rw [heq]
    exact ⟨Function.update_of_ne hne _ _, rfl⟩

theorem destroySession_elsewhere (hslot : sessionSlot sessionId = some slot) {destroyed : ℤ}
    (hne : destroyed ≠ sessionId) :
    (destroySession g destroyed).sessionMgr.keys slot = g.sessionMgr.keys slot ∧
      (destroySession g destroyed).ctx = g.ctx := by
  obtain heq | ⟨idx, hidx, -, heq⟩ := destroySession_cases g destroyed
  · rw [heq]
    exact ⟨rfl, rfl⟩
  · have hother : slot ≠ idx := by
      rintro rfl
      exact hne (sessionSlot_inj hidx hslot)
    rw [heq]
    exact ⟨Function.update_of_ne hother _ _, rfl⟩

theorem step_elsewhere (hslot : sessionSlot sessionId = some slot)
    (hactive : (g.sessionMgr.keys slot).active = true) {c : Call} (hc : c.Elsewhere sessionId) :
    (g.step p c).sessionMgr.keys slot = g.sessionMgr.keys slot ∧ (g.step p c).ctx = g.ctx := by
  cases c with
  | createSession keyId ttlSeconds times salt =>
    exact createSession_elsewhere hactive keyId ttlSeconds times salt
  | destroySession destroyed => exact destroySession_elsewhere hslot hc
  | _ => exact absurd hc id

/-- An active session stays as it is in every run of such calls. -/
theorem run_elsewhere (hslot : sessionSlot sessionId = some slot)
    (hactive : (g.sessionMgr.keys slot).active = true) {calls : List Call}
    (hcalls : ∀ c ∈ calls, c.Elsewhere sessionId) :
    (run (Globals.step p) g calls).sessionMgr.keys slot = g.sessionMgr.keys slot ∧
      (run (Globals.step p) g calls).ctx = g.ctx := by
  have hkeep : ∀ (g' : Globals) (c : Call),
      g'.sessionMgr.keys slot = g.sessionMgr.keys slot ∧ g'.ctx = g.ctx → c.Elsewhere sessionId →
      (g'.step p c).sessionMgr.keys slot = g.sessionMgr.keys slot ∧ (g'.step p c).ctx = g.ctx := by
    rintro g' c ⟨hkeys, hctx⟩ hc
    have hstep := step_elsewhere (p := p) hslot (g := g') (by rw [hkeys]; exact hactive) hc
    exact ⟨hstep.1.trans hkeys, hstep.2.trans hctx⟩
  exact run_invariant hkeep ⟨rfl, rfl⟩ (along_of_forall hcalls)

end Elsewhere

/-! ## A session of one hour -/

def initialisedState : Globals :=
  (initMasterRandom Globals.start
    ⟨⟨true, Vector.replicate 32 1⟩, ⟨true, Vector.replicate 32 2⟩,
      ⟨true, Vector.replicate 32 3⟩, ⟨true, Vector.replicate 32 4⟩⟩ 100 100).1

/-- A derivation that gives back the key id. -/
def keyIdPrimitives : Primitives where
  sha256 _ := zeroBytes 32
  pbkdf2HmacSha256 _ salt _ keyLen := Vector.ofFn fun i : Fin keyLen => salt.getD (32 + i) 0

/-- A session of one hour. -/
def hourSession (p : Primitives) (g : Globals) (keyId : List UInt8) : Globals × ℤ :=
  createSession p g keyId 3600 ⟨101, 101, 101⟩ ⟨true, Vector.replicate 16 5⟩

end Blackstone.BankCrypto
