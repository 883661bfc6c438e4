import Blackstone.BankCrypto.Session
import Mathlib.Data.Set.Function

/-!
# Keys of different sessions

`session/bank_session_create.cpp`. The keys of a session are derived from the master key with a
salt: the salt of the context and the first 32 bytes of the key id. The rest of a longer key id
is stored in the slot but does not go into the derivation, so two sessions under one master key
have different keys exactly when the first 32 bytes of their key ids differ
(`session_keys_ne_iff`).
-/

namespace Blackstone.BankCrypto

open SlotPool

/-- The salt that `bank_derive_session_key` gives to PBKDF2. -/
def sessionSalt (c : CryptoContext) (keyId : List UInt8) : List UInt8 :=
  c.salt.toList ++ keyId.take 32

/-- Two contexts that sessions are derived from in the same way. -/
structure CryptoContext.SameKeys (c c' : CryptoContext) : Prop where
  salt : c.salt = c'.salt
  currentKey : c.currentKey = c'.currentKey

/-- The two keys of the session with an id. -/
def Globals.sessionKeys (g : Globals) (sessionId : ℤ) : Option (Bytes 32 × Bytes 32) :=
  (sessionSlot sessionId).map fun slot =>
    ((g.sessionMgr.keys slot).sessionKey, (g.sessionMgr.keys slot).hmacKey)

theorem deriveSessionKey_eq (p : Primitives) (c : CryptoContext) (keyId : List UInt8) :
    deriveSessionKey p c keyId = derivedKeys p c (sessionSalt c keyId) :=
  rfl

theorem length_sessionSalt_le (c : CryptoContext) (keyId : List UInt8) :
    (sessionSalt c keyId).length ≤ 64 := by
  rw [sessionSalt, List.length_append, Vector.length_toList, List.length_take]
  omega

theorem sessionSalt_inj {c : CryptoContext} {keyId₁ keyId₂ : List UInt8} :
    sessionSalt c keyId₁ = sessionSalt c keyId₂ ↔ keyId₁.take 32 = keyId₂.take 32 :=
  List.append_right_inj _

/-- A session that is created has the keys that are derived for its key id. -/
theorem createSession_keys {p : Primitives} {g : Globals} {keyId : List UInt8} {ttlSeconds : ℤ}
    {times : CreateTimes} {salt : RandomRead 16}
    (h : (createSession p g keyId ttlSeconds times salt).2 ≠ 0) :
    (createSession p g keyId ttlSeconds times salt).1.sessionKeys
        (createSession p g keyId ttlSeconds times salt).2 =
      some (deriveSessionKey p g.ctx keyId) := by
  obtain heq | ⟨slot, -, -, -, -, heq⟩ := createSession_cases p g keyId ttlSeconds times salt
  · rw [heq] at h
    exact absurd rfl h
  · rw [heq, Globals.sessionKeys, sessionSlot_succ, Option.map_some]
    simp only [SessionManager.take, Function.update_self, newSession]

/-- For sessions under one master key: the salts differ exactly when the first 32 bytes of the key
ids do. So do the keys, both together (`view` the identity) or one of them (a projection), where
PBKDF2 tells the two salts apart in them. -/
theorem session_keys_ne_iff (p : Primitives) {g₁ g₂ : Globals} (hsame : g₁.ctx.SameKeys g₂.ctx)
    {keyId₁ keyId₂ : List UInt8} {ttlSeconds₁ ttlSeconds₂ : ℤ} {times₁ times₂ : CreateTimes}
    {salt₁ salt₂ : RandomRead 16}
    (h₁ : (createSession p g₁ keyId₁ ttlSeconds₁ times₁ salt₁).2 ≠ 0)
    (h₂ : (createSession p g₂ keyId₂ ttlSeconds₂ times₂ salt₂).2 ≠ 0) :
    (sessionSalt g₁.ctx keyId₁ ≠ sessionSalt g₂.ctx keyId₂ ↔ keyId₁.take 32 ≠ keyId₂.take 32) ∧
    ∀ {β : Type} (view : Bytes 32 × Bytes 32 → β),
      Set.InjOn (fun salt => view (derivedKeys p g₁.ctx salt))
        {sessionSalt g₁.ctx keyId₁, sessionSalt g₂.ctx keyId₂} →
      (((createSession p g₁ keyId₁ ttlSeconds₁ times₁ salt₁).1.sessionKeys
            (createSession p g₁ keyId₁ ttlSeconds₁ times₁ salt₁).2).map view ≠
          ((createSession p g₂ keyId₂ ttlSeconds₂ times₂ salt₂).1.sessionKeys
            (createSession p g₂ keyId₂ ttlSeconds₂ times₂ salt₂).2).map view ↔
        keyId₁.take 32 ≠ keyId₂.take 32) := by
  have hsalt : sessionSalt g₂.ctx keyId₂ = sessionSalt g₁.ctx keyId₂ := by
    rw [sessionSalt, sessionSalt, hsame.salt]
  have hderived : derivedKeys p g₂.ctx = derivedKeys p g₁.ctx := by
    funext salt
    rw [derivedKeys, derivedKeys, hsame.currentKey]
  rw [createSession_keys h₁, createSession_keys h₂, deriveSessionKey_eq, deriveSessionKey_eq,
    hderived, hsalt]
  constructor
  · exact sessionSalt_inj.not
  · intro β view hinj
    have hkeys : view (derivedKeys p g₁.ctx (sessionSalt g₁.ctx keyId₁)) =
        view (derivedKeys p g₁.ctx (sessionSalt g₁.ctx keyId₂)) ↔
          keyId₁.take 32 = keyId₂.take 32 := by
      rw [← sessionSalt_inj (c := g₁.ctx)]
      exact hinj.eq_iff (Set.mem_insert _ _) (Set.mem_insert_of_mem _ rfl)
    rw [Option.map_some, Option.map_some, Ne, Option.some_inj]
    exact hkeys.not

theorem session_keys_ne_iff_short :
    let g := (hourSession keyIdPrimitives initialisedState [65]).1
    let g' := (hourSession keyIdPrimitives g [66]).1
    sessionSalt initialisedState.ctx [65] ≠ sessionSalt g.ctx [66] ∧
      (g.sessionKeys 1).map Prod.fst ≠ (g'.sessionKeys 2).map Prod.fst := by
  have hcreated : (hourSession keyIdPrimitives initialisedState [65]).2 ≠ 0 := by decide
  have hcreated' :
      (hourSession keyIdPrimitives (hourSession keyIdPrimitives initialisedState [65]).1 [66]).2 ≠
        0 := by decide
  have hsame : initialisedState.ctx.SameKeys
      (hourSession keyIdPrimitives initialisedState [65]).1.ctx := ⟨rfl, rfl⟩
  have hboth := session_keys_ne_iff keyIdPrimitives hsame hcreated hcreated'
  have hfirst : (derivedKeys keyIdPrimitives initialisedState.ctx
      (sessionSalt initialisedState.ctx [65])).1 ≠
        (derivedKeys keyIdPrimitives initialisedState.ctx
          (sessionSalt initialisedState.ctx [66])).1 :=
    fun h => absurd (congrArg (fun v : Bytes 32 => v[0]) h) (by decide)
  have hinj : Set.InjOn (fun salt => (derivedKeys keyIdPrimitives initialisedState.ctx salt).1)
      {sessionSalt initialisedState.ctx [65], sessionSalt initialisedState.ctx [66]} :=
    Set.injOn_pair.mpr fun h => absurd h hfirst
  exact ⟨hboth.1.mpr (by decide), (hboth.2 Prod.fst hinj).mpr (by decide)⟩

/-- Two key ids of 33 bytes that differ in the last one: both sessions are created, and they are
derived with one salt. -/
theorem longKeyIds_same_salt :
    List.replicate 32 65 ++ [1] ≠ List.replicate 32 (65 : UInt8) ++ [2] ∧
    ∀ p : Primitives,
      let g := (hourSession p initialisedState (List.replicate 32 65 ++ [1])).1
      let g' := (hourSession p g (List.replicate 32 65 ++ [2])).1
      (hourSession p initialisedState (List.replicate 32 65 ++ [1])).2 = 1 ∧
      (hourSession p g (List.replicate 32 65 ++ [2])).2 = 2 ∧
      sessionSalt initialisedState.ctx (List.replicate 32 65 ++ [1]) =
        sessionSalt g.ctx (List.replicate 32 65 ++ [2]) ∧
      g.sessionKeys 1 = g'.sessionKeys 2 := by
  refine ⟨by decide, fun p => ⟨rfl, rfl, rfl, rfl⟩⟩

end Blackstone.BankCrypto
