import Blackstone.BankCrypto.SourcePrimitives
import Blackstone.BankCrypto.Utils
import Blackstone.CryptoSingleFile.Wipe

/-!
# Signatures of the single-file library

`bank_sign_data` asks `bank_get_session_key` for the HMAC key only, and gives it `NULL` for the
session key. That function looks at `hmac_key` before it writes there, but not at `session_key`: for
every session that it finds alive, it writes through the null pointer (`signData_eq_none_iff`).
-/

namespace Blackstone.CryptoSingleFile

open BankCrypto Runs SlotPool

/-- The argument of a caller who wants a key, or does not. -/
inductive KeyPointer where
  | null
  | buffer

/-- `memcpy` of a key, where `none` is a write through a null pointer. -/
def KeyPointer.copy (key : Bytes 32) : KeyPointer → Option (Bytes 32)
  | .null => none
  | .buffer => some key

/-- What `bank_get_session_key` leaves in the buffers of its caller when it returns 1. -/
structure CopiedKeys where
  sessionKey : Bytes 32
  hmacKey : Option (Bytes 32)

/-- `bank_get_session_key`, where `none` is a write through a null pointer. -/
def getSessionKeyTo (g : Globals) (sessionId now lastUsedAt : ℤ) (sessionKey hmacKey : KeyPointer) :
    Option (Globals × Option CopiedKeys) :=
  if !g.ctx.initialized then some (g, none)
  else
    match sessionSlot sessionId with
    | none => some (g, none)
    | some idx =>
      let k := g.sessionMgr.keys idx
      if !k.active then some (g, none)
      else if k.expiresAt < now then
        some ({ g with sessionMgr := g.sessionMgr.release idx k.expire }, none)
      else do
        let copied ← sessionKey.copy k.sessionKey
        let used := { k with lastUsedAt := lastUsedAt, useCount := k.useCount + 1 }
        return ({ g with sessionMgr := g.sessionMgr.touch idx used },
          some ⟨copied, hmacKey.copy k.hmacKey⟩)

/-- `bank_sign_data` into a buffer for the signature. -/
def signData (g : Globals) (sessionId now lastUsedAt : ℤ) (data : Option (List UInt8)) :
    Option (Globals × Option (List UInt8)) :=
  if !g.ctx.initialized then some (g, none)
  else
    match data with
    | none => some (g, none)
    | some data =>
      match getSessionKeyTo g sessionId now lastUsedAt .null .buffer with
      | none => none
      | some (g, none) => some (g, none)
      | some (g, some keys) => do
        let hmacKey ← keys.hmacKey
        return (g, some (← hmacSha256 hmacKey.toList data))

/-- `bank_verify_signature`. -/
def verifySignature (g : Globals) (sessionId now lastUsedAt : ℤ) (data : Option (List UInt8))
    (signature : Bytes 32) : Option (Globals × Bool) := do
  match ← signData g sessionId now lastUsedAt data with
  | (g, none) => return (g, false)
  | (g, some expected) => return (g, secureCompare signature (copyTo (zeroBytes 32) expected))

/-- The session is found, and has not expired. -/
def Live (g : Globals) (sessionId now : ℤ) : Prop :=
  g.ctx.initialized = true ∧ ∃ idx, sessionSlot sessionId = some idx ∧
    (g.sessionMgr.keys idx).active = true ∧ now ≤ (g.sessionMgr.keys idx).expiresAt

/-- A signature is made, and accepted as long as the session is live. -/
def Signs (g : Globals) (sessionId now lastUsedAt : ℤ) (data : List UInt8) : Prop :=
  ∃ g' signature, signData g sessionId now lastUsedAt (some data) = some (g', some signature) ∧
    ∀ now' lastUsedAt', Live g' sessionId now' →
      ∃ g'', verifySignature g' sessionId now' lastUsedAt' (some data)
        (copyTo (zeroBytes 32) signature) = some (g'', true)

section Null

variable {g : Globals} {sessionId now lastUsedAt : ℤ}

/-- With both pointers the function is the one of the library in several files. -/
theorem getSessionKeyTo_buffers (g : Globals) (sessionId now lastUsedAt : ℤ) :
    getSessionKeyTo g sessionId now lastUsedAt .buffer .buffer =
      some ((getSessionKey g sessionId now lastUsedAt).1,
        (getSessionKey g sessionId now lastUsedAt).2.map fun keys => ⟨keys.1, some keys.2⟩) := by
  rw [getSessionKeyTo, getSessionKey]
  split_ifs
  · rfl
  cases sessionSlot sessionId with
  | none => rfl
  | some idx =>
    dsimp only
    split_ifs
    · rfl
    · rfl
    · rfl

theorem getSessionKeyTo_null_of_live (hlive : Live g sessionId now) (hmacKey : KeyPointer) :
    getSessionKeyTo g sessionId now lastUsedAt .null hmacKey = none := by
  obtain ⟨hinitialized, idx, hslot, hactive, hexpires⟩ := hlive
  rw [getSessionKeyTo, hinitialized, hslot]
  dsimp only
  rw [hactive, if_neg (by decide), if_neg (by decide), if_neg (not_lt.mpr hexpires)]
  rfl

theorem getSessionKeyTo_of_not_live (hlive : ¬Live g sessionId now)
    (sessionKey hmacKey : KeyPointer) :
    ∃ g', getSessionKeyTo g sessionId now lastUsedAt sessionKey hmacKey = some (g', none) := by
  rw [getSessionKeyTo]
  split_ifs with huninitialised
  · exact ⟨g, rfl⟩
  cases hslot : sessionSlot sessionId with
  | none => exact ⟨g, rfl⟩
  | some idx =>
    dsimp only
    split_ifs with hinactive hexpired
    · exact ⟨g, rfl⟩
    · exact ⟨_, rfl⟩
    · refine absurd ⟨by simpa using huninitialised, idx, hslot, by simpa using hinactive, ?_⟩ hlive
      exact not_lt.mp hexpired

/-- The null pointer is written through exactly for the live sessions; for all others, 0 is
returned. -/
theorem signData_eq_none_iff (g : Globals) (sessionId now lastUsedAt : ℤ) (data : List UInt8) :
    (signData g sessionId now lastUsedAt (some data) = none ↔ Live g sessionId now) ∧
      (¬Live g sessionId now →
        ∃ g', signData g sessionId now lastUsedAt (some data) = some (g', none)) := by
  by_cases hlive : Live g sessionId now
  · have hnull : signData g sessionId now lastUsedAt (some data) = none := by
      rw [signData, hlive.1, Bool.not_true, if_neg Bool.false_ne_true,
        getSessionKeyTo_null_of_live hlive]
    exact ⟨iff_of_true hnull hlive, fun hdead => absurd hlive hdead⟩
  · have hrefused : ∃ g', signData g sessionId now lastUsedAt (some data) = some (g', none) := by
      rw [signData]
      split_ifs
      · exact ⟨g, rfl⟩
      · obtain ⟨g', hkeys⟩ :=
          @getSessionKeyTo_of_not_live g sessionId now lastUsedAt hlive .null .buffer
        rw [hkeys]
        exact ⟨g', rfl⟩
    refine ⟨iff_of_false ?_ hlive, fun _ => hrefused⟩
    obtain ⟨g', hrefused⟩ := hrefused
    rw [hrefused]
    exact Option.some_ne_none _

end Null

/-- No live session signs anything, in whatever state. -/
theorem not_signs_of_live {g : Globals} {sessionId now : ℤ} (hlive : Live g sessionId now)
    (lastUsedAt : ℤ) (data : List UInt8) :
    signData g sessionId now lastUsedAt (some data) = none ∧
      ¬Signs g sessionId now lastUsedAt data := by
  have hnull := (signData_eq_none_iff g sessionId now lastUsedAt data).1.mpr hlive
  refine ⟨hnull, ?_⟩
  rintro ⟨g', signature, hsigned, -⟩
  rw [hnull] at hsigned
  cases hsigned

/-- The library has been initialised, and sessions have been created. -/
def Call.Creates : Call → Prop
  | .initMasterRandom .. => True
  | .initMaster .. => True
  | .createSession .. => True
  | _ => False

/-- The state after an initialisation and the creation of a session of one hour. -/
def oneSessionState : Globals := run (step sourcePrimitives) Globals.start oneSession

theorem oneSession_live : Live oneSessionState 1 200 := by
  have hexpires : (oneSessionState.sessionMgr.keys 0).expiresAt = 3701 := rfl
  refine ⟨rfl, 0, rfl, rfl, ?_⟩
  rw [hexpires]
  decide

theorem not_signs_of_live_oneSession :
    signData oneSessionState 1 200 200 (some [1]) = none ∧ ¬Signs oneSessionState 1 200 200 [1] :=
  not_signs_of_live oneSession_live 200 [1]

theorem oneSession_not_signs :
    ¬∀ calls : List Call, (∀ c ∈ calls, c.Creates) → ∀ sessionId now lastUsedAt data,
      Live (run (step sourcePrimitives) Globals.start calls) sessionId now →
      Signs (run (step sourcePrimitives) Globals.start calls) sessionId now lastUsedAt data := by
  intro hall
  have hcreates : ∀ c ∈ oneSession, c.Creates := by
    intro c hc
    rcases List.mem_pair.mp hc with rfl | rfl
    · trivial
    · trivial
  obtain ⟨g', signature, hsigned, -⟩ := hall oneSession hcreates 1 200 200 [1] oneSession_live
  have hnull := (signData_eq_none_iff oneSessionState 1 200 200 [1]).1.mpr oneSession_live
  rw [← oneSessionState, hnull] at hsigned
  cases hsigned

end Blackstone.CryptoSingleFile
