import Blackstone.BankCrypto.Envelope
import Mathlib.Data.Set.Function

/-!
# The round trip of an envelope

`envelope/bank_envelope_create.cpp` and `bank_envelope_extract.cpp`. An envelope is extracted with
the first active session that has the keys of its session. When that is another session and it has
expired, the envelope is lost although its own session is live (`extract_createEnvelope_iff`).
-/

namespace Blackstone.BankCrypto

open Runs

/-- A use of a session leaves its keys and its expiry as they are. -/
structure SessionKey.Same (k k' : SessionKey) : Prop where
  active : k'.active = k.active
  sessionKey : k'.sessionKey = k.sessionKey
  hmacKey : k'.hmacKey = k.hmacKey
  expiresAt : k'.expiresAt = k.expiresAt

theorem SessionKey.Same.trans {k k' k'' : SessionKey} (h : k.Same k') (h' : k'.Same k'') :
    k.Same k'' :=
  ⟨h'.active.trans h.active, h'.sessionKey.trans h.sessionKey, h'.hmacKey.trans h.hmacKey,
    h'.expiresAt.trans h.expiresAt⟩

section RoundTrip

variable {p : Primitives} {encryptBlock : Bytes 32 → Bytes 16 → Bytes 16} {g : Globals}
  {plain aad : List UInt8} {sessionId : ℤ} {iv : Bytes 12}

/-- The keys that are given out are those of the slot, which stays as it is. -/
theorem getSessionKey_spec {now lastUsedAt : ℤ} {keys : Bytes 32 × Bytes 32}
    (h : (getSessionKey g sessionId now lastUsedAt).2 = some keys) :
    ∃ slot, sessionSlot sessionId = some slot ∧ g.ctx.initialized = true ∧
      (g.sessionMgr.keys slot).active = true ∧
      keys = ((g.sessionMgr.keys slot).sessionKey, (g.sessionMgr.keys slot).hmacKey) ∧
      (getSessionKey g sessionId now lastUsedAt).1.ctx = g.ctx ∧
      (g.sessionMgr.keys slot).Same
        ((getSessionKey g sessionId now lastUsedAt).1.sessionMgr.keys slot) := by
  obtain ⟨slot, hinitialized, hslot, hactive, hexpiry⟩ := getSessionKey_some h
  rw [getSessionKey_of_active hinitialized hslot hactive, if_neg (by omega)] at h ⊢
  refine ⟨slot, hslot, hinitialized, hactive, (Option.some.inj h).symm, rfl, ?_⟩
  simp only [SessionManager.touch, Function.update_self]
  exact ⟨rfl, rfl, rfl, rfl⟩

theorem encryptData_spec {now lastUsedAt : ℤ} {cipher : List UInt8} {tag : Bytes 16}
    (h : (encryptData encryptBlock g plain aad sessionId iv now lastUsedAt).2 =
      some (cipher, tag)) :
    ∃ slot, sessionSlot sessionId = some slot ∧
      (g.sessionMgr.keys slot).active = true ∧
      gcmEncrypt encryptBlock (g.sessionMgr.keys slot).sessionKey iv.toList aad plain =
        some (cipher, tag) ∧
      (g.sessionMgr.keys slot).Same
        ((encryptData encryptBlock g plain aad sessionId iv now lastUsedAt).1.sessionMgr.keys
          slot) := by
  rw [encryptData] at h ⊢
  split_ifs at h ⊢ with huninitialised hlong hlibrary
  cases hget : getSessionKey g sessionId now lastUsedAt with
  | mk g' result =>
    rw [hget] at h
    cases result with
    | none => cases h
    | some keys =>
      obtain ⟨slot, hslot, -, hactive, hkeys, -, hsame⟩ :=
        getSessionKey_spec (h := congrArg Prod.snd hget)
      rw [hget] at hsame
      obtain ⟨sessionKey, hmacKey⟩ := keys
      obtain ⟨rfl, -⟩ := Prod.mk.inj hkeys
      dsimp only at h ⊢
      cases hresult : gcmEncrypt encryptBlock (g.sessionMgr.keys slot).sessionKey iv.toList aad
        plain with
      | none =>
        rw [hresult] at h
        cases h
      | some result =>
        rw [hresult] at h
        exact ⟨slot, hslot, hactive, hresult.trans h, hsame⟩

/-- What an envelope holds, of the session that it is created with. -/
theorem createEnvelope_spec {times : EnvelopeTimes} {e : Envelope}
    (h : (createEnvelope p encryptBlock g plain aad sessionId iv times).2 = some e) :
    ∃ slot, sessionSlot sessionId = some slot ∧ (g.sessionMgr.keys slot).active = true ∧
      plain.length ≤ 10485760 - 1024 ∧
      gcmEncrypt encryptBlock (g.sessionMgr.keys slot).sessionKey e.iv.toList aad plain =
        some (e.encryptedData, e.tag) ∧
      crc32 e.encryptedData = e.crc32 ∧
      e.authTag = fingerprint p (g.sessionMgr.keys slot) ∧
      (createEnvelope p encryptBlock g plain aad sessionId iv times).1.ctx.initialized = true ∧
      (g.sessionMgr.keys slot).Same
        ((createEnvelope p encryptBlock g plain aad sessionId iv times).1.sessionMgr.keys slot) := by
  rw [createEnvelope] at h ⊢
  split_ifs at h ⊢ with hlong
  cases hdata : encryptData encryptBlock g plain aad sessionId iv times.encryptNow
    times.encryptUsedAt with
  | mk g' result =>
    rw [hdata] at h
    cases result with
    | none => cases h
    | some result =>
      obtain ⟨cipher, tag⟩ := result
      obtain ⟨slot, hslot, hactive, hcipher, hsame⟩ :=
        encryptData_spec (h := congrArg Prod.snd hdata)
      rw [hdata] at hsame
      dsimp only at h ⊢
      cases hget : getSessionKey g' sessionId times.keysNow times.keysUsedAt with
      | mk g'' keys =>
        rw [hget] at h
        cases keys with
        | none => cases h
        | some keys =>
          obtain ⟨slot', hslot', hinitialized, -, hkeys, hctx, hsame'⟩ :=
            getSessionKey_spec (h := congrArg Prod.snd hget)
          obtain rfl : slot = slot' := Option.some.inj (hslot.symm.trans hslot')
          rw [hget] at hctx hsame'
          obtain ⟨sessionKey, hmacKey⟩ := keys
          obtain ⟨rfl, rfl⟩ := Prod.mk.inj hkeys
          obtain rfl := Option.some.inj h
          refine ⟨slot, hslot, hactive, by omega, hcipher, rfl, ?_, ?_, hsame.trans hsame'⟩
          · rw [fingerprint, SessionKey.hashInput, ← hsame.sessionKey, ← hsame.hmacKey]
          · rw [hctx]
            exact hinitialized

end RoundTrip

/-! ## Sessions with the same keys -/

/-- The first active session with the two keys of a session. -/
def SessionManager.firstTwin (m : SessionManager) (slot : Fin 32) : Option (Fin 32) :=
  (List.finRange 32).find? fun i =>
    (m.keys i).active && decide ((m.keys i).hashInput = (m.keys slot).hashInput)

theorem SessionKey.hashInput_inj {k k' : SessionKey} :
    k.hashInput = k'.hashInput ↔ k.sessionKey = k'.sessionKey ∧ k.hmacKey = k'.hmacKey := by
  constructor
  · intro h
    obtain ⟨hsession, hhmac⟩ :=
      List.append_inj h (by rw [Vector.length_toList, Vector.length_toList])
    exact ⟨Vector.toList_inj.mp hsession, Vector.toList_inj.mp hhmac⟩
  · rintro ⟨hsession, hhmac⟩
    rw [hashInput, hashInput, hsession, hhmac]

section Twins

variable {p : Primitives} {m : SessionManager} {slot : Fin 32}

/-- An active session has a twin, at the latest itself. -/
theorem firstTwin_isSome (hactive : (m.keys slot).active = true) :
    ∃ i, m.firstTwin slot = some i ∧ (m.keys i).active = true ∧
      (m.keys i).hashInput = (m.keys slot).hashInput := by
  cases hfind : m.firstTwin slot with
  | none =>
    have hself := List.find?_eq_none.mp hfind slot (List.mem_finRange slot)
    simp [hactive] at hself
  | some i =>
    have hfound := List.find?_some hfind
    rw [Bool.and_eq_true, decide_eq_true_eq] at hfound
    exact ⟨i, rfl, hfound⟩

/-- The search by fingerprint finds the first session with the keys. -/
theorem findSession_fingerprint (hactive : (m.keys slot).active = true)
    (hinj : Set.InjOn p.sha256
      {text | ∃ i, (m.keys i).active = true ∧ (m.keys i).hashInput = text}) :
    findSession p m (fingerprint p (m.keys slot)) = m.firstTwin slot := by
  have hsame : ∀ i, ((m.keys i).active &&
      secureCompare (fingerprint p (m.keys slot)) (fingerprint p (m.keys i))) =
        ((m.keys i).active && decide ((m.keys i).hashInput = (m.keys slot).hashInput)) := by
    intro i
    rw [Bool.eq_iff_iff, Bool.and_eq_true, Bool.and_eq_true, secureCompare_iff, decide_eq_true_eq]
    constructor
    · rintro ⟨hi, h⟩
      exact ⟨hi, hinj ⟨i, hi, rfl⟩ ⟨slot, hactive, rfl⟩ h.symm⟩
    · rintro ⟨hi, h⟩
      exact ⟨hi, by rw [fingerprint, fingerprint, h]⟩
  rw [findSession, SessionManager.firstTwin, funext hsame]

end Twins

/-- After calls that leave the session alone, extraction gives the plaintext back exactly when the
first active session with the same two keys has not expired. -/
theorem extract_createEnvelope_iff {p : Primitives}
    {encryptBlock : Bytes 32 → Bytes 16 → Bytes 16} {g : Globals} {plain aad : List UInt8}
    {sessionId : ℤ} {iv : Bytes 12} {times : EnvelopeTimes} {e : Envelope} {slot : Fin 32}
    (hcreate : (createEnvelope p encryptBlock g plain aad sessionId iv times).2 = some e)
    (hslot : sessionSlot sessionId = some slot) {calls : List Call}
    (hcalls : ∀ c ∈ calls, c.Elsewhere sessionId) {after : Globals}
    (hafter : after = run (Globals.step p)
      (createEnvelope p encryptBlock g plain aad sessionId iv times).1 calls)
    (hinj : Set.InjOn p.sha256
      {text | ∃ i, (after.sessionMgr.keys i).active = true ∧
        (after.sessionMgr.keys i).hashInput = text}) (now lastUsedAt : ℤ) (out : Output) :
    (extractEnvelope p encryptBlock after e aad now lastUsedAt out).2 =
        (true, ⟨plain ++ out.plain.drop plain.length, plain.length⟩) ↔
      ∀ i, after.sessionMgr.firstTwin slot = some i →
        now ≤ (after.sessionMgr.keys i).expiresAt := by
  obtain ⟨slot', hslot', hactive, hlength, hcipher, hcrc, hauth, hinitialized, hsame⟩ :=
    createEnvelope_spec hcreate
  obtain rfl : slot = slot' := Option.some.inj (hslot.symm.trans hslot')
  have hrun := run_elsewhere (p := p) hslot (hsame.active.trans hactive) hcalls
  rw [← hafter] at hrun
  obtain ⟨hkeys, hctx⟩ := hrun
  have hactive' : (after.sessionMgr.keys slot).active = true := by
    rw [hkeys, hsame.active, hactive]
  have hinput : (after.sessionMgr.keys slot).hashInput = (g.sessionMgr.keys slot).hashInput := by
    rw [hkeys, SessionKey.hashInput_inj]
    exact ⟨hsame.sessionKey, hsame.hmacKey⟩
  have hfind : findSession p after.sessionMgr e.authTag = after.sessionMgr.firstTwin slot := by
    rw [hauth, fingerprint, ← hinput]
    exact findSession_fingerprint hactive' hinj
  obtain ⟨i, hi, hiactive, hitwin⟩ := firstTwin_isSome hactive'
  have hkey : (after.sessionMgr.keys i).sessionKey = (g.sessionMgr.keys slot).sessionKey :=
    (SessionKey.hashInput_inj.mp (hitwin.trans hinput)).1
  rw [gcmEncrypt, if_neg (not_not.mpr Vector.length_toList), ← hkey] at hcipher
  obtain ⟨hdata, htag⟩ := Prod.mk.inj (Option.some.inj hcipher)
  have hright : e.TagRight encryptBlock aad (after.sessionMgr.keys i).sessionKey := by
    rw [Envelope.TagRight, ← htag, hdata]
  have hsize : e.encryptedData.length = plain.length := by rw [← hdata, length_gctr]
  rw [extractEnvelope, if_neg (not_not.mpr hcrc), hfind, hi]
  dsimp only
  rw [decryptData_spec hiactive, hctx, hsize]
  constructor
  · intro h j hj
    obtain rfl : i = j := Option.some.inj hj
    split_ifs at h with hall
    · exact hall.2.2.1
    · cases congrArg Prod.fst h
  · intro h
    rw [if_pos ⟨hinitialized, by omega, h i rfl, hright⟩, ← hdata, gctr_gctr]

theorem extract_createEnvelope_iff_hour :
    let g := (hourSession keyIdPrimitives initialisedState [65]).1
    let created := createEnvelope keyIdPrimitives (fun _ block => block) g [1, 2, 3] [] 1
      (zeroBytes 12) ⟨102, 102, 102, 102, 102⟩
    let after := run (Globals.step keyIdPrimitives) created.1 [.destroySession 7]
    ∃ e, created.2 = some e ∧
      ((extractEnvelope keyIdPrimitives (fun _ block => block) after e [] 103 103
          ⟨[0, 0, 0], 0⟩).2 =
          (true, ⟨[1, 2, 3] ++ List.drop 3 [0, 0, 0], 3⟩) ↔
        ∀ i, after.sessionMgr.firstTwin 0 = some i →
          103 ≤ (after.sessionMgr.keys i).expiresAt) := by
  intro g created after
  obtain ⟨e, he⟩ := Option.isSome_iff_exists.mp (show created.2.isSome = true from rfl)
  have hone : ∀ i, (after.sessionMgr.keys i).active = true → i = 0 := by decide
  refine ⟨e, he, extract_createEnvelope_iff he rfl ?_ rfl ?_ 103 103 ⟨[0, 0, 0], 0⟩⟩
  · intro c hc
    rw [List.mem_singleton] at hc
    subst hc
    exact (by decide : (7 : ℤ) ≠ 1)
  · rintro _ ⟨i, hi, rfl⟩ _ ⟨j, hj, rfl⟩ _
    rw [hone i hi, hone j hj]

/-- Two sessions with one key id: the first for ten seconds, the second for an hour. -/
def twinSessions (p : Primitives) : Globals :=
  (hourSession p
    (createSession p initialisedState [65] 10 ⟨101, 101, 101⟩ ⟨true, Vector.replicate 16 5⟩).1
    [65]).1

/-- An envelope of the second session is lost at 200, when the first one has expired and the second
one is live, whatever the hash functions and the cipher are. -/
theorem twinSession_lost :
    ¬∃ (p : Primitives) (encryptBlock : Bytes 32 → Bytes 16 → Bytes 16), ∀ (e : Envelope)
        (out : Output),
      let created := createEnvelope p encryptBlock (twinSessions p) [1] [] 2 (zeroBytes 12)
        ⟨102, 102, 102, 102, 102⟩
      created.2 = some e → 200 ≤ (created.1.sessionMgr.keys 1).expiresAt →
        (extractEnvelope p encryptBlock created.1 e [] 200 200 out).2 =
          (true, ⟨[1] ++ out.plain.drop 1, 1⟩) := by
  rintro ⟨p, encryptBlock, h⟩
  let created := createEnvelope p encryptBlock (twinSessions p) [1] [] 2 (zeroBytes 12)
    ⟨102, 102, 102, 102, 102⟩
  obtain ⟨e, he⟩ := Option.isSome_iff_exists.mp (show created.2.isSome = true from rfl)
  have hlive : (200 : ℤ) ≤ 3701 := by decide
  have hextract := congrArg Prod.fst (h e ⟨[], 0⟩ he hlive)
  obtain ⟨-, i, hi, -, -, hexpiry, -⟩ := extractEnvelope_spec.mp hextract
  -- The first session has the fingerprint of the envelope, as both were derived from one key id.
  obtain ⟨slot, hslot, -, -, -, -, hauth, -, -⟩ := createEnvelope_spec he
  obtain rfl : 1 = slot := Option.some.inj hslot
  have hsame : fingerprint p ((twinSessions p).sessionMgr.keys 1) =
      fingerprint p (created.1.sessionMgr.keys 0) := rfl
  have hactive : (created.1.sessionMgr.keys 0).active = true := rfl
  have hfound := findSession_zero (p := p) hactive
  rw [← hsame, ← hauth] at hfound
  obtain rfl : 0 = i := Option.some.inj (hfound.symm.trans hi)
  have hexpired : ¬(200 : ℤ) ≤ 111 := by decide
  exact hexpired hexpiry

end Blackstone.BankCrypto
