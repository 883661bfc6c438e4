import Blackstone.BankCrypto.Accounting

/-!
# The wipe of the single-file library

The library of `main.cpp` has the functions on keys and sessions of the one in several files, but
its `bank_wipe_master` clears the context only and leaves the session manager as it is. A session
that is active at the wipe keeps its keys in memory, and its id is accepted again after the next
initialisation. The wipe does what it is for exactly when no session is active (`wiped_iff_idle`).
-/

namespace Blackstone.CryptoSingleFile

open BankCrypto Runs SlotPool

/-- `bank_wipe_master`. -/
def wipeMaster (g : Globals) : Globals :=
  if !g.ctx.initialized then g
  else { g with ctx := CryptoContext.zero, libraryInitialized := false }

/-- A call of the library, with what the clock and the random source say during it. -/
inductive Call where
  | initMasterRandom (reads : MasterReads) (createdAt startTime : ℤ)
  | initMaster (key salt : List UInt8) (antiTamperSeed keyRotationSeed : RandomRead 32)
      (createdAt startTime : ℤ)
  | createSession (keyId : List UInt8) (ttlSeconds : ℤ) (times : CreateTimes)
      (salt : RandomRead 16)
  | getSessionKey (sessionId now lastUsedAt : ℤ)
  | destroySession (sessionId : ℤ)
  | rotateMasterKey (now : ℤ)
  | wipeMaster

/-- The global variables after a call. -/
def step (p : Primitives) (g : Globals) : Call → Globals
  | .initMasterRandom reads createdAt startTime =>
    (BankCrypto.initMasterRandom g reads createdAt startTime).1
  | .initMaster key salt antiTamperSeed keyRotationSeed createdAt startTime =>
    (BankCrypto.initMaster g key salt antiTamperSeed keyRotationSeed createdAt startTime).1
  | .createSession keyId ttlSeconds times salt =>
    (BankCrypto.createSession p g keyId ttlSeconds times salt).1
  | .getSessionKey sessionId now lastUsedAt =>
    (BankCrypto.getSessionKey g sessionId now lastUsedAt).1
  | .destroySession sessionId => BankCrypto.destroySession g sessionId
  | .rotateMasterKey now => BankCrypto.rotateMasterKey p g now
  | .wipeMaster => CryptoSingleFile.wipeMaster g

/-- The id that a call of `bank_create_session` returns. -/
def returned (p : Primitives) (g : Globals) : Call → List ℤ
  | .createSession keyId ttlSeconds times salt =>
    [(BankCrypto.createSession p g keyId ttlSeconds times salt).2]
  | _ => []

/-- The session ids that are returned in a run. -/
def issued (p : Primitives) (g : Globals) : List Call → List ℤ
  | [] => []
  | c :: calls => returned p g c ++ issued p (step p g c) calls

/-- What a wipe in a state is for, where some ids were issued before: no key is left in the session
manager, and whatever is called later, `bank_get_session_key` refuses these ids unless they are
issued again. -/
structure Wiped (p : Primitives) (g : Globals) (ids : List ℤ) : Prop where
  cleared : ∀ i, ((wipeMaster g).sessionMgr.keys i).Cleared
  refused : ∀ later sessionId now lastUsedAt, sessionId ∈ ids →
    sessionId ∉ issued p (wipeMaster g) later →
    (getSessionKey (run (step p) (wipeMaster g) later) sessionId now lastUsedAt).2 = none

/-! ## Active sessions and issued ids -/

section Active

variable {p : Primitives} {g : Globals}

theorem wipeMaster_sessionMgr (g : Globals) : (wipeMaster g).sessionMgr = g.sessionMgr := by
  rw [wipeMaster]
  cases g.ctx.initialized <;> rfl

theorem createSession_active {keyId : List UInt8} {ttlSeconds : ℤ} {times : CreateTimes}
    {salt : RandomRead 16} {i : Fin 32}
    (h : ((createSession p g keyId ttlSeconds times salt).1.sessionMgr.keys i).active = true) :
    (g.sessionMgr.keys i).active = true ∨
      (i : ℤ) + 1 = (createSession p g keyId ttlSeconds times salt).2 := by
  obtain heq | ⟨slot, -, -, -, -, heq⟩ := createSession_cases p g keyId ttlSeconds times salt
  · rw [heq] at h
    exact Or.inl h
  · rw [heq] at h ⊢
    by_cases hi : i = slot
    · right
      rw [hi]
    · left
      simpa only [SessionManager.take, Function.update_of_ne hi] using h

theorem active_of_release {m : SessionManager} {slot : Fin 32} {k : SessionKey}
    (hk : k.active = false) {i : Fin 32} (h : ((m.release slot k).keys i).active = true) :
    (m.keys i).active = true := by
  by_cases hi : i = slot
  · have hfree : ((m.release slot k).keys slot).active = false := by
      simp only [SessionManager.release, Function.update_self, hk]
    rw [hi, hfree] at h
    cases h
  · simpa only [SessionManager.release, Function.update_of_ne hi] using h

theorem getSessionKey_active {sessionId now lastUsedAt : ℤ} {i : Fin 32}
    (h : ((getSessionKey g sessionId now lastUsedAt).1.sessionMgr.keys i).active = true) :
    (g.sessionMgr.keys i).active = true := by
  obtain heq | ⟨idx, -, -, hactive, ⟨-, heq⟩ | ⟨-, heq⟩⟩ :=
    getSessionKey_cases g sessionId now lastUsedAt
  · rwa [heq] at h
  · rw [heq] at h
    exact active_of_release rfl h
  · rw [heq] at h
    by_cases hi : i = idx
    · rw [hi]
      exact hactive
    · simpa only [SessionManager.touch, Function.update_of_ne hi] using h

theorem destroySession_active {sessionId : ℤ} {i : Fin 32}
    (h : ((destroySession g sessionId).sessionMgr.keys i).active = true) :
    (g.sessionMgr.keys i).active = true := by
  obtain heq | ⟨idx, -, -, heq⟩ := destroySession_cases g sessionId
  · rwa [heq] at h
  · rw [heq] at h
    exact active_of_release rfl h

/-- A slot becomes active only when its id is returned. -/
theorem active_or_returned {c : Call} {i : Fin 32}
    (h : ((step p g c).sessionMgr.keys i).active = true) :
    (g.sessionMgr.keys i).active = true ∨ (i : ℤ) + 1 ∈ returned p g c := by
  cases c with
  | initMasterRandom reads createdAt startTime =>
    left
    rw [step, initMasterRandom_sessionMgr] at h
    split_ifs at h <;> exact h
  | initMaster key salt antiTamperSeed keyRotationSeed createdAt startTime =>
    left
    rw [step, initMaster_sessionMgr] at h
    split_ifs at h <;> exact h
  | createSession keyId ttlSeconds times salt =>
    rcases createSession_active h with hactive | hid
    · exact Or.inl hactive
    · exact Or.inr (List.mem_singleton.mpr hid)
  | getSessionKey sessionId now lastUsedAt => exact Or.inl (getSessionKey_active h)
  | destroySession sessionId => exact Or.inl (destroySession_active h)
  | rotateMasterKey now =>
    left
    rwa [step, rotateMasterKey_sessionMgr] at h
  | wipeMaster =>
    left
    rwa [step, wipeMaster_sessionMgr] at h

/-- A slot that is active after a run was active before it or its id was issued in the run. -/
theorem active_or_issued {calls : List Call} {i : Fin 32}
    (h : ((run (step p) g calls).sessionMgr.keys i).active = true) :
    (g.sessionMgr.keys i).active = true ∨ (i : ℤ) + 1 ∈ issued p g calls := by
  induction calls generalizing g with
  | nil => exact Or.inl h
  | cons c calls ih =>
    rw [run_cons] at h
    rw [issued, List.mem_append]
    rcases ih h with hactive | hissued
    · rcases active_or_returned hactive with hbefore | hreturned
      · exact Or.inl hbefore
      · exact Or.inr (Or.inl hreturned)
    · exact Or.inr (Or.inr hissued)

theorem step_cleared (c : Call) (h : g.sessionMgr.KeysCleared) :
    (step p g c).sessionMgr.KeysCleared := by
  cases c with
  | wipeMaster => rwa [step, wipeMaster_sessionMgr]
  | initMasterRandom reads createdAt startTime =>
    exact BankCrypto.step_cleared p g (.initMasterRandom reads createdAt startTime) h
  | initMaster key salt antiTamperSeed keyRotationSeed createdAt startTime =>
    exact BankCrypto.step_cleared p g
      (.initMaster key salt antiTamperSeed keyRotationSeed createdAt startTime) h
  | createSession keyId ttlSeconds times salt =>
    exact BankCrypto.step_cleared p g (.createSession keyId ttlSeconds times salt) h
  | getSessionKey sessionId now lastUsedAt =>
    exact BankCrypto.step_cleared p g (.getSessionKey sessionId now lastUsedAt) h
  | destroySession sessionId => exact BankCrypto.step_cleared p g (.destroySession sessionId) h
  | rotateMasterKey now => exact BankCrypto.step_cleared p g (.rotateMasterKey now) h

theorem run_cleared (calls : List Call) :
    (run (step p) Globals.start calls).sessionMgr.KeysCleared := by
  have hstep : ∀ g c, g.sessionMgr.KeysCleared → True → (step p g c).sessionMgr.KeysCleared :=
    fun g c h _ => step_cleared c h
  exact run_invariant hstep accounting_zero.cleared (along_true _ calls)

end Active

/-! ## When the wipe is complete -/

section Complete

variable {p : Primitives} {g : Globals} {ids : List ℤ}

theorem Wiped.of_idle (hcleared : g.sessionMgr.KeysCleared) (hidle : g.sessionMgr.Idle) :
    Wiped p g ids where
  cleared i := by
    rw [wipeMaster_sessionMgr]
    exact hcleared i (hidle i)
  refused later sessionId now lastUsedAt _ hnew := by
    rw [← Option.not_isSome_iff_eq_none, Option.isSome_iff_exists]
    rintro ⟨keys, hkeys⟩
    obtain ⟨idx, -, hslot, hactive, -⟩ := getSessionKey_some hkeys
    obtain rfl : sessionId = (idx : ℤ) + 1 := sessionSlot_inj hslot (sessionSlot_succ idx)
    rcases active_or_issued hactive with hbefore | hissued
    · rw [wipeMaster_sessionMgr, hidle idx] at hbefore
      cases hbefore
    · exact hnew hissued

def initialise : Call :=
  .initMasterRandom ⟨⟨true, zeroBytes 32⟩, ⟨true, zeroBytes 32⟩, ⟨true, zeroBytes 32⟩,
    ⟨true, zeroBytes 32⟩⟩ 0 0

/-- An active session is accepted again after the wipe and an initialisation. -/
theorem Wiped.idle (hissued : ∀ i, (g.sessionMgr.keys i).active = true → (i : ℤ) + 1 ∈ ids)
    (h : Wiped p g ids) : g.sessionMgr.Idle := by
  intro i
  by_contra hne
  have hactive : (g.sessionMgr.keys i).active = true := by simpa using hne
  let after := run (step p) (wipeMaster g) [initialise]
  have hkeys : after.sessionMgr.keys = g.sessionMgr.keys := by
    change (wipeMaster g).sessionMgr.keys = _
    rw [wipeMaster_sessionMgr]
  have hinitialized : after.ctx.initialized = true := rfl
  have hnew : (i : ℤ) + 1 ∉ issued p (wipeMaster g) [initialise] := List.not_mem_nil
  have hrefused := h.refused [initialise] _ (g.sessionMgr.keys i).expiresAt 0 (hissued i hactive)
    hnew
  rw [getSessionKey_of_active hinitialized (sessionSlot_succ i) (by rw [hkeys]; exact hactive),
    hkeys, if_neg (lt_irrefl _)] at hrefused
  cases hrefused

end Complete

/-- After every run, a wipe does what it is for exactly when no session is active. -/
theorem wiped_iff_idle (p : Primitives) (calls : List Call) :
    Wiped p (run (step p) Globals.start calls) (issued p Globals.start calls) ↔
      (run (step p) Globals.start calls).sessionMgr.Idle := by
  constructor
  · intro h
    apply h.idle
    intro i hactive
    rcases active_or_issued hactive with hstart | hissued
    · cases hstart
    · exact hissued
  · exact Wiped.of_idle (run_cleared calls)

/-- The library is initialised and a session of one hour is created. -/
def oneSession : List Call :=
  [initialise, .createSession [65] 3600 ⟨101, 101, 101⟩ ⟨true, Vector.replicate 16 5⟩]

/-- The session is accepted after the wipe and another initialisation, whatever the hash functions
are. -/
theorem oneSession_not_wiped :
    ¬∃ p : Primitives,
      Wiped p (run (step p) Globals.start oneSession) (issued p Globals.start oneSession) := by
  rintro ⟨p, h⟩
  have hissued : (1 : ℤ) ∈ issued p Globals.start oneSession := List.mem_singleton.mpr rfl
  have hrefused := h.refused [initialise] 1 200 200 hissued List.not_mem_nil
  have haccepted : (getSessionKey (run (step p)
      (wipeMaster (run (step p) Globals.start oneSession)) [initialise]) 1 200 200).2.isSome =
        true := rfl
  rw [hrefused] at haccepted
  cases haccepted

end Blackstone.CryptoSingleFile
