import Blackstone.BankCrypto.Session

/-!
# The accounts of the session manager

The manager counts its active sessions and the sessions that it created and destroyed. The
calls on sessions are moves of a pool of slots (`createSession_moves` and its siblings), so
they keep the accounts and leave no key in a slot that they give back.

An initialisation sets the count to zero and keeps the slots. The accounts are right in every
state of a run exactly when every initialisation that succeeds finds no session active
(`accounting_iff`).
-/

namespace Blackstone.BankCrypto

open Relation Runs SlotPool

/-- The slot holds no key. -/
def SessionKey.Cleared (k : SessionKey) : Prop :=
  k.sessionKey = zeroBytes 32 ∧ k.hmacKey = zeroBytes 32

/-- The number of active sessions. -/
def SessionManager.activeCount (m : SessionManager) : ℤ := inUse SessionKey.active m.keys

/-- The inactive slots hold no key. -/
def SessionManager.KeysCleared (m : SessionManager) : Prop :=
  ∀ i, (m.keys i).active = false → (m.keys i).Cleared

/-- The accounts of the session manager are right. -/
structure Accounting (m : SessionManager) : Prop where
  count_eq : m.count = m.activeCount
  count_nonneg : 0 ≤ m.count
  count_le : m.count ≤ 32
  totals : ((m.totalSessionsCreated - m.totalSessionsDestroyed).toNat : ℤ) = m.count
  cleared : m.KeysCleared

/-- The call is an initialisation that succeeds. -/
def Call.Initialises : Call → Prop
  | .initMasterRandom reads _ _ => reads.ok = true
  | .initMaster key salt _ _ _ _ => key.length = 32 ∧ salt.length = 32
  | _ => False

/-- No session is active. -/
def SessionManager.Idle (m : SessionManager) : Prop := ∀ i, (m.keys i).active = false

/-! ## The session manager as a pool -/

/-- The slots of the manager and its counters. -/
def SessionManager.pool (m : SessionManager) : Pool SessionKey 32 where
  slots := m.keys
  count := m.count
  taken := m.totalSessionsCreated
  returned := m.totalSessionsDestroyed

theorem accounting_iff_balanced {m : SessionManager} :
    Accounting m ↔ Balanced SessionKey.active SessionKey.Cleared m.pool := by
  constructor
  · intro h
    exact ⟨h.count_eq, h.totals, h.cleared⟩
  · intro h
    exact ⟨h.count_eq, h.count_nonneg, h.count_le, h.totals, h.clean⟩

/-- The manager goes from one state to another by moves of its pool. -/
def Moves (m m' : SessionManager) : Prop :=
  ReflTransGen (Move SessionKey.active SessionKey.Cleared) m.pool m'.pool

theorem Moves.refl (m : SessionManager) : Moves m m := ReflTransGen.refl

theorem Moves.accounting {m m' : SessionManager} (hmoves : Moves m m') (h : Accounting m) :
    Accounting m' := by
  rw [accounting_iff_balanced] at h ⊢
  exact h.moves (by decide) hmoves

theorem moves_take {m : SessionManager} {slot : Fin 32} {k : SessionKey}
    (hfree : (m.keys slot).active = false) (hactive : k.active = true) :
    Moves m (m.take slot k) :=
  ReflTransGen.single (Move.take hfree hactive)

theorem moves_touch {m : SessionManager} {slot : Fin 32} {k : SessionKey}
    (hwas : (m.keys slot).active = true) (hactive : k.active = true) :
    Moves m (m.touch slot k) :=
  ReflTransGen.single (Move.touch hwas hactive)

theorem moves_release {m : SessionManager} {slot : Fin 32} {k : SessionKey}
    (hwas : (m.keys slot).active = true) (hfree : k.active = false) (hcleared : k.Cleared) :
    Moves m (m.release slot k) :=
  ReflTransGen.single (Move.release hwas hfree hcleared)

/-! ## The calls are moves -/

theorem createSession_moves (p : Primitives) (g : Globals) (keyId : List UInt8)
    (ttlSeconds : ℤ) (times : CreateTimes) (salt : RandomRead 16) :
    Moves g.sessionMgr (createSession p g keyId ttlSeconds times salt).1.sessionMgr := by
  obtain heq | ⟨slot, -, -, -, hslot, heq⟩ := createSession_cases p g keyId ttlSeconds times salt
  · rw [heq]
    exact Moves.refl _
  · rw [heq]
    exact moves_take (firstFree_spec hslot) rfl

theorem getSessionKey_moves (g : Globals) (sessionId now lastUsedAt : ℤ) :
    Moves g.sessionMgr (getSessionKey g sessionId now lastUsedAt).1.sessionMgr := by
  obtain heq | ⟨idx, -, -, hactive, ⟨-, heq⟩ | ⟨-, heq⟩⟩ :=
    getSessionKey_cases g sessionId now lastUsedAt
  · rw [heq]
    exact Moves.refl _
  · rw [heq]
    exact moves_release hactive rfl ⟨rfl, rfl⟩
  · rw [heq]
    exact moves_touch hactive hactive

theorem destroySession_moves (g : Globals) (sessionId : ℤ) :
    Moves g.sessionMgr (destroySession g sessionId).sessionMgr := by
  obtain heq | ⟨idx, -, hactive, heq⟩ := destroySession_cases g sessionId
  · rw [heq]
    exact Moves.refl _
  · rw [heq]
    exact moves_release hactive rfl ⟨rfl, rfl⟩

theorem expireSlot_moves (now : ℤ) (m : SessionManager) (i : Fin 32) :
    Moves m (m.expireSlot now i) := by
  rw [SessionManager.expireSlot]
  split_ifs with hexpired
  · exact moves_release hexpired.1 rfl ⟨rfl, rfl⟩
  · exact Moves.refl _

theorem cleanupExpiredSessions_moves (g : Globals) (now : ℤ) :
    Moves g.sessionMgr (cleanupExpiredSessions g now).sessionMgr := by
  have hslots : ∀ slots : List (Fin 32),
      Moves g.sessionMgr (run (SessionManager.expireSlot now) g.sessionMgr slots) := by
    intro slots
    apply run_invariant (P := fun _ _ => True) _ (Moves.refl g.sessionMgr) (along_true _ slots)
    intro m i hm _
    exact hm.trans (expireSlot_moves now m i)
  simp only [cleanupExpiredSessions]
  exact hslots (List.finRange 32)

theorem accounting_of_idle {m : SessionManager} (hidle : m.Idle) (hcount : m.count = 0)
    (htotals : m.totalSessionsCreated = m.totalSessionsDestroyed)
    (hcleared : ∀ i, (m.keys i).Cleared) : Accounting m :=
  accounting_iff_balanced.mpr (Balanced.of_idle hidle hcount htotals hcleared)

theorem accounting_zero : Accounting SessionManager.zero :=
  accounting_of_idle (fun _ => rfl) rfl rfl fun _ => ⟨rfl, rfl⟩

/-! ## What a call does to the session manager -/

/-- The changes of the session manager by a call. -/
inductive SessionChange (c : Call) (m m' : SessionManager) : Prop
  | moves (hc : ¬c.Initialises) (hmoves : Moves m m')
  | wiped (hc : ¬c.Initialises) (hzero : m' = SessionManager.zero)
  | restarted (hc : c.Initialises) (hkeys : m'.keys = m.keys) (hcount : m'.count = 0)
      (htotals : m'.totalSessionsCreated = m.totalSessionsCreated ∧
          m'.totalSessionsDestroyed = m.totalSessionsDestroyed ∨
        m'.totalSessionsCreated = 0 ∧ m'.totalSessionsDestroyed = 0)

theorem step_change (p : Primitives) (g : Globals) (c : Call) :
    SessionChange c g.sessionMgr (g.step p c).sessionMgr := by
  cases c with
  | initMasterRandom reads createdAt startTime =>
    rw [Globals.step, initMasterRandom_sessionMgr]
    split_ifs with hreads
    · exact .restarted hreads rfl rfl (Or.inr ⟨rfl, rfl⟩)
    · exact .moves hreads (Moves.refl _)
  | initMaster key salt antiTamperSeed keyRotationSeed createdAt startTime =>
    rw [Globals.step, initMaster_sessionMgr]
    split_ifs with hlength
    · exact .restarted hlength rfl rfl (Or.inl ⟨rfl, rfl⟩)
    · exact .moves hlength (Moves.refl _)
  | createSession keyId ttlSeconds times salt =>
    exact .moves not_false (createSession_moves p g keyId ttlSeconds times salt)
  | getSessionKey sessionId now lastUsedAt =>
    exact .moves not_false (getSessionKey_moves g sessionId now lastUsedAt)
  | destroySession sessionId => exact .moves not_false (destroySession_moves g sessionId)
  | cleanupExpiredSessions now =>
    exact .moves not_false (cleanupExpiredSessions_moves g now)
  | rotateMasterKey now =>
    rw [Globals.step, rotateMasterKey_sessionMgr]
    exact .moves not_false (Moves.refl _)
  | wipeMaster =>
    rw [Globals.step, wipeMaster_sessionMgr]
    split_ifs
    · exact .wiped not_false rfl
    · exact .moves not_false (Moves.refl _)

/-- Every call keeps the accounts, an initialisation that succeeds excepted. -/
theorem step_accounting {p : Primitives} {g : Globals} (h : Accounting g.sessionMgr)
    {c : Call} (hc : ¬c.Initialises) : Accounting (g.step p c).sessionMgr := by
  cases step_change p g c with
  | moves _ hmoves => exact hmoves.accounting h
  | wiped _ hzero =>
    rw [hzero]
    exact accounting_zero
  | restarted hinit => exact absurd hinit hc

/-- Every call leaves no key in the inactive slots, an initialisation included. -/
theorem step_cleared (p : Primitives) (g : Globals) (c : Call)
    (h : g.sessionMgr.KeysCleared) : (g.step p c).sessionMgr.KeysCleared := by
  cases step_change p g c with
  | moves _ hmoves => exact clean_of_moves hmoves h
  | wiped _ hzero =>
    rw [hzero]
    exact accounting_zero.cleared
  | restarted _ hkeys =>
    rw [SessionManager.KeysCleared, hkeys]
    exact h

/-- In every state of every run the inactive slots hold no key. -/
theorem run_cleared (p : Primitives) (calls : List Call) :
    (run (Globals.step p) Globals.start calls).sessionMgr.KeysCleared := by
  have hstep : ∀ g c, g.sessionMgr.KeysCleared → True →
      (Globals.step p g c).sessionMgr.KeysCleared := fun g c h _ => step_cleared p g c h
  exact run_invariant hstep accounting_zero.cleared (along_true _ calls)

/-! ## Initialisation -/

theorem activeCount_eq_zero_iff {m : SessionManager} : m.activeCount = 0 ↔ m.Idle :=
  inUse_eq_zero_iff

theorem totals_eq_of_idle {m : SessionManager} (h : Accounting m) (hidle : m.Idle) :
    m.totalSessionsCreated = m.totalSessionsDestroyed := by
  have htotals := h.totals
  rw [h.count_eq, activeCount_eq_zero_iff.mpr hidle] at htotals
  have hzero : m.totalSessionsCreated - m.totalSessionsDestroyed = 0 :=
    UInt64.toNat_inj.mp (by exact_mod_cast htotals)
  grind

/-- An initialisation keeps the accounts exactly when no session is active. -/
theorem initialises_accounting_iff {p : Primitives} {g : Globals} (h : Accounting g.sessionMgr)
    {c : Call} (hc : c.Initialises) :
    Accounting (g.step p c).sessionMgr ↔ g.sessionMgr.Idle := by
  cases step_change p g c with
  | moves hno => exact absurd hc hno
  | wiped hno => exact absurd hc hno
  | restarted _ hkeys hcount htotals =>
    constructor
    · intro hafter
      have hactive := hafter.count_eq
      rw [hcount, SessionManager.activeCount, hkeys] at hactive
      exact activeCount_eq_zero_iff.mp hactive.symm
    · intro hidle
      have hequal := totals_eq_of_idle h hidle
      apply accounting_of_idle
      · intro i
        rw [hkeys]
        exact hidle i
      · exact hcount
      · rcases htotals with ⟨hcreated, hdestroyed⟩ | ⟨hcreated, hdestroyed⟩
        · exact hcreated.trans (hequal.trans hdestroyed.symm)
        · exact hcreated.trans hdestroyed.symm
      · intro i
        rw [hkeys]
        exact h.cleared i (hidle i)

/-- The accounts are right after every call of a run exactly when every initialisation that
succeeds finds no session active. -/
theorem accounting_iff (p : Primitives) (calls : List Call) :
    Along (Globals.step p) (fun g c => Accounting (g.step p c).sessionMgr) Globals.start calls ↔
      Along (Globals.step p) (fun g c => c.Initialises → g.sessionMgr.Idle) Globals.start
        calls := by
  apply along_congr_of_invariant (fun g => Accounting g.sessionMgr)
  · intro g c h
    by_cases hc : c.Initialises
    · rw [initialises_accounting_iff h hc]
      exact ⟨fun hidle _ => hidle, fun hidle => hidle hc⟩
    · exact ⟨fun _ hinit => absurd hinit hc, fun _ => step_accounting h hc⟩
  · intro g c _ hafter
    exact hafter
  · exact accounting_zero

/-- The library is initialised, a session is created, and the library is initialised again. -/
def initialisedTwice : List Call :=
  [.initMasterRandom
      ⟨⟨true, Vector.replicate 32 1⟩, ⟨true, Vector.replicate 32 2⟩,
        ⟨true, Vector.replicate 32 3⟩, ⟨true, Vector.replicate 32 4⟩⟩ 100 100,
    .createSession [65] 3600 ⟨101, 101, 101⟩ ⟨true, Vector.replicate 16 5⟩,
    .initMaster (List.replicate 32 6) (List.replicate 32 7)
      ⟨true, Vector.replicate 32 8⟩ ⟨true, Vector.replicate 32 9⟩ 102 102]

/-- The session stays active and is no longer counted, whatever the hash functions are. -/
theorem initialisedTwice_unbalanced :
    ¬∃ p : Primitives,
      Along (Globals.step p) (fun g c => Accounting (g.step p c).sessionMgr) Globals.start
        initialisedTwice := by
  rintro ⟨p, -, -, hlast, -⟩
  have hactive :
      ((run (Globals.step p) Globals.start initialisedTwice).sessionMgr.keys 0).active = true :=
    rfl
  have hpos := inUse_pos hactive
  have hcount : 0 = (run (Globals.step p) Globals.start initialisedTwice).sessionMgr.activeCount :=
    hlast.count_eq
  exact absurd hcount hpos.ne

end Blackstone.BankCrypto
