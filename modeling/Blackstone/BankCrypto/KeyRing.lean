import Blackstone.BankCrypto.SourcePrimitives

/-!
# The ring of rotated keys

`bank_rotate_master_key` hashes the current key together with the rotation seed into the next of
eight cells. `Generations` says that the cells behind the current one hold the last eight
generations; an initialisation starts it, a rotation moves it on, and the calls on sessions leave it
alone (`run_generations`).
-/

namespace Blackstone.BankCrypto

open Runs SlotPool

/-- The next generation of a key. -/
def nextKey (p : Primitives) (seed key : Bytes 32) : Bytes 32 :=
  p.sha256 (key.toList ++ seed.toList)

/-- After `n` rotations, the last eight generations are in the ring. -/
structure Generations (p : Primitives) (key seed : Bytes 32) (n : ℕ) (c : CryptoContext) :
    Prop where
  initialized : c.initialized = true
  rotationSeed : c.keyRotationSeed = seed
  index : c.currentKeyIndex.val = n % 8
  ring : ∀ j ≤ min n 7, ∀ i : Fin 8, i.val = (n - j) % 8 →
    c.keyChain i = (nextKey p seed)^[n - j] key

/-- A successful initialisation, with the master key and the rotation seed that it sets. -/
inductive Initialised (g : Globals) : (key seed : Bytes 32) → Globals → Prop where
  | random {g' : Globals} {r : MasterReads} {createdAt startTime : ℤ}
      (h : initMasterRandom g r createdAt startTime = (g', true)) :
      Initialised g r.masterKey.bytes r.keyRotationSeed.bytes g'
  | given {g' : Globals} {key : Bytes 32} {salt : List UInt8}
      {antiTamperSeed keyRotationSeed : RandomRead 32} {createdAt startTime : ℤ}
      (h : initMaster g key.toList salt antiTamperSeed keyRotationSeed createdAt startTime =
        (g', true)) :
      Initialised g key keyRotationSeed.bytes g'

/-- The call neither initialises the library nor wipes it. -/
def Call.KeepsRing : Call → Prop
  | .initMasterRandom .. => False
  | .initMaster .. => False
  | .wipeMaster => False
  | _ => True

/-- The rotations among the calls. -/
def rotations (calls : List Call) : ℕ :=
  calls.countP fun c => match c with
    | .rotateMasterKey _ => true
    | _ => false

/-- What a rotation leaves alone. -/
structure SameButRing (g g' : Globals) : Prop where
  masterKey : g'.ctx.masterKey = g.ctx.masterKey
  salt : g'.ctx.salt = g.ctx.salt
  antiTamperSeed : g'.ctx.antiTamperSeed = g.ctx.antiTamperSeed
  keyRotationSeed : g'.ctx.keyRotationSeed = g.ctx.keyRotationSeed
  sessionMgr : g'.sessionMgr = g.sessionMgr

theorem rotateMasterKey_sameButRing (p : Primitives) (g : Globals) (now : ℤ) :
    SameButRing g (rotateMasterKey p g now) := by
  rw [rotateMasterKey]
  split
  · exact ⟨rfl, rfl, rfl, rfl, rfl⟩
  · exact ⟨rfl, rfl, rfl, rfl, rfl⟩

section Ring

variable {p : Primitives} {key seed : Bytes 32} {n : ℕ}

/-- The current key and the seven before it are in different cells. -/
theorem Generations.rotate {g : Globals} (h : Generations p key seed n g.ctx) (now : ℤ) :
    Generations p key seed (n + 1) (rotateMasterKey p g now).ctx := by
  obtain ⟨hinitialized, hseed, hindex, hring⟩ := h
  have hcurrent : g.ctx.keyChain g.ctx.currentKeyIndex = (nextKey p seed)^[n] key :=
    hring 0 (Nat.zero_le _) _ hindex
  have hnext : (g.ctx.currentKeyIndex + 1).val = (n + 1) % 8 := by
    rw [Fin.val_add, hindex]
    exact Nat.mod_add_mod n 8 1
  rw [rotateMasterKey, hinitialized, Bool.not_true, if_neg Bool.false_ne_true]
  refine ⟨hinitialized, hseed, hnext, fun j hj i hi => ?_⟩
  dsimp only
  rcases Nat.eq_zero_or_pos j with rfl | hpos
  · obtain rfl : i = g.ctx.currentKeyIndex + 1 := Fin.ext (hi.trans hnext.symm)
    rw [Function.update_self, hcurrent, hseed, Nat.sub_zero, Function.iterate_succ_apply']
    rfl
  · have hne : i ≠ g.ctx.currentKeyIndex + 1 := by
      rintro rfl
      omega
    have hold : n + 1 - j = n - (j - 1) := by omega
    rw [Function.update_of_ne hne, hold]
    exact hring (j - 1) (by omega) i (hold ▸ hi)

theorem Generations.begin {c : CryptoContext} (hkey : c.masterKey = key)
    (hseed : c.keyRotationSeed = seed) (now : ℤ) : Generations p key seed 0 (c.begin now) := by
  refine ⟨rfl, hseed, rfl, fun j hj i hi => ?_⟩
  obtain rfl : i = 0 := Fin.ext (hi.trans (by rw [Nat.zero_sub]; rfl))
  rw [Nat.zero_sub, Function.iterate_zero_apply, ← hkey]
  exact Function.update_self 0 c.masterKey c.keyChain

theorem Initialised.generations {g g' : Globals} (h : Initialised g key seed g') :
    Generations p key seed 0 g'.ctx ∧ g'.ctx.masterKey = key := by
  cases h with
  | @random _ r createdAt startTime h =>
    simp only [initMasterRandom] at h
    split_ifs at h
    · cases (Prod.mk.inj h).2
    · cases (Prod.mk.inj h).2
    · cases (Prod.mk.inj h).2
    · cases (Prod.mk.inj h).2
    · obtain ⟨rfl, -⟩ := Prod.mk.inj h
      refine ⟨Generations.begin ?_ ?_ createdAt, rfl⟩
      · rfl
      · rfl
  | @given _ key salt antiTamperSeed keyRotationSeed createdAt startTime h =>
    have hkey : copyTo g.ctx.masterKey key.toList = key :=
      Vector.toList_inj.mp (toList_copyTo_full key.length_toList)
    simp only [initMaster] at h
    split_ifs at h
    · cases (Prod.mk.inj h).2
    · obtain ⟨rfl, -⟩ := Prod.mk.inj h
      refine ⟨Generations.begin ?_ ?_ createdAt, hkey⟩
      · exact hkey
      · rfl

end Ring

/-! ## Calls between the rotations -/

section Calls

variable {p : Primitives} {g : Globals}

theorem createSession_ctx (keyId : List UInt8) (ttlSeconds : ℤ) (times : CreateTimes)
    (salt : RandomRead 16) : (createSession p g keyId ttlSeconds times salt).1.ctx = g.ctx := by
  obtain heq | ⟨slot, -, -, -, -, heq⟩ := createSession_cases p g keyId ttlSeconds times salt
  · rw [heq]
  · rw [heq]

theorem getSessionKey_ctx (sessionId now lastUsedAt : ℤ) :
    (getSessionKey g sessionId now lastUsedAt).1.ctx = g.ctx := by
  obtain heq | ⟨idx, -, -, -, ⟨-, heq⟩ | ⟨-, heq⟩⟩ :=
    getSessionKey_cases g sessionId now lastUsedAt
  · rw [heq]
  · rw [heq]
  · rw [heq]

theorem destroySession_ctx (sessionId : ℤ) : (destroySession g sessionId).ctx = g.ctx := by
  obtain heq | ⟨idx, -, -, heq⟩ := destroySession_cases g sessionId
  · rw [heq]
  · rw [heq]

theorem rotations_cons (c : Call) (calls : List Call) :
    rotations (c :: calls) = rotations calls + rotations [c] := by
  rw [rotations, rotations, rotations, List.countP_cons, List.countP_singleton]

/-- Between an initialisation and a wipe, rotations only reach the context. -/
theorem step_ctx {c : Call} (hc : c.KeepsRing) :
    (∃ now, c = .rotateMasterKey now) ∨ rotations [c] = 0 ∧ (g.step p c).ctx = g.ctx := by
  cases c with
  | createSession keyId ttlSeconds times salt =>
    exact Or.inr ⟨rfl, createSession_ctx keyId ttlSeconds times salt⟩
  | getSessionKey sessionId now lastUsedAt =>
    exact Or.inr ⟨rfl, getSessionKey_ctx sessionId now lastUsedAt⟩
  | destroySession sessionId => exact Or.inr ⟨rfl, destroySession_ctx sessionId⟩
  | cleanupExpiredSessions now => exact Or.inr ⟨rfl, rfl⟩
  | rotateMasterKey now => exact Or.inl ⟨now, rfl⟩
  | _ => exact absurd hc id

/-- A call takes the ring on by its rotations. -/
theorem step_generations {key seed : Bytes 32} {n : ℕ} {c : Call}
    (h : Generations p key seed n g.ctx) (hc : c.KeepsRing) :
    Generations p key seed (n + rotations [c]) (g.step p c).ctx := by
  obtain ⟨now, rfl⟩ | ⟨hnone, hctx⟩ := step_ctx (p := p) (g := g) hc
  · exact h.rotate now
  · rw [hnone, hctx]
    exact h

/-- The keys that no rotation changes. -/
theorem step_masterKeys {c : Call} (hc : c.KeepsRing) :
    (g.step p c).ctx.masterKey = g.ctx.masterKey ∧ (g.step p c).ctx.salt = g.ctx.salt ∧
      (g.step p c).ctx.antiTamperSeed = g.ctx.antiTamperSeed ∧
      (g.step p c).ctx.keyRotationSeed = g.ctx.keyRotationSeed := by
  obtain ⟨now, rfl⟩ | ⟨-, hctx⟩ := step_ctx (p := p) (g := g) hc
  · have hsame := rotateMasterKey_sameButRing p g now
    exact ⟨hsame.masterKey, hsame.salt, hsame.antiTamperSeed, hsame.keyRotationSeed⟩
  · rw [hctx]
    exact ⟨rfl, rfl, rfl, rfl⟩

theorem run_generations {key seed : Bytes 32} {n : ℕ} {calls : List Call}
    (h : Generations p key seed n g.ctx) (hcalls : ∀ c ∈ calls, c.KeepsRing) :
    Generations p key seed (n + rotations calls) (run (Globals.step p) g calls).ctx := by
  induction calls generalizing g n with
  | nil => exact h
  | cons c calls ih =>
    rw [List.forall_mem_cons] at hcalls
    rw [run_cons, rotations_cons, Nat.add_comm (rotations calls), ← Nat.add_assoc]
    exact ih (step_generations h hcalls.1) hcalls.2

end Calls

/-- After an initialisation and any calls without another one and without a wipe, the ring holds
the last eight generations of the master key, and its rotations have changed nothing else. -/
theorem keyRing_generations {g g₀ : Globals} {key seed : Bytes 32}
    (hinit : Initialised g key seed g₀) {calls : List Call} (hcalls : ∀ c ∈ calls, c.KeepsRing) :
    let p := sourcePrimitives
    let c := (run (Globals.step p) g₀ calls).ctx
    let n := rotations calls
    c.currentKeyIndex.val = n % 8 ∧
      (∀ j ≤ min n 7, ∀ i : Fin 8, i.val = (n - j) % 8 →
        c.keyChain i = (nextKey p seed)^[n - j] key) ∧
      c.masterKey = key ∧ c.salt = g₀.ctx.salt ∧ c.antiTamperSeed = g₀.ctx.antiTamperSeed ∧
      c.keyRotationSeed = seed ∧
      Along (Globals.step p)
        (fun g call => ∀ now, call = .rotateMasterKey now → SameButRing g (g.step p call))
        g₀ calls := by
  intro p c n
  obtain ⟨hstart, hkey⟩ := hinit.generations (p := p)
  have hring := run_generations hstart hcalls
  rw [Nat.zero_add] at hring
  have hkeep : ∀ (g' : Globals) (call : Call), (g'.ctx.masterKey = key ∧
      g'.ctx.salt = g₀.ctx.salt ∧ g'.ctx.antiTamperSeed = g₀.ctx.antiTamperSeed) →
      call.KeepsRing → ((g'.step p call).ctx.masterKey = key ∧
        (g'.step p call).ctx.salt = g₀.ctx.salt ∧
        (g'.step p call).ctx.antiTamperSeed = g₀.ctx.antiTamperSeed) := by
    rintro g' call ⟨hmaster, hsalt, hseed⟩ hcall
    obtain ⟨hmaster', hsalt', hseed', -⟩ := step_masterKeys (p := p) (g := g') hcall
    exact ⟨hmaster'.trans hmaster, hsalt'.trans hsalt, hseed'.trans hseed⟩
  obtain ⟨hmaster, hsalt, hseed⟩ := run_invariant hkeep ⟨hkey, rfl, rfl⟩ (along_of_forall hcalls)
  refine ⟨hring.index, hring.ring, hmaster, hsalt, hseed, hring.rotationSeed, ?_⟩
  apply Along.imp _ (along_true g₀ calls)
  rintro g' call - now rfl
  exact rotateMasterKey_sameButRing p g' now

/-- Nine rotations and a session. -/
def nineRotations : List Call :=
  .createSession [65] 3600 ⟨101, 101, 101⟩ ⟨true, Vector.replicate 16 5⟩ ::
    List.replicate 9 (.rotateMasterKey 102)

theorem keyRing_generations_nine :
    let c := (run (Globals.step sourcePrimitives) initialisedState nineRotations).ctx
    c.currentKeyIndex.val = 1 ∧ ∀ i : Fin 8, i.val = 2 →
      c.keyChain i = (nextKey sourcePrimitives (Vector.replicate 32 4))^[2]
        (Vector.replicate 32 1) := by
  have hinit : Initialised Globals.start (Vector.replicate 32 1) (Vector.replicate 32 4)
      initialisedState :=
    @Initialised.random Globals.start initialisedState ⟨⟨true, Vector.replicate 32 1⟩,
      ⟨true, Vector.replicate 32 2⟩, ⟨true, Vector.replicate 32 3⟩,
      ⟨true, Vector.replicate 32 4⟩⟩ 100 100 rfl
  have hcalls : ∀ c ∈ nineRotations, c.KeepsRing := by
    intro c hc
    rcases List.mem_cons.mp hc with rfl | hc
    · trivial
    · rw [List.eq_of_mem_replicate hc]
      trivial
  obtain ⟨hindex, hring, -⟩ := keyRing_generations hinit hcalls
  exact ⟨hindex, fun i hi => hring 7 (by decide) i hi⟩

end Blackstone.BankCrypto
