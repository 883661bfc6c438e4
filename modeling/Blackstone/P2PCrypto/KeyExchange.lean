import Blackstone.P2PCrypto.Cipher
import Blackstone.P2PCrypto.PermutationTables
import Blackstone.P2PCrypto.Signature

/-!
# The key exchange

`key_exchange.c`. The two phases write one byte to each word of `key_schedule`, and the keys are
copied from there as bytes, so that 32 bytes of a key are four words of which one byte is used.

`keyExchange_spec` says what every byte of the two keys is; `keyExchange_eq_iff` when two exchanges
give the same keys: only the first four bytes of the public key and of the random numbers count.
-/

namespace Blackstone.P2PCrypto

open ByteOrder PermutationTable

/-- What `apply_key_derivation` and `compute_exchange_phase1` make of a byte. -/
def derivedByte (ctx : CryptoContext) (b : UInt8) : UInt8 :=
  b ^^^ lookup ctx.ternarySbox (lookup ctx.sboxByte b)

/-- `apply_key_derivation`. -/
def applyKeyDerivation (ctx : CryptoContext) (key : List UInt8) : List UInt8 :=
  key.map (derivedByte ctx)

/-- `generate_random_key`. The key is missing where the code is `CRYPTO_ERROR`. -/
def generateRandomKey (ctx : CryptoContext) (rnd : ℕ → UInt64) (keyLen : ℕ) :
    Option (List UInt8) :=
  if ctx.initialized then some (applyKeyDerivation ctx (randomBytes rnd keyLen)) else none

/-- `compute_exchange_phase1`. -/
def computeExchangePhase1 (ctx : CryptoContext) (input : List UInt8) : CryptoContext :=
  { ctx with
    keySchedule := Vector.ofFn fun i =>
      match input[i.val]? with
      | some b => (derivedByte ctx b).toUInt64
      | none => ctx.keySchedule.get i }

/-- `compute_exchange_phase2`. -/
def computeExchangePhase2 (ctx : CryptoContext) (input : List UInt8) : CryptoContext :=
  { ctx with
    keySchedule := Vector.ofFn fun i =>
      match input[i.val]? with
      | some b => (lookup ctx.invSbox (b ^^^ (ctx.keySchedule.get i &&& 0xFF).toUInt8)).toUInt64
      | none => ctx.keySchedule.get i }

/-- `memcpy` of 32 bytes from `key_schedule`. -/
def scheduleBytes (ctx : CryptoContext) : List UInt8 := (memory ctx.keySchedule.toList).take 32

/-- `random_bytes(ctx, (byte *)ctx->random_buffer, 32)`. -/
def fillRandomBuffer (ctx : CryptoContext) (rnd : ℕ → UInt64) : CryptoContext :=
  { ctx with randomBuffer := memcpyWords ctx.randomBuffer (randomBytes rnd 32) }

/-- `key_exchange`: the context, and `shared_secret_out` and `session_key_out`, which are missing
where the code is `CRYPTO_ERROR`. -/
def keyExchange (ctx : CryptoContext) (publicKey : List UInt8) (rnd : ℕ → UInt64) :
    CryptoContext × Option (List UInt8 × List UInt8) :=
  if ctx.initialized then
    let phase1 := computeExchangePhase1 (fillRandomBuffer ctx rnd) publicKey
    let phase2 := computeExchangePhase2 phase1 ((memory phase1.randomBuffer.toList).take 32)
    (phase2, some (scheduleBytes phase1, scheduleBytes phase2))
  else (ctx, none)

/-! ## The bytes of the keys -/

/-- A word that holds one byte. -/
theorem store_toUInt64 (b : UInt8) : store 8 b.toUInt64.toNat = b :: List.replicate 7 0 := by
  have hall : ∀ i : Fin 256, store 8 i.val = UInt8.ofNat i.val :: List.replicate 7 0 := by
    decide +kernel
  have hb := hall b.toFin
  rw [UInt8.toNat_toUInt64]
  have hval : b.toFin.val = b.toNat := rfl
  rw [hval, UInt8.ofNat_toNat] at hb
  exact hb

/-- Bytes that are written with seven zeros behind each. -/
def spread (key : Fin 4 → UInt8) : List UInt8 :=
  (List.ofFn key).flatMap fun b => b :: List.replicate 7 0

/-- Four words that hold one byte each. -/
theorem scheduleBytes_eq {ctx : CryptoContext} {key : Fin 4 → UInt8}
    (hkey : ∀ i : Fin 4, ctx.keySchedule.get ⟨i.val, by omega⟩ = (key i).toUInt64) :
    scheduleBytes ctx = spread key := by
  have hfour : ctx.keySchedule.toList.take 4 = (List.ofFn key).map UInt8.toUInt64 := by
    apply List.ext_getElem
    · simp
    · intro i hi _
      rw [List.length_take] at hi
      have hget := hkey ⟨i, by omega⟩
      simp only [List.getElem_take, Vector.getElem_toList, List.getElem_map, List.getElem_ofFn]
      exact hget
  have hsplit : memory ctx.keySchedule.toList =
      memory (ctx.keySchedule.toList.take 4) ++ memory (ctx.keySchedule.toList.drop 4) := by
    rw [memory, memory, memory, ← List.flatMap_append, List.take_append_drop]
  have hlength : (memory (ctx.keySchedule.toList.take 4)).length = 32 := by
    rw [length_memory, List.length_take, Vector.length_toList]
    rfl
  rw [scheduleBytes, hsplit, List.take_left' hlength, hfour, memory, List.flatMap_map, spread]
  simp only [store_toUInt64]

/-- Words that were read from memory are the memory. -/
theorem memory_wordAt {n : ℕ} {bytes : List UInt8} (hlength : bytes.length = 8 * n) :
    memory ((List.range n).map (wordAt bytes)) = bytes := by
  induction n generalizing bytes with
  | zero =>
    rw [List.length_eq_zero_iff.mp hlength]
    rfl
  | succ n ih =>
    have htake : (bytes.take 8).length = 8 := by
      rw [List.length_take]
      omega
    have hfirst : store 8 (wordAt bytes 0).toNat = bytes.take 8 := by
      have hlt : load (bytes.take 8) < 2 ^ 64 := load_lt htake
      rw [wordAt, Nat.mul_zero, List.drop_zero, UInt64.toNat_ofNat_of_lt' hlt, store_load htake]
    have hrest : (wordAt bytes ∘ Nat.succ) = wordAt (bytes.drop 8) := by
      funext i
      rw [Function.comp_apply, wordAt, wordAt, List.drop_drop, Nat.mul_succ, Nat.add_comm]
    rw [List.range_succ_eq_map, List.map_cons, List.map_map, hrest, memory, List.flatMap_cons,
      ← memory, hfirst, ih, List.take_append_drop]
    rw [List.length_drop]
    omega

/-- The bytes that were copied to words are read back. -/
theorem take_memory_memcpyWords {n : ℕ} (words : Vector UInt64 n) {bytes : List UInt8}
    (hle : bytes.length ≤ 8 * n) :
    (memory (memcpyWords words bytes).toList).take bytes.length = bytes := by
  have hall : (bytes ++ (memory words.toList).drop bytes.length).length = 8 * n := by
    rw [List.length_append, List.length_drop, length_memory, Vector.length_toList]
    omega
  have hwords : (memcpyWords words bytes).toList = (List.range n).map
      (wordAt (bytes ++ (memory words.toList).drop bytes.length)) := by
    rw [memcpyWords, Vector.toList_ofFn]
    apply List.ext_getElem
    · simp
    · intro i _ _
      simp
  rw [hwords, memory_wordAt hall, List.take_left]

section Spec

variable {ctx : CryptoContext} {publicKey publicKey' : List UInt8} {rnd rnd' : ℕ → UInt64}

/-- A byte of the session key, from the byte of the shared secret and the random one. -/
def sessionByte (ctx : CryptoContext) (shared random : UInt8) : UInt8 :=
  lookup ctx.invSbox (random ^^^ shared)

/-- The four bytes of the shared secret that are not zero by construction. -/
def sharedBytes (ctx : CryptoContext) (publicKey : List UInt8) (i : Fin 4) : UInt8 :=
  derivedByte ctx (publicKey.getD i.val 0)

/-- Those of the session key. -/
def sessionBytes (ctx : CryptoContext) (publicKey : List UInt8) (rnd : ℕ → UInt64) (i : Fin 4) :
    UInt8 :=
  sessionByte ctx (sharedBytes ctx publicKey i) (rnd i.val &&& 0xFF).toUInt8

theorem spread_injective : Function.Injective spread := by
  intro key key' heq
  have hbyte : ∀ (key : Fin 4 → UInt8) (i : Fin 4), (spread key)[8 * i.val]? = some (key i) := by
    intro key i
    have hfour : spread key = [key 0, 0, 0, 0, 0, 0, 0, 0, key 1, 0, 0, 0, 0, 0, 0, 0,
        key 2, 0, 0, 0, 0, 0, 0, 0, key 3, 0, 0, 0, 0, 0, 0, 0] := rfl
    rw [hfour]
    match i with
    | 0 => rfl
    | 1 => rfl
    | 2 => rfl
    | 3 => rfl
  funext i
  have hsame := hbyte key i
  rw [heq, hbyte key' i] at hsame
  exact (Option.some.inj hsame).symm

theorem get_computeExchangePhase1 (ctx : CryptoContext) {input : List UInt8} {i : Fin 64}
    {b : UInt8} (hb : input[i.val]? = some b) :
    (computeExchangePhase1 ctx input).keySchedule.get i = (derivedByte ctx b).toUInt64 := by
  have hget : (computeExchangePhase1 ctx input).keySchedule.get i =
      match input[i.val]? with
      | some b => (derivedByte ctx b).toUInt64
      | none => ctx.keySchedule.get i := Vector.getElem_ofFn i.isLt
  rw [hget, hb]

theorem get_computeExchangePhase2 (ctx : CryptoContext) {input : List UInt8} {i : Fin 64}
    {b : UInt8} (hb : input[i.val]? = some b) :
    (computeExchangePhase2 ctx input).keySchedule.get i =
      (lookup ctx.invSbox (b ^^^ (ctx.keySchedule.get i &&& 0xFF).toUInt8)).toUInt64 := by
  have hget : (computeExchangePhase2 ctx input).keySchedule.get i =
      match input[i.val]? with
      | some b => (lookup ctx.invSbox (b ^^^ (ctx.keySchedule.get i &&& 0xFF).toUInt8)).toUInt64
      | none => ctx.keySchedule.get i := Vector.getElem_ofFn i.isLt
  rw [hget, hb]

theorem toUInt8_and_mask (b : UInt8) : (b.toUInt64 &&& 0xFF).toUInt8 = b := by
  have hmask : (0xFF : UInt64).toNat = 2 ^ 8 - 1 := rfl
  have hlt := b.toNat_lt
  apply UInt8.toNat_inj.mp
  rw [UInt64.toNat_toUInt8, UInt64.toNat_and, UInt8.toNat_toUInt64, hmask,
    Nat.and_two_pow_sub_one_eq_mod, Nat.mod_mod]
  exact Nat.mod_eq_of_lt hlt

theorem getElem?_of_four {bytes : List UInt8} (hlength : 4 ≤ bytes.length) (i : Fin 4) :
    bytes[i.val]? = some (bytes.getD i.val 0) := by
  have hi : i.val < bytes.length := by omega
  rw [List.getD_eq_getElem?_getD, List.getElem?_eq_getElem hi, Option.getD_some]

theorem scheduleBytes_phase1 (ctx : CryptoContext) (hlength : 4 ≤ publicKey.length) :
    scheduleBytes (computeExchangePhase1 ctx publicKey) = spread (sharedBytes ctx publicKey) := by
  apply scheduleBytes_eq
  intro i
  rw [get_computeExchangePhase1 ctx (getElem?_of_four hlength i), sharedBytes]

theorem scheduleBytes_phase2 (ctx : CryptoContext) (hlength : 4 ≤ publicKey.length)
    {input : List UInt8} (hinput : 4 ≤ input.length) :
    scheduleBytes (computeExchangePhase2 (computeExchangePhase1 ctx publicKey) input) =
      spread fun i => sessionByte ctx (sharedBytes ctx publicKey i) (input.getD i.val 0) := by
  apply scheduleBytes_eq
  intro i
  have hbox : (computeExchangePhase1 ctx publicKey).invSbox = ctx.invSbox := by
    simp only [computeExchangePhase1]
  rw [get_computeExchangePhase2 _ (getElem?_of_four hinput i),
    get_computeExchangePhase1 ctx (getElem?_of_four hlength i), toUInt8_and_mask, hbox,
    sessionByte, sharedBytes]

theorem getD_randomBytes (rnd : ℕ → UInt64) (i : Fin 4) :
    (randomBytes rnd 32).getD i.val 0 = (rnd i.val &&& 0xFF).toUInt8 := by
  have hi : i.val < 32 := by omega
  rw [randomBytes, List.getD_eq_getElem?_getD, List.getElem?_map, List.getElem?_range hi,
    Option.map_some, Option.getD_some]

theorem length_randomBytes (rnd : ℕ → UInt64) (len : ℕ) : (randomBytes rnd len).length = len := by
  rw [randomBytes, List.length_map, List.length_range]

/-- With a public key of at least four bytes, the two keys are their four bytes, spread out. -/
theorem keyExchange_spec (hinitialized : ctx.initialized = true) (hlength : 4 ≤ publicKey.length) :
    (keyExchange ctx publicKey rnd).2 =
      some (spread (sharedBytes ctx publicKey), spread (sessionBytes ctx publicKey rnd)) := by
  have hfill :
      (memory (computeExchangePhase1 (fillRandomBuffer ctx rnd) publicKey).randomBuffer.toList).take
        32 = randomBytes rnd 32 := by
    have hfits : (randomBytes rnd 32).length ≤ 8 * 64 := by
      rw [length_randomBytes]
      decide
    have hread := take_memory_memcpyWords ctx.randomBuffer hfits
    rw [length_randomBytes] at hread
    simpa only [computeExchangePhase1, fillRandomBuffer] using hread
  have hinput : 4 ≤ (randomBytes rnd 32).length := by
    rw [length_randomBytes]
    decide
  have hshared : sharedBytes (fillRandomBuffer ctx rnd) publicKey = sharedBytes ctx publicKey := by
    funext i
    simp only [sharedBytes, derivedByte, fillRandomBuffer]
  have hsession : (fun i : Fin 4 => sessionByte (fillRandomBuffer ctx rnd)
      (sharedBytes ctx publicKey i) ((randomBytes rnd 32).getD i.val 0)) =
      sessionBytes ctx publicKey rnd := by
    funext i
    simp only [sessionBytes, sessionByte, getD_randomBytes, fillRandomBuffer]
  rw [keyExchange, if_pos hinitialized]
  dsimp only
  rw [hfill, scheduleBytes_phase1 _ hlength, scheduleBytes_phase2 _ hlength hinput, hshared,
    hsession]

/-- Two exchanges with the same tables give the same keys exactly when the first four bytes of the
public keys and of the random numbers come to the same. -/
theorem keyExchange_eq_iff (hinitialized : ctx.initialized = true) (hpermuted : ctx.Permuted)
    (hlength : 4 ≤ publicKey.length) (hlength' : 4 ≤ publicKey'.length) :
    ∃ shared session shared' session',
      (keyExchange ctx publicKey rnd).2 = some (shared, session) ∧
      (keyExchange ctx publicKey' rnd').2 = some (shared', session') ∧
      (shared = shared' ↔
        ∀ i : Fin 4, sharedBytes ctx publicKey i = sharedBytes ctx publicKey' i) ∧
      (session = session' ↔
        ∀ i : Fin 4, (rnd i.val &&& 0xFF).toUInt8 ^^^ sharedBytes ctx publicKey i =
          (rnd' i.val &&& 0xFF).toUInt8 ^^^ sharedBytes ctx publicKey' i) := by
  have hinverse : Function.Injective (lookup ctx.invSbox) := hpermuted.sbox_inv.injective
  refine ⟨_, _, _, _, keyExchange_spec hinitialized hlength, keyExchange_spec hinitialized hlength',
    ?_, ?_⟩
  · rw [spread_injective.eq_iff, funext_iff]
  · rw [spread_injective.eq_iff, funext_iff]
    simp only [sessionBytes, sessionByte, hinverse.eq_iff]

/-- `crypto_init` leaves permutations with their inverses. -/
theorem permuted_initialise (ctx : CryptoContext) (rnd : ℕ → UInt64) :
    (ctx.initialise rnd).Permuted := by
  obtain ⟨hsbox, hternary, ⟨hinv, hinvTernary⟩, hinverse⟩ := permuted_initSboxes ctx rnd
  constructor
  · simpa only [CryptoContext.initialise] using hsbox
  · simpa only [CryptoContext.initialise] using hternary
  · constructor
    · simpa only [CryptoContext.initialise] using hinv
    · simpa only [CryptoContext.initialise] using hinvTernary
  · simpa only [CryptoContext.initialise] using hinverse

/-- A context for which every random number is zero. -/
def zeroContext : CryptoContext := CryptoContext.zero.initialise fun _ => 0

/-- The public keys differ behind the fourth byte. -/
theorem keyExchange_eq_iff_later :
    ∃ shared session shared' session',
      (keyExchange zeroContext [1, 2, 3, 4, 5] fun _ => 0).2 = some (shared, session) ∧
      (keyExchange zeroContext [1, 2, 3, 4, 6] fun _ => 1).2 = some (shared', session') ∧
      shared = shared' := by
  have hinitialized : zeroContext.initialized = true := by
    simp only [zeroContext, CryptoContext.initialise]
  have hlength : 4 ≤ ([1, 2, 3, 4, 5] : List UInt8).length := by decide
  have hlength' : 4 ≤ ([1, 2, 3, 4, 6] : List UInt8).length := by decide
  obtain ⟨shared, session, shared', session', hkeys, hkeys', hshared, -⟩ :=
    @keyExchange_eq_iff zeroContext _ _ (fun _ => 0) (fun _ => 1) hinitialized
      (permuted_initialise _ _) hlength hlength'
  refine ⟨shared, session, shared', session', hkeys, hkeys', hshared.mpr fun i => ?_⟩
  have hfront : ∀ i : Fin 4, ([1, 2, 3, 4, 5] : List UInt8).getD i.val 0 =
      ([1, 2, 3, 4, 6] : List UInt8).getD i.val 0 := by
    decide
  rw [sharedBytes, sharedBytes, hfront]

end Spec

end Blackstone.P2PCrypto
