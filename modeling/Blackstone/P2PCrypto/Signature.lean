import Blackstone.Library.Runs
import Blackstone.P2PCrypto.Cipher

/-!
# The hash and the signature

`hash_core.c` and `signature.c`. `hash_core` goes on from the chaining state that the last call
left, and nothing sets it back. A digest is that state: so it depends on all the data since the
context was made, and a signature is checked against the digest of its data taken twice.

Hashes and signatures are usable exactly along the calls whose data leaves the chaining state as it
is (`usable_iff`), as data of less than one block does.
-/

namespace Blackstone.P2PCrypto

open Blocks PermutationTable Runs
open Sha2 (Words)

/-! ## The hash -/

/-- What `hash_core` does with a word of a block. -/
def hashWord (v : Words UInt64) (word : UInt64) : Words UInt64 :=
  let a := v.a ^^^ word
  let a := (a <<< 13) ||| (a >>> 51)
  let b := v.b ^^^ a
  let b := (b <<< 11) ||| (b >>> 53)
  let c := v.c ^^^ b
  let c := (c <<< 7) ||| (c >>> 57)
  let d := v.d ^^^ c
  let d := (d <<< 5) ||| (d >>> 59)
  let e := v.e ^^^ d
  let e := (e <<< 3) ||| (e >>> 61)
  let f := v.f ^^^ e
  let f := (f <<< 2) ||| (f >>> 62)
  let g := v.g ^^^ f
  let g := (g <<< 1) ||| (g >>> 63)
  let h := v.h ^^^ g
  ⟨a, b, c, d, e, f, g, h⟩

/-- The eight rounds of a block. -/
def hashBlock (v : Words UInt64) (block : List UInt8) : Words UInt64 :=
  (List.range 8).foldl (fun v round => hashWord v (wordAt block round)) v

/-- The chaining state after the complete blocks of some data. -/
def hashState (state : Words UInt64) (data : List UInt8) : Words UInt64 :=
  (wholeBlocks 64 data).foldl hashBlock state

/-- The bytes of the chaining state. -/
def digest (state : Words UInt64) : Vector UInt8 64 :=
  ⟨(memory state.toList).toArray, length_memory state.toList⟩

/-- `hash_core`, on the first bytes of `binary_buffer`. -/
def hashCore (ctx : CryptoContext) (dataLen : ℕ) : CryptoContext :=
  let state := hashState ctx.state (ctx.binaryBuffer.toList.take dataLen)
  { ctx with state := state, hashBuffer := digest state }

/-- What is left of some data in `binary_buffer`. -/
def hashedPart (data : List UInt8) : List UInt8 := data.take 4096

/-- `compute_hash_secure`. The digest is missing where the code is `CRYPTO_ERROR`. -/
def computeHashSecure (ctx : CryptoContext) (data : List UInt8) :
    CryptoContext × Option (Vector UInt8 64) :=
  if ctx.initialized then
    let part := hashedPart data
    let ctx := { ctx with binaryBuffer := memcpyBytes ctx.binaryBuffer part }
    let ctx := hashCore ctx part.length
    (ctx, some ctx.hashBuffer)
  else (ctx, none)

/-! ## The signature -/

/-- `random_bytes`, with the numbers that `rdrand_wrapper` gives. -/
def randomBytes (rnd : ℕ → UInt64) (len : ℕ) : List UInt8 :=
  (List.range len).map fun i => (rnd i &&& 0xFF).toUInt8

/-- The byte of `random_buffer` that goes with a byte of the hash. -/
def CryptoContext.randomByte (ctx : CryptoContext) (i : Fin 64) : UInt8 :=
  (ctx.randomBuffer.get i).toUInt8

/-- `apply_signature_algorithm`, on the first 64 bytes of `signature_buffer`. -/
def applySignatureAlgorithm (ctx : CryptoContext) : CryptoContext :=
  { ctx with
    signatureBuffer := Vector.ofFn fun i =>
      if h : i.val < 64 then
        lookup ctx.sboxByte (ctx.signatureBuffer.get i ^^^ ctx.randomByte ⟨i.val, h⟩)
      else ctx.signatureBuffer.get i }

/-- `compute_signature`. The hash is written to `hash_buffer`, where it is already; the key is not
used. -/
def computeSignature (ctx : CryptoContext) (data _key : List UInt8) (rnd : ℕ → UInt64) :
    CryptoContext × Option (Vector UInt8 128) :=
  if ctx.initialized then
    let ctx := (computeHashSecure ctx data).1
    let ctx := { ctx with randomBuffer := memcpyWords ctx.randomBuffer (randomBytes rnd 32) }
    let ctx := { ctx with signatureBuffer := memcpyBytes ctx.signatureBuffer ctx.hashBuffer.toList }
    let ctx := applySignatureAlgorithm ctx
    (ctx, some ctx.signatureBuffer)
  else (ctx, none)

/-- `verify_signature_core`, with `CRYPTO_SUCCESS` and `CRYPTO_ERROR`. The signature is in
`binary_buffer`. -/
def verifySignatureCore (ctx : CryptoContext) : ℤ :=
  if ∀ i : Fin 64, lookup ctx.invSbox (ctx.binaryBuffer.toList.getD i 0) ^^^ ctx.randomByte i =
      ctx.hashBuffer.get i then 1
  else 0

/-- `verify_signature`. The key is not used. -/
def verifySignature (ctx : CryptoContext) (data _key : List UInt8) (signature : Vector UInt8 128) :
    CryptoContext × ℤ :=
  if ctx.initialized then
    let ctx := (computeHashSecure ctx data).1
    let ctx := { ctx with binaryBuffer := memcpyBytes ctx.binaryBuffer signature.toList }
    (ctx, verifySignatureCore ctx)
  else (ctx, 0)

/-! ## Runs -/

inductive SignatureCall
  | hash (data : List UInt8)
  | sign (data key : List UInt8) (rnd : ℕ → UInt64)
  | verify (data key : List UInt8) (signature : Vector UInt8 128)

/-- The data that a call hashes. -/
def SignatureCall.data : SignatureCall → List UInt8
  | .hash data => data
  | .sign data _ _ => data
  | .verify data _ _ => data

/-- What was signed, with its key and its signature. -/
structure Signed where
  data : List UInt8
  key : List UInt8
  signature : Vector UInt8 128

/-- The context after some calls, and what the last signing call signed. -/
structure SignatureHistory where
  ctx : CryptoContext
  signed : Option Signed

def SignatureHistory.step (h : SignatureHistory) : SignatureCall → SignatureHistory
  | .hash data => ⟨(computeHashSecure h.ctx data).1, h.signed⟩
  | .sign data key rnd =>
    let (ctx, signature) := computeSignature h.ctx data key rnd
    ⟨ctx, signature.map (Signed.mk data key)⟩
  | .verify data key signature => ⟨(verifySignature h.ctx data key signature).1, h.signed⟩

/-- Every hash is what it was in the first context, and the last signature is accepted. -/
structure Usable (first : CryptoContext) (h : SignatureHistory) : Prop where
  hash : ∀ data, (computeHashSecure h.ctx data).2 = (computeHashSecure first data).2
  verify : ∀ s ∈ h.signed, (verifySignature h.ctx s.data s.key s.signature).2 = 1

/-- The data of the call leaves the chaining state as it is. -/
def Keeps (h : SignatureHistory) (call : SignatureCall) : Prop :=
  hashState h.ctx.state (hashedPart call.data) = h.ctx.state

/-! ## One call -/

theorem digest_injective : Function.Injective digest := by
  intro s t hdigest
  have hmemory : memory s.toList = memory t.toList := by
    exact congrArg Vector.toList hdigest
  exact Words.toList_inj (memory_inj rfl hmemory)

theorem hashState_of_short {data : List UInt8} (hshort : data.length < 64)
    (state : Words UInt64) : hashState state data = state := by
  rw [hashState, wholeBlocks_of_lt hshort]
  rfl

section Calls

variable {ctx : CryptoContext} {data key : List UInt8}

/-- The data is hashed as it is given, without what the buffer held before. -/
theorem computeHashSecure_eq (hinitialized : ctx.initialized = true) (data : List UInt8) :
    computeHashSecure ctx data =
      ({ ctx with
          binaryBuffer := memcpyBytes ctx.binaryBuffer (hashedPart data)
          state := hashState ctx.state (hashedPart data)
          hashBuffer := digest (hashState ctx.state (hashedPart data)) },
        some (digest (hashState ctx.state (hashedPart data)))) := by
  have hle : (hashedPart data).length ≤ 4096 := List.length_take_le _ _
  rw [computeHashSecure, if_pos hinitialized]
  simp only [hashCore, take_memcpyBytes ctx.binaryBuffer hle]

theorem verifySignatureCore_eq_one_iff : verifySignatureCore ctx = 1 ↔
    ∀ i : Fin 64, lookup ctx.invSbox (ctx.binaryBuffer.toList.getD i 0) ^^^ ctx.randomByte i =
      ctx.hashBuffer.get i := by
  rw [verifySignatureCore]
  split_ifs with h
  · exact iff_of_true rfl h
  · exact iff_of_false (by decide) h

theorem getD_memcpyBytes (buffer : Vector UInt8 4096) (signature : Vector UInt8 128)
    (i : Fin 64) :
    (memcpyBytes buffer signature.toList).toList.getD i 0 = signature.toList.getD i 0 := by
  have hi : i.val < 128 := by omega
  rw [getD_toList _ ⟨i.val, by omega⟩, get_memcpyBytes_toList buffer signature ⟨i.val, hi⟩,
    ← getD_toList]

/-- A signature is checked against a digest that goes on from the chaining state. -/
theorem verifySignature_eq_one_iff (hinitialized : ctx.initialized = true)
    (data key : List UInt8) (signature : Vector UInt8 128) :
    (verifySignature ctx data key signature).2 = 1 ↔
      ∀ i : Fin 64, lookup ctx.invSbox (signature.toList.getD i 0) ^^^ ctx.randomByte i =
        (digest (hashState ctx.state (hashedPart data))).get i := by
  rw [verifySignature, if_pos hinitialized, computeHashSecure_eq hinitialized,
    verifySignatureCore_eq_one_iff]
  simp only [CryptoContext.randomByte, getD_memcpyBytes]

/-- What every call does to the context: the data moves the chaining state on, and the tables
stay. -/
structure Moved (ctx ctx' : CryptoContext) (data : List UInt8) : Prop where
  state : ctx'.state = hashState ctx.state (hashedPart data)
  sboxByte : ctx'.sboxByte = ctx.sboxByte
  invSbox : ctx'.invSbox = ctx.invSbox
  ternarySbox : ctx'.ternarySbox = ctx.ternarySbox
  ternaryInvSbox : ctx'.ternaryInvSbox = ctx.ternaryInvSbox
  initialized : ctx'.initialized = ctx.initialized

theorem Moved.tabled {ctx' : CryptoContext} (h : Moved ctx ctx' data) (htabled : ctx.Tabled) :
    ctx'.Tabled := by
  constructor
  · rw [h.sboxByte, h.invSbox]
    exact htabled.inv_sbox
  · rw [h.ternarySbox, h.ternaryInvSbox]
    exact htabled.inv_ternary

theorem moved_computeHashSecure (hinitialized : ctx.initialized = true) (data : List UInt8) :
    Moved ctx (computeHashSecure ctx data).1 data := by
  rw [computeHashSecure_eq hinitialized]
  constructor
  all_goals simp only

theorem randomBuffer_computeHashSecure (hinitialized : ctx.initialized = true)
    (data : List UInt8) : (computeHashSecure ctx data).1.randomBuffer = ctx.randomBuffer := by
  rw [computeHashSecure_eq hinitialized]

theorem verifySignature_fst (hinitialized : ctx.initialized = true) (data key : List UInt8)
    (signature : Vector UInt8 128) : (verifySignature ctx data key signature).1 =
      { (computeHashSecure ctx data).1 with
        binaryBuffer := memcpyBytes (computeHashSecure ctx data).1.binaryBuffer
          signature.toList } := by
  rw [verifySignature, if_pos hinitialized]

theorem moved_verifySignature (hinitialized : ctx.initialized = true) (data key : List UInt8)
    (signature : Vector UInt8 128) :
    Moved ctx (verifySignature ctx data key signature).1 data := by
  have hhash := moved_computeHashSecure hinitialized data
  rw [verifySignature_fst hinitialized]
  exact ⟨hhash.state, hhash.sboxByte, hhash.invSbox, hhash.ternarySbox, hhash.ternaryInvSbox,
    hhash.initialized⟩

theorem moved_computeSignature (hinitialized : ctx.initialized = true) (data key : List UInt8)
    (rnd : ℕ → UInt64) : Moved ctx (computeSignature ctx data key rnd).1 data := by
  have hhash := moved_computeHashSecure hinitialized data
  rw [computeSignature, if_pos hinitialized]
  simp only [applySignatureAlgorithm]
  exact ⟨hhash.state, hhash.sboxByte, hhash.invSbox, hhash.ternarySbox, hhash.ternaryInvSbox,
    hhash.initialized⟩

theorem get_applySignatureAlgorithm (ctx : CryptoContext) {i : Fin 128} (hi : i.val < 64) :
    (applySignatureAlgorithm ctx).signatureBuffer.get i =
      lookup ctx.sboxByte (ctx.signatureBuffer.get i ^^^ ctx.randomByte ⟨i.val, hi⟩) :=
  (Vector.getElem_ofFn i.isLt).trans (dif_pos hi)

theorem randomByte_applySignatureAlgorithm (ctx : CryptoContext) (i : Fin 64) :
    (applySignatureAlgorithm ctx).randomByte i = ctx.randomByte i := by
  simp only [CryptoContext.randomByte, applySignatureAlgorithm]

/-- A signature is the digest, combined with random bytes and put through the table. -/
theorem getD_computeSignature (hinitialized : ctx.initialized = true) (data key : List UInt8)
    (rnd : ℕ → UInt64) {signature : Vector UInt8 128}
    (hsignature : (computeSignature ctx data key rnd).2 = some signature) (i : Fin 64) :
    signature.toList.getD i 0 = lookup ctx.sboxByte
      ((digest (hashState ctx.state (hashedPart data))).get i ^^^
        (computeSignature ctx data key rnd).1.randomByte i) := by
  rw [computeSignature, if_pos hinitialized, computeHashSecure_eq hinitialized] at hsignature ⊢
  simp only [Option.some_inj] at hsignature ⊢
  rw [← hsignature, getD_toList _ ⟨i.val, by omega⟩, get_applySignatureAlgorithm _ i.isLt,
    randomByte_applySignatureAlgorithm, get_memcpyBytes_toList _ _ i]

end Calls

/-! ## The law along a run -/

section Runs

variable {first : CryptoContext} {h : SignatureHistory}

/-- The chaining state is the first one. A signature is over data that keeps it there. -/
structure SignatureHistory.Inv (first : CryptoContext) (h : SignatureHistory) : Prop where
  tabled : h.ctx.Tabled
  initialized : h.ctx.initialized = true
  state : h.ctx.state = first.state
  keeps : ∀ s ∈ h.signed, hashState first.state (hashedPart s.data) = first.state
  signed : ∀ s ∈ h.signed, ∀ i : Fin 64, s.signature.toList.getD i 0 =
    lookup h.ctx.sboxByte ((digest first.state).get i ^^^ h.ctx.randomByte i)

theorem SignatureHistory.Inv.usable (hinv : h.Inv first) (hfirst : first.initialized = true) :
    Usable first h where
  hash data := by
    rw [computeHashSecure_eq hinv.initialized, computeHashSecure_eq hfirst, hinv.state]
  verify s hs := by
    rw [verifySignature_eq_one_iff hinv.initialized]
    intro i
    rw [hinv.signed s hs, hinv.tabled.inv_sbox, hinv.state, hinv.keeps s hs, UInt8.xor_assoc,
      UInt8.xor_self, UInt8.xor_zero]

/-- The context that a call leaves. -/
theorem moved_step (hinitialized : h.ctx.initialized = true) (call : SignatureCall) :
    Moved h.ctx (h.step call).ctx call.data := by
  cases call with
  | hash data => exact moved_computeHashSecure hinitialized data
  | sign data key rnd => exact moved_computeSignature hinitialized data key rnd
  | verify data key signature => exact moved_verifySignature hinitialized data key signature

/-- A call that signs nothing leaves the random numbers of the last signature. -/
theorem SignatureHistory.Inv.of_moved (hinv : h.Inv first) {h' : SignatureHistory}
    {data : List UInt8} (hmoved : Moved h.ctx h'.ctx data) (hstate : h'.ctx.state = first.state)
    (hsigned : h'.signed = h.signed) (hrandom : h'.ctx.randomBuffer = h.ctx.randomBuffer) :
    h'.Inv first where
  tabled := hmoved.tabled hinv.tabled
  initialized := hmoved.initialized.trans hinv.initialized
  state := hstate
  keeps := by
    rw [hsigned]
    exact hinv.keeps
  signed := by
    rw [hsigned]
    intro s hs i
    rw [hinv.signed s hs i, hmoved.sboxByte, CryptoContext.randomByte, CryptoContext.randomByte,
      hrandom]

theorem SignatureHistory.Inv.step (hinv : h.Inv first) {call : SignatureCall}
    (hkeeps : Keeps h call) : (h.step call).Inv first := by
  have hmoved := moved_step hinv.initialized call
  have hstate := (hmoved.state.trans hkeeps).trans hinv.state
  rw [Keeps, hinv.state] at hkeeps
  cases call with
  | hash data =>
    exact hinv.of_moved hmoved hstate rfl (randomBuffer_computeHashSecure hinv.initialized data)
  | sign data key rnd =>
    have hsigned : ∀ s ∈ (computeSignature h.ctx data key rnd).2.map (Signed.mk data key),
        s.data = data ∧ (computeSignature h.ctx data key rnd).2 = some s.signature := by
      intro s hs
      obtain ⟨signature, hsignature, rfl⟩ := Option.map_eq_some_iff.mp hs
      exact ⟨rfl, hsignature⟩
    refine ⟨hmoved.tabled hinv.tabled, hmoved.initialized.trans hinv.initialized, hstate, ?_, ?_⟩
    · intro s hs
      rw [(hsigned s hs).1]
      exact hkeeps
    · intro s hs i
      have hbyte := getD_computeSignature hinv.initialized data key rnd (hsigned s hs).2 i
      rw [SignatureCall.data] at hkeeps
      rw [hinv.state, hkeeps] at hbyte
      rw [hmoved.sboxByte, hbyte]
      simp only [SignatureHistory.step]
  | verify data key signature =>
    refine hinv.of_moved hmoved hstate rfl ?_
    simp only [SignatureHistory.step, verifySignature_fst hinv.initialized]
    exact randomBuffer_computeHashSecure hinv.initialized data

/-- Data that moves the chaining state on changes the hash of everything. -/
theorem Usable.keeps (hinv : h.Inv first) (hfirst : first.initialized = true)
    {call : SignatureCall} (husable : Usable first (h.step call)) : Keeps h call := by
  have hmoved := moved_step hinv.initialized call
  have hnil : ∀ state : Words UInt64, hashState state (hashedPart []) = state :=
    fun state => hashState_of_short (by decide) state
  have hdigest := husable.hash []
  rw [computeHashSecure_eq (hmoved.initialized.trans hinv.initialized),
    computeHashSecure_eq hfirst, hnil, hnil, Option.some_inj] at hdigest
  rw [Keeps, ← hmoved.state, digest_injective hdigest, hinv.state]

end Runs

/-- The state of a context that was just made. -/
def SignatureHistory.start (ctx : CryptoContext) (rnd : ℕ → UInt64) : SignatureHistory :=
  ⟨ctx.initialise rnd, none⟩

theorem initialized_initialise (ctx : CryptoContext) (rnd : ℕ → UInt64) :
    (ctx.initialise rnd).initialized = true := by
  simp only [CryptoContext.initialise]

theorem SignatureHistory.inv_start (ctx : CryptoContext) (rnd : ℕ → UInt64) :
    (start ctx rnd).Inv (ctx.initialise rnd) := by
  refine ⟨tabled_initialise ctx rnd, initialized_initialise ctx rnd, rfl, ?_, ?_⟩
  · simp [start]
  · simp [start]

/-- From a context that was just made, whatever its random numbers are, hashes repeat and the last
signature is accepted in every state exactly when no call moves the chaining state on. -/
theorem usable_iff (ctx : CryptoContext) (rnd : ℕ → UInt64) (calls : List SignatureCall) :
    (∀ n, Usable (ctx.initialise rnd)
        (run SignatureHistory.step (SignatureHistory.start ctx rnd) (calls.take n))) ↔
      Along SignatureHistory.step Keeps (SignatureHistory.start ctx rnd) calls := by
  have hfirst := initialized_initialise ctx rnd
  have hstart := SignatureHistory.inv_start ctx rnd
  rw [forall_run_take_iff, and_iff_right (hstart.usable hfirst)]
  apply along_congr_of_invariant (SignatureHistory.Inv (ctx.initialise rnd))
  · intro h call hinv
    exact ⟨fun husable => husable.keeps hinv hfirst, fun hkeeps => (hinv.step hkeeps).usable hfirst⟩
  · intro h call hinv husable
    exact hinv.step (husable.keeps hinv hfirst)
  · exact hstart

/-- Data of less than one block keeps the chaining state. -/
theorem keeps_of_short {call : SignatureCall} (hshort : call.data.length < 64)
    (h : SignatureHistory) : Keeps h call := by
  apply hashState_of_short
  exact (List.length_take_le' _ _).trans_lt hshort

/-- A context whose chaining state is not zero. -/
def oneContext : CryptoContext := { CryptoContext.zero with state := ⟨1, 0, 0, 0, 0, 0, 0, 0⟩ }

/-- One block of zeros. -/
def zeroBlock : List UInt8 := List.replicate 64 0

/-- A signature over one block is not accepted. -/
theorem not_usable_zeroBlock : ¬Usable (oneContext.initialise fun _ => 0)
    (run SignatureHistory.step (SignatureHistory.start oneContext fun _ => 0)
      [.sign zeroBlock [] fun _ => 0]) := by
  intro husable
  rw [run_cons, run_nil] at husable
  have hkeeps := husable.keeps (SignatureHistory.inv_start oneContext fun _ => 0)
    (initialized_initialise oneContext fun _ => 0)
  simp only [Keeps, SignatureHistory.start, CryptoContext.initialise, initSboxes] at hkeeps
  revert hkeeps
  decide +kernel

end Blackstone.P2PCrypto
