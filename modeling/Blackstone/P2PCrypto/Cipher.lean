import Blackstone.P2PCrypto.Context

/-!
# The cipher

`encryption.c`. A byte is combined with a byte of the key schedule and goes through two tables;
decryption goes back through the inverse tables. The key schedule of the two is not the same:
`setup_encryption_key` puts the bytes of the key through the table and `setup_decryption_key`
through its inverse, and both are applied to what `memcpy` left of the schedule, which takes bytes
and not words.

A text comes back exactly when the two schedules agree on the words that it uses: where the bytes of
the key went, the table applied twice has to give them again, and on the other words that are put
through a table it has to leave the byte that was there (`roundTrip_iff`).
-/

namespace Blackstone.P2PCrypto

open PermutationTable

/-- How much of a key is used. -/
def copyLen (key : List UInt8) : ℕ := min key.length 64

/-- What the two setups share: the key is copied and goes through a table. -/
def setupKey (box : Vector UInt8 256) (ctx : CryptoContext) (key : List UInt8) : CryptoContext :=
  let copied := memcpyWords ctx.keySchedule (key.take (copyLen key))
  { ctx with
    keySchedule := Vector.ofFn fun i =>
      if i.val < copyLen key then (lookup box (copied.get i).toUInt8).toUInt64 else copied.get i }

/-- `setup_encryption_key`. -/
def setupEncryptionKey (ctx : CryptoContext) (key : List UInt8) : CryptoContext :=
  setupKey ctx.sboxByte ctx key

/-- `setup_decryption_key`. -/
def setupDecryptionKey (ctx : CryptoContext) (key : List UInt8) : CryptoContext :=
  setupKey ctx.invSbox ctx key

/-- The byte of the key schedule at a place of a text. -/
def CryptoContext.keyByte (ctx : CryptoContext) (i : ℕ) : UInt8 :=
  let place : Fin 64 := ⟨i % 64, Nat.mod_lt i (by decide)⟩
  (ctx.keySchedule.get place).toUInt8

/-- `encrypt_data`. The result is missing where the code is `CRYPTO_ERROR`. -/
def encryptData (ctx : CryptoContext) (plaintext key : List UInt8) :
    CryptoContext × Option (List UInt8) :=
  if ctx.initialized then
    let ctx := setupEncryptionKey ctx key
    (ctx, some (plaintext.mapIdx fun i val =>
      lookup ctx.ternarySbox (lookup ctx.sboxByte (val ^^^ ctx.keyByte i))))
  else (ctx, none)

/-- `decrypt_data`. -/
def decryptData (ctx : CryptoContext) (ciphertext key : List UInt8) :
    CryptoContext × Option (List UInt8) :=
  if ctx.initialized then
    let ctx := setupDecryptionKey ctx key
    (ctx, some (ciphertext.mapIdx fun i val =>
      lookup ctx.invSbox (lookup ctx.ternaryInvSbox val) ^^^ ctx.keyByte i))
  else (ctx, none)

/-- A text comes back when it is decrypted in the context that it was encrypted in. -/
def RoundTrip (ctx : CryptoContext) (key plaintext : List UInt8) : Prop :=
  ∃ ctx' ciphertext, encryptData ctx plaintext key = (ctx', some ciphertext) ∧
    (decryptData ctx' ciphertext key).2 = some plaintext

/-- The byte that the setups put through their table, at a word of the schedule: a byte of the key,
or the lowest one of what the word held before. -/
def scheduledByte (ctx : CryptoContext) (key : List UInt8) (j : ℕ) : UInt8 :=
  if 8 * j < copyLen key then key.getD (8 * j) 0 else ctx.keyByte j

/-- The two schedules agree on a word that the setups put through their tables: the table and its
inverse give the same for a byte of the key, and a byte that was there before is left as it is. -/
def WordAgrees (ctx : CryptoContext) (key : List UInt8) (j : ℕ) : Prop :=
  if 8 * j < copyLen key then
    lookup ctx.sboxByte (lookup ctx.sboxByte (key.getD (8 * j) 0)) = key.getD (8 * j) 0
  else lookup ctx.sboxByte (ctx.keyByte j) = ctx.keyByte j

/-- The two schedules agree on the words that a text uses. -/
def SchedulesAgree (ctx : CryptoContext) (key plaintext : List UInt8) : Prop :=
  ∀ j < plaintext.length, j < copyLen key → WordAgrees ctx key j

/-! ## The key schedule -/

section Schedule

variable {ctx : CryptoContext} {key : List UInt8} {box : Vector UInt8 256}

@[simp] theorem sboxByte_setupKey : (setupKey box ctx key).sboxByte = ctx.sboxByte := by
  simp only [setupKey]

@[simp] theorem invSbox_setupKey : (setupKey box ctx key).invSbox = ctx.invSbox := by
  simp only [setupKey]

@[simp] theorem ternarySbox_setupKey :
    (setupKey box ctx key).ternarySbox = ctx.ternarySbox := by
  simp only [setupKey]

@[simp] theorem ternaryInvSbox_setupKey :
    (setupKey box ctx key).ternaryInvSbox = ctx.ternaryInvSbox := by
  simp only [setupKey]

@[simp] theorem initialized_setupKey :
    (setupKey box ctx key).initialized = ctx.initialized := by
  simp only [setupKey]

theorem keyByte_val (j : Fin 64) : ctx.keyByte j = (ctx.keySchedule.get j).toUInt8 := by
  simp only [CryptoContext.keyByte, Nat.mod_eq_of_lt j.isLt]

theorem keyByte_mod (i : ℕ) : ctx.keyByte (i % 64) = ctx.keyByte i := by
  simp only [CryptoContext.keyByte, Nat.mod_mod]

theorem length_take_copyLen : (key.take (copyLen key)).length = copyLen key := by
  rw [List.length_take, copyLen]
  omega

/-- What a setup leaves in the lowest byte of a word. -/
theorem keyByte_setupKey (j : Fin 64) :
    (setupKey box ctx key).keyByte j =
      if j.val < copyLen key then lookup box (scheduledByte ctx key j) else ctx.keyByte j := by
  let copied := memcpyWords ctx.keySchedule (key.take (copyLen key))
  have hcopied : (copied.get j).toUInt8 = scheduledByte ctx key j := by
    rw [toUInt8_memcpyWords, scheduledByte, keyByte_val]
    simp only [length_take_copyLen]
    split_ifs with hkey
    · have hlt : 8 * j.val < key.length := hkey.trans_le (Nat.min_le_left _ _)
      rw [List.getElem_take, List.getD_eq_getElem?_getD, List.getElem?_eq_getElem hlt,
        Option.getD_some]
    · rfl
  have hsetup : (setupKey box ctx key).keySchedule.get j =
      if j.val < copyLen key then (lookup box (copied.get j).toUInt8).toUInt64
      else copied.get j := Vector.getElem_ofFn j.isLt
  rw [keyByte_val, hsetup]
  split_ifs with hused
  · rw [UInt8.toUInt8_toUInt64, hcopied]
  · have hrest : ¬8 * j.val < copyLen key := by omega
    rw [hcopied, scheduledByte, if_neg hrest]

/-- The words of the schedule that a setup puts through its table. -/
theorem scheduledByte_setupKey {j : Fin 64} (hused : j.val < copyLen key) :
    scheduledByte (setupKey box ctx key) key j =
      if 8 * j.val < copyLen key then scheduledByte ctx key j
      else lookup box (scheduledByte ctx key j) := by
  rw [scheduledByte, keyByte_setupKey, if_pos hused]
  by_cases hkey : 8 * j.val < copyLen key
  · rw [if_pos hkey, if_pos hkey, scheduledByte, if_pos hkey]
  · rw [if_neg hkey, if_neg hkey]

end Schedule

/-! ## The round trip -/

section RoundTrip

variable {ctx : CryptoContext} {key plaintext : List UInt8}

/-- Encryption and decryption use the same byte of the schedule. -/
theorem keyByte_eq_iff (htabled : ctx.Tabled) (j : Fin 64) :
    (setupDecryptionKey (setupEncryptionKey ctx key) key).keyByte j =
        (setupEncryptionKey ctx key).keyByte j ↔ (j.val < copyLen key → WordAgrees ctx key j) := by
  have hright := rightInverse_of_leftInverse htabled.inv_sbox
  rw [setupDecryptionKey, setupEncryptionKey, keyByte_setupKey, invSbox_setupKey]
  by_cases hused : j.val < copyLen key
  · rw [if_pos hused, keyByte_setupKey, if_pos hused, scheduledByte_setupKey hused,
      imp_iff_right hused, WordAgrees, scheduledByte]
    by_cases hkey : 8 * j.val < copyLen key
    · rw [if_pos hkey, if_pos hkey, if_pos hkey]
      constructor
      · intro h
        rw [← h, hright]
      · intro h
        rw [← htabled.inv_sbox (lookup ctx.sboxByte (key.getD (8 * j.val) 0)), h]
    · rw [if_neg hkey, if_neg hkey, if_neg hkey, htabled.inv_sbox]
      exact eq_comm
  · rw [if_neg hused]
    exact iff_of_true rfl fun h => absurd h hused

/-- A byte comes back exactly when the same byte of the schedule is used. -/
theorem decrypt_encrypt_byte (htabled : ctx.Tabled) (val k k' : UInt8) :
    lookup ctx.invSbox (lookup ctx.ternaryInvSbox
      (lookup ctx.ternarySbox (lookup ctx.sboxByte (val ^^^ k)))) ^^^ k' = val ↔ k' = k := by
  rw [htabled.inv_ternary, htabled.inv_sbox, UInt8.xor_assoc]
  constructor
  · intro h
    have hcancel : ∀ b c : UInt8, b ^^^ (b ^^^ c) = c := by
      intro b c
      rw [← UInt8.xor_assoc, UInt8.xor_self, UInt8.zero_xor]
    calc k' = k ^^^ (val ^^^ (val ^^^ (k ^^^ k'))) := by rw [hcancel, hcancel]
      _ = k := by rw [h, UInt8.xor_self, UInt8.xor_zero]
  · rintro rfl
    rw [UInt8.xor_self, UInt8.xor_zero]

/-- The schedules agree on all places of a text when they do on its first 64. -/
theorem forall_place_iff {P : ℕ → Prop} (hP : ∀ i, P (i % 64) ↔ P i) (n : ℕ) :
    (∀ i < n, P i) ↔ ∀ j : Fin 64, j.val < n → P j := by
  constructor
  · intro h j hj
    exact h j hj
  · intro h i hi
    have hplace := h ⟨i % 64, Nat.mod_lt i (by decide)⟩ ((Nat.mod_le i 64).trans_lt hi)
    exact (hP i).mp hplace

theorem mapIdx_mapIdx_eq_iff (f g : ℕ → UInt8 → UInt8) (text : List UInt8) :
    (text.mapIdx f).mapIdx g = text ↔
      ∀ (i : ℕ) (hi : i < text.length), g i (f i text[i]) = text[i] := by
  constructor
  · intro h i hi
    have hplace := congrArg (fun bytes => bytes.getD i 0) h
    simpa [List.getD_eq_getElem?_getD, hi] using hplace
  · intro h
    apply List.ext_getElem
    · rw [List.length_mapIdx, List.length_mapIdx]
    · intro i _ hi
      rw [List.getElem_mapIdx, List.getElem_mapIdx, h i hi]

theorem encryptData_eq (hinitialized : ctx.initialized = true) :
    encryptData ctx plaintext key = (setupEncryptionKey ctx key,
      some (plaintext.mapIdx fun i val => lookup ctx.ternarySbox (lookup ctx.sboxByte
        (val ^^^ (setupEncryptionKey ctx key).keyByte i)))) := by
  rw [encryptData, if_pos hinitialized]
  simp only [setupEncryptionKey, ternarySbox_setupKey, sboxByte_setupKey]

theorem decryptData_eq (hinitialized : ctx.initialized = true) (ciphertext : List UInt8) :
    decryptData ctx ciphertext key = (setupDecryptionKey ctx key,
      some (ciphertext.mapIdx fun i val => lookup ctx.invSbox (lookup ctx.ternaryInvSbox val) ^^^
        (setupDecryptionKey ctx key).keyByte i)) := by
  rw [decryptData, if_pos hinitialized]
  simp only [setupDecryptionKey, ternaryInvSbox_setupKey, invSbox_setupKey]

/-- A text comes back exactly when the two schedules agree on its places. -/
theorem roundTrip_iff_keyByte (htabled : ctx.Tabled) (hinitialized : ctx.initialized = true) :
    RoundTrip ctx key plaintext ↔ ∀ i < plaintext.length,
      (setupDecryptionKey (setupEncryptionKey ctx key) key).keyByte i =
        (setupEncryptionKey ctx key).keyByte i := by
  have henc := @encryptData_eq ctx key plaintext hinitialized
  have hready : (setupEncryptionKey ctx key).initialized = true := by
    rw [setupEncryptionKey, initialized_setupKey, hinitialized]
  have hplaces : RoundTrip ctx key plaintext ↔
      (plaintext.mapIdx fun i val => lookup ctx.ternarySbox (lookup ctx.sboxByte
        (val ^^^ (setupEncryptionKey ctx key).keyByte i))).mapIdx (fun i val =>
          lookup ctx.invSbox (lookup ctx.ternaryInvSbox val) ^^^
            (setupDecryptionKey (setupEncryptionKey ctx key) key).keyByte i) = plaintext := by
    have hdec := @decryptData_eq _ key hready
    rw [setupEncryptionKey, invSbox_setupKey, ternaryInvSbox_setupKey, ← setupEncryptionKey] at hdec
    constructor
    · rintro ⟨ctx', ciphertext, hcipher, hplain⟩
      rw [henc, Prod.mk.injEq, Option.some_inj] at hcipher
      obtain ⟨rfl, rfl⟩ := hcipher
      rw [hdec, Option.some_inj] at hplain
      exact hplain
    · intro hplain
      refine ⟨_, _, henc, ?_⟩
      rw [hdec, Option.some_inj]
      exact hplain
  rw [hplaces, mapIdx_mapIdx_eq_iff]
  apply forall₂_congr
  intro i hi
  exact decrypt_encrypt_byte htabled _ _ _

theorem roundTrip_iff_of_tabled (htabled : ctx.Tabled) (hinitialized : ctx.initialized = true) :
    RoundTrip ctx key plaintext ↔ SchedulesAgree ctx key plaintext := by
  have hmod : ∀ i, (setupDecryptionKey (setupEncryptionKey ctx key) key).keyByte (i % 64) =
        (setupEncryptionKey ctx key).keyByte (i % 64) ↔
      (setupDecryptionKey (setupEncryptionKey ctx key) key).keyByte i =
        (setupEncryptionKey ctx key).keyByte i := by
    intro i
    rw [keyByte_mod, keyByte_mod]
  rw [roundTrip_iff_keyByte htabled hinitialized, forall_place_iff hmod]
  constructor
  · intro h j hj hused
    have hj64 : j < 64 := hused.trans_le (Nat.min_le_right _ _)
    exact (keyByte_eq_iff htabled ⟨j, hj64⟩).mp (h ⟨j, hj64⟩ hj) hused
  · intro h j hj
    exact (keyByte_eq_iff htabled j).mpr (h j hj)

end RoundTrip

/-- A context after `init_sboxes`, ready for use. -/
def CryptoContext.initialise (ctx : CryptoContext) (rnd : ℕ → UInt64) : CryptoContext :=
  { initSboxes ctx rnd with initialized := true }

theorem tabled_initialise (ctx : CryptoContext) (rnd : ℕ → UInt64) :
    (ctx.initialise rnd).Tabled := by
  have htabled := tabled_initSboxes ctx rnd
  constructor
  · simpa only [CryptoContext.initialise] using htabled.inv_sbox
  · simpa only [CryptoContext.initialise] using htabled.inv_ternary

/-- Whatever the random stream and the rest of the context, a text comes back exactly when the two
key schedules agree on the words that it uses. -/
theorem roundTrip_iff (ctx : CryptoContext) (rnd : ℕ → UInt64) (key plaintext : List UInt8) :
    RoundTrip (ctx.initialise rnd) key plaintext ↔
      SchedulesAgree (ctx.initialise rnd) key plaintext := by
  apply roundTrip_iff_of_tabled (tabled_initialise ctx rnd)
  simp only [CryptoContext.initialise]

/-- What `memset` leaves. -/
def CryptoContext.zero : CryptoContext where
  state := ⟨0, 0, 0, 0, 0, 0, 0, 0⟩
  binaryBuffer := Vector.replicate 4096 0
  hashBuffer := Vector.replicate 64 0
  signatureBuffer := Vector.replicate 128 0
  keySchedule := Vector.replicate 64 0
  sboxByte := Vector.replicate 256 0
  invSbox := Vector.replicate 256 0
  ternarySbox := Vector.replicate 256 0
  ternaryInvSbox := Vector.replicate 256 0
  randomBuffer := Vector.replicate 64 0
  initialized := false

/-- Random numbers that leave all places of the table but the first three as they are. -/
def lateShuffle (k : ℕ) : UInt64 := if k < 253 then UInt64.ofNat (255 - k) else 0

/-- The first three places are one cycle. -/
theorem shuffledBox_lateShuffle : shuffledBox lateShuffle =
    ⟨shuffleFrom (sboxChoice lateShuffle) 2 identityBox.toArray,
      (size_shuffleFrom _ _ _).trans identityBox.size_toArray⟩ := by
  have hfixed : ∀ i : Fin 256, 2 < i.val → sboxChoice lateShuffle i = i := by decide +kernel
  apply Vector.toArray_inj.mp
  rw [toArray_shuffledBox]
  apply shuffleFrom_of_fixed (by decide)
  intro i hlt hle
  exact hfixed ⟨i, by omega⟩ hlt

theorem not_roundTrip_lateShuffle :
    ¬RoundTrip (CryptoContext.zero.initialise lateShuffle) [0] [0] := by
  rw [roundTrip_iff_of_tabled (tabled_initialise _ _) (by simp only [CryptoContext.initialise])]
  intro hagree
  have hword := hagree 0 Nat.one_pos Nat.one_pos
  have hkey : 8 * 0 < copyLen [0] := Nat.one_pos
  rw [WordAgrees, if_pos hkey] at hword
  simp only [CryptoContext.initialise, initSboxes, shuffledBox_lateShuffle] at hword
  revert hword
  decide +kernel

end Blackstone.P2PCrypto
