import Blackstone.BankCrypto.ShaContext

/-!
# SHA-256

`sha/bank_sha256.cpp`. The streaming functions give the digest of FIPS 180-4 for every message
and every way of cutting it into chunks, and no write leaves the padding array
(`sha256_chunks`).
-/

namespace Blackstone.BankCrypto

open BigEndian Sha2

/-! ## The functions on words -/

/-- `bank_rotr32`, for `0 < n < 32`. -/
def rotr32 (x n : UInt32) : UInt32 := (x >>> n) ||| (x <<< (32 - n))

/-- `bank_ch32`. -/
def ch32 (x y z : UInt32) : UInt32 := (x &&& y) ^^^ (~~~x &&& z)

/-- `bank_maj32`. -/
def maj32 (x y z : UInt32) : UInt32 := (x &&& y) ^^^ (x &&& z) ^^^ (y &&& z)

/-- `bank_bsig0`. -/
def bsig0 (x : UInt32) : UInt32 := rotr32 x 2 ^^^ rotr32 x 13 ^^^ rotr32 x 22

/-- `bank_bsig1`. -/
def bsig1 (x : UInt32) : UInt32 := rotr32 x 6 ^^^ rotr32 x 11 ^^^ rotr32 x 25

/-- `bank_ssig0`. -/
def ssig0 (x : UInt32) : UInt32 := rotr32 x 7 ^^^ rotr32 x 18 ^^^ (x >>> 3)

/-- `bank_ssig1`. -/
def ssig1 (x : UInt32) : UInt32 := rotr32 x 17 ^^^ rotr32 x 19 ^^^ (x >>> 10)

/-- `bank_sha256_k`. -/
def sha256K : List UInt32 :=
  [0x428a2f98, 0x71374491, 0xb5c0fbcf, 0xe9b5dba5, 0x3956c25b, 0x59f111f1, 0x923f82a4, 0xab1c5ed5,
    0xd807aa98, 0x12835b01, 0x243185be, 0x550c7dc3, 0x72be5d74, 0x80deb1fe, 0x9bdc06a7, 0xc19bf174,
    0xe49b69c1, 0xefbe4786, 0x0fc19dc6, 0x240ca1cc, 0x2de92c6f, 0x4a7484aa, 0x5cb0a9dc, 0x76f988da,
    0x983e5152, 0xa831c66d, 0xb00327c8, 0xbf597fc7, 0xc6e00bf3, 0xd5a79147, 0x06ca6351, 0x14292967,
    0x27b70a85, 0x2e1b2138, 0x4d2c6dfc, 0x53380d13, 0x650a7354, 0x766a0abb, 0x81c2c92e, 0x92722c85,
    0xa2bfe8a1, 0xa81a664b, 0xc24b8b70, 0xc76c51a3, 0xd192e819, 0xd6990624, 0xf40e3585, 0x106aa070,
    0x19a4c116, 0x1e376c08, 0x2748774c, 0x34b0bcb5, 0x391c0cb3, 0x4ed8aa4a, 0x5b9cca4f, 0x682e6ff3,
    0x748f82ee, 0x78a5636f, 0x84c87814, 0x8cc70208, 0x90befffa, 0xa4506ceb, 0xbef9a3f7, 0xc67178f2]

/-- Word `i` of the buffer, as the transform reads it. -/
def loadWord32 (buffer : Bytes 64) (i : ℕ) : UInt32 :=
  let byte (j : ℕ) : UInt32 := (buffer.toList.getD j 0).toUInt32
  (byte (i * 4) <<< 24) ||| (byte (i * 4 + 1) <<< 16) ||| (byte (i * 4 + 2) <<< 8) |||
    byte (i * 4 + 3)

/-- The four bytes of a word of the digest. -/
def storeWord32 (x : UInt32) : List UInt8 :=
  [(x >>> 24).toUInt8, (x >>> 16).toUInt8, (x >>> 8).toUInt8, x.toUInt8]

/-- The length of the padding in `bank_sha256_final`. -/
def sha256PadLen (count : UInt64) : UInt64 :=
  if count % 64 < 56 then 56 - count % 64 else 120 - count % 64

/-- What `bank_sha256` is made of. -/
def sha256Functions : ShaFunctions UInt32 64 where
  rounds := 64
  bsig0 := bsig0
  bsig1 := bsig1
  ssig0 := ssig0
  ssig1 := ssig1
  ch := ch32
  maj := maj32
  k := sha256K
  load := loadWord32
  store := storeWord32
  initial :=
    ⟨0x6a09e667, 0xbb67ae85, 0x3c6ef372, 0xa54ff53a, 0x510e527f, 0x9b05688c, 0x1f83d9ab,
      0x5be0cd19⟩
  padLen := sha256PadLen

/-! ## The hash -/

/-- `bank_sha256_init`. -/
def sha256Init : ShaContext UInt32 64 := ShaContext.init sha256Functions

/-- `bank_sha256_update`. -/
def sha256Update (ctx : ShaContext UInt32 64) (data : List UInt8) : ShaContext UInt32 64 :=
  ctx.update sha256Functions data

/-- `bank_sha256_final`. -/
def sha256Final (padding : Bytes 64) (ctx : ShaContext UInt32 64) : Option (List UInt8) :=
  ctx.final sha256Functions padding

/-- `bank_sha256`. -/
def sha256 (data : List UInt8) : Option (List UInt8) :=
  sha256Final (zeroBytes 64) (sha256Update sha256Init data)

/-! ## Conformance -/

theorem toNat_shiftedByte32 (b : UInt8) {s : UInt32} (hs : s.toNat ≤ 24) :
    (b.toUInt32 <<< s).toNat = 2 ^ s.toNat * b.toNat := by
  have hb : b.toNat < 256 := b.toNat_lt
  have hpow : 2 ^ s.toNat ≤ 2 ^ 24 := Nat.pow_le_pow_right (by decide) hs
  have hlt : 2 ^ s.toNat * b.toNat < 2 ^ 24 * 256 := Nat.mul_lt_mul_of_le_of_lt hpow hb (by decide)
  rw [UInt32.toNat_shiftLeft, UInt8.toNat_toUInt32, Nat.mod_eq_of_lt (a := s.toNat) (by omega),
    Nat.shiftLeft_eq, Nat.mul_comm]
  exact Nat.mod_eq_of_lt hlt

theorem toNat_loadWord32 (buffer : Bytes 64) {i : ℕ} (hi : i < 16) :
    (loadWord32 buffer i).toNat = ofBigEndian ((buffer.toList.drop (4 * i)).take 4) := by
  have hle : 4 * i + 4 ≤ buffer.toList.length := by
    rw [Vector.length_toList]
    omega
  have hlast : ∀ b : UInt8, ofBigEndian [b] = b.toNat := fun b => Nat.zero_add _
  rw [take_drop_eq_map hle]
  simp only [List.range, List.range.loop, List.map_cons, List.map_nil]
  rw [← or_ofBigEndian, ← or_ofBigEndian, ← or_ofBigEndian, hlast, loadWord32]
  simp only [UInt32.toNat_or]
  rw [toNat_shiftedByte32 _ (by decide), toNat_shiftedByte32 _ (by decide),
    toNat_shiftedByte32 _ (by decide), UInt8.toNat_toUInt32, Nat.mul_comm i 4, Nat.or_assoc,
    Nat.or_assoc]
  rfl

theorem storeWord32_eq (x : UInt32) : storeWord32 x = bigEndian 4 x.toNat := by
  have hbyte : ∀ s : UInt32, ∀ k : ℕ, s.toNat % 32 = k →
      (x >>> s).toUInt8 = UInt8.ofNat (x.toNat / 2 ^ k) := by
    intro s k hs
    apply UInt8.toNat_inj.mp
    rw [UInt32.toNat_toUInt8, UInt32.toNat_shiftRight, hs, Nat.shiftRight_eq_div_pow,
      UInt8.toNat_ofNat']
  have hlast : x.toUInt8 = UInt8.ofNat (x.toNat / 2 ^ 0) := by
    apply UInt8.toNat_inj.mp
    rw [UInt32.toNat_toUInt8, pow_zero, Nat.div_one, UInt8.toNat_ofNat']
  rw [storeWord32, hbyte 24 24 rfl, hbyte 16 16 rfl, hbyte 8 8 rfl, hlast]
  rfl

theorem toNat_sha256PadLen (m : ℕ) :
    (sha256PadLen (UInt64.ofNat m)).toNat =
      if m % 64 < 56 then 56 - m % 64 else 120 - m % 64 := by
  have hmod : (UInt64.ofNat m % 64).toNat = m % 64 := by
    rw [UInt64.toNat_mod, UInt64.toNat_ofNat']
    exact Nat.mod_mod_of_dvd m (by decide)
  have hlt : m % 64 < 64 := Nat.mod_lt _ (by decide)
  have h56 : (56 : UInt64).toNat = 56 := rfl
  have h120 : (120 : UInt64).toNat = 120 := rfl
  rw [sha256PadLen]
  by_cases hshort : m % 64 < 56
  · rw [if_pos (UInt64.lt_iff_toNat_lt.mpr (by omega)), if_pos hshort,
      UInt64.toNat_sub_of_le _ _ (UInt64.le_iff_toNat_le.mpr (by omega)), hmod, h56]
  · rw [if_neg (fun h => hshort (by have := UInt64.lt_iff_toNat_lt.mp h; omega)),
      if_neg hshort, UInt64.toNat_sub_of_le _ _ (UInt64.le_iff_toNat_le.mpr (by omega)), hmod,
      h120]

theorem sha256Functions_implements :
    Implements sha256Functions Sha2.sha256 UInt32.toBitVec where
  size := rfl
  pos := by decide
  fits := by decide
  divides := by decide
  rounds := rfl
  add _ _ := rfl
  zero := rfl
  bsig0 _ := rfl
  bsig1 _ := rfl
  ssig0 _ := rfl
  ssig1 _ := rfl
  ch _ _ _ := rfl
  maj _ _ _ := rfl
  k := by decide +kernel
  load buffer i hi := by
    apply BitVec.eq_of_toNat_eq
    rw [BitVec.toNat_ofNat, ← toNat_loadWord32 buffer hi]
    exact (Nat.mod_eq_of_lt (loadWord32 buffer i).toNat_lt).symm
  store := storeWord32_eq
  initial := by decide +kernel

/-- The padding is the one of the standard, and it fits into its array. -/
theorem sha256Final_eq {ctx : ShaContext UInt32 64} {bytes : List UInt8}
    (hctx : Holds Sha2.sha256 UInt32.toBitVec ctx bytes) (padding : Bytes 64) :
    sha256Final padding ctx = some (digest Sha2.sha256 bytes) := by
  have hlt : bytes.length % 64 < 64 := Nat.mod_lt _ (by decide)
  have hlen : (sha256PadLen ctx.count).toNat = (119 - bytes.length % 64) % 64 + 1 := by
    rw [hctx.count, toNat_sha256PadLen]
    split_ifs <;> omega
  have hpadLen : (sha256Functions.padLen ctx.count).toNat = (119 - bytes.length % 64) % 64 + 1 :=
    hlen
  rw [sha256Final, sha256Functions_implements.final_eq (by decide) hctx, hpadLen,
    if_pos (by omega), digest, padded, padBytes, List.append_cons, List.append_assoc]

theorem sha256_eq (data : List UInt8) : sha256 data = some (digest Sha2.sha256 data) :=
  sha256Final_eq (sha256Functions_implements.holds_update
    sha256Functions_implements.holds_init data) _

theorem sha256Final_updates (padding : Bytes 64) (chunks : List (List UInt8)) :
    sha256Final padding (chunks.foldl sha256Update sha256Init) =
      some (digest Sha2.sha256 chunks.flatten) :=
  sha256Final_eq (sha256Functions_implements.holds_updates chunks) padding

/-- For every message, cut in any way, the streaming hash ends without a write past the padding
array, with the digest of FIPS 180-4, which is also the hash in one call. -/
theorem sha256_chunks (padding : Bytes 64) (chunks : List (List UInt8)) :
    sha256Final padding (chunks.foldl sha256Update sha256Init) =
        some (digest Sha2.sha256 chunks.flatten) ∧
      sha256 chunks.flatten = some (digest Sha2.sha256 chunks.flatten) := by
  constructor
  · exact sha256Final_updates padding chunks
  · exact sha256_eq chunks.flatten

end Blackstone.BankCrypto
