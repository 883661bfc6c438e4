import Blackstone.BankCrypto.ShaContext

/-!
# SHA-512

`sha/bank_sha512.cpp`. The end writes eight bytes of length where the standard writes sixteen,
and its padding is eight bytes too short for them: up to 111 bytes after the last complete block
are never compressed, with 112 to 120 one block takes the place of two, and with 121 to 127 the
length of the padding is negative and `memset` leaves the array. The table of the round
constants has 64 of the 80 entries, the others are zero.

`sha512_chunks_iff` says exactly when the digest is the one of FIPS 180-4 all the same.
-/

namespace Blackstone.BankCrypto

open BigEndian Blocks Sha2

/-! ## The functions on words -/

/-- `bank_rotr64`, for `0 < n < 64`. -/
def rotr64 (x n : UInt64) : UInt64 := (x >>> n) ||| (x <<< (64 - n))

/-- `bank_ch64`. -/
def ch64 (x y z : UInt64) : UInt64 := (x &&& y) ^^^ (~~~x &&& z)

/-- `bank_maj64`. -/
def maj64 (x y z : UInt64) : UInt64 := (x &&& y) ^^^ (x &&& z) ^^^ (y &&& z)

/-- `bank_bsig0_64`. -/
def bsig0_64 (x : UInt64) : UInt64 := rotr64 x 28 ^^^ rotr64 x 34 ^^^ rotr64 x 39

/-- `bank_bsig1_64`. -/
def bsig1_64 (x : UInt64) : UInt64 := rotr64 x 14 ^^^ rotr64 x 18 ^^^ rotr64 x 41

/-- `bank_ssig0_64`. -/
def ssig0_64 (x : UInt64) : UInt64 := rotr64 x 1 ^^^ rotr64 x 8 ^^^ (x >>> 7)

/-- `bank_ssig1_64`. -/
def ssig1_64 (x : UInt64) : UInt64 := rotr64 x 19 ^^^ rotr64 x 61 ^^^ (x >>> 6)

/-- The initialiser of `bank_sha512_k`, an array of 80. -/
def sha512K : List UInt64 :=
  [0x428a2f98d728ae22, 0x7137449123ef65cd, 0xb5c0fbcfec4d3b2f, 0xe9b5dba58189dbbc,
    0x3956c25bf348b538, 0x59f111f1b605d019, 0x923f82a4af194f9b, 0xab1c5ed5da6d8118,
    0xd807aa98a3030242, 0x12835b0145706fbe, 0x243185be4ee4b28c, 0x550c7dc3d5ffb4e2,
    0x72be5d74f27b896f, 0x80deb1fe3b1696b1, 0x9bdc06a725c71235, 0xc19bf174cf692694,
    0xe49b69c19ef14ad2, 0xefbe4786384f25e3, 0x0fc19dc68b8cd5b5, 0x240ca1cc77ac9c65,
    0x2de92c6f592b0275, 0x4a7484aa6ea6e483, 0x5cb0a9dcbd41fbd4, 0x76f988da831153b5,
    0x983e5152ee66dfab, 0xa831c66d2db43210, 0xb00327c898fb213f, 0xbf597fc7beef0ee4,
    0xc6e00bf33da88fc2, 0xd5a79147930aa725, 0x06ca6351e003826f, 0x142929670a0e6e70,
    0x27b70a8546d22ffc, 0x2e1b21385c26c926, 0x4d2c6dfc5ac42aed, 0x53380d139d95b3df,
    0x650a73548baf63de, 0x766a0abb3c77b2a8, 0x81c2c92e47edaee6, 0x92722c851482353b,
    0xa2bfe8a14cf10364, 0xa81a664bbc423001, 0xc24b8b70d0f89791, 0xc76c51a30654be30,
    0xd192e819d6ef5218, 0xd69906245565a910, 0xf40e35855771202a, 0x106aa07032bbd1b8,
    0x19a4c116b8d2d0c8, 0x1e376c085141ab53, 0x2748774cdf8eeb99, 0x34b0bcb5e19b48a8,
    0x391c0cb3c5c95a63, 0x4ed8aa4ae3418acb, 0x5b9cca4f7763e373, 0x682e6ff3d6b2b8a3,
    0x748f82ee5defb2fc, 0x78a5636f43172f60, 0x84c87814a1f0ab72, 0x8cc702081a6439ec,
    0x90befffa23631e28, 0xa4506cebde82bde9, 0xbef9a3f7b2c67915, 0xc67178f2e372532b]

/-- Word `i` of the buffer, as the transform reads it. -/
def loadWord64 (buffer : Bytes 128) (i : ℕ) : UInt64 :=
  let byte (j : ℕ) : UInt64 := (buffer.toList.getD j 0).toUInt64
  (byte (i * 8) <<< 56) ||| (byte (i * 8 + 1) <<< 48) ||| (byte (i * 8 + 2) <<< 40) |||
    (byte (i * 8 + 3) <<< 32) ||| (byte (i * 8 + 4) <<< 24) ||| (byte (i * 8 + 5) <<< 16) |||
    (byte (i * 8 + 6) <<< 8) ||| byte (i * 8 + 7)

/-- The eight bytes of a word of the digest. -/
def storeWord64 (x : UInt64) : List UInt8 :=
  [(x >>> 56).toUInt8, (x >>> 48).toUInt8, (x >>> 40).toUInt8, (x >>> 32).toUInt8,
    (x >>> 24).toUInt8, (x >>> 16).toUInt8, (x >>> 8).toUInt8, x.toUInt8]

/-- The length of the padding in `bank_sha512_final`. -/
def sha512PadLen (count : UInt64) : UInt64 :=
  if count % 128 < 112 then 112 - count % 128 else 120 - count % 128

/-- What `bank_sha512` is made of. -/
def sha512Functions : ShaFunctions UInt64 128 where
  rounds := 80
  bsig0 := bsig0_64
  bsig1 := bsig1_64
  ssig0 := ssig0_64
  ssig1 := ssig1_64
  ch := ch64
  maj := maj64
  k := sha512K
  load := loadWord64
  store := storeWord64
  initial :=
    ⟨0x6a09e667f3bcc908, 0xbb67ae8584caa73b, 0x3c6ef372fe94f82b, 0xa54ff53a5f1d36f1,
      0x510e527fade682d1, 0x9b05688c2b3e6c1f, 0x1f83d9abfb41bd6b, 0x5be0cd19137e2179⟩
  padLen := sha512PadLen

/-! ## The hash -/

/-- `bank_sha512_init`. -/
def sha512Init : ShaContext UInt64 128 := ShaContext.init sha512Functions

/-- `bank_sha512_update`. -/
def sha512Update (ctx : ShaContext UInt64 128) (data : List UInt8) : ShaContext UInt64 128 :=
  ctx.update sha512Functions data

/-- `bank_sha512_final`. -/
def sha512Final (padding : Bytes 128) (ctx : ShaContext UInt64 128) : Option (List UInt8) :=
  ctx.final sha512Functions padding

/-- `bank_sha512`. -/
def sha512 (data : List UInt8) : Option (List UInt8) :=
  sha512Final (zeroBytes 128) (sha512Update sha512Init data)

/-! ## What the source computes -/

/-- SHA-512 with the round constants of the source. -/
def sourceSha512 : Params 64 :=
  { Sha2.sha512 with k := fun t => if t < 64 then Sha2.sha512.k t else 0 }

/-- What the source compresses of a message whose last `r` bytes do not fill a block. -/
def sourcePadded (message : List UInt8) : List UInt8 :=
  let r := message.length % 128
  message ++ padBytes (if r < 112 then 112 - r else 120 - r) ++ bigEndian 8 (8 * message.length)

/-- The message meets the standard's chaining value by another way: through the truncated table
of constants, and with up to 111 bytes after the last complete block through the complete blocks
alone, with 112 to 120 through a padding that ends one block early. -/
def Sha512Collides (message : List UInt8) : Prop :=
  let r := message.length % 128
  r ≤ 120 ∧
    chain sourceSha512 (if r < 112 then message else sourcePadded message) =
      chain Sha2.sha512 (padded 64 message)

theorem toNat_shiftedByte64 (b : UInt8) {s : UInt64} (hs : s.toNat ≤ 56) :
    (b.toUInt64 <<< s).toNat = 2 ^ s.toNat * b.toNat := by
  have hb : b.toNat < 256 := b.toNat_lt
  have hpow : 2 ^ s.toNat ≤ 2 ^ 56 := Nat.pow_le_pow_right (by decide) hs
  have hlt : 2 ^ s.toNat * b.toNat < 2 ^ 56 * 256 := Nat.mul_lt_mul_of_le_of_lt hpow hb (by decide)
  rw [UInt64.toNat_shiftLeft, UInt8.toNat_toUInt64, Nat.mod_eq_of_lt (a := s.toNat) (by omega),
    Nat.shiftLeft_eq, Nat.mul_comm]
  exact Nat.mod_eq_of_lt hlt

theorem toNat_loadWord64 (buffer : Bytes 128) {i : ℕ} (hi : i < 16) :
    (loadWord64 buffer i).toNat = ofBigEndian ((buffer.toList.drop (8 * i)).take 8) := by
  have hle : 8 * i + 8 ≤ buffer.toList.length := by
    rw [Vector.length_toList]
    omega
  have hlast : ∀ b : UInt8, ofBigEndian [b] = b.toNat := fun b => Nat.zero_add _
  rw [take_drop_eq_map hle]
  simp only [List.range, List.range.loop, List.map_cons, List.map_nil]
  simp only [← or_ofBigEndian, hlast]
  rw [loadWord64]
  simp only [UInt64.toNat_or]
  rw [toNat_shiftedByte64 _ (by decide), toNat_shiftedByte64 _ (by decide),
    toNat_shiftedByte64 _ (by decide), toNat_shiftedByte64 _ (by decide),
    toNat_shiftedByte64 _ (by decide), toNat_shiftedByte64 _ (by decide),
    toNat_shiftedByte64 _ (by decide), UInt8.toNat_toUInt64, Nat.mul_comm i 8]
  simp only [Nat.or_assoc]
  rfl

theorem storeWord64_eq (x : UInt64) : storeWord64 x = bigEndian 8 x.toNat := by
  have hbyte : ∀ s : UInt64, ∀ k : ℕ, s.toNat % 64 = k →
      (x >>> s).toUInt8 = UInt8.ofNat (x.toNat / 2 ^ k) := by
    intro s k hs
    apply UInt8.toNat_inj.mp
    rw [UInt64.toNat_toUInt8, UInt64.toNat_shiftRight, hs, Nat.shiftRight_eq_div_pow,
      UInt8.toNat_ofNat']
  have hlast : x.toUInt8 = UInt8.ofNat (x.toNat / 2 ^ 0) := by
    apply UInt8.toNat_inj.mp
    rw [UInt64.toNat_toUInt8, pow_zero, Nat.div_one, UInt8.toNat_ofNat']
  rw [storeWord64, hbyte 56 56 rfl, hbyte 48 48 rfl, hbyte 40 40 rfl, hbyte 32 32 rfl,
    hbyte 24 24 rfl, hbyte 16 16 rfl, hbyte 8 8 rfl, hlast]
  rfl

/-- From 121 bytes after the last complete block on, the length wraps. -/
theorem toNat_sha512PadLen (m : ℕ) :
    (sha512PadLen (UInt64.ofNat m)).toNat =
      if m % 128 < 112 then 112 - m % 128
      else if m % 128 ≤ 120 then 120 - m % 128 else 2 ^ 64 + 120 - m % 128 := by
  have hmod : (UInt64.ofNat m % 128).toNat = m % 128 := by
    rw [UInt64.toNat_mod, UInt64.toNat_ofNat']
    exact Nat.mod_mod_of_dvd m (by decide)
  have hlt : m % 128 < 128 := Nat.mod_lt _ (by decide)
  have h112 : (112 : UInt64).toNat = 112 := rfl
  have h120 : (120 : UInt64).toNat = 120 := rfl
  rw [sha512PadLen]
  by_cases hshort : m % 128 < 112
  · rw [if_pos (UInt64.lt_iff_toNat_lt.mpr (by omega)), if_pos hshort, UInt64.toNat_sub, hmod,
      h112]
    omega
  · rw [if_neg (fun h => hshort (by have := UInt64.lt_iff_toNat_lt.mp h; omega)),
      if_neg hshort, UInt64.toNat_sub, hmod, h120]
    split_ifs <;> omega

theorem sha512Functions_implements :
    Implements sha512Functions sourceSha512 UInt64.toBitVec where
  size := rfl
  pos := by decide
  fits := by decide
  divides := by decide
  rounds := rfl
  add _ _ := rfl
  zero := rfl
  bsig0 _ := rfl
  bsig1 _ := rfl
  ssig0 _ := rfl
  ssig1 _ := rfl
  ch _ _ _ := rfl
  maj _ _ _ := rfl
  k := by decide +kernel
  load buffer i hi := by
    apply BitVec.eq_of_toNat_eq
    rw [BitVec.toNat_ofNat, ← toNat_loadWord64 buffer hi]
    exact (Nat.mod_eq_of_lt (loadWord64 buffer i).toNat_lt).symm
  store := storeWord64_eq
  initial := by decide +kernel

theorem length_padBytes (len : ℕ) : (padBytes len).length = len := by
  cases len with
  | zero => rfl
  | succ zeros => rw [padBytes, List.length_cons, List.length_replicate]

/-- The bytes after the last complete block are lost when there are fewer than 112 of them: with the
padding and the length they do not fill a block. -/
theorem chain_sourcePadded (p : Params 64) {message : List UInt8}
    (hshort : message.length % 128 < 112) :
    chain p (sourcePadded message) = chain p message := by
  have hlost : (remainder (2 * 64) message ++ (padBytes (112 - message.length % 128) ++
      bigEndian 8 (8 * message.length))).length < 2 * 64 := by
    rw [List.length_append, List.length_append, length_remainder, length_padBytes,
      length_bigEndian]
    omega
  rw [chain, chain, sourcePadded, if_pos hshort, List.append_assoc, wholeBlocks_append,
    wholeBlocks_of_lt hlost, List.append_nil]

/-- The end of the hash, for every number of bytes after the last complete block. -/
theorem sha512Final_eq {ctx : ShaContext UInt64 128} {bytes : List UInt8}
    (hctx : Holds sourceSha512 UInt64.toBitVec ctx bytes) (padding : Bytes 128) :
    sha512Final padding ctx =
      if bytes.length % 128 ≤ 120 then some (toBytes (chain sourceSha512 (sourcePadded bytes)))
      else none := by
  have hlt : bytes.length % 128 < 128 := Nat.mod_lt _ (by decide)
  have hpadLen : (sha512Functions.padLen ctx.count).toNat =
      if bytes.length % 128 < 112 then 112 - bytes.length % 128
      else if bytes.length % 128 ≤ 120 then 120 - bytes.length % 128
      else 2 ^ 64 + 120 - bytes.length % 128 := by
    rw [hctx.count]
    exact toNat_sha512PadLen bytes.length
  rw [sha512Final, sha512Functions_implements.final_eq (by decide) hctx, hpadLen]
  by_cases hfits : bytes.length % 128 ≤ 120
  · rw [if_pos hfits, if_pos hfits, if_pos (by split_ifs <;> omega)]
    rfl
  · rw [if_neg hfits, if_neg hfits, if_neg (by split_ifs <;> omega)]

/-- For every message, cut in any way: the streaming hash ends without a write past the padding
array and with the digest of FIPS 180-4 exactly when the message collides. -/
theorem sha512_chunks_iff (padding : Bytes 128) (chunks : List (List UInt8)) :
    sha512Final padding (chunks.foldl sha512Update sha512Init) =
        some (digest Sha2.sha512 chunks.flatten) ↔
      Sha512Collides chunks.flatten := by
  have hctx : Holds sourceSha512 UInt64.toBitVec (chunks.foldl sha512Update sha512Init)
      chunks.flatten := sha512Functions_implements.holds_updates chunks
  have hread : chain sourceSha512 (sourcePadded chunks.flatten) =
      chain sourceSha512 (if chunks.flatten.length % 128 < 112 then chunks.flatten
        else sourcePadded chunks.flatten) := by
    split_ifs with hshort
    · exact chain_sourcePadded _ hshort
    · rfl
  rw [sha512Final_eq hctx, Sha512Collides, digest, hread]
  by_cases hfits : chunks.flatten.length % 128 ≤ 120
  · rw [if_pos hfits, Option.some_inj]
    constructor
    · intro h
      exact ⟨hfits, toBytes_inj (by decide) h⟩
    · intro h
      rw [h.2]
  · rw [if_neg hfits]
    constructor
    · intro h
      cases h
    · intro h
      exact absurd h.1 hfits

theorem sha512_eq (data : List UInt8) :
    sha512 data =
      if data.length % 128 ≤ 120 then some (toBytes (chain sourceSha512 (sourcePadded data)))
      else none :=
  sha512Final_eq (sha512Functions_implements.holds_update
    sha512Functions_implements.holds_init data) _

/-- A message of less than 112 bytes is not read at all. -/
theorem sha512_of_lt {data : List UInt8} (hshort : data.length < 112) :
    sha512 data = some (toBytes Sha2.sha512.initial) := by
  have hmod : data.length % 128 = data.length := Nat.mod_eq_of_lt (by omega)
  have hlength : data.length < 2 * 64 := by omega
  rw [sha512_eq, if_pos (by omega), chain_sourcePadded _ (by omega), chain,
    wholeBlocks_of_lt hlength]
  rfl

/-- With 121 to 127 bytes after the last complete block `memset` leaves the padding array. -/
theorem sha512_of_ge {data : List UInt8} (hlong : 121 ≤ data.length % 128) :
    sha512 data = none := by
  rw [sha512_eq, if_neg (by omega)]

/-- The digest of the empty message is the initial hash value, that of the standard is not. -/
theorem sha512_empty :
    sha512Final (zeroBytes 128) (List.foldl sha512Update sha512Init [[]]) ≠
      some (digest Sha2.sha512 [[]].flatten) := by
  have hempty : sha512 [] = some (toBytes Sha2.sha512.initial) := sha512_of_lt (by decide)
  rw [sha512] at hempty
  rw [List.foldl_cons, List.foldl_nil, hempty]
  decide +kernel

end Blackstone.BankCrypto
