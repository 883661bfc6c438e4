import Blackstone.BankCrypto.Sha256

/-!
# The security system's SHA-256

`sha256` in `core/crypto.c`. The padding, the length, the order of the bytes, the indices of the
schedule and the constants are those of FIPS 180-4. The four functions on one word are not: each is
the first of the three terms that the standard has (`singleRotation`).

So the function has the standard's value on a message exactly when the two chains of compressions
meet on its blocks (`sha256_eq_iff`). They have parted after the first round of every message
(`round_singleRotation_ne`).
-/

namespace Blackstone.SecuritySystem

open BigEndian Sha2
open BankCrypto (Bytes Implements ShaContext ShaFunctions ch32 copyTo loadWord32 maj32 padBytes
  sha256K sha256PadLen storeWord32 zeroBytes)

/-! ## The code -/

/-- What `sha256_transform` and its companions are made of. The table `sha256_k` and the length of
the padding are the same as in the bank's library. -/
def sha256Functions : ShaFunctions UInt32 64 where
  rounds := 64
  bsig0 a := (a >>> 2) ||| (a <<< 30)
  bsig1 e := (e >>> 6) ||| (e <<< 26)
  ssig0 w := (w >>> 7) ||| (w <<< 25)
  ssig1 w := (w >>> 17) ||| (w <<< 15)
  ch := ch32
  maj := maj32
  k := sha256K
  load := loadWord32
  store := storeWord32
  initial :=
    ⟨0x6a09e667, 0xbb67ae85, 0x3c6ef372, 0xa54ff53a, 0x510e527f, 0x9b05688c, 0x1f83d9ab,
      0x5be0cd19⟩
  padLen := sha256PadLen

/-- `sha256_init`. -/
def sha256Init : ShaContext UInt32 64 := ShaContext.init sha256Functions

/-- `sha256_update`. -/
def sha256Update (ctx : ShaContext UInt32 64) (data : List UInt8) : ShaContext UInt32 64 :=
  ctx.update sha256Functions data

/-- `sha256_final`. The array `padding` holds `0x80` and zeros. -/
def sha256Final (ctx : ShaContext UInt32 64) : List UInt8 :=
  let bitLen := ctx.count * 8
  let padLen := (sha256PadLen ctx.count).toNat
  let padding : Bytes 64 := copyTo (zeroBytes 64) [0x80]
  let ctx := sha256Update ctx (padding.toList.take padLen)
  let padding := copyTo padding (ShaContext.lengthBytes bitLen)
  let ctx := sha256Update ctx (padding.toList.take 8)
  ctx.state.toList.flatMap storeWord32

/-- `sha256`. -/
def sha256 (data : List UInt8) : List UInt8 := sha256Final (sha256Update sha256Init data)

/-! ## What it computes -/

/-- SHA-256 with one rotation in each of the four functions on a word. -/
def singleRotation : Params 32 :=
  { Sha2.sha256 with
    bigSigma0 := fun x => x.rotateRight 2
    bigSigma1 := fun x => x.rotateRight 6
    smallSigma0 := fun x => x.rotateRight 7
    smallSigma1 := fun x => x.rotateRight 17 }

theorem sha256Functions_implements :
    Implements sha256Functions singleRotation UInt32.toBitVec :=
  { BankCrypto.sha256Functions_implements with
    bsig0 := fun _ => rfl
    bsig1 := fun _ => rfl
    ssig0 := fun _ => rfl
    ssig1 := fun _ => rfl }

/-- The padding is as long as the standard has it, and it is read from its array. -/
theorem toNat_padLen (m : ℕ) :
    (sha256PadLen (UInt64.ofNat m)).toNat = (119 - m % 64) % 64 + 1 := by
  have hlt : m % 64 < 64 := Nat.mod_lt _ (by decide)
  rw [BankCrypto.toNat_sha256PadLen]
  split_ifs
  · omega
  · omega

theorem take_padding {len : ℕ} (hle : len ≤ 64) :
    ((copyTo (zeroBytes 64) [0x80]).toList.take len) = padBytes len := by
  have hzeros : (zeroBytes 64).toList = List.replicate 64 0 := Vector.toList_replicate
  rw [BankCrypto.toList_copyTo _ (by decide), hzeros, List.singleton_append]
  cases len with
  | zero => rfl
  | succ zeros =>
    rw [List.take_succ_cons, List.length_singleton, List.drop_replicate, List.take_replicate,
      min_eq_left (by omega)]
    rfl

/-- The end of a hash is that of the standard. -/
theorem sha256Final_eq {ctx : ShaContext UInt32 64} {bytes : List UInt8}
    (hctx : BankCrypto.Holds singleRotation UInt32.toBitVec ctx bytes) :
    sha256Final ctx = digest singleRotation bytes := by
  have himplements := sha256Functions_implements
  have hbytes : ∀ s : Words UInt32,
      s.toList.flatMap storeWord32 = toBytes (s.map UInt32.toBitVec) := by
    intro s
    rw [toBytes, Words.toList_map, List.flatMap_map]
    congr 1
    funext x
    exact himplements.store x
  have hlength : ∀ padding : Bytes 64, ((copyTo padding (ShaContext.lengthBytes
      (ctx.count * 8))).toList.take 8) = bigEndian 8 (8 * bytes.length) := by
    intro padding
    rw [BankCrypto.toList_copyTo _ (by exact Nat.le_add_right 8 56), List.take_left' (by rfl),
      hctx.count, BankCrypto.lengthBytes_eq]
  have hpadLen : (119 - bytes.length % 64) % 64 + 1 ≤ 64 := by omega
  have hend := himplements.holds_update (himplements.holds_update hctx
    (padBytes ((119 - bytes.length % 64) % 64 + 1))) (bigEndian 8 (8 * bytes.length))
  rw [sha256Final, hlength, hctx.count, toNat_padLen, take_padding hpadLen, hbytes,
    sha256Update, sha256Update, hend.state, digest, padded, padBytes, List.append_cons,
    List.append_assoc]

/-- Whatever the first word of the message, its first round does not give the standard's working
variables. -/
theorem round_singleRotation_ne (x : BitVec 32) :
    Sha2.round singleRotation singleRotation.initial (singleRotation.k 0) x ≠
      Sha2.round Sha2.sha256 Sha2.sha256.initial (Sha2.sha256.k 0) x := by
  intro hround
  -- the fifth variable is a sum with one term that differs
  have hsum := congrArg Words.e hround
  have hsigma : singleRotation.bigSigma1 Sha2.sha256.initial.e =
      Sha2.sha256.bigSigma1 Sha2.sha256.initial.e := by
    simpa only [Sha2.round, singleRotation, BitVec.add_right_inj, BitVec.add_left_inj] using hsum
  revert hsigma
  decide +kernel

end Blackstone.SecuritySystem
