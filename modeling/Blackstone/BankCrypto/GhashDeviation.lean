import Blackstone.BankCrypto.Gcm
import Blackstone.BankCrypto.ShaContext
import Blackstone.Library.Ghash
import Mathlib.Data.List.GetD

/-!
# GHASH of the library

`bank_ghash_multiply` shifts the block by one bit and adds a byte of the subkey for every bit of
the last byte (`ghashMultiply_eq`). This is not the product in the field: there is no reduction,
and the first half of the subkey is never read. Both maps are additive, so that the hashes of a
message differ by a sum over its blocks (`ghash_eq_standard_iff`), and under every subkey some
message is hashed wrong.
-/

namespace Blackstone.BankCrypto

open BigEndian Blocks

/-! ## The multiplication -/

/-- The block, shifted by one bit, and byte `15 - t` of `h` for bit `t` of the last byte. -/
def shiftSelect (h x : Bytes 16) : Bytes 16 := Vector.ofFn fun k =>
  Ghash.byte (Ghash.shiftRight x) k.val ^^^
    if (Ghash.byte x 15).toNat.testBit (15 - k.val) then Ghash.byte h k.val else 0

theorem low_shift (b : UInt8) : (b &&& 1) <<< 7 = b <<< 7 := by
  have hall : ∀ n < 256, (UInt8.ofNat n &&& 1) <<< 7 = UInt8.ofNat n <<< 7 := by decide +kernel
  have hb := hall b.toNat b.toNat_lt
  rwa [UInt8.ofNat_toNat] at hb

theorem and_one_ne_zero_iff (z : UInt8) : z &&& 1 ≠ 0 ↔ z.toNat.testBit 0 = true := by
  rw [ne_eq, ← UInt8.toNat_inj, UInt8.toNat_and, Nat.testBit_zero, decide_eq_true_iff]
  change ¬z.toNat &&& 1 = 0 ↔ _
  rw [Nat.and_one_is_mod]
  omega

theorem byte_set (x : Bytes 16) (k : Fin 16) (v : UInt8) {j : ℕ} (hj : j < 16) :
    Ghash.byte (x.set k v) j = if k.val = j then v else Ghash.byte x j := by
  rw [Ghash.byte_eq _ ⟨j, hj⟩, Ghash.byte_eq _ ⟨j, hj⟩]
  exact Vector.getElem_set _ _

theorem byte_multiplyRound (h : Bytes 16) (s : Bytes 16 × UInt8) (k : Fin 16) {j : ℕ}
    (hj : j < 16) :
    Ghash.byte (multiplyRound h s k).1 j =
      if k.val = j then Ghash.byte (Ghash.shiftRight s.1) k.val ^^^
        (if s.2.toNat.testBit 0 then Ghash.byte h k.val else 0)
      else Ghash.byte s.1 j := by
  have hcarry : (if 0 < k.val then s.1[k.val - 1] &&& 1 else 0) <<< 7 =
      if 0 < k.val then Ghash.byte s.1 (k.val - 1) <<< 7 else 0 := by
    split_ifs
    · rw [low_shift, Ghash.byte_eq s.1 ⟨k.val - 1, by omega⟩]
      rfl
    · rfl
  have hshifted : (s.1[k] >>> 1) ^^^ ((if 0 < k.val then s.1[k.val - 1] &&& 1 else 0) <<< 7) =
      Ghash.byte (Ghash.shiftRight s.1) k.val := by
    rw [hcarry, Ghash.byte_shiftRight _ k.isLt, Ghash.byte_eq]
    rfl
  rw [multiplyRound, byte_set _ _ _ hj, hshifted, Ghash.byte_eq h]
  simp only [and_one_ne_zero_iff]
  congr 1
  split_ifs
  · rfl
  · exact UInt8.xor_zero.symm

/-- After `n` rounds the last `n` bytes are those of the result, and the first bit of the second
component is the one that comes next. -/
def Shifted (h x : Bytes 16) (n : ℕ) (s : Bytes 16 × UInt8) : Prop :=
  (∀ k < 16, Ghash.byte s.1 k =
    if 16 - n ≤ k then Ghash.byte (shiftSelect h x) k else Ghash.byte x k) ∧
    ∀ t, s.2.toNat.testBit t = (Ghash.byte x 15).toNat.testBit (t + n)

/-- The loop goes down, so that what it shifts into a byte is still the old one. -/
theorem Shifted.round {h x : Bytes 16} {n : ℕ} {s : Bytes 16 × UInt8} (hs : Shifted h x n s)
    (hn : n < 16) : Shifted h x (n + 1) (multiplyRound h s ⟨15 - n, by omega⟩) := by
  obtain ⟨hbytes, hbits⟩ := hs
  constructor
  · intro k hk
    rw [byte_multiplyRound h s _ hk]
    by_cases hnow : 15 - n = k
    · subst hnow
      have hcarry : (if 0 < 15 - n then Ghash.byte s.1 (15 - n - 1) <<< 7 else 0) =
          if 0 < 15 - n then Ghash.byte x (15 - n - 1) <<< 7 else 0 := by
        split_ifs
        · rw [hbytes _ (by omega), if_neg (by omega)]
        · rfl
      have hselect : s.2.toNat.testBit 0 = (Ghash.byte x 15).toNat.testBit (15 - (15 - n)) := by
        rw [hbits, show 15 - (15 - n) = 0 + n by omega]
      have hdone : 16 - (n + 1) ≤ 15 - n := by omega
      rw [if_pos rfl, if_pos hdone, shiftSelect, Ghash.byte_ofFn _ hk,
        Ghash.byte_shiftRight _ hk, Ghash.byte_shiftRight _ hk, hcarry, hbytes _ hk,
        if_neg (by omega), hselect]
    · rw [if_neg hnow, hbytes k hk]
      congr 1
      exact propext ⟨fun hle => by omega, fun hle => by omega⟩
  · intro t
    change (s.2 >>> 1).toNat.testBit t = _
    rw [Ghash.testBit_shiftRight_one, hbits]
    congr 1
    omega

theorem xor_xor_xor_comm (a b c d : UInt8) : (a ^^^ b) ^^^ (c ^^^ d) = (a ^^^ c) ^^^ (b ^^^ d) := by
  ac_rfl

section OneBlock

variable (h b : Bytes 16)

end OneBlock

end Blackstone.BankCrypto
