import Blackstone.BankCrypto.Utils
import Blackstone.Library.BinaryPolynomial
import Blackstone.Library.CrcPeriod

/-!
# The checksum of a joined string

`bank_crc32_combine` is given the checksums of two strings and the length of the second. The
checksum of the joined string takes `8 * len2` bits of zeros on the first checksum
(`crc32_append`). The program takes as many as bits are set in a power of two, which is reduced by
the reflected generator as if it were a plain one (`crc32Combine_eq`).
-/

namespace Blackstone.BankCrypto

open Crc Polynomial

/-! ## The register -/

theorem crc32_eq (data : List UInt8) : crc32 data = register generator (-1) data ^^^ -1 :=
  UInt32.xor_neg_one.symm

theorem crc32_append (a b : List UInt8) :
    crc32 (a ++ b) = (shift generator)^[8 * b.length] (crc32 a) ^^^ crc32 b := by
  have hfirst : register generator (-1) a = -1 ^^^ crc32 a := by
    rw [crc32_eq, UInt32.xor_comm, UInt32.xor_assoc, UInt32.xor_self, UInt32.xor_zero]
  rw [crc32_eq, register_append, hfirst, register_xor, crc32_eq b]
  ac_rfl

/-! ## The combination -/

/-- The round of the first loop of `bank_crc32_combine`. -/
def powerRound (power : UInt32) : UInt32 :=
  (power <<< 1) ^^^ (if power &&& 0x80000000 ≠ 0 then 0xEDB88320 else 0)

/-- `bank_crc32_combine`. -/
def crc32Combine (crc1 crc2 : UInt32) (len2 : ℕ) : UInt32 :=
  let power := (List.range len2).foldl (fun power _ => powerRound power) 1
  (List.range 32).foldl
    (fun crc i => if power &&& (1 <<< UInt32.ofNat i) ≠ 0 then crcBit crc else crc) crc1 ^^^ crc2

/-- The polynomial by which the first loop reduces. -/
noncomputable def powerModulus : (ZMod 2)[X] := BinaryPolynomial.modulus 0xEDB88320

/-- The terms of a power of `X` after the reduction: the steps that the second loop takes. -/
noncomputable def powerWeight (len : ℕ) : ℕ := (X ^ len %ₘ powerModulus).support.card

theorem powerRounds_eq (n : ℕ) :
    (List.range n).foldl (fun power _ => powerRound power) 1 =
      (BinaryPolynomial.step 0xEDB88320)^[n] 1 := by
  induction n with
  | zero => rfl
  | succ n ih =>
    rw [List.range_succ, List.foldl_append, ih, Function.iterate_succ_apply']
    rfl

theorem bit_ne_zero_iff {power : UInt32} {i : ℕ} (hi : i < 32) :
    power &&& (1 <<< UInt32.ofNat i) ≠ 0 ↔ power.toNat.testBit i = true := by
  have hmask : (1 <<< UInt32.ofNat i : UInt32).toNat = 2 ^ i := by
    have hi32 : (UInt32.ofNat i).toNat = i :=
      UInt32.toNat_ofNat_of_lt' (Nat.lt_of_lt_of_le hi (by decide))
    have hone : (1 : UInt32).toNat = 1 := rfl
    rw [UInt32.toNat_shiftLeft, hi32, hone, Nat.mod_eq_of_lt hi, Nat.shiftLeft_eq, Nat.one_mul]
    exact Nat.mod_eq_of_lt (Nat.pow_lt_pow_right (by decide) hi)
  have hzero : (0 : UInt32).toNat = 0 := rfl
  rw [Ne, ← UInt32.toNat_inj, UInt32.toNat_and, hmask, hzero, Nat.and_two_pow]
  cases power.toNat.testBit i <;> simp

/-- The second loop takes one step for every bit that is set. -/
theorem bitRounds_eq (power crc : UInt32) (bits : List ℕ) (hbits : ∀ i ∈ bits, i < 32) :
    bits.foldl
        (fun crc i => if power &&& (1 <<< UInt32.ofNat i) ≠ 0 then crcBit crc else crc) crc =
      (shift generator)^[bits.countP fun i => power.toNat.testBit i] crc := by
  induction bits generalizing crc with
  | nil => rfl
  | cons i bits ih =>
    have hi := hbits i List.mem_cons_self
    have hrest := fun j hj => hbits j (List.mem_cons_of_mem i hj)
    rw [List.foldl_cons, ih _ hrest, List.countP_cons]
    split_ifs with hset hbit hbit
    · rw [Function.iterate_succ_apply]
      rfl
    · exact absurd ((bit_ne_zero_iff hi).mp hset) hbit
    · exact absurd ((bit_ne_zero_iff hi).mpr hbit) hset
    · rfl

theorem crc32Combine_eq (crc1 crc2 : UInt32) (len2 : ℕ) :
    crc32Combine crc1 crc2 len2 = (shift generator)^[powerWeight len2] crc1 ^^^ crc2 := by
  rw [crc32Combine, powerRounds_eq, bitRounds_eq _ _ _ fun i hi => List.mem_range.mp hi,
    ← BinaryPolynomial.card_support_polynomial, BinaryPolynomial.polynomial_iterate_step]
  rfl

/-! ## When the combination is right -/

theorem powerWeight_le (len : ℕ) : powerWeight len ≤ 32 := by
  rw [powerWeight, powerModulus, ← BinaryPolynomial.polynomial_iterate_step,
    BinaryPolynomial.card_support_polynomial]
  exact List.countP_le_length

theorem powerWeight_of_lt {len : ℕ} (hlen : len < 32) : powerWeight len = 1 := by
  have hpower : (X : (ZMod 2)[X]) ^ len %ₘ powerModulus = X ^ len := by
    rw [powerModulus, modByMonic_eq_self_iff (BinaryPolynomial.modulus_monic _),
      BinaryPolynomial.degree_modulus, degree_X_pow]
    exact_mod_cast hlen
  rw [powerWeight, hpower, support_X_pow, Finset.card_singleton]

/-- Too short strings take more bits than the combination can make up for. -/
theorem le_of_modEq_powerWeight {len : ℕ} (hmod : 8 * len ≡ powerWeight len [MOD period]) :
    2 ^ 29 ≤ len := by
  by_contra hshort
  have hweight := powerWeight_le len
  have heq : 8 * len = powerWeight len := by
    apply hmod.eq_of_lt_of_lt
    · rw [period]
      omega
    · rw [period]
      omega
  have hone := @powerWeight_of_lt len (by omega)
  omega

/-- The combination is right only for a first checksum of zero, and for second strings of 512 MiB
and more whose length happens to fit. -/
theorem crc32Combine_iff (a b : List UInt8) :
    crc32Combine (crc32 a) (crc32 b) b.length = crc32 (a ++ b) ↔
      crc32 a = 0 ∨ 2 ^ 29 ≤ b.length ∧ 8 * b.length ≡ powerWeight b.length [MOD 2 ^ 32 - 1] := by
  have hright : crc32Combine (crc32 a) (crc32 b) b.length = crc32 (a ++ b) ↔
      crc32 a = 0 ∨ powerWeight b.length ≡ 8 * b.length [MOD period] := by
    rw [crc32Combine_eq, crc32_append, UInt32.xor_left_inj, iterate_shift_eq_iff]
  rw [hright]
  apply or_congr_right
  constructor
  · intro hmod
    exact ⟨le_of_modEq_powerWeight hmod.symm, hmod.symm⟩
  · rintro ⟨-, hmod⟩
    exact hmod.symm

/-- `"a"` and the empty string. -/
theorem crc32Combine_ne :
    crc32Combine (crc32 [0x61]) (crc32 []) 0 ≠ crc32 ([0x61] ++ []) := by
  decide +kernel

end Blackstone.BankCrypto
