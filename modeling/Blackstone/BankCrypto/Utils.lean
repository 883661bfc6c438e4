import Blackstone.BankCrypto.Context
import Blackstone.Library.Loops

/-!
# Checksums and comparison

`utils/bank_crc32.cpp` and `utils/bank_utils.cpp`.
-/

namespace Blackstone.BankCrypto

/-- The round of `bank_crc32` for one bit. -/
def crcBit (crc : UInt32) : UInt32 :=
  (crc >>> 1) ^^^ (if crc &&& 1 ≠ 0 then 0xEDB88320 else 0)

/-- The round of `bank_crc32` for one byte. -/
def crcByte (crc : UInt32) (byte : UInt8) : UInt32 :=
  (List.range 8).foldl (fun crc _ => crcBit crc) (crc ^^^ byte.toUInt32)

/-- `bank_crc32`. -/
def crc32 (data : List UInt8) : UInt32 := ~~~(data.foldl crcByte 0xFFFFFFFF)

/-- `bank_secure_compare`, of two buffers of one size. -/
def secureCompare {n : ℕ} (a b : Bytes n) : Bool :=
  (List.finRange n).foldl (fun result i => result ||| (a.get i ^^^ b.get i)) 0 == 0

/-- The differences are gathered until the end, and only equal buffers have none. -/
theorem secureCompare_iff {n : ℕ} {a b : Bytes n} : secureCompare a b = true ↔ a = b := by
  have hround : ∀ (result : UInt8) (i : Fin n),
      result ||| (a.get i ^^^ b.get i) = 0 ↔ result = 0 ∧ a.get i = b.get i := by
    intro result i
    rw [UInt8.or_eq_zero_iff, UInt8.xor_eq_zero_iff]
  have hloop := Loops.foldl_gathers_iff (fun result : UInt8 => result = 0) hround
    (List.finRange n) 0
  rw [secureCompare, beq_iff_eq, hloop, bytes_eq_iff]
  exact and_iff_right rfl

example : crc32 [0x31, 0x32, 0x33, 0x34, 0x35, 0x36, 0x37, 0x38, 0x39] = 0xCBF43926 := by
  decide +kernel

end Blackstone.BankCrypto
