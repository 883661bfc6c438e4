import Blackstone.Library.BigEndian

/-!
# Words in the memory of a little-endian machine

`store` and `load` are the accesses to a number of `k` bytes at an address, and `swap` is the
conversion between the order of the machine and the one of the network. A number that is converted
before it is stored lies in memory with its most significant byte first (`store_swap`).
-/

namespace Blackstone.ByteOrder

open BigEndian

/-- The bytes of a number in memory. -/
def store (k n : ℕ) : List UInt8 := (bigEndian k n).reverse

/-- The number that lies in memory. -/
def load (bytes : List UInt8) : ℕ := ofBigEndian bytes.reverse

/-- The number with its bytes in reverse. -/
def swap (k n : ℕ) : ℕ := ofBigEndian (store k n)

@[simp] theorem length_store (k n : ℕ) : (store k n).length = k := by
  rw [store, List.length_reverse, length_bigEndian]

theorem load_store (k n : ℕ) : load (store k n) = n % 256 ^ k := by
  rw [load, store, List.reverse_reverse, ofBigEndian_bigEndian]

theorem store_load {bytes : List UInt8} {k : ℕ} (hk : bytes.length = k) :
    store k (load bytes) = bytes := by
  have hreverse : bytes.reverse.length = k := by rw [List.length_reverse, hk]
  rw [store, load, bigEndian_ofBigEndian hreverse, List.reverse_reverse]

theorem load_lt {bytes : List UInt8} {k : ℕ} (hk : bytes.length = k) : load bytes < 256 ^ k := by
  have hlt := ofBigEndian_lt bytes.reverse
  rwa [List.length_reverse, hk] at hlt

theorem swap_lt (k n : ℕ) : swap k n < 256 ^ k := by
  have hlt := ofBigEndian_lt (store k n)
  rwa [length_store] at hlt

theorem store_swap (k n : ℕ) : store k (swap k n) = bigEndian k n := by
  rw [store, swap, bigEndian_ofBigEndian (length_store k n), store, List.reverse_reverse]

theorem swap_swap (k n : ℕ) : swap k (swap k n) = n % 256 ^ k := by
  rw [swap, store_swap, ofBigEndian_bigEndian]

/-- A number that is converted after it is loaded. -/
theorem swap_load {bytes : List UInt8} {k : ℕ} (hk : bytes.length = k) :
    swap k (load bytes) = ofBigEndian bytes := by
  rw [swap, store_load hk]

/-! ## Words of 32 and 16 bits -/

/-- `htonl` and `ntohl`. -/
def swap32 (x : UInt32) : UInt32 := UInt32.ofNat (swap 4 x.toNat)

/-- `htons` and `ntohs`. -/
def swap16 (x : UInt16) : UInt16 := UInt16.ofNat (swap 2 x.toNat)

theorem toNat_swap32 (x : UInt32) : (swap32 x).toNat = swap 4 x.toNat :=
  UInt32.toNat_ofNat_of_lt' (swap_lt 4 x.toNat)

@[simp] theorem swap32_swap32 (x : UInt32) : swap32 (swap32 x) = x := by
  apply UInt32.toNat_inj.mp
  rw [toNat_swap32, toNat_swap32, swap_swap]
  exact Nat.mod_eq_of_lt x.toNat_lt

theorem ofNat_load_store32 (x : UInt32) : UInt32.ofNat (load (store 4 x.toNat)) = x := by
  have hmod : x.toNat % 256 ^ 4 = x.toNat := Nat.mod_eq_of_lt x.toNat_lt
  rw [load_store, hmod, UInt32.ofNat_toNat]

theorem ofNat_load_store16 (x : UInt16) : UInt16.ofNat (load (store 2 x.toNat)) = x := by
  have hmod : x.toNat % 256 ^ 2 = x.toNat := Nat.mod_eq_of_lt x.toNat_lt
  rw [load_store, hmod, UInt16.ofNat_toNat]

theorem store_ofNat_load32 {bytes : List UInt8} (hlength : bytes.length = 4) :
    store 4 (UInt32.ofNat (load bytes)).toNat = bytes := by
  have hlt : load bytes < 2 ^ 32 := load_lt hlength
  rw [UInt32.toNat_ofNat_of_lt' hlt, store_load hlength]

theorem store_ofNat_load16 {bytes : List UInt8} (hlength : bytes.length = 2) :
    store 2 (UInt16.ofNat (load bytes)).toNat = bytes := by
  have hlt : load bytes < 2 ^ 16 := load_lt hlength
  rw [UInt16.toNat_ofNat_of_lt' hlt, store_load hlength]

/-- A length or a checksum that is read from the network. -/
theorem toNat_swap32_load {bytes : List UInt8} (hlength : bytes.length = 4) :
    (swap32 (UInt32.ofNat (load bytes))).toNat = ofBigEndian bytes := by
  have hlt : load bytes < 2 ^ 32 := load_lt hlength
  rw [toNat_swap32, UInt32.toNat_ofNat_of_lt' hlt, swap_load hlength]

/-- A length that an `int` can hold. -/
theorem bmod_of_lt {n : ℕ} (hn : n < 2 ^ 31) : Int.bmod n (2 ^ 32) = n := by
  apply Int.bmod_eq_of_le
  · omega
  · omega

end Blackstone.ByteOrder
