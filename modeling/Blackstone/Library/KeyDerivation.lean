import Blackstone.Library.BigEndian
import Blackstone.Library.BlockStream

/-!
# Message authentication and key derivation

HMAC (RFC 2104) over any hash function, and PBKDF2 (RFC 8018) and HKDF (RFC 5869) over any
pseudorandom function. Both derivations give the first bytes of a stream of blocks.
-/

namespace Blackstone.KeyDerivation

open BigEndian BlockStream

/-! ## HMAC -/

/-- The key, brought to the size of a block. -/
def blockKey (hash : List UInt8 → List UInt8) (blockSize : ℕ) (key : List UInt8) : List UInt8 :=
  let short := if blockSize < key.length then hash key else key
  short ++ List.replicate (blockSize - short.length) 0

def hmac (hash : List UInt8 → List UInt8) (blockSize : ℕ) (key text : List UInt8) : List UInt8 :=
  let k := blockKey hash blockSize key
  hash (k.map (· ^^^ 0x5c) ++ hash (k.map (· ^^^ 0x36) ++ text))

/-- Zeros at the end of a key that fits into a block do not change the code. -/
theorem hmac_replicate_zero (hash : List UInt8 → List UInt8) {blockSize m : ℕ}
    (hm : m ≤ blockSize) (text : List UInt8) :
    hmac hash blockSize (List.replicate m 0) text = hmac hash blockSize [] text := by
  have hkey : ∀ m ≤ blockSize,
      blockKey hash blockSize (List.replicate m 0) = List.replicate blockSize 0 := by
    intro m hm
    rw [blockKey, List.length_replicate, if_neg (by omega), List.length_replicate,
      List.replicate_append_replicate, Nat.add_sub_cancel' hm]
  rw [hmac, hmac, hkey m hm, ← List.replicate_zero, hkey 0 (Nat.zero_le _)]

section Derivation

variable (prf : List UInt8 → List UInt8 → List UInt8)

/-! ## PBKDF2 -/

/-- `U` with index `i + 1`. -/
def iterate (password salt : List UInt8) (block : ℕ) : ℕ → List UInt8
  | 0 => prf password (salt ++ bigEndian 4 block)
  | i + 1 => prf password (iterate password salt block i)

/-- The exclusive or of `U` up to index `i + 1`. -/
def iterateXor (password salt : List UInt8) (block : ℕ) : ℕ → List UInt8
  | 0 => iterate prf password salt block 0
  | i + 1 => xorBytes (iterateXor password salt block i) (iterate prf password salt block (i + 1))

/-- PBKDF2 with `count` iterations. The blocks are numbered from one. -/
def pbkdf2 (size : ℕ) (password salt : List UInt8) (count len : ℕ) : List UInt8 :=
  (firstBlocks (fun i => iterateXor prf password salt (i + 1) (count - 1))
    (blockCount size len)).take len

section Length

variable {prf} {size : ℕ} (hprf : ∀ key text, (prf key text).length = size)
include hprf

theorem length_iterate (password salt : List UInt8) (block i : ℕ) :
    (iterate prf password salt block i).length = size := by
  cases i <;> exact hprf _ _

theorem length_iterateXor (password salt : List UInt8) (block i : ℕ) :
    (iterateXor prf password salt block i).length = size := by
  induction i with
  | zero => exact length_iterate hprf _ _ _ _
  | succ i ih => rw [iterateXor, length_xorBytes, ih, length_iterate hprf, Nat.min_self]

theorem length_pbkdf2 (hpos : 0 < size) (password salt : List UInt8) (count len : ℕ) :
    (pbkdf2 prf size password salt count len).length = len := by
  rw [pbkdf2, List.length_take, length_firstBlocks fun _ => length_iterateXor hprf _ _ _ _]
  exact Nat.min_eq_left (le_mul_blockCount hpos len)

end Length

/-! ## HKDF -/

/-- The pseudorandom key. A salt that is not given is a string of zeros. -/
def hkdfExtract (size : ℕ) (salt : Option (List UInt8)) (material : List UInt8) : List UInt8 :=
  prf (salt.getD (List.replicate size 0)) material

/-- The block with number `i`; the block with number zero is empty. -/
def hkdfBlock (key info : List UInt8) : ℕ → List UInt8
  | 0 => []
  | i + 1 => prf key (hkdfBlock key info i ++ info ++ [UInt8.ofNat (i + 1)])

/-- The output key. -/
def hkdfExpand (size : ℕ) (key info : List UInt8) (len : ℕ) : List UInt8 :=
  (firstBlocks (fun i => hkdfBlock prf key info (i + 1)) (blockCount size len)).take len

/-- HKDF. -/
def hkdf (size : ℕ) (salt : Option (List UInt8)) (material info : List UInt8) (len : ℕ) :
    List UInt8 :=
  hkdfExpand prf size (hkdfExtract prf size salt material) info len

/-- Two pseudorandom functions give one output if they agree, on the bytes that are used, at what
the second authenticates for each block. -/
theorem hkdfExpand_eq_iff {prf prf' : List UInt8 → List UInt8 → List UInt8} {size : ℕ}
    (hsize : ∀ key text, (prf key text).length = size)
    (hsize' : ∀ key text, (prf' key text).length = size) (key key' info : List UInt8) (len : ℕ) :
    hkdfExpand prf size key info len = hkdfExpand prf' size key' info len ↔
      ∀ i < blockCount size len,
        (prf key (hkdfBlock prf' key' info i ++ info ++ [UInt8.ofNat (i + 1)])).take
            (len - size * i) =
          (prf' key' (hkdfBlock prf' key' info i ++ info ++ [UInt8.ofNat (i + 1)])).take
            (len - size * i) := by
  have hblock : ∀ i, (hkdfBlock prf key info (i + 1)).length = size := fun i => hsize _ _
  have hblock' : ∀ i, (hkdfBlock prf' key' info (i + 1)).length = size := fun i => hsize' _ _
  have hfull : ∀ i {bytes : List UInt8}, i + 1 < blockCount size len → bytes.length = size →
      bytes.take (len - size * i) = bytes := by
    intro i bytes hi hbytes
    have hlt := mul_lt_of_lt_blockCount hi
    rw [Nat.mul_succ] at hlt
    exact List.take_of_length_le (by omega)
  rw [hkdfExpand, hkdfExpand, firstBlocks_take_eq_iff hblock hblock']
  constructor
  · intro h i hi
    -- Every block before is used in full, so the two sequences agree up to here.
    have hsame : hkdfBlock prf key info i = hkdfBlock prf' key' info i := by
      cases i with
      | zero => rfl
      | succ i =>
        have hprev := h i (by omega)
        rwa [hfull i hi (hblock i), hfull i hi (hblock' i)] at hprev
    have hthis := h i hi
    rw [hkdfBlock, hkdfBlock, hsame] at hthis
    exact hthis
  · intro h
    have hsame : ∀ i < blockCount size len,
        hkdfBlock prf key info i = hkdfBlock prf' key' info i := by
      intro i hi
      induction i with
      | zero => rfl
      | succ i ih =>
        have hprev := h i (by omega)
        rw [hfull i hi (hsize _ _), hfull i hi (hsize' _ _)] at hprev
        rw [hkdfBlock, ih (by omega)]
        exact hprev
    intro i hi
    rw [hkdfBlock, hsame i hi]
    exact h i hi

end Derivation

end Blackstone.KeyDerivation
