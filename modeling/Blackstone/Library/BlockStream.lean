import Mathlib.Data.List.Basic
import Mathlib.Tactic.Common

/-!
# Streams of blocks

Sequences of blocks of one length, of which the first bytes are used: the output of a key
derivation, or the keystream of a cipher. `firstBlocks_take_succ` is the step of a program that
writes one block after the other.
-/

namespace Blackstone.BlockStream

/-- The first `n` blocks of a sequence of blocks. -/
def firstBlocks (block : ℕ → List UInt8) (n : ℕ) : List UInt8 := (List.range n).flatMap block

theorem firstBlocks_succ (block : ℕ → List UInt8) (n : ℕ) :
    firstBlocks block (n + 1) = firstBlocks block n ++ block n := by
  rw [firstBlocks, List.range_succ, List.flatMap_append, List.flatMap_singleton]
  rfl

/-- The blocks in two parts. -/
theorem firstBlocks_add (block : ℕ → List UInt8) (m n : ℕ) :
    firstBlocks block (m + n) = firstBlocks block m ++ firstBlocks (fun i => block (m + i)) n := by
  induction n with
  | zero => exact (List.append_nil _).symm
  | succ n ih => rw [← Nat.add_assoc, firstBlocks_succ, ih, firstBlocks_succ, List.append_assoc]

theorem length_firstBlocks {block : ℕ → List UInt8} {size : ℕ}
    (hsize : ∀ i, (block i).length = size) (n : ℕ) : (firstBlocks block n).length = size * n := by
  induction n with
  | zero => rfl
  | succ n ih => rw [firstBlocks_succ, List.length_append, ih, hsize, Nat.mul_succ]

/-- One more block, of which no more is taken than is missing. -/
theorem firstBlocks_take_succ {block : ℕ → List UInt8} {size : ℕ}
    (hsize : ∀ i, (block i).length = size) (n len : ℕ) :
    (firstBlocks block (n + 1)).take len =
      (firstBlocks block n).take len ++ (block n).take (len - size * n) := by
  rw [firstBlocks_succ, List.take_append, length_firstBlocks hsize]

/-- The number of blocks that `len` bytes take. -/
def blockCount (size len : ℕ) : ℕ := (len + size - 1) / size

theorem mul_lt_of_lt_blockCount {size len i : ℕ} (hi : i < blockCount size len) :
    size * i < len := by
  have hpos : 0 < size := by
    rcases Nat.eq_zero_or_pos size with rfl | hpos
    · rw [blockCount, Nat.div_zero] at hi
      omega
    · exact hpos
  have hle : (i + 1) * size ≤ len + size - 1 := (Nat.le_div_iff_mul_le hpos).mp hi
  rw [Nat.succ_mul, Nat.mul_comm] at hle
  omega

/-- Whole blocks in front count for themselves. -/
theorem blockCount_mul_add {size : ℕ} (hpos : 0 < size) (n len : ℕ) :
    blockCount size (size * n + len) = n + blockCount size len := by
  have hsum : size * n + len + size - 1 = len + size - 1 + size * n := by omega
  rw [blockCount, blockCount, hsum, Nat.add_mul_div_left _ _ hpos, Nat.add_comm]

/-- Every number of blocks that is enough gives the same first bytes. -/
theorem firstBlocks_take_of_le {block : ℕ → List UInt8} {size : ℕ}
    (hsize : ∀ i, (block i).length = size) {m n len : ℕ} (hm : len ≤ size * m) (hmn : m ≤ n) :
    (firstBlocks block n).take len = (firstBlocks block m).take len := by
  induction hmn with
  | refl => rfl
  | @step n hmn ih =>
    have hle : len ≤ size * n := Nat.le_trans hm (Nat.mul_le_mul_left size hmn)
    rw [firstBlocks_take_succ hsize, ih, Nat.sub_eq_zero_of_le hle, List.take_zero, List.append_nil]

theorem blockCount_le {size len n : ℕ} (hle : len ≤ size * n) : blockCount size len ≤ n := by
  rw [blockCount]
  rcases Nat.eq_zero_or_pos size with rfl | hpos
  · rw [Nat.div_zero]
    exact Nat.zero_le n
  · rw [← Nat.lt_succ_iff, Nat.div_lt_iff_lt_mul hpos, Nat.succ_mul, Nat.mul_comm n]
    omega

theorem le_mul_blockCount {size : ℕ} (hpos : 0 < size) (len : ℕ) :
    len ≤ size * blockCount size len := by
  have hdivision := Nat.div_add_mod (len + size - 1) size
  have hlt : (len + size - 1) % size < size := Nat.mod_lt _ hpos
  rw [blockCount]
  omega

theorem firstBlocks_take_blockCount {block : ℕ → List UInt8} {size : ℕ}
    (hsize : ∀ i, (block i).length = size) (hpos : 0 < size) {n len : ℕ} (hle : len ≤ size * n) :
    (firstBlocks block n).take len = (firstBlocks block (blockCount size len)).take len :=
  firstBlocks_take_of_le hsize (le_mul_blockCount hpos len) (blockCount_le hle)

/-- The first bytes of two sequences are equal if those of all their blocks are. -/
theorem firstBlocks_take_eq_iff {block block' : ℕ → List UInt8} {size : ℕ}
    (hsize : ∀ i, (block i).length = size) (hsize' : ∀ i, (block' i).length = size) (n len : ℕ) :
    (firstBlocks block n).take len = (firstBlocks block' n).take len ↔
      ∀ i < n, (block i).take (len - size * i) = (block' i).take (len - size * i) := by
  induction n with
  | zero => simp [firstBlocks]
  | succ n ih =>
    have hlength :
        ((firstBlocks block n).take len).length = ((firstBlocks block' n).take len).length := by
      rw [List.length_take, List.length_take, length_firstBlocks hsize, length_firstBlocks hsize']
    rw [firstBlocks_take_succ hsize, firstBlocks_take_succ hsize', Nat.forall_lt_succ_right, ← ih]
    constructor
    · intro h
      exact List.append_inj h hlength
    · rintro ⟨hfirst, hblock⟩
      rw [hfirst, hblock]

/-! ## Exclusive or -/

/-- Two strings, xored byte by byte. -/
def xorBytes (xs ys : List UInt8) : List UInt8 := List.zipWith (· ^^^ ·) xs ys

@[simp] theorem length_xorBytes (xs ys : List UInt8) :
    (xorBytes xs ys).length = min xs.length ys.length := List.length_zipWith

theorem xorBytes_append {xs ys : List UInt8} (hlength : xs.length = ys.length)
    (xs' ys' : List UInt8) :
    xorBytes (xs ++ xs') (ys ++ ys') = xorBytes xs ys ++ xorBytes xs' ys' :=
  List.zipWith_append hlength

/-- A stream that is xored twice is taken off again. -/
theorem xorBytes_xorBytes {xs ys : List UInt8} (hle : xs.length ≤ ys.length) :
    xorBytes (xorBytes xs ys) ys = xs := by
  apply List.ext_getElem
  · rw [length_xorBytes, length_xorBytes]
    omega
  · intro i _ _
    simp only [xorBytes, List.getElem_zipWith, UInt8.xor_assoc, UInt8.xor_self, UInt8.xor_zero]

theorem xorBytes_take_right (xs ys : List UInt8) :
    xorBytes xs (ys.take xs.length) = xorBytes xs ys := by
  apply List.ext_getElem
  · rw [length_xorBytes, length_xorBytes, List.length_take]
    omega
  · intro i _ _
    simp only [xorBytes, List.getElem_zipWith, List.getElem_take]

theorem xorBytes_zeros (n : ℕ) (ys : List UInt8) :
    xorBytes (List.replicate n 0) ys = ys.take n := by
  apply List.ext_getElem
  · rw [length_xorBytes, List.length_replicate, List.length_take]
  · intro i _ _
    simp only [xorBytes, List.getElem_zipWith, List.getElem_replicate, List.getElem_take,
      UInt8.zero_xor]

/-- A text and its encryption show the part of the stream that it was xored with. -/
theorem xorBytes_xorBytes_left {xs ys : List UInt8} (hle : xs.length ≤ ys.length) :
    xorBytes xs (xorBytes xs ys) = ys.take xs.length := by
  apply List.ext_getElem
  · rw [length_xorBytes, length_xorBytes, List.length_take]
    omega
  · intro i _ _
    simp only [xorBytes, List.getElem_zipWith, List.getElem_take, ← UInt8.xor_assoc,
      UInt8.xor_self, UInt8.zero_xor]

theorem xorBytes_right_inj {xs ys zs : List UInt8} (hys : xs.length ≤ ys.length)
    (hzs : xs.length ≤ zs.length) :
    xorBytes xs ys = xorBytes xs zs ↔ ys.take xs.length = zs.take xs.length := by
  constructor
  · intro h
    rw [← xorBytes_xorBytes_left hys, ← xorBytes_xorBytes_left hzs, h]
  · intro h
    rw [← xorBytes_take_right xs ys, h, xorBytes_take_right]

end Blackstone.BlockStream
