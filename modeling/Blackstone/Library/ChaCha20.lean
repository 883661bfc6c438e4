import Mathlib.Data.Vector.Basic
import Mathlib.Logic.Function.Iterate
import Blackstone.Library.BlockStream

/-!
# ChaCha20

The stream cipher of RFC 8439. Keys and nonces are read as words with the least significant byte
first, and the state after twenty rounds and the addition is written out in the same way.
-/

namespace Blackstone.ChaCha20

open BlockStream

abbrev State := Vector UInt32 16

def word (s : State) (i : ℕ) : UInt32 := s.toList.getD i 0

/-- Rotation to the left, for `0 < n < 32`. -/
def rotateLeft (x n : UInt32) : UInt32 := (x <<< n) ||| (x >>> (32 - n))

/-- The quarter round on four words. -/
def quarterRound (a b c d : UInt32) : UInt32 × UInt32 × UInt32 × UInt32 :=
  let a := a + b
  let d := rotateLeft (d ^^^ a) 16
  let c := c + d
  let b := rotateLeft (b ^^^ c) 12
  let a := a + b
  let d := rotateLeft (d ^^^ a) 8
  let c := c + d
  let b := rotateLeft (b ^^^ c) 7
  (a, b, c, d)

/-- QUARTERROUND(x, y, z, w) on the state. -/
def quarterRoundAt (s : State) (x y z w : ℕ) : State :=
  let q := quarterRound (word s x) (word s y) (word s z) (word s w)
  (((s.setIfInBounds x q.1).setIfInBounds y q.2.1).setIfInBounds z q.2.2.1).setIfInBounds w
    q.2.2.2

/-- A column round and a diagonal round. -/
def innerBlock (s : State) : State :=
  let s := quarterRoundAt s 0 4 8 12
  let s := quarterRoundAt s 1 5 9 13
  let s := quarterRoundAt s 2 6 10 14
  let s := quarterRoundAt s 3 7 11 15
  let s := quarterRoundAt s 0 5 10 15
  let s := quarterRoundAt s 1 6 11 12
  let s := quarterRoundAt s 2 7 8 13
  quarterRoundAt s 3 4 9 14

def littleEndianWord (b0 b1 b2 b3 : UInt8) : UInt32 :=
  b0.toUInt32 ||| (b1.toUInt32 <<< 8) ||| (b2.toUInt32 <<< 16) ||| (b3.toUInt32 <<< 24)

/-- The first `n` words that the bytes hold. -/
def readWords (n : ℕ) (bytes : List UInt8) : List UInt32 :=
  (List.range n).map fun i => littleEndianWord (bytes.getD (4 * i) 0) (bytes.getD (4 * i + 1) 0)
    (bytes.getD (4 * i + 2) 0) (bytes.getD (4 * i + 3) 0)

def wordBytes (w : UInt32) : List UInt8 :=
  [w.toUInt8, (w >>> 8).toUInt8, (w >>> 16).toUInt8, (w >>> 24).toUInt8]

def constants : List UInt32 := [0x61707865, 0x3320646e, 0x79622d32, 0x6b206574]

/-- The state of a list of sixteen words. -/
def ofWords (words : List UInt32) : State := Vector.ofFn fun i => words.getD i.val 0

def initialState (key : List UInt8) (counter : UInt32) (nonce : List UInt8) : State :=
  ofWords (constants ++ readWords 8 key ++ [counter] ++ readWords 3 nonce)

def serialize (s : State) : List UInt8 := s.toList.flatMap wordBytes

def finish (s : State) : List UInt8 := serialize (Vector.zipWith (· + ·) (innerBlock^[10] s) s)

/-- The block function. -/
def block (key : List UInt8) (counter : UInt32) (nonce : List UInt8) : List UInt8 :=
  finish (initialState key counter nonce)

/-- The keystream blocks, whose counters do not wrap in a message of the standard. -/
def keyBlocks (key : List UInt8) (counter : UInt32) (nonce : List UInt8) (i : ℕ) : List UInt8 :=
  block key (counter + UInt32.ofNat i) nonce

def encrypt (key : List UInt8) (counter : UInt32) (nonce plaintext : List UInt8) : List UInt8 :=
  xorBytes plaintext
    (firstBlocks (keyBlocks key counter nonce) (blockCount 64 plaintext.length))

theorem length_serialize (s : State) : (serialize s).length = 64 := by
  have hwords : ∀ words : List UInt32, (words.flatMap wordBytes).length = 4 * words.length := by
    intro words
    induction words with
    | nil => rfl
    | cons w words ih =>
      rw [List.flatMap_cons, List.length_append, ih, List.length_cons]
      change 4 + _ = _
      omega
  rw [serialize, hwords, Vector.length_toList]

theorem length_keyBlocks (key : List UInt8) (counter : UInt32) (nonce : List UInt8) (i : ℕ) :
    (keyBlocks key counter nonce i).length = 64 :=
  length_serialize _

end Blackstone.ChaCha20
