import Blackstone.Library.Sha2

/-!
# The SHA-1 hash function

The function of FIPS 180-1 for messages of whole bytes. The padding and the words of a block are
those of SHA-2 with words of 32 bits. A message longer than its length field can say is hashed
with the length modulo the field.
-/

namespace Blackstone.Sha1

open BigEndian Blocks
open Sha2 (padded wordsOf)

/-- The five words of a hash value, which are also the working variables. -/
structure Words where
  a : BitVec 32
  b : BitVec 32
  c : BitVec 32
  d : BitVec 32
  e : BitVec 32

def Words.toList (s : Words) : List (BitVec 32) := [s.a, s.b, s.c, s.d, s.e]

/-- The sum, word by word. -/
def Words.add (s t : Words) : Words := ⟨s.a + t.a, s.b + t.b, s.c + t.c, s.d + t.d, s.e + t.e⟩

/-- The initial hash value. -/
def initial : Words := ⟨0x67452301, 0xefcdab89, 0x98badcfe, 0x10325476, 0xc3d2e1f0⟩

/-- The function of round `t`. -/
def f (t : ℕ) (b c d : BitVec 32) : BitVec 32 :=
  if t < 20 then (b &&& c) ||| (~~~b &&& d)
  else if t < 40 then b ^^^ c ^^^ d
  else if t < 60 then (b &&& c) ||| (b &&& d) ||| (c &&& d)
  else b ^^^ c ^^^ d

/-- The constant of round `t`. -/
def k (t : ℕ) : BitVec 32 :=
  if t < 20 then 0x5a827999
  else if t < 40 then 0x6ed9eba1
  else if t < 60 then 0x8f1bbcdc
  else 0xca62c1d6

/-- The message schedule, with `t` words after the first sixteen. -/
def schedule (m : List (BitVec 32)) : ℕ → List (BitVec 32)
  | 0 => m
  | t + 1 =>
    let x := schedule m t
    x ++ [(x.getD (t + 13) 0 ^^^ x.getD (t + 8) 0 ^^^ x.getD (t + 2) 0 ^^^
      x.getD t 0).rotateLeft 1]

/-- Round `t`, with its word of the schedule. -/
def round (v : Words) (t : ℕ) (x : BitVec 32) : Words where
  a := v.a.rotateLeft 5 + f t v.b v.c v.d + v.e + x + k t
  b := v.a
  c := v.b.rotateLeft 30
  d := v.c
  e := v.d

/-- The hash value after one more block. -/
def compress (s : Words) (block : List UInt8) : Words :=
  let x := schedule (wordsOf 32 block) 64
  s.add ((List.range 80).foldl (fun v t => round v t (x.getD t 0)) s)

/-- The hash value after the complete blocks of a sequence. -/
def chain (bytes : List UInt8) : Words := (wholeBlocks 64 bytes).foldl compress initial

def digest (message : List UInt8) : List UInt8 :=
  (chain (padded 32 message)).toList.flatMap fun x => bigEndian 4 x.toNat

theorem chain_append (xs ys : List UInt8) :
    chain (xs ++ ys) = (wholeBlocks 64 (remainder 64 xs ++ ys)).foldl compress (chain xs) := by
  rw [chain, wholeBlocks_append, List.foldl_append, chain]

-- The standard's example `abc`.
example : ofBigEndian (digest [0x61, 0x62, 0x63]) =
    0xa9993e364706816aba3e25717850c26c9cd0d89d := by
  decide +kernel

end Blackstone.Sha1
