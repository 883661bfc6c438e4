import Blackstone.Library.BigEndian
import Blackstone.Library.Blocks

/-!
# The SHA-2 hash functions

The functions of FIPS 180-4 for messages of whole bytes, over words of `w` bits: a block has
sixteen words, and the length of the message takes the last two words of its padding. `sha256`
and `sha512` are the two parameter sets. Their constants are the first bits of the fractional
parts of square and cube roots of primes (`rootWord_spec`).

A message longer than its length field can say is hashed with the length modulo the field.
-/

namespace Blackstone.Sha2

open BigEndian Blocks

/-- The eight words of a hash value, which are also the working variables. -/
structure Words (W : Type) where
  a : W
  b : W
  c : W
  d : W
  e : W
  f : W
  g : W
  h : W
deriving DecidableEq

namespace Words

variable {W V : Type}

def toList (s : Words W) : List W := [s.a, s.b, s.c, s.d, s.e, s.f, s.g, s.h]

def map (φ : W → V) (s : Words W) : Words V :=
  ⟨φ s.a, φ s.b, φ s.c, φ s.d, φ s.e, φ s.f, φ s.g, φ s.h⟩

/-- The sum, word by word. -/
def add [Add W] (s t : Words W) : Words W :=
  ⟨s.a + t.a, s.b + t.b, s.c + t.c, s.d + t.d, s.e + t.e, s.f + t.f, s.g + t.g, s.h + t.h⟩

theorem toList_inj {s t : Words W} (h : s.toList = t.toList) : s = t := by
  cases s
  cases t
  simpa [toList] using h

theorem toList_map (φ : W → V) (s : Words W) : (s.map φ).toList = s.toList.map φ := rfl

end Words

variable {w : ℕ}

def ch (x y z : BitVec w) : BitVec w := (x &&& y) ^^^ (~~~x &&& z)

def maj (x y z : BitVec w) : BitVec w := (x &&& y) ^^^ (x &&& z) ^^^ (y &&& z)

/-- What distinguishes the functions of the family. -/
structure Params (w : ℕ) where
  rounds : ℕ
  bigSigma0 : BitVec w → BitVec w
  bigSigma1 : BitVec w → BitVec w
  smallSigma0 : BitVec w → BitVec w
  smallSigma1 : BitVec w → BitVec w
  k : ℕ → BitVec w
  initial : Words (BitVec w)

/-! ## Padding -/

/-- The message, the bit 1, zeros, and the length in bits. -/
def padded (w : ℕ) (message : List UInt8) : List UInt8 :=
  message ++ [0x80] ++
    List.replicate ((4 * w - w / 4 - 1 - message.length % (2 * w)) % (2 * w)) 0 ++
    bigEndian (w / 4) (8 * message.length)

theorem length_padded_mod (hw : 0 < w) (message : List UInt8) :
    (padded w message).length % (2 * w) = 0 := by
  have hdivision := Nat.div_add_mod message.length (2 * w)
  have hlt : message.length % (2 * w) < 2 * w := Nat.mod_lt _ (by omega)
  have hlength : (padded w message).length = 2 * w * (message.length / (2 * w)) +
      (message.length % (2 * w) + 1 + w / 4 +
        (4 * w - w / 4 - 1 - message.length % (2 * w)) % (2 * w)) := by
    simp only [padded, List.length_append, List.length_singleton, List.length_replicate,
      length_bigEndian]
    omega
  have htotal : message.length % (2 * w) + 1 + w / 4 +
      (4 * w - w / 4 - 1 - message.length % (2 * w)) = 2 * w * 2 := by omega
  rw [hlength, Nat.mul_add_mod, Nat.add_mod_mod, htotal, Nat.mul_mod_right]

/-! ## Compression -/

/-- The sixteen words of a block. -/
def wordsOf (w : ℕ) (block : List UInt8) : List (BitVec w) :=
  (List.range 16).map fun i =>
    BitVec.ofNat w (ofBigEndian ((block.drop (w / 8 * i)).take (w / 8)))

/-- The message schedule, with `t` words after the first sixteen. -/
def schedule (p : Params w) (m : List (BitVec w)) : ℕ → List (BitVec w)
  | 0 => m
  | t + 1 =>
    let x := schedule p m t
    x ++ [p.smallSigma1 (x.getD (t + 14) 0) + x.getD (t + 9) 0 +
      p.smallSigma0 (x.getD (t + 1) 0) + x.getD t 0]

/-- One round, with its constant and its word of the schedule. -/
def round (p : Params w) (v : Words (BitVec w)) (k x : BitVec w) : Words (BitVec w) :=
  let t1 := v.h + p.bigSigma1 v.e + ch v.e v.f v.g + k + x
  let t2 := p.bigSigma0 v.a + maj v.a v.b v.c
  ⟨t1 + t2, v.a, v.b, v.c, v.d + t1, v.e, v.f, v.g⟩

/-- The hash value after one more block. -/
def compress (p : Params w) (s : Words (BitVec w)) (block : List UInt8) : Words (BitVec w) :=
  let x := schedule p (wordsOf w block) (p.rounds - 16)
  s.add ((List.range p.rounds).foldl (fun v t => round p v (p.k t) (x.getD t 0)) s)

/-- The hash value after the complete blocks of a sequence. -/
def chain (p : Params w) (bytes : List UInt8) : Words (BitVec w) :=
  (wholeBlocks (2 * w) bytes).foldl (compress p) p.initial

/-- The bytes of a hash value. -/
def toBytes (s : Words (BitVec w)) : List UInt8 :=
  s.toList.flatMap fun x => bigEndian (w / 8) x.toNat

def digest (p : Params w) (message : List UInt8) : List UInt8 :=
  toBytes (chain p (padded w message))

theorem length_toBytes (s : Words (BitVec w)) : (toBytes s).length = 8 * (w / 8) := by
  simp only [toBytes, Words.toList, List.flatMap_cons, List.flatMap_nil, List.length_append,
    length_bigEndian, List.length_nil]
  omega

/-- A hash value is known from its bytes. -/
theorem toBytes_inj (hw : 8 ∣ w) {s t : Words (BitVec w)} (h : toBytes s = toBytes t) : s = t := by
  have hpow : 2 ^ w = 256 ^ (w / 8) := by
    rw [show (256 : ℕ) = 2 ^ 8 from rfl, ← pow_mul, Nat.mul_div_cancel' hw]
  apply Words.toList_inj
  have hsame : s.toList.length = t.toList.length := rfl
  refine eq_of_flatMap_eq ?_ ?_ hsame h
  · intro x y
    rw [length_bigEndian, length_bigEndian]
  · intro x y hxy
    apply BitVec.eq_of_toNat_eq
    exact bigEndian_inj (hpow ▸ x.isLt) (hpow ▸ y.isLt) hxy

/-! ## Constants -/

/-- The largest number of the form `r + x` with `x < 2 ^ b` whose `k`-th power is at most `n`. -/
def rootFrom (k n : ℕ) : ℕ → ℕ → ℕ
  | 0, r => r
  | b + 1, r => rootFrom k n b (if (r + 2 ^ b) ^ k ≤ n then r + 2 ^ b else r)

/-- The first `w` bits after the point of the `k`-th root of `n`. -/
def rootWord (w k n : ℕ) : BitVec w := BitVec.ofNat w (rootFrom k (n * 2 ^ (k * w)) (w + 5) 0)

theorem rootFrom_spec {k n b r : ℕ} (hle : r ^ k ≤ n) (hlt : n < (r + 2 ^ b) ^ k) :
    rootFrom k n b r ^ k ≤ n ∧ n < (rootFrom k n b r + 1) ^ k := by
  induction b generalizing r with
  | zero => exact ⟨hle, hlt⟩
  | succ b ih =>
    rw [rootFrom]
    split_ifs with hbit
    · apply ih hbit
      rwa [Nat.add_assoc, ← Nat.two_mul, ← pow_succ']
    · exact ih hle (Nat.lt_of_not_le hbit)

/-- The word is made of the last `w` bits of the root of `n` shifted left by `w`. -/
theorem rootWord_spec {k n : ℕ} (w : ℕ) (hk : k ≠ 0) (hn : n < 32 ^ k) :
    ∃ q, q ^ k ≤ n * 2 ^ (k * w) ∧ n * 2 ^ (k * w) < (q + 1) ^ k ∧
      rootWord w k n = BitVec.ofNat w q := by
  have hzero : 0 ^ k ≤ n * 2 ^ (k * w) := by
    rw [zero_pow hk]
    exact Nat.zero_le _
  have hpow : (0 + 2 ^ (w + 5)) ^ k = 32 ^ k * 2 ^ (k * w) := by
    rw [Nat.zero_add, pow_add, mul_pow, ← pow_mul, Nat.mul_comm w k, Nat.mul_comm]
    rfl
  have hlt : n * 2 ^ (k * w) < (0 + 2 ^ (w + 5)) ^ k := by
    rw [hpow]
    exact Nat.mul_lt_mul_of_pos_right hn (Nat.two_pow_pos _)
  obtain ⟨hlower, hupper⟩ := rootFrom_spec hzero hlt
  exact ⟨_, hlower, hupper, rfl⟩

/-- The first eighty primes. -/
def primes : List ℕ :=
  [2, 3, 5, 7, 11, 13, 17, 19, 23, 29, 31, 37, 41, 43, 47, 53, 59, 61, 67, 71, 73, 79, 83, 89, 97,
    101, 103, 107, 109, 113, 127, 131, 137, 139, 149, 151, 157, 163, 167, 173, 179, 181, 191, 193,
    197, 199, 211, 223, 227, 229, 233, 239, 241, 251, 257, 263, 269, 271, 277, 281, 283, 293, 307,
    311, 313, 317, 331, 337, 347, 349, 353, 359, 367, 373, 379, 383, 389, 397, 401, 409]

/-- The constant of round `t`: the cube root of a prime. -/
def cubeRootWord (w t : ℕ) : BitVec w := rootWord w 3 (primes.getD t 0)

/-- A word of the initial hash value: the square root of a prime. -/
def squareRootWord (w t : ℕ) : BitVec w := rootWord w 2 (primes.getD t 0)

/-- The initial hash value. -/
def initialWords (w : ℕ) : Words (BitVec w) :=
  ⟨squareRootWord w 0, squareRootWord w 1, squareRootWord w 2, squareRootWord w 3,
    squareRootWord w 4, squareRootWord w 5, squareRootWord w 6, squareRootWord w 7⟩

/-! ## The two functions -/

/-- SHA-256. -/
def sha256 : Params 32 where
  rounds := 64
  bigSigma0 x := x.rotateRight 2 ^^^ x.rotateRight 13 ^^^ x.rotateRight 22
  bigSigma1 x := x.rotateRight 6 ^^^ x.rotateRight 11 ^^^ x.rotateRight 25
  smallSigma0 x := x.rotateRight 7 ^^^ x.rotateRight 18 ^^^ x >>> 3
  smallSigma1 x := x.rotateRight 17 ^^^ x.rotateRight 19 ^^^ x >>> 10
  k := cubeRootWord 32
  initial := initialWords 32

/-- SHA-512. -/
def sha512 : Params 64 where
  rounds := 80
  bigSigma0 x := x.rotateRight 28 ^^^ x.rotateRight 34 ^^^ x.rotateRight 39
  bigSigma1 x := x.rotateRight 14 ^^^ x.rotateRight 18 ^^^ x.rotateRight 41
  smallSigma0 x := x.rotateRight 1 ^^^ x.rotateRight 8 ^^^ x >>> 7
  smallSigma1 x := x.rotateRight 19 ^^^ x.rotateRight 61 ^^^ x >>> 6
  k := cubeRootWord 64
  initial := initialWords 64

-- The standard's example `abc`.
example : ofBigEndian (digest sha256 [0x61, 0x62, 0x63]) =
    0xba7816bf8f01cfea414140de5dae2223b00361a396177a9cb410ff61f20015ad := by
  decide +kernel

end Blackstone.Sha2
