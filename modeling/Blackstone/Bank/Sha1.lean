import Mathlib.Algebra.Group.Int.Defs
import Mathlib.Algebra.Group.Nat.Defs
import Mathlib.Data.Rat.Defs
import Mathlib.Tactic.Common

/-!
# Strings and hashes of the banking system

A `std::string` is the list of its bytes. `sha1.cpp` hashes strings to strings of forty
hexadecimal digits (`length_sha1`). Amounts are rationals; `toString6` prints one as
`std::to_string` prints a `double` of that value.
-/

namespace Blackstone.Bank

/-- `std::string`. -/
abbrev Str := List UInt8

/-- A string literal. -/
def ascii (s : String) : Str := s.toList.map (fun c => UInt8.ofNat c.toNat)

/-- An unsigned number written to a stream, or its `std::to_string`. -/
def decimal (n : Nat) : Str := (Nat.toDigits 10 n).map (fun c => UInt8.ofNat c.toNat)

/-- A signed number written to a stream. -/
def decimalInt (n : Int) : Str :=
  if n < 0 then ascii "-" ++ decimal n.natAbs else decimal n.natAbs

/-- The fraction `n / d` rounded to the nearest integer, ties to even. -/
def roundHalfEven (n d : Nat) : Nat :=
  if 2 * (n % d) < d then n / d
  else if d < 2 * (n % d) then n / d + 1
  else if n / d % 2 = 0 then n / d
  else n / d + 1

/-- `std::to_string` of a `double`: six digits after the point. -/
def toString6 (x : ℚ) : Str :=
  let millionths := roundHalfEven (x.num.natAbs * 10 ^ 6) x.den
  let fraction := decimal (millionths % 10 ^ 6)
  (if x < 0 then ascii "-" else []) ++ decimal (millionths / 10 ^ 6) ++ ascii "." ++
    List.replicate (6 - fraction.length) 48 ++ fraction

/-! ## SHA-1 -/

/-- The words `h[0]`, ..., `h[4]`. -/
structure Words where
  a : UInt32
  b : UInt32
  c : UInt32
  d : UInt32
  e : UInt32

/-- `UltraFastSHA1`. -/
structure Sha1Context where
  h : Words
  msgLen : UInt64
  buffer : List UInt8

/-- `UltraFastSHA1::reset`. -/
def Sha1Context.reset : Sha1Context where
  h := ⟨0x67452301, 0xEFCDAB89, 0x98BADCFE, 0x10325476, 0xC3D2E1F0⟩
  msgLen := 0
  buffer := []

/-- The first sixteen words of a chunk, big-endian. -/
def chunkWords (chunk : List UInt8) : List UInt32 :=
  (List.range 16).map fun i =>
    ((chunk.getD (i * 4) 0).toUInt32 <<< 24) ||| ((chunk.getD (i * 4 + 1) 0).toUInt32 <<< 16) |||
      ((chunk.getD (i * 4 + 2) 0).toUInt32 <<< 8) ||| (chunk.getD (i * 4 + 3) 0).toUInt32

/-- The schedule loop for `i = 16`, ..., `79`. -/
def extendWords (w : List UInt32) : List UInt32 :=
  (List.range 64).foldl (fun w j =>
    let i := j + 16
    let x := w.getD (i - 3) 0 ^^^ w.getD (i - 8) 0 ^^^ w.getD (i - 14) 0 ^^^ w.getD (i - 16) 0
    w ++ [(x <<< 1) ||| (x >>> 31)]) w

/-- The round function and the round constant of round `i`. -/
def roundOf (i : Nat) (b c d : UInt32) : UInt32 × UInt32 :=
  if i < 20 then ((b &&& c) ||| (~~~b &&& d), 0x5A827999)
  else if i < 40 then (b ^^^ c ^^^ d, 0x6ED9EBA1)
  else if i < 60 then ((b &&& c) ||| (b &&& d) ||| (c &&& d), 0x8F1BBCDC)
  else (b ^^^ c ^^^ d, 0xCA62C1D6)

/-- Round `i` with schedule word `w`. -/
def sha1Round (v : Words) (i : Nat) (w : UInt32) : Words where
  a := ((v.a <<< 5) ||| (v.a >>> 27)) + (roundOf i v.b v.c v.d).1 + v.e +
    (roundOf i v.b v.c v.d).2 + w
  b := v.a
  c := (v.b <<< 30) ||| (v.b >>> 2)
  d := v.c
  e := v.d

/-- `UltraFastSHA1::transform`. -/
def transform (h : Words) (chunk : List UInt8) : Words :=
  let w := extendWords (chunkWords chunk)
  let v := (List.range 80).foldl (fun v i => sha1Round v i (w.getD i 0)) h
  ⟨h.a + v.a, h.b + v.b, h.c + v.c, h.d + v.d, h.e + v.e⟩

/-- The loop over the full chunks in the buffer, at most `rounds` of them. -/
def drain (h : Words) (buffer : List UInt8) : Nat → Words × List UInt8
  | 0 => (h, buffer)
  | rounds + 1 =>
    if buffer.length ≥ 64 then drain (transform h (buffer.take 64)) (buffer.drop 64) rounds
    else (h, buffer)

/-- The loop takes no more rounds than the buffer has bytes. -/
theorem length_drain_lt (rounds : Nat) (h : Words) (buffer : List UInt8)
    (hrounds : buffer.length ≤ rounds) : (drain h buffer rounds).2.length < 64 := by
  induction rounds generalizing h buffer with
  | zero =>
    show buffer.length < 64
    omega
  | succ rounds ih =>
    rw [drain]
    split
    · apply ih
      rw [List.length_drop]
      omega
    · rename_i hshort
      exact Nat.lt_of_not_ge hshort

/-- `UltraFastSHA1::update`. -/
def Sha1Context.update (ctx : Sha1Context) (data : Str) : Sha1Context :=
  let buffer := ctx.buffer ++ data
  let drained := drain ctx.h buffer buffer.length
  { h := drained.1, msgLen := ctx.msgLen + UInt64.ofNat data.length, buffer := drained.2 }

/-- The padding of `UltraFastSHA1::final`: `0x80` and zeros up to `56` modulo `64`. -/
def padded (buffer : List UInt8) : List UInt8 :=
  buffer ++ [0x80] ++ List.replicate ((119 - buffer.length % 64) % 64) 0

theorem length_padded_mod (buffer : List UInt8) : (padded buffer).length % 64 = 56 := by
  rw [padded, List.length_append, List.length_append, List.length_singleton,
    List.length_replicate]
  omega

/-- The eight bytes of the bit count, most significant first. -/
def lengthBytes (bits : UInt64) : List UInt8 :=
  [7, 6, 5, 4, 3, 2, 1, 0].map (fun i : UInt64 => (bits >>> (i * 8)).toUInt8)

/-- A hexadecimal digit in lower case. -/
def hexDigit (n : Nat) : UInt8 := UInt8.ofNat (if n < 10 then 48 + n else 87 + n)

/-- A word written with `std::hex`, `std::setw(8)` and `std::setfill('0')`. -/
def hexWord (x : UInt32) : Str :=
  [28, 24, 20, 16, 12, 8, 4, 0].map (fun s => hexDigit (x.toNat / 2 ^ s % 16))

/-- `UltraFastSHA1::final`. -/
def Sha1Context.final (ctx : Sha1Context) : Str :=
  let bits := ctx.msgLen * 8
  let buffer := padded ctx.buffer ++ lengthBytes bits
  let h := (drain ctx.h buffer buffer.length).1
  hexWord h.a ++ hexWord h.b ++ hexWord h.c ++ hexWord h.d ++ hexWord h.e

/-- `sha1`. Irreducible, so that no proof evaluates it by accident. -/
@[irreducible] def sha1 (s : Str) : Str := (Sha1Context.reset.update s).final

/-- `sha1_double`. -/
def sha1Double (s : Str) : Str := sha1 (sha1 s)

/-- `sha1_hmac`. -/
def sha1Hmac (key msg : Str) : Str := sha1 (key ++ msg ++ key)

theorem length_hexWord (x : UInt32) : (hexWord x).length = 8 := rfl

/-- A digest has forty digits. -/
theorem length_sha1 (s : Str) : (sha1 s).length = 40 := by
  unfold sha1 Sha1Context.final
  simp only [List.length_append, length_hexWord]

end Blackstone.Bank
