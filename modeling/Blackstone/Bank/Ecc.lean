import Blackstone.Bank.HexText
import Blackstone.Library.BinaryPower
import Mathlib.Data.Nat.GCD.Basic
import Mathlib.Tactic.NormNum

/-!
# Keys, shared secrets and signatures

`ecc.cpp`. All arithmetic is that of `uint64_t`, so a product of two residues modulo `PRIME` can
lose its upper bits before it is reduced. Two nodes agree on the power that they mean as long as
no product is lost, that is, as long as the product of their private keys is at most 27 or zero
(`sharedSecret_spec`). Beyond this bound a product of the exchange always loses bits.

`modInverse` is Euclid's algorithm. It divides by zero exactly when its argument is larger than
one and has a common divisor with the modulus (`modInverse_eq_none_iff`), and `ORDER` is even, so
no private key signs every message with every random value (`never_complete`).
-/

namespace Blackstone.Bank

open BinaryPower

namespace Ecc

/-- The modulus of powers. -/
def PRIME : UInt64 := 0xFFFFFFFFFFFFFFC5

/-- The base of public keys. -/
def BASE : UInt64 := 5

/-- The modulus of exponents. -/
def ORDER : UInt64 := 0xFFFFFFFFFFFFFFC4

theorem toNat_shiftRight_one (e : UInt64) : (e >>> 1).toNat = e.toNat / 2 := by
  rw [UInt64.toNat_shiftRight]
  exact Nat.shiftRight_eq_div_pow _ _

theorem toNat_ne_zero {e : UInt64} (he : e ≠ 0) : e.toNat ≠ 0 :=
  fun h => he (UInt64.toNat_inj.mp h)

/-- The loop of `EllipticCurveCryptography::modPow`. -/
def modPowLoop (m r a e : UInt64) : UInt64 :=
  if e = 0 then r
  else modPowLoop m (if e &&& 1 = 1 then r * a % m else r) (a * a % m) (e >>> 1)
termination_by e.toNat
decreasing_by
  rename_i he
  rw [toNat_shiftRight_one]
  exact Nat.div_lt_self (Nat.pos_of_ne_zero (toNat_ne_zero he)) (by decide)

/-- `EllipticCurveCryptography::modPow`. -/
def modPow (a e m : UInt64) : UInt64 := modPowLoop m 1 (a % m) e

/-- The loop of `EllipticCurveCryptography::modInverse`; a division by zero is `none`. -/
def modInverseLoop (x0 x1 a m : UInt64) : Option UInt64 :=
  if a ≤ 1 then some x1
  else if m = 0 then none
  else modInverseLoop (x1 - a / m * x0) x0 m (a % m)
termination_by m.toNat
decreasing_by
  rename_i hm
  rw [UInt64.toNat_mod]
  exact Nat.mod_lt _ (Nat.pos_of_ne_zero (toNat_ne_zero hm))

/-- `EllipticCurveCryptography::modInverse`. The test of an unsigned number for a minus sign at
its end never succeeds. -/
def modInverse (a m : UInt64) : Option UInt64 :=
  if m = 1 then some 0 else modInverseLoop 0 1 a m

end Ecc

open Ecc

/-- `EllipticCurveCryptography`. -/
structure EllipticCurveCryptography where
  privateKey : UInt64
  publicKey : UInt64

namespace EllipticCurveCryptography

/-- The constructor with a private key. -/
def create (privKey : UInt64) : EllipticCurveCryptography where
  privateKey := privKey
  publicKey := modPow BASE privKey PRIME

/-- `EllipticCurveCryptography::generateNewKey` with a random number. -/
def generateNewKey (random : UInt64) : EllipticCurveCryptography := create (random % ORDER)

/-- `EllipticCurveCryptography::getPublic`. -/
def getPublic (s : EllipticCurveCryptography) : UInt64 := s.publicKey

/-- `EllipticCurveCryptography::computeSharedSecret`. -/
def computeSharedSecret (s : EllipticCurveCryptography) (otherPublic : UInt64) : UInt64 :=
  modPow otherPublic s.privateKey PRIME

/-- The number that a message and a key are hashed to. -/
def hashNumber (msg : Str) (key : UInt64) : Option UInt64 :=
  stoullHex ((sha1 (msg ++ decimal key.toNat)).take 16)

/-- `EllipticCurveCryptography::sign` with a random number. -/
def sign (s : EllipticCurveCryptography) (random : UInt64) (msg : Str) :
    Option (UInt64 × UInt64) := do
  let k := random % ORDER
  let r1 := modPow BASE k PRIME
  let hash ← hashNumber msg s.privateKey
  let signature := (hash + s.privateKey * r1) % ORDER
  let inverse ← modInverse k ORDER
  return (r1, signature * inverse % ORDER)

/-- `EllipticCurveCryptography::verify`. -/
def verify (msg : Str) (r1 s pubKey : UInt64) : Option Bool :=
  if PRIME ≤ r1 ∨ ORDER ≤ s then some false
  else do
    let hash ← hashNumber msg pubKey
    let w ← modInverse s ORDER
    let u1 := hash * w % ORDER
    let u2 := r1 * w % ORDER
    let v := modPow BASE u1 PRIME * modPow pubKey u2 PRIME % PRIME
    return v = r1

end EllipticCurveCryptography

/-! ## Powers -/

namespace Ecc

/-- The product of two residues, as the code computes it. -/
def mulMod (x y : UInt64) : UInt64 := x * y % PRIME

theorem and_one_eq_one_iff (e : UInt64) : e &&& 1 = 1 ↔ e.toNat % 2 = 1 := by
  rw [← UInt64.toNat_inj, UInt64.toNat_and]
  exact iff_of_eq (congrArg (· = 1) (Nat.and_one_is_mod e.toNat))

/-- The loop of the code is square and multiply. -/
theorem modPowLoop_eq (r a e : UInt64) : modPowLoop PRIME r a e = powLoop mulMod r a e.toNat := by
  induction hn : e.toNat using Nat.strongRecOn generalizing r a e with
  | ind n ih =>
    by_cases he : e = 0
    · subst he
      rw [modPowLoop, if_pos rfl, ← hn]
      exact (powLoop_zero r a).symm
    · have hpos := toNat_ne_zero he
      have hhalf := toNat_shiftRight_one e
      rw [modPowLoop, if_neg he, ← hn, powLoop_of_ne_zero r a hpos, ← hhalf,
        ih (e >>> 1).toNat (by omega) _ _ _ rfl]
      simp only [and_one_eq_one_iff]
      rfl

theorem modPow_eq (a e : UInt64) :
    modPow a e PRIME = powLoop mulMod 1 (a % PRIME) e.toNat := modPowLoop_eq 1 _ e

theorem toNat_mulMod (x y : UInt64) :
    (mulMod x y).toNat = x.toNat * y.toNat % 2 ^ 64 % PRIME.toNat := by
  rw [mulMod, UInt64.toNat_mod, UInt64.toNat_mul]

/-- A product of which the upper bits are lost. -/
def Loses (p : UInt64 × UInt64) : Prop := 2 ^ 64 ≤ p.1.toNat * p.2.toNat

theorem five_pow_lt_prime {i : Nat} (hi : i ≤ 27) : 5 ^ i < PRIME.toNat :=
  calc 5 ^ i ≤ 5 ^ 27 := Nat.pow_le_pow_right (by decide) hi
    _ < PRIME.toNat := by
      show 5 ^ 27 < 18446744073709551557
      norm_num

/-- The power of five with an exponent of at most 27. -/
def FivePower (x : UInt64) (i : Nat) : Prop := x.toNat = 5 ^ i ∧ i ≤ 27

theorem FivePower.mod {x : UInt64} {i : Nat} (h : FivePower x i) : x % PRIME = x := by
  rw [← UInt64.toNat_inj, UInt64.toNat_mod, Nat.mod_eq_of_lt]
  rw [h.1]
  exact five_pow_lt_prime h.2

theorem fivePower_one : FivePower 1 0 := ⟨rfl, by decide⟩

theorem fivePower_base : FivePower BASE 1 := ⟨rfl, by decide⟩

theorem FivePower.mul {x y : UInt64} {i j : Nat} (hx : FivePower x i) (hy : FivePower y j)
    (hij : i + j ≤ 27) : FivePower (mulMod x y) (i + j) := by
  have hlt := five_pow_lt_prime hij
  have hword : PRIME.toNat < 2 ^ 64 := PRIME.toNat_lt
  refine ⟨?_, hij⟩
  rw [toNat_mulMod, hx.1, hy.1, ← pow_add, Nat.mod_eq_of_lt (hlt.trans hword),
    Nat.mod_eq_of_lt hlt]

/-- A product of powers that loses no bits has an exponent of at most 27. -/
theorem FivePower.le_of_not_loses {x y : UInt64} {i j : Nat} (hx : FivePower x i)
    (hy : FivePower y j) (h : ¬ Loses (x, y)) : i + j ≤ 27 := by
  by_contra hlt
  apply h
  rw [Loses, hx.1, hy.1, ← pow_add]
  calc 2 ^ 64 ≤ 5 ^ 28 := by norm_num
    _ ≤ 5 ^ (i + j) := Nat.pow_le_pow_right (by decide) (by omega)

/-- The products of a power. -/
def powProducts (a e : UInt64) : List (UInt64 × UInt64) :=
  products mulMod 1 (a % PRIME) e.toNat

/-- Powers of five up to the exponent 27 are exact. -/
theorem fivePower_modPow {x e : UInt64} {i : Nat} (hx : FivePower x i)
    (h : i * e.toNat ≤ 27) : FivePower (modPow x e PRIME) (i * e.toNat) := by
  rw [modPow_eq, hx.mod, ← Nat.zero_add (i * e.toNat)]
  exact powLoop_of_le (fun _ _ _ _ => FivePower.mul) fivePower_one hx (by omega)

/-- A power of five of which no product loses bits is exact. -/
theorem fivePower_modPow_of_not_loses {x e : UInt64} {i : Nat} (hx : FivePower x i)
    (h : ∀ p ∈ powProducts x e, ¬ Loses p) : FivePower (modPow x e PRIME) (i * e.toNat) := by
  rw [powProducts, hx.mod] at h
  rw [modPow_eq, hx.mod, ← Nat.zero_add (i * e.toNat)]
  exact powLoop_of_products
    (fun p hp _ _ hi hj => hi.mul hj (hi.le_of_not_loses hj (h p hp))) fivePower_one hx

end Ecc

/-! ## Shared secrets -/

namespace EllipticCurveCryptography

/-- Two nodes compute the same secret, and it is the power that they mean. -/
def Agree (a b : UInt64) : Prop :=
  (create a).computeSharedSecret (create b).getPublic =
      (create b).computeSharedSecret (create a).getPublic ∧
    ((create a).computeSharedSecret (create b).getPublic).toNat =
      BASE.toNat ^ (a.toNat * b.toNat) % PRIME.toNat

/-- The product of the private keys is at most 27. -/
def SmallKeys (a b : UInt64) : Prop := a.toNat * b.toNat ≤ 27

/-- The products that two nodes compute for their public keys and their secrets. -/
def exchangeProducts (a b : UInt64) : List (UInt64 × UInt64) :=
  powProducts BASE a ++ powProducts BASE b ++
    powProducts (create b).getPublic a ++ powProducts (create a).getPublic b

theorem fivePower_getPublic {a : UInt64} (ha : a.toNat ≤ 27) :
    FivePower (create a).getPublic a.toNat := by
  have h := fivePower_modPow fivePower_base (e := a) (by rwa [Nat.one_mul])
  rwa [Nat.one_mul] at h

/-- The secret of a node whose peer has a small key. -/
theorem computeSharedSecret_eq {a b : UInt64} (hb : b.toNat ≤ 27)
    (hab : a.toNat * b.toNat ≤ 27) :
    ((create a).computeSharedSecret (create b).getPublic).toNat = 5 ^ (a.toNat * b.toNat) := by
  rw [Nat.mul_comm] at hab ⊢
  exact (fivePower_modPow (fivePower_getPublic hb) hab).1

theorem computeSharedSecret_zero (x : UInt64) : (create 0).computeSharedSecret x = 1 := by
  rw [computeSharedSecret, create, modPow, modPowLoop, if_pos rfl]

theorem agree_of_small {a b : UInt64} (h : SmallKeys a b) : Agree a b := by
  have hpower : BASE.toNat ^ (a.toNat * b.toNat) % PRIME.toNat = 5 ^ (a.toNat * b.toNat) :=
    Nat.mod_eq_of_lt (five_pow_lt_prime h)
  have hsecret : ∀ {a b : UInt64}, SmallKeys a b →
      ((create a).computeSharedSecret (create b).getPublic).toNat =
        5 ^ (a.toNat * b.toNat) := by
    intro a b h
    by_cases ha : a.toNat = 0
    · obtain rfl : a = 0 := UInt64.toNat_inj.mp ha
      rw [computeSharedSecret_zero]
      exact (congrArg (5 ^ ·) (Nat.zero_mul _)).symm
    · exact computeSharedSecret_eq
        ((Nat.le_mul_of_pos_left _ (Nat.pos_of_ne_zero ha)).trans h) h
  have hswap : SmallKeys b a := by rwa [SmallKeys, Nat.mul_comm]
  constructor
  · rw [← UInt64.toNat_inj, hsecret h, hsecret hswap, Nat.mul_comm]
  · rw [hsecret h, hpower]

/-- Where no product loses bits, the keys are small. -/
theorem small_of_not_loses {a b : UInt64} (h : ∀ p ∈ exchangeProducts a b, ¬ Loses p) :
    SmallKeys a b := by
  have hpublic := fivePower_modPow_of_not_loses fivePower_base (e := b) (fun p hp =>
    h p (List.mem_append_left _ (List.mem_append_left _ (List.mem_append_right _ hp))))
  have hsecret := fivePower_modPow_of_not_loses hpublic (e := a) (fun p hp =>
    h p (List.mem_append_left _ (List.mem_append_right _ hp)))
  have hle := hsecret.2
  rwa [Nat.one_mul, Nat.mul_comm] at hle

/-- Two nodes agree if the product of their private keys is at most 27, and otherwise a product
that they compute loses its upper bits. -/
theorem sharedSecret_spec (a b : UInt64) :
    (SmallKeys a b → Agree a b) ∧ (SmallKeys a b ∨ ∃ p ∈ exchangeProducts a b, Loses p) := by
  refine ⟨agree_of_small, ?_⟩
  by_contra hnot
  push Not at hnot
  exact hnot.1 (small_of_not_loses hnot.2)

/-- The private keys 3 and 9. -/
theorem sharedSecret_three_nine : Agree 3 9 :=
  (sharedSecret_spec 3 9).1 (show 3 * 9 ≤ 27 by decide)

/-- With the private keys 1 and 28, the secret is not the power that is meant. -/
theorem sharedSecret_one_twentyEight : ¬ Agree 1 28 := by
  rintro ⟨-, hpower⟩
  revert hpower
  decide +kernel

/-! ## Signatures -/

/-- Euclid's algorithm reaches a remainder of zero before one unless the numbers are coprime. -/
theorem modInverseLoop_eq_none_iff (x0 x1 a m : UInt64) :
    modInverseLoop x0 x1 a m = none ↔ 1 < a.toNat ∧ Nat.gcd a.toNat m.toNat ≠ 1 := by
  induction hn : m.toNat using Nat.strongRecOn generalizing x0 x1 a m with
  | ind n ih =>
    subst hn
    rw [modInverseLoop]
    by_cases hsmall : a ≤ 1
    · rw [if_pos hsmall]
      have hle : a.toNat ≤ 1 := UInt64.le_iff_toNat_le.mp hsmall
      exact iff_of_false (fun h => (by cases h)) (fun h => absurd h.1 (Nat.not_lt.mpr hle))
    · have hlarge : 1 < a.toNat := Nat.not_le.mp (fun h => hsmall (UInt64.le_iff_toNat_le.mpr h))
      rw [if_neg hsmall]
      by_cases hm : m = 0
      · subst hm
        rw [if_pos rfl]
        exact iff_of_true rfl ⟨hlarge, by
          show Nat.gcd a.toNat 0 ≠ 1
          rw [Nat.gcd_zero_right]
          omega⟩
      · have hpos := Nat.pos_of_ne_zero (toNat_ne_zero hm)
        have hmod : (a % m).toNat = a.toNat % m.toNat := UInt64.toNat_mod a m
        rw [if_neg hm, ih (a % m).toNat (by rw [hmod]; exact Nat.mod_lt _ hpos) _ _ _ _ rfl, hmod,
          Nat.gcd_comm, ← Nat.gcd_rec, Nat.gcd_comm]
        have hone : Nat.gcd a.toNat m.toNat ≠ 1 → 1 < m.toNat := by
          intro hgcd
          by_contra hle
          have : m.toNat = 1 := by omega
          rw [this, Nat.gcd_one_right] at hgcd
          exact hgcd rfl
        exact ⟨fun h => ⟨hlarge, h.2⟩, fun h => ⟨hone h.2, h.2⟩⟩

/-- `modInverse` divides by zero exactly for a number above one that is not coprime to the
modulus. -/
theorem modInverse_eq_none_iff {a m : UInt64} (hm : m ≠ 1) :
    modInverse a m = none ↔ 1 < a.toNat ∧ Nat.gcd a.toNat m.toNat ≠ 1 := by
  rw [modInverse, if_neg hm, modInverseLoop_eq_none_iff]

/-- For every random value, `modInverse` does not divide by zero, and what `sign` returns is
accepted by `verify`. -/
def Complete (privateKey : UInt64) (msg : Str) : Prop :=
  ∀ random : UInt64,
    modInverse (random % ORDER) ORDER ≠ none ∧
      ∀ r1 s, (create privateKey).sign random msg = some (r1, s) →
        verify msg r1 s (create privateKey).getPublic = some true

/-- No private key and no message are complete: `modInverse` divides by zero for every random
value above one that is not coprime to `ORDER`, and 2 is one of them. -/
theorem never_complete (privateKey : UInt64) (msg : Str) (k : UInt64) :
    ¬ Complete privateKey msg ∧
      (modInverse k ORDER = none ↔ 1 < k.toNat ∧ Nat.gcd k.toNat ORDER.toNat ≠ 1) := by
  have hinverse : ∀ k : UInt64, modInverse k ORDER = none ↔
      1 < k.toNat ∧ Nat.gcd k.toNat ORDER.toNat ≠ 1 := fun k =>
    modInverse_eq_none_iff (by decide)
  refine ⟨fun h => (h 2).1 ?_, hinverse k⟩
  rw [hinverse]
  decide +kernel

/-- With the private key 1 and the random value 1, the signature of a message is rejected. -/
theorem signature_rejected : ¬ Complete 1 (ascii "pay") := by
  intro h
  have hverify := (h 1).2 5 8629859036018540867 (by decide +kernel)
  revert hverify
  decide +kernel

end EllipticCurveCryptography

end Blackstone.Bank
