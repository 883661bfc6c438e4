import Blackstone.Library.BigEndian
import Blackstone.Library.Blocks
import Mathlib.Data.List.Prime
import Mathlib.Data.Set.Card
import Mathlib.NumberTheory.LucasPrimality
import Mathlib.Tactic.NormNum.Prime
import Mathlib.Tactic.ReduceModChar

/-!
# Poly1305

The one-time authenticator of RFC 8439. Every piece of 16 bytes, and what is left at the end, is a
number with the least significant byte first and a one behind its bytes.

The modulus is a prime (`prime_prime`). Therefore the first block of a message counts, unless the
clamped half of the key is zero: not more than four of them give one tag
(`encard_firstBlock_le`).
-/

namespace Blackstone.Poly1305

open BigEndian Blocks

def littleEndian (k n : ℕ) : List UInt8 := (bigEndian k n).reverse

def ofLittleEndian (bytes : List UInt8) : ℕ := ofBigEndian bytes.reverse

def prime : ℕ := 2 ^ 130 - 5

/-- The first half of the key, clamped. -/
def clampedR (key : List UInt8) : ℕ :=
  ofLittleEndian (key.take 16) &&& 0x0ffffffc0ffffffc0ffffffc0fffffff

/-- The second half of the key. -/
def keyS (key : List UInt8) : ℕ := ofLittleEndian ((key.drop 16).take 16)

/-- The pieces of a message: the complete blocks, and the rest if there is one. -/
def pieces (message : List UInt8) : List (List UInt8) :=
  wholeBlocks 16 message ++
    if remainder 16 message = [] then [] else [remainder 16 message]

def accumulate (r : ℕ) (pieces : List (List UInt8)) : ℕ :=
  pieces.foldl (fun a piece => (a + ofLittleEndian (piece ++ [1])) * r % prime) 0

def tag (key message : List UInt8) : List UInt8 :=
  littleEndian 16 (accumulate (clampedR key) (pieces message) + keyS key)

/-! ## Numbers as bytes -/

theorem length_littleEndian (k n : ℕ) : (littleEndian k n).length = k := by
  rw [littleEndian, List.length_reverse, length_bigEndian]

theorem ofLittleEndian_littleEndian (k n : ℕ) :
    ofLittleEndian (littleEndian k n) = n % 256 ^ k := by
  rw [ofLittleEndian, littleEndian, List.reverse_reverse, ofBigEndian_bigEndian]

theorem littleEndian_ofLittleEndian {bytes : List UInt8} {k : ℕ} (hk : bytes.length = k) :
    littleEndian k (ofLittleEndian bytes) = bytes := by
  rw [littleEndian, ofLittleEndian, bigEndian_ofBigEndian (by rwa [List.length_reverse]),
    List.reverse_reverse]

theorem littleEndian_eq_iff {k m n : ℕ} :
    littleEndian k m = littleEndian k n ↔ m % 256 ^ k = n % 256 ^ k := by
  constructor
  · intro h
    rw [← ofLittleEndian_littleEndian, h, ofLittleEndian_littleEndian]
  · intro h
    rw [littleEndian, littleEndian, ← bigEndian_mod, h, bigEndian_mod]

/-- The one behind the bytes. -/
theorem ofLittleEndian_concat_one (bytes : List UInt8) :
    ofLittleEndian (bytes ++ [1]) = 2 ^ (8 * bytes.length) + ofLittleEndian bytes := by
  have hone : (1 : UInt8).toNat = 1 := rfl
  rw [ofLittleEndian, List.reverse_append, List.reverse_singleton, List.singleton_append,
    ofBigEndian_cons, List.length_reverse, hone, mul_one, ofLittleEndian]

/-- Bit `n` is a bit of byte `n / 8`. -/
theorem testBit_ofLittleEndian (bytes : List UInt8) (n : ℕ) :
    (ofLittleEndian bytes).testBit n = (bytes.getD (n / 8) 0).toNat.testBit (n % 8) := by
  induction bytes generalizing n with
  | nil =>
    rw [List.getD_nil]
    exact (Nat.zero_testBit n).trans (Nat.zero_testBit (n % 8)).symm
  | cons b bytes ih =>
    have hcons : ofLittleEndian (b :: bytes) = 2 ^ 8 * ofLittleEndian bytes + b.toNat := by
      rw [ofLittleEndian, List.reverse_cons, ofBigEndian_concat]
      rfl
    rw [hcons, Nat.testBit_two_pow_mul_add _ b.toNat_lt]
    split_ifs with hfirst
    · rw [Nat.div_eq_of_lt hfirst, Nat.mod_eq_of_lt hfirst, List.getD_cons_zero]
    · have hquotient : n / 8 = (n - 8) / 8 + 1 := by omega
      have hrest : n % 8 = (n - 8) % 8 := by omega
      rw [ih, hquotient, hrest, List.getD_cons_succ]

/-! ## The modulus is a prime -/

/-- Lucas's test, with the primes that `p - 1` is a product of. -/
theorem prime_of_factors {p : ℕ} (a : ZMod p) (factors : List ℕ)
    (hfactors : factors.Forall Nat.Prime) (hprod : factors.prod = p - 1) (hone : a ^ (p - 1) = 1)
    (hne : factors.Forall fun q => a ^ ((p - 1) / q) ≠ 1) : p.Prime := by
  rw [List.forall_iff_forall_mem] at hfactors hne
  apply lucas_primality p a hone
  intro q hq hdvd
  rw [← hprod] at hdvd
  exact hne q (mem_list_primes_of_dvd_prod hq.prime (fun q hq => (hfactors q hq).prime) hdvd)

theorem prime_4024685905107147541 : Nat.Prime 4024685905107147541 := by
  apply prime_of_factors 2 [2, 2, 3, 3, 5, 13, 43, 4889, 37003, 221101]
  · simp only [List.Forall]
    norm_num
  · rfl
  · reduce_mod_char
  · simp only [List.Forall]
    reduce_mod_char
    decide +kernel

theorem prime_897064739519922787230182993783 : Nat.Prime 897064739519922787230182993783 := by
  apply prime_of_factors 5 [2, 73, 487, 3134801, 4024685905107147541]
  · exact ⟨by norm_num, by norm_num, by norm_num, by norm_num, prime_4024685905107147541⟩
  · rfl
  · reduce_mod_char
  · simp only [List.Forall]
    reduce_mod_char
    decide +kernel

theorem prime_prime : prime.Prime := by
  have hvalue : prime = 1361129467683753853853498429727072845819 := rfl
  rw [hvalue]
  apply prime_of_factors 2 [2, 23, 32985101, 897064739519922787230182993783]
  · exact ⟨by norm_num, by norm_num, by norm_num, prime_897064739519922787230182993783⟩
  · rfl
  · reduce_mod_char
  · simp only [List.Forall]
    reduce_mod_char
    decide +kernel

/-! ## The first block -/

theorem pieces_block_append {b : List UInt8} (hb : b.length = 16) (message : List UInt8) :
    pieces (b ++ message) = b :: pieces message := by
  rw [pieces, pieces, wholeBlocks_block_append (by decide) hb, remainder_block_append hb]
  rfl

/-- What the pieces make of the accumulator. -/
theorem foldl_modEq (r a : ℕ) (pieces : List (List UInt8)) :
    pieces.foldl (fun a piece => (a + ofLittleEndian (piece ++ [1])) * r % prime) a ≡
      a * r ^ pieces.length + accumulate r pieces [MOD prime] := by
  induction pieces using List.reverseRecOn with
  | nil =>
    rw [List.foldl_nil, List.length_nil, pow_zero, mul_one]
    exact Nat.ModEq.refl a
  | append_singleton pieces piece ih =>
    rw [accumulate, List.foldl_append, List.foldl_append, List.foldl_cons, List.foldl_nil,
      List.foldl_cons, List.foldl_nil, List.length_append, List.length_singleton, ← accumulate]
    have hstep := (ih.add_right (ofLittleEndian (piece ++ [1]))).mul_right r
    have hsum : (a * r ^ pieces.length + accumulate r pieces + ofLittleEndian (piece ++ [1])) * r =
        a * r ^ (pieces.length + 1) +
          (accumulate r pieces + ofLittleEndian (piece ++ [1])) * r := by ring
    rw [hsum] at hstep
    exact (Nat.mod_modEq _ _).trans (hstep.trans ((Nat.mod_modEq _ _).symm.add_left _))

/-- The accumulator at the end, of the number that the first block writes. -/
theorem accumulate_cons (r : ℕ) {b : List UInt8} (hb : b.length = 16)
    (pieces : List (List UInt8)) :
    accumulate r (b :: pieces) ≡ 2 ^ 128 * r ^ (pieces.length + 1) + accumulate r pieces +
      ofLittleEndian b * r ^ (pieces.length + 1) [MOD prime] := by
  have hfirst : (2 ^ 128 + ofLittleEndian b) * r % prime ≡ (2 ^ 128 + ofLittleEndian b) * r
      [MOD prime] := Nat.mod_modEq _ _
  have hsum : (2 ^ 128 + ofLittleEndian b) * r * r ^ pieces.length + accumulate r pieces =
      2 ^ 128 * r ^ (pieces.length + 1) + accumulate r pieces +
        ofLittleEndian b * r ^ (pieces.length + 1) := by ring
  rw [accumulate, List.foldl_cons, Nat.zero_add, ofLittleEndian_concat_one, hb, ← hsum]
  exact (foldl_modEq r _ pieces).trans ((hfirst.mul_right _).add_right _)

theorem accumulate_lt (r : ℕ) (pieces : List (List UInt8)) : accumulate r pieces < prime := by
  induction pieces using List.reverseRecOn with
  | nil =>
    show 0 < prime
    decide
  | append_singleton pieces piece _ =>
    rw [accumulate, List.foldl_append]
    exact Nat.mod_lt _ (by decide)

theorem clampedR_lt (key : List UInt8) : clampedR key < prime :=
  Nat.and_le_right.trans_lt (by decide)

/-- With a clamped half that is not zero the accumulator shows the first block. -/
theorem accumulate_injective {key b b' : List UInt8} (hr : clampedR key ≠ 0)
    (hb : b.length = 16) (hb' : b'.length = 16) {pieces : List (List UInt8)}
    (h : accumulate (clampedR key) (b :: pieces) = accumulate (clampedR key) (b' :: pieces)) :
    b = b' := by
  have hlt : ∀ {bytes : List UInt8}, bytes.length = 16 → ofLittleEndian bytes < prime := by
    intro bytes hbytes
    have hvalue := ofBigEndian_lt bytes.reverse
    rw [List.length_reverse, hbytes] at hvalue
    exact hvalue.trans (by decide)
  have hcoprime : Nat.Coprime prime (clampedR key ^ (pieces.length + 1)) := by
    apply Nat.Coprime.pow_right
    apply (Nat.Prime.coprime_iff_not_dvd prime_prime).mpr
    exact fun hdvd => hr (Nat.eq_zero_of_dvd_of_lt hdvd (clampedR_lt key))
  have hfirst := accumulate_cons (clampedR key) hb pieces
  rw [h] at hfirst
  have hsame := hfirst.symm.trans (accumulate_cons (clampedR key) hb' pieces)
  have hnumbers := (hsame.add_left_cancel' _).cancel_right_of_coprime hcoprime
  rw [← littleEndian_ofLittleEndian hb, ← littleEndian_ofLittleEndian hb',
    hnumbers.eq_of_lt_of_lt (hlt hb) (hlt hb')]

/-- Of the messages that differ in the first block only, at most four have one tag: the sum is
below four times `2 ^ 128`. -/
theorem encard_firstBlock_le {key : List UInt8} (hr : clampedR key ≠ 0)
    (message t : List UInt8) :
    {b : List UInt8 | b.length = 16 ∧ tag key (b ++ message) = t}.encard ≤ 4 := by
  let value (b : List UInt8) : ℕ := accumulate (clampedR key) (b :: pieces message)
  have hmaps : Set.MapsTo (fun b => value b / 2 ^ 128)
      {b | b.length = 16 ∧ tag key (b ++ message) = t} (Finset.range 4) := by
    rintro b -
    rw [Finset.mem_coe, Finset.mem_range]
    exact Nat.div_lt_of_lt_mul ((accumulate_lt (clampedR key) _).trans (by decide))
  have hinj : Set.InjOn (fun b => value b / 2 ^ 128)
      {b | b.length = 16 ∧ tag key (b ++ message) = t} := by
    rintro b ⟨hb, htag⟩ b' ⟨hb', htag'⟩ hhigh
    rw [← htag', tag, tag, pieces_block_append hb, pieces_block_append hb',
      littleEndian_eq_iff] at htag
    have hlow : value b % 2 ^ 128 = value b' % 2 ^ 128 :=
      Nat.ModEq.add_right_cancel' (keyS key) htag
    have hvalue : value b = value b' := by
      rw [← Nat.div_add_mod (value b) (2 ^ 128), ← Nat.div_add_mod (value b') (2 ^ 128), hlow]
      exact congrArg (2 ^ 128 * · + _) hhigh
    exact accumulate_injective hr hb hb' hvalue
  have hcard := Set.encard_le_encard_of_injOn hmaps hinj
  rwa [Set.encard_coe_eq_coe_finsetCard, Finset.card_range] at hcard

/-- When the first block makes no difference, the clamped half of the key is zero. -/
theorem clampedR_eq_zero {key message t : List UInt8}
    (h : ∀ b : List UInt8, b.length = 16 → tag key (b ++ message) = t) : clampedR key = 0 := by
  by_contra hr
  have hmaps : Set.MapsTo (littleEndian 16) (Finset.range 5)
      {b | b.length = 16 ∧ tag key (b ++ message) = t} := fun x _ =>
    ⟨length_littleEndian 16 x, h _ (length_littleEndian 16 x)⟩
  have hinj : Set.InjOn (littleEndian 16) (Finset.range 5) := by
    intro x hx y hy hsame
    rw [Finset.mem_coe, Finset.mem_range] at hx hy
    rwa [littleEndian_eq_iff, Nat.mod_eq_of_lt (by omega), Nat.mod_eq_of_lt (by omega)] at hsame
  have hcard := (Set.encard_le_encard_of_injOn hmaps hinj).trans (encard_firstBlock_le hr message t)
  rw [Set.encard_coe_eq_coe_finsetCard, Finset.card_range] at hcard
  exact absurd hcard (by decide)

/-! ## Keys without a clamped half -/

theorem accumulate_zero (pieces : List (List UInt8)) : accumulate 0 pieces = 0 := by
  induction pieces using List.reverseRecOn with
  | nil => rfl
  | append_singleton pieces piece ih =>
    rw [accumulate, List.foldl_append, List.foldl_cons, List.foldl_nil, Nat.mul_zero, Nat.zero_mod]

/-- Without the clamped half, the tag is the other one. -/
theorem tag_of_clampedR_eq_zero {key : List UInt8} (hkey : key.length = 32)
    (hr : clampedR key = 0) (message : List UInt8) : tag key message = key.drop 16 := by
  have hlength : (key.drop 16).length = 16 := by rw [List.length_drop, hkey]
  rw [tag, hr, accumulate_zero, Nat.zero_add, keyS, List.take_of_length_le hlength.le,
    littleEndian_ofLittleEndian hlength]

end Blackstone.Poly1305
