import Mathlib.Algebra.Field.ZMod
import Mathlib.Algebra.Polynomial.Div
import Mathlib.Data.Nat.Bitwise

/-!
# Polynomials over two elements in a word

Bit `i` of a word of 32 bits is the coefficient of `X ^ i`. A step to the left with feedback
multiplies by `X` modulo the polynomial of the feedback (`polynomial_step`), so the rounds from `1`
are the powers of `X` (`polynomial_iterate_step`).
-/

namespace Blackstone.BinaryPolynomial

open Polynomial

/-- The polynomial of the bits of a word. -/
noncomputable def polynomial (a : UInt32) : (ZMod 2)[X] :=
  ∑ i ∈ Finset.range 32, if a.toNat.testBit i then X ^ i else 0

/-- The polynomial of degree 32 with the lower coefficients `g`. -/
noncomputable def modulus (g : UInt32) : (ZMod 2)[X] := X ^ 32 + polynomial g

/-- One step to the left with the feedback `g`. -/
def step (g a : UInt32) : UInt32 := (a <<< 1) ^^^ (if a &&& 0x80000000 ≠ 0 then g else 0)

theorem testBit_of_le (a : UInt32) {i : ℕ} (hi : 32 ≤ i) : a.toNat.testBit i = false :=
  Nat.testBit_lt_two_pow (Nat.lt_of_lt_of_le a.toNat_lt (Nat.pow_le_pow_right (by decide) hi))

theorem coeff_polynomial (a : UInt32) (i : ℕ) :
    (polynomial a).coeff i = if a.toNat.testBit i then 1 else 0 := by
  rw [polynomial, finsetSum_coeff]
  have hterm : ∀ j, (if a.toNat.testBit j then (X : (ZMod 2)[X]) ^ j else 0).coeff i =
      if j = i then (if a.toNat.testBit i then 1 else 0) else 0 := by
    intro j
    rcases eq_or_ne j i with rfl | hne
    · cases a.toNat.testBit j <;> simp
    · cases a.toNat.testBit j <;> simp [coeff_X_pow, hne, hne.symm]
  simp only [hterm, Finset.sum_ite_eq', Finset.mem_range]
  rcases Nat.lt_or_ge i 32 with hi | hi
  · rw [if_pos hi]
  · rw [if_neg (Nat.not_lt.mpr hi), testBit_of_le a hi]
    rfl

theorem degree_polynomial_lt (a : UInt32) : (polynomial a).degree < 32 := by
  apply (degree_lt_iff_coeff_zero _ 32).mpr
  intro i hi
  rw [coeff_polynomial, testBit_of_le a hi]
  rfl

theorem modulus_monic (g : UInt32) : (modulus g).Monic :=
  monic_X_pow_add (degree_polynomial_lt g)

theorem degree_modulus (g : UInt32) : (modulus g).degree = 32 := by
  have hpower : ((X : (ZMod 2)[X]) ^ 32).degree = 32 := degree_X_pow 32
  rw [modulus, degree_add_eq_left_of_degree_lt, hpower]
  rw [hpower]
  exact degree_polynomial_lt g

/-- The bits that are set are the terms. -/
theorem card_support_polynomial (a : UInt32) :
    (polynomial a).support.card = (List.range 32).countP fun i => a.toNat.testBit i := by
  have hsupport : (polynomial a).support =
      (Finset.range 32).filter fun i => a.toNat.testBit i = true := by
    ext i
    rw [mem_support_iff, coeff_polynomial, Finset.mem_filter, Finset.mem_range, ne_eq,
      ite_eq_right_iff, Classical.not_imp]
    constructor
    · rintro ⟨hbit, -⟩
      refine ⟨?_, hbit⟩
      by_contra hi
      rw [testBit_of_le a (Nat.not_lt.mp hi)] at hbit
      cases hbit
    · rintro ⟨-, hbit⟩
      exact ⟨hbit, one_ne_zero⟩
  rw [hsupport, List.countP_eq_length_filter]
  have hcount : ((Finset.range 32).filter fun i => a.toNat.testBit i = true).card =
      ((List.range 32).filter fun i => decide (a.toNat.testBit i = true)).length := rfl
  simpa only [Bool.decide_eq_true] using hcount

/-- The top bit decides whether the product overflows. -/
theorem and_top_ne_zero_iff (a : UInt32) : a &&& 0x80000000 ≠ 0 ↔ a.toNat.testBit 31 = true := by
  have htop : (a &&& 0x80000000).toNat = a.toNat &&& 2 ^ 31 := rfl
  have hzero : (0 : UInt32).toNat = 0 := rfl
  rw [Ne, ← UInt32.toNat_inj, htop, hzero, Nat.and_two_pow]
  cases a.toNat.testBit 31 <;> simp

theorem testBit_step (g a : UInt32) (i : ℕ) :
    (step g a).toNat.testBit i =
      (((decide (i < 32) && (decide (1 ≤ i) && a.toNat.testBit (i - 1))) ^^
        (a.toNat.testBit 31 && g.toNat.testBit i))) := by
  have hshift : (a <<< 1).toNat = (a.toNat <<< 1) % 2 ^ 32 := rfl
  rw [step, UInt32.toNat_xor, Nat.testBit_xor, hshift, Nat.testBit_mod_two_pow,
    Nat.testBit_shiftLeft]
  congr 1
  have htop := and_top_ne_zero_iff a
  split_ifs with hoverflow
  · rw [htop.mp hoverflow, Bool.true_and]
  · rw [Bool.eq_false_iff.mpr fun hbit => hoverflow (htop.mpr hbit), Bool.false_and]
    exact Nat.zero_testBit i

theorem polynomial_step (g a : UInt32) :
    polynomial (step g a) = X * polynomial a %ₘ modulus g := by
  have hdegree : (polynomial (step g a)).degree < (modulus g).degree := by
    rw [degree_modulus]
    exact degree_polynomial_lt _
  -- the bit that leaves the word is the quotient
  have hsum : polynomial (step g a) +
      modulus g * (if a.toNat.testBit 31 then 1 else 0) = X * polynomial a := by
    ext i
    have hcoeff : (X * polynomial a).coeff i =
        if (decide (1 ≤ i) && a.toNat.testBit (i - 1)) then 1 else 0 := by
      cases i with
      | zero => simp
      | succ i => simp [coeff_X_mul, coeff_polynomial]
    have hmodulus : (modulus g * (if a.toNat.testBit 31 then 1 else 0)).coeff i =
        if a.toNat.testBit 31 then
          (if i = 32 then 1 else 0) + (if g.toNat.testBit i then 1 else 0) else 0 := by
      split_ifs <;> simp_all [modulus, coeff_polynomial, coeff_X_pow]
    rw [coeff_add, hcoeff, hmodulus, coeff_polynomial, testBit_step]
    rcases Nat.lt_trichotomy i 32 with hi | rfl | hi
    · have hsame : ∀ p q r : Bool, ((if ((p ^^ (q && r)) = true) then 1 else 0) +
          (if q = true then 0 + (if r = true then 1 else 0) else 0) : ZMod 2) =
            if p = true then 1 else 0 := by
        decide
      simp only [hi, decide_true, Bool.true_and, Nat.ne_of_lt hi, if_false]
      exact hsame _ _ _
    · have hfeedback := testBit_of_le g (Nat.le_refl 32)
      simp [hfeedback]
    · have hfeedback := testBit_of_le g (Nat.le_of_lt hi)
      have hword := testBit_of_le a (Nat.le_sub_one_of_lt hi)
      simp [hfeedback, hword, Nat.ne_of_gt hi, Nat.not_lt_of_gt hi]
  exact (div_modByMonic_unique _ _ (modulus_monic g) ⟨hsum, hdegree⟩).2.symm

theorem polynomial_iterate_step (g : UInt32) (n : ℕ) :
    polynomial ((step g)^[n] 1) = X ^ n %ₘ modulus g := by
  induction n with
  | zero =>
    have hone : polynomial 1 = 1 := by
      ext i
      have hbit : (1 : UInt32).toNat.testBit i = true ↔ i = 0 :=
        Nat.testBit_one_eq_true_iff_self_eq_zero
      simp only [coeff_polynomial, coeff_one, hbit]
    rw [Function.iterate_zero_apply, hone, pow_zero, eq_comm,
      modByMonic_eq_self_iff (modulus_monic g), degree_modulus, degree_one]
    decide
  | succ n ih =>
    rw [Function.iterate_succ_apply', polynomial_step, ih]
    apply modByMonic_eq_of_dvd_sub (modulus_monic g)
    rw [pow_succ', ← mul_sub]
    exact (dvd_modByMonic_sub _ _).mul_left X

end Blackstone.BinaryPolynomial
