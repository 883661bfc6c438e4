import Blackstone.Library.Crc
import Mathlib.Data.Nat.Prime.Basic
import Mathlib.Data.Nat.ModEq
import Mathlib.Dynamics.PeriodicPts.Defs
import Mathlib.Order.Interval.Finset.Nat
import Mathlib.Tactic.NormNum.Prime

/-!
# The period of the check with the usual generator

The generator of CRC-32 is primitive: from every register but zero the step comes back after
`2 ^ 32 - 1` bits and not before. The powers of `x` are computed by squaring (`power_eq`), their
order is read off the prime factors of `2 ^ 32 - 1` (`minimalPeriod_one`), and all other registers
lie on the cycle of `1` (`exists_iterate_shift`). So two numbers of steps act alike on a register
exactly if it is zero or they agree modulo the period (`iterate_shift_eq_iff`).
-/

namespace Blackstone.Crc

/-- The generator, reflected. -/
def generator : UInt32 := 0xEDB88320

/-- The register of the polynomial 1, reflected. -/
def one : UInt32 := 0x80000000

theorem two_pow_le_generator : 2 ^ 31 ≤ generator.toNat := by
  decide

/-! ## Multiplication of registers -/

/-- The first `n` rounds of Horner's scheme, from the highest power of `x`. -/
def mulRounds (a c : UInt32) : ℕ → UInt32
  | 0 => 0
  | n + 1 => shift generator (mulRounds a c n) ^^^ (if a.toNat.testBit n then c else 0)

/-- The product of two registers as polynomials modulo the generator. -/
def mul (a c : UInt32) : UInt32 := mulRounds a c 32

theorem mulRounds_xor_left (a b c : UInt32) (n : ℕ) :
    mulRounds (a ^^^ b) c n = mulRounds a c n ^^^ mulRounds b c n := by
  induction n with
  | zero => exact UInt32.xor_self.symm
  | succ n ih =>
    rw [mulRounds, mulRounds, mulRounds, ih, shift_xor, UInt32.toNat_xor, Nat.testBit_xor,
      xor_xor_xor_comm]
    congr 1
    cases a.toNat.testBit n
    · cases b.toNat.testBit n <;> simp
    · cases b.toNat.testBit n <;> simp

theorem mulRounds_xor_right (a c d : UInt32) (n : ℕ) :
    mulRounds a (c ^^^ d) n = mulRounds a c n ^^^ mulRounds a d n := by
  induction n with
  | zero => exact UInt32.xor_self.symm
  | succ n ih =>
    rw [mulRounds, mulRounds, mulRounds, ih, shift_xor, xor_xor_xor_comm]
    congr 1
    cases a.toNat.testBit n <;> simp

theorem mulRounds_shift (a c : UInt32) (n : ℕ) :
    mulRounds a (shift generator c) n = shift generator (mulRounds a c n) := by
  induction n with
  | zero => exact (shift_zero generator).symm
  | succ n ih =>
    rw [mulRounds, mulRounds, ih, shift_xor]
    congr 1
    cases a.toNat.testBit n <;> simp [shift_zero]

/-- Additive maps that agree on every single bit agree. -/
theorem eq_of_bits {f g : UInt32 → UInt32} (hf : ∀ a b, f (a ^^^ b) = f a ^^^ f b)
    (hg : ∀ a b, g (a ^^^ b) = g a ^^^ g b)
    (hbits : ∀ i < 32, f (UInt32.ofNat (2 ^ i)) = g (UInt32.ofNat (2 ^ i))) (a : UInt32) :
    f a = g a := by
  have hzero : f 0 = g 0 := by
    have hf0 := hf 0 0
    have hg0 := hg 0 0
    rw [UInt32.xor_self, UInt32.xor_self] at hf0 hg0
    rw [hf0, hg0]
  suffices hlow : ∀ n ≤ 32, ∀ a : UInt32, a.toNat < 2 ^ n → f a = g a from
    hlow 32 (Nat.le_refl 32) a a.toNat_lt
  intro n
  induction n with
  | zero =>
    intro _ a ha
    have : a = 0 := UInt32.toNat_inj.mp (Nat.lt_one_iff.mp ha)
    rw [this, hzero]
  | succ n ih =>
    intro hn a ha
    rcases Nat.lt_or_ge a.toNat (2 ^ n) with hsmall | hlarge
    · exact ih (Nat.le_of_succ_le hn) a hsmall
    · -- without its highest bit, the number is one of the smaller ones
      have hbit : (UInt32.ofNat (2 ^ n)).toNat = 2 ^ n := by
        apply UInt32.toNat_ofNat_of_lt'
        exact Nat.pow_lt_pow_right (by decide) hn
      have hrest : (a ^^^ UInt32.ofNat (2 ^ n)).toNat < 2 ^ n := by
        apply Nat.lt_pow_two_of_testBit
        intro i hi
        rw [UInt32.toNat_xor, hbit, Nat.testBit_xor, Nat.testBit_two_pow]
        rcases Nat.eq_or_lt_of_le hi with rfl | hi
        · have hset : a.toNat.testBit n = true := by
            rw [Nat.testBit_eq_decide_div_mod_eq, decide_eq_true_eq]
            have hdiv : a.toNat / 2 ^ n = 1 := by
              apply Nat.div_eq_of_lt_le
              · rwa [Nat.one_mul]
              · rwa [Nat.add_mul, Nat.one_mul, ← Nat.two_mul, Nat.mul_comm, ← Nat.pow_succ]
            rw [hdiv]
          simp [hset]
        · have hclear : a.toNat.testBit i = false :=
            Nat.testBit_lt_two_pow (Nat.lt_of_lt_of_le ha (Nat.pow_le_pow_right (by decide) hi))
          simp [hclear, Nat.ne_of_lt hi]
      have hsplit : a = (a ^^^ UInt32.ofNat (2 ^ n)) ^^^ UInt32.ofNat (2 ^ n) := by
        rw [UInt32.xor_assoc, UInt32.xor_self, UInt32.xor_zero]
      rw [hsplit, hf, hg, ih (Nat.le_of_succ_le hn) _ hrest, hbits n hn]

theorem mul_one (a : UInt32) : mul a one = a := by
  have hbits : ∀ i < 32, mul (UInt32.ofNat (2 ^ i)) one = UInt32.ofNat (2 ^ i) := by
    decide +kernel
  exact eq_of_bits (f := fun a => mul a one) (g := id) (fun a b => mulRounds_xor_left a b one 32)
    (fun _ _ => rfl) hbits a

/-- The bits are the powers of `x`. -/
theorem iterate_shift_one {i : ℕ} (hi : i < 32) :
    (shift generator)^[31 - i] one = UInt32.ofNat (2 ^ i) := by
  have hone : one.toNat = 2 ^ 31 := rfl
  have hdvd : 2 ^ (31 - i) ∣ one.toNat := by
    rw [hone]
    exact pow_dvd_pow 2 (Nat.sub_le 31 i)
  have hbit : (UInt32.ofNat (2 ^ i)).toNat = 2 ^ i :=
    UInt32.toNat_ofNat_of_lt' (Nat.pow_lt_pow_right (by decide) hi)
  apply UInt32.toNat_inj.mp
  rw [toNat_iterate_shift_of_dvd hdvd, hbit, hone, Nat.pow_div (Nat.sub_le 31 i) Nat.two_pos]
  congr 1
  omega

/-- Additive maps that commute with the step are known from their value at `1`. -/
theorem eq_of_one {f g : UInt32 → UInt32} (hf : ∀ a b, f (a ^^^ b) = f a ^^^ f b)
    (hg : ∀ a b, g (a ^^^ b) = g a ^^^ g b) (hfx : Function.Commute f (shift generator))
    (hgx : Function.Commute g (shift generator)) (hone : f one = g one) (a : UInt32) :
    f a = g a := by
  apply eq_of_bits hf hg
  intro i hi
  rw [← iterate_shift_one hi, (hfx.iterate_right _).eq, (hgx.iterate_right _).eq, hone]

/-- A number of steps is a product with a power of `x`. -/
theorem iterate_shift_eq_mul (n : ℕ) (a : UInt32) :
    (shift generator)^[n] a = mul ((shift generator)^[n] one) a := by
  apply eq_of_one (f := (shift generator)^[n]) (g := mul ((shift generator)^[n] one))
  · exact iterate_shift_xor generator n
  · intro a b
    exact mulRounds_xor_right _ a b 32
  · exact Function.Commute.iterate_self (shift generator) n
  · intro a
    exact mulRounds_shift _ a 32
  · exact (mul_one _).symm

/-! ## Powers of `x` -/

/-- Power `n` of `x` by squaring, for numbers of `k` bits. -/
def power : ℕ → ℕ → UInt32
  | 0, _ => one
  | k + 1, n => (fun half => (shift generator)^[n % 2] (mul half half)) (power k (n / 2))

theorem power_eq {k n : ℕ} (hn : n < 2 ^ k) : power k n = (shift generator)^[n] one := by
  induction k generalizing n with
  | zero =>
    obtain rfl : n = 0 := Nat.lt_one_iff.mp hn
    rfl
  | succ k ih =>
    have hhalf : n / 2 < 2 ^ k := by
      rw [Nat.pow_succ] at hn
      omega
    have hsum : n % 2 + (n / 2 + n / 2) = n := by omega
    calc power (k + 1) n
        = (shift generator)^[n % 2] (mul (power k (n / 2)) (power k (n / 2))) := rfl
      _ = (shift generator)^[n % 2]
            ((shift generator)^[n / 2] ((shift generator)^[n / 2] one)) := by
          rw [ih hhalf, ← iterate_shift_eq_mul]
      _ = (shift generator)^[n] one := by
          rw [← Function.iterate_add_apply, ← Function.iterate_add_apply, Nat.add_assoc, hsum]

/-- The period. -/
def period : ℕ := 2 ^ 32 - 1

/-- A period, no quotient of which by a prime is one, is the minimal one. -/
theorem minimalPeriod_eq_of_primes {α : Type*} {f : α → α} {a : α} {n : ℕ}
    (hperiod : f^[n] a = a) (hprimes : ∀ p, p.Prime → p ∣ n → f^[n / p] a ≠ a) :
    Function.minimalPeriod f a = n := by
  have hdvd : Function.minimalPeriod f a ∣ n :=
    Function.IsPeriodicPt.minimalPeriod_dvd hperiod
  by_contra hne
  obtain ⟨m, hm⟩ := hdvd
  have hm1 : m ≠ 1 := by
    rintro rfl
    exact hne (by rw [hm, Nat.mul_one])
  obtain ⟨p, hp, k, rfl⟩ := Nat.exists_prime_and_dvd hm1
  have hquotient : n / p = Function.minimalPeriod f a * k := by
    rw [hm, Nat.mul_left_comm, Nat.mul_div_cancel_left _ hp.pos]
  apply hprimes p hp ⟨_, by rw [hm, Nat.mul_left_comm]⟩
  rw [hquotient]
  exact (Function.isPeriodicPt_minimalPeriod f a).mul_const k

theorem period_eq : period = 3 * 5 * 17 * 257 * 65537 := rfl

theorem eq_of_prime_of_dvd_period {p : ℕ} (hp : p.Prime) (hdvd : p ∣ period) :
    p = 3 ∨ p = 5 ∨ p = 17 ∨ p = 257 ∨ p = 65537 := by
  rw [period_eq, hp.dvd_mul, hp.dvd_mul, hp.dvd_mul, hp.dvd_mul,
    Nat.prime_dvd_prime_iff_eq hp (by norm_num), Nat.prime_dvd_prime_iff_eq hp (by norm_num),
    Nat.prime_dvd_prime_iff_eq hp (by norm_num), Nat.prime_dvd_prime_iff_eq hp (by norm_num),
    Nat.prime_dvd_prime_iff_eq hp (by norm_num)] at hdvd
  omega

/-- The polynomial `x` has the order `2 ^ 32 - 1`. -/
theorem minimalPeriod_one : Function.minimalPeriod (shift generator) one = period := by
  apply minimalPeriod_eq_of_primes
  · rw [← power_eq (k := 32) (by decide)]
    decide +kernel
  · intro p hp hdvd
    rw [← power_eq (k := 32) (Nat.lt_of_le_of_lt (Nat.div_le_self _ _) (by decide))]
    rcases eq_of_prime_of_dvd_period hp hdvd with rfl | rfl | rfl | rfl | rfl
    · decide +kernel
    · decide +kernel
    · decide +kernel
    · decide +kernel
    · decide +kernel

/-- Every register but zero is a power of `x`. -/
theorem exists_iterate_shift {a : UInt32} (ha : a ≠ 0) : ∃ n, (shift generator)^[n] one = a := by
  -- there are as many powers as there are registers but zero
  let values := (Finset.range period).image fun n => ((shift generator)^[n] one).toNat
  have hinjective : Set.InjOn (fun n => ((shift generator)^[n] one).toNat)
      (Finset.range period) := by
    intro m hm n hn hmn
    rw [Finset.coe_range] at hm hn
    apply Function.iterate_injOn_Iio_minimalPeriod (f := shift generator) (x := one)
    · rwa [minimalPeriod_one]
    · rwa [minimalPeriod_one]
    · exact UInt32.toNat_inj.mp hmn
  have hsubset : values ⊆ Finset.Ioo 0 (2 ^ 32) := by
    intro value hvalue
    obtain ⟨n, _, rfl⟩ := Finset.mem_image.mp hvalue
    rw [Finset.mem_Ioo]
    refine ⟨Nat.pos_of_ne_zero fun hzero => ?_, UInt32.toNat_lt _⟩
    have hone := (iterate_shift_eq_zero_iff two_pow_le_generator).mp (UInt32.toNat_inj.mp hzero)
    exact absurd hone (by decide)
  have hcard : (Finset.Ioo 0 (2 ^ 32)).card ≤ values.card := by
    rw [Finset.card_image_of_injOn hinjective, Finset.card_range, Nat.card_Ioo]
    rfl
  have hmem : a.toNat ∈ values := by
    rw [Finset.eq_of_subset_of_card_le hsubset hcard, Finset.mem_Ioo]
    refine ⟨Nat.pos_of_ne_zero fun hzero => ha (UInt32.toNat_inj.mp hzero), a.toNat_lt⟩
  obtain ⟨n, _, hn⟩ := Finset.mem_image.mp hmem
  exact ⟨n, UInt32.toNat_inj.mp hn⟩

theorem iterate_shift_eq_iff {m n : ℕ} {a : UInt32} :
    (shift generator)^[m] a = (shift generator)^[n] a ↔ a = 0 ∨ m ≡ n [MOD period] := by
  constructor
  · intro heq
    rcases eq_or_ne a 0 with hzero | hne
    · exact Or.inl hzero
    · right
      obtain ⟨j, rfl⟩ := exists_iterate_shift hne
      have hone : (shift generator)^[m] one = (shift generator)^[n] one := by
        apply (shift_injective two_pow_le_generator).iterate j
        rw [← Function.iterate_add_apply, ← Function.iterate_add_apply, Nat.add_comm j m,
          Nat.add_comm j n, Function.iterate_add_apply, Function.iterate_add_apply, heq]
      rw [← Function.iterate_mod_minimalPeriod_eq (n := m),
        ← Function.iterate_mod_minimalPeriod_eq (n := n), minimalPeriod_one] at hone
      apply Function.iterate_injOn_Iio_minimalPeriod (f := shift generator) (x := one) _ _ hone
      · rw [minimalPeriod_one]
        exact Nat.mod_lt _ (by decide)
      · rw [minimalPeriod_one]
        exact Nat.mod_lt _ (by decide)
  · rintro (rfl | hmod)
    · rw [iterate_shift_zero, iterate_shift_zero]
    · have hone : (shift generator)^[m] one = (shift generator)^[n] one := by
        rw [← Function.iterate_mod_minimalPeriod_eq (n := m),
          ← Function.iterate_mod_minimalPeriod_eq (n := n), minimalPeriod_one]
        exact congrArg (fun k => (shift generator)^[k] one) hmod
      rw [iterate_shift_eq_mul, hone, ← iterate_shift_eq_mul]

end Blackstone.Crc
