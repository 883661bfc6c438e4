import Mathlib.Algebra.Order.Field.Power
import Mathlib.Data.Int.Log
import Mathlib.Data.Rat.Floor
import Mathlib.Tactic.FieldSimp
import Mathlib.Tactic.Positivity
import Mathlib.Tactic.Ring

/-!
# Significant digits

A number in scientific notation has one digit before the point and `q` digits after it.
`significant q x` is the mantissa, as an integer of `q + 1` digits, and the exponent of the
rational `x` rounded to that form, and `roundSignificant q x` is the rounded number. The
rounding changes exactly the numbers with more digits (`roundSignificant_eq_self_iff`).
-/

namespace Blackstone.SignificantDigits

/-- The nearest natural number, ties to even. -/
def roundEven (x : ℚ) : ℕ :=
  if 2 * (x - ⌊x⌋₊) < 1 then ⌊x⌋₊
  else if 1 < 2 * (x - ⌊x⌋₊) then ⌊x⌋₊ + 1
  else if ⌊x⌋₊ % 2 = 0 then ⌊x⌋₊
  else ⌊x⌋₊ + 1

/-- Mantissa and exponent of a number rounded to `q + 1` significant digits. -/
def significant (q : ℕ) (x : ℚ) : ℕ × ℤ :=
  let exponent := Int.log 10 |x|
  let mantissa := roundEven (|x| / 10 ^ (exponent - q))
  if mantissa = 10 ^ (q + 1) then (10 ^ q, exponent + 1) else (mantissa, exponent)

/-- A number rounded to `q + 1` significant digits. -/
def roundSignificant (q : ℕ) (x : ℚ) : ℚ :=
  let rounded := (significant q x).1 * (10 : ℚ) ^ ((significant q x).2 - q)
  if x < 0 then -rounded else rounded

/-- A number with at most `q + 1` significant digits. -/
def HasDigits (q : ℕ) (x : ℚ) : Prop :=
  ∃ (m : ℕ) (k : ℤ), m < 10 ^ (q + 1) ∧ |x| = m * (10 : ℚ) ^ k

@[simp] theorem roundEven_natCast (n : ℕ) : roundEven n = n := by
  simp [roundEven]

/-- Rounding does not pass over a natural number. -/
theorem roundEven_le {x : ℚ} {n : ℕ} (hpos : 0 < n) (h : x < n) : roundEven x ≤ n := by
  have hfloor : ⌊x⌋₊ < n := (Nat.floor_lt' hpos.ne').mpr h
  unfold roundEven
  split
  · omega
  · split
    · omega
    · split <;> omega

theorem mantissa_le (q : ℕ) (x : ℚ) :
    roundEven (|x| / 10 ^ (Int.log 10 |x| - q)) ≤ 10 ^ (q + 1) := by
  apply roundEven_le (by positivity)
  have hpos : (0 : ℚ) < 10 ^ (Int.log 10 |x| - q) := by positivity
  rw [div_lt_iff₀ hpos]
  have hlog := Int.lt_zpow_succ_log_self (R := ℚ) (b := 10) (by decide) |x|
  calc |x| < (10 : ℚ) ^ (Int.log 10 |x| + 1) := by exact_mod_cast hlog
    _ = ((10 ^ (q + 1) : ℕ) : ℚ) * 10 ^ (Int.log 10 |x| - q) := by
        rw [Nat.cast_pow, Nat.cast_ofNat, ← zpow_natCast, ← zpow_add₀ (by norm_num)]
        congr 1
        push_cast
        ring

theorem significant_fst_lt (q : ℕ) (x : ℚ) : (significant q x).1 < 10 ^ (q + 1) := by
  unfold significant
  simp only
  split
  · exact Nat.pow_lt_pow_right (by decide) (Nat.lt_succ_self q)
  · rename_i hne
    exact lt_of_le_of_ne (mantissa_le q x) hne

/-- A mantissa that is rounded up to one more digit. -/
theorem carry (q : ℕ) (exponent : ℤ) :
    (10 : ℚ) ^ q * 10 ^ (exponent + 1 - q) = 10 ^ (q + 1) * 10 ^ (exponent - q) := by
  rw [← zpow_natCast, ← zpow_natCast, ← zpow_add₀ (by norm_num), ← zpow_add₀ (by norm_num)]
  congr 1
  push_cast
  ring

/-- A number with mantissa `m` below `10 ^ (q + 1)` has at most `q` digits in front of place
`k`. -/
theorem log_lt_of_digits {q m : ℕ} {k : ℤ} {x : ℚ} (hpos : 0 < m) (hm : m < 10 ^ (q + 1))
    (hx : |x| = m * (10 : ℚ) ^ k) : Int.log 10 |x| < q + 1 + k := by
  have habs : 0 < |x| := by
    rw [hx]
    positivity
  rw [← Int.lt_zpow_iff_log_lt (by decide) habs, hx]
  calc (m : ℚ) * 10 ^ k < 10 ^ (q + 1) * 10 ^ k := by
        apply mul_lt_mul_of_pos_right
        · exact_mod_cast hm
        · positivity
    _ = ((10 : ℕ) : ℚ) ^ ((q : ℤ) + 1 + k) := by
        rw [Nat.cast_ofNat, zpow_add₀ (by norm_num)]
        norm_cast

/-- The scaled number of at most `q + 1` significant digits is a natural number. -/
theorem exists_mantissa {q : ℕ} {x : ℚ} (h : HasDigits q x) :
    ∃ n : ℕ, |x| / 10 ^ (Int.log 10 |x| - q) = n := by
  obtain ⟨m, k, hm, hx⟩ := h
  rcases Nat.eq_zero_or_pos m with hzero | hpos
  · refine ⟨0, ?_⟩
    rw [hx, hzero]
    simp
  · have hlog := log_lt_of_digits hpos hm hx
    obtain ⟨j, hj⟩ := Int.eq_ofNat_of_zero_le (show 0 ≤ k - (Int.log 10 |x| - q) by omega)
    refine ⟨m * 10 ^ j, ?_⟩
    calc |x| / 10 ^ (Int.log 10 |x| - q)
        = m * (10 ^ k / 10 ^ (Int.log 10 |x| - q)) := by
          rw [mul_div_assoc', ← hx]
      _ = m * (10 : ℚ) ^ (k - (Int.log 10 |x| - q)) := by rw [zpow_sub₀ (by norm_num) k]
      _ = ((m * 10 ^ j : ℕ) : ℚ) := by
          rw [hj, zpow_natCast]
          push_cast
          rfl

/-- The mantissa of a number with at most `q + 1` significant digits is exact. -/
theorem significant_of_hasDigits {q : ℕ} {x : ℚ} (h : HasDigits q x) :
    (significant q x).1 * (10 : ℚ) ^ ((significant q x).2 - q) = |x| := by
  obtain ⟨n, hn⟩ := exists_mantissa h
  have hpos : (0 : ℚ) < 10 ^ (Int.log 10 |x| - q) := by positivity
  have habs : |x| = n * 10 ^ (Int.log 10 |x| - q) := (div_eq_iff hpos.ne').mp hn
  unfold significant
  simp only [hn, roundEven_natCast]
  split
  · rename_i hfull
    calc ((10 ^ q : ℕ) : ℚ) * 10 ^ (Int.log 10 |x| + 1 - q)
        = 10 ^ (q + 1) * 10 ^ (Int.log 10 |x| - q) := by
          rw [← carry]
          push_cast
          rfl
      _ = n * 10 ^ (Int.log 10 |x| - q) := by
          rw [hfull]
          push_cast
          rfl
      _ = |x| := habs.symm
  · exact habs.symm

/-- Rounding keeps exactly the numbers with at most `q + 1` significant digits. -/
theorem roundSignificant_eq_self_iff (q : ℕ) (x : ℚ) :
    roundSignificant q x = x ↔ HasDigits q x := by
  constructor
  · intro h
    refine ⟨(significant q x).1, (significant q x).2 - q, significant_fst_lt q x, ?_⟩
    have hpos : (0 : ℚ) ≤ (significant q x).1 * (10 : ℚ) ^ ((significant q x).2 - q) := by
      positivity
    rw [← abs_of_nonneg hpos]
    conv_lhs => rw [← h]
    rw [roundSignificant]
    split
    · rw [abs_neg]
    · rfl
  · intro h
    rw [roundSignificant, significant_of_hasDigits h]
    split
    · rename_i hneg
      rw [abs_of_neg hneg, neg_neg]
    · rename_i hnonneg
      rw [abs_of_nonneg (not_lt.mp hnonneg)]

theorem hasDigits_natCast {q n : ℕ} (h : n < 10 ^ (q + 1)) : HasDigits q (n : ℚ) :=
  ⟨n, 0, h, by rw [zpow_zero, mul_one, Nat.abs_cast]⟩

theorem log_le_significant_snd (q : ℕ) (x : ℚ) : Int.log 10 |x| ≤ (significant q x).2 := by
  unfold significant
  simp only
  split
  · exact Int.le_add_one le_rfl
  · exact le_rfl

/-- A natural number is rounded to a natural number. -/
theorem exists_roundSignificant_natCast (q n : ℕ) :
    ∃ r : ℕ, roundSignificant q (n : ℚ) = r := by
  by_cases hshort : n < 10 ^ (q + 1)
  · exact ⟨n, (roundSignificant_eq_self_iff q n).mpr (hasDigits_natCast hshort)⟩
  · have hlog : (q : ℤ) ≤ Int.log 10 |(n : ℚ)| := by
      rw [Nat.abs_cast, Int.log_natCast]
      have hpow : q + 1 ≤ Nat.log 10 n :=
        Nat.le_log_of_pow_le (by decide) (not_lt.mp hshort)
      omega
    have hexponent : 0 ≤ (significant q (n : ℚ)).2 - q :=
      sub_nonneg.mpr (hlog.trans (log_le_significant_snd q n))
    obtain ⟨j, hj⟩ := Int.eq_ofNat_of_zero_le hexponent
    refine ⟨(significant q (n : ℚ)).1 * 10 ^ j, ?_⟩
    rw [roundSignificant, if_neg (not_lt.mpr (Nat.cast_nonneg n)), hj, zpow_natCast]
    push_cast
    rfl

end Blackstone.SignificantDigits
