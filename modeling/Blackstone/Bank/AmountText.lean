import Blackstone.Bank.Text
import Blackstone.Library.SignificantDigits
import Mathlib.Data.List.DropRight

/-!
# Amounts as text

A `double` written to a stream has at most six significant digits, in fixed notation or,
for large and small numbers, with an exponent (`printDouble`). `std::stod` reads such a text
exactly. Writing an amount and reading it back therefore rounds it to six significant
digits (`stod_printDouble`).
-/

namespace Blackstone.Bank

open SignificantDigits

/-- The last `width` digits of a number. -/
def fixedDigits : Nat → Nat → Str
  | 0, _ => []
  | width + 1, n => fixedDigits width (n / 10) ++ [UInt8.ofNat (48 + n % 10)]

/-- The digits after the point, without the zeros at their end. -/
def trimmed (fraction : Str) : Str := fraction.rdropWhile (· = 48)

/-- A point and the digits after it, nothing when there are none. -/
def pointText (fraction : Str) : Str := if fraction = [] then [] else ascii "." ++ fraction

/-- The number `m / 10 ^ places` without zeros at its end. -/
def scaledText (m places : Nat) : Str :=
  decimal (m / 10 ^ places) ++ pointText (trimmed (fixedDigits places m))

/-- An exponent, with at least two digits. -/
def exponentText (e : Int) : Str :=
  ascii "e" ++ (if e < 0 then ascii "-" else ascii "+") ++
    List.replicate (2 - (decimal e.natAbs).length) 48 ++ decimal e.natAbs

/-- The number `m * 10 ^ (e - 5)`, with an exponent unless it is of moderate size. -/
def magnitudeText (m : Nat) (e : Int) : Str :=
  if -4 ≤ e ∧ e < 6 then scaledText m (5 - e).toNat else scaledText m 5 ++ exponentText e

/-- A `double` written to a stream in the default format, `%g` with six digits. -/
def printDouble (x : ℚ) : Str :=
  (if x < 0 then ascii "-" else []) ++ magnitudeText (significant 5 x).1 (significant 5 x).2

/-- The digits after a point, and the text that follows. -/
def readFraction : Str → Str × Str
  | 46 :: text => (text.takeWhile isDigit, text.dropWhile isDigit)
  | text => ([], text)

/-- An exponent, zero when there is none. -/
def readExponent : Str → Int
  | [] => 0
  | b :: text =>
    if b = 101 ∨ b = 69 then
      let signed := readSign text
      let value : Int := digitsValue (signed.2.takeWhile isDigit)
      if signed.1 then -value else value
    else 0

/-- `std::stod` on decimal numbers. -/
def stod (text : Str) : Option ℚ :=
  let signed := readSign (text.dropWhile isSpace)
  let whole := signed.2.takeWhile isDigit
  let fraction := readFraction (signed.2.dropWhile isDigit)
  let value : ℚ := digitsValue (whole ++ fraction.1) / 10 ^ fraction.1.length *
    10 ^ readExponent fraction.2
  if whole ++ fraction.1 = [] then none else some (if signed.1 then -value else value)

/-! ## Digits -/

theorem digitsValue_append (a b : Str) :
    digitsValue (a ++ b) = digitsValue a * 10 ^ b.length + digitsValue b := by
  induction b using List.reverseRecOn with
  | nil => simp [digitsValue]
  | append_singleton b d ih =>
    have hlast : ∀ s : Str, digitsValue (s ++ [d]) = 10 * digitsValue s + (d.toNat - 48) := by
      intro s
      rw [digitsValue, List.foldl_append]
      rfl
    rw [← List.append_assoc, hlast, hlast, ih, List.length_append, List.length_singleton]
    ring

theorem digitsValue_replicate_zero (n : Nat) : digitsValue (List.replicate n 48) = 0 := by
  induction n with
  | zero => rfl
  | succ n ih => rwa [List.replicate_succ, digitsValue, List.foldl_cons]

@[simp] theorem length_fixedDigits (width n : Nat) : (fixedDigits width n).length = width := by
  induction width generalizing n with
  | zero => rfl
  | succ width ih => rw [fixedDigits, List.length_append, ih, List.length_singleton]

theorem toNat_digit (n : Nat) : (UInt8.ofNat (48 + n % 10)).toNat = 48 + n % 10 := by
  rw [UInt8.toNat_ofNat', Nat.mod_eq_of_lt (by omega)]

theorem isDigit_of_mem_fixedDigits {width n : Nat} {b : UInt8} (h : b ∈ fixedDigits width n) :
    isDigit b = true := by
  induction width generalizing n with
  | zero => cases h
  | succ width ih =>
    rcases List.mem_append.mp h with hinit | hlast
    · exact ih hinit
    · rw [List.mem_singleton.mp hlast]
      simp only [isDigit, Bool.and_eq_true, decide_eq_true_eq, UInt8.le_iff_toNat_le, toNat_digit]
      exact ⟨Nat.le_add_right 48 _, show 48 + n % 10 ≤ 57 by omega⟩

theorem digitsValue_fixedDigits (width n : Nat) :
    digitsValue (fixedDigits width n) = n % 10 ^ width := by
  induction width generalizing n with
  | zero => rw [Nat.pow_zero, Nat.mod_one]; rfl
  | succ width ih =>
    have hlast : digitsValue [UInt8.ofNat (48 + n % 10)] = n % 10 := by
      show 10 * 0 + ((UInt8.ofNat (48 + n % 10)).toNat - 48) = n % 10
      rw [toNat_digit]
      omega
    rw [fixedDigits, digitsValue_append, ih, hlast, List.length_singleton, Nat.pow_one,
      Nat.pow_succ', Nat.mod_mul]
    ring

theorem exists_zeros (fraction : Str) :
    ∃ zeros, fraction = trimmed fraction ++ List.replicate zeros 48 := by
  refine ⟨(fraction.rtakeWhile (· = 48)).length, ?_⟩
  have hzeros : fraction.rtakeWhile (· = 48) =
      List.replicate (fraction.rtakeWhile (· = 48)).length 48 := by
    apply List.eq_replicate_of_mem
    intro b hb
    have hzero := List.mem_rtakeWhile_imp hb
    exact of_decide_eq_true hzero
  rw [← hzeros]
  exact List.rdropWhile_append_rtakeWhile.symm

/-- Zeros at the end of a fraction do not count. -/
theorem digitsValue_trimmed (whole fraction : Str) :
    (digitsValue (whole ++ trimmed fraction) : ℚ) / 10 ^ (trimmed fraction).length =
      digitsValue (whole ++ fraction) / 10 ^ fraction.length := by
  obtain ⟨zeros, hsplit⟩ := exists_zeros fraction
  have hvalue : digitsValue (whole ++ fraction) =
      digitsValue (whole ++ trimmed fraction) * 10 ^ zeros := by
    conv_lhs => rw [hsplit]
    rw [← List.append_assoc, digitsValue_append (whole ++ trimmed fraction),
      digitsValue_replicate_zero, List.length_replicate, Nat.add_zero]
  have hlength : fraction.length = (trimmed fraction).length + zeros := by
    conv_lhs => rw [hsplit]
    rw [List.length_append, List.length_replicate]
  rw [hvalue, hlength, Nat.cast_mul, Nat.cast_pow, Nat.cast_ofNat, pow_add,
    mul_div_mul_right _ _ (by positivity)]

theorem digitsValue_scaled (m places : Nat) :
    (digitsValue (decimal (m / 10 ^ places) ++ trimmed (fixedDigits places m)) : ℚ) /
      10 ^ (trimmed (fixedDigits places m)).length = m / 10 ^ places := by
  rw [digitsValue_trimmed, digitsValue_append, digitsValue_decimal, digitsValue_fixedDigits,
    length_fixedDigits, Nat.div_add_mod']

/-! ## Reading -/

/-- The text after a number: nothing, or an exponent. -/
def NumberEnds (tail : Str) : Prop := tail = [] ∨ ∃ rest, tail = ascii "e" ++ rest

theorem NumberEnds.not_isDigit {tail : Str} (h : NumberEnds tail) :
    ∀ b ∈ tail.head?, isDigit b = false := by
  rcases h with rfl | ⟨rest, rfl⟩
  · intro b hb
    cases hb
  · intro b hb
    rw [← Option.some.inj hb]
    rfl

theorem readFraction_pointText {fraction tail : Str} (hfraction : ∀ b ∈ fraction, isDigit b = true)
    (htail : NumberEnds tail) : readFraction (pointText fraction ++ tail) = (fraction, tail) := by
  unfold pointText
  split
  · rename_i hnil
    rw [hnil]
    rcases htail with rfl | ⟨rest, rfl⟩
    · rfl
    · rfl
  · obtain ⟨htake, hdrop⟩ := takeWhile_isDigit_append hfraction htail.not_isDigit
    show ((fraction ++ tail).takeWhile isDigit, (fraction ++ tail).dropWhile isDigit) = _
    rw [htake, hdrop]

theorem pointText_not_isDigit (fraction : Str) {tail : Str} (htail : NumberEnds tail) :
    ∀ b ∈ (pointText fraction ++ tail).head?, isDigit b = false := by
  unfold pointText
  split
  · exact htail.not_isDigit
  · intro b hb
    rw [← Option.some.inj hb]
    rfl

/-- What `stod` makes of a sign, digits, a fraction and an exponent. -/
theorem stod_parts (negative : Bool) {whole fraction tail : Str}
    (hwhole : ∀ b ∈ whole, isDigit b = true) (hne : whole ≠ [])
    (hfraction : ∀ b ∈ fraction, isDigit b = true) (htail : NumberEnds tail) :
    stod ((if negative then ascii "-" else []) ++ (whole ++ (pointText fraction ++ tail))) =
      some (if negative
        then -((digitsValue (whole ++ fraction) : ℚ) / 10 ^ fraction.length *
          10 ^ readExponent tail)
        else (digitsValue (whole ++ fraction) : ℚ) / 10 ^ fraction.length *
          10 ^ readExponent tail) := by
  obtain ⟨htake, hdrop⟩ := takeWhile_isDigit_append hwhole (pointText_not_isDigit fraction htail)
  have hsign : readSign (((if negative then ascii "-" else []) ++
      (whole ++ (pointText fraction ++ tail))).dropWhile isSpace) =
      (negative, whole ++ (pointText fraction ++ tail)) := by
    cases negative with
    | true => rfl
    | false =>
      obtain ⟨b, rest, hcons⟩ := List.exists_cons_of_ne_nil hne
      have hb : isDigit b = true := hwhole b (by rw [hcons]; exact List.mem_cons_self)
      rw [hcons]
      exact readSign_of_isDigit hb _
  have hsome : whole ++ fraction ≠ [] := List.append_ne_nil_of_left_ne_nil hne fraction
  simp only [stod, hsign, htake, hdrop, readFraction_pointText hfraction htail, if_neg hsome]

/-- An exponent is read back as it was written. -/
theorem readExponent_exponentText (e : Int) : readExponent (exponentText e) = e := by
  have hdigits : ∀ b ∈ List.replicate (2 - (decimal e.natAbs).length) 48 ++ decimal e.natAbs,
      isDigit b = true := by
    intro b hb
    rcases List.mem_append.mp hb with hzero | hdigit
    · rw [List.eq_of_mem_replicate hzero]
      rfl
    · exact isDigit_of_mem_decimal hdigit
  have hvalue : digitsValue ((List.replicate (2 - (decimal e.natAbs).length) 48 ++
      decimal e.natAbs).takeWhile isDigit) = e.natAbs := by
    rw [List.takeWhile_eq_self_iff.mpr hdigits, digitsValue_append, digitsValue_replicate_zero,
      digitsValue_decimal, Nat.zero_mul, Nat.zero_add]
  by_cases hneg : e < 0
  · have htext : exponentText e = ascii "e" ++ (ascii "-" ++
        (List.replicate (2 - (decimal e.natAbs).length) 48 ++ decimal e.natAbs)) := by
      rw [exponentText, if_pos hneg, List.append_assoc, List.append_assoc]
    rw [htext]
    show -(digitsValue ((List.replicate (2 - (decimal e.natAbs).length) 48 ++
      decimal e.natAbs).takeWhile isDigit) : Int) = e
    rw [hvalue]
    omega
  · have htext : exponentText e = ascii "e" ++ (ascii "+" ++
        (List.replicate (2 - (decimal e.natAbs).length) 48 ++ decimal e.natAbs)) := by
      rw [exponentText, if_neg hneg, List.append_assoc, List.append_assoc]
    rw [htext]
    show (digitsValue ((List.replicate (2 - (decimal e.natAbs).length) 48 ++
      decimal e.natAbs).takeWhile isDigit) : Int) = e
    rw [hvalue]
    omega

theorem isDigit_of_mem_trimmed {places m : Nat} {b : UInt8}
    (h : b ∈ trimmed (fixedDigits places m)) : isDigit b = true :=
  isDigit_of_mem_fixedDigits ((List.rdropWhile_prefix _ _).subset h)

/-- A scaled number with an exponent behind it. -/
theorem stod_scaledText (negative : Bool) (m places : Nat) {tail : Str} (htail : NumberEnds tail) :
    stod ((if negative then ascii "-" else []) ++ (scaledText m places ++ tail)) =
      some (if negative then -((m : ℚ) / 10 ^ places * 10 ^ readExponent tail)
        else (m : ℚ) / 10 ^ places * 10 ^ readExponent tail) := by
  rw [scaledText, List.append_assoc,
    stod_parts negative (fun b hb => isDigit_of_mem_decimal hb) (decimal_ne_nil _)
      (fun b hb => isDigit_of_mem_trimmed hb) htail, digitsValue_scaled]

theorem stod_magnitudeText (negative : Bool) (m : Nat) (e : Int) :
    stod ((if negative then ascii "-" else []) ++ magnitudeText m e) =
      some (if negative then -((m : ℚ) * 10 ^ (e - 5)) else (m : ℚ) * 10 ^ (e - 5)) := by
  by_cases hfixed : -4 ≤ e ∧ e < 6
  · have hvalue : (m : ℚ) / 10 ^ (5 - e).toNat * 10 ^ readExponent [] = m * 10 ^ (e - 5) := by
      have hplaces : -((5 - e).toNat : ℤ) = e - 5 := by omega
      rw [show readExponent [] = 0 from rfl, zpow_zero, mul_one, ← zpow_natCast, div_eq_mul_inv,
        ← zpow_neg, hplaces]
    have hread := stod_scaledText negative m (5 - e).toNat (Or.inl rfl)
    rw [List.append_nil, hvalue] at hread
    rwa [magnitudeText, if_pos hfixed]
  · have hvalue : (m : ℚ) / 10 ^ 5 * 10 ^ readExponent (exponentText e) = m * 10 ^ (e - 5) := by
      rw [readExponent_exponentText, zpow_sub₀ (by norm_num), div_mul_eq_mul_div, mul_div_assoc]
      rfl
    have hends : NumberEnds (exponentText e) := by
      refine Or.inr ⟨(if e < 0 then ascii "-" else ascii "+") ++
        (List.replicate (2 - (decimal e.natAbs).length) 48 ++ decimal e.natAbs), ?_⟩
      rw [exponentText, List.append_assoc, List.append_assoc]
    have hread := stod_scaledText negative m 5 hends
    rw [hvalue] at hread
    rwa [magnitudeText, if_neg hfixed]

/-- An amount that is written and read back is rounded to six significant digits. -/
theorem stod_printDouble (x : ℚ) : stod (printDouble x) = some (roundSignificant 5 x) := by
  rw [printDouble, roundSignificant]
  by_cases hneg : x < 0
  · rw [if_pos hneg, if_pos hneg]
    exact stod_magnitudeText true _ _
  · rw [if_neg hneg, if_neg hneg]
    exact stod_magnitudeText false _ _

/-! ## Delimiters -/

theorem bar_not_mem_scaledText (m places : Nat) : bar ∉ scaledText m places := by
  rw [scaledText, pointText, List.mem_append]
  rintro (hwhole | hfraction)
  · exact bar_not_mem_decimal _ hwhole
  · split at hfraction
    · cases hfraction
    · rcases List.mem_append.mp hfraction with hpoint | hdigits
      · exact absurd hpoint (by decide)
      · exact absurd (isDigit_of_mem_trimmed hdigits) (by decide)

theorem bar_not_mem_exponentText (e : Int) : bar ∉ exponentText e := by
  simp only [exponentText, List.mem_append, not_or]
  refine ⟨⟨⟨by decide, ?_⟩, ?_⟩, bar_not_mem_decimal _⟩
  · split <;> decide
  · intro hzero
    exact absurd (List.eq_of_mem_replicate hzero) (by decide)

theorem bar_not_mem_printDouble (x : ℚ) : bar ∉ printDouble x := by
  simp only [printDouble, magnitudeText, List.mem_append, not_or]
  refine ⟨?_, ?_⟩
  · split <;> decide
  · split
    · exact bar_not_mem_scaledText _ _
    · rw [List.mem_append, not_or]
      exact ⟨bar_not_mem_scaledText _ _, bar_not_mem_exponentText _⟩

/-! ## Six decimals -/

@[simp] theorem roundHalfEven_one (n : Nat) : roundHalfEven n 1 = n := by
  simp [roundHalfEven, Nat.mod_one]

theorem toString6_natCast (n : ℕ) : toString6 (n : ℚ) = decimal n ++ ascii ".000000" := by
  have hsign : ¬ (n : ℚ) < 0 := not_lt.mpr (Nat.cast_nonneg n)
  have hzero : n * 10 ^ 6 % 10 ^ 6 = 0 := Nat.mul_mod_left n _
  have hdiv : n * 10 ^ 6 / 10 ^ 6 = n := Nat.mul_div_cancel n (by decide)
  simp only [toString6, if_neg hsign, Rat.num_natCast, Rat.den_natCast, Int.natAbs_natCast,
    roundHalfEven_one, hzero, hdiv, List.nil_append, List.append_assoc]
  rfl

theorem toString6_natCast_inj {a b : ℕ} :
    toString6 (a : ℚ) = toString6 (b : ℚ) ↔ a = b := by
  rw [toString6_natCast, toString6_natCast, List.append_left_inj]
  exact decimal_injective.eq_iff

end Blackstone.Bank
