import Blackstone.Bank.Sha1
import Blackstone.Library.Delimited
import Mathlib.Data.List.Basic

/-!
# Numbers read from text

`std::stoi` and `std::stoull` read the number at the beginning of a string; a thrown
exception is the result `none`. A number that was written to a stream is read back exactly
(`stoi_decimalInt`, `stoull_decimal`), and its text contains digits only.
-/

namespace Blackstone.Bank

open Delimited

/-- The delimiter `'|'`. -/
def bar : UInt8 := 124

/-- The delimiter `':'`. -/
def colon : UInt8 := 58

/-- `isspace`. -/
def isSpace (b : UInt8) : Bool := b = 32 || (9 ≤ b && b ≤ 13)

/-- `isdigit`. -/
def isDigit (b : UInt8) : Bool := 48 ≤ b && b ≤ 57

/-- The number that a sequence of digits denotes. -/
def digitsValue (digits : Str) : Nat := digits.foldl (fun v b => 10 * v + (b.toNat - 48)) 0

/-- An optional sign; `true` is a minus sign. -/
def readSign : Str → Bool × Str
  | 45 :: text => (true, text)
  | 43 :: text => (false, text)
  | text => (false, text)

/-- `strtol` and `strtoull` before their range checks: spaces, a sign and digits. -/
def readNumber (text : Str) : Option (Bool × Nat) :=
  let signed := readSign (text.dropWhile isSpace)
  let digits := signed.2.takeWhile isDigit
  if digits = [] then none else some (signed.1, digitsValue digits)

/-- `std::stoi`. -/
def stoi (text : Str) : Option Int32 :=
  match readNumber text with
  | none => none
  | some (negative, n) =>
    let value : Int := if negative then -n else n
    if -2 ^ 31 ≤ value ∧ value < 2 ^ 31 then some (Int32.ofInt value) else none

/-- `std::stoull`. -/
def stoull (text : Str) : Option UInt64 :=
  match readNumber text with
  | none => none
  | some (negative, n) =>
    if n < 2 ^ 64 then some (if negative then -UInt64.ofNat n else UInt64.ofNat n) else none

/-! ## Digits -/

/-- The byte of a digit. -/
theorem byte_of_isDigit {c : Char} (h : c.isDigit) :
    isDigit (UInt8.ofNat c.toNat) = true ∧ (UInt8.ofNat c.toNat).toNat = c.toNat := by
  have hrange : 48 ≤ c.toNat ∧ c.toNat ≤ 57 := by
    simp only [Char.isDigit, Bool.and_eq_true, decide_eq_true_eq] at h
    exact ⟨UInt32.le_iff_toNat_le.mp h.1, UInt32.le_iff_toNat_le.mp h.2⟩
  have hnat : (UInt8.ofNat c.toNat).toNat = c.toNat := by
    rw [UInt8.toNat_ofNat', Nat.mod_eq_of_lt (by omega)]
  refine ⟨?_, hnat⟩
  simp only [isDigit, Bool.and_eq_true, decide_eq_true_eq, UInt8.le_iff_toNat_le, hnat]
  exact hrange

theorem isDigit_of_mem_decimal {n : Nat} {b : UInt8} (h : b ∈ decimal n) : isDigit b = true := by
  obtain ⟨c, hc, rfl⟩ := List.mem_map.mp h
  exact (byte_of_isDigit (Nat.isDigit_of_mem_toDigits (by decide) (by decide) hc)).1

theorem decimal_ne_nil (n : Nat) : decimal n ≠ [] := by
  rw [decimal, Ne, List.map_eq_nil_iff]
  exact Nat.toDigits_ne_nil

/-- A decimal starts with a digit. -/
theorem exists_digit_decimal (n : Nat) :
    ∃ b rest, decimal n = b :: rest ∧ isDigit b = true := by
  obtain ⟨b, rest, hcons⟩ := List.exists_cons_of_ne_nil (decimal_ne_nil n)
  have hmem : b ∈ decimal n := by
    rw [hcons]
    exact List.mem_cons_self
  exact ⟨b, rest, hcons, isDigit_of_mem_decimal hmem⟩

theorem not_mem_decimal {b : UInt8} (hb : isDigit b = false) (n : Nat) : b ∉ decimal n := by
  intro h
  rw [isDigit_of_mem_decimal h] at hb
  cases hb

theorem digitsValue_decimal (n : Nat) : digitsValue (decimal n) = n := by
  calc digitsValue (decimal n)
      = (Nat.toDigits 10 n).foldl
          (fun v c => 10 * v + ((UInt8.ofNat c.toNat).toNat - 48)) 0 := by
        rw [digitsValue, decimal, List.foldl_map]
    _ = (Nat.toDigits 10 n).foldl (fun v c => 10 * v + (c.toNat - '0'.toNat)) 0 := by
        apply List.foldl_ext
        intro v c hc
        rw [(byte_of_isDigit (Nat.isDigit_of_mem_toDigits (by decide) (by decide) hc)).2]
        rfl
    _ = n := by
        rw [← Nat.ofDigitChars_eq_foldl, Nat.ofDigitChars_ten_toDigits]

theorem decimal_injective : Function.Injective decimal :=
  Function.LeftInverse.injective digitsValue_decimal

/-! ## Reading back what was written -/

theorem isSpace_of_isDigit {b : UInt8} (h : isDigit b = true) : isSpace b = false := by
  simp only [isDigit, Bool.and_eq_true, decide_eq_true_eq, UInt8.le_iff_toNat_le] at h
  simp only [isSpace, Bool.or_eq_false_iff, Bool.and_eq_false_iff, decide_eq_false_iff_not,
    UInt8.le_iff_toNat_le, ← UInt8.toNat_inj]
  have hlow : 48 ≤ b.toNat := h.1
  exact ⟨by rintro heq; rw [heq] at hlow; exact absurd hlow (by decide),
    Or.inr (by intro hle; exact absurd (le_trans hlow hle) (by decide))⟩

/-- A digit is neither a space nor a sign. -/
theorem readSign_of_isDigit {b : UInt8} (h : isDigit b = true) (rest : Str) :
    readSign ((b :: rest).dropWhile isSpace) = (false, b :: rest) := by
  have hspace : (b :: rest).dropWhile isSpace = b :: rest := by
    apply List.dropWhile_cons_of_neg
    rw [isSpace_of_isDigit h]
    exact Bool.false_ne_true
  rw [hspace]
  unfold readSign
  split
  · rename_i heq
    rw [(List.cons.inj heq).1] at h
    exact absurd h (by decide)
  · rename_i heq
    rw [(List.cons.inj heq).1] at h
    exact absurd h (by decide)
  · rfl

theorem readSign_minus (rest : Str) :
    readSign ((ascii "-" ++ rest).dropWhile isSpace) = (true, rest) := rfl

/-- Digits are read up to the first byte that is not a digit. -/
theorem takeWhile_isDigit_append {digits rest : Str} (h : ∀ b ∈ digits, isDigit b = true)
    (hrest : ∀ b ∈ rest.head?, isDigit b = false) :
    (digits ++ rest).takeWhile isDigit = digits ∧ (digits ++ rest).dropWhile isDigit = rest := by
  rw [List.takeWhile_append_of_pos h, List.dropWhile_append_of_pos h]
  match rest with
  | [] => exact ⟨List.append_nil _, rfl⟩
  | b :: rest =>
    have hb : ¬ isDigit b = true := by
      rw [hrest b rfl]
      exact Bool.false_ne_true
    rw [List.takeWhile_cons_of_neg hb, List.dropWhile_cons_of_neg hb]
    exact ⟨List.append_nil _, rfl⟩

theorem readNumber_decimal (n : Nat) : readNumber (decimal n) = some (false, n) := by
  have hdigits : ∀ b ∈ decimal n, isDigit b = true := fun b hb => isDigit_of_mem_decimal hb
  obtain ⟨b, rest, hcons, hb⟩ := exists_digit_decimal n
  have hsign : readSign ((decimal n).dropWhile isSpace) = (false, decimal n) := by
    rw [hcons]
    exact readSign_of_isDigit hb rest
  simp only [readNumber, hsign, List.takeWhile_eq_self_iff.mpr hdigits,
    if_neg (decimal_ne_nil n), digitsValue_decimal]

theorem readNumber_neg (n : Nat) : readNumber (ascii "-" ++ decimal n) = some (true, n) := by
  have hdigits : ∀ b ∈ decimal n, isDigit b = true := fun b hb => isDigit_of_mem_decimal hb
  simp only [readNumber, readSign_minus, List.takeWhile_eq_self_iff.mpr hdigits,
    if_neg (decimal_ne_nil n), digitsValue_decimal]

/-- An unsigned number survives being written and read. -/
@[simp] theorem stoull_decimal (x : UInt64) : stoull (decimal x.toNat) = some x := by
  rw [stoull, readNumber_decimal]
  show (if x.toNat < 2 ^ 64 then some (UInt64.ofNat x.toNat) else none) = some x
  rw [if_pos x.toNat_lt, UInt64.ofNat_toNat]

/-- An `int` survives being written and read. -/
@[simp] theorem stoi_decimalInt (x : Int32) : stoi (decimalInt x.toInt) = some x := by
  have hrange : -2 ^ 31 ≤ x.toInt ∧ x.toInt < 2 ^ 31 := ⟨x.le_toInt, x.toInt_lt⟩
  by_cases hneg : x.toInt < 0
  · rw [decimalInt, if_pos hneg, stoi, readNumber_neg]
    have hvalue : (-(x.toInt.natAbs : Int)) = x.toInt := by omega
    show (if -2 ^ 31 ≤ -(x.toInt.natAbs : Int) ∧ -(x.toInt.natAbs : Int) < 2 ^ 31
      then some (Int32.ofInt (-(x.toInt.natAbs : Int))) else none) = some x
    rw [hvalue, if_pos hrange, Int32.ofInt_toInt]
  · rw [decimalInt, if_neg hneg, stoi, readNumber_decimal]
    have hvalue : ((x.toInt.natAbs : Int)) = x.toInt := by omega
    show (if -2 ^ 31 ≤ (x.toInt.natAbs : Int) ∧ (x.toInt.natAbs : Int) < 2 ^ 31
      then some (Int32.ofInt (x.toInt.natAbs : Int)) else none) = some x
    rw [hvalue, if_pos hrange, Int32.ofInt_toInt]

/-! ## Delimiters -/

theorem bar_not_mem_decimal (n : Nat) : bar ∉ decimal n := not_mem_decimal rfl n

theorem bar_not_mem_decimalInt (n : Int) : bar ∉ decimalInt n := by
  rw [decimalInt]
  split
  · rw [List.mem_append]
    rintro (hsign | hdigits)
    · exact absurd hsign (by decide)
    · exact bar_not_mem_decimal _ hdigits
  · exact bar_not_mem_decimal _

theorem hexDigit_ne_bar {n : Nat} (h : n < 16) : hexDigit n ≠ bar := by
  have hdigits : ∀ i : Fin 16, hexDigit i ≠ bar := by decide
  exact hdigits ⟨n, h⟩

theorem bar_not_mem_hexWord (x : UInt32) : bar ∉ hexWord x := by
  intro h
  obtain ⟨shift, _, hdigit⟩ := List.mem_map.mp h
  exact hexDigit_ne_bar (Nat.mod_lt _ (by decide)) hdigit

/-- A digest is free of delimiters. -/
theorem bar_not_mem_sha1 (s : Str) : bar ∉ sha1 s := by
  unfold sha1 Sha1Context.final
  simp only [List.mem_append, not_or]
  exact ⟨⟨⟨⟨bar_not_mem_hexWord _, bar_not_mem_hexWord _⟩, bar_not_mem_hexWord _⟩,
    bar_not_mem_hexWord _⟩, bar_not_mem_hexWord _⟩

end Blackstone.Bank
