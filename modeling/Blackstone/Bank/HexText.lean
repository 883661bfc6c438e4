import Blackstone.Bank.Text
import Mathlib.Data.Nat.Digits.Defs

/-!
# Hexadecimal text

`std::hex` writes an unsigned number in the digits `0` to `f`, and `std::stoull` and `std::stoi`
with base 16 read one, after spaces, a sign and an optional `0x`. A number that was written is
read back exactly (`stoullHex_hexadecimal`).
-/

namespace Blackstone.Bank

/-- An unsigned number written to a stream after `std::hex`. -/
def hexadecimal (n : Nat) : Str :=
  if n = 0 then [hexDigit 0] else (Nat.digits 16 n).reverse.map hexDigit

/-- `isxdigit`. -/
def isHexDigit (b : UInt8) : Bool := isDigit b || (97 ≤ b && b ≤ 102) || (65 ≤ b && b ≤ 70)

/-- The value of a hexadecimal digit. -/
def hexValue (b : UInt8) : Nat :=
  if isDigit b then b.toNat - 48 else if 97 ≤ b then b.toNat - 87 else b.toNat - 55

/-- The number that a sequence of hexadecimal digits denotes. -/
def hexDigitsValue (digits : Str) : Nat := digits.foldl (fun v b => 16 * v + hexValue b) 0

/-- A `0x` is skipped if a digit follows it. -/
def skipPrefix : Str → Str
  | 48 :: x :: b :: text =>
    if (x = 120 ∨ x = 88) ∧ isHexDigit b then b :: text else 48 :: x :: b :: text
  | text => text

/-- `strtol` and `strtoull` with base 16 before their range checks. -/
def readHexNumber (text : Str) : Option (Bool × Nat) :=
  let signed := readSign (text.dropWhile isSpace)
  let digits := (skipPrefix signed.2).takeWhile isHexDigit
  if digits = [] then none else some (signed.1, hexDigitsValue digits)

/-- `std::stoi` with base 16. -/
def stoiHex (text : Str) : Option Int32 :=
  match readHexNumber text with
  | none => none
  | some (negative, n) =>
    let value : Int := if negative then -n else n
    if -2 ^ 31 ≤ value ∧ value < 2 ^ 31 then some (Int32.ofInt value) else none

/-- `std::stoull` with base 16. -/
def stoullHex (text : Str) : Option UInt64 :=
  match readHexNumber text with
  | none => none
  | some (negative, n) =>
    if n < 2 ^ 64 then some (if negative then -UInt64.ofNat n else UInt64.ofNat n) else none

/-! ## Digits -/

/-- The digits `0` to `9` and `a` to `f`. -/
def LowerHex (text : Str) : Prop := ∀ b ∈ text, ∃ i < 16, b = hexDigit i

theorem hexDigit_facts {i : Nat} (hi : i < 16) :
    isHexDigit (hexDigit i) = true ∧ hexValue (hexDigit i) = i ∧
      isSpace (hexDigit i) = false ∧ hexDigit i ≠ 45 ∧ hexDigit i ≠ 43 ∧
      hexDigit i ≠ 120 ∧ hexDigit i ≠ 88 ∧ hexDigit i ≠ colon := by
  have hall : ∀ i : Fin 16, isHexDigit (hexDigit i) = true ∧ hexValue (hexDigit i) = i ∧
      isSpace (hexDigit i) = false ∧ hexDigit i ≠ 45 ∧ hexDigit i ≠ 43 ∧
      hexDigit i ≠ 120 ∧ hexDigit i ≠ 88 ∧ hexDigit i ≠ colon := by decide
  exact hall ⟨i, hi⟩

theorem lowerHex_hexadecimal (n : Nat) : LowerHex (hexadecimal n) := by
  intro b hb
  rw [hexadecimal] at hb
  split at hb
  · exact ⟨0, by decide, List.mem_singleton.mp hb⟩
  · obtain ⟨i, hi, rfl⟩ := List.mem_map.mp hb
    exact ⟨i, Nat.digits_lt_base (by decide) (List.mem_reverse.mp hi), rfl⟩

theorem lowerHex_append {a b : Str} (ha : LowerHex a) (hb : LowerHex b) : LowerHex (a ++ b) :=
  fun c hc => (List.mem_append.mp hc).elim (ha c) (hb c)

theorem lowerHex_hexWord (x : UInt32) : LowerHex (hexWord x) := by
  intro b hb
  obtain ⟨s, -, rfl⟩ := List.mem_map.mp hb
  exact ⟨x.toNat / 2 ^ s % 16, Nat.mod_lt _ (by decide), rfl⟩

/-- A digest is written in hexadecimal digits. -/
theorem lowerHex_sha1 (s : Str) : LowerHex (sha1 s) := by
  unfold sha1 Sha1Context.final
  repeat' apply lowerHex_append
  all_goals exact lowerHex_hexWord _

theorem hexadecimal_ne_nil (n : Nat) : hexadecimal n ≠ [] := by
  rw [hexadecimal]
  split
  · exact List.cons_ne_nil _ _
  · rename_i hn
    rw [ne_eq, List.map_eq_nil_iff, List.reverse_eq_nil_iff, Nat.digits_eq_nil_iff_eq_zero]
    exact hn

theorem foldl_hexDigit {digits : List Nat} (h : ∀ i ∈ digits, i < 16) (v : Nat) :
    (digits.map hexDigit).foldl (fun v b => 16 * v + hexValue b) v =
      digits.foldl (fun v d => 16 * v + d) v := by
  induction digits generalizing v with
  | nil => rfl
  | cons d digits ih =>
    rw [List.map_cons, List.foldl_cons, List.foldl_cons,
      (hexDigit_facts (h d List.mem_cons_self)).2.1,
      ih (fun i hi => h i (List.mem_cons_of_mem _ hi))]

theorem hexDigitsValue_hexadecimal (n : Nat) : hexDigitsValue (hexadecimal n) = n := by
  rw [hexDigitsValue, hexadecimal]
  split
  · rename_i hn
    rw [hn]
    rfl
  · have hdigits : ∀ i ∈ (Nat.digits 16 n).reverse, i < 16 := fun i hi =>
      Nat.digits_lt_base (by decide) (List.mem_reverse.mp hi)
    calc ((Nat.digits 16 n).reverse.map hexDigit).foldl (fun v b => 16 * v + hexValue b) 0
        = (Nat.digits 16 n).reverse.foldl (fun v d => 16 * v + d) 0 := foldl_hexDigit hdigits 0
      _ = Nat.ofDigits 16 (Nat.digits 16 n) := by
          rw [List.foldl_reverse, Nat.ofDigits_eq_foldr]
          congr 1
          funext d v
          exact Nat.add_comm _ _
      _ = n := Nat.ofDigits_digits 16 n

/-! ## Reading back what was written -/

theorem LowerHex.isHexDigit {text : Str} (h : LowerHex text) :
    ∀ b ∈ text, isHexDigit b = true := by
  intro b hb
  obtain ⟨i, hi, rfl⟩ := h b hb
  exact (hexDigit_facts hi).1

theorem LowerHex.skipPrefix {text : Str} (h : LowerHex text) : skipPrefix text = text := by
  unfold Bank.skipPrefix
  split
  · rename_i x b rest
    obtain ⟨i, hi, hx⟩ := h x (List.mem_cons_of_mem _ List.mem_cons_self)
    obtain ⟨-, -, -, -, -, hlower, hupper, -⟩ := hexDigit_facts hi
    rw [← hx] at hlower hupper
    exact if_neg (fun hprefix => hprefix.1.elim hlower hupper)
  · rfl

/-- A digit is neither a space nor a sign. -/
theorem LowerHex.readSign {text : Str} (h : LowerHex text) (hne : text ≠ []) :
    readSign (text.dropWhile isSpace) = (false, text) := by
  obtain ⟨b, rest, rfl⟩ := List.exists_cons_of_ne_nil hne
  obtain ⟨i, hi, rfl⟩ := h b List.mem_cons_self
  obtain ⟨-, -, hspace, hminus, hplus, -⟩ := hexDigit_facts hi
  rw [List.dropWhile_cons_of_neg (by rw [hspace]; exact Bool.false_ne_true)]
  unfold Bank.readSign
  split
  · rename_i heq
    exact absurd (List.cons.inj heq).1 hminus
  · rename_i heq
    exact absurd (List.cons.inj heq).1 hplus
  · rfl

theorem readHexNumber_of_lowerHex {text : Str} (h : LowerHex text) (hne : text ≠ []) :
    readHexNumber text = some (false, hexDigitsValue text) := by
  simp only [readHexNumber, h.readSign hne, h.skipPrefix,
    List.takeWhile_eq_self_iff.mpr h.isHexDigit, if_neg hne]

/-- An unsigned number survives being written and read. -/
@[simp] theorem stoullHex_hexadecimal (x : UInt64) :
    stoullHex (hexadecimal x.toNat) = some x := by
  rw [stoullHex, readHexNumber_of_lowerHex (lowerHex_hexadecimal _) (hexadecimal_ne_nil _),
    hexDigitsValue_hexadecimal]
  show (if x.toNat < 2 ^ 64 then some (UInt64.ofNat x.toNat) else none) = some x
  rw [if_pos x.toNat_lt, UInt64.ofNat_toNat]

end Blackstone.Bank
