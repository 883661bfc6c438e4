import Mathlib.Algebra.Order.Group.Int
import Mathlib.Data.List.Lex
import Mathlib.Order.Basic
import Mathlib.Tactic.Common

/-!
# Version numbers

`_parse_version` and `_compare_versions` of `main.py` in `options-manager`. A version is parsed
into the tuple of the numbers between its dots, and two tuples are compared by a loop over their
common length, then by their lengths. The loop decides the lexicographic order of the tuples
(`compareParts_eq`), so that a longer version is newer than each of its prefixes.
-/

namespace Blackstone.Updater

/-- A string. -/
abbrev Text := List Char

/-- A string literal. -/
def text (s : String) : Text := s.toList

/-- The white space that `int` strips, of the ASCII characters. -/
def isSpace (c : Char) : Bool := (9 ≤ c.toNat && c.toNat ≤ 13) || (28 ≤ c.toNat && c.toNat ≤ 32)

/-- The string without white space at its ends. -/
def strip (s : Text) : Text := ((s.dropWhile isSpace).reverse.dropWhile isSpace).reverse

/-- The number that a sequence of digits denotes. -/
def digitsValue (digits : Text) : Nat := digits.foldl (fun v c => 10 * v + (c.toNat - 48)) 0

/-- Digits with single underscores between them. -/
def readDigits (s : Text) : Option Nat :=
  if (s.splitOn '_').all fun group => !group.isEmpty && group.all Char.isDigit then
    some (digitsValue (s.splitOn '_').flatten)
  else none

/-- `int` of a string, `none` for a `ValueError`. -/
def int (s : Text) : Option Int :=
  match strip s with
  | '-' :: digits => (readDigits digits).map fun n => -(n : Int)
  | '+' :: digits => (readDigits digits).map Int.ofNat
  | digits => (readDigits digits).map Int.ofNat

/-- `_parse_version`. -/
def parseVersion (version : Text) : Option (List Int) := (version.splitOn '.').mapM int

/-- The loop of `_compare_versions`, `none` when it runs to its end. -/
def firstDifference : List (Int × Int) → Option Int
  | [] => none
  | (a, b) :: rest => if a ≠ b then some (if a > b then 1 else -1) else firstDifference rest

/-- `_compare_versions` on parsed versions. -/
def compareParts (v1 v2 : List Int) : Int :=
  match firstDifference (v1.zip v2) with
  | some result => result
  | none => if v1.length = v2.length then 0 else if v1.length > v2.length then 1 else -1

/-- `_compare_versions`, `none` for a `ValueError`. -/
def compareVersions (v1 v2 : Text) : Option Int :=
  match parseVersion v1, parseVersion v2 with
  | some parts1, some parts2 => some (compareParts parts1 parts2)
  | _, _ => none

/-- The loop goes on behind equal numbers. -/
theorem compareParts_cons_self (a : Int) (v1 v2 : List Int) :
    compareParts (a :: v1) (a :: v2) = compareParts v1 v2 := by
  unfold compareParts
  rw [List.zip_cons_cons, firstDifference, if_neg (not_not.mpr rfl)]
  simp only [List.length_cons, Nat.add_right_cancel_iff, gt_iff_lt, Nat.add_lt_add_iff_right]

theorem compareParts_cons_of_ne {a b : Int} (hne : a ≠ b) (v1 v2 : List Int) :
    compareParts (a :: v1) (b :: v2) = if a > b then 1 else -1 := by
  unfold compareParts
  rw [List.zip_cons_cons, firstDifference, if_pos hne]

/-- The comparison is that of the lexicographic order. -/
theorem compareParts_eq (v1 v2 : List Int) :
    compareParts v1 v2 = if v2 < v1 then 1 else if v1 < v2 then -1 else 0 := by
  induction v1 generalizing v2 with
  | nil =>
    cases v2 with
    | nil => simp [compareParts, firstDifference]
    | cons b v2 => simp [compareParts, firstDifference]
  | cons a v1 ih =>
    cases v2 with
    | nil => simp [compareParts, firstDifference]
    | cons b v2 =>
      by_cases hab : a = b
      · subst hab
        rw [compareParts_cons_self, ih]
        simp only [List.cons_lt_cons_iff, lt_irrefl, false_or, true_and]
      · rw [compareParts_cons_of_ne hab]
        rcases lt_or_gt_of_ne hab with hlt | hgt
        · have hv : a :: v1 < b :: v2 := List.cons_lt_cons_iff.mpr (Or.inl hlt)
          rw [if_neg (not_lt.mpr hlt.le), if_neg (not_lt.mpr hv.le), if_pos hv]
        · have hv : b :: v2 < a :: v1 := List.cons_lt_cons_iff.mpr (Or.inl hgt)
          rw [if_pos hgt, if_pos hv]

theorem compareParts_pos_iff (v1 v2 : List Int) : compareParts v1 v2 > 0 ↔ v2 < v1 := by
  rw [compareParts_eq]
  split_ifs with hgt hlt
  · exact iff_of_true (by decide) hgt
  · exact iff_of_false (by decide) hgt
  · exact iff_of_false (by decide) hgt

/-- A version is newer: both parse, and the parsed tuple is greater. -/
def Newer (v1 v2 : Text) : Prop :=
  ∃ parts1 parts2, parseVersion v1 = some parts1 ∧ parseVersion v2 = some parts2 ∧ parts2 < parts1

theorem newer_iff (v1 v2 : Text) : Newer v1 v2 ↔ ∃ result, compareVersions v1 v2 = some result ∧
    result > 0 := by
  unfold compareVersions Newer
  cases parseVersion v1 with
  | none => simp
  | some parts1 =>
    cases parseVersion v2 with
    | none => simp
    | some parts2 => simp [compareParts_pos_iff]

theorem Newer.trans {v1 v2 v3 : Text} (h : Newer v1 v2) (h' : Newer v2 v3) : Newer v1 v3 := by
  obtain ⟨parts1, parts2, h1, h2, hlt⟩ := h
  obtain ⟨parts2', parts3, h2', h3, hlt'⟩ := h'
  obtain rfl := Option.some.inj (h2.symm.trans h2')
  exact ⟨parts1, parts3, h1, h3, hlt'.trans hlt⟩

theorem Newer.irrefl (v : Text) : ¬Newer v v := by
  rintro ⟨parts1, parts2, h1, h2, hlt⟩
  obtain rfl := Option.some.inj (h1.symm.trans h2)
  exact lt_irrefl _ hlt

/-- The texts of two versions are not ordered as the versions are. -/
example : Newer (text "10.0.0") (text "9.0.0") ∧ text "10.0.0" < text "9.0.0" := by
  refine ⟨⟨[10, 0, 0], [9, 0, 0], by decide, by decide, by decide⟩, by decide⟩

end Blackstone.Updater
