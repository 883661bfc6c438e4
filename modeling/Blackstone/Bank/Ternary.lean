import Blackstone.Bank.Text
import Mathlib.Data.Nat.Digits.Defs

/-!
# The ternary code

`encodeBinary` and `decodeTernary` of `ternary.cpp`. A byte becomes its ternary digits and
a bar. Decoding undoes encoding (`decodeTernary_encodeBinary`). When an encoded text is cut
into pieces and the pieces are decoded one by one, every bar still yields one byte, and only
the first byte of a piece can be wrong (`decode_pieces`).
-/

namespace Blackstone.Bank

/-- `TernaryCodingSystem::toTernary`, most significant digit first. -/
def toTernary (n : UInt64) : List Nat :=
  if n = 0 then [0] else (Nat.digits 3 n.toNat).reverse

/-- `TernaryCodingSystem::fromTernary`. -/
def fromTernary (t : List Nat) : UInt64 := t.foldl (fun v d => v * 3 + UInt64.ofNat d) 0

/-- The digits of a byte and a bar. -/
def encodeByte (c : UInt8) : Str :=
  (toTernary c.toUInt64).map (fun x => UInt8.ofNat (48 + x)) ++ [bar]

/-- `TernaryCodingSystem::encodeBinary`. -/
def encodeBinary (data : Str) : Str := data.flatMap encodeByte

/-- A character `'0'`, `'1'` or `'2'`. -/
def isTernaryDigit (ch : UInt8) : Bool := 48 ≤ ch && ch ≤ 50

/-- The loop of `TernaryCodingSystem::decodeTernary`, with the digits `cur` read so far. -/
def decodeLoop (cur : List Nat) : Str → Str
  | [] => []
  | ch :: enc =>
    if ch = bar then (fromTernary cur).toUInt8 :: decodeLoop [] enc
    else if isTernaryDigit ch then decodeLoop (cur ++ [ch.toNat - 48]) enc
    else decodeLoop cur enc

/-- `TernaryCodingSystem::decodeTernary`. -/
def decodeTernary (enc : Str) : Str := decodeLoop [] enc

/-! ## Numbers -/

theorem foldl_ofNat (t : List Nat) (v : Nat) :
    t.foldl (fun v d => v * 3 + UInt64.ofNat d) (UInt64.ofNat v) =
      UInt64.ofNat (t.foldl (fun v d => v * 3 + d) v) := by
  induction t generalizing v with
  | nil => rfl
  | cons d t ih =>
    rw [List.foldl_cons, List.foldl_cons, ← ih, UInt64.ofNat_add, UInt64.ofNat_mul]
    rfl

theorem fromTernary_toTernary (n : UInt64) : fromTernary (toTernary n) = n := by
  rw [toTernary]
  split
  · rename_i hzero
    rw [hzero]
    rfl
  · calc fromTernary (Nat.digits 3 n.toNat).reverse
        = UInt64.ofNat ((Nat.digits 3 n.toNat).reverse.foldl (fun v d => v * 3 + d) 0) :=
          foldl_ofNat _ 0
      _ = UInt64.ofNat (Nat.ofDigits 3 (Nat.digits 3 n.toNat)) := by
          rw [List.foldl_reverse, Nat.ofDigits_eq_foldr]
          congr 2
          funext d v
          simp [Nat.mul_comm, Nat.add_comm]
      _ = n := by rw [Nat.ofDigits_digits, UInt64.ofNat_toNat]

theorem lt_three_of_mem_toTernary {n : UInt64} {x : Nat} (h : x ∈ toTernary n) : x < 3 := by
  rw [toTernary] at h
  split at h
  · rw [List.mem_singleton.mp h]
    decide
  · exact Nat.digits_lt_base (by decide) (List.mem_reverse.mp h)

/-! ## Decoding what was encoded -/

theorem decodeLoop_digits {digits : List Nat} (h : ∀ x ∈ digits, x < 3) (cur : List Nat)
    (enc : Str) :
    decodeLoop cur (digits.map (fun x => UInt8.ofNat (48 + x)) ++ enc) =
      decodeLoop (cur ++ digits) enc := by
  induction digits generalizing cur with
  | nil => rw [List.map_nil, List.nil_append, List.append_nil]
  | cons x digits ih =>
    have hx : x < 3 := h x List.mem_cons_self
    have hdigit : ∀ i : Fin 3, UInt8.ofNat (48 + i) ≠ bar ∧
        isTernaryDigit (UInt8.ofNat (48 + i)) = true ∧
        (UInt8.ofNat (48 + i)).toNat - 48 = i := by
      decide
    obtain ⟨hbar, hternary, hvalue⟩ := hdigit ⟨x, hx⟩
    rw [List.map_cons, List.cons_append, decodeLoop, if_neg hbar, if_pos hternary, hvalue,
      ih (fun y hy => h y (List.mem_cons_of_mem _ hy)), List.append_assoc, List.singleton_append]

theorem decodeLoop_encodeByte (c : UInt8) (enc : Str) :
    decodeLoop [] (encodeByte c ++ enc) = c :: decodeLoop [] enc := by
  rw [encodeByte, List.append_assoc,
    decodeLoop_digits (fun _ hx => lt_three_of_mem_toTernary hx), List.nil_append,
    List.singleton_append, decodeLoop, if_pos rfl, fromTernary_toTernary]
  rw [UInt8.toUInt8_toUInt64]

/-- Decoding undoes encoding. -/
@[simp] theorem decodeTernary_encodeBinary (data : Str) :
    decodeTernary (encodeBinary data) = data := by
  induction data with
  | nil => rfl
  | cons c data ih =>
    rw [decodeTernary, encodeBinary, List.flatMap_cons, decodeLoop_encodeByte]
    exact congrArg (c :: ·) ih

/-! ## Decoding pieces -/

/-- The digits that the loop has read after the last bar. -/
def leftover (cur : List Nat) : Str → List Nat
  | [] => cur
  | ch :: enc =>
    if ch = bar then leftover [] enc
    else if isTernaryDigit ch then leftover (cur ++ [ch.toNat - 48]) enc
    else leftover cur enc

theorem decodeLoop_append (cur : List Nat) (a b : Str) :
    decodeLoop cur (a ++ b) = decodeLoop cur a ++ decodeLoop (leftover cur a) b := by
  induction a generalizing cur with
  | nil => rfl
  | cons ch a ih =>
    simp only [List.cons_append, decodeLoop, leftover]
    split
    · rw [ih, List.cons_append]
    · split
      · exact ih _
      · exact ih _

/-- Digits from before a text only matter for the first byte. -/
theorem decodeLoop_tail (cur cur' : List Nat) (enc : Str) :
    (decodeLoop cur enc).tail = (decodeLoop cur' enc).tail ∧
      (decodeLoop cur enc).length = (decodeLoop cur' enc).length := by
  induction enc generalizing cur cur' with
  | nil => exact ⟨rfl, rfl⟩
  | cons ch enc ih =>
    simp only [decodeLoop]
    split
    · exact ⟨rfl, rfl⟩
    · split
      · exact ih _ _
      · exact ih _ _

/-- Every bar yields one byte. -/
theorem length_decodeLoop (cur : List Nat) (enc : Str) :
    (decodeLoop cur enc).length = enc.count bar := by
  induction enc generalizing cur with
  | nil => rfl
  | cons ch enc ih =>
    rw [decodeLoop]
    by_cases hbar : ch = bar
    · rw [if_pos hbar, hbar, List.length_cons, ih, List.count_cons_self]
    · rw [if_neg hbar, List.count_cons_of_ne hbar]
      split
      · exact ih _
      · exact ih _

/-- The digits that stand before the first bar. -/
def digitsBefore (enc : Str) : List Nat :=
  ((enc.takeWhile (· ≠ bar)).filter isTernaryDigit).map (fun ch => ch.toNat - 48)

/-- The byte that the first bar yields. -/
def firstByte (enc : Str) : UInt8 := (fromTernary (digitsBefore enc)).toUInt8

theorem decodeLoop_head (cur : List Nat) {enc : Str} (h : bar ∈ enc) :
    ∃ rest, decodeLoop cur enc = (fromTernary (cur ++ digitsBefore enc)).toUInt8 :: rest := by
  induction enc generalizing cur with
  | nil => cases h
  | cons ch enc ih =>
    by_cases hbar : ch = bar
    · have hdigits : digitsBefore (ch :: enc) = [] := by
        rw [digitsBefore, List.takeWhile_cons_of_neg (by simpa using hbar)]
        rfl
      refine ⟨decodeLoop [] enc, ?_⟩
      rw [decodeLoop, if_pos hbar, hdigits, List.append_nil]
    · have hmem : bar ∈ enc := (List.mem_cons.mp h).resolve_left (Ne.symm hbar)
      rw [decodeLoop, if_neg hbar, digitsBefore,
        List.takeWhile_cons_of_pos (by simpa using hbar), List.filter_cons]
      split
      · have hnext := ih (cur ++ [ch.toNat - 48]) hmem
        rw [List.append_assoc, List.singleton_append] at hnext
        exact hnext
      · exact ih _ hmem

/-- A byte string that can differ from another one in its first byte only. -/
def AlikeAfterFirst (d e : Str) : Prop := d.tail = e.tail ∧ d.length = e.length

/-- What is decoded piece by piece differs from the whole in the first bytes of the pieces
only. -/
theorem decode_pieces (pieces : List Str) (cur : List Nat) :
    ∃ parts : List Str, parts.flatten = decodeLoop cur pieces.flatten ∧
      List.Forall₂ AlikeAfterFirst (pieces.map decodeTernary) parts := by
  induction pieces generalizing cur with
  | nil => exact ⟨[], rfl, List.Forall₂.nil⟩
  | cons piece pieces ih =>
    obtain ⟨parts, hflatten, halike⟩ := ih (leftover cur piece)
    refine ⟨decodeLoop cur piece :: parts, ?_,
      List.Forall₂.cons (decodeLoop_tail [] cur piece) halike⟩
    rw [List.flatten_cons, List.flatten_cons, decodeLoop_append, hflatten]

theorem encodeBinary_append (a b : Str) :
    encodeBinary (a ++ b) = encodeBinary a ++ encodeBinary b :=
  List.flatMap_append

/-! ## Characters that are passed over -/

/-- `enc'` is `enc` with characters inserted that are neither digits nor bars. -/
inductive Inserted : Str → Str → Prop
  | nil : Inserted [] []
  | keep (ch : UInt8) {enc enc' : Str} (h : Inserted enc enc') : Inserted (ch :: enc) (ch :: enc')
  | insert {ch : UInt8} (hbar : ch ≠ bar) (hdigit : isTernaryDigit ch = false) {enc enc' : Str}
      (h : Inserted enc enc') : Inserted enc (ch :: enc')

theorem decodeTernary_of_inserted {enc enc' : Str} (h : Inserted enc enc') :
    decodeTernary enc' = decodeTernary enc := by
  have hloop : ∀ cur, decodeLoop cur enc' = decodeLoop cur enc := by
    induction h with
    | nil => exact fun _ => rfl
    | keep ch _ ih =>
      intro cur
      rw [decodeLoop, decodeLoop, ih, ih, ih]
    | insert hbar hdigit _ ih =>
      intro cur
      rw [decodeLoop, if_neg hbar, hdigit]
      exact ih cur
  exact hloop []

end Blackstone.Bank
