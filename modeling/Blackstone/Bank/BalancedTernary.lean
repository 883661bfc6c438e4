import Blackstone.Bank.Ternary

/-!
# Balanced ternary

`toBalancedTernary` and `fromBalancedTernary` of `ternary.cpp` on the numbers of `int64_t`, where
an overflow has no result, and the texts that `encodeBalanced` makes of bytes. A number is written
and read back unless it is the least one, from which the loop subtracts one (`exact_iff`).
-/

namespace Blackstone.Bank

/-! ## Numbers -/

/-- A value of `int64_t`. -/
def FitsInt64 (n : ℤ) : Prop := -2 ^ 63 ≤ n ∧ n < 2 ^ 63

instance (n : ℤ) : Decidable (FitsInt64 n) := inferInstanceAs (Decidable (_ ∧ _))

/-- What an operation on `int64_t` returns; `none` is an overflow. -/
def checked (n : ℤ) : Option ℤ := if FitsInt64 n then some n else none

/-- A digit of balanced ternary. -/
def IsTrit (d : ℤ) : Prop := d = -1 ∨ d = 0 ∨ d = 1

/-- The digit that one pass of the loop adds, and the number that it divides then. -/
def balancedDigit (n : ℤ) : ℤ × ℤ :=
  let r := n.tmod 3
  if r = 2 then (-1, n + 1)
  else if r = -2 then (1, n - 1)
  else (r, n)

/-- The number with which the loop goes on. -/
def balancedQuotient (n : ℤ) : ℤ := (balancedDigit n).2.tdiv 3

/-- `%` and `/` of the source, which round towards zero. -/
theorem tdiv_tmod_three (n : ℤ) :
    3 * n.tdiv 3 + n.tmod 3 = n ∧ -3 < n.tmod 3 ∧ n.tmod 3 < 3 ∧
      (0 ≤ n → 0 ≤ n.tmod 3) ∧ (n ≤ 0 → n.tmod 3 ≤ 0) := by
  refine ⟨Int.mul_tdiv_add_tmod n 3, Int.lt_tmod_of_pos n (by decide),
    Int.tmod_lt_of_pos n (by decide), Int.tmod_nonneg 3, ?_⟩
  intro hn
  have hneg := Int.tmod_nonneg 3 (Int.neg_nonneg.mpr hn)
  rw [Int.neg_tmod] at hneg
  exact Int.neg_nonneg.mp hneg

/-- One pass of the loop: a digit and a quotient that make up the number. -/
theorem balancedDigit_spec (n : ℤ) :
    IsTrit (balancedDigit n).1 ∧ 3 * balancedQuotient n + (balancedDigit n).1 = n := by
  have hn := tdiv_tmod_three n
  rw [balancedQuotient, balancedDigit]
  split_ifs with htwo hminus
  · have hnext := tdiv_tmod_three (n + 1)
    exact ⟨Or.inl rfl, by dsimp only; omega⟩
  · have hnext := tdiv_tmod_three (n - 1)
    exact ⟨Or.inr (Or.inr rfl), by dsimp only; omega⟩
  · exact ⟨by rw [IsTrit]; dsimp only; omega, hn.1⟩

theorem natAbs_balancedQuotient_lt {n : ℤ} (hn : n ≠ 0) :
    (balancedQuotient n).natAbs < n.natAbs := by
  obtain ⟨htrit, hsum⟩ := balancedDigit_spec n
  rw [IsTrit] at htrit
  omega

/-- The loop of `TernaryCodingSystem::toBalancedTernary`, least significant digit first. -/
def balancedDigits (n : ℤ) : Option (List ℤ) :=
  if n = 0 then some []
  else if FitsInt64 (balancedDigit n).2 then
    (balancedDigits (balancedQuotient n)).map ((balancedDigit n).1 :: ·)
  else none
termination_by n.natAbs
decreasing_by exact natAbs_balancedQuotient_lt ‹_›

/-- `TernaryCodingSystem::toBalancedTernary`, most significant digit first. -/
def toBalancedTernary (n : ℤ) : Option (List ℤ) :=
  (balancedDigits n).map fun res => if res = [] then [0] else res.reverse

/-- `TernaryCodingSystem::fromBalancedTernary`. -/
def fromBalancedTernary (t : List ℤ) : Option ℤ :=
  t.foldlM (fun v d => (checked (v * 3)).bind fun v => checked (v + d)) 0

/-! ## Numbers that are written without an overflow -/

theorem checked_of_fits {n : ℤ} (h : FitsInt64 n) : checked n = some n := if_pos h

/-- Only the least number is too small for its correction. -/
theorem fits_balancedDigit {n : ℤ} (hn : FitsInt64 n) (hmin : n ≠ -2 ^ 63) :
    FitsInt64 (balancedDigit n).2 := by
  have hparts := tdiv_tmod_three n
  rw [FitsInt64] at hn
  rw [balancedDigit, FitsInt64]
  split_ifs <;> dsimp only <;> omega

/-- The number that is divided by three can be put together again. -/
theorem fits_three_mul {n : ℤ} (hn : FitsInt64 (balancedDigit n).2) :
    FitsInt64 (balancedQuotient n * 3) ∧ FitsInt64 (balancedQuotient n) ∧
      balancedQuotient n ≠ -2 ^ 63 := by
  have hparts := tdiv_tmod_three (balancedDigit n).2
  rw [FitsInt64] at hn
  simp only [FitsInt64, balancedQuotient]
  omega

/-- Numbers are written in trits, the most significant one of which is not zero. -/
theorem balancedDigits_spec (n : ℤ) (hn : FitsInt64 n) (hmin : n ≠ -2 ^ 63) :
    ∃ t, balancedDigits n = some t ∧ (∀ d ∈ t, IsTrit d) ∧
      fromBalancedTernary t.reverse = some n ∧
      (n ≠ 0 → ∃ d, t.getLast? = some d ∧ d ≠ 0) := by
  induction hlt : n.natAbs using Nat.strong_induction_on generalizing n with
  | _ k ih =>
    by_cases hzero : n = 0
    · subst hzero
      rw [balancedDigits, if_pos rfl]
      exact ⟨[], rfl, fun _ hd => absurd hd List.not_mem_nil, rfl, fun h => absurd rfl h⟩
    · have hdivided := fits_balancedDigit hn hmin
      obtain ⟨htriple, hquotient, hmin'⟩ := fits_three_mul hdivided
      obtain ⟨htrit, hsum⟩ := balancedDigit_spec n
      obtain ⟨t, hdigits, htrits, hvalue, hlast⟩ := ih _
        (hlt ▸ natAbs_balancedQuotient_lt hzero) (balancedQuotient n) hquotient hmin' rfl
      refine ⟨(balancedDigit n).1 :: t, ?_, ?_, ?_, ?_⟩
      · rw [balancedDigits, if_neg hzero, if_pos hdivided, hdigits, Option.map_some]
      · exact List.forall_mem_cons.mpr ⟨htrit, htrits⟩
      · rw [fromBalancedTernary] at hvalue
        have hn' : balancedQuotient n * 3 + (balancedDigit n).1 = n := by omega
        rw [List.reverse_cons, fromBalancedTernary, List.foldlM_append, hvalue]
        simp only [List.foldlM_cons, List.foldlM_nil, Option.bind_eq_bind, Option.bind_some,
          checked_of_fits htriple, hn', checked_of_fits hn, Option.pure_def]
      · intro _
        by_cases hrest : balancedQuotient n = 0
        · rw [hrest, balancedDigits, if_pos rfl, Option.some_inj] at hdigits
          refine ⟨(balancedDigit n).1, by rw [← hdigits]; rfl, ?_⟩
          omega
        · obtain ⟨d, hd, hne⟩ := hlast hrest
          refine ⟨d, ?_, hne⟩
          rw [List.getLast?_cons, hd]
          rfl

/-- The number is written in trits without an overflow, the leading one is not zero unless the
number is, and the number is read back without an overflow. -/
def WritesExactly (n : ℤ) : Prop :=
  ∃ t, toBalancedTernary n = some t ∧ (∀ d ∈ t, IsTrit d) ∧
    (n ≠ 0 → ∃ d, t.head? = some d ∧ d ≠ 0) ∧ fromBalancedTernary t = some n

theorem writesExactly_of_fits {n : ℤ} (hn : FitsInt64 n) (hmin : n ≠ -2 ^ 63) :
    WritesExactly n := by
  obtain ⟨t, hdigits, htrits, hvalue, hlast⟩ := balancedDigits_spec n hn hmin
  by_cases hempty : t = []
  · have hzero : n = 0 := by
      by_contra hne
      obtain ⟨d, hd, -⟩ := hlast hne
      rw [hempty] at hd
      cases hd
    refine ⟨[0], ?_, ?_, fun hne => absurd hzero hne, by rw [hzero]; rfl⟩
    · rw [toBalancedTernary, hdigits, Option.map_some, if_pos hempty]
    · exact List.forall_mem_singleton.mpr (Or.inr (Or.inl rfl))
  · refine ⟨t.reverse, ?_, ?_, ?_, hvalue⟩
    · rw [toBalancedTernary, hdigits, Option.map_some, if_neg hempty]
    · exact fun d hd => htrits d (List.mem_reverse.mp hd)
    · rw [List.head?_reverse]
      exact hlast

/-- The loop subtracts one from the least number. -/
theorem not_writesExactly_least : ¬ WritesExactly (-2 ^ 63) := by
  rintro ⟨t, hdigits, -⟩
  have hoverflow : ¬ FitsInt64 (balancedDigit (-2 ^ 63)).2 := by decide
  rw [toBalancedTernary, balancedDigits, if_neg (by decide), if_neg hoverflow] at hdigits
  cases hdigits

/-- Every number of `int64_t` but the least one is written and read back. -/
theorem writesExactly_iff (n : Int64) : WritesExactly n.toInt ↔ n ≠ Int64.minValue := by
  constructor
  · rintro hwrites rfl
    exact not_writesExactly_least hwrites
  · intro hne
    refine writesExactly_of_fits ⟨n.le_toInt, n.toInt_lt⟩ ?_
    intro hmin
    exact hne (Int64.toInt_inj.mp hmin)

theorem not_writesExactly_minValue : ¬ WritesExactly Int64.minValue.toInt :=
  not_writesExactly_least

/-! ## Texts -/

/-- The character of a digit. -/
def balancedChar (x : ℤ) : UInt8 := if x = -1 then 84 else UInt8.ofInt (48 + x)

/-- The digits of a byte and a bar. -/
def encodeBalancedByte (c : UInt8) : Option Str :=
  (toBalancedTernary c.toNat).map fun t => t.map balancedChar ++ [bar]

/-- `TernaryCodingSystem::encodeBalanced`. -/
def encodeBalanced (data : Str) : Option Str := (data.mapM encodeBalancedByte).map List.flatten

/-- The loop of `TernaryCodingSystem::decodeBalanced`, with the digits `cur` read so far. -/
def decodeBalancedLoop (cur : List ℤ) : Str → Option Str
  | [] => some []
  | ch :: enc =>
    if ch = bar then do
      let v ← fromBalancedTernary cur
      let out ← decodeBalancedLoop [] enc
      return UInt8.ofInt v :: out
    else if ch = 84 then decodeBalancedLoop (cur ++ [-1]) enc
    else if isTernaryDigit ch then decodeBalancedLoop (cur ++ [(ch.toNat : ℤ) - 48]) enc
    else decodeBalancedLoop cur enc

/-- `TernaryCodingSystem::decodeBalanced`. -/
def decodeBalanced (enc : Str) : Option Str := decodeBalancedLoop [] enc

theorem decodeBalancedLoop_digits {digits : List ℤ} (h : ∀ x ∈ digits, IsTrit x) (cur : List ℤ)
    (enc : Str) :
    decodeBalancedLoop cur (digits.map balancedChar ++ enc) =
      decodeBalancedLoop (cur ++ digits) enc := by
  induction digits generalizing cur with
  | nil => rw [List.map_nil, List.nil_append, List.append_nil]
  | cons x digits ih =>
    have hstep : decodeBalancedLoop cur (balancedChar x :: (digits.map balancedChar ++ enc)) =
        decodeBalancedLoop (cur ++ [x]) (digits.map balancedChar ++ enc) := by
      rcases h x List.mem_cons_self with rfl | rfl | rfl
      · rfl
      · rfl
      · rfl
    rw [List.map_cons, List.cons_append, hstep,
      ih (fun y hy => h y (List.mem_cons_of_mem _ hy)), List.append_assoc, List.singleton_append]

/-- A byte is written and read back. -/
theorem decodeBalancedLoop_encodeBalancedByte (c : UInt8) :
    ∃ text, encodeBalancedByte c = some text ∧ ∀ enc,
      decodeBalancedLoop [] (text ++ enc) = (decodeBalancedLoop [] enc).map (c :: ·) := by
  have hc : c.toNat < 256 := c.toNat_lt
  have hfits : FitsInt64 (c.toNat : ℤ) := ⟨by omega, by omega⟩
  obtain ⟨t, hdigits, htrits, -, hvalue⟩ := writesExactly_of_fits hfits (by omega)
  have hbyte : UInt8.ofInt (c.toNat : ℤ) = c := by
    have hmod : ((c.toNat : ℤ) % 2 ^ 8).toNat = c.toNat := by omega
    rw [UInt8.ofInt, hmod, UInt8.ofNat_toNat]
  refine ⟨t.map balancedChar ++ [bar], ?_, fun enc => ?_⟩
  · rw [encodeBalancedByte, hdigits, Option.map_some]
  · rw [List.append_assoc, decodeBalancedLoop_digits htrits, List.nil_append,
      List.singleton_append, decodeBalancedLoop, if_pos rfl, hvalue]
    cases decodeBalancedLoop [] enc with
    | none => rfl
    | some out =>
      simp only [Option.bind_eq_bind, Option.bind_some, hbyte, Option.map_some, Option.pure_def]

theorem encodeBalanced_cons (c : UInt8) (data : Str) :
    encodeBalanced (c :: data) =
      (encodeBalancedByte c).bind fun text => (encodeBalanced data).map (text ++ ·) := by
  rw [encodeBalanced, encodeBalanced, List.mapM_cons]
  cases encodeBalancedByte c with
  | none => rfl
  | some text =>
    cases data.mapM encodeBalancedByte with
    | none => rfl
    | some rest => rfl

/-- Decoding undoes encoding in balanced ternary, too. -/
theorem decodeBalanced_encodeBalanced (data : Str) :
    ∃ enc, encodeBalanced data = some enc ∧ decodeBalanced enc = some data := by
  induction data with
  | nil => exact ⟨[], rfl, rfl⟩
  | cons c data ih =>
    obtain ⟨enc, hencode, hdecode⟩ := ih
    obtain ⟨text, htext, hread⟩ := decodeBalancedLoop_encodeBalancedByte c
    refine ⟨text ++ enc, ?_, ?_⟩
    · rw [encodeBalanced_cons, htext, Option.bind_some, hencode, Option.map_some]
    · rw [decodeBalanced] at hdecode ⊢
      rw [hread, hdecode, Option.map_some]

/-- The two codes are undone by decoding, texts in ternary can be put together, and characters that
are neither digits nor bars do not matter. -/
theorem ternary_codes :
    (∀ data, decodeTernary (encodeBinary data) = data) ∧
      (∀ data, (encodeBalanced data).bind decodeBalanced = some data) ∧
      (∀ a b, encodeBinary (a ++ b) = encodeBinary a ++ encodeBinary b) ∧
      ∀ enc enc', Inserted enc enc' → decodeTernary enc' = decodeTernary enc := by
  refine ⟨decodeTernary_encodeBinary, ?_, encodeBinary_append,
    fun _ _ h => decodeTernary_of_inserted h⟩
  intro data
  obtain ⟨enc, hencode, hdecode⟩ := decodeBalanced_encodeBalanced data
  rw [hencode, Option.bind_some, hdecode]

end Blackstone.Bank
