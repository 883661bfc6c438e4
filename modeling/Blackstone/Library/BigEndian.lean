import Mathlib.Data.List.Induction
import Mathlib.Tactic.Ring

/-!
# Numbers as bytes, most significant first

`bigEndian k n` are the last `k` digits of `n` to the base 256, and `ofBigEndian` reads a
number back (`ofBigEndian_bigEndian`). Programs put the bytes of a word together with shifts and
disjunctions; `or_ofBigEndian` is one step of that.
-/

namespace Blackstone.BigEndian

/-- The number `n` in `k` bytes. -/
def bigEndian (k n : ℕ) : List UInt8 :=
  (List.range k).map fun i => UInt8.ofNat (n / 256 ^ (k - 1 - i))

/-- The number that the bytes write. -/
def ofBigEndian (bytes : List UInt8) : ℕ := bytes.foldl (fun n b => 256 * n + b.toNat) 0

@[simp] theorem length_bigEndian (k n : ℕ) : (bigEndian k n).length = k := by
  rw [bigEndian, List.length_map, List.length_range]

theorem ofBigEndian_concat (bytes : List UInt8) (b : UInt8) :
    ofBigEndian (bytes ++ [b]) = 256 * ofBigEndian bytes + b.toNat := by
  rw [ofBigEndian, List.foldl_append]
  rfl

theorem ofBigEndian_lt (bytes : List UInt8) : ofBigEndian bytes < 256 ^ bytes.length := by
  induction bytes using List.reverseRecOn with
  | nil => exact Nat.one_pos
  | append_singleton bytes b ih =>
    have hb : b.toNat < 256 := b.toNat_lt
    rw [ofBigEndian_concat, List.length_append, List.length_singleton, pow_succ]
    omega

/-- The last byte is the last digit, the bytes before it are those of the quotient. -/
theorem bigEndian_succ (k n : ℕ) :
    bigEndian (k + 1) n = bigEndian k (n / 256) ++ [UInt8.ofNat n] := by
  rw [bigEndian, bigEndian, List.range_succ, List.map_append, List.map_singleton]
  congr 1
  · apply List.map_congr_left
    intro i hi
    have hlt : i < k := List.mem_range.mp hi
    have hexponent : k + 1 - 1 - i = k - 1 - i + 1 := by omega
    rw [hexponent, pow_succ', ← Nat.div_div_eq_div_mul]
  · rw [Nat.add_sub_cancel, Nat.sub_self, pow_zero, Nat.div_one]

theorem ofBigEndian_bigEndian (k n : ℕ) : ofBigEndian (bigEndian k n) = n % 256 ^ k := by
  induction k generalizing n with
  | zero => exact (Nat.mod_one n).symm
  | succ k ih =>
    have hlast : (UInt8.ofNat n).toNat = n % 256 := UInt8.toNat_ofNat'
    rw [bigEndian_succ, ofBigEndian_concat, ih, hlast, pow_succ', Nat.mod_mul, add_comm]

theorem bigEndian_mod (k n : ℕ) : bigEndian k (n % 256 ^ k) = bigEndian k n := by
  induction k generalizing n with
  | zero => rfl
  | succ k ih =>
    have hbyte : UInt8.ofNat (n % 256 ^ (k + 1)) = UInt8.ofNat n := by
      apply UInt8.toNat_inj.mp
      rw [UInt8.toNat_ofNat', UInt8.toNat_ofNat', pow_succ']
      exact Nat.mod_mul_right_mod n 256 _
    rw [bigEndian_succ, bigEndian_succ, hbyte, pow_succ', Nat.mod_mul_right_div_self, ih]

theorem bigEndian_inj {k m n : ℕ} (hm : m < 256 ^ k) (hn : n < 256 ^ k)
    (h : bigEndian k m = bigEndian k n) : m = n := by
  have hread := congrArg ofBigEndian h
  rwa [ofBigEndian_bigEndian, ofBigEndian_bigEndian, Nat.mod_eq_of_lt hm,
    Nat.mod_eq_of_lt hn] at hread

/-- The bytes are the digits of the number that they write. -/
theorem bigEndian_ofBigEndian {bytes : List UInt8} {k : ℕ} (hk : bytes.length = k) :
    bigEndian k (ofBigEndian bytes) = bytes := by
  subst hk
  induction bytes using List.reverseRecOn with
  | nil => rfl
  | append_singleton bytes b ih =>
    have hb : b.toNat < 256 := b.toNat_lt
    have hquotient : (256 * ofBigEndian bytes + b.toNat) / 256 = ofBigEndian bytes := by omega
    have hlast : UInt8.ofNat (256 * ofBigEndian bytes + b.toNat) = b := by
      apply UInt8.toNat_inj.mp
      rw [UInt8.toNat_ofNat']
      omega
    rw [ofBigEndian_concat, List.length_append, List.length_singleton, bigEndian_succ, hquotient,
      hlast, ih]

theorem ofBigEndian_append (xs ys : List UInt8) :
    ofBigEndian (xs ++ ys) = 256 ^ ys.length * ofBigEndian xs + ofBigEndian ys := by
  induction ys using List.reverseRecOn with
  | nil => simp [ofBigEndian]
  | append_singleton ys b ih =>
    rw [← List.append_assoc, ofBigEndian_concat, ih, ofBigEndian_concat, List.length_append,
      List.length_singleton, pow_succ]
    ring

theorem ofBigEndian_cons (b : UInt8) (bytes : List UInt8) :
    ofBigEndian (b :: bytes) = 2 ^ (8 * bytes.length) * b.toNat + ofBigEndian bytes := by
  induction bytes using List.reverseRecOn with
  | nil => simp [ofBigEndian]
  | append_singleton bytes c ih =>
    rw [← List.cons_append, ofBigEndian_concat, ih, ofBigEndian_concat, List.length_append,
      List.length_singleton, Nat.mul_succ, pow_add]
    ring

/-- The first byte, shifted over the others. -/
theorem or_ofBigEndian (b : UInt8) (bytes : List UInt8) :
    2 ^ (8 * bytes.length) * b.toNat ||| ofBigEndian bytes = ofBigEndian (b :: bytes) := by
  have hlt : ofBigEndian bytes < 2 ^ (8 * bytes.length) := by
    rw [pow_mul]
    exact ofBigEndian_lt bytes
  rw [ofBigEndian_cons, Nat.two_pow_add_eq_or_of_lt hlt]

end Blackstone.BigEndian
