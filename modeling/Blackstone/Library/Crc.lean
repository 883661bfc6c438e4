import Blackstone.Library.BlockStream
import Mathlib.Algebra.Group.Nat.Defs
import Mathlib.Logic.Function.Iterate

/-!
# Cyclic redundancy checks

The register of a reflected check with 32 bits and any generator. A step divides by `x`, and is
linear (`shift_xor`). Therefore the register after two strings follows from the registers of each
(`register_append`), the registers of two strings of one length differ by the one of their
difference (`register_xorBytes`), and a byte can be taken from a table (`iterate_shift_eight`).

A generator with a constant term makes the step injective, and then no difference within four bytes
goes unseen (`register_burst_ne`).
-/

namespace Blackstone.Crc

open BlockStream

/-- One bit. -/
def shift (poly c : UInt32) : UInt32 := (c >>> 1) ^^^ (if c &&& 1 ≠ 0 then poly else 0)

/-- One byte. -/
def update (poly c : UInt32) (b : UInt8) : UInt32 := (shift poly)^[8] (c ^^^ b.toUInt32)

/-- The register after a string. -/
def register (poly c : UInt32) (data : List UInt8) : UInt32 := data.foldl (update poly) c

/-! ## Linearity -/

theorem xor_xor_xor_comm (a b c d : UInt32) :
    (a ^^^ b) ^^^ (c ^^^ d) = (a ^^^ c) ^^^ (b ^^^ d) := by
  ac_rfl

theorem toNat_and_one (c : UInt32) : (c &&& 1).toNat = c.toNat % 2 := by
  rw [UInt32.toNat_and]
  exact Nat.and_one_is_mod _

theorem and_one_cases (c : UInt32) : c &&& 1 = 0 ∨ c &&& 1 = 1 := by
  rcases Nat.mod_two_eq_zero_or_one c.toNat with hzero | hone
  · left
    apply UInt32.toNat_inj.mp
    rw [toNat_and_one, hzero]
    rfl
  · right
    apply UInt32.toNat_inj.mp
    rw [toNat_and_one, hone]
    rfl

theorem shift_xor (poly a b : UInt32) :
    shift poly (a ^^^ b) = shift poly a ^^^ shift poly b := by
  have hlow : (a ^^^ b) &&& 1 = (a &&& 1) ^^^ (b &&& 1) := by
    apply UInt32.toNat_inj.mp
    simp only [UInt32.toNat_and, UInt32.toNat_xor, Nat.and_xor_distrib_right]
  have hhigh : (a ^^^ b) >>> 1 = (a >>> 1) ^^^ (b >>> 1) := UInt32.shiftRight_xor
  rw [shift, shift, shift, hlow, hhigh, xor_xor_xor_comm]
  congr 1
  rcases and_one_cases a with ha | ha
  · rcases and_one_cases b with hb | hb
    · simp [ha, hb]
    · simp [ha, hb]
  · rcases and_one_cases b with hb | hb
    · simp [ha, hb]
    · simp [ha, hb]

theorem shift_zero (poly : UInt32) : shift poly 0 = 0 := by
  have hzero := shift_xor poly 0 0
  rw [UInt32.xor_self, UInt32.xor_self] at hzero
  exact hzero

theorem iterate_shift_xor (poly : UInt32) (n : ℕ) (a b : UInt32) :
    (shift poly)^[n] (a ^^^ b) = (shift poly)^[n] a ^^^ (shift poly)^[n] b := by
  induction n generalizing a b with
  | zero => rfl
  | succ n ih => rw [Function.iterate_succ_apply, shift_xor, ih]; rfl

theorem iterate_shift_zero (poly : UInt32) (n : ℕ) : (shift poly)^[n] 0 = 0 :=
  Function.iterate_fixed (shift_zero poly) n

theorem update_xor (poly c d : UInt32) (b e : UInt8) :
    update poly (c ^^^ d) (b ^^^ e) = update poly c b ^^^ update poly d e := by
  rw [update, update, update, UInt8.toUInt32_xor, xor_xor_xor_comm, iterate_shift_xor]

/-- Two strings of one length, and their difference. -/
theorem register_xorBytes (poly c d : UInt32) {xs ys : List UInt8}
    (hlength : xs.length = ys.length) :
    register poly (c ^^^ d) (xorBytes xs ys) = register poly c xs ^^^ register poly d ys := by
  induction xs generalizing c d ys with
  | nil =>
    obtain rfl := List.length_eq_zero_iff.mp hlength.symm
    rfl
  | cons x xs ih =>
    obtain ⟨y, ys, rfl⟩ := List.exists_cons_of_length_eq_add_one hlength.symm
    have hrest := ih (update poly c x) (update poly d y) (Nat.succ.inj hlength)
    rw [← update_xor] at hrest
    exact hrest

theorem register_zeros (poly c : UInt32) (n : ℕ) :
    register poly c (List.replicate n 0) = (shift poly)^[8 * n] c := by
  induction n generalizing c with
  | zero => rfl
  | succ n ih =>
    have hfirst : update poly c 0 = (shift poly)^[8] c :=
      congrArg (shift poly)^[8] UInt32.xor_zero
    rw [List.replicate_succ, register, List.foldl_cons, ← register, ih, hfirst,
      ← Function.iterate_add_apply, Nat.mul_succ]

/-- A difference of the registers goes through a string as through zeros. -/
theorem register_xor (poly c d : UInt32) (data : List UInt8) :
    register poly (c ^^^ d) data = register poly c data ^^^ (shift poly)^[8 * data.length] d := by
  have hzeros : xorBytes data (List.replicate data.length 0) = data := by
    apply List.ext_getElem
    · rw [length_xorBytes, List.length_replicate, Nat.min_self]
    · intro i _ _
      simp only [xorBytes, List.getElem_zipWith, List.getElem_replicate, UInt8.xor_zero]
  have hlength : (List.replicate data.length (0 : UInt8)).length = data.length :=
    List.length_replicate
  have hsum := register_xorBytes poly c d hlength.symm
  rwa [hzeros, register_zeros] at hsum

theorem register_append (poly c : UInt32) (xs ys : List UInt8) :
    register poly c (xs ++ ys) = register poly (register poly c xs) ys := List.foldl_append

/-! ## Numbers whose low bits are clear -/

theorem toNat_shift_of_even {poly c : UInt32} (heven : c.toNat % 2 = 0) :
    (shift poly c).toNat = c.toNat / 2 := by
  have hlow : c &&& 1 = 0 := by
    apply UInt32.toNat_inj.mp
    rw [toNat_and_one, heven]
    rfl
  have hclear : shift poly c = c >>> 1 := by
    rw [shift, hlow]
    simp
  rw [hclear, UInt32.toNat_shiftRight]
  exact Nat.shiftRight_eq_div_pow _ _

/-- Clear bits only move the number down. -/
theorem toNat_iterate_shift_of_dvd {poly : UInt32} {k : ℕ} {c : UInt32} (hdvd : 2 ^ k ∣ c.toNat) :
    ((shift poly)^[k] c).toNat = c.toNat / 2 ^ k := by
  induction k generalizing c with
  | zero => rw [Function.iterate_zero_apply, Nat.pow_zero, Nat.div_one]
  | succ k ih =>
    obtain ⟨q, hq⟩ := hdvd
    have hhalf : c.toNat = 2 * (2 ^ k * q) := by
      rw [hq, Nat.pow_succ]
      ac_rfl
    have hstep : (shift poly c).toNat = 2 ^ k * q := by
      rw [toNat_shift_of_even (by omega)]
      omega
    rw [Function.iterate_succ_apply, ih ⟨q, hstep⟩, hstep, hq, Nat.mul_div_cancel_left _
      (Nat.two_pow_pos k), Nat.mul_div_cancel_left _ (Nat.two_pow_pos (k + 1))]

/-- The step of a program with a table of the bytes. -/
theorem iterate_shift_eight (poly c : UInt32) :
    (shift poly)^[8] c = (c >>> 8) ^^^ (shift poly)^[8] (c &&& 0xFF) := by
  have hlow : (c &&& 0xFF).toNat = c.toNat % 2 ^ 8 := by
    rw [UInt32.toNat_and]
    exact Nat.and_two_pow_sub_one_eq_mod _ 8
  have hhigh : (c ^^^ (c &&& 0xFF)).toNat = 2 ^ 8 * (c.toNat / 2 ^ 8) := by
    rw [UInt32.toNat_xor, hlow]
    apply Nat.eq_of_testBit_eq
    intro i
    rw [Nat.testBit_xor, Nat.testBit_mod_two_pow, Nat.testBit_two_pow_mul, Nat.testBit_div_two_pow]
    rcases Nat.lt_or_ge i 8 with hi | hi
    · simp [hi, Nat.not_le.mpr hi]
    · simp [hi, Nat.not_lt.mpr hi]
  have hmoved : (shift poly)^[8] (c ^^^ (c &&& 0xFF)) = c >>> 8 := by
    apply UInt32.toNat_inj.mp
    rw [toNat_iterate_shift_of_dvd ⟨_, hhigh⟩, hhigh, Nat.mul_div_cancel_left _ (by decide),
      UInt32.toNat_shiftRight]
    exact (Nat.shiftRight_eq_div_pow _ _).symm
  rw [← hmoved, ← iterate_shift_xor, UInt32.xor_assoc, UInt32.xor_self, UInt32.xor_zero]

/-! ## Generators with a constant term -/

theorem shift_eq_zero_iff {poly : UInt32} (hpoly : 2 ^ 31 ≤ poly.toNat) {c : UInt32} :
    shift poly c = 0 ↔ c = 0 := by
  constructor
  · intro hzero
    have hbound := c.toNat_lt
    have hhalf : (c >>> 1).toNat = c.toNat / 2 := by
      rw [UInt32.toNat_shiftRight]
      exact Nat.shiftRight_eq_div_pow _ _
    have hlow := toNat_and_one c
    rcases and_one_cases c with heven | hodd
    · rw [shift, heven] at hzero
      have hclear : (c >>> 1).toNat = 0 := by
        rw [show c >>> 1 = 0 by simpa using hzero]
        rfl
      rw [heven] at hlow
      apply UInt32.toNat_inj.mp
      have hmod : 0 = c.toNat % 2 := hlow
      have : c.toNat = 0 := by omega
      exact this
    · rw [shift, hodd] at hzero
      have hfull : c >>> 1 = poly := UInt32.xor_eq_zero_iff.mp (by simpa using hzero)
      rw [hfull] at hhalf
      omega
  · rintro rfl
    exact shift_zero poly

theorem shift_injective {poly : UInt32} (hpoly : 2 ^ 31 ≤ poly.toNat) :
    Function.Injective (shift poly) := by
  intro a b hab
  apply UInt32.xor_eq_zero_iff.mp
  apply (shift_eq_zero_iff hpoly).mp
  rw [shift_xor, hab, UInt32.xor_self]

theorem iterate_shift_eq_zero_iff {poly : UInt32} (hpoly : 2 ^ 31 ≤ poly.toNat) {n : ℕ}
    {c : UInt32} : (shift poly)^[n] c = 0 ↔ c = 0 := by
  constructor
  · intro hzero
    apply (shift_injective hpoly).iterate n
    rw [hzero, iterate_shift_zero]
  · rintro rfl
    exact iterate_shift_zero poly n

/-- The same bytes after different registers leave different registers. -/
theorem register_injective {poly : UInt32} (hpoly : 2 ^ 31 ≤ poly.toNat) (data : List UInt8) :
    Function.Injective fun c => register poly c data := by
  intro c d hcd
  apply UInt32.xor_eq_zero_iff.mp
  apply (iterate_shift_eq_zero_iff hpoly (n := 8 * data.length)).mp
  have hxor := register_xor poly c (c ^^^ d) data
  rw [← UInt32.xor_assoc, UInt32.xor_self, UInt32.zero_xor] at hxor
  have hcd : register poly c data = register poly d data := hcd
  rw [← hcd] at hxor
  exact UInt32.xor_right_inj _ |>.mp (hxor.symm.trans UInt32.xor_zero.symm)

/-! ## Bursts -/

/-- The bytes as a number, the first one lowest. -/
def word : List UInt8 → UInt32
  | [] => 0
  | b :: bs => b.toUInt32 ^^^ (word bs <<< 8)

theorem toNat_word_lt {data : List UInt8} (hlength : data.length ≤ 4) :
    (word data).toNat < 2 ^ (8 * data.length) := by
  induction data with
  | nil => exact Nat.one_pos
  | cons b bs ih =>
    rw [List.length_cons] at hlength
    have hrest := ih (by omega)
    rw [word, UInt32.toNat_xor, List.length_cons, Nat.mul_succ]
    apply Nat.xor_lt_two_pow
    · have hbyte : b.toUInt32.toNat < 2 ^ 8 := b.toNat_lt
      exact Nat.lt_of_lt_of_le hbyte (Nat.pow_le_pow_right Nat.two_pos (Nat.le_add_left _ _))
    · rw [UInt32.toNat_shiftLeft]
      refine Nat.lt_of_le_of_lt (Nat.mod_le _ _) ?_
      rw [Nat.shiftLeft_eq, Nat.pow_add]
      exact Nat.mul_lt_mul_of_pos_right hrest (Nat.two_pow_pos 8)

theorem toNat_word_shiftLeft {data : List UInt8} (hlength : data.length ≤ 3) :
    (word data <<< 8).toNat = 2 ^ 8 * (word data).toNat := by
  have hbound := toNat_word_lt (Nat.le_succ_of_le hlength)
  have hpow : 2 ^ (8 * data.length) ≤ 2 ^ 24 := Nat.pow_le_pow_right Nat.two_pos (by omega)
  rw [UInt32.toNat_shiftLeft]
  have hshift : (8 : UInt32).toNat % 32 = 8 := rfl
  rw [hshift, Nat.shiftLeft_eq, Nat.mul_comm, Nat.mod_eq_of_lt]
  omega

theorem word_eq_zero {data : List UInt8} (hlength : data.length ≤ 4) (hzero : word data = 0) :
    ∀ b ∈ data, b = 0 := by
  induction data with
  | nil => simp
  | cons b bs ih =>
    have hrest : bs.length ≤ 3 := Nat.le_of_succ_le_succ hlength
    have hbyte : b.toNat = 2 ^ 8 * (word bs).toNat := by
      rw [← toNat_word_shiftLeft hrest, ← UInt32.xor_eq_zero_iff.mp hzero]
      rfl
    have hbound := b.toNat_lt
    have hword : (word bs).toNat = 0 := by omega
    intro e he
    rcases List.mem_cons.mp he with rfl | he
    · apply UInt8.toNat_inj.mp
      rw [hbyte, hword]
      rfl
    · exact ih (Nat.le_succ_of_le hrest) (UInt32.toNat_inj.mp hword) e he

/-- Up to four bytes are divided as one number. -/
theorem register_zero_eq {poly : UInt32} {data : List UInt8} (hlength : data.length ≤ 4) :
    register poly 0 data = (shift poly)^[8 * data.length] (word data) := by
  induction data with
  | nil => rfl
  | cons b bs ih =>
    have hrest : bs.length ≤ 3 := Nat.le_of_succ_le_succ hlength
    have hmoved : (shift poly)^[8] (word bs <<< 8) = word bs := by
      apply UInt32.toNat_inj.mp
      have hnat := toNat_word_shiftLeft hrest
      rw [toNat_iterate_shift_of_dvd ⟨_, hnat⟩, hnat, Nat.mul_div_cancel_left _ (by decide)]
    have hfirst : update poly 0 b = 0 ^^^ (shift poly)^[8] b.toUInt32 := by
      rw [update, UInt32.zero_xor, UInt32.zero_xor]
    calc register poly 0 (b :: bs)
        = register poly (update poly 0 b) bs := rfl
      _ = (shift poly)^[8 * bs.length] (word bs) ^^^
            (shift poly)^[8 * bs.length] ((shift poly)^[8] b.toUInt32) := by
          rw [hfirst, register_xor, ih (Nat.le_succ_of_le hrest)]
      _ = (shift poly)^[8 * bs.length] ((shift poly)^[8] (word (b :: bs))) := by
          rw [word, iterate_shift_xor, hmoved, iterate_shift_xor, UInt32.xor_comm]
      _ = (shift poly)^[8 * (b :: bs).length] (word (b :: bs)) := by
          rw [← Function.iterate_add_apply, List.length_cons, Nat.mul_succ]

/-- A change within four consecutive bytes changes the register. -/
theorem register_burst_ne {poly : UInt32} (hpoly : 2 ^ 31 ≤ poly.toNat) (c : UInt32)
    (front back : List UInt8) {xs ys : List UInt8} (hlength : xs.length = ys.length)
    (hburst : xs.length ≤ 4) (hne : xs ≠ ys) :
    register poly c (front ++ xs ++ back) ≠ register poly c (front ++ ys ++ back) := by
  intro heq
  apply hne
  rw [register_append, register_append, register_append, register_append] at heq
  have hmiddle := register_injective hpoly back heq
  have hdiff := register_xorBytes poly (register poly c front) (register poly c front) hlength
  rw [hmiddle, UInt32.xor_self, UInt32.xor_self] at hdiff
  have hxor : (xorBytes xs ys).length ≤ 4 := by
    rw [length_xorBytes]
    omega
  rw [register_zero_eq hxor, iterate_shift_eq_zero_iff hpoly] at hdiff
  have hzero := word_eq_zero hxor hdiff
  apply List.ext_getElem hlength
  intro i hx hy
  have hi : i < (xorBytes xs ys).length := by
    rw [length_xorBytes]
    omega
  have hbyte := hzero _ (List.getElem_mem hi)
  simp only [xorBytes, List.getElem_zipWith] at hbyte
  exact UInt8.xor_eq_zero_iff.mp hbyte

end Blackstone.Crc
