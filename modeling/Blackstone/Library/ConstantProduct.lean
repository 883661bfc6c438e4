/-!
# Constant product pools

A pool holds two reserves; a trade pays `a` into the first and takes the rounded share
`output` of the second. The share never empties the second reserve, and the product of the
reserves does not fall.

`wrapped` is the same quotient with its numerator and denominator reduced modulo `W`, as a
machine with words below `W` computes it.
-/

namespace Blackstone.ConstantProduct

/-- `a * rout / (rin + a)`, rounded down. -/
def output (rin rout a : Nat) : Nat := a * rout / (rin + a)

/-- The quotient in words below `W`; the divisor of the second component may be zero. -/
def wrapped (W rin rout a : Nat) : Nat := a * rout % W / ((rin + a) % W)

section Exact

variable {rin rout a : Nat}

theorem output_lt (hin : 0 < rin) (hout : 0 < rout) : output rin rout a < rout := by
  unfold output
  rw [Nat.div_lt_iff_lt_mul (by omega), Nat.mul_add, Nat.mul_comm a rout]
  have hpos : 0 < rout * rin := Nat.mul_pos hout hin
  omega

/-- What was paid may exceed the part `a` that counts: the rest is the fee. -/
theorem product_le {paid : Nat} (hpaid : a ≤ paid) :
    rin * rout ≤ (rin + paid) * (rout - output rin rout a) := by
  have hshare : (rin + a) * output rin rout a ≤ a * rout := Nat.mul_div_le _ _
  calc rin * rout = (rin + a) * rout - a * rout := by
        rw [Nat.add_mul, Nat.add_sub_cancel]
    _ ≤ (rin + a) * rout - (rin + a) * output rin rout a := Nat.sub_le_sub_left hshare _
    _ = (rin + a) * (rout - output rin rout a) := (Nat.mul_sub _ _ _).symm
    _ ≤ (rin + paid) * (rout - output rin rout a) :=
        Nat.mul_le_mul_right _ (Nat.add_le_add_left hpaid _)

theorem output_eq_zero (ha : a * rout < rin + a) : output rin rout a = 0 :=
  Nat.div_eq_of_lt ha

end Exact

section Wrapped

variable {W rin rout a : Nat}

theorem wrapped_of_lt (hproduct : a * rout < W) (hsum : rin + a < W) :
    wrapped W rin rout a = output rin rout a := by
  unfold wrapped output
  rw [Nat.mod_eq_of_lt hproduct, Nat.mod_eq_of_lt hsum]

/-- When only the product leaves the words, at least one unit of the output is lost. -/
theorem wrapped_lt_output (hproduct : W ≤ a * rout) (hsum : rin + a < W)
    (hin : 0 < rin) : wrapped W rin rout a < output rin rout a := by
  unfold wrapped output
  rw [Nat.mod_eq_of_lt hsum]
  have hlost : a * rout % W + (rin + a) ≤ a * rout := by
    have hdiv := Nat.mod_add_div (a * rout) W
    have hquot : 1 ≤ a * rout / W := (Nat.one_le_div_iff (by omega)).mpr hproduct
    have hW : W ≤ W * (a * rout / W) := Nat.le_mul_of_pos_right W hquot
    omega
  calc a * rout % W / (rin + a) < a * rout % W / (rin + a) + 1 := Nat.lt_succ_self _
    _ = (a * rout % W + (rin + a)) / (rin + a) := (Nat.add_div_right _ (by omega)).symm
    _ ≤ a * rout / (rin + a) := Nat.div_le_div_right hlost

/-- When only the sum leaves the words, a pool with one unit of output gives it all away. -/
theorem one_le_wrapped (ha : a < W) (hrin : rin < W) (hsum : W ≤ rin + a)
    (hdivisor : (rin + a) % W ≠ 0) : 1 ≤ wrapped W rin 1 a := by
  unfold wrapped
  have hmod : (rin + a) % W = rin + a - W := by
    rw [Nat.mod_eq_sub_mod hsum, Nat.mod_eq_of_lt (by omega)]
  rw [Nat.mul_one, Nat.mod_eq_of_lt ha, Nat.one_le_div_iff (by omega), hmod]
  omega

end Wrapped

end Blackstone.ConstantProduct
