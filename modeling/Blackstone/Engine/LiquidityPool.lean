import Blackstone.Library.ConstantProduct
import Blackstone.Engine.Types
import Mathlib.Algebra.Order.Group.Nat

/-!
# Liquidity pools

`liquidity_manager_create_pool` and `liquidity_manager_calculate_swap` of `main_file.cpp`.
The products and the sum of the swap formula are computed in 64 bits.

`swapLaw_iff`: the exact inputs at which the swap formula obeys the law of a constant
product pool, and the bounds below which it always does. `demoSwap_breaks_law` is the swap
of the demonstration in `main_file.cpp`.
-/

namespace Blackstone.Engine

open ConstantProduct

/-- `liquidity_pool_t`: what the swap reads. -/
structure LiquidityPool where
  reserveA : UInt64
  reserveB : UInt64
  feeBps : UInt32
  deriving DecidableEq

def maxLiquidityPools : Nat := 500

/-- `liquidity_manager_t`: the pools in use come first. -/
structure LiquidityManager where
  pools : Vector LiquidityPool maxLiquidityPools
  poolCount : UInt32
  poolCount_le : poolCount.toNat ≤ maxLiquidityPools

/-- `liquidity_manager_create`, when the allocation succeeds. -/
def liquidityManagerCreate : LiquidityManager where
  pools := Vector.replicate maxLiquidityPools ⟨0, 0, 0⟩
  poolCount := 0
  poolCount_le := Nat.zero_le _

def LiquidityManager.pool (lm : LiquidityManager) (id : UInt32) (hid : id < lm.poolCount) :
    LiquidityPool :=
  lm.pools.get ⟨id.toNat, Nat.lt_of_lt_of_le (UInt32.lt_iff_toNat_lt.mp hid) lm.poolCount_le⟩

/-- `liquidity_manager_create_pool`: the id, or all ones when there is no room. -/
def liquidityManagerCreatePool (lm : LiquidityManager) (feeBps : UInt32) :
    UInt32 × LiquidityManager :=
  if hroom : lm.poolCount.toNat < maxLiquidityPools then
    (lm.poolCount, {
      pools := lm.pools.set lm.poolCount.toNat ⟨0, 0, feeBps⟩ hroom
      poolCount := lm.poolCount + 1
      poolCount_le := by
        have hsucc : (lm.poolCount + 1).toNat = (lm.poolCount.toNat + 1) % 2 ^ 32 := rfl
        rw [hsucc]
        exact Nat.le_trans (Nat.mod_le _ _) hroom })
  else (-1, lm)

def LiquidityPool.reserveIn (pool : LiquidityPool) (isTokenA : Bool) : UInt64 :=
  if isTokenA then pool.reserveA else pool.reserveB

def LiquidityPool.reserveOut (pool : LiquidityPool) (isTokenA : Bool) : UInt64 :=
  if isTokenA then pool.reserveB else pool.reserveA

/-- `amount_in * (10000 - pool->fee_bps) / 10000`. -/
def amountInWithFee (pool : LiquidityPool) (amountIn : UInt64) : UInt64 :=
  amountIn * (10000 - pool.feeBps).toUInt64 / 10000

/-- `liquidity_manager_calculate_swap`; `none` is a division by zero. -/
def liquidityManagerCalculateSwap (lm : LiquidityManager) (id : UInt32) (amountIn : UInt64)
    (isTokenA : Bool) : Option UInt64 :=
  if hid : id < lm.poolCount then
    let pool := lm.pool id hid
    let reserveIn := pool.reserveIn isTokenA
    let reserveOut := pool.reserveOut isTokenA
    if reserveIn = 0 ∨ reserveOut = 0 then some 0
    else
      let withFee := amountInWithFee pool amountIn
      if reserveIn + withFee = 0 then none
      else some (withFee * reserveOut / (reserveIn + withFee))
  else some 0

/-! ## The law of a swap -/

/-- The part of the amount that is traded, over the naturals. -/
def exactWithFee (feeBps amountIn : Nat) : Nat := amountIn * (10000 - feeBps) / 10000

def exactSwap (feeBps rin rout amountIn : Nat) : Nat :=
  if rin = 0 ∨ rout = 0 then 0 else output rin rout (exactWithFee feeBps amountIn)

/-- The swap returns the exact output, which leaves something in the pool and does not lower
the product of the reserves. -/
def SwapLaw (lm : LiquidityManager) (id : UInt32) (hid : id < lm.poolCount)
    (amountIn : UInt64) (isTokenA : Bool) : Prop :=
  let pool := lm.pool id hid
  let rin := (pool.reserveIn isTokenA).toNat
  let rout := (pool.reserveOut isTokenA).toNat
  ∃ out, liquidityManagerCalculateSwap lm id amountIn isTokenA = some out ∧
    out.toNat = exactSwap pool.feeBps.toNat rin rout amountIn.toNat ∧
    (0 < rin → 0 < rout → out.toNat < rout) ∧
    rin * rout ≤ (rin + amountIn.toNat) * (rout - out.toNat)

/-- No product and no sum of the formula leaves 64 bits. -/
structure SwapFits (feeBps rin rout amountIn : Nat) : Prop where
  fee : amountIn * (10000 - feeBps) < 2 ^ 64
  product : exactWithFee feeBps amountIn * rout < 2 ^ 64
  sum : rin + exactWithFee feeBps amountIn < 2 ^ 64

/-- The traded part of the amount as the words give it. -/
def wordWithFee (feeBps amountIn : Nat) : Nat := amountIn * (10000 - feeBps) % 2 ^ 64 / 10000

/-- The fee product or the sum leaves 64 bits, and the wrapped numerator still lies in the
interval that the exact output spans over the wrapped divisor. -/
structure SwapCoincides (feeBps rin rout amountIn : Nat) : Prop where
  overflows : 2 ^ 64 ≤ amountIn * (10000 - feeBps) ∨
    2 ^ 64 ≤ rin + exactWithFee feeBps amountIn
  lower : exactSwap feeBps rin rout amountIn *
      ((rin + wordWithFee feeBps amountIn) % 2 ^ 64) ≤
    wordWithFee feeBps amountIn * rout % 2 ^ 64
  upper : wordWithFee feeBps amountIn * rout % 2 ^ 64 <
    (exactSwap feeBps rin rout amountIn + 1) *
      ((rin + wordWithFee feeBps amountIn) % 2 ^ 64)

/-- The 64-bit division has a divisor and yields the exact output. -/
def QuotientsAgree (feeBps rin rout amountIn : Nat) : Prop :=
  (rin + wordWithFee feeBps amountIn) % 2 ^ 64 ≠ 0 ∧
    wrapped (2 ^ 64) rin rout (wordWithFee feeBps amountIn) = exactSwap feeBps rin rout amountIn

/-! ## One swap -/

theorem exactWithFee_le (feeBps amountIn : Nat) : exactWithFee feeBps amountIn ≤ amountIn := by
  apply Nat.div_le_of_le_mul
  rw [Nat.mul_comm 10000]
  exact Nat.mul_le_mul_left _ (Nat.sub_le _ _)

theorem wordWithFee_of_lt {feeBps amountIn : Nat} (h : amountIn * (10000 - feeBps) < 2 ^ 64) :
    wordWithFee feeBps amountIn = exactWithFee feeBps amountIn := by
  rw [wordWithFee, Nat.mod_eq_of_lt h, exactWithFee]

theorem exactSwap_of_pos {rin rout : Nat} (hin : 0 < rin) (hout : 0 < rout)
    (feeBps amountIn : Nat) : exactSwap feeBps rin rout amountIn =
      output rin rout (exactWithFee feeBps amountIn) := by
  rw [exactSwap, if_neg]
  omega

theorem toNat_amountInWithFee {pool : LiquidityPool} (hfee : pool.feeBps ≤ 10000)
    (amountIn : UInt64) :
    (amountInWithFee pool amountIn).toNat = wordWithFee pool.feeBps.toNat amountIn.toNat := by
  have hrest : (10000 - pool.feeBps).toNat = 10000 - pool.feeBps.toNat :=
    UInt32.toNat_sub_of_le _ _ hfee
  rw [amountInWithFee, UInt64.toNat_div, UInt64.toNat_mul, UInt32.toNat_toUInt64, hrest,
    wordWithFee]
  rfl

section Swap

variable (lm : LiquidityManager) (id : UInt32) (hid : id < lm.poolCount) (amountIn : UInt64)
  (isTokenA : Bool)

/-- Exactness is the whole law: the rest holds of every exact output. -/
theorem swapLaw_iff_exact : SwapLaw lm id hid amountIn isTokenA ↔
    ∃ out, liquidityManagerCalculateSwap lm id amountIn isTokenA = some out ∧
      out.toNat = exactSwap (lm.pool id hid).feeBps.toNat
        ((lm.pool id hid).reserveIn isTokenA).toNat
        ((lm.pool id hid).reserveOut isTokenA).toNat amountIn.toNat := by
  constructor
  · intro ⟨out, hcode, hexact, _⟩
    exact ⟨out, hcode, hexact⟩
  · intro ⟨out, hcode, hexact⟩
    refine ⟨out, hcode, hexact, ?_, ?_⟩
    · intro hin hout
      rw [hexact, exactSwap_of_pos hin hout]
      exact output_lt hin hout
    · rw [hexact]
      unfold exactSwap
      split
      · rename_i hzero
        rcases hzero with hin | hout
        · rw [hin, Nat.zero_mul]
          exact Nat.zero_le _
        · rw [hout, Nat.mul_zero]
          exact Nat.zero_le _
      · exact product_le (exactWithFee_le _ _)

variable {lm id hid amountIn isTokenA}

theorem swapLaw_of_zero (h : ((lm.pool id hid).reserveIn isTokenA).toNat = 0 ∨
    ((lm.pool id hid).reserveOut isTokenA).toNat = 0) :
    SwapLaw lm id hid amountIn isTokenA := by
  rw [swapLaw_iff_exact]
  refine ⟨0, ?_, ?_⟩
  · rw [liquidityManagerCalculateSwap, dif_pos hid, if_pos]
    exact h.imp UInt64.toNat_inj.mp UInt64.toNat_inj.mp
  · rw [exactSwap, if_pos h]
    rfl

/-- With both reserves positive, the law compares two quotients. -/
theorem swapLaw_iff_quotient (hfee : (lm.pool id hid).feeBps ≤ 10000)
    {fee rin rout amount : Nat} (hf : (lm.pool id hid).feeBps.toNat = fee)
    (hrin : ((lm.pool id hid).reserveIn isTokenA).toNat = rin)
    (hrout : ((lm.pool id hid).reserveOut isTokenA).toNat = rout)
    (hamount : amountIn.toNat = amount) (hin : 0 < rin) (hout : 0 < rout) :
    SwapLaw lm id hid amountIn isTokenA ↔ QuotientsAgree fee rin rout amount := by
  subst hf hrin hrout hamount
  rw [swapLaw_iff_exact]
  unfold QuotientsAgree
  have hpos : ¬ ((lm.pool id hid).reserveIn isTokenA = 0 ∨
      (lm.pool id hid).reserveOut isTokenA = 0) := by
    intro hzero
    rcases hzero with hzero | hzero
    · rw [hzero] at hin
      exact Nat.lt_irrefl 0 hin
    · rw [hzero] at hout
      exact Nat.lt_irrefl 0 hout
  have hword := toNat_amountInWithFee hfee amountIn
  have hsum := UInt64.toNat_add ((lm.pool id hid).reserveIn isTokenA)
    (amountInWithFee (lm.pool id hid) amountIn)
  have hproduct := UInt64.toNat_mul (amountInWithFee (lm.pool id hid) amountIn)
    ((lm.pool id hid).reserveOut isTokenA)
  rw [hword] at hsum hproduct
  rw [liquidityManagerCalculateSwap, dif_pos hid, if_neg hpos]
  by_cases hdivisor : (lm.pool id hid).reserveIn isTokenA +
      amountInWithFee (lm.pool id hid) amountIn = 0
  · rw [if_pos hdivisor]
    rw [hdivisor] at hsum
    constructor
    · intro ⟨out, hcode, _⟩
      cases hcode
    · intro ⟨hne, _⟩
      exact absurd hsum.symm hne
  · rw [if_neg hdivisor]
    have hne : (((lm.pool id hid).reserveIn isTokenA).toNat +
        wordWithFee (lm.pool id hid).feeBps.toNat amountIn.toNat) % 2 ^ 64 ≠ 0 := by
      rw [← hsum]
      exact fun h => hdivisor (UInt64.toNat_inj.mp h)
    rw [wrapped, ← hsum, ← hproduct, ← UInt64.toNat_div]
    constructor
    · intro ⟨out, hcode, hexact⟩
      rw [Option.some.inj hcode]
      exact ⟨hsum ▸ hne, hexact⟩
    · intro ⟨_, hexact⟩
      exact ⟨_, rfl, hexact⟩

end Swap

/-! ## When the two quotients agree -/

section Quotients

variable {fee rin rout amount : Nat}

theorem SwapFits.quotientsAgree (h : SwapFits fee rin rout amount) (hin : 0 < rin)
    (hout : 0 < rout) : QuotientsAgree fee rin rout amount := by
  rw [QuotientsAgree, wordWithFee_of_lt h.fee, exactSwap_of_pos hin hout]
  constructor
  · rw [Nat.mod_eq_of_lt h.sum]
    omega
  · exact wrapped_of_lt h.product h.sum

/-- With a fee product and a sum that fit, a product that does not makes the output too
small. -/
theorem not_quotientsAgree_of_product (hin : 0 < rin) (hout : 0 < rout)
    (hfee : amount * (10000 - fee) < 2 ^ 64) (hsum : rin + exactWithFee fee amount < 2 ^ 64)
    (hproduct : 2 ^ 64 ≤ exactWithFee fee amount * rout) :
    ¬ QuotientsAgree fee rin rout amount := by
  intro h
  obtain ⟨_, hequal⟩ := h
  rw [wordWithFee_of_lt hfee, exactSwap_of_pos hin hout] at hequal
  exact absurd hequal (wrapped_lt_output hproduct hsum hin).ne

theorem quotientsAgree_iff (hin : 0 < rin) (hout : 0 < rout) :
    QuotientsAgree fee rin rout amount ↔
    SwapFits fee rin rout amount ∨ SwapCoincides fee rin rout amount := by
  constructor
  · intro hagree
    by_cases hfits : SwapFits fee rin rout amount
    · exact Or.inl hfits
    · right
      obtain ⟨hdivisor, hequal⟩ := hagree
      have hpos := Nat.pos_of_ne_zero hdivisor
      refine ⟨?_, (Nat.le_div_iff_mul_le hpos).mp hequal.ge,
        (Nat.div_lt_iff_lt_mul hpos).mp (Nat.lt_succ_of_le hequal.le)⟩
      by_contra hno
      rw [not_or, Nat.not_le, Nat.not_le] at hno
      obtain ⟨hfee, hsum⟩ := hno
      -- only the product is left to overflow
      have hproduct : 2 ^ 64 ≤ exactWithFee fee amount * rout := by
        by_contra hlt
        exact hfits ⟨hfee, Nat.lt_of_not_le hlt, hsum⟩
      exact not_quotientsAgree_of_product hin hout hfee hsum hproduct ⟨hdivisor, hequal⟩
  · intro hcases
    rcases hcases with hfits | hcoincides
    · exact hfits.quotientsAgree hin hout
    · constructor
      · intro hzero
        have hupper := hcoincides.upper
        rw [hzero, Nat.mul_zero] at hupper
        exact Nat.not_lt_zero _ hupper
      · exact Nat.div_eq_of_lt_le hcoincides.lower hcoincides.upper

end Quotients

/-! ## Bounds on the swaps -/

section Bounds

variable {fee maxIn maxOut maxAmount : Nat}

theorem SwapFits.mono (h : SwapFits fee maxIn maxOut maxAmount) {rin rout amount : Nat}
    (hin : rin ≤ maxIn) (hout : rout ≤ maxOut) (hamount : amount ≤ maxAmount) :
    SwapFits fee rin rout amount := by
  have hfee : amount * (10000 - fee) ≤ maxAmount * (10000 - fee) :=
    Nat.mul_le_mul_right _ hamount
  have hpart : exactWithFee fee amount ≤ exactWithFee fee maxAmount :=
    Nat.div_le_div_right hfee
  exact ⟨hfee.trans_lt h.fee, (Nat.mul_le_mul hpart hout).trans_lt h.product,
    (Nat.add_le_add hin hpart).trans_lt h.sum⟩

/-- The least amount whose fee product leaves 64 bits trades as if it were nothing. -/
theorem fee_overflow (h : 2 ^ 64 ≤ maxAmount * (10000 - fee)) :
    ∃ amount ≤ maxAmount, wordWithFee fee amount = 0 ∧ 1 ≤ exactWithFee fee amount := by
  have hrate : 10000 - fee ≤ 10000 := Nat.sub_le _ _
  unfold wordWithFee exactWithFee
  generalize 10000 - fee = rate at h hrate ⊢
  have hpos : 0 < rate := by
    rcases Nat.eq_zero_or_pos rate with hzero | hpos
    · rw [hzero] at h
      omega
    · exact hpos
  have hbelow : (2 ^ 64 - 1) / rate * rate ≤ 2 ^ 64 - 1 := Nat.div_mul_le_self _ _
  have habove : 2 ^ 64 - 1 < (2 ^ 64 - 1) / rate * rate + rate := Nat.lt_div_mul_add hpos
  have hsmall : 2 ^ 64 ≤ ((2 ^ 64 - 1) / rate + 1) * rate ∧
      ((2 ^ 64 - 1) / rate + 1) * rate < 2 ^ 64 + rate := by
    rw [Nat.succ_mul]
    omega
  refine ⟨(2 ^ 64 - 1) / rate + 1, ?_, ?_, ?_⟩
  · exact (Nat.div_lt_iff_lt_mul hpos).mpr (by omega)
  · generalize ((2 ^ 64 - 1) / rate + 1) * rate = product at hsmall ⊢
    omega
  · generalize ((2 ^ 64 - 1) / rate + 1) * rate = product at hsmall ⊢
    omega

/-- Such an amount buys nothing from a pool of one unit of input and two of output. -/
theorem not_quotientsAgree_of_fee (h : 2 ^ 64 ≤ maxAmount * (10000 - fee)) :
    ∃ amount ≤ maxAmount, ¬ QuotientsAgree fee 1 2 amount := by
  obtain ⟨amount, hle, hword, hone⟩ := fee_overflow h
  refine ⟨amount, hle, fun hagree => ?_⟩
  obtain ⟨_, hequal⟩ := hagree
  have hzero : wrapped (2 ^ 64) 1 2 0 = 0 := by
    rw [wrapped, Nat.zero_mul, Nat.zero_mod, Nat.zero_div]
  have htraded : 1 ≤ output 1 2 (exactWithFee fee amount) := by
    rw [output, Nat.one_le_div_iff (by omega)]
    omega
  rw [hword, hzero, exactSwap_of_pos Nat.one_pos Nat.two_pos] at hequal
  omega

/-- When only the sum overflows, a pool with one unit of output loses it. -/
theorem not_quotientsAgree_of_sum (hmaxIn : 0 < maxIn) (hin : maxIn < 2 ^ 64)
    (hamount : maxAmount < 2 ^ 64) (hfee : maxAmount * (10000 - fee) < 2 ^ 64)
    (hsum : 2 ^ 64 ≤ maxIn + exactWithFee fee maxAmount) :
    ¬ QuotientsAgree fee maxIn 1 maxAmount := by
  intro hagree
  obtain ⟨hdivisor, hequal⟩ := hagree
  have hpart := (exactWithFee_le fee maxAmount).trans_lt hamount
  rw [wordWithFee_of_lt hfee] at hdivisor hequal
  have hgiven := one_le_wrapped hpart hin hsum hdivisor
  rw [hequal, exactSwap_of_pos hmaxIn Nat.one_pos, output_eq_zero (by omega)] at hgiven
  exact Nat.not_lt_zero _ hgiven

/-- Whichever operation overflows at the largest swap, a swap within the bounds goes wrong. -/
theorem exists_wrong_quotient (hmaxIn : 1 ≤ maxIn) (hmaxOut : 2 ≤ maxOut)
    (hin : maxIn < 2 ^ 64) (hamount : maxAmount < 2 ^ 64)
    (h : ¬ SwapFits fee maxIn maxOut maxAmount) :
    ∃ rin rout amount, (0 < rin ∧ rin ≤ maxIn) ∧ (0 < rout ∧ rout ≤ maxOut) ∧
      amount ≤ maxAmount ∧ ¬ QuotientsAgree fee rin rout amount := by
  by_cases hfee : maxAmount * (10000 - fee) < 2 ^ 64
  · by_cases hsum : maxIn + exactWithFee fee maxAmount < 2 ^ 64
    · have hproduct : 2 ^ 64 ≤ exactWithFee fee maxAmount * maxOut := by
        by_contra hlt
        exact h ⟨hfee, Nat.lt_of_not_le hlt, hsum⟩
      have hwrong : ¬ QuotientsAgree fee 1 maxOut maxAmount :=
        not_quotientsAgree_of_product Nat.one_pos (by omega) hfee (by omega) hproduct
      exact ⟨1, maxOut, maxAmount, ⟨Nat.one_pos, hmaxIn⟩, ⟨by omega, Nat.le_refl _⟩,
        Nat.le_refl _, hwrong⟩
    · have hwrong : ¬ QuotientsAgree fee maxIn 1 maxAmount :=
        not_quotientsAgree_of_sum hmaxIn hin hamount hfee (Nat.le_of_not_lt hsum)
      exact ⟨maxIn, 1, maxAmount, ⟨hmaxIn, Nat.le_refl _⟩, ⟨Nat.one_pos, by omega⟩,
        Nat.le_refl _, hwrong⟩
  · obtain ⟨amount, hle, hwrong⟩ := not_quotientsAgree_of_fee (Nat.le_of_not_lt hfee)
    exact ⟨1, 2, amount, ⟨Nat.one_pos, hmaxIn⟩, ⟨Nat.two_pos, hmaxOut⟩, hle, hwrong⟩

end Bounds

/-- A manager all of whose pools are the given one, with one pool in use. -/
def singlePool (pool : LiquidityPool) : LiquidityManager where
  pools := Vector.replicate maxLiquidityPools pool
  poolCount := 1
  poolCount_le := by decide

theorem zero_lt_singlePool (pool : LiquidityPool) : 0 < (singlePool pool).poolCount := by
  show (0 : UInt32) < 1
  decide

theorem pool_singlePool (pool : LiquidityPool) :
    (singlePool pool).pool 0 (zero_lt_singlePool pool) = pool := by
  show (Vector.replicate maxLiquidityPools pool)[0] = pool
  exact Vector.getElem_replicate _

/-- The law of one swap, in terms of its four numbers. -/
theorem swap_obeys_iff (lm : LiquidityManager) (id : UInt32) (hid : id < lm.poolCount)
    (amountIn : UInt64) (isTokenA : Bool) {fee rin rout amount : Nat}
    (hfee : (lm.pool id hid).feeBps ≤ 10000) (hf : (lm.pool id hid).feeBps.toNat = fee)
    (hrin : ((lm.pool id hid).reserveIn isTokenA).toNat = rin)
    (hrout : ((lm.pool id hid).reserveOut isTokenA).toNat = rout)
    (hamount : amountIn.toNat = amount) :
    SwapLaw lm id hid amountIn isTokenA ↔ rin = 0 ∨ rout = 0 ∨
      SwapFits fee rin rout amount ∨ SwapCoincides fee rin rout amount := by
  rcases Nat.eq_zero_or_pos rin with hin | hin
  · exact iff_of_true (swapLaw_of_zero (Or.inl (hrin.trans hin))) (Or.inl hin)
  · rcases Nat.eq_zero_or_pos rout with hout | hout
    · exact iff_of_true (swapLaw_of_zero (Or.inr (hrout.trans hout))) (Or.inr (Or.inl hout))
    · rw [swapLaw_iff_quotient hfee hf hrin hrout hamount hin hout, quotientsAgree_iff hin hout]
      constructor
      · intro h
        exact Or.inr (Or.inr h)
      · intro hcases
        rcases hcases with hzero | hzero | h
        · omega
        · omega
        · exact h

/-- The swaps of the pools with a given fee, up to given reserves and a given amount. -/
def SwapsObey (fee : UInt32) (maxIn maxOut maxAmount : UInt64) : Prop :=
  ∀ (lm : LiquidityManager) (id : UInt32) (hid : id < lm.poolCount) (amountIn : UInt64)
    (isTokenA : Bool), (lm.pool id hid).feeBps = fee →
    (lm.pool id hid).reserveIn isTokenA ≤ maxIn →
    (lm.pool id hid).reserveOut isTokenA ≤ maxOut → amountIn ≤ maxAmount →
    SwapLaw lm id hid amountIn isTokenA

theorem swapsObey_of_fits {fee : UInt32} (hfee : fee ≤ 10000) {maxIn maxOut maxAmount : UInt64}
    (h : SwapFits fee.toNat maxIn.toNat maxOut.toNat maxAmount.toNat) :
    SwapsObey fee maxIn maxOut maxAmount := by
  intro lm id hid amountIn isTokenA hpool hin hout hamount
  subst hpool
  rw [swap_obeys_iff lm id hid amountIn isTokenA hfee rfl rfl rfl rfl]
  right; right; left
  exact h.mono (UInt64.le_iff_toNat_le.mp hin) (UInt64.le_iff_toNat_le.mp hout)
    (UInt64.le_iff_toNat_le.mp hamount)

theorem fits_of_swapsObey {fee : UInt32} (hfee : fee ≤ 10000) {maxIn maxOut maxAmount : UInt64}
    (hmaxIn : 1 ≤ maxIn) (hmaxOut : 2 ≤ maxOut) (h : SwapsObey fee maxIn maxOut maxAmount) :
    SwapFits fee.toNat maxIn.toNat maxOut.toNat maxAmount.toNat := by
  by_contra hno
  obtain ⟨rin, rout, amount, ⟨hin, hinLe⟩, ⟨hout, houtLe⟩, hamountLe, hwrong⟩ :=
    exists_wrong_quotient (UInt64.le_iff_toNat_le.mp hmaxIn)
      (UInt64.le_iff_toNat_le.mp hmaxOut) maxIn.toNat_lt maxAmount.toNat_lt hno
  have hrin : (UInt64.ofNat rin).toNat = rin :=
    UInt64.toNat_ofNat_of_lt' (hinLe.trans_lt maxIn.toNat_lt)
  have hrout : (UInt64.ofNat rout).toNat = rout :=
    UInt64.toNat_ofNat_of_lt' (houtLe.trans_lt maxOut.toNat_lt)
  have hamount : (UInt64.ofNat amount).toNat = amount :=
    UInt64.toNat_ofNat_of_lt' (hamountLe.trans_lt maxAmount.toNat_lt)
  let pool : LiquidityPool := ⟨UInt64.ofNat rin, UInt64.ofNat rout, fee⟩
  have hpool := pool_singlePool pool
  have hobeys : SwapLaw (singlePool pool) 0 (zero_lt_singlePool pool) (UInt64.ofNat amount)
      true := by
    apply h
    · rw [hpool]
    · rw [hpool]
      exact UInt64.le_iff_toNat_le.mpr (hrin.trans_le hinLe)
    · rw [hpool]
      exact UInt64.le_iff_toNat_le.mpr (hrout.trans_le houtLe)
    · exact UInt64.le_iff_toNat_le.mpr (hamount.trans_le hamountLe)
  rw [swapLaw_iff_quotient (by rw [hpool]; exact hfee) (by rw [hpool])
    (by rw [hpool]; exact hrin) (by rw [hpool]; exact hrout) hamount hin hout] at hobeys
  exact hwrong hobeys

/-- A swap obeys the law exactly when a reserve is empty, everything fits, or the overflow of
the fee product or the sum happens to cancel. Up to given bounds all swaps obey the law
exactly when the largest one fits. -/
theorem swapLaw_iff {fee : UInt32} (hfee : fee ≤ 10000) :
    (∀ (lm : LiquidityManager) (id : UInt32) (hid : id < lm.poolCount) (amountIn : UInt64)
      (isTokenA : Bool), (lm.pool id hid).feeBps = fee →
      (SwapLaw lm id hid amountIn isTokenA ↔
        ((lm.pool id hid).reserveIn isTokenA).toNat = 0 ∨
        ((lm.pool id hid).reserveOut isTokenA).toNat = 0 ∨
        SwapFits fee.toNat ((lm.pool id hid).reserveIn isTokenA).toNat
          ((lm.pool id hid).reserveOut isTokenA).toNat amountIn.toNat ∨
        SwapCoincides fee.toNat ((lm.pool id hid).reserveIn isTokenA).toNat
          ((lm.pool id hid).reserveOut isTokenA).toNat amountIn.toNat)) ∧
    ∀ maxIn maxOut maxAmount : UInt64, 1 ≤ maxIn → 2 ≤ maxOut →
      (SwapsObey fee maxIn maxOut maxAmount ↔
        SwapFits fee.toNat maxIn.toNat maxOut.toNat maxAmount.toNat) := by
  constructor
  · intro lm id hid amountIn isTokenA hpool
    subst hpool
    exact swap_obeys_iff lm id hid amountIn isTokenA hfee rfl rfl rfl rfl
  · intro maxIn maxOut maxAmount hmaxIn hmaxOut
    exact ⟨fits_of_swapsObey hfee hmaxIn hmaxOut, swapsObey_of_fits hfee⟩

/-! ## The demonstration -/

/-- The assignments to the reserves through a pool pointer. -/
def LiquidityManager.setReserves (lm : LiquidityManager) (id : UInt32)
    (hid : id < lm.poolCount) (reserveA reserveB : UInt64) : LiquidityManager :=
  { lm with
    pools := lm.pools.set id.toNat
      { lm.pool id hid with reserveA := reserveA, reserveB := reserveB }
      (Nat.lt_of_lt_of_le (UInt32.lt_iff_toNat_lt.mp hid) lm.poolCount_le) }

/-- The pool of `demonstrate_dex_functionality`: fee 30, reserves 10^14 and 5 * 10^13. -/
def demoManager : LiquidityManager :=
  (liquidityManagerCreatePool liquidityManagerCreate 30).2.setReserves 0 (by decide)
    100000000000000 50000000000000

theorem zero_lt_demoManager : 0 < demoManager.poolCount := by decide

theorem feeBps_demoManager : (demoManager.pool 0 zero_lt_demoManager).feeBps = 30 := by
  decide +kernel

/-- The two statements at the swap of the demonstration and at its bounds. -/
theorem demoSwap_law_iff :
    (SwapLaw demoManager 0 zero_lt_demoManager 1000000000000 true ↔
      ((demoManager.pool 0 zero_lt_demoManager).reserveIn true).toNat = 0 ∨
      ((demoManager.pool 0 zero_lt_demoManager).reserveOut true).toNat = 0 ∨
      SwapFits 30 ((demoManager.pool 0 zero_lt_demoManager).reserveIn true).toNat
        ((demoManager.pool 0 zero_lt_demoManager).reserveOut true).toNat 1000000000000 ∨
      SwapCoincides 30 ((demoManager.pool 0 zero_lt_demoManager).reserveIn true).toNat
        ((demoManager.pool 0 zero_lt_demoManager).reserveOut true).toNat 1000000000000) ∧
    (SwapsObey 30 100000000000000 50000000000000 1000000000000 ↔
      SwapFits 30 100000000000000 50000000000000 1000000000000) :=
  ⟨(swapLaw_iff (by decide)).1 demoManager 0 zero_lt_demoManager 1000000000000 true
    feeBps_demoManager,
  (swapLaw_iff (by decide)).2 100000000000000 50000000000000 1000000000000 (by decide)
    (by decide)⟩

/-- The demonstrated swap returns 167106 where the exact output is 493579017198. -/
theorem demoSwap_breaks_law :
    liquidityManagerCalculateSwap demoManager 0 1000000000000 true = some 167106 ∧
      exactSwap 30 100000000000000 50000000000000 1000000000000 = 493579017198 ∧
      ¬ SwapLaw demoManager 0 zero_lt_demoManager 1000000000000 true := by
  have hcode : liquidityManagerCalculateSwap demoManager 0 1000000000000 true =
      some 167106 := by
    decide +kernel
  have hexact : exactSwap (demoManager.pool 0 zero_lt_demoManager).feeBps.toNat
      ((demoManager.pool 0 zero_lt_demoManager).reserveIn true).toNat
      ((demoManager.pool 0 zero_lt_demoManager).reserveOut true).toNat
      (1000000000000 : UInt64).toNat = 493579017198 := by
    decide +kernel
  refine ⟨hcode, by decide +kernel, ?_⟩
  intro ⟨out, hout, hlaw, _⟩
  rw [hcode] at hout
  rw [hexact, ← Option.some.inj hout] at hlaw
  exact absurd hlaw (by decide)

end Blackstone.Engine
