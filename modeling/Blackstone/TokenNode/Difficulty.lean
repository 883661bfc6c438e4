import Blackstone.TokenNode.Consensus

/-!
# The exactness of the difficulty

`consensus_calculate_difficulty` on a chain that is long enough and not pruned. The elapsed time
is cut to 32 bits before it is bounded, and so is the quotient. `Harmless` lists when neither
changes the result: otherwise a chain that took about `2^32` seconds counts as a fast one, and a
difficulty that should be at its upper bound comes out at the lower one.

`exactDifficulty_iff`: the result is the bounded quotient of the integers exactly then.
-/

namespace Blackstone.TokenNode

/-- The elapsed time that `consensus_calculate_difficulty` divides by, as it is computed. -/
def divisor (cons : Consensus) (first last : Block) : UInt32 :=
  let actualTime := (last.timestamp - first.timestamp).toUInt32
  let expectedTime := cons.adjustmentInterval * cons.targetBlockTime
  let actualTime := if actualTime > expectedTime * 4 then expectedTime * 4 else actualTime
  if actualTime < expectedTime / 4 then expectedTime / 4 else actualTime

/-- The two blocks that are compared, when they are there. -/
def firstBlock (chain : Blockchain) : Block :=
  (chain.blocks (intervalStart chain)).getD Block.zero

def lastBlock (chain : Blockchain) : Block :=
  (chain.blocks (chain.height.toNat - 1)).getD Block.zero

/-- The difficulty of the last block. -/
def lastDifficulty (chain : Blockchain) : ℕ := (lastBlock chain).difficulty.toNat

/-- The time between the two blocks. -/
def elapsed (chain : Blockchain) : ℕ :=
  (lastBlock chain).timestamp.toNat - (firstBlock chain).timestamp.toNat

/-- The chain has an adjustment interval of blocks, none of them is freed, and their time stamps
increase. -/
structure Unpruned (chain : Blockchain) : Prop where
  long : consensusCreate.adjustmentInterval.toNat ≤ chain.height.toNat
  stored : ∀ i < chain.height.toNat, ∃ block, chain.blocks i = some block
  increasing : ∀ i j earlier later, i < j → j < chain.height.toNat →
    chain.blocks i = some earlier → chain.blocks j = some later →
    earlier.timestamp < later.timestamp

/-- The difficulty that the elapsed time gives over the integers. -/
def integerDifficulty (d e : ℕ) : ℕ := max 1 (min 65535 (d * 20160 / max 5040 (min 80640 e)))

/-- The difficulty is the one over the integers, and nothing is divided by zero. -/
def ExactDifficulty (chain : Blockchain) : Prop :=
  divisor consensusCreate (firstBlock chain) (lastBlock chain) ≠ 0 ∧
    (consensusCalculateDifficulty consensusCreate chain).toNat =
      integerDifficulty (lastDifficulty chain) (elapsed chain)

/-- The bounded time, computed from the low 32 bits of the elapsed time. -/
def lowTime (e : ℕ) : ℕ := max 5040 (min 80640 (e % 2 ^ 32))

/-- The two conversions to 32 bits do not matter. The quotient of `20160 * d` and the time does
not lie within 65535 above a multiple of `2^32`. And the elapsed time fits in 32 bits, or its low
bits are at the upper bound too, or the bounds on the difficulty hide the difference. -/
def Harmless (d e : ℕ) : Prop :=
  (∀ k, 1 ≤ k →
    ¬ (k * 2 ^ 32 * lowTime e ≤ 20160 * d ∧ 20160 * d < (k * 2 ^ 32 + 65535) * lowTime e)) ∧
  (e < 2 ^ 32 ∨ 80640 ≤ e % 2 ^ 32 ∨ 262140 ≤ d ∨ 20160 * d < 2 * lowTime e ∨
    20160 * d < (d / 4 + 1) * lowTime e)

/-! ## The arithmetic -/

theorem lowTime_pos (e : ℕ) : 0 < lowTime e := by
  unfold lowTime
  omega

/-- The first condition says that the low bits of a large quotient are not below the bound. -/
theorem quotient_harmless_iff (d e : ℕ) :
    (∀ k, 1 ≤ k →
        ¬ (k * 2 ^ 32 * lowTime e ≤ 20160 * d ∧ 20160 * d < (k * 2 ^ 32 + 65535) * lowTime e)) ↔
      (d * 20160 / lowTime e < 2 ^ 32 ∨ 65535 ≤ d * 20160 / lowTime e % 2 ^ 32) := by
  have hpos := lowTime_pos e
  simp only [← Nat.le_div_iff_mul_le hpos, ← Nat.div_lt_iff_lt_mul hpos, Nat.mul_comm 20160 d]
  generalize d * 20160 / lowTime e = quotient
  constructor
  · intro h
    rcases Nat.lt_or_ge quotient (2 ^ 32) with hlt | hge
    · exact Or.inl hlt
    · have hnot := h (quotient / 2 ^ 32) (by omega)
      omega
  · rintro h k hk ⟨hle, hlt⟩
    omega

/-- The bounds of the quotient that both times allow. -/
theorem quotient_bounds (d e : ℕ) :
    d / 4 ≤ d * 20160 / lowTime e ∧ d * 20160 / lowTime e ≤ 4 * d := by
  have hlow : 5040 ≤ lowTime e := le_max_left _ _
  have hhigh : lowTime e ≤ 80640 := by
    unfold lowTime
    omega
  have hupper : d * 20160 / 80640 ≤ d * 20160 / lowTime e :=
    Nat.div_le_div_left hhigh (lowTime_pos e)
  have hlower : d * 20160 / lowTime e ≤ d * 20160 / 5040 :=
    Nat.div_le_div_left hlow (by omega)
  omega

/-- Cutting the time and the quotient to 32 bits leaves the difficulty alone exactly when it is
harmless. -/
theorem cut_eq_iff {d : ℕ} (hd : d < 2 ^ 32) (e : ℕ) :
    min 0xFFFF (max 1 (d * 20160 / lowTime e % 2 ^ 32)) = integerDifficulty d e ↔
      Harmless d e := by
  have hpos := lowTime_pos e
  obtain ⟨hlower, hupper⟩ := quotient_bounds d e
  rw [Harmless, quotient_harmless_iff, ← Nat.div_lt_iff_lt_mul hpos,
    ← Nat.div_lt_iff_lt_mul hpos, Nat.mul_comm 20160 d, integerDifficulty]
  by_cases hshort : e < 2 ^ 32
  · have htime : lowTime e = max 5040 (min 80640 e) := by
      rw [lowTime, Nat.mod_eq_of_lt hshort]
    rw [← htime]
    generalize d * 20160 / lowTime e = quotient at hlower hupper ⊢
    omega
  · have htime : max 5040 (min 80640 e) = 80640 := by omega
    have hexact : 80640 ≤ e % 2 ^ 32 → d * 20160 / lowTime e = d / 4 := by
      intro hhigh
      have hlow : lowTime e = 80640 := by
        unfold lowTime
        omega
      rw [hlow]
      omega
    have hquarter : d * 20160 / 80640 = d / 4 := by omega
    rw [htime, hquarter]
    generalize d * 20160 / lowTime e = quotient at hlower hupper hexact ⊢
    omega

theorem integerDifficulty_antitone (d : ℕ) {e e' : ℕ} (hle : e ≤ e') :
    integerDifficulty d e' ≤ integerDifficulty d e := by
  have htime : max 5040 (min 80640 e) ≤ max 5040 (min 80640 e') := by omega
  have hquotient : d * 20160 / max 5040 (min 80640 e') ≤ d * 20160 / max 5040 (min 80640 e) :=
    Nat.div_le_div_left htime (by omega)
  rw [integerDifficulty, integerDifficulty]
  omega

/-! ## The chain -/

theorem toNat_divisor (first last : Block) :
    (divisor consensusCreate first last).toNat = clampedTime first last :=
  toNat_clampedTime _

theorem divisor_ne_zero (first last : Block) : divisor consensusCreate first last ≠ 0 := by
  intro hzero
  have hnat := congrArg UInt32.toNat hzero
  rw [toNat_divisor, clampedTime, UInt32.toNat_zero] at hnat
  omega

section Chain

variable {chain : Blockchain}

theorem Unpruned.interval (h : Unpruned chain) :
    intervalStart chain < chain.height.toNat - 1 := by
  have hlong := h.long
  have hinterval := adjustmentInterval_toNat
  unfold intervalStart
  omega

theorem Unpruned.blocks (h : Unpruned chain) :
    chain.blocks (intervalStart chain) = some (firstBlock chain) ∧
      chain.blocks (chain.height.toNat - 1) = some (lastBlock chain) := by
  have hinterval := h.interval
  obtain ⟨first, hfirst⟩ := h.stored (intervalStart chain) (by omega)
  obtain ⟨last, hlast⟩ := h.stored (chain.height.toNat - 1) (by omega)
  rw [firstBlock, lastBlock, hfirst, hlast]
  exact ⟨rfl, rfl⟩

/-- The difference of the time stamps does not wrap. -/
theorem Unpruned.elapsed_lt (h : Unpruned chain) :
    (firstBlock chain).timestamp.toNat < (lastBlock chain).timestamp.toNat := by
  have hinterval := h.interval
  obtain ⟨hfirst, hlast⟩ := h.blocks
  exact UInt64.lt_iff_toNat_lt.mp
    (h.increasing _ _ _ _ hinterval (by omega) hfirst hlast)

theorem Unpruned.clampedTime_eq (h : Unpruned chain) :
    clampedTime (firstBlock chain) (lastBlock chain) = lowTime (elapsed chain) := by
  have hle : (firstBlock chain).timestamp ≤ (lastBlock chain).timestamp :=
    UInt64.le_iff_toNat_le.mpr (Nat.le_of_lt h.elapsed_lt)
  rw [clampedTime, UInt64.toNat_toUInt32, UInt64.toNat_sub_of_le _ _ hle, lowTime, elapsed]

/-- The difficulty, with both conversions. -/
theorem Unpruned.difficulty_eq (h : Unpruned chain) :
    (consensusCalculateDifficulty consensusCreate chain).toNat =
      min 0xFFFF (max 1 (lastDifficulty chain * 20160 / lowTime (elapsed chain) % 2 ^ 32)) := by
  obtain ⟨hfirst, hlast⟩ := h.blocks
  have hlong : ¬ chain.height < consensusCreate.adjustmentInterval := by
    rw [UInt32.lt_iff_toNat_lt]
    exact Nat.not_lt.mpr h.long
  rw [consensusCalculateDifficulty_eq, if_neg hlong, hfirst, hlast]
  dsimp only
  rw [toNat_retarget, h.clampedTime_eq, lastDifficulty]

/-- The difficulty is the one over the integers exactly when the conversions are harmless. Among
chains where they are, it does not increase when more time has elapsed. -/
theorem exactDifficulty_iff (h : Unpruned chain) :
    (ExactDifficulty chain ↔ Harmless (lastDifficulty chain) (elapsed chain)) ∧
      ∀ slower : Blockchain, Unpruned slower →
        Harmless (lastDifficulty chain) (elapsed chain) →
        Harmless (lastDifficulty slower) (elapsed slower) →
        lastDifficulty slower = lastDifficulty chain → elapsed chain ≤ elapsed slower →
        consensusCalculateDifficulty consensusCreate slower ≤
          consensusCalculateDifficulty consensusCreate chain := by
  have hexact : ∀ other : Blockchain, Unpruned other →
      ((consensusCalculateDifficulty consensusCreate other).toNat =
          integerDifficulty (lastDifficulty other) (elapsed other) ↔
        Harmless (lastDifficulty other) (elapsed other)) := by
    intro other hother
    rw [hother.difficulty_eq]
    exact cut_eq_iff (lastBlock other).difficulty.toNat_lt _
  constructor
  · rw [ExactDifficulty, hexact chain h]
    exact and_iff_right (divisor_ne_zero _ _)
  · intro slower hslower hharmless hharmless' hsame hle
    rw [UInt32.le_iff_toNat_le, (hexact chain h).mpr hharmless,
      (hexact slower hslower).mpr hharmless', hsame]
    exact integerDifficulty_antitone _ hle

end Chain

/-! ## Chains of 2016 blocks -/

/-- A chain of 2016 blocks of one difficulty, one second apart but for the last one. -/
def steadyChain (difficulty : UInt32) (last : UInt64) : Blockchain where
  blocks i :=
    if i < 2016 then
      some { Block.zero with
        timestamp := if i = 2015 then last else UInt64.ofNat i
        height := UInt32.ofNat i
        difficulty := difficulty }
    else none
  hashes _ := Hash.zero
  height := 2016
  totalDifficulty := 0
  pruneHeight := 0

theorem unpruned_steadyChain (difficulty : UInt32) {last : UInt64} (hlast : 2015 ≤ last.toNat) :
    Unpruned (steadyChain difficulty last) where
  long := Nat.le_refl _
  stored i hi := ⟨_, if_pos hi⟩
  increasing i j earlier later hij hj hearlier hlater := by
    have hj' : j < 2016 := hj
    have htime : ∀ n < 2015, (UInt64.ofNat n).toNat = n := by
      intro n hn
      rw [UInt64.toNat_ofNat']
      exact Nat.mod_eq_of_lt (by omega)
    have hfirst := (if_pos (show i < 2016 by omega)).symm.trans hearlier
    have hsecond := (if_pos hj').symm.trans hlater
    obtain rfl := Option.some.inj hfirst
    obtain rfl := Option.some.inj hsecond
    rw [UInt64.lt_iff_toNat_lt]
    dsimp only
    rw [if_neg (by omega), htime i (by omega)]
    split_ifs
    · omega
    · rw [htime j (by omega)]
      exact hij

/-- A chain that took three times as long as it should. -/
theorem exactDifficulty_slow : ExactDifficulty (steadyChain 0xFFFF 60480) := by
  apply (exactDifficulty_iff (unpruned_steadyChain _ (by decide))).1.mpr
  have hd : lastDifficulty (steadyChain 0xFFFF 60480) = 65535 := rfl
  have he : elapsed (steadyChain 0xFFFF 60480) = 60480 := rfl
  have htime : lowTime 60480 = 60480 := rfl
  rw [hd, he, Harmless, htime]
  refine ⟨?_, Or.inl (by omega)⟩
  rintro k hk ⟨hle, -⟩
  omega

/-- A chain of a large difficulty: the result is at the wrong bound. -/
theorem not_exactDifficulty_fast : ¬ ExactDifficulty (steadyChain 0x40000000 2015) := by
  intro h
  have hresult := h.2
  revert hresult
  decide +kernel

end Blackstone.TokenNode
