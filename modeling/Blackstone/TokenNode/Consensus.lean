import Mathlib.Data.List.Induction
import Blackstone.TokenNode.Miner

/-!
# Consensus and pruning

`consensus.c`, and what `blockchain_prune` does to it. A pruning frees blocks that
`blockchain_validate` reads one by one and that `consensus_calculate_difficulty` reads one
adjustment interval below the tip; both treat a freed block as a failure.

`pruning_transparent_iff`: a pruning changes neither result exactly when a valid chain
loses no block, and a chain whose difficulty is not the default one loses neither of the
two blocks that the difficulty is computed from. `slowChain_pruned` is a chain of 3000
blocks on which the periodic pruning to 1000 blocks resets the difficulty.
-/

namespace Blackstone.TokenNode

/-- `consensus_t`. -/
structure Consensus where
  targetBlockTime : UInt32
  minDifficulty : UInt32
  maxDifficulty : UInt32
  adjustmentInterval : UInt32

def consensusCreate : Consensus := ⟨10, 0x0000FFFF, 0x00000001, 2016⟩

def consensusValidateBlock (cons : Consensus) (block : Block) (chain : Blockchain) : Bool :=
  if block.height ≠ chain.height then false
  else
    let linked :=
      if block.height > 0 then
        match blockchainGetBlock chain (block.height - 1) with
        | none => false
        | some prev =>
          if block.prevHash ≠ prev.blockHash then false
          else if block.timestamp ≤ prev.timestamp then false
          else true
      else true
    let target := cons.minDifficulty / (if block.difficulty ≠ 0 then block.difficulty else 1)
    let target := if target < 1 then 1 else target
    linked && !(hashPrefix block.blockHash > target.toNat)

/-- The part of `consensus_calculate_difficulty` that works on the two blocks. -/
def retarget (cons : Consensus) (first last : Block) : UInt32 :=
  let actualTime := (last.timestamp - first.timestamp).toUInt32
  let expectedTime := cons.adjustmentInterval * cons.targetBlockTime
  let actualTime := if actualTime > expectedTime * 4 then expectedTime * 4 else actualTime
  let actualTime := if actualTime < expectedTime / 4 then expectedTime / 4 else actualTime
  let newDifficulty :=
    (last.difficulty.toUInt64 * expectedTime.toUInt64 / actualTime.toUInt64).toUInt32
  let newDifficulty :=
    if newDifficulty < cons.maxDifficulty then cons.maxDifficulty else newDifficulty
  if newDifficulty > cons.minDifficulty then cons.minDifficulty else newDifficulty

def consensusCalculateDifficulty (cons : Consensus) (chain : Blockchain) : UInt32 :=
  if chain.height < cons.adjustmentInterval then cons.minDifficulty
  else
    match blockchainGetBlock chain (chain.height - cons.adjustmentInterval),
        blockchainGetLastBlock chain with
    | some first, some last => retarget cons first last
    | _, _ => cons.minDifficulty

/-! ## Validation of a pruned chain -/

theorem blockOk_of_prune {chain : Blockchain} {keepCount : UInt32} {i : Nat}
    (h : blockOk (blockchainPrune chain keepCount) i = true) : blockOk chain i = true := by
  rw [blockOk_iff] at h ⊢
  obtain ⟨block, prev, hblock, hprev, hrest⟩ := h
  rw [blockchainPrune_blocks] at hblock hprev
  split at hblock
  · cases hblock
  · split at hprev
    · cases hprev
    · exact ⟨block, prev, hblock, hprev, hrest⟩

/-- Pruning never makes an invalid chain valid. -/
theorem blockchainValidate_of_prune {chain : Blockchain} {keepCount : UInt32}
    (h : blockchainValidate (blockchainPrune chain keepCount) = true) :
    blockchainValidate chain = true := by
  rw [blockchainValidate_iff, blockchainPrune_height] at h
  rw [blockchainValidate_iff]
  exact ⟨h.1, fun i hi hlt => blockOk_of_prune (h.2 i hi hlt)⟩

/-- A valid chain stays valid exactly when the pruning frees nothing. -/
theorem blockchainValidate_prune_iff {chain : Blockchain} {keepCount : UInt32}
    (h : blockchainValidate chain = true) :
    blockchainValidate (blockchainPrune chain keepCount) = true ↔
      ∀ i, ¬ Freed chain keepCount i := by
  constructor
  · intro hpruned i hfreed
    have hlt : i < (blockchainPrune chain keepCount).height.toNat := by
      rw [blockchainPrune_height]
      exact lt_of_le_of_lt (Nat.le_add_right _ _) hfreed.2.2
    have hok := ((blockchainValidate_iff _).mp hpruned).2 i hfreed.1 hlt
    obtain ⟨block, prev, hblock, _⟩ := (blockOk_iff _ _).mp hok
    rw [blockchainPrune_blocks, if_pos hfreed] at hblock
    cases hblock
  · intro hnone
    rw [blockchainValidate_iff] at h ⊢
    rw [blockchainPrune_height]
    refine ⟨h.1, fun i hi hlt => ?_⟩
    have hsame : blockOk (blockchainPrune chain keepCount) i = blockOk chain i := by
      apply blockOk_congr
      · rw [blockchainPrune_blocks, if_neg (hnone i)]
      · rw [blockchainPrune_blocks, if_neg (hnone (i - 1))]
    rw [hsame]
    exact h.2 i hi hlt

/-! ## Difficulty of a pruned chain -/

/-- The slot of the first block of the current adjustment interval. -/
def intervalStart (chain : Blockchain) : Nat :=
  chain.height.toNat - consensusCreate.adjustmentInterval.toNat

theorem adjustmentInterval_toNat : consensusCreate.adjustmentInterval.toNat = 2016 := rfl

theorem intervalStart_prune (chain : Blockchain) (keepCount : UInt32) :
    intervalStart (blockchainPrune chain keepCount) = intervalStart chain := by
  unfold intervalStart
  rw [blockchainPrune_height]

/-- The two blocks that the difficulty is computed from. -/
theorem consensusCalculateDifficulty_eq (chain : Blockchain) :
    consensusCalculateDifficulty consensusCreate chain =
      if chain.height < consensusCreate.adjustmentInterval then 0x0000FFFF
      else match chain.blocks (intervalStart chain), chain.blocks (chain.height.toNat - 1) with
        | some first, some last => retarget consensusCreate first last
        | _, _ => 0x0000FFFF := by
  unfold consensusCalculateDifficulty
  by_cases hlt : chain.height < consensusCreate.adjustmentInterval
  · rw [if_pos hlt, if_pos hlt]
    rfl
  · have hge : consensusCreate.adjustmentInterval ≤ chain.height := UInt32.not_lt.mp hlt
    have hge' := UInt32.le_iff_toNat_le.mp hge
    have hsub : (chain.height - consensusCreate.adjustmentInterval).toNat =
        intervalStart chain := UInt32.toNat_sub_of_le _ _ hge
    have hinterval := adjustmentInterval_toNat
    have hin : ¬ chain.height - consensusCreate.adjustmentInterval ≥ chain.height := by
      rw [ge_iff_le, UInt32.le_iff_toNat_le, hsub]
      unfold intervalStart
      omega
    rw [if_neg hlt, if_neg hlt, blockchainGetLastBlock_eq (by omega), blockchainGetBlock,
      if_neg hin, hsub]
    rfl

/-- The elapsed time that `consensus_calculate_difficulty` divides by. -/
def clampedTime (first last : Block) : Nat :=
  max 5040 (min 80640 (last.timestamp - first.timestamp).toUInt32.toNat)

/-- The elapsed time after both bounds of `consensus_calculate_difficulty`. -/
theorem toNat_clampedTime (actual : UInt32) :
    (if (if actual > 20160 * 4 then 20160 * 4 else actual) < 20160 / 4 then 20160 / 4
      else if actual > 20160 * 4 then 20160 * 4 else actual).toNat =
      max 5040 (min 80640 actual.toNat) := by
  have hhigh : (20160 * 4 : UInt32).toNat = 80640 := rfl
  have hlow : (20160 / 4 : UInt32).toNat = 5040 := rfl
  simp only [gt_iff_lt, UInt32.lt_iff_toNat_lt, apply_ite UInt32.toNat, hhigh, hlow]
  split <;> split at * <;> omega

/-- The new difficulty after its two bounds. -/
theorem toNat_clampedDifficulty (quotient : UInt32) :
    (if (if quotient < 1 then 1 else quotient) > 0x0000FFFF then 0x0000FFFF
      else if quotient < 1 then 1 else quotient).toNat =
      min 0xFFFF (max 1 quotient.toNat) := by
  have hone : (1 : UInt32).toNat = 1 := rfl
  have hmax : (0x0000FFFF : UInt32).toNat = 0xFFFF := rfl
  simp only [gt_iff_lt, UInt32.lt_iff_toNat_lt, apply_ite UInt32.toNat, hone, hmax]
  split <;> split at * <;> omega

/-- The new difficulty: the quotient loses its upper bits before it is bounded. -/
theorem toNat_retarget (first last : Block) :
    (retarget consensusCreate first last).toNat =
      min 0xFFFF (max 1 (last.difficulty.toNat * 20160 / clampedTime first last % 2 ^ 32)) := by
  have htime : consensusCreate.adjustmentInterval * consensusCreate.targetBlockTime = 20160 :=
    rfl
  have hlow : consensusCreate.maxDifficulty = 1 := rfl
  have hhigh : consensusCreate.minDifficulty = 0x0000FFFF := rfl
  simp only [retarget, htime, hlow, hhigh]
  generalize hactual : (last.timestamp - first.timestamp).toUInt32 = actual
  have hclamp := toNat_clampedTime actual
  generalize hdivisor : (if (if actual > 20160 * 4 then 20160 * 4 else actual) < 20160 / 4
    then 20160 / 4 else if actual > 20160 * 4 then 20160 * 4 else actual) = divisor
    at hclamp
  have hquotient : (last.difficulty.toUInt64 * (20160 : UInt32).toUInt64 /
      divisor.toUInt64).toUInt32.toNat =
      last.difficulty.toNat * 20160 / clampedTime first last % 2 ^ 32 := by
    have hdiff := last.difficulty.toNat_lt
    have hwide : (last.difficulty.toUInt64 * (20160 : UInt32).toUInt64).toNat =
        last.difficulty.toNat * 20160 := by
      rw [UInt64.toNat_mul, UInt32.toNat_toUInt64]
      apply Nat.mod_eq_of_lt
      change last.difficulty.toNat * 20160 < 2 ^ 64
      omega
    rw [UInt64.toNat_toUInt32, UInt64.toNat_div, hwide, UInt32.toNat_toUInt64, hclamp,
      clampedTime, hactual]
  rw [toNat_clampedDifficulty, hquotient]

theorem retarget_ne_default_iff (first last : Block) :
    retarget consensusCreate first last ≠ 0x0000FFFF ↔
      last.difficulty.toNat * 20160 / clampedTime first last % 2 ^ 32 < 0xFFFF := by
  have hmax : (0x0000FFFF : UInt32).toNat = 0xFFFF := rfl
  rw [ne_eq, ← UInt32.toNat_inj, toNat_retarget, hmax]
  omega

/-- The chain has both blocks of its adjustment interval, and they give a difficulty other
than the default one. -/
def OwnDifficulty (chain : Blockchain) : Prop :=
  consensusCreate.adjustmentInterval ≤ chain.height ∧
    ∃ first last, chain.blocks (intervalStart chain) = some first ∧
      chain.blocks (chain.height.toNat - 1) = some last ∧
      last.difficulty.toNat * 20160 / clampedTime first last % 2 ^ 32 < 0xFFFF

theorem ownDifficulty_iff (chain : Blockchain) :
    OwnDifficulty chain ↔
      consensusCalculateDifficulty consensusCreate chain ≠ 0x0000FFFF := by
  rw [consensusCalculateDifficulty_eq, OwnDifficulty]
  by_cases hlt : chain.height < consensusCreate.adjustmentInterval
  · rw [if_pos hlt]
    exact ⟨fun h => absurd h.1 (UInt32.not_le.mpr hlt), fun h => absurd rfl h⟩
  rw [if_neg hlt]
  cases hfirst : chain.blocks (intervalStart chain) with
  | none =>
    refine ⟨fun h => ?_, fun h => absurd rfl h⟩
    obtain ⟨_, first, last, hsome, _⟩ := h
    cases hsome
  | some first =>
    cases hlast : chain.blocks (chain.height.toNat - 1) with
    | none =>
      refine ⟨fun h => ?_, fun h => absurd rfl h⟩
      obtain ⟨_, first, last, _, hsome, _⟩ := h
      cases hsome
    | some last =>
      dsimp only
      rw [retarget_ne_default_iff]
      constructor
      · intro h
        obtain ⟨_, first', last', hfirst', hlast', hlow⟩ := h
        obtain rfl := Option.some.inj hfirst'
        obtain rfl := Option.some.inj hlast'
        exact hlow
      · intro hlow
        exact ⟨UInt32.not_lt.mp hlt, first, last, rfl, rfl, hlow⟩

/-- A pruning that frees one of the two blocks resets the difficulty. -/
theorem consensusCalculateDifficulty_prune_of_freed {chain : Blockchain} {keepCount : UInt32}
    (h : Freed chain keepCount (intervalStart chain) ∨
      Freed chain keepCount (chain.height.toNat - 1)) :
    consensusCalculateDifficulty consensusCreate (blockchainPrune chain keepCount) =
      0x0000FFFF := by
  rw [consensusCalculateDifficulty_eq, intervalStart_prune, blockchainPrune_height,
    blockchainPrune_blocks, blockchainPrune_blocks]
  split
  · rfl
  · rcases h with hfirst | hlast
    · rw [if_pos hfirst]
    · rw [if_pos hlast]
      split
      · rename_i hnone
        cases hnone
      · rfl

/-- A difficulty other than the default one survives exactly when the pruning leaves the
two blocks that it is computed from. -/
theorem consensusCalculateDifficulty_prune_iff (chain : Blockchain) (keepCount : UInt32) :
    consensusCalculateDifficulty consensusCreate (blockchainPrune chain keepCount) =
        consensusCalculateDifficulty consensusCreate chain ↔
      (OwnDifficulty chain → ¬ Freed chain keepCount (intervalStart chain) ∧
        ¬ Freed chain keepCount (chain.height.toNat - 1)) := by
  rw [ownDifficulty_iff]
  by_cases hfreed : Freed chain keepCount (intervalStart chain) ∨
      Freed chain keepCount (chain.height.toNat - 1)
  · rw [consensusCalculateDifficulty_prune_of_freed hfreed]
    constructor
    · intro heq hne
      exact absurd heq.symm hne
    · intro himp
      by_contra hne
      have hboth := himp (Ne.symm hne)
      exact hfreed.elim hboth.1 hboth.2
  · obtain ⟨hfirst, hlast⟩ := not_or.mp hfreed
    have hsame : consensusCalculateDifficulty consensusCreate (blockchainPrune chain keepCount) =
        consensusCalculateDifficulty consensusCreate chain := by
      rw [consensusCalculateDifficulty_eq, consensusCalculateDifficulty_eq,
        intervalStart_prune, blockchainPrune_height, blockchainPrune_blocks,
        blockchainPrune_blocks, if_neg hfirst, if_neg hlast]
    exact ⟨fun _ _ => ⟨hfirst, hlast⟩, fun _ => hsame⟩

/-- Pruning is transparent exactly when a valid chain loses no block and a chain with a
difficulty of its own keeps the two blocks that define it. -/
theorem pruning_transparent_iff (chain : Blockchain) (keepCount : UInt32) :
    (blockchainValidate (blockchainPrune chain keepCount) = blockchainValidate chain ∧
      consensusCalculateDifficulty consensusCreate (blockchainPrune chain keepCount) =
        consensusCalculateDifficulty consensusCreate chain) ↔
    (blockchainValidate chain = true → ∀ i, ¬ Freed chain keepCount i) ∧
      (OwnDifficulty chain → ¬ Freed chain keepCount (intervalStart chain) ∧
        ¬ Freed chain keepCount (chain.height.toNat - 1)) := by
  rw [consensusCalculateDifficulty_prune_iff]
  refine and_congr_left fun _ => ?_
  cases hvalid : blockchainValidate chain with
  | true =>
    rw [blockchainValidate_prune_iff hvalid]
    exact ⟨fun h _ => h, fun h => h rfl⟩
  | false =>
    refine ⟨fun _ h => absurd h Bool.false_ne_true, fun _ => ?_⟩
    by_contra hne
    have htrue := blockchainValidate_of_prune (Bool.eq_true_of_not_eq_false hne)
    rw [hvalid] at htrue
    cases htrue

/-! ## The periodic pruning of a slow chain -/

/-- The chain made by adding `blocks` to the genesis block of time `start`. -/
def growChain (start : UInt64) (blocks : List Block) : Blockchain :=
  blocks.foldl (fun chain block => (blockchainAddBlock chain block).2) (blockchainCreate start)

theorem growChain_spec (start : UInt64) (blocks : List Block)
    (hlen : blocks.length < maxBlocks) :
    (growChain start blocks).height.toNat = blocks.length + 1 ∧
      (growChain start blocks).pruneHeight = 0 ∧
      ∀ i (hi : i < blocks.length), (growChain start blocks).blocks (i + 1) =
        some { blocks[i] with height := UInt32.ofNat (i + 1) } := by
  induction blocks using List.reverseRecOn with
  | nil => exact ⟨rfl, rfl, fun i hi => absurd hi (Nat.not_lt_zero i)⟩
  | append_singleton blocks block ih =>
    rw [List.length_append, List.length_singleton] at hlen
    obtain ⟨hheight, hprune, hblocks⟩ := ih (by omega)
    have hgrow : growChain start (blocks ++ [block]) =
        (blockchainAddBlock (growChain start blocks) block).2 := by
      simp only [growChain, List.foldl_append, List.foldl_cons, List.foldl_nil]
    have hlt : (growChain start blocks).height.toNat < maxBlocks := by omega
    rw [hgrow, blockchainAddBlock_eq hlt]
    refine ⟨?_, hprune, fun i hi => ?_⟩
    · rw [toNat_height_succ hlt, hheight, List.length_append, List.length_singleton]
    · rw [List.length_append, List.length_singleton] at hi
      dsimp only
      by_cases hnew : i = blocks.length
      · subst hnew
        have htop : UInt32.ofNat (blocks.length + 1) = (growChain start blocks).height := by
          rw [← hheight, UInt32.ofNat_toNat]
        rw [hheight, Function.update_self, List.getElem_concat_length rfl, htop]
      · have hold : i < blocks.length := by omega
        rw [hheight, Function.update_of_ne (by omega), hblocks i hold,
          List.getElem_append_left hold]

/-- A block found one minute after the one before it. -/
def slowBlock (i : Nat) : Block :=
  { Block.zero with timestamp := UInt64.ofNat (60 * (i + 1)), difficulty := 0x0000FFFF }

def slowChain : Blockchain := growChain 0 ((List.range 2999).map slowBlock)

/-- What the difficulty and the pruning of the slow chain read. It is stated for any chain:
the kernel must not evaluate the 3000 blocks. -/
def IsSlow (chain : Blockchain) : Prop :=
  chain.height.toNat = 3000 ∧ chain.pruneHeight = 0 ∧
    ∀ i, i < 2999 → chain.blocks (i + 1) =
      some { slowBlock i with height := UInt32.ofNat (i + 1) }

theorem slowChain_isSlow : IsSlow slowChain := by
  have hlen : ((List.range 2999).map slowBlock).length = 2999 := by
    rw [List.length_map, List.length_range]
  obtain ⟨hheight, hprune, hblocks⟩ := growChain_spec 0 ((List.range 2999).map slowBlock)
    (by rw [hlen]; decide)
  rw [hlen] at hheight
  refine ⟨hheight, hprune, fun i hi => ?_⟩
  rw [slowChain, hblocks i (by rw [hlen]; exact hi), List.getElem_map, List.getElem_range]

theorem IsSlow.intervalStart_eq {chain : Blockchain} (h : IsSlow chain) :
    intervalStart chain = 984 := by
  unfold intervalStart
  rw [h.1, adjustmentInterval_toNat]

theorem IsSlow.difficulty {chain : Blockchain} (h : IsSlow chain) :
    consensusCalculateDifficulty consensusCreate chain = 16383 := by
  have hlong : ¬ chain.height < consensusCreate.adjustmentInterval := by
    rw [UInt32.lt_iff_toNat_lt, h.1, adjustmentInterval_toNat]
    omega
  have hfirst := h.2.2 983 (by omega)
  have hlast := h.2.2 2998 (by omega)
  rw [consensusCalculateDifficulty_eq, if_neg hlong, h.intervalStart_eq, h.1, hfirst, hlast]
  decide +kernel

theorem IsSlow.difficulty_pruned {chain : Blockchain} (h : IsSlow chain) :
    consensusCalculateDifficulty consensusCreate (blockchainPrune chain 1000) =
      0x0000FFFF := by
  apply consensusCalculateDifficulty_prune_of_freed
  left
  unfold Freed
  rw [h.intervalStart_eq, h.1, h.2.1]
  decide

theorem slowChain_pruned :
    consensusCalculateDifficulty consensusCreate slowChain = 16383 ∧
      consensusCalculateDifficulty consensusCreate (blockchainPrune slowChain 1000) =
        0x0000FFFF :=
  ⟨slowChain_isSlow.difficulty, slowChain_isSlow.difficulty_pruned⟩

end Blackstone.TokenNode
