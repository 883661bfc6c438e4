import Mathlib.Logic.Function.Basic
import Mathlib.Tactic.Common
import Blackstone.TokenNode.Hash

/-!
# The blockchain of the token node

`blockchain.c`. A block is hashed as it lies in memory: `blockBytes` lists its
`sizeof(block_t)` bytes with the padding of the x64 layout, the digest field included.

The results describe the operations in the terms that the chain properties use:
`blockchainValidate_iff` reads the loop as a statement about all blocks after the first,
`blockchainValidate_add` follows one appended block, and `blockchainPrune_blocks` says
which blocks a pruning frees.
-/

namespace Blackstone.TokenNode

def maxBlocks : Nat := 100000

/-- `blockchain_t`, without its lock. A freed or never used slot is `none`. -/
structure Blockchain where
  blocks : Nat → Option Block
  hashes : Nat → Hash
  height : UInt32
  totalDifficulty : UInt64
  pruneHeight : UInt32

/-- The memory of a `block_t`: four bytes of padding stand before `reward` and before the
array of `BLOCK_MAX_TX` pointers. -/
def blockBytes (block : Block) : List UInt8 :=
  block.blockHash.bytes.toList ++ block.prevHash.bytes.toList ++
    leBytes 8 block.timestamp.toNat ++ leBytes 4 block.height.toNat ++
    leBytes 4 block.txCount.toNat ++ leBytes 4 block.nonce.toNat ++
    block.merkleRoot.bytes.toList ++ block.miner.bytes.toList ++ List.replicate 4 0 ++
    leBytes 8 block.reward.toNat ++ leBytes 4 block.difficulty.toNat ++ List.replicate 4 0 ++
    block.transactions.flatMap (fun p => leBytes 8 p.addr.toNat) ++
    List.replicate (8 * (1000 - block.transactions.length)) 0

/-- The genesis block before its digest is stored. -/
def genesisHeader (now : UInt64) : Block :=
  { Block.zero with timestamp := now, difficulty := 0x0000FFFF, reward := 5000000000 }

/-- `hash_compute(block, sizeof(block_t), &block->block_hash)`. -/
def storeDigest (block : Block) : Block :=
  { block with blockHash := hashCompute (blockBytes block) }

@[simp] theorem storeDigest_prevHash (block : Block) :
    (storeDigest block).prevHash = block.prevHash := rfl

@[simp] theorem storeDigest_height (block : Block) :
    (storeDigest block).height = block.height := rfl

@[simp] theorem storeDigest_blockHash (block : Block) :
    (storeDigest block).blockHash = hashCompute (blockBytes block) := rfl

/-- `blockchain_create` at time `now`, when the allocations succeed. -/
def blockchainCreate (now : UInt64) : Blockchain where
  blocks := Function.update (fun _ => none) 0 (some (storeDigest (genesisHeader now)))
  hashes := Function.update (fun _ => Hash.zero) 0 (storeDigest (genesisHeader now)).blockHash
  height := 1
  totalDifficulty := 0x0000FFFF
  pruneHeight := 0

def blockchainAddBlock (chain : Blockchain) (block : Block) : Bool × Blockchain :=
  if chain.height.toNat ≥ maxBlocks then (false, chain)
  else
    let block := { block with height := chain.height }
    (true, { chain with
      blocks := Function.update chain.blocks chain.height.toNat (some block)
      hashes := Function.update chain.hashes chain.height.toNat block.blockHash
      totalDifficulty := chain.totalDifficulty + block.difficulty.toUInt64
      height := chain.height + 1 })

def blockchainGetBlock (chain : Blockchain) (height : UInt32) : Option Block :=
  if height ≥ chain.height then none else chain.blocks height.toNat

def blockchainGetLastBlock (chain : Blockchain) : Option Block :=
  if chain.height = 0 then none else blockchainGetBlock chain (chain.height - 1)

/-- One round of the loop of `blockchain_validate`. -/
def blockOk (chain : Blockchain) (i : Nat) : Bool :=
  match chain.blocks i, chain.blocks (i - 1) with
  | some block, some prev =>
    hashCompute (blockBytes block) = block.blockHash && block.prevHash = prev.blockHash
  | _, _ => false

def blockchainValidate (chain : Blockchain) : Bool :=
  if chain.height = 0 then false
  else (List.range' 1 (chain.height.toNat - 1)).all (blockOk chain)

/-- One round of the loop of `blockchain_prune`. -/
def freeBlock (blocks : Nat → Option Block) (i : Nat) : Nat → Option Block :=
  if (blocks i).isSome ∧ 0 < i then Function.update blocks i none else blocks

def blockchainPrune (chain : Blockchain) (keepCount : UInt32) : Blockchain :=
  if chain.height ≤ keepCount then chain
  else
    let newPrune := chain.height - keepCount
    if newPrune > chain.pruneHeight then
      { chain with
        blocks := (List.range' chain.pruneHeight.toNat
          (newPrune.toNat - chain.pruneHeight.toNat)).foldl freeBlock chain.blocks
        pruneHeight := newPrune }
    else chain

/-! ## Validation -/

theorem blockchainValidate_iff (chain : Blockchain) :
    blockchainValidate chain = true ↔
      0 < chain.height.toNat ∧
        ∀ i, 0 < i → i < chain.height.toNat → blockOk chain i = true := by
  unfold blockchainValidate
  have hzero : chain.height = 0 ↔ chain.height.toNat = 0 := by
    rw [← UInt32.toNat_inj, UInt32.toNat_zero]
  by_cases h : chain.height = 0
  · rw [if_pos h]
    have := hzero.mp h
    exact ⟨fun hf => absurd hf Bool.false_ne_true, fun hpos => by omega⟩
  · rw [if_neg h, List.all_eq_true]
    have hpos : chain.height.toNat ≠ 0 := fun hz => h (hzero.mpr hz)
    constructor
    · intro hall
      refine ⟨by omega, fun i hi hlt => hall i ?_⟩
      exact List.mem_range'_1.mpr (by omega)
    · intro hall i hi
      have := List.mem_range'_1.mp hi
      exact hall.2 i (by omega) (by omega)

theorem blockOk_iff (chain : Blockchain) (i : Nat) :
    blockOk chain i = true ↔
      ∃ block prev, chain.blocks i = some block ∧ chain.blocks (i - 1) = some prev ∧
        hashCompute (blockBytes block) = block.blockHash ∧
        block.prevHash = prev.blockHash := by
  unfold blockOk
  cases hb : chain.blocks i with
  | none => simp
  | some block =>
    cases hp : chain.blocks (i - 1) with
    | none => simp
    | some prev => simp

theorem blockOk_congr {chain chain' : Blockchain} {i : Nat}
    (hi : chain'.blocks i = chain.blocks i)
    (hprev : chain'.blocks (i - 1) = chain.blocks (i - 1)) :
    blockOk chain' i = blockOk chain i := by
  rw [blockOk, blockOk, hi, hprev]

theorem toNat_height_succ {chain : Blockchain} (h : chain.height.toNat < maxBlocks) :
    (chain.height + 1).toNat = chain.height.toNat + 1 := by
  rw [UInt32.toNat_add]
  refine Nat.mod_eq_of_lt ?_
  change chain.height.toNat + 1 < 2 ^ 32
  unfold maxBlocks at h
  omega

theorem height_create (now : UInt64) : (blockchainCreate now).height.toNat = 1 := rfl

/-- Below the height limit an addition stores the block with the height of the chain. -/
theorem blockchainAddBlock_eq {chain : Blockchain} (h : chain.height.toNat < maxBlocks)
    (block : Block) :
    blockchainAddBlock chain block =
      (true, { chain with
        blocks := Function.update chain.blocks chain.height.toNat
          (some { block with height := chain.height })
        hashes := Function.update chain.hashes chain.height.toNat block.blockHash
        totalDifficulty := chain.totalDifficulty + block.difficulty.toUInt64
        height := chain.height + 1 }) := by
  rw [blockchainAddBlock, if_neg (by omega)]

theorem height_lt_of_added {chain chain' : Blockchain} {block : Block}
    (hadd : blockchainAddBlock chain block = (true, chain')) :
    chain.height.toNat < maxBlocks := by
  by_contra hge
  rw [blockchainAddBlock, if_pos (by omega)] at hadd
  cases (Prod.mk.inj hadd).1

/-- Validating an extended chain checks the old chain and the new block. -/
theorem blockchainValidate_add {chain : Blockchain} (hlt : chain.height.toNat < maxBlocks)
    (hpos : 0 < chain.height.toNat) {block prev : Block} (hheight : block.height = chain.height)
    (hprev : chain.blocks (chain.height.toNat - 1) = some prev)
    (hlink : block.prevHash = prev.blockHash) :
    blockchainValidate (blockchainAddBlock chain block).2 = true ↔
      blockchainValidate chain = true ∧ hashCompute (blockBytes block) = block.blockHash := by
  have hself : { block with height := chain.height } = block := by
    rw [← hheight]
  have hadd := blockchainAddBlock_eq hlt block
  rw [hself] at hadd
  have hblocks : (blockchainAddBlock chain block).2.blocks =
      Function.update chain.blocks chain.height.toNat (some block) := by rw [hadd]
  have hnext : (blockchainAddBlock chain block).2.height = chain.height + 1 := by rw [hadd]
  generalize (blockchainAddBlock chain block).2 = next at hblocks hnext ⊢
  have hold : ∀ i, 0 < i → i < chain.height.toNat → blockOk next i = blockOk chain i := by
    intro i _ hi
    apply blockOk_congr
    · rw [hblocks, Function.update_of_ne (by omega)]
    · rw [hblocks, Function.update_of_ne (by omega)]
  have hnew : blockOk next chain.height.toNat = true ↔
      hashCompute (blockBytes block) = block.blockHash := by
    have hlast : Function.update chain.blocks chain.height.toNat (some block)
        (chain.height.toNat - 1) = some prev := by
      rw [Function.update_of_ne (by omega), hprev]
    rw [blockOk_iff]
    simp only [hblocks, Function.update_self, hlast, Option.some.injEq]
    constructor
    · intro h
      obtain ⟨b, p, rfl, _, hdigest, _⟩ := h
      exact hdigest
    · intro hdigest
      exact ⟨block, prev, rfl, rfl, hdigest, hlink⟩
  rw [blockchainValidate_iff, blockchainValidate_iff, hnext]
  simp only [toNat_height_succ hlt]
  constructor
  · intro h
    obtain ⟨_, hall⟩ := h
    refine ⟨⟨hpos, fun i hi hilt => ?_⟩, hnew.mp (hall _ hpos (by omega))⟩
    rw [← hold i hi hilt]
    exact hall i hi (by omega)
  · intro h
    obtain ⟨⟨_, hall⟩, hdigest⟩ := h
    refine ⟨by omega, fun i hi hilt => ?_⟩
    rcases Nat.lt_succ_iff_lt_or_eq.mp hilt with hilt | rfl
    · rw [hold i hi hilt]
      exact hall i hi hilt
    · exact hnew.mpr hdigest

/-! ## Pruning -/

theorem foldl_freeBlock (blocks : Nat → Option Block) (start n i : Nat) :
    (List.range' start n).foldl freeBlock blocks i =
      if 0 < i ∧ start ≤ i ∧ i < start + n then none else blocks i := by
  induction n with
  | zero => rw [if_neg (by omega)]; rfl
  | succ n ih =>
    rw [List.range'_1_concat, List.foldl_append, List.foldl_cons, List.foldl_nil, freeBlock]
    by_cases hi : i = start + n
    · subst hi
      split
      · rename_i hfree
        rw [Function.update_self, if_pos ⟨hfree.2, by omega, by omega⟩]
      · rename_i hkeep
        rw [ih, if_neg (by omega)]
        by_cases hpos : 0 < start + n
        · rw [if_pos ⟨hpos, by omega, by omega⟩]
          -- the slot was empty before, so the loop leaves it empty
          have hnone : ¬ ((List.range' start n).foldl freeBlock blocks (start + n)).isSome :=
            fun hsome => hkeep ⟨hsome, hpos⟩
          rw [ih, if_neg (by omega)] at hnone
          exact Option.not_isSome_iff_eq_none.mp hnone
        · rw [if_neg (by omega)]
    · have hframe : (if ((List.range' start n).foldl freeBlock blocks (start + n)).isSome ∧
            0 < start + n then
          Function.update ((List.range' start n).foldl freeBlock blocks) (start + n) none
          else (List.range' start n).foldl freeBlock blocks) i =
          (List.range' start n).foldl freeBlock blocks i := by
        split
        · rw [Function.update_of_ne hi]
        · rfl
      rw [hframe, ih]
      exact if_congr (by omega) rfl rfl

/-- The slots that `blockchain_prune` empties. -/
def Freed (chain : Blockchain) (keepCount : UInt32) (i : Nat) : Prop :=
  0 < i ∧ chain.pruneHeight.toNat ≤ i ∧ i + keepCount.toNat < chain.height.toNat

instance (chain : Blockchain) (keepCount : UInt32) (i : Nat) :
    Decidable (Freed chain keepCount i) := inferInstanceAs (Decidable (_ ∧ _ ∧ _))

theorem blockchainPrune_height (chain : Blockchain) (keepCount : UInt32) :
    (blockchainPrune chain keepCount).height = chain.height := by
  unfold blockchainPrune
  split
  · rfl
  · dsimp only
    split <;> rfl

/-- A pruning empties exactly the freed slots. -/
theorem blockchainPrune_blocks (chain : Blockchain) (keepCount : UInt32) (i : Nat) :
    (blockchainPrune chain keepCount).blocks i =
      if Freed chain keepCount i then none else chain.blocks i := by
  unfold blockchainPrune
  by_cases hkeep : chain.height ≤ keepCount
  · rw [if_pos hkeep]
    have hle := UInt32.le_iff_toNat_le.mp hkeep
    have hnot : ¬ Freed chain keepCount i := by
      intro hfreed
      obtain ⟨_, _, hlt⟩ := hfreed
      omega
    rw [if_neg hnot]
  · rw [if_neg hkeep]
    have hlt : ¬ chain.height.toNat ≤ keepCount.toNat :=
      fun h => hkeep (UInt32.le_iff_toNat_le.mpr h)
    have hsub : (chain.height - keepCount).toNat =
        chain.height.toNat - keepCount.toNat :=
      UInt32.toNat_sub_of_le _ _ (UInt32.le_iff_toNat_le.mpr (by omega))
    dsimp only
    by_cases hnew : chain.height - keepCount > chain.pruneHeight
    · rw [if_pos hnew]
      have hnew' := UInt32.lt_iff_toNat_lt.mp hnew
      rw [hsub] at hnew'
      simp only [foldl_freeBlock, hsub]
      exact if_congr (by unfold Freed; omega) rfl rfl
    · rw [if_neg hnew]
      have hnew' : ¬ chain.pruneHeight.toNat < (chain.height - keepCount).toNat :=
        fun h => hnew (UInt32.lt_iff_toNat_lt.mpr h)
      rw [hsub] at hnew'
      have hnot : ¬ Freed chain keepCount i := by
        intro hfreed
        obtain ⟨_, hge, hlt⟩ := hfreed
        omega
      rw [if_neg hnot]

end Blackstone.TokenNode
