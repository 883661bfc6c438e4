import Blackstone.TokenNode.Blockchain
import Blackstone.TokenNode.TxPool

/-!
# Mining

`miner.c`: taking transactions out of the pool into a block, and the nonce search. The
nonce search hashes the block with the digest of the previous attempt still in its
`block_hash` field and then overwrites that field, while `blockchain_validate` hashes the
block with the final digest in it. So a mined block only validates when both digests drive
the hash alike (`DigestStable`).

`minedChain_valid_iff`: a chain of mined blocks validates if and only if the winning
header of every block is stable. `oneRoundChain_not_valid` is a chain of one mined block that
does not.
-/

namespace Blackstone.TokenNode

/-- `miner_t`. -/
structure Miner where
  minerAddress : Address
  miningEnabled : Bool
  maxTransactionsPerBlock : UInt32

def minerCreate : Miner := ⟨Address.zero, true, 100⟩

/-! ## Merkle root -/

/-- The loop over the pairs of one level, in place. -/
def merklePairs (levels : Nat → Hash) (levelSize : Nat) : Nat → Hash :=
  (List.range (levelSize / 2)).foldl (fun levels i =>
    Function.update levels i
      (hashCompute ((levels (i * 2)).bytes.toList ++ (levels (i * 2 + 1)).bytes.toList)))
    levels

/-- The loop over the levels. -/
def merkleLoop (levels : Nat → Hash) (levelSize : Nat) : Hash :=
  if h : levelSize > 1 then
    let levels := merklePairs levels levelSize
    if levelSize % 2 = 1 then
      merkleLoop (Function.update levels (levelSize / 2) (levels (levelSize - 1)))
        (levelSize / 2 + 1)
    else merkleLoop levels (levelSize / 2)
  else levels 0
termination_by levelSize
decreasing_by all_goals omega

def computeMerkleRoot (txHashes : List Hash) : Hash :=
  match txHashes with
  | [] => Hash.zero
  | [txHash] => txHash
  | _ => merkleLoop (fun i => txHashes.getD i Hash.zero) txHashes.length

/-! ## Block creation -/

/-- The loop that pops transactions, with `n` rounds left. `malloc i` is the address of
the `i`-th popped copy. -/
def popLoop (malloc : Nat → UInt64) : Nat → TxPool → List TxPtr → List TxPtr × TxPool
  | 0, pool, txs => (txs, pool)
  | n + 1, pool, txs =>
    if txs.length < 100 then
      match txPoolPop pool with
      | (some tx, pool') => popLoop malloc n pool' (txs ++ [⟨malloc txs.length, tx⟩])
      | (none, _) => (txs, pool)
    else (txs, pool)

/-- The part of `miner_create_block` before the pool is read. -/
def blockHeader (miner : Miner) (chain : Blockchain) (now : UInt64) : Block :=
  { Block.zero with
    timestamp := now
    height := chain.height
    miner := miner.minerAddress
    reward := 5000000000
    difficulty := 0x0000FFFF
    prevHash := match blockchainGetLastBlock chain with
      | some last => last.blockHash
      | none => Hash.zero }

/-- The part of `miner_create_block` after the pool is read. -/
def fillBlock (block : Block) (txs : List TxPtr) : Block :=
  { block with
    transactions := txs
    txCount := UInt32.ofNat txs.length
    merkleRoot := if txs.length > 0 then computeMerkleRoot (txs.map (fun p => p.tx.txHash))
      else block.merkleRoot }

/-- `miner_create_block` at time `now`, when the allocations succeed. -/
def minerCreateBlock (miner : Miner) (pool : TxPool) (chain : Blockchain) (now : UInt64)
    (malloc : Nat → UInt64) : Block × TxPool :=
  let (txs, pool) := popLoop malloc miner.maxTransactionsPerBlock.toNat pool []
  (fillBlock (blockHeader miner chain now) txs, pool)

/-! ## The nonce search -/

def miningTarget (difficulty : UInt32) : UInt32 :=
  let target := 0x0000FFFF / (if difficulty ≠ 0 then difficulty else 1)
  if target < 1 then 1 else target

/-- `memcpy(&hash_prefix, block_hash.bytes, 4)`. -/
def hashPrefix (h : Hash) : Nat :=
  h.bytes[0].toNat + 256 * h.bytes[1].toNat + 65536 * h.bytes[2].toNat +
    16777216 * h.bytes[3].toNat

/-- The loop of `miner_mine_block`, with `n` rounds left. -/
def mineLoop (target : UInt32) : Nat → UInt32 → Block → Bool × Block
  | 0, _, block => (false, block)
  | n + 1, nonce, block =>
    let block := storeDigest { block with nonce := nonce }
    if hashPrefix block.blockHash ≤ target.toNat then (true, block)
    else mineLoop target n (nonce + 1) block

/-- `miner_mine_block`. -/
def minerMineBlock (block : Block) : Bool × Block :=
  mineLoop (miningTarget block.difficulty) 0xFFFFFFFF 0 block

/-- The header that the loop hashes in the round it wins. -/
def winningLoop (target : UInt32) : Nat → UInt32 → Block → Option Block
  | 0, _, _ => none
  | n + 1, nonce, block =>
    if hashPrefix (storeDigest { block with nonce := nonce }).blockHash ≤ target.toNat then
      some { block with nonce := nonce }
    else winningLoop target n (nonce + 1) (storeDigest { block with nonce := nonce })

def winningHeader (block : Block) : Option Block :=
  winningLoop (miningTarget block.difficulty) 0xFFFFFFFF 0 block

/-- The digest of the header drives the hash states as the digest of the previous attempt
does, whose place it takes. -/
def DigestStable (header : Block) : Prop :=
  absorbDigest (hashCompute (blockBytes header)) = absorbDigest header.blockHash

theorem digestStable_iff (header : Block) :
    DigestStable header ↔
      hashCompute (blockBytes (storeDigest header)) = (storeDigest header).blockHash := by
  have hsplit : ∀ block : Block, ∃ rest, blockBytes block = block.blockHash.bytes.toList ++ rest ∧
      ∀ h, blockBytes { block with blockHash := h } = h.bytes.toList ++ rest := by
    intro block
    refine ⟨(blockBytes block).drop 32, ?_, fun h => ?_⟩ <;>
      simp only [blockBytes, List.append_assoc] <;> simp
  obtain ⟨rest, hbytes, hstored⟩ := hsplit header
  rw [storeDigest_blockHash]
  conv_rhs => rw [storeDigest, hstored]
  conv_rhs => rhs; rw [hbytes]
  rw [hashCompute_append_inj]
  rfl

theorem mineLoop_true_iff (target : UInt32) (n : Nat) (nonce : UInt32) (block mined : Block) :
    mineLoop target n nonce block = (true, mined) ↔
      ∃ header, winningLoop target n nonce block = some header ∧
        mined = storeDigest header := by
  induction n generalizing nonce block with
  | zero => simp [mineLoop, winningLoop]
  | succ n ih =>
    rw [mineLoop, winningLoop]
    by_cases hwin : hashPrefix (storeDigest { block with nonce := nonce }).blockHash ≤
        target.toNat
    · rw [if_pos hwin, if_pos hwin]
      constructor
      · intro h
        exact ⟨_, rfl, (Prod.mk.inj h).2.symm⟩
      · intro h
        obtain ⟨header, hsome, rfl⟩ := h
        rw [Option.some.inj hsome]
    · rw [if_neg hwin, if_neg hwin]
      exact ih _ _

theorem winningLoop_fields (target : UInt32) (n : Nat) (nonce : UInt32) (block header : Block)
    (h : winningLoop target n nonce block = some header) :
    header.prevHash = block.prevHash ∧ header.height = block.height := by
  induction n generalizing nonce block with
  | zero => cases h
  | succ n ih =>
    rw [winningLoop] at h
    split at h
    · obtain rfl := Option.some.inj h
      exact ⟨rfl, rfl⟩
    · have hrest := ih _ _ h
      rwa [storeDigest_prevHash, storeDigest_height] at hrest

/-! ## Chains of mined blocks -/

/-- The chains made by rounds of `miner_create_block`, a successful `miner_mine_block` and
`blockchain_add_block`, with the winning headers of the blocks that were added. A round on
a chain of `MAX_BLOCKS` blocks adds nothing. -/
inductive MinedChain (start : UInt64) : List Block → Blockchain → Prop
  | genesis : MinedChain start [] (blockchainCreate start)
  | round {headers : List Block} {chain chain' : Blockchain} {header block : Block}
      (prior : MinedChain start headers chain) (miner : Miner) (pool : TxPool)
      (now : UInt64) (malloc : Nat → UInt64)
      (hmine : minerMineBlock (minerCreateBlock miner pool chain now malloc).1 = (true, block))
      (hwin : winningHeader (minerCreateBlock miner pool chain now malloc).1 = some header)
      (hadd : blockchainAddBlock chain block = (true, chain')) :
      MinedChain start (headers ++ [header]) chain'
  | full {headers : List Block} {chain : Blockchain} {block : Block}
      (prior : MinedChain start headers chain) (miner : Miner) (pool : TxPool)
      (now : UInt64) (malloc : Nat → UInt64)
      (hmine : minerMineBlock (minerCreateBlock miner pool chain now malloc).1 = (true, block))
      (hadd : (blockchainAddBlock chain block).1 = false) :
      MinedChain start headers chain

/-- A created block carries the height of the chain and the digest of its last block. -/
theorem minerCreateBlock_fields (miner : Miner) (pool : TxPool) (chain : Blockchain)
    (now : UInt64) (malloc : Nat → UInt64) :
    (minerCreateBlock miner pool chain now malloc).1.height = chain.height ∧
      ∀ last, blockchainGetLastBlock chain = some last →
        (minerCreateBlock miner pool chain now malloc).1.prevHash = last.blockHash := by
  refine ⟨rfl, fun last hlast => ?_⟩
  change (blockHeader miner chain now).prevHash = last.blockHash
  simp only [blockHeader, hlast]

theorem blockchainGetLastBlock_eq {chain : Blockchain} (hpos : 0 < chain.height.toNat) :
    blockchainGetLastBlock chain = chain.blocks (chain.height.toNat - 1) := by
  have hzero : chain.height ≠ 0 := by
    intro h
    rw [h] at hpos
    exact Nat.lt_irrefl 0 hpos
  have hone : (1 : UInt32) ≤ chain.height := by
    rw [UInt32.le_iff_toNat_le, UInt32.toNat_one]
    exact hpos
  have hsub : (chain.height - 1).toNat = chain.height.toNat - 1 := by
    rw [UInt32.toNat_sub_of_le _ _ hone, UInt32.toNat_one]
  rw [blockchainGetLastBlock, if_neg hzero, blockchainGetBlock, hsub, if_neg]
  rw [ge_iff_le, UInt32.le_iff_toNat_le, hsub]
  omega

/-- Every slot below the height of a mined chain is filled. -/
theorem MinedChain.filled {start : UInt64} {headers : List Block} {chain : Blockchain}
    (h : MinedChain start headers chain) :
    0 < chain.height.toNat ∧ ∀ i, i < chain.height.toNat → (chain.blocks i).isSome := by
  induction h with
  | genesis =>
    rw [height_create]
    refine ⟨Nat.one_pos, fun i hi => ?_⟩
    obtain rfl : i = 0 := by omega
    rfl
  | @round headers chain chain' header block prior miner pool now malloc hmine hwin hadd ih =>
    have hlt := height_lt_of_added hadd
    rw [blockchainAddBlock_eq hlt] at hadd
    obtain rfl := (Prod.mk.inj hadd).2
    refine ⟨by rw [toNat_height_succ hlt]; omega, fun i hi => ?_⟩
    dsimp only at hi ⊢
    rw [toNat_height_succ hlt] at hi
    by_cases hlast : i = chain.height.toNat
    · rw [hlast, Function.update_self]
      rfl
    · rw [Function.update_of_ne hlast]
      exact ih.2 i (by omega)
  | full prior miner pool now malloc hmine hadd ih => exact ih

/-- A chain of mined blocks validates exactly when each winning header has the same digest
before and after the digest is stored in it. -/
theorem minedChain_valid_iff {start : UInt64} {headers : List Block} {chain : Blockchain}
    (h : MinedChain start headers chain) :
    blockchainValidate chain = true ↔ ∀ header ∈ headers, DigestStable header := by
  induction h with
  | genesis =>
    refine ⟨fun _ header hmem => absurd hmem (List.not_mem_nil), fun _ => ?_⟩
    rw [blockchainValidate_iff, height_create]
    exact ⟨Nat.one_pos, fun i hi hlt => by omega⟩
  | @round headers chain chain' header block prior miner pool now malloc hmine hwin hadd ih =>
    obtain ⟨hpos, hfilled⟩ := prior.filled
    obtain ⟨header', hwin', rfl⟩ := (mineLoop_true_iff _ _ _ _ _).mp hmine
    obtain rfl := Option.some.inj (hwin.symm.trans hwin')
    have hfields := winningLoop_fields _ _ _ _ _ hwin
    have hcreated := minerCreateBlock_fields miner pool chain now malloc
    have hlt := height_lt_of_added hadd
    obtain ⟨prev, hprev⟩ := Option.isSome_iff_exists.mp
      (hfilled (chain.height.toNat - 1) (by omega))
    have hlink : (storeDigest header).prevHash = prev.blockHash := by
      rw [storeDigest_prevHash, hfields.1]
      exact hcreated.2 prev ((blockchainGetLastBlock_eq hpos).trans hprev)
    have hheight : (storeDigest header).height = chain.height := by
      rw [storeDigest_height, hfields.2, hcreated.1]
    have hvalid := blockchainValidate_add hlt hpos hheight hprev hlink
    rw [hadd] at hvalid
    rw [hvalid, ih, ← digestStable_iff]
    simp only [List.mem_append, List.mem_singleton]
    constructor
    · intro hboth header' hmem
      rcases hmem with hmem | rfl
      · exact hboth.1 header' hmem
      · exact hboth.2
    · intro hall
      exact ⟨fun header' hmem => hall header' (Or.inl hmem), hall header (Or.inr rfl)⟩
  | full prior miner pool now malloc hmine hadd ih => exact ih

/-! ## A mined block that does not validate -/

/-- The digest of the genesis block of time 1700000000. -/
def genesisDigest : Hash :=
  ⟨#v[0x90, 0x22, 0xc4, 0x9d, 0x19, 0x5e, 0x5e, 0xce, 0x08, 0x53, 0x2b, 0x86, 0xad, 0x3a, 0x4d, 0x76,
    0x98, 0x71, 0xef, 0x1b, 0xb4, 0x64, 0x13, 0xb8, 0x90, 0x22, 0xc4, 0x9d, 0x19, 0x5e, 0x5e, 0xce]⟩

/-- The digest that wins the first nonce for the block below. -/
def winningDigest : Hash :=
  ⟨#v[0x01, 0x00, 0x00, 0x00, 0x30, 0xf2, 0x7f, 0xc7, 0xa9, 0x2f, 0xe6, 0xfd, 0x6b, 0x7f, 0xa2, 0x1b,
    0xa8, 0x2f, 0xe6, 0xfd, 0x5b, 0x8d, 0xdd, 0xdc, 0x01, 0x00, 0x00, 0x00, 0x30, 0xf2, 0x7f, 0xc7]⟩

/-- The block created for an empty pool at time 2860629580 on that genesis block. -/
def emptyBlock : Block :=
  (minerCreateBlock minerCreate (txPoolCreate 1) (blockchainCreate 1700000000) 2860629580
    (fun _ => 0)).1

/-- The chain after mining and adding it. -/
def oneRoundChain : Blockchain :=
  (blockchainAddBlock (blockchainCreate 1700000000) (minerMineBlock emptyBlock).2).2

theorem genesisDigest_eq :
    hashCompute (blockBytes (genesisHeader 1700000000)) = genesisDigest := by
  rw [hashCompute_eq]
  decide +kernel

theorem emptyBlock_eq : emptyBlock =
    { Block.zero with
      timestamp := 2860629580
      height := 1
      prevHash := genesisDigest
      reward := 5000000000
      difficulty := 0x0000FFFF } := by
  have hcreate : emptyBlock = blockHeader minerCreate (blockchainCreate 1700000000) 2860629580 :=
    rfl
  have hlast : blockchainGetLastBlock (blockchainCreate 1700000000) =
      some (storeDigest (genesisHeader 1700000000)) := by
    rw [blockchainGetLastBlock_eq (by rw [height_create]; exact Nat.one_pos)]
    rfl
  rw [hcreate, blockHeader, hlast]
  simp only [storeDigest_blockHash, genesisDigest_eq]
  rfl

theorem winningDigest_eq : hashCompute (blockBytes emptyBlock) = winningDigest := by
  rw [emptyBlock_eq, hashCompute_eq]
  decide +kernel

theorem not_digestStable_emptyBlock : ¬ DigestStable emptyBlock := by
  rw [digestStable_iff, storeDigest_blockHash]
  unfold storeDigest
  rw [winningDigest_eq, emptyBlock_eq, hashCompute_eq]
  decide +kernel

theorem emptyBlock_nonce : { emptyBlock with nonce := 0 } = emptyBlock := by
  rw [emptyBlock_eq]
  rfl

theorem emptyBlock_wins : minerMineBlock emptyBlock = (true, storeDigest emptyBlock) ∧
    winningHeader emptyBlock = some emptyBlock := by
  have hwin : hashPrefix (storeDigest { emptyBlock with nonce := 0 }).blockHash ≤
      (miningTarget emptyBlock.difficulty).toNat := by
    rw [emptyBlock_nonce, storeDigest_blockHash, winningDigest_eq, emptyBlock_eq]
    decide +kernel
  have hrounds : (0xFFFFFFFF : Nat) = 0xFFFFFFFE + 1 := rfl
  rw [minerMineBlock, winningHeader, hrounds, mineLoop, winningLoop]
  rw [if_pos hwin, if_pos hwin, emptyBlock_nonce]
  exact ⟨rfl, rfl⟩

theorem oneRoundChain_mined : MinedChain 1700000000 [emptyBlock] oneRoundChain := by
  have hmine := emptyBlock_wins.1
  have hadd : blockchainAddBlock (blockchainCreate 1700000000) (storeDigest emptyBlock) =
      (true, oneRoundChain) := by
    rw [oneRoundChain, hmine]
    rw [blockchainAddBlock_eq (by rw [height_create]; decide)]
  exact MinedChain.round .genesis minerCreate (txPoolCreate 1) 2860629580 (fun _ => 0) hmine
    emptyBlock_wins.2 hadd

theorem oneRoundChain_valid_iff :
    blockchainValidate oneRoundChain = true ↔
      ∀ header ∈ [emptyBlock], DigestStable header :=
  minedChain_valid_iff oneRoundChain_mined

theorem oneRoundChain_not_valid :
    MinedChain 1700000000 [emptyBlock] oneRoundChain ∧
      blockchainValidate oneRoundChain = false := by
  refine ⟨oneRoundChain_mined, ?_⟩
  have hlast : (blockchainCreate 1700000000).blocks
      ((blockchainCreate 1700000000).height.toNat - 1) =
      some (storeDigest (genesisHeader 1700000000)) := rfl
  have hlink : (storeDigest emptyBlock).prevHash =
      (storeDigest (genesisHeader 1700000000)).blockHash := by
    rw [storeDigest_prevHash, storeDigest_blockHash, genesisDigest_eq, emptyBlock_eq]
  have hheight : (storeDigest emptyBlock).height = (blockchainCreate 1700000000).height := by
    rw [storeDigest_height, emptyBlock_eq]
    rfl
  have hvalid := blockchainValidate_add (by rw [height_create]; decide)
    (by rw [height_create]; exact Nat.one_pos) hheight hlast hlink
  rw [oneRoundChain, emptyBlock_wins.1, ← Bool.not_eq_true, hvalid]
  exact fun hboth => not_digestStable_emptyBlock ((digestStable_iff _).mpr hboth.2)

end Blackstone.TokenNode
