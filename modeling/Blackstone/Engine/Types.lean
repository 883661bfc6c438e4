import Mathlib.Logic.Function.Basic

/-!
# Data types of the engine

The structures of `main_file.cpp` that the ledger, the transaction pool and the block
producer use. The fields that none of these functions reads are left out: hashes,
signatures, time stamps, memos and statistics.
-/

namespace Blackstone.Engine

/-- `ADDRESS_LEN` bytes. -/
structure Address where
  bytes : Vector UInt8 64
  deriving DecidableEq

/-- `address_t x = {0}`. -/
def Address.zero : Address := ⟨Vector.replicate 64 0⟩

/-- `transaction_t`. -/
structure Transaction where
  sender : Address
  receiver : Address
  amount : UInt64
  tokenId : UInt32
  fee : UInt32
  gasPrice : UInt32
  gasLimit : UInt64
  deadline : UInt32
  deriving DecidableEq

/-- `block_t`. -/
structure Block where
  height : UInt32
  transactions : List Transaction
  miner : Address
  reward : UInt64
  difficulty : UInt32
  gasUsed : UInt32
  gasLimit : UInt32
  deriving DecidableEq

def maxBlocks : Nat := 500000

def blockSize : Nat := 8192

/-- `blockchain_t`: the block pointers and the height. -/
structure Blockchain where
  blocks : Nat → Option Block
  height : UInt32

/-- `blockchain_get_block`. -/
def blockchainGetBlock (chain : Blockchain) (height : UInt32) : Option Block :=
  if height ≥ chain.height then none else chain.blocks height.toNat

/-- `blockchain_add_block`. -/
def blockchainAddBlock (chain : Blockchain) (block : Block) : Bool × Blockchain :=
  if chain.height.toNat ≥ maxBlocks then (false, chain)
  else
    (true, {
      blocks := Function.update chain.blocks chain.height.toNat
        (some { block with height := chain.height })
      height := chain.height + 1 })

/-- The genesis block, without the fields that are left out. -/
def genesis : Block where
  height := 0
  transactions := []
  miner := Address.zero
  reward := 5000000000
  difficulty := 0x0000FFFF
  gasUsed := 0
  gasLimit := 8000000

/-- `blockchain_create`, when the allocations succeed. -/
def blockchainCreate : Blockchain where
  blocks := Function.update (fun _ => none) 0 (some genesis)
  height := 1

end Blackstone.Engine
