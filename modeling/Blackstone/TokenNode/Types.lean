import Mathlib.Data.Nat.Notation

/-!
# Data types of the token node

The structures of `types.h`, field by field. Machine integers keep their width; a
pointer to a transaction is its address together with the transaction it points to.
-/

namespace Blackstone.TokenNode

/-- `ADDRESS_LEN` bytes. -/
structure Address where
  bytes : Vector UInt8 32
  deriving DecidableEq

/-- `HASH_LEN` bytes. -/
structure Hash where
  bytes : Vector UInt8 32
  deriving DecidableEq

/-- `address_t x = {0}`. -/
def Address.zero : Address := ⟨Vector.replicate 32 0⟩

/-- `hash_t x = {0}`. -/
def Hash.zero : Hash := ⟨Vector.replicate 32 0⟩

/-- `transaction_t`. -/
structure Transaction where
  sender : Address
  receiver : Address
  amount : UInt64
  tokenId : UInt32
  timestamp : UInt64
  nonce : UInt64
  txHash : Hash
  signature : Hash
  fee : UInt32
  gasPrice : UInt32
  gasLimit : UInt64
  version : UInt8
  processed : Bool
  deriving DecidableEq

/-- A `transaction_t*` made by `malloc`: its address and what it points to. -/
structure TxPtr where
  addr : UInt64
  tx : Transaction
  deriving DecidableEq

/-- `block_t`. The slots of `transactions` after the listed pointers are `NULL`, as the
block is made by `calloc`. The type declares no `version` field, so the assignments to
one in the sources have no counterpart. -/
structure Block where
  blockHash : Hash
  prevHash : Hash
  timestamp : UInt64
  height : UInt32
  txCount : UInt32
  nonce : UInt32
  merkleRoot : Hash
  miner : Address
  reward : UInt64
  difficulty : UInt32
  transactions : List TxPtr
  deriving DecidableEq

/-- `calloc(1, sizeof(block_t))`. -/
def Block.zero : Block where
  blockHash := Hash.zero
  prevHash := Hash.zero
  timestamp := 0
  height := 0
  txCount := 0
  nonce := 0
  merkleRoot := Hash.zero
  miner := Address.zero
  reward := 0
  difficulty := 0
  transactions := []

end Blackstone.TokenNode
