import Mathlib.Algebra.BigOperators.Group.Finset.Piecewise
import Mathlib.Algebra.BigOperators.Intervals
import Blackstone.Engine.Types
import Blackstone.Library.Runs

/-!
# The registry of tokens

`nft_manager_create_collection` and `nft_manager_mint`. Collections and items are two tables, and
an item is numbered within its collection by the supply that it raises. `Consistent` links the
tables: read in the order of the items, the numbers given in a collection are 1 up to its supply.
It is an invariant of every list of calls (`consistent_run`).
-/

namespace Blackstone.Engine

open Runs

def maxNftCollections : ℕ := 1000

def maxNftItems : ℕ := 100000

/-- `nft_collection_t`, without `metadata_uri`, which is never set. -/
structure NftCollection where
  id : UInt32
  name : List UInt8
  symbol : List UInt8
  owner : Address
  totalSupply : UInt32
  maxSupply : UInt32
  createdAt : UInt64
  isFrozen : Bool
  royaltyBps : UInt64
  royaltyRecipient : Address

/-- `nft_item_t`. -/
structure NftItem where
  id : UInt64
  collectionId : UInt32
  owner : Address
  tokenId : UInt32
  metadataHash : Vector UInt8 64
  mintedAt : UInt64
  lastSalePrice : UInt64
  transferCount : UInt32
  isListed : Bool
  listedPrice : UInt64
  creator : Address
  royaltyPaid : UInt32

/-- `nft_manager_t`, without its lock and the two maps that nothing uses. -/
structure NftManager where
  collections : ℕ → NftCollection
  items : ℕ → NftItem
  collectionCount : UInt32
  itemCount : UInt32

/-- A `nft_collection_t` of zeros. -/
def NftCollection.zero : NftCollection where
  id := 0
  name := []
  symbol := []
  owner := Address.zero
  totalSupply := 0
  maxSupply := 0
  createdAt := 0
  isFrozen := false
  royaltyBps := 0
  royaltyRecipient := Address.zero

/-- A `nft_item_t` of zeros. -/
def NftItem.zero : NftItem where
  id := 0
  collectionId := 0
  owner := Address.zero
  tokenId := 0
  metadataHash := Vector.replicate 64 0
  mintedAt := 0
  lastSalePrice := 0
  transferCount := 0
  isListed := false
  listedPrice := 0
  creator := Address.zero
  royaltyPaid := 0

/-- `nft_manager_create`, when the allocation succeeds. -/
def nftManagerCreate : NftManager := ⟨fun _ => NftCollection.zero, fun _ => NftItem.zero, 0, 0⟩

/-- `nft_manager_create_collection` at time `now`. -/
def nftManagerCreateCollection (nm : NftManager) (name symbol : List UInt8) (owner : Address)
    (maxSupply : UInt32) (now : UInt64) : UInt32 × NftManager :=
  if nm.collectionCount.toNat ≥ maxNftCollections then (0xFFFFFFFF, nm)
  else
    let id := nm.collectionCount
    let col : NftCollection :=
      { id := id
        name := name.take 63
        symbol := symbol.take 15
        owner := owner
        totalSupply := 0
        maxSupply := maxSupply
        createdAt := now
        isFrozen := false
        royaltyBps := 250
        royaltyRecipient := owner }
    (id, { nm with
      collections := Function.update nm.collections id.toNat col
      collectionCount := nm.collectionCount + 1 })

/-- The item that `nft_manager_mint` fills in. -/
def mintedItem (nm : NftManager) (collectionId : UInt32) (receiver : Address)
    (metadata : Vector UInt8 64) (now : UInt64) : NftItem where
  id := nm.itemCount.toUInt64
  collectionId := collectionId
  owner := receiver
  tokenId := (nm.collections collectionId.toNat).totalSupply + 1
  metadataHash := metadata
  mintedAt := now
  lastSalePrice := 0
  transferCount := 0
  isListed := false
  listedPrice := 0
  creator := receiver
  royaltyPaid := 0

/-- `nft_manager_mint` at time `now`. -/
def nftManagerMint (nm : NftManager) (collectionId : UInt32) (receiver : Address)
    (metadata : Vector UInt8 64) (now : UInt64) : UInt64 × NftManager :=
  if collectionId ≥ nm.collectionCount then (0xFFFFFFFFFFFFFFFF, nm)
  else if nm.itemCount.toNat ≥ maxNftItems then (0xFFFFFFFFFFFFFFFF, nm)
  else
    let col := nm.collections collectionId.toNat
    if col.totalSupply ≥ col.maxSupply then (0xFFFFFFFFFFFFFFFF, nm)
    else
      let id := nm.itemCount.toUInt64
      let item := mintedItem nm collectionId receiver metadata now
      (id, { nm with
        collections := Function.update nm.collections collectionId.toNat
          { col with totalSupply := col.totalSupply + 1 }
        items := Function.update nm.items id.toNat item
        itemCount := nm.itemCount + 1 })

/-- A call. -/
inductive NftCall
  | createCollection (name symbol : List UInt8) (owner : Address) (maxSupply : UInt32)
      (now : UInt64)
  | mint (collectionId : UInt32) (receiver : Address) (metadata : Vector UInt8 64) (now : UInt64)

def NftManager.step (nm : NftManager) : NftCall → NftManager
  | .createCollection name symbol owner maxSupply now =>
    (nftManagerCreateCollection nm name symbol owner maxSupply now).2
  | .mint collectionId receiver metadata now =>
    (nftManagerMint nm collectionId receiver metadata now).2

/-! ## The invariant -/

namespace NftManager

/-- The supply of a collection. -/
def supply (nm : NftManager) (c : ℕ) : ℕ := (nm.collections c).totalSupply.toNat

/-- The numbers given in a collection, in the order of the items. -/
def tokenIds (nm : NftManager) (c : ℕ) : List ℕ :=
  ((List.range nm.itemCount.toNat).filter fun i =>
    decide ((nm.items i).collectionId.toNat = c)).map fun i => (nm.items i).tokenId.toNat

/-- The two tables agree. -/
structure Consistent (nm : NftManager) : Prop where
  collections_le : nm.collectionCount.toNat ≤ maxNftCollections
  items_le : nm.itemCount.toNat ≤ maxNftItems
  supply_le : ∀ c < nm.collectionCount.toNat,
    nm.supply c ≤ (nm.collections c).maxSupply.toNat
  supply_sum : ∑ c ∈ Finset.range nm.collectionCount.toNat, nm.supply c = nm.itemCount.toNat
  item_id : ∀ i < nm.itemCount.toNat, (nm.items i).id.toNat = i
  item_collection : ∀ i < nm.itemCount.toNat,
    (nm.items i).collectionId.toNat < nm.collectionCount.toNat
  tokenIds_eq : ∀ c < nm.collectionCount.toNat, nm.tokenIds c = List.range' 1 (nm.supply c)

theorem consistent_create : Consistent nftManagerCreate where
  collections_le := Nat.zero_le _
  items_le := Nat.zero_le _
  supply_le c hc := absurd hc (Nat.not_lt_zero c)
  supply_sum := rfl
  item_id i hi := absurd hi (Nat.not_lt_zero i)
  item_collection i hi := absurd hi (Nat.not_lt_zero i)
  tokenIds_eq c hc := absurd hc (Nat.not_lt_zero c)

/-- The table after a collection is added. -/
def addCollection (nm : NftManager) (col : NftCollection) : NftManager :=
  { nm with
    collections := Function.update nm.collections nm.collectionCount.toNat col
    collectionCount := nm.collectionCount + 1 }

/-- A new collection is refused, or it is empty and comes behind the others. -/
theorem createCollection_cases (nm : NftManager) (name symbol : List UInt8) (owner : Address)
    (maxSupply : UInt32) (now : UInt64) :
    (nftManagerCreateCollection nm name symbol owner maxSupply now).2 = nm ∨
      nm.collectionCount.toNat < maxNftCollections ∧
        ∃ col : NftCollection, col.totalSupply = 0 ∧
          (nftManagerCreateCollection nm name symbol owner maxSupply now).2 =
            nm.addCollection col := by
  rw [nftManagerCreateCollection]
  split_ifs with hfull
  · exact Or.inl rfl
  · exact Or.inr ⟨Nat.not_le.mp hfull, _, rfl, rfl⟩

/-- The tables after an item is added. -/
def addItem (nm : NftManager) (collectionId : UInt32) (item : NftItem) : NftManager :=
  { nm with
    collections := Function.update nm.collections collectionId.toNat
      { nm.collections collectionId.toNat with
        totalSupply := (nm.collections collectionId.toNat).totalSupply + 1 }
    items := Function.update nm.items nm.itemCount.toNat item
    itemCount := nm.itemCount + 1 }

/-- A mint is refused, or it adds an item with the next number of its collection. -/
theorem mint_cases (nm : NftManager) (collectionId : UInt32) (receiver : Address)
    (metadata : Vector UInt8 64) (now : UInt64) :
    (nftManagerMint nm collectionId receiver metadata now).2 = nm ∨
      collectionId.toNat < nm.collectionCount.toNat ∧ nm.itemCount.toNat < maxNftItems ∧
        nm.supply collectionId.toNat < (nm.collections collectionId.toNat).maxSupply.toNat ∧
        ∃ item : NftItem, item.id = nm.itemCount.toUInt64 ∧ item.collectionId = collectionId ∧
          item.tokenId = (nm.collections collectionId.toNat).totalSupply + 1 ∧
          (nftManagerMint nm collectionId receiver metadata now).2 =
            nm.addItem collectionId item := by
  rw [nftManagerMint]
  by_cases hcollection : collectionId ≥ nm.collectionCount
  · rw [if_pos hcollection]
    exact Or.inl rfl
  by_cases hfull : nm.itemCount.toNat ≥ maxNftItems
  · rw [if_neg hcollection, if_pos hfull]
    exact Or.inl rfl
  rw [if_neg hcollection, if_neg hfull]
  dsimp only
  by_cases hsupply : (nm.collections collectionId.toNat).totalSupply ≥
      (nm.collections collectionId.toNat).maxSupply
  · rw [if_pos hsupply]
    exact Or.inl rfl
  · rw [if_neg hsupply]
    refine Or.inr ⟨?_, Nat.not_le.mp hfull, ?_,
      mintedItem nm collectionId receiver metadata now, rfl, rfl, rfl, ?_⟩
    · rwa [ge_iff_le, UInt32.le_iff_toNat_le, Nat.not_le] at hcollection
    · rwa [ge_iff_le, UInt32.le_iff_toNat_le, Nat.not_le] at hsupply
    · rw [UInt32.toNat_toUInt64]
      rfl

theorem toNat_succ {n : UInt32} {bound : ℕ} (h : n.toNat < bound) (hbound : bound < 2 ^ 32) :
    (n + 1).toNat = n.toNat + 1 := by
  rw [UInt32.toNat_add]
  exact Nat.mod_eq_of_lt (Nat.lt_of_le_of_lt h hbound)

/-! ## A new collection -/

section Collection

variable {nm : NftManager} {col : NftCollection}

theorem collections_addCollection_of_lt {c : ℕ} (hc : c < nm.collectionCount.toNat) :
    (nm.addCollection col).collections c = nm.collections c :=
  Function.update_of_ne (Nat.ne_of_lt hc) _ _

theorem supply_addCollection_of_lt {c : ℕ} (hc : c < nm.collectionCount.toNat) :
    (nm.addCollection col).supply c = nm.supply c := by
  rw [supply, collections_addCollection_of_lt hc, supply]

theorem supply_addCollection_self (hempty : col.totalSupply = 0) :
    (nm.addCollection col).supply nm.collectionCount.toNat = 0 := by
  show (Function.update nm.collections nm.collectionCount.toNat col
    nm.collectionCount.toNat).totalSupply.toNat = 0
  rw [Function.update_self, hempty]
  rfl

theorem Consistent.addCollection (h : Consistent nm)
    (hroom : nm.collectionCount.toNat < maxNftCollections) (hempty : col.totalSupply = 0) :
    Consistent (nm.addCollection col) := by
  have hcount : (nm.addCollection col).collectionCount.toNat = nm.collectionCount.toNat + 1 :=
    toNat_succ hroom (by decide)
  constructor
  · rw [hcount]
    exact hroom
  · exact h.items_le
  · intro c hc
    rcases Nat.lt_succ_iff_lt_or_eq.mp (hcount ▸ hc) with hlt | rfl
    · rw [supply_addCollection_of_lt hlt, collections_addCollection_of_lt hlt]
      exact h.supply_le c hlt
    · rw [supply_addCollection_self hempty]
      exact Nat.zero_le _
  · rw [hcount, Finset.sum_range_succ, supply_addCollection_self hempty, Nat.add_zero]
    refine Eq.trans ?_ h.supply_sum
    apply Finset.sum_congr rfl
    intro c hc
    exact supply_addCollection_of_lt (Finset.mem_range.mp hc)
  · exact h.item_id
  · intro i hi
    rw [hcount]
    exact Nat.lt_succ_of_lt (h.item_collection i hi)
  · intro c hc
    rcases Nat.lt_succ_iff_lt_or_eq.mp (hcount ▸ hc) with hlt | rfl
    · rw [supply_addCollection_of_lt hlt]
      exact h.tokenIds_eq c hlt
    · -- no item has the new number
      rw [supply_addCollection_self hempty, tokenIds, List.range'_zero, List.map_eq_nil_iff,
        List.filter_eq_nil_iff]
      intro i hi
      have hlt := h.item_collection i (List.mem_range.mp hi)
      rw [decide_eq_true_iff]
      exact Nat.ne_of_lt hlt

end Collection

/-! ## A new item -/

section Mint

variable {nm : NftManager} {collectionId : UInt32} {item : NftItem}

theorem supply_addItem_self
    (hsupply : nm.supply collectionId.toNat < (nm.collections collectionId.toNat).maxSupply.toNat) :
    (nm.addItem collectionId item).supply collectionId.toNat =
      nm.supply collectionId.toNat + 1 := by
  have hword := (nm.collections collectionId.toNat).maxSupply.toNat_lt
  show (Function.update nm.collections collectionId.toNat _
    collectionId.toNat).totalSupply.toNat = _
  rw [Function.update_self]
  exact toNat_succ hsupply hword

theorem supply_addItem_of_ne {c : ℕ} (hne : c ≠ collectionId.toNat) :
    (nm.addItem collectionId item).supply c = nm.supply c := by
  show (Function.update nm.collections collectionId.toNat _ c).totalSupply.toNat = _
  rw [Function.update_of_ne hne]
  rfl

theorem maxSupply_addItem (c : ℕ) :
    ((nm.addItem collectionId item).collections c).maxSupply = (nm.collections c).maxSupply := by
  show (Function.update nm.collections collectionId.toNat _ c).maxSupply = _
  by_cases hc : c = collectionId.toNat
  · subst hc
    rw [Function.update_self]
  · rw [Function.update_of_ne hc]

theorem items_addItem_of_lt {i : ℕ} (hi : i < nm.itemCount.toNat) :
    (nm.addItem collectionId item).items i = nm.items i :=
  Function.update_of_ne (Nat.ne_of_lt hi) _ _

theorem items_addItem_self : (nm.addItem collectionId item).items nm.itemCount.toNat = item :=
  Function.update_self _ _ _

/-- The new item comes last, with the number that is given to it. -/
theorem tokenIds_addItem (hroom : nm.itemCount.toNat < maxNftItems) (c : ℕ) :
    (nm.addItem collectionId item).tokenIds c =
      nm.tokenIds c ++ if item.collectionId.toNat = c then [item.tokenId.toNat] else [] := by
  have hcount : (nm.addItem collectionId item).itemCount.toNat = nm.itemCount.toNat + 1 :=
    toNat_succ hroom (by decide)
  rw [tokenIds, hcount, List.range_succ, List.filter_append, List.map_append]
  congr 1
  · have hfilter : ((List.range nm.itemCount.toNat).filter fun i =>
          decide (((nm.addItem collectionId item).items i).collectionId.toNat = c)) =
        (List.range nm.itemCount.toNat).filter fun i =>
          decide ((nm.items i).collectionId.toNat = c) := by
      apply List.filter_congr
      intro i hi
      rw [items_addItem_of_lt (List.mem_range.mp hi)]
    rw [hfilter]
    apply List.map_congr_left
    intro i hi
    rw [items_addItem_of_lt (List.mem_range.mp (List.mem_of_mem_filter hi))]
  · rw [List.filter_singleton, items_addItem_self]
    by_cases hc : item.collectionId.toNat = c
    · rw [if_pos hc, decide_eq_true hc]
      rw [cond_true, List.map_singleton, items_addItem_self]
    · rw [if_neg hc, decide_eq_false hc]
      rfl

theorem Consistent.addItem (h : Consistent nm)
    (hcollection : collectionId.toNat < nm.collectionCount.toNat)
    (hroom : nm.itemCount.toNat < maxNftItems)
    (hsupply : nm.supply collectionId.toNat < (nm.collections collectionId.toNat).maxSupply.toNat)
    (hid : item.id = nm.itemCount.toUInt64) (hitem : item.collectionId = collectionId)
    (htoken : item.tokenId = (nm.collections collectionId.toNat).totalSupply + 1) :
    Consistent (nm.addItem collectionId item) := by
  have hcount : (nm.addItem collectionId item).itemCount.toNat = nm.itemCount.toNat + 1 :=
    toNat_succ hroom (by decide)
  have hword := (nm.collections collectionId.toNat).maxSupply.toNat_lt
  have hnumber : item.tokenId.toNat = 1 + nm.supply collectionId.toNat := by
    rw [htoken, Nat.add_comm]
    exact toNat_succ hsupply hword
  constructor
  · exact h.collections_le
  · rw [hcount]
    exact hroom
  · intro c hc
    rw [maxSupply_addItem]
    by_cases hself : c = collectionId.toNat
    · subst hself
      rw [supply_addItem_self hsupply]
      exact hsupply
    · rw [supply_addItem_of_ne hself]
      exact h.supply_le c hc
  · have hsum : ∀ c ∈ Finset.range nm.collectionCount.toNat,
        (nm.addItem collectionId item).supply c =
          nm.supply c + if c = collectionId.toNat then 1 else 0 := by
      intro c _
      by_cases hself : c = collectionId.toNat
      · rw [if_pos hself, hself, supply_addItem_self hsupply]
      · rw [if_neg hself, supply_addItem_of_ne hself, Nat.add_zero]
    show ∑ c ∈ Finset.range nm.collectionCount.toNat, (nm.addItem collectionId item).supply c = _
    rw [Finset.sum_congr rfl hsum, Finset.sum_add_distrib, h.supply_sum, Finset.sum_ite_eq',
      if_pos (Finset.mem_range.mpr hcollection), hcount]
  · intro i hi
    rcases Nat.lt_succ_iff_lt_or_eq.mp (hcount ▸ hi) with hlt | rfl
    · rw [items_addItem_of_lt hlt]
      exact h.item_id i hlt
    · rw [items_addItem_self, hid, UInt32.toNat_toUInt64]
  · intro i hi
    show _ < nm.collectionCount.toNat
    rcases Nat.lt_succ_iff_lt_or_eq.mp (hcount ▸ hi) with hlt | rfl
    · rw [items_addItem_of_lt hlt]
      exact h.item_collection i hlt
    · rwa [items_addItem_self, hitem]
  · intro c hc
    rw [tokenIds_addItem hroom, h.tokenIds_eq c hc, hitem, hnumber]
    by_cases hself : collectionId.toNat = c
    · subst hself
      rw [if_pos rfl, supply_addItem_self hsupply, List.range'_concat, Nat.one_mul]
    · rw [if_neg hself, supply_addItem_of_ne (Ne.symm hself), List.append_nil]

end Mint

/-! ## Runs -/

theorem Consistent.step {nm : NftManager} (h : Consistent nm) (call : NftCall) :
    Consistent (nm.step call) := by
  cases call with
  | createCollection name symbol owner maxSupply now =>
    rw [NftManager.step]
    rcases createCollection_cases nm name symbol owner maxSupply now with
      heq | ⟨hroom, col, hempty, heq⟩
    · rwa [heq]
    · rw [heq]
      exact h.addCollection hroom hempty
  | mint collectionId receiver metadata now =>
    rw [NftManager.step]
    rcases mint_cases nm collectionId receiver metadata now with
      heq | ⟨hcollection, hroom, hsupply, item, hid, hitem, htoken, heq⟩
    · rwa [heq]
    · rw [heq]
      exact h.addItem hcollection hroom hsupply hid hitem htoken

/-- Whatever is called, the two tables agree: the supplies keep below their bounds and add up to
the number of items, an item has its place as its id, and the numbers given in a collection are
1 up to its supply, in the order of the items. -/
theorem consistent_run (calls : List NftCall) :
    Consistent (run NftManager.step nftManagerCreate calls) :=
  run_invariant (P := fun _ _ => True) (fun _ call h _ => h.step call) consistent_create
    (along_true _ _)

end NftManager

end Blackstone.Engine
