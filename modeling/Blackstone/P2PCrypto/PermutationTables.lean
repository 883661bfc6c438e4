import Blackstone.P2PCrypto.Context

/-!
# The permutation table

`permutation_tables.c`: a table of words, of which 1000 pairs of places are exchanged, and its
inverse. The inverse is written at the places that the entries of the first table name, so all of
it is written, and nothing beside it, because that table stays a permutation
(`initPermutation_spec`). The tables of `sbox_tables.c` are of the same kind
(`permutations_of_init`).
-/

namespace Blackstone.P2PCrypto

open PermutationTable

/-- The members of `CryptoContext` that `init_permutation` writes. -/
structure PermutationTables where
  permutationTable : Vector UInt32 256
  inversePerm : Vector UInt32 256

/-- The places `idx1` and `idx2` of round `i`. -/
def exchangedPlaces (rnd : ℕ → UInt64) (i : ℕ) : ℕ × ℕ :=
  ((rnd (2 * i) % 256).toNat, (rnd (2 * i + 1) % 256).toNat)

/-- `permutation_table` after the exchanges. -/
def exchangedTable (rnd : ℕ → UInt64) : Vector UInt32 256 :=
  exchange ((List.range 1000).map (exchangedPlaces rnd))
    (Vector.ofFn fun i => UInt32.ofNat i.val)

/-- `init_permutation`, with the numbers that `rdrand_wrapper` gives. There is no result when an
entry is no place of the inverse. -/
def initPermutation (tables : PermutationTables) (rnd : ℕ → UInt64) : Option PermutationTables := do
  let table := exchangedTable rnd
  let inverse ←
    fill? (fun i => (table.get i).toNat) (fun i => UInt32.ofNat i.val) tables.inversePerm
  pure ⟨table, inverse⟩

/-- The boxes are permutations with their inverses. -/
structure CryptoContext.Permuted (ctx : CryptoContext) : Prop where
  sbox : IsPermutation 256 (ctx.sboxByte.toList.map UInt8.toNat)
  ternary_sbox : IsPermutation 256 (ctx.ternarySbox.toList.map UInt8.toNat)
  tabled : ctx.Tabled
  sbox_inv : Function.RightInverse (lookup ctx.invSbox) (lookup ctx.sboxByte)

/-- The table of words is a permutation with its inverse. -/
structure PermutationTables.Permuted (tables : PermutationTables) : Prop where
  table : IsPermutation 256 (tables.permutationTable.toList.map UInt32.toNat)
  inverse : ∀ i : Fin 256,
    tables.inversePerm[(tables.permutationTable.get i).toNat]? = some (UInt32.ofNat i.val)

/-! ## The boxes -/

theorem permuted_initSboxes (ctx : CryptoContext) (rnd : ℕ → UInt64) :
    (initSboxes ctx rnd).Permuted where
  sbox := isPermutation_of_lookup (shuffledBox_injective rnd)
  ternary_sbox := isPermutation_of_lookup ternaryBox_injective
  tabled := tabled_initSboxes ctx rnd
  sbox_inv := rightInverse_of_leftInverse (tabled_initSboxes ctx rnd).inv_sbox

/-- Nothing is left of what was in the inverse boxes. -/
theorem initSboxes_inverses (ctx ctx' : CryptoContext) (rnd : ℕ → UInt64) :
    (initSboxes ctx rnd).invSbox = (initSboxes ctx' rnd).invSbox ∧
      (initSboxes ctx rnd).ternaryInvSbox = (initSboxes ctx' rnd).ternaryInvSbox := by
  have hsbox := inverseTable_of_injective (shuffledBox_injective rnd) ctx.invSbox ctx'.invSbox
  have hternary :=
    inverseTable_of_injective ternaryBox_injective ctx.ternaryInvSbox ctx'.ternaryInvSbox
  simp only [initSboxes]
  exact ⟨hsbox, hternary⟩

/-! ## The exchanges -/

theorem isPermutation_exchangedTable (rnd : ℕ → UInt64) :
    IsPermutation 256 ((exchangedTable rnd).toList.map UInt32.toNat) := by
  have hstart : (Vector.ofFn fun i : Fin 256 => UInt32.ofNat i.val).toList.map UInt32.toNat =
      List.range 256 := by
    rw [Vector.toList_ofFn, List.map_ofFn]
    apply List.ext_getElem
    · rw [List.length_ofFn, List.length_range]
    · intro i hi _
      have hi : i < 256 := hi.trans_eq List.length_ofFn
      rw [List.getElem_ofFn, List.getElem_range, Function.comp_apply, UInt32.toNat_ofNat',
        Nat.mod_eq_of_lt (by omega)]
  rw [IsPermutation, ← hstart]
  exact (perm_exchange _ _).map UInt32.toNat

/-- Every entry is a place of the inverse, and every place is one of the entries. -/
theorem initPermutation_spec (rnd : ℕ → UInt64) :
    ∃ tables' : PermutationTables, tables'.Permuted ∧
      ∀ old, initPermutation old rnd = some tables' := by
  have hperm := isPermutation_exchangedTable rnd
  obtain ⟨inverse, hinverse, hfill⟩ :=
    fill?_of_isPermutation hperm fun i => UInt32.ofNat i.val
  have hpermuted : PermutationTables.Permuted ⟨exchangedTable rnd, inverse⟩ := by
    constructor
    · simpa only using hperm
    · simpa only using hinverse
  refine ⟨⟨exchangedTable rnd, inverse⟩, hpermuted, ?_⟩
  intro old
  rw [initPermutation, hfill old.inversePerm]
  rfl

/-- Whatever the random numbers are, all tables are permutations with their inverses, and nothing
of what was in the inverses is left. -/
theorem permutations_of_init (ctx : CryptoContext) (rnd rnd' : ℕ → UInt64) :
    (initSboxes ctx rnd).Permuted ∧
      (∀ old, (initSboxes ctx rnd).invSbox = (initSboxes old rnd).invSbox ∧
        (initSboxes ctx rnd).ternaryInvSbox = (initSboxes old rnd).ternaryInvSbox) ∧
      ∃ tables' : PermutationTables, tables'.Permuted ∧
        ∀ old, initPermutation old rnd' = some tables' :=
  ⟨permuted_initSboxes ctx rnd, fun old => initSboxes_inverses ctx old rnd,
    initPermutation_spec rnd'⟩

end Blackstone.P2PCrypto
