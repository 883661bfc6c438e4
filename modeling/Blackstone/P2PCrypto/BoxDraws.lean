import Blackstone.Library.FisherYates
import Blackstone.P2PCrypto.PermutationTables
import Mathlib.Data.Int.CardIntervalMod
import Mathlib.Data.Fintype.BigOperators
import Mathlib.SetTheory.Cardinal.Finite

/-!
# The draws of the box

`init_sboxes` takes one random number for each place of `sbox_byte` and of it the lowest byte,
modulo the number of places that are left. Every permutation of the bytes is drawn, and the residues
can be read off it (`exists_shuffledBox`). The number of ways in which a box is drawn is a product
of quotients that are rounded down or up (`card_draws`): the boxes are not equally likely.
-/

namespace Blackstone.P2PCrypto

open PermutationTable

theorem descending_sboxChoice (rnd : ℕ → UInt64) : Descending (sboxChoice rnd) :=
  fun i => Nat.le_of_lt_succ (Nat.mod_lt _ (Nat.succ_pos i))

/-- Two boxes are the same exactly when the same places were drawn. -/
theorem shuffledBox_eq_iff (rnd rnd' : ℕ → UInt64) : shuffledBox rnd = shuffledBox rnd' ↔
    ∀ i, 0 < i → i ≤ 255 → sboxChoice rnd i = sboxChoice rnd' i := by
  rw [← Vector.toArray_inj, toArray_shuffledBox, toArray_shuffledBox]
  constructor
  · intro heq i hpos hi
    exact choice_eq_of_shuffleFrom_eq toList_identityBox_nodup
      (by rw [Vector.size_toArray]; omega) (descending_sboxChoice rnd)
      (descending_sboxChoice rnd') heq hpos hi
  · intro hdraws
    exact shuffleFrom_congr hdraws _

/-- The numbers whose lowest bytes are the given ones. -/
def lowBytes (low : ℕ → ℕ) (k : ℕ) : UInt64 := UInt64.ofNat (low (255 - k))

theorem sboxChoice_lowBytes {low : ℕ → ℕ} {i : ℕ} (hlow : low i < 256) (hi : i ≤ 255) :
    sboxChoice (lowBytes low) i = low i % (i + 1) := by
  have hplace : 255 - (255 - i) = i := by omega
  have hbyte : (UInt64.ofNat (low i) &&& 0xFF).toNat = low i := by
    rw [UInt64.toNat_and, UInt64.toNat_ofNat', Nat.mod_eq_of_lt (by omega)]
    have hmask : (0xFF : UInt64).toNat = 2 ^ 8 - 1 := rfl
    rw [hmask, Nat.and_two_pow_sub_one_eq_mod, Nat.mod_eq_of_lt hlow]
  rw [sboxChoice, lowBytes, hplace, hbyte]

/-- Every permutation of the bytes is drawn. -/
theorem exists_shuffledBox {table : Vector UInt8 256}
    (hinjective : Function.Injective (lookup table)) : ∃ rnd, shuffledBox rnd = table := by
  have hperm : table.toArray.Perm identityBox.toArray := by
    have hentries := isPermutation_of_lookup hinjective
    have hidentity := isPermutation_of_lookup (lookup_injective toList_identityBox_nodup)
    rw [Array.perm_iff_toList_perm]
    exact (List.map_perm_map_iff fun b c h => UInt8.toNat_inj.mp h).mp
      (hentries.trans hidentity.symm)
  obtain ⟨draws, hdraws, hresult⟩ := exists_shuffleFrom (i := 255) toList_identityBox_nodup
    (by rw [Vector.size_toArray]; omega) hperm (by
      intro k hk
      rw [Array.getElem?_eq_none (by rw [Vector.size_toArray]; omega),
        Array.getElem?_eq_none (by rw [Vector.size_toArray]; omega)])
  refine ⟨lowBytes draws, ?_⟩
  rw [← Vector.toArray_inj, toArray_shuffledBox, ← hresult]
  apply shuffleFrom_congr
  intro i _ hi
  have hle := hdraws i
  rw [sboxChoice_lowBytes (by omega) hi, Nat.mod_eq_of_lt (by omega)]

/-! ## How often a box is drawn -/

/-- The numbers of which the lowest bytes are the given ones. -/
def numbers (low : Fin 255 → Fin 256) : ℕ → UInt64 :=
  lowBytes fun i => if h : 255 - i < 255 then (low ⟨255 - i, h⟩).val else 0

theorem sboxChoice_numbers (low : Fin 255 → Fin 256) (k : Fin 255) :
    sboxChoice (numbers low) (255 - k.val) = (low k).val % (256 - k.val) := by
  have hplace : 255 - (255 - k.val) = k.val := by omega
  have hsucc : 255 - k.val + 1 = 256 - k.val := by omega
  have hk : 255 - (255 - k.val) < 255 := by omega
  have hbyte : (if h : 255 - (255 - k.val) < 255 then (low ⟨255 - (255 - k.val), h⟩).val else 0) =
      (low k).val := by
    rw [dif_pos hk]
    congr 2
    exact Fin.ext hplace
  rw [numbers, sboxChoice_lowBytes, hbyte, hsucc]
  · rw [hbyte]
    exact (low k).isLt
  · omega

open scoped Count in
/-- The bytes with a residue. -/
theorem card_residue {m : ℕ} (hm : 0 < m) {d : ℕ} (hd : d < m) :
    Nat.card {b : Fin 256 // b.val % m = d} = 256 / m + if d < 256 % m then 1 else 0 := by
  have hequiv : {b : Fin 256 // b.val % m = d} ≃ {k : ℕ // k < 256 ∧ k ≡ d [MOD m]} :=
    { toFun := fun b => ⟨b.1.1, b.1.2, b.2.trans (Nat.mod_eq_of_lt hd).symm⟩
      invFun := fun k => ⟨⟨k.1, k.2.1⟩, Eq.trans k.2.2 (Nat.mod_eq_of_lt hd)⟩ }
  rw [Nat.card_congr hequiv, Nat.card_eq_fintype_card, ← Nat.count_eq_card_fintype,
    Nat.count_modEq_card 256 hm, Nat.mod_eq_of_lt hd]

/-- The sequences of bytes with some residues. -/
theorem card_residues {n : ℕ} {m d : Fin n → ℕ} (hd : ∀ k, d k < m k) :
    Nat.card {low : Fin n → Fin 256 // ∀ k, (low k).val % m k = d k} =
      ∏ k, (256 / m k + if d k < 256 % m k then 1 else 0) := by
  rw [Nat.card_congr (Equiv.subtypePiEquivPi (p := fun k (b : Fin 256) => b.val % m k = d k)),
    Nat.card_pi]
  exact Finset.prod_congr rfl fun k _ => card_residue (Nat.zero_lt_of_lt (hd k)) (hd k)

/-- A permutation of the bytes comes from exactly one sequence of drawn places, and from as many
sequences of random bytes as there are bytes with these residues. -/
theorem card_draws {table : Vector UInt8 256} (hinjective : Function.Injective (lookup table)) :
    ∃ draws : Fin 255 → ℕ, (∀ k, draws k < 256 - k.val) ∧
      (∀ low, shuffledBox (numbers low) = table ↔ ∀ k, (low k).val % (256 - k.val) = draws k) ∧
      Nat.card {low : Fin 255 → Fin 256 // shuffledBox (numbers low) = table} =
        ∏ k : Fin 255, (256 / (256 - k.val) + if draws k < 256 % (256 - k.val) then 1 else 0) := by
  obtain ⟨rnd, rfl⟩ := exists_shuffledBox hinjective
  have hlt : ∀ k : Fin 255, sboxChoice rnd (255 - k.val) < 256 - k.val := by
    intro k
    have hle := descending_sboxChoice rnd (255 - k.val)
    omega
  have hiff : ∀ low, shuffledBox (numbers low) = shuffledBox rnd ↔
      ∀ k : Fin 255, (low k).val % (256 - k.val) = sboxChoice rnd (255 - k.val) := by
    intro low
    rw [shuffledBox_eq_iff]
    constructor
    · intro hdraws k
      rw [← sboxChoice_numbers]
      exact hdraws _ (by omega) (by omega)
    · intro hresidues i hpos hi
      have hplace : 255 - (255 - i) = i := by omega
      have hresidue := hresidues ⟨255 - i, by omega⟩
      rw [← sboxChoice_numbers] at hresidue
      simpa only [hplace] using hresidue
  refine ⟨fun k => sboxChoice rnd (255 - k.val), hlt, hiff, ?_⟩
  have hcard := card_residues (m := fun k => 256 - k.val)
    (d := fun k => sboxChoice rnd (255 - k.val)) hlt
  exact (Nat.card_congr (Equiv.subtypeEquivRight hiff)).trans hcard

/-- The box of ternary bytes is one of those that are drawn. -/
theorem card_draws_ternaryBox :
    ∃ draws : Fin 255 → ℕ, (∀ k, draws k < 256 - k.val) ∧
      Nat.card {low : Fin 255 → Fin 256 // shuffledBox (numbers low) = ternaryBox} =
        ∏ k : Fin 255, (256 / (256 - k.val) + if draws k < 256 % (256 - k.val) then 1 else 0) := by
  obtain ⟨draws, hlt, -, hcard⟩ := card_draws ternaryBox_injective
  exact ⟨draws, hlt, hcard⟩

end Blackstone.P2PCrypto
