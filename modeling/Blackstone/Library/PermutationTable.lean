import Mathlib.Data.Fintype.EquivFin
import Mathlib.Data.List.FinRange
import Mathlib.Data.List.Nodup
import Mathlib.Data.List.Perm.Subperm

/-!
# Shuffled tables and their inverses

The shuffle of Fisher and Yates exchanges each place of a table, from the last one down, with a
place that is not above it. Whatever the choices are, the table keeps its entries
(`perm_shuffleFrom`).

`fill` writes at the place that a function gives for each number. Where the function is injective,
that place holds what was written for the number (`getElem_fill`): the table of an inverse. Where
it also gives every place, nothing of the old table is left (`fill_of_bijective`).
-/

namespace Blackstone.PermutationTable

variable {α : Type}

/-! ## Shuffles -/

/-- Exchange the places from `i` down to 1. -/
def shuffleFrom (choice : ℕ → ℕ) : ℕ → Array α → Array α
  | 0, xs => xs
  | i + 1, xs => shuffleFrom choice i (xs.swapIfInBounds (i + 1) (choice (i + 1)))

theorem perm_swapIfInBounds (xs : Array α) (i j : ℕ) : (xs.swapIfInBounds i j).Perm xs := by
  rw [Array.swapIfInBounds]
  split_ifs with hi hj
  · exact Array.swap_perm hi hj
  · exact Array.Perm.refl xs
  · exact Array.Perm.refl xs

theorem perm_shuffleFrom (choice : ℕ → ℕ) (i : ℕ) (xs : Array α) :
    (shuffleFrom choice i xs).Perm xs := by
  induction i generalizing xs with
  | zero => exact Array.Perm.refl xs
  | succ i ih => exact (ih _).trans (perm_swapIfInBounds xs _ _)

theorem size_shuffleFrom (choice : ℕ → ℕ) (i : ℕ) (xs : Array α) :
    (shuffleFrom choice i xs).size = xs.size :=
  (perm_shuffleFrom choice i xs).size_eq

/-- A place that is exchanged with itself keeps its entry. -/
theorem shuffleFrom_of_fixed {choice : ℕ → ℕ} {k i : ℕ} (hk : k ≤ i)
    (hfixed : ∀ j, k < j → j ≤ i → choice j = j) (xs : Array α) :
    shuffleFrom choice i xs = shuffleFrom choice k xs := by
  induction i, hk using Nat.le_induction with
  | base => rfl
  | succ i hk ih =>
    have hself : xs.swapIfInBounds (i + 1) (i + 1) = xs := by
      rw [Array.swapIfInBounds]
      split_ifs with hi
      · apply Array.ext
        · exact Array.size_swap
        · intro j _ hj
          rw [Array.getElem_swap]
          split_ifs with hij
          · simp only [hij]
          · rfl
      · rfl
    rw [shuffleFrom, hfixed (i + 1) (by omega) (Nat.le_refl _), hself]
    exact ih fun j hj hle => hfixed j hj (by omega)

/-- Exchange some pairs of places, one pair after the other. -/
def exchange {n : ℕ} (pairs : List (ℕ × ℕ)) (xs : Vector α n) : Vector α n :=
  pairs.foldl (fun xs pair => xs.swapIfInBounds pair.1 pair.2) xs

theorem perm_exchange {n : ℕ} (pairs : List (ℕ × ℕ)) (xs : Vector α n) :
    (exchange pairs xs).toList.Perm xs.toList := by
  induction pairs generalizing xs with
  | nil => exact List.Perm.refl _
  | cons pair pairs ih =>
    have hstep := (perm_swapIfInBounds xs.toArray pair.1 pair.2).toList
    exact (ih (xs.swapIfInBounds pair.1 pair.2)).trans hstep

/-! ## Permutations of the first numbers -/

/-- The numbers below `n`, in some order. -/
def IsPermutation (n : ℕ) (entries : List ℕ) : Prop := entries.Perm (List.range n)

section IsPermutation

variable {n : ℕ} {entries : List ℕ}

theorem isPermutation_of_nodup (hnodup : entries.Nodup) (hlength : entries.length = n)
    (hlt : ∀ e ∈ entries, e < n) : IsPermutation n entries := by
  have hsubset : entries ⊆ List.range n := fun e he => List.mem_range.mpr (hlt e he)
  apply (hnodup.subperm hsubset).perm_of_length_le
  rw [List.length_range, hlength]

theorem IsPermutation.lt (h : IsPermutation n entries) {e : ℕ} (he : e ∈ entries) : e < n :=
  List.mem_range.mp (h.mem_iff.mp he)

theorem IsPermutation.nodup (h : IsPermutation n entries) : entries.Nodup :=
  h.nodup_iff.mpr List.nodup_range

/-- The entries of a table that are a permutation are places of it. -/
theorem IsPermutation.entry_lt {table : Vector α n} {number : α → ℕ}
    (h : IsPermutation n (table.toList.map number)) (i : Fin n) : number (table.get i) < n := by
  apply h.lt
  apply List.mem_map_of_mem
  rw [Vector.mem_toList_iff]
  exact Vector.getElem_mem i.isLt

theorem IsPermutation.entry_injective {table : Vector α n} {number : α → ℕ}
    (h : IsPermutation n (table.toList.map number)) :
    Function.Injective fun i : Fin n => (⟨number (table.get i), h.entry_lt i⟩ : Fin n) := by
  intro i j hij
  have hlength : (table.toList.map number).length = n := by
    rw [List.length_map, Vector.length_toList]
  have hi : i.val < (table.toList.map number).length := i.isLt.trans_eq hlength.symm
  have hj : j.val < (table.toList.map number).length := j.isLt.trans_eq hlength.symm
  have hentries : (table.toList.map number)[i.val] = (table.toList.map number)[j.val] := by
    rw [List.getElem_map, List.getElem_map, Vector.getElem_toList, Vector.getElem_toList]
    exact congrArg Fin.val hij
  exact Fin.ext (h.nodup.getElem_inj_iff.mp hentries)

end IsPermutation

/-! ## Tables that are filled place by place -/

section Fill

variable {m n : ℕ} {f : Fin n → Fin m} {g : Fin n → α}

/-- Write `g i` at the place `f i`, for the numbers of a list. -/
def fillFrom (f : Fin n → Fin m) (g : Fin n → α) (numbers : List (Fin n)) (table : Vector α m) :
    Vector α m :=
  numbers.foldl (fun table i => table.set (f i) (g i)) table

/-- Write `g i` at the place `f i`, for every number. -/
def fill (f : Fin n → Fin m) (g : Fin n → α) (table : Vector α m) : Vector α m :=
  fillFrom f g (List.finRange n) table

theorem getElem_fillFrom (hf : Function.Injective f) {numbers : List (Fin n)} {i : Fin n}
    (hi : i ∈ numbers) (table : Vector α m) :
    (fillFrom f g numbers table)[f i] = g i := by
  induction numbers using List.reverseRecOn with
  | nil => exact absurd hi List.not_mem_nil
  | append_singleton numbers j ih =>
    rw [fillFrom, List.foldl_append, List.foldl_cons, List.foldl_nil, ← fillFrom]
    by_cases hij : i = j
    · rw [hij, Fin.getElem_fin, Vector.getElem_set_self]
    · have hplace : (f j).val ≠ (f i).val := fun h => hij (hf (Fin.ext h)).symm
      have hmem : i ∈ numbers := by simpa [hij] using hi
      rw [Fin.getElem_fin, Vector.getElem_set_ne _ _ hplace, ← Fin.getElem_fin, ih hmem]

theorem getElem_fill (hf : Function.Injective f) (table : Vector α m) (i : Fin n) :
    (fill f g table)[f i] = g i :=
  getElem_fillFrom hf (List.mem_finRange i) table

/-- A table whose every place is written does not depend on what was in it. -/
theorem fill_of_bijective (hf : Function.Bijective f) (table table' : Vector α m) :
    fill f g table = fill f g table' := by
  apply Vector.ext
  intro j hj
  obtain ⟨i, hi⟩ := hf.surjective ⟨j, hj⟩
  have hplace : (f i).val = j := congrArg Fin.val hi
  have hwritten := getElem_fill hf.injective (g := g) table i
  rw [← getElem_fill hf.injective (g := g) table' i] at hwritten
  simpa only [Fin.getElem_fin, hplace] using hwritten

/-- Write `g i` at the place `place i`, for the numbers of a list. There is nothing to write to
outside of the table. -/
def fillFrom? (place : Fin n → ℕ) (g : Fin n → α) (numbers : List (Fin n)) (table : Vector α m) :
    Option (Vector α m) :=
  numbers.foldlM (fun table i =>
    if h : place i < m then some (table.set (place i) (g i) h) else none) table

/-- Write `g i` at the place `place i`, for every number. -/
def fill? (place : Fin n → ℕ) (g : Fin n → α) (table : Vector α m) : Option (Vector α m) :=
  fillFrom? place g (List.finRange n) table

theorem fillFrom?_eq {place : Fin n → ℕ} (hplace : ∀ i, place i < m) (numbers : List (Fin n))
    (table : Vector α m) :
    fillFrom? place g numbers table =
      some (fillFrom (fun i => ⟨place i, hplace i⟩) g numbers table) := by
  induction numbers generalizing table with
  | nil => rfl
  | cons i numbers ih =>
    rw [fillFrom?, List.foldlM_cons, dif_pos (hplace i)]
    exact ih _

theorem fill?_eq {place : Fin n → ℕ} (hplace : ∀ i, place i < m) (table : Vector α m) :
    fill? place g table = some (fill (fun i => ⟨place i, hplace i⟩) g table) :=
  fillFrom?_eq hplace _ _

/-- Writing at the places that a permutation names succeeds, writes every place, and what is
written does not depend on the old table. -/
theorem fill?_of_isPermutation {β : Type} {entries : Vector β n} {number : β → ℕ}
    (h : IsPermutation n (entries.toList.map number)) (g : Fin n → α) :
    ∃ filled : Vector α n, (∀ i : Fin n, filled[number (entries.get i)]? = some (g i)) ∧
      ∀ old, fill? (fun i => number (entries.get i)) g old = some filled := by
  have hbijective := Finite.injective_iff_bijective.mp h.entry_injective
  refine ⟨fill (fun i => ⟨_, h.entry_lt i⟩) g (Vector.ofFn g), ?_, ?_⟩
  · intro i
    have hwritten := getElem_fill h.entry_injective (g := g) (Vector.ofFn g) i
    rw [Vector.getElem?_eq_getElem (h.entry_lt i)]
    exact congrArg some hwritten
  · intro old
    rw [fill?_eq h.entry_lt, fill_of_bijective hbijective old (Vector.ofFn g)]

end Fill

/-! ## Bytes -/

/-- The entry of a byte. -/
def lookup (table : Vector UInt8 256) (b : UInt8) : UInt8 := table[b.toFin]

/-- A table in which no entry comes twice. -/
theorem lookup_injective {table : Vector UInt8 256} (hnodup : table.toList.Nodup) :
    Function.Injective (lookup table) := by
  intro b c hbc
  have hlength : ∀ i : Fin 256, i.val < table.toList.length := by
    intro i
    rw [Vector.length_toList]
    exact i.isLt
  have hplace : b.toFin.val = c.toFin.val :=
    (@List.Nodup.getElem_inj_iff _ _ hnodup _ (hlength b.toFin) _ (hlength c.toFin)).mp hbc
  exact UInt8.toFin_inj.mp (Fin.ext hplace)

/-- The table that holds, at the entry of each byte, the byte. -/
def inverseTable (table inverse : Vector UInt8 256) : Vector UInt8 256 :=
  fill (fun i => (table[i]).toFin) UInt8.ofFin inverse

theorem injective_places {table : Vector UInt8 256}
    (hinjective : Function.Injective (lookup table)) :
    Function.Injective fun i : Fin 256 => (table[i]).toFin := by
  intro i j hij
  have hbytes := @hinjective (UInt8.ofFin i) (UInt8.ofFin j) (UInt8.toFin_inj.mp hij)
  exact congrArg UInt8.toFin hbytes

theorem lookup_inverseTable {table : Vector UInt8 256}
    (hinjective : Function.Injective (lookup table)) (inverse : Vector UInt8 256) :
    Function.LeftInverse (lookup (inverseTable table inverse)) (lookup table) := by
  intro b
  exact getElem_fill (injective_places hinjective) inverse b.toFin

/-- All of an inverse table is written. -/
theorem inverseTable_of_injective {table : Vector UInt8 256}
    (hinjective : Function.Injective (lookup table)) (inverse inverse' : Vector UInt8 256) :
    inverseTable table inverse = inverseTable table inverse' :=
  fill_of_bijective (Finite.injective_iff_bijective.mp (injective_places hinjective)) _ _

/-- A table of bytes in which no byte comes twice has all of them. -/
theorem isPermutation_of_lookup {table : Vector UInt8 256}
    (hinjective : Function.Injective (lookup table)) :
    IsPermutation 256 (table.toList.map UInt8.toNat) := by
  apply isPermutation_of_nodup
  · apply List.Nodup.map fun b c h => UInt8.toNat_inj.mp h
    rw [List.nodup_iff_injective_getElem]
    intro i j hij
    have hi : i.val < 256 := i.isLt.trans_eq (Vector.length_toList)
    have hj : j.val < 256 := j.isLt.trans_eq (Vector.length_toList)
    have hentries : table[i.val] = table[j.val] := by
      simpa only [List.get_eq_getElem, Vector.getElem_toList] using hij
    have hplaces := @injective_places table hinjective ⟨i.val, hi⟩ ⟨j.val, hj⟩
      (congrArg UInt8.toFin hentries)
    have hsame := congrArg Fin.val hplaces
    exact Fin.ext hsame
  · rw [List.length_map, Vector.length_toList]
  · intro e he
    obtain ⟨b, -, rfl⟩ := List.mem_map.mp he
    exact b.toNat_lt

/-- On bytes, an inverse from the left is one from the right. -/
theorem rightInverse_of_leftInverse {f g : UInt8 → UInt8} (h : Function.LeftInverse g f) :
    Function.RightInverse g f := by
  have hfinite : Finite UInt8 := by
    apply Finite.of_injective UInt8.toFin
    intro b c hbc
    exact UInt8.toFin_inj.mp hbc
  exact h.rightInverse_of_surjective (Finite.surjective_of_injective h.injective)

end Blackstone.PermutationTable
