import Mathlib.Data.List.Induction
import Mathlib.Data.List.Flatten
import Mathlib.Tactic.Common

/-!
# Sequences cut into blocks

An iterated hash takes a sequence in blocks of `n`. `wholeBlocks n xs` are the complete blocks
of `xs`, and `remainder n xs` is what is left after them. What comes later never changes a
complete block (`wholeBlocks_append`), and one more symbol completes a block exactly when the
length becomes a multiple of `n` (`wholeBlocks_concat_of_mod`, `wholeBlocks_concat_of_ne`).
-/

namespace Blackstone.Blocks

variable {α : Type}

/-- The complete blocks of a sequence. -/
def wholeBlocks (n : ℕ) (xs : List α) : List (List α) :=
  (List.range (xs.length / n)).map fun i => (xs.drop (n * i)).take n

/-- What is left of a sequence after its complete blocks. -/
def remainder (n : ℕ) (xs : List α) : List α := xs.drop (n * (xs.length / n))

variable {n : ℕ}

theorem length_remainder (n : ℕ) (xs : List α) : (remainder n xs).length = xs.length % n := by
  rw [remainder, List.length_drop]
  have hdivision := Nat.div_add_mod xs.length n
  omega

theorem remainder_eq_self {xs : List α} (hlt : xs.length < n) : remainder n xs = xs := by
  rw [remainder, Nat.div_eq_of_lt hlt, Nat.mul_zero, List.drop_zero]

theorem wholeBlocks_of_lt {xs : List α} (hlt : xs.length < n) : wholeBlocks n xs = [] := by
  rw [wholeBlocks, Nat.div_eq_of_lt hlt]
  rfl

theorem wholeBlocks_of_length_eq {xs : List α} (hn : 0 < n) (hlength : xs.length = n) :
    wholeBlocks n xs = [xs] := by
  rw [wholeBlocks, hlength, Nat.div_self hn, List.range_one, List.map_singleton, Nat.mul_zero,
    List.drop_zero, ← hlength, List.take_length]

theorem block_fits {m i : ℕ} (hi : i < m / n) : n * i + n ≤ m := by
  have hle : n * (i + 1) ≤ n * (m / n) := Nat.mul_le_mul_left n hi
  rw [Nat.mul_succ] at hle
  exact Nat.le_trans hle (Nat.mul_div_le m n)

theorem length_append_div (hn : 0 < n) (xs ys : List α) :
    (xs ++ ys).length / n = xs.length / n + (remainder n xs ++ ys).length / n := by
  have hdivision := Nat.div_add_mod xs.length n
  rw [List.length_append, List.length_append, length_remainder, ← Nat.mul_add_div hn]
  congr 1
  omega

/-- What follows a sequence leaves its complete blocks alone and goes on from what is left. -/
theorem wholeBlocks_append (xs ys : List α) :
    wholeBlocks n (xs ++ ys) = wholeBlocks n xs ++ wholeBlocks n (remainder n xs ++ ys) := by
  rcases Nat.eq_zero_or_pos n with rfl | hn
  · simp [wholeBlocks]
  rw [wholeBlocks, length_append_div hn, List.range_add, List.map_append, List.map_map,
    wholeBlocks, wholeBlocks]
  congr 1
  · apply List.map_congr_left
    intro i hi
    have hfits : n * i + n ≤ xs.length := block_fits (List.mem_range.mp hi)
    rw [List.drop_append_of_le_length (by omega),
      List.take_append_of_le_length (by rw [List.length_drop]; omega)]
  · apply List.map_congr_left
    intro i _
    have hle : n * (xs.length / n) ≤ xs.length := Nat.mul_div_le _ _
    rw [Function.comp_apply, Nat.mul_add, ← List.drop_drop, List.drop_append_of_le_length hle,
      remainder]

theorem remainder_append (xs ys : List α) :
    remainder n (xs ++ ys) = remainder n (remainder n xs ++ ys) := by
  rcases Nat.eq_zero_or_pos n with rfl | hn
  · simp [remainder]
  have hle : n * (xs.length / n) ≤ xs.length := Nat.mul_div_le _ _
  rw [remainder, length_append_div hn, Nat.mul_add, ← List.drop_drop,
    List.drop_append_of_le_length hle]
  rfl

theorem succ_mod_eq_zero_iff (hn : 0 < n) (m : ℕ) : (m + 1) % n = 0 ↔ m % n + 1 = n := by
  have hlt := Nat.mod_lt m hn
  have hdivision := Nat.div_add_mod m n
  constructor
  · intro hmod
    by_contra hne
    rw [← hdivision, Nat.add_assoc, Nat.mul_add_mod, Nat.mod_eq_of_lt (by omega)] at hmod
    omega
  · intro hlast
    rw [← hdivision, Nat.add_assoc, hlast, Nat.mul_add_mod, Nat.mod_self]

theorem wholeBlocks_concat_of_mod (hn : 0 < n) {xs : List α} {x : α}
    (hmod : (xs.length + 1) % n = 0) :
    wholeBlocks n (xs ++ [x]) = wholeBlocks n xs ++ [remainder n xs ++ [x]] := by
  have hlast : (remainder n xs ++ [x]).length = n := by
    rw [List.length_append, length_remainder, List.length_singleton]
    exact (succ_mod_eq_zero_iff hn _).mp hmod
  rw [wholeBlocks_append, wholeBlocks_of_length_eq hn hlast]

theorem wholeBlocks_concat_of_ne (hn : 0 < n) {xs : List α} {x : α}
    (hmod : (xs.length + 1) % n ≠ 0) :
    wholeBlocks n (xs ++ [x]) = wholeBlocks n xs ∧
      remainder n (xs ++ [x]) = remainder n xs ++ [x] := by
  have hlt := Nat.mod_lt xs.length hn
  have hne := (succ_mod_eq_zero_iff hn xs.length).not.mp hmod
  have hshort : (remainder n xs ++ [x]).length < n := by
    rw [List.length_append, length_remainder, List.length_singleton]
    omega
  constructor
  · rw [wholeBlocks_append, wholeBlocks_of_lt hshort, List.append_nil]
  · rw [remainder_append, remainder_eq_self hshort]

theorem remainder_eq_nil {xs : List α} (hmod : xs.length % n = 0) : remainder n xs = [] := by
  apply List.eq_nil_of_length_eq_zero
  rw [length_remainder, hmod]

theorem wholeBlocks_block_append (hn : 0 < n) {block : List α} (hblock : block.length = n)
    (xs : List α) : wholeBlocks n (block ++ xs) = block :: wholeBlocks n xs := by
  rw [wholeBlocks_append, wholeBlocks_of_length_eq hn hblock,
    remainder_eq_nil (by rw [hblock, Nat.mod_self]), List.nil_append, List.singleton_append]

theorem remainder_block_append {block : List α} (hblock : block.length = n) (xs : List α) :
    remainder n (block ++ xs) = remainder n xs := by
  have hnone : remainder n block = [] := remainder_eq_nil (by rw [hblock, Nat.mod_self])
  rw [remainder_append, hnone, List.nil_append]

theorem length_of_mem_wholeBlocks {xs block : List α} (hmem : block ∈ wholeBlocks n xs) :
    block.length = n := by
  obtain ⟨i, hi, rfl⟩ := List.mem_map.mp hmem
  have hfits := block_fits (List.mem_range.mp hi)
  rw [List.length_take, List.length_drop]
  omega

/-- Blocks that are not empty and flatten to the same are all there. -/
theorem eq_of_sublist_of_flatten {left all : List (List α)} (h : left.Sublist all)
    (hne : ∀ block ∈ all, block ≠ []) (hflatten : left.flatten = all.flatten) : left = all := by
  induction h with
  | slnil => rfl
  | @cons left all block h ih =>
    have hle := h.flatten.length_le
    have hpositive := List.length_pos_iff.mpr (hne block List.mem_cons_self)
    rw [hflatten, List.flatten_cons, List.length_append] at hle
    omega
  | @cons_cons left all block h ih =>
    rw [List.flatten_cons, List.flatten_cons] at hflatten
    rw [ih (fun b hb => hne b (List.mem_cons_of_mem _ hb)) (List.append_cancel_left hflatten)]

/-- The complete blocks and what is left after them make up the sequence. -/
theorem flatten_wholeBlocks_append_remainder (hn : 0 < n) (xs : List α) :
    (wholeBlocks n xs).flatten ++ remainder n xs = xs := by
  induction hlength : xs.length using Nat.strongRecOn generalizing xs with
  | ind length ih =>
    rcases Nat.lt_or_ge xs.length n with hlt | hge
    · rw [wholeBlocks_of_lt hlt, remainder_eq_self hlt]
      rfl
    · have hblock : (xs.take n).length = n := List.length_take_of_le hge
      have hrest := ih (xs.drop n).length (by rw [List.length_drop]; omega) (xs.drop n) rfl
      conv_lhs => rw [← List.take_append_drop n xs]
      rw [wholeBlocks_block_append hn hblock, remainder_block_append hblock, List.flatten_cons,
        List.append_assoc, hrest, List.take_append_drop]

/-- Sequences of as many words are known from the words' codes, when these have one length. -/
theorem eq_of_flatMap_eq {β : Type} {code : α → List β}
    (hlength : ∀ x y, (code x).length = (code y).length) (hcode : Function.Injective code)
    {xs ys : List α} (hsame : xs.length = ys.length) (h : xs.flatMap code = ys.flatMap code) :
    xs = ys := by
  induction xs generalizing ys with
  | nil => exact (List.eq_nil_of_length_eq_zero hsame.symm).symm
  | cons x xs ih =>
    cases ys with
    | nil => cases hsame
    | cons y ys =>
      rw [List.flatMap_cons, List.flatMap_cons] at h
      obtain ⟨hhead, htail⟩ := List.append_inj h (hlength x y)
      rw [hcode hhead, ih (Nat.succ.inj hsame) htail]

end Blackstone.Blocks
