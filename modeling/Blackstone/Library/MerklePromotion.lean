import Blackstone.Library.MerkleCommitment
import Mathlib.Data.List.GetD

/-!
# Merkle trees that promote an odd last node

A level is combined pairwise, and the last of an odd number of nodes goes to the next level as
it is (`promoteLevel`). `promotedTop` repeats this until one node is left.

`combineInPlace` is the loop that writes the next level over the beginning of the array it
reads. Round `i` reads the places `2 i` and `2 i + 1`, and only places below `i` have been
written before (`combineInPlace_apply`), so that the array begins with the next level
afterwards (`firstNodes_nextInPlace`).

Where combining is injective on the pairs that are combined, lists of the same length with the
same top are equal (`eq_of_promotedTop_eq`).
-/

namespace Blackstone.Merkle

open HashTree

variable {α : Type} (combine : α → α → α)

/-- The level above. -/
def promoteLevel : List α → List α
  | x :: y :: rest => combine x y :: promoteLevel rest
  | rest => rest

/-- What is left when there are no two nodes to combine goes up. -/
theorem promoteLevel_of_short {level : List α}
    (hshort : ∀ x y rest, level = x :: y :: rest → False) : promoteLevel combine level = level := by
  obtain rfl | ⟨x, rfl⟩ := eq_nil_or_singleton hshort
  · rfl
  · rfl

@[simp] theorem length_promoteLevel (level : List α) :
    (promoteLevel combine level).length = (level.length + 1) / 2 := by
  induction level using promoteLevel.induct with
  | case1 x y rest ih =>
    rw [promoteLevel, List.length_cons, ih, List.length_cons, List.length_cons]
    omega
  | case2 level hshort =>
    rw [promoteLevel_of_short combine hshort]
    obtain rfl | ⟨x, rfl⟩ := eq_nil_or_singleton hshort
    · simp
    · simp

/-- The one node that is left when the levels have been combined up to the top. -/
def promotedTop (level : List α) : Option α :=
  if level.length > 1 then promotedTop (promoteLevel combine level) else level.head?
termination_by level.length
decreasing_by
  rw [length_promoteLevel]
  omega

/-- The pairs that are combined. -/
def promotedPairs (level : List α) : List (α × α) :=
  if level.length > 1 then pairsOf level ++ promotedPairs (promoteLevel combine level) else []
termination_by level.length
decreasing_by
  rw [length_promoteLevel]
  omega

/-! ## In place -/

/-- The first nodes of an array. -/
def firstNodes (array : ℕ → α) (size : ℕ) : List α := (List.range size).map array

theorem firstNodes_getElem? (array : ℕ → α) {size i : ℕ} (hi : i < size) :
    (firstNodes array size)[i]? = some (array i) := by
  rw [firstNodes, List.getElem?_map, List.getElem?_range hi]
  rfl

/-- The first `n` rounds of the loop over the pairs of a level. -/
def combineInPlace (n : ℕ) (array : ℕ → α) : ℕ → α :=
  (List.range n).foldl
    (fun array i => Function.update array i (combine (array (i * 2)) (array (i * 2 + 1)))) array

/-- No round reads a place that has been written. -/
theorem combineInPlace_apply (n : ℕ) (array : ℕ → α) (j : ℕ) :
    combineInPlace combine n array j =
      if j < n then combine (array (j * 2)) (array (j * 2 + 1)) else array j := by
  induction n generalizing j with
  | zero => rw [if_neg (Nat.not_lt_zero j)]; rfl
  | succ n ih =>
    have hround : combineInPlace combine (n + 1) array =
        Function.update (combineInPlace combine n array) n
          (combine (combineInPlace combine n array (n * 2))
            (combineInPlace combine n array (n * 2 + 1))) := by
      rw [combineInPlace, List.range_succ, List.foldl_append]
      rfl
    rw [hround, ih, ih, if_neg (by omega), if_neg (by omega)]
    by_cases hj : j = n
    · subst hj
      rw [Function.update_self, if_pos (Nat.lt_succ_self j)]
    · rw [Function.update_of_ne hj, ih]
      by_cases hlt : j < n
      · rw [if_pos hlt, if_pos (by omega)]
      · rw [if_neg hlt, if_neg (by omega)]

/-- The array after a level: the last of an odd number of nodes is moved behind the others. -/
def nextInPlace (array : ℕ → α) (size : ℕ) : ℕ → α :=
  if size % 2 = 1 then
    Function.update (combineInPlace combine (size / 2) array) (size / 2)
      (combineInPlace combine (size / 2) array (size - 1))
  else combineInPlace combine (size / 2) array

theorem nextInPlace_of_lt {array : ℕ → α} {size j : ℕ} (hj : j < size / 2) :
    nextInPlace combine array size j = combine (array (j * 2)) (array (j * 2 + 1)) := by
  have hround := combineInPlace_apply combine (size / 2) array j
  rw [if_pos hj] at hround
  unfold nextInPlace
  split
  · rw [Function.update_of_ne (by omega), hround]
  · exact hround

theorem nextInPlace_of_odd {array : ℕ → α} {size : ℕ} (hodd : size % 2 = 1) :
    nextInPlace combine array size (size / 2) = array (size - 1) := by
  rw [nextInPlace, if_pos hodd, Function.update_self, combineInPlace_apply, if_neg (by omega)]

/-- Node `j` of the level above. -/
theorem promoteLevel_getElem? (level : List α) (j : ℕ) :
    (promoteLevel combine level)[j]? =
      if 2 * j + 1 < level.length then
        level[2 * j]?.bind fun x => level[2 * j + 1]?.map (combine x)
      else level[2 * j]? := by
  induction level using promoteLevel.induct generalizing j with
  | case1 x y rest ih =>
    rw [promoteLevel]
    cases j with
    | zero => rfl
    | succ j =>
      rw [List.getElem?_cons_succ, ih j]
      simp only [List.length_cons, show 2 * (j + 1) = 2 * j + 1 + 1 by omega,
        List.getElem?_cons_succ]
      exact ite_cond_congr (propext ⟨fun h => by omega, fun h => by omega⟩)
  | case2 level hshort =>
    rw [promoteLevel_of_short combine hshort]
    obtain rfl | ⟨x, rfl⟩ := eq_nil_or_singleton hshort
    · rfl
    · rw [if_neg (by simp)]
      cases j with
      | zero => rfl
      | succ j => rfl

/-- The array begins with the level above afterwards. -/
theorem firstNodes_nextInPlace (array : ℕ → α) (size : ℕ) :
    firstNodes (nextInPlace combine array size) ((size + 1) / 2) =
      promoteLevel combine (firstNodes array size) := by
  have hsize : (firstNodes array size).length = size := by
    rw [firstNodes, List.length_map, List.length_range]
  apply List.ext_getElem?
  intro j
  rcases Nat.lt_or_ge j ((size + 1) / 2) with hlt | hge
  · rw [firstNodes_getElem? _ hlt, promoteLevel_getElem?, hsize]
    by_cases hpair : 2 * j + 1 < size
    · rw [if_pos hpair, firstNodes_getElem? _ (by omega), firstNodes_getElem? _ hpair,
        nextInPlace_of_lt combine (by omega), Nat.mul_comm j 2]
      rfl
    · obtain rfl : j = size / 2 := by omega
      rw [if_neg hpair, firstNodes_getElem? _ (by omega), nextInPlace_of_odd combine (by omega),
        show size - 1 = 2 * (size / 2) by omega]
  · rw [List.getElem?_eq_none, List.getElem?_eq_none]
    · rw [length_promoteLevel, hsize]
      exact hge
    · rwa [firstNodes, List.length_map, List.length_range]

/-! ## What the top determines -/

variable {combine}

theorem promoteLevel_inj {xs ys : List α} (hlength : xs.length = ys.length)
    (hinj : InjectiveOn combine (pairsOf xs) (pairsOf ys))
    (heq : promoteLevel combine xs = promoteLevel combine ys) : xs = ys := by
  induction xs using promoteLevel.induct generalizing ys with
  | case1 x y rest ih =>
    obtain ⟨u, ys, rfl⟩ := List.exists_cons_of_length_eq_add_one hlength.symm
    obtain ⟨v, ys, rfl⟩ := List.exists_cons_of_length_eq_add_one (Nat.succ.inj hlength).symm
    obtain ⟨hhead, htail⟩ := List.cons.inj heq
    have hpair : (x, y) = (u, v) :=
      hinj _ List.mem_cons_self _ List.mem_cons_self hhead
    have hrest := ih (by simpa using hlength)
      (fun p hp q hq => hinj p (List.mem_cons_of_mem _ hp) q (List.mem_cons_of_mem _ hq)) htail
    obtain ⟨rfl, rfl⟩ := Prod.mk.inj hpair
    rw [hrest]
  | case2 xs hshort =>
    rw [promoteLevel_of_short combine hshort, promoteLevel_of_short combine] at heq
    · exact heq
    · rintro u v ys rfl
      rcases eq_nil_or_singleton hshort with rfl | ⟨x, rfl⟩ <;> simp at hlength

/-- At the top there is at most one node left. -/
theorem eq_of_head?_eq {xs ys : List α} (hlength : xs.length = ys.length) (hshort : xs.length ≤ 1)
    (heq : xs.head? = ys.head?) : xs = ys := by
  apply List.ext_getElem?
  intro i
  cases i with
  | zero => rwa [← List.head?_eq_getElem?, ← List.head?_eq_getElem?]
  | succ i => rw [List.getElem?_eq_none (by omega), List.getElem?_eq_none (by omega)]

/-- Lists of the same length with the same top are equal. -/
theorem eq_of_promotedTop_eq {xs ys : List α} (hlength : xs.length = ys.length)
    (hinj : InjectiveOn combine (promotedPairs combine xs) (promotedPairs combine ys))
    (heq : promotedTop combine xs = promotedTop combine ys) : xs = ys := by
  induction hsize : xs.length using Nat.strongRecOn generalizing xs ys with
  | ind size ih =>
    rw [promotedTop.eq_def combine xs, promotedTop.eq_def combine ys, ← hlength] at heq
    rw [promotedPairs.eq_def combine xs, promotedPairs.eq_def combine ys, ← hlength] at hinj
    by_cases hlong : xs.length > 1
    · rw [if_pos hlong, if_pos hlong] at heq hinj
      apply promoteLevel_inj hlength
      · exact fun p hp q hq =>
          hinj p (List.mem_append_left _ hp) q (List.mem_append_left _ hq)
      · apply ih (promoteLevel combine xs).length
        · rw [length_promoteLevel]
          omega
        · rw [length_promoteLevel, length_promoteLevel, hlength]
        · exact fun p hp q hq =>
            hinj p (List.mem_append_right _ hp) q (List.mem_append_right _ hq)
        · exact heq
        · rfl
    · rw [if_neg hlong, if_neg hlong] at heq
      exact eq_of_head?_eq hlength (Nat.not_lt.mp hlong) heq

end Blackstone.Merkle
