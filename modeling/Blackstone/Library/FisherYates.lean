import Blackstone.Library.PermutationTable
import Mathlib.Data.Multiset.ZeroCons

/-!
# The draws of a shuffle

The shuffle of Fisher and Yates draws, for each place from the last one down, a place that is not
above it. On entries that are all different, two shuffles agree only if they drew the same places
(`choice_eq_of_shuffleFrom_eq`), and every arrangement is reached (`exists_shuffleFrom`): each
arrangement comes from exactly one sequence of draws.
-/

namespace Blackstone.PermutationTable

variable {α β : Type}

theorem getElem?_swapIfInBounds_eq {xs : Array α} {i j : ℕ} (hi : i < xs.size) (hj : j < xs.size)
    (k : ℕ) : (xs.swapIfInBounds i j)[k]? =
      if k = j then xs[i]? else if k = i then xs[j]? else xs[k]? := by
  rw [Array.swapIfInBounds_def, dif_pos hi, dif_pos hj, Array.getElem?_swap]
  simp only [eq_comm (a := k), Array.getElem?_eq_getElem hi, Array.getElem?_eq_getElem hj]

/-- What is drawn for a place is not above it. -/
def Descending (choice : ℕ → ℕ) : Prop := ∀ k, choice k ≤ k

section Draws

variable {choice choice' : ℕ → ℕ} {i : ℕ} {xs ys : Array α}

/-- Only the draws down to place 1 are looked at. -/
theorem shuffleFrom_congr (h : ∀ k, 0 < k → k ≤ i → choice k = choice' k) (xs : Array α) :
    shuffleFrom choice i xs = shuffleFrom choice' i xs := by
  induction i generalizing xs with
  | zero => rfl
  | succ i ih =>
    rw [shuffleFrom, shuffleFrom, h (i + 1) (Nat.succ_pos i) (Nat.le_refl _)]
    exact ih (fun k hpos hk => h k hpos (Nat.le_succ_of_le hk)) _

/-- A shuffle moves the places and does not look at the entries. -/
theorem shuffleFrom_map (choice : ℕ → ℕ) (i : ℕ) (f : α → β) (xs : Array α) :
    shuffleFrom choice i (xs.map f) = (shuffleFrom choice i xs).map f := by
  induction i generalizing xs with
  | zero => rfl
  | succ i ih =>
    have hswap : (xs.map f).swapIfInBounds (i + 1) (choice (i + 1)) =
        (xs.swapIfInBounds (i + 1) (choice (i + 1))).map f := by
      apply Array.ext
      · simp
      · intro k _ _
        rw [Array.getElem_map, Array.getElem_swapIfInBounds, Array.getElem_swapIfInBounds]
        simp only [Array.size_map, Array.getElem_map]
        split_ifs
        · rfl
        · rfl
        · rfl
    rw [shuffleFrom, shuffleFrom, hswap, ih]

/-- The places above the first one drawn for keep their entries. -/
theorem getElem?_shuffleFrom_of_lt (hchoice : Descending choice) (hi : i < xs.size) {k : ℕ}
    (hk : i < k) : (shuffleFrom choice i xs)[k]? = xs[k]? := by
  induction i generalizing xs with
  | zero => rfl
  | succ i ih =>
    have hdrawn := hchoice (i + 1)
    rw [shuffleFrom, ih (by rw [Array.size_swapIfInBounds]; omega) (by omega),
      getElem?_swapIfInBounds_eq hi (by omega), if_neg (by omega), if_neg (by omega)]

/-- The entry that was drawn for the last place is there at the end. -/
theorem getElem?_shuffleFrom_succ (hchoice : Descending choice) (hi : i + 1 < xs.size) :
    (shuffleFrom choice (i + 1) xs)[i + 1]? = xs[choice (i + 1)]? := by
  have hdrawn := hchoice (i + 1)
  rw [shuffleFrom, getElem?_shuffleFrom_of_lt hchoice (by rw [Array.size_swapIfInBounds]; omega)
    (Nat.lt_succ_self i), getElem?_swapIfInBounds_eq hi (by omega), if_pos rfl]
  split_ifs with hself
  · rw [← hself]
  · rfl

theorem nodup_toList_iff : xs.toList.Nodup ↔
    ∀ j k, j < xs.size → k < xs.size → xs[j]? = xs[k]? → j = k := by
  rw [List.nodup_iff_injective_getElem]
  constructor
  · intro hinjective j k hj hk heq
    have hsame := @hinjective ⟨j, by simpa using hj⟩ ⟨k, by simpa using hk⟩
      (by simpa [hj, hk] using heq)
    exact congrArg Fin.val hsame
  · rintro h ⟨j, hj⟩ ⟨k, hk⟩ heq
    have hj' : j < xs.size := by simpa using hj
    have hk' : k < xs.size := by simpa using hk
    refine Fin.ext (h j k hj' hk' ?_)
    simpa [hj', hk'] using heq

/-- On different entries, the draws can be read off the result. -/
theorem choice_eq_of_shuffleFrom_eq (hnodup : xs.toList.Nodup) (hi : i < xs.size)
    (hchoice : Descending choice) (hchoice' : Descending choice')
    (heq : shuffleFrom choice i xs = shuffleFrom choice' i xs) {k : ℕ} (hpos : 0 < k)
    (hk : k ≤ i) : choice k = choice' k := by
  induction i generalizing xs with
  | zero => omega
  | succ i ih =>
    have hdrawn := hchoice (i + 1)
    have hdrawn' := hchoice' (i + 1)
    have hlast := congrArg (fun zs => zs[i + 1]?) heq
    simp only [getElem?_shuffleFrom_succ hchoice hi, getElem?_shuffleFrom_succ hchoice' hi] at hlast
    have hsame := nodup_toList_iff.mp hnodup _ _ (by omega) (by omega) hlast
    rcases Nat.lt_or_ge i k with hlt | hle
    · rwa [show k = i + 1 by omega]
    · rw [shuffleFrom, shuffleFrom, ← hsame] at heq
      refine ih ?_ (by rw [Array.size_swapIfInBounds]; omega) heq hle
      exact ((perm_swapIfInBounds xs _ _).toList.nodup_iff).mpr hnodup

/-- Two arrays with the same entries that agree above the first place agree. -/
theorem eq_of_perm_of_agree (hperm : ys.Perm xs) (hagree : ∀ k, 0 < k → ys[k]? = xs[k]?) :
    ys = xs := by
  have hlist := hperm.toList
  have htail : ys.toList.tail = xs.toList.tail := by
    apply List.ext_getElem?
    intro k
    rw [List.getElem?_tail, List.getElem?_tail]
    simpa using hagree (k + 1) (Nat.succ_pos k)
  apply Array.toList_inj.mp
  cases hys : ys.toList with
  | nil =>
    rw [hys] at hlist
    exact (List.nil_perm.mp hlist).symm
  | cons y rest =>
    cases hxs : xs.toList with
    | nil =>
      rw [hys, hxs] at hlist
      exact absurd (List.perm_nil.mp hlist) (List.cons_ne_nil y rest)
    | cons x rest' =>
      rw [hys, hxs, List.tail_cons, List.tail_cons] at htail
      rw [hys, hxs, htail, ← Multiset.coe_eq_coe, ← Multiset.cons_coe, ← Multiset.cons_coe,
        Multiset.cons_inj_left] at hlist
      rw [htail, hlist]

/-- Every arrangement of different entries is the result of some draws. -/
theorem exists_shuffleFrom (hnodup : xs.toList.Nodup) (hi : i < xs.size) (hperm : ys.Perm xs)
    (hagree : ∀ k, i < k → ys[k]? = xs[k]?) :
    ∃ choice, Descending choice ∧ shuffleFrom choice i xs = ys := by
  induction i generalizing xs with
  | zero => exact ⟨fun k => k, fun k => Nat.le_refl k, (eq_of_perm_of_agree hperm hagree).symm⟩
  | succ i ih =>
    have hsize := hperm.size_eq
    -- the entry that has to come to the last place is at one of those drawn from
    have hplace : ∃ j, j ≤ i + 1 ∧ xs[j]? = ys[i + 1]? := by
      have hlt : i + 1 < ys.size := hi.trans_eq hsize.symm
      have hmem : ys[i + 1] ∈ xs.toList :=
        hperm.toList.mem_iff.mp (Array.mem_toList_iff.mpr (Array.getElem_mem hlt))
      obtain ⟨j, hj⟩ := List.mem_iff_getElem?.mp hmem
      rw [Array.getElem?_toList] at hj
      refine ⟨j, ?_, by rw [hj, Array.getElem?_eq_getElem hlt]⟩
      by_contra habove
      obtain ⟨hjsize, -⟩ := Array.getElem?_eq_some_iff.mp hj
      have hnodup' : ys.toList.Nodup := hperm.toList.nodup_iff.mpr hnodup
      have hsame := nodup_toList_iff.mp hnodup' j (i + 1) (hjsize.trans_eq hsize.symm) hlt
        (by rw [hagree j (by omega), hj, Array.getElem?_eq_getElem hlt])
      omega
    obtain ⟨j, hj, hentry⟩ := hplace
    have hjsize : j < xs.size := by omega
    obtain ⟨choice, hchoice, hrest⟩ := @ih (xs.swapIfInBounds (i + 1) j)
      ((perm_swapIfInBounds xs _ _).toList.nodup_iff.mpr hnodup)
      (by rw [Array.size_swapIfInBounds]; omega)
      (hperm.trans (perm_swapIfInBounds xs _ _).symm)
      (by
        intro k hk
        rw [getElem?_swapIfInBounds_eq hi hjsize]
        split_ifs with hkj hki
        · have hlast : j = i + 1 := by omega
          rw [hlast] at hentry
          rw [hkj, hlast, hentry]
        · rw [hki, hentry]
        · exact hagree k (by omega))
    refine ⟨Function.update choice (i + 1) j, ?_, ?_⟩
    · intro k
      by_cases hk : k = i + 1
      · rw [hk, Function.update_self]
        exact hj
      · rw [Function.update_of_ne hk]
        exact hchoice k
    · rw [shuffleFrom, Function.update_self, ← hrest]
      apply shuffleFrom_congr
      intro k _ hk
      exact Function.update_of_ne (by omega) _ _

end Draws

end Blackstone.PermutationTable
