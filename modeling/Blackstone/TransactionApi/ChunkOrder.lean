import Blackstone.Library.FisherYates
import Blackstone.TransactionApi.Chunks

/-!
# The order of the chunks

`generateOrderMap` and `unshuffle` of `utils/binarySplitter.js`. The map of the order is shuffled
like the chunks, but with draws of its own.

* `unshuffle_shuffle_iff`: `unshuffle` undoes `shuffle` exactly when the map was made by draws that
  shuffle these chunks in the same way.
* `shuffle_eq_iff`, `exists_shuffle_eq`: on different chunks the draws have to be the same, and
  every arrangement comes from exactly one sequence of draws.
-/

namespace Blackstone.TransactionApi

open PermutationTable

/-- `generateOrderMap`. -/
def generateOrderMap (choice : (i : ℕ) → Fin (i + 1)) (length : ℕ) : List ℕ :=
  (shuffleFrom (fun i => (choice i).val) (length - 1) (Array.range length)).toList

/-- `result[place] = value`. A place behind the end makes the array longer, with holes. -/
def assign {α : Type} (result : List (Option α)) (place : ℕ) (value : Option α) :
    List (Option α) :=
  if place < result.length then result.set place value
  else result ++ List.replicate (place - result.length) none ++ [value]

/-- `unshuffle`, where a hole is `none`. -/
def unshuffle {α : Type} (shuffledChunks : List α) (originalOrder : List ℕ) : List (Option α) :=
  originalOrder.zipIdx.foldl (fun result entry => assign result entry.1 shuffledChunks[entry.2]?)
    (List.replicate shuffledChunks.length none)

section Order

variable {α : Type} {choice choice' : (i : ℕ) → Fin (i + 1)} {chunks : List (List UInt8)}

theorem generateOrderMap_perm (choice : (i : ℕ) → Fin (i + 1)) (length : ℕ) :
    (generateOrderMap choice length).Perm (List.range length) := by
  have hperm :=
    (perm_shuffleFrom (fun i => (choice i).val) (length - 1) (Array.range length)).toList
  rwa [Array.toList_range] at hperm

theorem length_generateOrderMap (choice : (i : ℕ) → Fin (i + 1)) (length : ℕ) :
    (generateOrderMap choice length).length = length := by
  rw [(generateOrderMap_perm choice length).length_eq, List.length_range]

theorem length_shuffle (choice : (i : ℕ) → Fin (i + 1)) (chunks : List (List UInt8)) :
    (shuffle choice chunks).length = chunks.length := by
  have hperm :=
    (perm_shuffleFrom (fun i => (choice i).val) (chunks.length - 1) chunks.toArray).toList
  exact hperm.length_eq

/-- What comes to a place is the chunk that the map of the same draws names there. -/
theorem shuffle_eq_map (choice : (i : ℕ) → Fin (i + 1)) (chunks : List (List UInt8)) :
    (shuffle choice chunks).map some =
      (generateOrderMap choice chunks.length).map (chunks[·]?) := by
  have hchunks : chunks.toArray.map some = (Array.range chunks.length).map (chunks[·]?) := by
    apply Array.ext
    · simp
    · intro i hi _
      simp at hi
      simp [hi]
  rw [shuffle, generateOrderMap, ← Array.toList_map, ← Array.toList_map, ← shuffleFrom_map,
    ← shuffleFrom_map, hchunks]

/-- `unshuffle` writes each chunk to the place that the map gives for it. -/
theorem getElem?_unshuffle (shuffled : List α) {order : List ℕ} (hnodup : order.Nodup)
    (hlt : ∀ place ∈ order, place < shuffled.length) :
    (unshuffle shuffled order).length = shuffled.length ∧
      ∀ i place : ℕ, order[i]? = some place →
        (unshuffle shuffled order)[place]? = some shuffled[i]? := by
  induction order using List.reverseRecOn with
  | nil =>
    refine ⟨List.length_replicate, fun i place h => ?_⟩
    rw [List.getElem?_nil] at h
    cases h
  | append_singleton order last ih =>
    obtain ⟨hbefore, -, hnew⟩ := List.nodup_append.mp hnodup
    obtain ⟨hlength, hplaces⟩ := ih hbefore fun place hplace =>
      hlt place (List.mem_append_left _ hplace)
    have hlast : last < (unshuffle shuffled order).length := by
      rw [hlength]
      exact hlt last (List.mem_append_right _ List.mem_cons_self)
    have hstep : unshuffle shuffled (order ++ [last]) =
        (unshuffle shuffled order).set last shuffled[order.length]? := by
      rw [unshuffle, List.zipIdx_append, List.foldl_append, ← unshuffle]
      simp only [List.zipIdx_singleton, Nat.zero_add, List.foldl_cons, List.foldl_nil]
      rw [assign, if_pos hlast]
    rw [hstep]
    refine ⟨List.length_set.trans hlength, fun i place h => ?_⟩
    rcases Nat.lt_trichotomy i order.length with hi | hi | hi
    · rw [List.getElem?_append_left hi] at h
      have hne : last ≠ place :=
        (hnew place (List.mem_of_getElem? h) last List.mem_cons_self).symm
      rw [List.getElem?_set_ne hne]
      exact hplaces i place h
    · rw [hi, List.getElem?_append_right (Nat.le_refl _), Nat.sub_self] at h
      rw [← Option.some.inj h, List.getElem?_set_self hlast, hi]
    · have hnone : (order ++ [last])[i]? = none := by
        rw [List.getElem?_eq_none_iff, List.length_append, List.length_singleton]
        omega
      rw [hnone] at h
      cases h

/-- `unshuffle` undoes `shuffle` exactly when the map was made by draws that shuffle these chunks
in the same way. -/
theorem unshuffle_shuffle_iff (choice choice' : (i : ℕ) → Fin (i + 1))
    (chunks : List (List UInt8)) :
    unshuffle (shuffle choice chunks) (generateOrderMap choice' chunks.length) =
        chunks.map some ↔
      shuffle choice chunks = shuffle choice' chunks := by
  have hperm := generateOrderMap_perm choice' chunks.length
  have hlength := length_shuffle choice chunks
  obtain ⟨hsize, hplaces⟩ := getElem?_unshuffle (shuffle choice chunks)
    (hperm.nodup_iff.mpr List.nodup_range) (fun place hplace => by
      rw [hlength]
      exact List.mem_range.mp (hperm.mem_iff.mp hplace))
  have hentry : ∀ i place : ℕ, (generateOrderMap choice' chunks.length)[i]? = some place →
      (shuffle choice' chunks)[i]? = chunks[place]? := by
    intro i place hi
    have hmap := congrArg (·[i]?) (shuffle_eq_map choice' chunks)
    simp only [List.getElem?_map, hi, Option.map_some] at hmap
    obtain ⟨chunk, hchunk, hsame⟩ := Option.map_eq_some_iff.mp hmap
    rw [hchunk, hsame]
  constructor
  · intro hrestored
    apply List.ext_getElem?
    intro i
    cases hi : (generateOrderMap choice' chunks.length)[i]? with
    | none =>
      rw [List.getElem?_eq_none_iff, length_generateOrderMap] at hi
      rw [List.getElem?_eq_none_iff.mpr (by rwa [length_shuffle]),
        List.getElem?_eq_none_iff.mpr (by rwa [length_shuffle])]
    | some place =>
      have hplace := hplaces i place hi
      rw [hrestored, List.getElem?_map] at hplace
      obtain ⟨chunk, hchunk, hsame⟩ := Option.map_eq_some_iff.mp hplace
      rw [← hsame, hentry i place hi, hchunk]
  · intro hsame
    apply List.ext_getElem?
    intro place
    rcases Nat.lt_or_ge place chunks.length with hlt | hge
    · have hmem : place ∈ generateOrderMap choice' chunks.length :=
        hperm.mem_iff.mpr (List.mem_range.mpr hlt)
      obtain ⟨i, hi⟩ := List.mem_iff_getElem?.mp hmem
      rw [hplaces i place hi, hsame, hentry i place hi, List.getElem?_map,
        List.getElem?_eq_getElem hlt, Option.map_some]
    · rw [List.getElem?_eq_none_iff.mpr (by rwa [hsize, hlength]),
        List.getElem?_eq_none_iff.mpr (by rwa [List.length_map])]

/-- Different chunks tell the draws. -/
theorem shuffle_eq_iff (hnodup : chunks.Nodup) : shuffle choice chunks = shuffle choice' chunks ↔
    ∀ i, 0 < i → i < chunks.length → choice i = choice' i := by
  constructor
  · intro hsame i hpos hi
    have harrays := Array.toList_inj.mp hsame
    have hlast : chunks.length - 1 < chunks.toArray.size := by
      rw [List.size_toArray]
      omega
    exact Fin.ext (choice_eq_of_shuffleFrom_eq hnodup hlast
      (fun k => Nat.le_of_lt_succ (choice k).isLt) (fun k => Nat.le_of_lt_succ (choice' k).isLt)
      harrays hpos (by omega))
  · intro hdraws
    rw [shuffle, shuffle]
    congr 1
    apply shuffleFrom_congr
    intro k hpos hk
    rw [hdraws k hpos (by omega)]

/-- Every arrangement of different chunks is the result of exactly one sequence of draws, and with
the map of any other draws it is not undone. -/
theorem exists_shuffle_eq (hnodup : chunks.Nodup) {arranged : List (List UInt8)}
    (hperm : arranged.Perm chunks) :
    ∃ choice : (i : ℕ) → Fin (i + 1), shuffle choice chunks = arranged ∧
      ∀ choice' : (i : ℕ) → Fin (i + 1),
        (shuffle choice' chunks = arranged ↔
          ∀ i, 0 < i → i < chunks.length → choice' i = choice i) ∧
        (unshuffle arranged (generateOrderMap choice' chunks.length) = chunks.map some ↔
          ∀ i, 0 < i → i < chunks.length → choice' i = choice i) := by
  have hreached : ∃ choice : (i : ℕ) → Fin (i + 1), shuffle choice chunks = arranged := by
    rcases Nat.eq_zero_or_pos chunks.length with hzero | hpos
    · have hnil := List.length_eq_zero_iff.mp hzero
      rw [hnil] at hperm ⊢
      exact ⟨fun i => ⟨0, Nat.succ_pos i⟩, (List.perm_nil.mp hperm).symm⟩
    · have hlast : chunks.length - 1 < chunks.toArray.size := by
        rw [List.size_toArray]
        omega
      have harrays : arranged.toArray.Perm chunks.toArray := by
        simpa [Array.perm_iff_toList_perm] using hperm
      have hagree : ∀ k, chunks.length - 1 < k → arranged.toArray[k]? = chunks.toArray[k]? := by
        intro k hk
        have hlength := hperm.length_eq
        rw [Array.getElem?_eq_none (by simp; omega), Array.getElem?_eq_none (by simp; omega)]
      obtain ⟨draws, hdraws, hresult⟩ := exists_shuffleFrom hnodup hlast harrays hagree
      refine ⟨fun i => ⟨draws i, Nat.lt_succ_of_le (hdraws i)⟩, ?_⟩
      rw [shuffle, hresult]
  obtain ⟨choice, hchoice⟩ := hreached
  refine ⟨choice, hchoice, fun choice' => ⟨?_, ?_⟩⟩
  · rw [← hchoice, shuffle_eq_iff hnodup]
  · rw [← hchoice, unshuffle_shuffle_iff, eq_comm, shuffle_eq_iff hnodup]

/-- Two chunks that changed places. -/
theorem exists_shuffle_eq_swapped :
    ∃ choice : (i : ℕ) → Fin (i + 1), shuffle choice [[1], [2]] = [[2], [1]] := by
  have hnodup : ([[1], [2]] : List (List UInt8)).Nodup := by decide
  have hperm : ([[2], [1]] : List (List UInt8)).Perm [[1], [2]] := by decide
  obtain ⟨choice, hchoice, -⟩ := exists_shuffle_eq hnodup hperm
  exact ⟨choice, hchoice⟩

end Order

end Blackstone.TransactionApi
