import Blackstone.Library.Loops
import Blackstone.Library.Merkle

/-!
# Padded Merkle trees built by loops

`pairLoop` walks over a level in steps of two, reads both nodes of a pair and appends their
combination to the next level. It fails when it reads behind the end of the level, which it
does not where the level is padded (`pairLoop_padLevel`). `loop_topLevel` and `loop_levels`
are the loops over the levels, without and with a record of them.
-/

namespace Blackstone.Merkle

open Loops

variable {α : Type} (combine : α → α → α)

/-- One round of the loop over the pairs, from the index and the nodes combined so far. -/
def pairRound (level : List α) (s : ℕ × List α) : Option (ℕ × List α) := do
  let left ← level[s.1]?
  let right ← level[s.1 + 1]?
  some (s.1 + 2, s.2 ++ [combine left right])

/-- The loop over the pairs of a level. -/
def pairLoop (level : List α) : Option (List α) :=
  (loop (fun s => decide (s.1 < level.length)) (pairRound combine level) level.length
    (0, [])).map Prod.snd

/-! ## One level -/

theorem pairUp_append_pair {done : List α} (heven : done.length % 2 = 0) (x y : α) :
    pairUp combine (done ++ [x, y]) = pairUp combine done ++ [combine x y] := by
  induction done using pairUp.induct with
  | case1 u v rest ih =>
    have hrest : rest.length % 2 = 0 := by
      rw [List.length_cons, List.length_cons] at heven
      omega
    rw [List.cons_append, List.cons_append, pairUp, ih hrest, pairUp, List.cons_append]
  | case2 done hshort =>
    obtain rfl | ⟨u, rfl⟩ := eq_nil_or_singleton hshort
    · rfl
    · cases heven

/-- The pairs before index `i` are combined, and `i` is even. -/
def PairsDone (level : List α) (s : ℕ × List α) : Prop :=
  s.1 % 2 = 0 ∧ s.1 ≤ level.length ∧ s.2 = pairUp combine (level.take s.1)

theorem pairRound_spec {level : List α} (heven : level.length % 2 = 0) {s : ℕ × List α}
    (hdone : PairsDone combine level s) (hmore : s.1 < level.length) :
    ∃ t, pairRound combine level s = some t ∧ PairsDone combine level t ∧ t.1 = s.1 + 2 := by
  obtain ⟨hparity, -, hnext⟩ := hdone
  have hright : s.1 + 1 < level.length := by omega
  refine ⟨(s.1 + 2, s.2 ++ [combine level[s.1] level[s.1 + 1]]), ?_, ⟨?_, ?_, ?_⟩, rfl⟩
  · rw [pairRound, List.getElem?_eq_getElem hmore, List.getElem?_eq_getElem hright]
    rfl
  · show (s.1 + 2) % 2 = 0
    omega
  · show s.1 + 2 ≤ level.length
    omega
  · have htake : level.take (s.1 + 2) = level.take s.1 ++ [level[s.1], level[s.1 + 1]] := by
      rw [List.take_succ_eq_append_getElem hright, List.take_succ_eq_append_getElem hmore,
        List.append_assoc, List.singleton_append]
    have hlength : (level.take s.1).length % 2 = 0 := by
      rw [List.length_take, Nat.min_eq_left (Nat.le_of_lt hmore), hparity]
    rw [htake, pairUp_append_pair combine hlength, ← hnext]

/-- Over an even number of nodes the loop never reads behind the end. -/
theorem pairLoop_eq {level : List α} (heven : level.length % 2 = 0) :
    pairLoop combine level = some (pairUp combine level) := by
  have hround : ∀ s, PairsDone combine level s → decide (s.1 < level.length) = true →
      ∃ t, pairRound combine level s = some t ∧ PairsDone combine level t ∧
        level.length - t.1 < level.length - s.1 := by
    intro s hdone hmore
    have hlt : s.1 < level.length := of_decide_eq_true hmore
    obtain ⟨t, hround, ht, hindex⟩ := pairRound_spec combine heven hdone hlt
    exact ⟨t, hround, ht, by rw [hindex]; omega⟩
  obtain ⟨t, hrun, ⟨-, hle, hnext⟩, hend⟩ :=
    loop_spec (PairsDone combine level) (fun s => level.length - s.1) hround level.length (0, [])
      (Nat.sub_le _ _) ⟨rfl, Nat.zero_le _, rfl⟩
  have hall : t.1 = level.length := by
    have := of_decide_eq_false hend
    omega
  rw [pairLoop, hrun, Option.map_some, hnext, hall, List.take_length]

theorem pairLoop_padLevel (level : List α) :
    pairLoop combine (padLevel level) = some (nextLevel combine level) := by
  rw [pairLoop_eq combine (by rw [length_padLevel]; omega), nextLevel]

/-! ## All levels -/

theorem loop_topLevel {body : List α → Option (List α)}
    (hbody : ∀ level, body level = some (nextLevel combine level)) {fuel : ℕ} {level : List α}
    (hfuel : level.length ≤ fuel) :
    loop (fun level => decide (level.length > 1)) body fuel level =
      some (topLevel combine fuel level) := by
  induction fuel generalizing level with
  | zero =>
    rw [loop, topLevel, if_neg]
    rw [decide_eq_true_iff]
    omega
  | succ fuel ih =>
    rw [loop, topLevel]
    by_cases hlong : level.length > 1
    · rw [if_pos (decide_eq_true hlong), if_pos hlong, hbody, Option.bind_some,
        ih (length_nextLevel_le combine hlong hfuel)]
    · rw [if_neg (by rwa [decide_eq_true_iff]), if_neg hlong]

/-- The loop that also records the levels it comes to. -/
theorem loop_levels {body : List (List α) × List α → Option (List (List α) × List α)}
    (hbody : ∀ tree level, body (tree, level) =
      some (tree ++ [nextLevel combine level], nextLevel combine level))
    {fuel : ℕ} (before : List (List α)) {level : List α} (hfuel : level.length ≤ fuel) :
    loop (fun s => decide (s.2.length > 1)) body fuel (before ++ [level], level) =
      some (before ++ levels combine fuel level, topLevel combine fuel level) := by
  induction fuel generalizing before level with
  | zero =>
    rw [loop, topLevel, levels, if_neg]
    rw [decide_eq_true_iff]
    show ¬ level.length > 1
    omega
  | succ fuel ih =>
    rw [loop, topLevel, levels]
    by_cases hlong : level.length > 1
    · rw [if_pos (decide_eq_true hlong), if_pos hlong, if_pos hlong, hbody, Option.bind_some,
        ih _ (length_nextLevel_le combine hlong hfuel), List.append_assoc, List.singleton_append]
    · rw [if_neg (by rwa [decide_eq_true_iff]), if_neg hlong, if_neg hlong]

end Blackstone.Merkle
