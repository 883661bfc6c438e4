import Mathlib.Algebra.Order.Ring.Nat
import Mathlib.Tactic.Common

/-!
# Merkle trees that pad odd levels with their last node

A level is combined pairwise into the next one; a level of odd length first repeats its
last node. `path` collects the siblings on the way of a leaf to the top, skipping a sibling
that lies behind the end of its level, and `climb` combines a leaf with a path.

`climb_path` says that a path leads to the top when its leaf is `Paired`: on none of the
levels below the top the way of the leaf is the last of an odd number of nodes. Where it is,
the sibling is skipped although the combination takes place, and a combination that counts
what it combines never reaches the value of the top (`climb_path_lt_of_not_paired`).
-/

namespace Blackstone.Merkle

variable {α : Type} (combine : α → α → α)

/-- A level of odd length repeats its last node. -/
def padLevel (level : List α) : List α :=
  if level.length % 2 = 1 then level ++ level.getLast?.toList else level

/-- Combines the nodes two by two. -/
def pairUp : List α → List α
  | x :: y :: rest => combine x y :: pairUp rest
  | _ => []

/-- The level above. -/
def nextLevel (level : List α) : List α := pairUp combine (padLevel level)

/-- The loop that goes up until one node is left; `fuel` bounds the number of levels. -/
def topLevel : Nat → List α → List α
  | 0, level => level
  | fuel + 1, level =>
    if level.length > 1 then topLevel fuel (nextLevel combine level) else level

/-- All levels from `level` to the top. -/
def levels : Nat → List α → List (List α)
  | 0, level => [level]
  | fuel + 1, level =>
    level :: if level.length > 1 then levels fuel (nextLevel combine level) else []

/-- The sibling of node `idx`, unless it lies behind the end of the level. -/
def sibling (level : List α) (idx : Nat) : Option α :=
  level[if idx % 2 = 0 then idx + 1 else idx - 1]?

/-- The siblings on the way from node `idx` to the top. -/
def path : Nat → List α → Nat → List α
  | 0, _, _ => []
  | fuel + 1, level, idx =>
    if level.length > 1 then
      (sibling level idx).toList ++ path fuel (nextLevel combine level) (idx / 2)
    else []

/-- The siblings read off a list of levels, of which the last one is the top. -/
def pathOf : List (List α) → Nat → List α
  | level :: above :: rest, idx => (sibling level idx).toList ++ pathOf (above :: rest) (idx / 2)
  | _, _ => []

/-- Combines a node with the siblings of a path. -/
def climb (current : α) (idx : Nat) : List α → α
  | [] => current
  | sib :: rest =>
    climb (if idx % 2 = 0 then combine current sib else combine sib current) (idx / 2) rest

/-! ## Levels -/

theorem length_padLevel (level : List α) :
    (padLevel level).length = 2 * ((level.length + 1) / 2) := by
  unfold padLevel
  split
  · have hne : level ≠ [] := by
      rintro rfl
      simp_all
    rw [List.getLast?_eq_some_getLast hne, Option.toList_some, List.length_append,
      List.length_singleton]
    omega
  · omega

/-- What is left when there are no two nodes to combine. -/
theorem eq_nil_or_singleton {level : List α}
    (hshort : ∀ x y rest, level = x :: y :: rest → False) : level = [] ∨ ∃ x, level = [x] := by
  rcases level with _ | ⟨x, _ | ⟨y, rest⟩⟩
  · exact Or.inl rfl
  · exact Or.inr ⟨x, rfl⟩
  · exact (hshort x y rest rfl).elim

theorem length_pairUp (level : List α) : (pairUp combine level).length = level.length / 2 := by
  induction level using pairUp.induct with
  | case1 x y rest ih =>
    rw [pairUp, List.length_cons, ih, List.length_cons, List.length_cons]
    omega
  | case2 level hshort =>
    obtain rfl | ⟨x, rfl⟩ := eq_nil_or_singleton hshort
    · simp [pairUp]
    · simp [pairUp]

@[simp] theorem length_nextLevel (level : List α) :
    (nextLevel combine level).length = (level.length + 1) / 2 := by
  rw [nextLevel, length_pairUp, length_padLevel]
  omega

theorem pairUp_getElem? {level : List α} {j : Nat} {x y : α} (hx : level[2 * j]? = some x)
    (hy : level[2 * j + 1]? = some y) : (pairUp combine level)[j]? = some (combine x y) := by
  induction j generalizing level with
  | zero =>
    rcases level with _ | ⟨z, _ | ⟨w, rest⟩⟩
    · cases hx
    · cases hy
    · cases hx
      cases hy
      rfl
  | succ j ih =>
    rcases level with _ | ⟨z, _ | ⟨w, rest⟩⟩
    · cases hx
    · cases hy
    · exact ih hx hy

theorem padLevel_getElem? {level : List α} {i : Nat} {x : α} (h : level[i]? = some x) :
    (padLevel level)[i]? = some x := by
  unfold padLevel
  split
  · rw [List.getElem?_append_left (List.getElem?_eq_some_iff.mp h).1, h]
  · exact h

/-- The parent of two siblings that lie in the level. -/
theorem nextLevel_getElem? {level : List α} {j : Nat} {x y : α} (hx : level[2 * j]? = some x)
    (hy : level[2 * j + 1]? = some y) : (nextLevel combine level)[j]? = some (combine x y) :=
  pairUp_getElem? combine (padLevel_getElem? hx) (padLevel_getElem? hy)

theorem length_nextLevel_le {fuel : Nat} {level : List α} (hlong : level.length > 1)
    (hfuel : level.length ≤ fuel + 1) : (nextLevel combine level).length ≤ fuel := by
  rw [length_nextLevel]
  omega

theorem half_lt_length_nextLevel {level : List α} {i : Nat} (hi : i < level.length) :
    i / 2 < (nextLevel combine level).length := by
  rw [length_nextLevel]
  omega

/-- With enough fuel the loop ends on a single node. -/
theorem length_topLevel {fuel : Nat} {level : List α} (hne : 0 < level.length)
    (hfuel : level.length ≤ fuel) : (topLevel combine fuel level).length = 1 := by
  induction fuel generalizing level with
  | zero => omega
  | succ fuel ih =>
    rw [topLevel]
    split
    · rename_i hlong
      exact ih (Nat.zero_lt_of_lt (half_lt_length_nextLevel combine hne))
        (length_nextLevel_le combine hlong hfuel)
    · omega

/-- The path read off the levels is the path collected on the way up. -/
theorem pathOf_levels {fuel : Nat} {level : List α} (hfuel : level.length ≤ fuel) (idx : Nat) :
    pathOf (levels combine fuel level) idx = path combine fuel level idx := by
  induction fuel generalizing level idx with
  | zero => rfl
  | succ fuel ih =>
    rw [levels, path]
    by_cases hlong : level.length > 1
    · rw [if_pos hlong, if_pos hlong, ← ih (length_nextLevel_le combine hlong hfuel)]
      cases fuel with
      | zero => omega
      | succ fuel =>
        rw [levels, pathOf]
    · rw [if_neg hlong, if_neg hlong]
      rfl

/-! ## Paths that reach the top -/

/-- The number of nodes on level `l` over `n` leaves. -/
def levelSize (n : Nat) : Nat → Nat
  | 0 => n
  | l + 1 => (levelSize n l + 1) / 2

/-- On no level below the top the way of leaf `i` is the last of an odd number of nodes. -/
def Paired (n i : Nat) : Prop :=
  ∀ l, 1 < levelSize n l → ¬ (levelSize n l % 2 = 1 ∧ i / 2 ^ l + 1 = levelSize n l)

theorem levelSize_succ (n l : Nat) : levelSize n (l + 1) = levelSize ((n + 1) / 2) l := by
  induction l with
  | zero => rfl
  | succ l ih => rw [levelSize, ih, levelSize]

/-- There is nothing to pair over a single leaf. -/
theorem paired_of_le_one {n : Nat} (hn : n ≤ 1) (i : Nat) : Paired n i := by
  have hsize : ∀ l, levelSize n l ≤ 1 := by
    intro l
    induction l with
    | zero => exact hn
    | succ l ih =>
      rw [levelSize]
      omega
  intro l hl
  exact absurd hl (Nat.not_lt.mpr (hsize l))

theorem paired_iff {n : Nat} (i : Nat) (hn : 1 < n) :
    Paired n i ↔ ¬ (n % 2 = 1 ∧ i + 1 = n) ∧ Paired ((n + 1) / 2) (i / 2) := by
  have hstep : ∀ l, i / 2 ^ (l + 1) = i / 2 / 2 ^ l := by
    intro l
    rw [Nat.div_div_eq_div_mul, pow_succ']
  constructor
  · intro h
    refine ⟨?_, ?_⟩
    · have hzero := h 0 hn
      rwa [pow_zero, Nat.div_one] at hzero
    · intro l hl
      have hsucc := h (l + 1)
      rw [levelSize_succ, hstep] at hsucc
      exact hsucc hl
  · intro h l hl
    obtain ⟨hzero, hrest⟩ := h
    cases l with
    | zero =>
      rw [pow_zero, Nat.div_one]
      exact hzero
    | succ l =>
      rw [levelSize_succ] at hl ⊢
      rw [hstep]
      exact hrest l hl

/-- The same on the level above. -/
theorem paired_level_iff {level : List α} (i : Nat) (hlong : level.length > 1) :
    Paired level.length i ↔
      ¬ (level.length % 2 = 1 ∧ i + 1 = level.length) ∧
        Paired (nextLevel combine level).length (i / 2) := by
  rw [length_nextLevel]
  exact paired_iff i hlong

/-- The last of an odd number of nodes has no sibling. -/
theorem sibling_of_last {level : List α} {i : Nat}
    (hlast : level.length % 2 = 1 ∧ i + 1 = level.length) : sibling level i = none := by
  rw [sibling, if_pos (by omega), List.getElem?_eq_none (by omega)]

/-- A paired node has its sibling in the level, and their combination is above. -/
theorem sibling_of_paired {level : List α} {i : Nat} {x : α} (hx : level[i]? = some x)
    (hpaired : ¬ (level.length % 2 = 1 ∧ i + 1 = level.length)) :
    ∃ sib, sibling level i = some sib ∧
      (nextLevel combine level)[i / 2]? =
        some (if i % 2 = 0 then combine x sib else combine sib x) := by
  have hlt := (List.getElem?_eq_some_iff.mp hx).1
  unfold sibling
  by_cases heven : i % 2 = 0
  · have hin : i + 1 < level.length := by omega
    have hsib : level[i + 1]? = some level[i + 1] := List.getElem?_eq_getElem hin
    refine ⟨level[i + 1], ?_, ?_⟩
    · rw [if_pos heven, hsib]
    · rw [if_pos heven]
      apply nextLevel_getElem?
      · rw [show 2 * (i / 2) = i by omega, hx]
      · rw [show 2 * (i / 2) = i by omega, hsib]
  · have hin : i - 1 < level.length := by omega
    have hsib : level[i - 1]? = some level[i - 1] := List.getElem?_eq_getElem hin
    refine ⟨level[i - 1], ?_, ?_⟩
    · rw [if_neg heven, hsib]
    · rw [if_neg heven]
      apply nextLevel_getElem?
      · rw [show 2 * (i / 2) = i - 1 by omega, hsib]
      · rw [show 2 * (i / 2) + 1 = i by omega, hx]

/-- The path of a paired leaf leads to the top. -/
theorem climb_path {fuel : Nat} {level : List α} {i : Nat} {x : α}
    (hfuel : level.length ≤ fuel) (hx : level[i]? = some x) (hpaired : Paired level.length i) :
    (topLevel combine fuel level)[0]? = some (climb combine x i (path combine fuel level i)) := by
  induction fuel generalizing level i x with
  | zero =>
    have := (List.getElem?_eq_some_iff.mp hx).1
    omega
  | succ fuel ih =>
    have hlt := (List.getElem?_eq_some_iff.mp hx).1
    rw [topLevel, path]
    by_cases hlong : level.length > 1
    · obtain ⟨hhere, habove⟩ := (paired_level_iff combine i hlong).mp hpaired
      obtain ⟨sib, hsib, hparent⟩ := sibling_of_paired combine hx hhere
      rw [if_pos hlong, if_pos hlong, hsib, Option.toList_some, List.singleton_append, climb]
      exact ih (length_nextLevel_le combine hlong hfuel) hparent habove
    · have hzero : i = 0 := by omega
      subst hzero
      rw [if_neg hlong, if_neg hlong, hx]
      rfl

/-! ## Paths that do not -/

theorem forall_mem_pairUp {P : α → Prop} {level : List α}
    (hP : ∀ x ∈ level, ∀ y ∈ level, P (combine x y)) : ∀ z ∈ pairUp combine level, P z := by
  induction level using pairUp.induct with
  | case1 x y rest ih =>
    have hrest : ∀ z ∈ rest, z ∈ x :: y :: rest :=
      fun z hz => List.mem_cons_of_mem _ (List.mem_cons_of_mem _ hz)
    intro z hz
    rw [pairUp, List.mem_cons] at hz
    rcases hz with rfl | hz
    · exact hP x List.mem_cons_self y (List.mem_cons_of_mem _ List.mem_cons_self)
    · exact ih (fun u hu v hv => hP u (hrest u hu) v (hrest v hv)) z hz
  | case2 level hshort =>
    intro z hz
    rw [pairUp] at hz
    · cases hz
    · exact hshort

theorem mem_of_mem_padLevel {level : List α} {x : α} (hx : x ∈ padLevel level) : x ∈ level := by
  unfold padLevel at hx
  split at hx
  · rcases List.mem_append.mp hx with hx | hx
    · exact hx
    · exact List.mem_of_getLast? (Option.mem_toList.mp hx)
  · exact hx

/-- What holds of every combination of two nodes holds on the level above. -/
theorem forall_mem_nextLevel {P : α → Prop} {level : List α}
    (hP : ∀ x ∈ level, ∀ y ∈ level, P (combine x y)) : ∀ z ∈ nextLevel combine level, P z :=
  forall_mem_pairUp combine
    (fun x hx y hy => hP x (mem_of_mem_padLevel hx) y (mem_of_mem_padLevel hy))

section Weight

variable {combine} {weight : α → Nat} {bound : Nat}

/-- Where combining adds up what is combined, from a bound on, a path over a level of equal
nodes leads at most to the value of the top, and not to it when it starts too low or skips a
sibling. The order of the operands does not matter here, so the index of the climb is
arbitrary. -/
theorem climb_path_lt
    (hweight : ∀ x y, bound ≤ weight x + weight y →
      weight (combine x y) = weight x + weight y + 1)
    {fuel : Nat} {level : List α} {c i : Nat} (j : Nat) {x top : α} (hfuel : level.length ≤ fuel)
    (hbound : bound ≤ c) (hc : ∀ y ∈ level, weight y = c) (hi : i < level.length)
    (hx : weight x ≤ c) (htop : (topLevel combine fuel level)[0]? = some top) :
    weight (climb combine x j (path combine fuel level i)) ≤ weight top ∧
      (weight x < c ∨ ¬ Paired level.length i →
        weight (climb combine x j (path combine fuel level i)) < weight top) := by
  induction fuel generalizing level c i j x with
  | zero => omega
  | succ fuel ih =>
    rw [topLevel] at htop
    rw [path]
    by_cases hlong : level.length > 1
    · rw [if_pos hlong] at htop ⊢
      have hnext : ∀ z ∈ nextLevel combine level, weight z = 2 * c + 1 := by
        apply forall_mem_nextLevel
        intro y hy z hz
        rw [hweight y z (by rw [hc y hy]; omega), hc y hy, hc z hz]
        omega
      have hbound' : bound ≤ 2 * c + 1 := by omega
      have hrest := length_nextLevel_le combine hlong hfuel
      have hhalf := half_lt_length_nextLevel combine hi
      by_cases hhere : level.length % 2 = 1 ∧ i + 1 = level.length
      · -- the sibling is skipped, and the node is too low for the level above
        have hlow : weight x ≤ 2 * c + 1 := by omega
        obtain ⟨hle, hlt⟩ := ih j hrest hbound' hnext hhalf hlow htop
        rw [sibling_of_last hhere, Option.toList_none, List.nil_append]
        exact ⟨hle, fun _ => hlt (Or.inl (by omega))⟩
      · obtain ⟨sib, hsib, -⟩ :=
          sibling_of_paired combine (List.getElem?_eq_getElem hi) hhere
        have hsibc : weight sib = c := hc sib (List.mem_of_getElem? hsib)
        have hparent : weight (if j % 2 = 0 then combine x sib else combine sib x) =
            weight x + c + 1 := by
          split
          · rw [hweight _ _ (by omega), hsibc]
          · rw [hweight _ _ (by omega), hsibc, Nat.add_comm c]
        have hle' : weight (if j % 2 = 0 then combine x sib else combine sib x) ≤ 2 * c + 1 := by
          omega
        obtain ⟨hle, hlt⟩ := ih (j / 2) hrest hbound' hnext hhalf hle' htop
        rw [hsib, Option.toList_some, List.singleton_append, climb]
        refine ⟨hle, ?_⟩
        intro h
        apply hlt
        rcases h with hlow | hunpaired
        · exact Or.inl (by omega)
        · right
          intro habove
          exact hunpaired ((paired_level_iff combine i hlong).mpr ⟨hhere, habove⟩)
    · rw [if_neg hlong] at htop ⊢
      have htopc : weight top = c := hc top (List.mem_of_getElem? htop)
      rw [climb]
      refine ⟨by omega, ?_⟩
      intro h
      rcases h with hlow | hunpaired
      · omega
      · exact absurd (paired_of_le_one (by omega) i) hunpaired

/-- The same from leaves below the bound, all of whose combinations have the value of the
bound: the path of a leaf that is not paired does not lead to the top. -/
theorem climb_path_lt_of_not_paired
    (hweight : ∀ x y, bound ≤ weight x + weight y →
      weight (combine x y) = weight x + weight y + 1)
    {fuel : Nat} {level : List α} {i : Nat} {x top : α} (hfuel : level.length ≤ fuel)
    (hleaf : ∀ y ∈ level, weight y < bound)
    (hpair : ∀ y ∈ level, ∀ z ∈ level, weight (combine y z) = bound)
    (hx : level[i]? = some x) (hunpaired : ¬ Paired level.length i)
    (htop : (topLevel combine fuel level)[0]? = some top) :
    weight (climb combine x i (path combine fuel level i)) < weight top := by
  have hi := (List.getElem?_eq_some_iff.mp hx).1
  have hlong : level.length > 1 := by
    by_contra hshort
    exact hunpaired (paired_of_le_one (Nat.not_lt.mp hshort) i)
  obtain ⟨n, rfl⟩ : ∃ n, fuel = n + 1 := Nat.exists_eq_succ_of_ne_zero (by omega)
  rw [topLevel, if_pos hlong] at htop
  rw [path, if_pos hlong]
  have hlevel : ∀ z ∈ nextLevel combine level, weight z = bound :=
    forall_mem_nextLevel combine hpair
  have hrest := length_nextLevel_le combine hlong hfuel
  have hhalf := half_lt_length_nextLevel combine hi
  by_cases hhere : level.length % 2 = 1 ∧ i + 1 = level.length
  · -- the sibling is skipped
    have hlow := hleaf x (List.mem_of_getElem? hx)
    rw [sibling_of_last hhere, Option.toList_none, List.nil_append]
    exact (climb_path_lt hweight i hrest (Nat.le_refl bound) hlevel hhalf (Nat.le_of_lt hlow)
      htop).2 (Or.inl hlow)
  · obtain ⟨sib, hsib, hparent⟩ := sibling_of_paired combine hx hhere
    have hequal := hlevel _ (List.mem_of_getElem? hparent)
    have habove : ¬ Paired (nextLevel combine level).length (i / 2) := by
      intro h
      exact hunpaired ((paired_level_iff combine i hlong).mpr ⟨hhere, h⟩)
    rw [hsib, Option.toList_some, List.singleton_append, climb]
    exact (climb_path_lt hweight (i / 2) hrest (Nat.le_refl bound) hlevel hhalf
      (Nat.le_of_eq hequal) htop).2 (Or.inr habove)

end Weight

end Blackstone.Merkle
