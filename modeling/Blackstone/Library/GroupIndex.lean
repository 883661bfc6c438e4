import Blackstone.Library.OrderedMap

/-!
# Maps with an index of groups

A map gives each key its group, and an index lists the members of each group. Entering a key
into a group keeps the index right exactly when the key was in no other group before
(`indexed_insert_iff`); taking a key out of its group always does (`Indexed.erase`).
-/

namespace Blackstone.GroupIndex

open OrderedMap

variable {K V : Type} [Ord K] [Std.TransOrd K] [Ord V] [Std.TransOrd V]

/-- The members of each group. -/
abbrev Index (K V : Type) [Ord K] [Ord V] := Std.TreeMap V (Std.TreeSet K)

/-- A key is listed in a group. -/
def Listed (index : Index K V) (v : V) (k : K) : Prop := k ∈ index[v]?.getD ∅

/-- Lists a key in a group, which is made if need be. -/
def addMember (index : Index K V) (v : V) (k : K) : Index K V :=
  index.insert v ((index[v]?.getD ∅).insert k)

/-- Takes a key out of a group, which is made if need be. -/
def removeMember (index : Index K V) (v : V) (k : K) : Index K V :=
  index.insert v ((index[v]?.getD ∅).erase k)

/-- Each group lists the keys that are in it. -/
def Indexed (m : Std.TreeMap K V) (index : Index K V) : Prop :=
  ∀ k v, Listed index v k ↔ m[k]? = some v

theorem indexed_empty : Indexed (∅ : Std.TreeMap K V) (∅ : Index K V) := by
  intro k v
  rw [Listed, Std.TreeMap.getElem?_emptyc, Std.TreeMap.getElem?_emptyc]
  exact iff_of_false Std.TreeSet.not_mem_emptyc (fun h => nomatch h)

variable [Std.LawfulEqOrd K] [Std.LawfulEqOrd V] [DecidableEq V]

theorem listed_addMember_iff {index : Index K V} {v v' : V} {k k' : K} :
    Listed (addMember index v k) v' k' ↔ (v = v' ∧ k = k') ∨ Listed index v' k' := by
  rw [Listed, addMember, getElem?_insert_eq, Listed]
  by_cases hv : v = v'
  · rw [if_pos hv, Option.getD_some, Std.TreeSet.mem_insert, Std.LawfulEqOrd.compare_eq_iff_eq, hv,
      and_iff_right rfl]
  · rw [if_neg hv, or_iff_right (fun h => hv h.1)]

theorem listed_removeMember_iff {index : Index K V} {v v' : V} {k k' : K} :
    Listed (removeMember index v k) v' k' ↔ ¬ (v = v' ∧ k = k') ∧ Listed index v' k' := by
  rw [Listed, removeMember, getElem?_insert_eq, Listed]
  by_cases hv : v = v'
  · rw [if_pos hv, Option.getD_some, Std.TreeSet.mem_erase, ne_eq,
      Std.LawfulEqOrd.compare_eq_iff_eq, hv, and_iff_right rfl]
  · rw [if_neg hv, and_iff_right (fun h => hv h.1)]

variable [DecidableEq K] {m : Std.TreeMap K V} {index : Index K V}

theorem indexed_insert_iff (h : Indexed m index) (k : K) (v : V) :
    Indexed (m.insert k v) (addMember index v k) ↔ ∀ old, m[k]? = some old → old = v := by
  constructor
  · intro hboth old hold
    have hlisted : Listed (addMember index v k) old k :=
      listed_addMember_iff.mpr (Or.inr ((h k old).mpr hold))
    have hnow := (hboth k old).mp hlisted
    rw [getElem?_insert_eq, if_pos rfl] at hnow
    exact (Option.some.inj hnow).symm
  · intro hsame k' v'
    rw [listed_addMember_iff, h, getElem?_insert_eq]
    by_cases hk : k = k'
    · subst hk
      rw [if_pos rfl, Option.some_inj, and_iff_left rfl, or_iff_left_of_imp]
      exact fun hold => (hsame v' hold).symm
    · rw [if_neg hk, or_iff_right (fun hpair => hk hpair.2)]

theorem Indexed.erase (h : Indexed m index) {k : K} {v : V} (hk : m[k]? = some v) :
    Indexed (m.erase k) (removeMember index v k) := by
  intro k' v'
  rw [listed_removeMember_iff, h, getElem?_erase_eq]
  by_cases hkey : k = k'
  · subst hkey
    rw [if_pos rfl, hk, Option.some_inj, and_iff_left rfl]
    exact iff_of_false (fun hpair => hpair.1 hpair.2) (fun hnone => nomatch hnone)
  · rw [if_neg hkey, and_iff_right (fun hpair => hkey hpair.2)]

end Blackstone.GroupIndex
