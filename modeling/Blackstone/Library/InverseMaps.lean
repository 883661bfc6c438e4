import Blackstone.Library.DefaultMap

/-!
# Inverse maps

Two finite maps that are kept as the inverse of each other. Entering a pair under a fresh key
keeps them inverse exactly when its value is fresh as well (`inverse_insert_iff`), and erasing
a pair from both always does (`Inverse.erase`).
-/

namespace Blackstone.DefaultMap

variable {K V : Type} [DecidableEq K] [DecidableEq V]

/-- Each map is the inverse of the other one. -/
def Inverse (m : Map K V) (m' : Map V K) : Prop :=
  ∀ k v, m.lookup k = some v ↔ m'.lookup v = some k

theorem inverse_empty : Inverse (∅ : Map K V) ∅ := by
  intro k v
  rw [Finmap.lookup_empty, Finmap.lookup_empty]
  exact ⟨fun h => (nomatch h), fun h => (nomatch h)⟩

theorem inverse_insert_iff {m : Map K V} {m' : Map V K} (h : Inverse m m') {k : K}
    (hfresh : m.lookup k = none) (v : V) :
    Inverse (m.insert k v) (m'.insert v k) ↔ m'.lookup v = none := by
  constructor
  · intro hboth
    rw [Option.eq_none_iff_forall_ne_some]
    intro old hold
    have hentry := (h old v).mpr hold
    have hne : old ≠ k := by
      rintro rfl
      rw [hfresh] at hentry
      cases hentry
    have hnow := (hboth old v).mp (by rw [lookup_insert_eq, if_neg hne, hentry])
    rw [lookup_insert_eq, if_pos rfl, Option.some_inj] at hnow
    exact hne hnow.symm
  · intro hnew k' v'
    rw [lookup_insert_eq, lookup_insert_eq]
    by_cases hk : k' = k
    · rw [if_pos hk, hk]
      by_cases hv : v' = v
      · rw [if_pos hv, hv]
        exact ⟨fun _ => rfl, fun _ => rfl⟩
      · rw [if_neg hv, ← h, hfresh, Option.some_inj]
        exact ⟨fun heq => absurd heq.symm hv, fun hnone => (nomatch hnone)⟩
    · rw [if_neg hk]
      by_cases hv : v' = v
      · rw [if_pos hv, hv, h, hnew, Option.some_inj]
        exact ⟨fun hnone => (nomatch hnone), fun heq => absurd heq.symm hk⟩
      · rw [if_neg hv]
        exact h k' v'

theorem Inverse.erase {m : Map K V} {m' : Map V K} (h : Inverse m m') {k : K} {v : V}
    (hpair : m.lookup k = some v) : Inverse (m.erase k) (m'.erase v) := by
  intro k' v'
  rw [lookup_erase_eq, lookup_erase_eq]
  have hback := (h k v).mp hpair
  by_cases hk : k' = k
  · rw [if_pos hk]
    by_cases hv : v' = v
    · rw [if_pos hv]
      exact ⟨fun hnone => (nomatch hnone), fun hnone => (nomatch hnone)⟩
    · rw [if_neg hv, ← h, hk, hpair, Option.some_inj]
      exact ⟨fun hnone => (nomatch hnone), fun heq => absurd heq.symm hv⟩
  · rw [if_neg hk]
    by_cases hv : v' = v
    · rw [if_pos hv, hv, h, hback, Option.some_inj]
      exact ⟨fun heq => absurd heq.symm hk, fun hnone => (nomatch hnone)⟩
    · rw [if_neg hv]
      exact h k' v'

end Blackstone.DefaultMap
