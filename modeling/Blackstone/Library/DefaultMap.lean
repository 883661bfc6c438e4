import Mathlib.Algebra.BigOperators.Group.Multiset.Basic
import Mathlib.Data.Finmap
import Mathlib.Tactic.Abel

/-!
# Maps whose lookups create entries

A finite map read through a subscript operator: an absent key reads as the default value,
and reading it leaves an entry with that value behind (`touch`). A ledger is such a map into
an additive group. `move` transfers an amount between two keys; it keeps the sum of all
values (`total_move`) and its effect on a single key is `readAt_move`.
-/

namespace Blackstone.DefaultMap

/-- A finite map from `K` to `V`. -/
abbrev Map (K V : Type) := Finmap (fun _ : K => V)

variable {K V : Type} [DecidableEq K]

theorem lookup_insert_eq (m : Map K V) (k k' : K) (v : V) :
    (m.insert k v).lookup k' = if k' = k then some v else m.lookup k' := by
  by_cases h : k' = k
  · rw [if_pos h, h, Finmap.lookup_insert]
  · rw [if_neg h, Finmap.lookup_insert_of_ne m h]

theorem lookup_erase_eq (m : Map K V) (k k' : K) :
    (m.erase k).lookup k' = if k' = k then none else m.lookup k' := by
  by_cases h : k' = k
  · rw [if_pos h, h, Finmap.lookup_erase]
  · rw [if_neg h, Finmap.lookup_erase_ne h]

section Inhabited

variable [Inhabited V]

/-- The value under a key, the default when there is none. -/
def readAt (m : Map K V) (k : K) : V := (m.lookup k).getD default

/-- Replaces the value under a key, creating the entry if need be. -/
def modifyAt (m : Map K V) (k : K) (f : V → V) : Map K V := m.insert k (f (readAt m k))

/-- What reading through the subscript operator leaves behind. -/
def touch (m : Map K V) (k : K) : Map K V := modifyAt m k id

@[simp] theorem readAt_empty (k : K) : readAt (∅ : Map K V) k = default := by
  rw [readAt, Finmap.lookup_empty]
  rfl

@[simp] theorem readAt_modifyAt_self (m : Map K V) (k : K) (f : V → V) :
    readAt (modifyAt m k f) k = f (readAt m k) := by
  rw [modifyAt, readAt, Finmap.lookup_insert]
  rfl

theorem readAt_modifyAt_of_ne (m : Map K V) {k k' : K} (h : k' ≠ k) (f : V → V) :
    readAt (modifyAt m k f) k' = readAt m k' := by
  rw [modifyAt, readAt, Finmap.lookup_insert_of_ne m h]
  rfl

theorem readAt_modifyAt (m : Map K V) (k k' : K) (f : V → V) :
    readAt (modifyAt m k f) k' = if k' = k then f (readAt m k) else readAt m k' := by
  by_cases h : k' = k
  · rw [if_pos h, h, readAt_modifyAt_self]
  · rw [if_neg h, readAt_modifyAt_of_ne m h]

@[simp] theorem readAt_touch (m : Map K V) (k k' : K) : readAt (touch m k) k' = readAt m k' := by
  rw [touch, readAt_modifyAt]
  split
  · rename_i h
    rw [h, id]
  · rfl

@[simp] theorem readAt_insert_self (m : Map K V) (k : K) (v : V) :
    readAt (m.insert k v) k = v := by
  rw [readAt, Finmap.lookup_insert]
  rfl

theorem readAt_insert_of_ne (m : Map K V) {k k' : K} (h : k' ≠ k) (v : V) :
    readAt (m.insert k v) k' = readAt m k' := by
  rw [readAt, Finmap.lookup_insert_of_ne m h]
  rfl

end Inhabited

/-! ## Ledgers -/

section Ledger

variable [AddCommGroup V] [Inhabited V]

/-- The sum of all values. -/
def total (m : Map K V) : V := (m.entries.map (fun e => e.2)).sum

/-- Takes an amount from one key and adds it to another one. -/
def move (m : Map K V) (source target : K) (amount : V) : Map K V :=
  modifyAt (modifyAt m source (· - amount)) target (· + amount)

theorem readAt_move (m : Map K V) (source target k : K) (amount : V) :
    readAt (move m source target amount) k =
      readAt m k - (if k = source then amount else 0) + (if k = target then amount else 0) := by
  have hsource : readAt (modifyAt m source (· - amount)) k =
      readAt m k - (if k = source then amount else 0) := by
    by_cases h : k = source
    · rw [if_pos h, h, readAt_modifyAt_self]
    · rw [if_neg h, readAt_modifyAt_of_ne m h, sub_zero]
  by_cases h : k = target
  · rw [move, h, readAt_modifyAt_self, ← h, hsource, if_pos rfl]
  · rw [move, readAt_modifyAt_of_ne _ h, hsource, if_neg h, add_zero]

/-- Moving between a key and itself changes nothing. -/
theorem readAt_move_self (m : Map K V) (source k : K) (amount : V) :
    readAt (move m source source amount) k = readAt m k := by
  rw [readAt_move, sub_add_cancel]

omit [DecidableEq K] [Inhabited V] in
@[simp] theorem total_empty : total (∅ : Map K V) = 0 := rfl

omit [Inhabited V] in
theorem total_insert_of_notMem {m : Map K V} {k : K} (h : k ∉ m) (v : V) :
    total (m.insert k v) = v + total m := by
  rw [total, Finmap.entries_insert_of_notMem h, Multiset.map_cons, Multiset.sum_cons, total]

omit [AddCommGroup V] [Inhabited V] in
/-- An entry can be erased before it is replaced. -/
theorem insert_erase (m : Map K V) (k : K) (v : V) : (m.erase k).insert k v = m.insert k v := by
  apply Finmap.ext_lookup
  intro k'
  by_cases h : k' = k
  · rw [h, Finmap.lookup_insert, Finmap.lookup_insert]
  · rw [Finmap.lookup_insert_of_ne _ h, Finmap.lookup_insert_of_ne _ h,
      Finmap.lookup_erase_ne h]

omit [AddCommGroup V] [Inhabited V] in
theorem insert_of_lookup {m : Map K V} {k : K} {v : V} (h : m.lookup k = some v) :
    m.insert k v = m := by
  apply Finmap.ext_lookup
  intro k'
  by_cases hk : k' = k
  · rw [hk, Finmap.lookup_insert, h]
  · rw [Finmap.lookup_insert_of_ne _ hk]

theorem total_insert (hdefault : (default : V) = 0) (m : Map K V) (k : K) (v : V) :
    total (m.insert k v) = total m - readAt m k + v := by
  by_cases hmem : k ∈ m
  · obtain ⟨old, hold⟩ := Finmap.mem_iff.mp hmem
    have hread : readAt m k = old := by
      rw [readAt, hold]
      rfl
    have hrest : k ∉ m.erase k := Finmap.notMem_erase_self
    have hsplit : total m = old + total (m.erase k) := by
      rw [← total_insert_of_notMem hrest, insert_erase, insert_of_lookup hold]
    rw [← insert_erase, total_insert_of_notMem hrest, hread, hsplit]
    abel
  · have hread : readAt m k = 0 := by
      rw [readAt, Finmap.lookup_eq_none.mpr hmem]
      exact hdefault
    rw [total_insert_of_notMem hmem, hread, sub_zero, add_comm]

theorem total_modifyAt (hdefault : (default : V) = 0) (m : Map K V) (k : K) (f : V → V) :
    total (modifyAt m k f) = total m - readAt m k + f (readAt m k) :=
  total_insert hdefault m k _

theorem total_touch (hdefault : (default : V) = 0) (m : Map K V) (k : K) :
    total (touch m k) = total m := by
  rw [touch, total_modifyAt hdefault, id, sub_add_cancel]

/-- A move keeps the sum of all values. -/
theorem total_move (hdefault : (default : V) = 0) (m : Map K V) (source target : K)
    (amount : V) : total (move m source target amount) = total m := by
  rw [move, total_modifyAt hdefault, total_modifyAt hdefault]
  abel

end Ledger

end Blackstone.DefaultMap
