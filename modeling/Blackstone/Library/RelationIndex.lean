import Blackstone.Library.OrderedMap
import Mathlib.Algebra.BigOperators.Group.List.Basic
import Mathlib.Algebra.Order.Ring.Nat
import Mathlib.Data.Finset.Card
import Mathlib.Data.Finset.Dedup
import Mathlib.Data.Finset.Image

/-!
# Relations in nested maps

A finite relation between names, values and records is kept in a map of maps of sets. An index
that `Represents` a relation finds under a name and a value the records that are related to them,
and one that is `Pruned` keeps no empty set and no empty map, so that its names are those of the
relation (`Represents.mem_iff`).
-/

namespace Blackstone.RelationIndex

open OrderedMap

section Entry

variable {K A : Type} [Ord K] [EmptyCollection A]

/-- What is under a key, and nothing when the key is absent. -/
def entryAt (m : Std.TreeMap K A) (k : K) : A := m[k]?.getD ∅

@[simp] theorem entryAt_of_some {m : Std.TreeMap K A} {k : K} {a : A} (h : m[k]? = some a) :
    entryAt m k = a := by
  rw [entryAt, h, Option.getD_some]

@[simp] theorem entryAt_of_none {m : Std.TreeMap K A} {k : K} (h : m[k]? = none) :
    entryAt m k = ∅ := by
  rw [entryAt, h, Option.getD_none]

variable [Std.TransOrd K]

@[simp] theorem entryAt_empty (k : K) : entryAt (∅ : Std.TreeMap K A) k = ∅ :=
  entryAt_of_none Std.TreeMap.getElem?_emptyc

variable [Std.LawfulEqOrd K] [DecidableEq K]

theorem entryAt_insert (m : Std.TreeMap K A) (k k' : K) (a : A) :
    entryAt (m.insert k a) k' = if k = k' then a else entryAt m k' := by
  rw [entryAt, getElem?_insert_eq]
  split_ifs
  · rfl
  · rfl

theorem entryAt_erase (m : Std.TreeMap K A) (k k' : K) :
    entryAt (m.erase k) k' = if k = k' then ∅ else entryAt m k' := by
  rw [entryAt, getElem?_erase_eq]
  split_ifs
  · rfl
  · rfl

end Entry

variable {N V R : Type} [Ord N] [Ord V]

/-- The records under each value. -/
abbrev Values (V R : Type) [Ord V] := Std.TreeMap V (Finset R)

/-- The values under each name. -/
abbrev Index (N V R : Type) [Ord N] [Ord V] := Std.TreeMap N (Values V R)

/-- The index holds the relation. -/
def Represents (index : Index N V R) (rel : Finset (N × V × R)) : Prop :=
  ∀ n v r, (n, v, r) ∈ rel ↔ r ∈ entryAt (entryAt index n) v

/-- No empty set is kept under a value. -/
def Filled (values : Values V R) : Prop :=
  ∀ (v : V) (records : Finset R), values[v]? = some records → records.Nonempty

/-- Nothing empty is kept. -/
def Pruned (index : Index N V R) : Prop :=
  ∀ (n : N) (values : Values V R), index[n]? = some values →
    values.isEmpty = false ∧ Filled values

/-! ## The records of one name -/

section Values

variable {values : Values V R}

theorem mem_entryAt_iff {v : V} {r : R} :
    r ∈ entryAt values v ↔ ∃ records : Finset R, values[v]? = some records ∧ r ∈ records := by
  cases h : values[v]? with
  | none => simp [entryAt, h]
  | some records => simp [entryAt, h]

variable [Std.TransOrd V]

theorem filled_empty : Filled (∅ : Values V R) := by
  intro v records h
  rw [Std.TreeMap.getElem?_emptyc] at h
  cases h

/-- In a map without empty sets, a value is kept exactly when it has a record. -/
theorem Filled.mem_iff (h : Filled values) {v : V} : v ∈ values ↔ ∃ r, r ∈ entryAt values v := by
  simp only [Std.TreeMap.mem_iff_isSome_getElem?, Option.isSome_iff_exists, mem_entryAt_iff]
  constructor
  · rintro ⟨records, hlookup⟩
    obtain ⟨r, hr⟩ := h v records hlookup
    exact ⟨r, records, hlookup, hr⟩
  · rintro ⟨r, records, hlookup, -⟩
    exact ⟨records, hlookup⟩

theorem Filled.isEmpty_iff (h : Filled values) :
    values.isEmpty = false ↔ ∃ v r, r ∈ entryAt values v := by
  rw [Std.TreeMap.isEmpty_eq_false_iff_exists_mem]
  exact exists_congr fun v => h.mem_iff

variable [Std.LawfulEqOrd V]

/-- The records under the values that pass a test. -/
def collect [DecidableEq R] (values : Values V R) (p : V → Bool) : Finset R :=
  values.toList.foldl (fun result e => if p e.1 then result ∪ e.2 else result) ∅

theorem mem_foldl_iff {V : Type} [DecidableEq R] (p : V → Bool) (entries : List (V × Finset R))
    (result : Finset R) (r : R) :
    r ∈ entries.foldl (fun result e => if p e.1 then result ∪ e.2 else result) result ↔
      r ∈ result ∨ ∃ e ∈ entries, p e.1 = true ∧ r ∈ e.2 := by
  induction entries generalizing result with
  | nil => simp
  | cons e entries ih =>
    rw [List.foldl_cons, ih]
    split_ifs with hp
    · simp [hp, or_assoc]
    · simp [hp]

theorem mem_collect_iff [DecidableEq R] {p : V → Bool} {r : R} :
    r ∈ collect values p ↔ ∃ v, p v = true ∧ r ∈ entryAt values v := by
  rw [collect, mem_foldl_iff, or_iff_right (Finset.notMem_empty r)]
  simp only [Prod.exists, Std.TreeMap.mem_toList_iff_getElem?_eq_some, mem_entryAt_iff]
  constructor
  · rintro ⟨v, records, hlookup, hp, hr⟩
    exact ⟨v, hp, records, hlookup, hr⟩
  · rintro ⟨v, hp, records, hlookup, hr⟩
    exact ⟨v, records, hlookup, hp, hr⟩

variable [DecidableEq V]

theorem Filled.insert (h : Filled values) {v : V} {records : Finset R} (hr : records.Nonempty) :
    Filled (values.insert v records) := by
  intro v' records' hlookup
  rw [getElem?_insert_eq] at hlookup
  split_ifs at hlookup
  · rwa [← Option.some.inj hlookup]
  · exact h v' records' hlookup

theorem Filled.erase (h : Filled values) (v : V) : Filled (values.erase v) := by
  intro v' records' hlookup
  rw [getElem?_erase_eq] at hlookup
  split_ifs at hlookup
  exact h v' records' hlookup

/-- The number of records under all values. -/
def count (values : Values V R) : ℕ := (values.toList.map fun e => e.2.card).sum

/-- The records are counted once under each value. -/
theorem count_eq_card [DecidableEq R] {pairs : Finset (V × R)}
    (h : ∀ v r, (v, r) ∈ pairs ↔ r ∈ entryAt values v) : count values = pairs.card := by
  have hnodup : (values.toList.flatMap fun e => e.2.toList.map (Prod.mk e.1)).Nodup := by
    refine List.nodup_flatMap.mpr ⟨fun e _ => ?_, ?_⟩
    · exact (Finset.nodup_toList _).map (Prod.mk_right_injective e.1)
    · refine (Std.TreeMap.distinct_keys_toList (t := values)).imp fun hne => ?_
      rintro e he he'
      simp only [List.mem_map, Finset.mem_toList] at he he'
      obtain ⟨r, -, rfl⟩ := he
      obtain ⟨r', -, heq⟩ := he'
      rw [Prod.mk.injEq] at heq
      exact hne (Std.LawfulEqOrd.compare_eq_iff_eq.mpr heq.1.symm)
  have hpairs : pairs = (values.toList.flatMap fun e => e.2.toList.map (Prod.mk e.1)).toFinset := by
    ext ⟨v, r⟩
    simp only [h, mem_entryAt_iff, List.mem_toFinset, List.mem_flatMap, Prod.exists,
      Std.TreeMap.mem_toList_iff_getElem?_eq_some, List.mem_map, Finset.mem_toList, Prod.mk.injEq]
    constructor
    · rintro ⟨records, hlookup, hr⟩
      exact ⟨v, records, hlookup, r, hr, rfl, rfl⟩
    · rintro ⟨v, records, hlookup, r, hr, rfl, rfl⟩
      exact ⟨records, hlookup, hr⟩
  rw [hpairs, List.toFinset_card_of_nodup hnodup, List.length_flatMap, count]
  simp

end Values

/-! ## The whole index -/

section Index

variable {index : Index N V R} {rel : Finset (N × V × R)} {values : Values V R}

/-- A pruned index has no empty set under any name. -/
theorem Pruned.filled [Std.TransOrd V] (h : Pruned index) (n : N) : Filled (entryAt index n) := by
  cases hlookup : index[n]? with
  | none =>
    rw [entryAt_of_none hlookup]
    exact filled_empty
  | some values =>
    rw [entryAt_of_some hlookup]
    exact (h n values hlookup).2

variable [Std.TransOrd N]

theorem represents_empty [Std.TransOrd V] : Represents (∅ : Index N V R) ∅ := by
  intro n v r
  simp

theorem pruned_empty : Pruned (∅ : Index N V R) := by
  intro n values h
  rw [Std.TreeMap.getElem?_emptyc] at h
  cases h

/-- A pruned index has the names of the relation. -/
theorem Represents.mem_iff [Std.TransOrd V] [Std.LawfulEqOrd V] [DecidableEq V]
    (h : Represents index rel) (hpruned : Pruned index) (n : N) :
    n ∈ index ↔ ∃ v r, (n, v, r) ∈ rel := by
  simp only [h n, Std.TreeMap.mem_iff_isSome_getElem?]
  cases hlookup : index[n]? with
  | none => simp [hlookup]
  | some values =>
    obtain ⟨hsome, hfilled⟩ := hpruned n values hlookup
    simpa [hlookup] using hfilled.isEmpty_iff.mp hsome

variable [Std.LawfulEqOrd N] [DecidableEq N]

theorem Pruned.insert (h : Pruned index) {n : N} (hsome : values.isEmpty = false)
    (hfilled : Filled values) : Pruned (index.insert n values) := by
  intro n' values' hlookup
  rw [getElem?_insert_eq] at hlookup
  split_ifs at hlookup
  · rw [← Option.some.inj hlookup]
    exact ⟨hsome, hfilled⟩
  · exact h n' values' hlookup

theorem Pruned.erase (h : Pruned index) (n : N) : Pruned (index.erase n) := by
  intro n' values' hlookup
  rw [getElem?_erase_eq] at hlookup
  split_ifs at hlookup
  exact h n' values' hlookup

end Index

end Blackstone.RelationIndex
