import Blackstone.Library.DefaultMap

/-!
# Records with lists of their owners

A store keeps its records in a map and, for every owner, the list of the keys of his records, so
that the records of an owner are found by looking up his keys one after the other (`gather`). Such
a pair `Represents` the plain list of the records in the order in which they were entered: the
three operations on it are an append, a map and a filter, and the lookups of a gathering never
fail (`Represents.gather`).
-/

namespace Blackstone.OwnerLists

open DefaultMap

variable {K O R : Type} [DecidableEq K] [DecidableEq O] {key : R → K} {owner : R → O}

/-- The records under the keys that are listed for an owner, `none` when a key has no record. -/
def gather (records : Map K R) (lists : Map O (List K)) (o : O) : Option (List R) :=
  (readAt lists o).mapM records.lookup

/-- The map and the lists hold the records of a list. -/
structure Represents (key : R → K) (owner : R → O) (records : Map K R) (lists : Map O (List K))
    (entered : List R) : Prop where
  distinct : (entered.map key).Nodup
  lookup : ∀ k, records.lookup k = entered.find? (key · = k)
  listed : ∀ o, readAt lists o = (entered.filter (owner · = o)).map key

variable {records : Map K R} {lists : Map O (List K)} {entered : List R}

theorem represents_empty : Represents key owner (∅ : Map K R) (∅ : Map O (List K)) [] where
  distinct := List.nodup_nil
  lookup k := Finmap.lookup_empty k
  listed o := readAt_empty o

namespace Represents

variable (h : Represents key owner records lists entered)
include h

theorem lookup_eq_some_iff {k : K} {r : R} :
    records.lookup k = some r ↔ r ∈ entered ∧ key r = k := by
  rw [h.lookup]
  constructor
  · intro hfind
    exact ⟨List.mem_of_find?_eq_some hfind, by simpa using List.find?_some hfind⟩
  · rintro ⟨hmem, rfl⟩
    cases hfind : entered.find? (key · = key r) with
    | none => simpa using List.find?_eq_none.mp hfind r hmem
    | some r' =>
      have hkey : key r' = key r := by simpa using List.find?_some hfind
      rw [List.inj_on_of_nodup_map h.distinct (List.mem_of_find?_eq_some hfind) hmem hkey]

theorem lookup_eq_none_iff {k : K} : records.lookup k = none ↔ ∀ r ∈ entered, key r ≠ k := by
  rw [h.lookup, List.find?_eq_none]
  simp

/-- Gathering never fails and finds the records of the owner in the order of their entry. -/
theorem gather (o : O) :
    gather records lists o = some (entered.filter (owner · = o)) := by
  rw [OwnerLists.gather, h.listed, List.mapM_map]
  have hsub : ∀ r ∈ entered.filter (owner · = o), records.lookup (key r) = some r :=
    fun r hr => h.lookup_eq_some_iff.mpr ⟨List.mem_of_mem_filter hr, rfl⟩
  generalize entered.filter (owner · = o) = found at hsub
  induction found with
  | nil => rfl
  | cons r found ih =>
    have hfirst := hsub r List.mem_cons_self
    rw [List.mapM_cons, ih fun r' hr' => hsub r' (List.mem_cons_of_mem _ hr'),
      Function.comp_apply, hfirst]
    rfl

/-- The number of records. -/
theorem card_keys : records.keys.card = entered.length := by
  have hkeys : records.keys = (entered.map key).toFinset := by
    ext k
    rw [Finmap.mem_keys, Finmap.mem_iff, List.mem_toFinset, List.mem_map]
    exact exists_congr fun r => h.lookup_eq_some_iff
  rw [hkeys, List.toFinset_card_of_nodup h.distinct, List.length_map]

/-- A record under a new key goes to the end. -/
theorem enter {r : R} (hnew : records.lookup (key r) = none) :
    Represents key owner (records.insert (key r) r)
      (modifyAt lists (owner r) (· ++ [key r])) (entered ++ [r]) where
  distinct := by
    rw [List.map_append, List.map_singleton, List.nodup_append]
    refine ⟨h.distinct, List.nodup_singleton _, ?_⟩
    intro k hk k' hk'
    obtain ⟨r', hr', rfl⟩ := List.mem_map.mp hk
    rw [List.mem_singleton.mp hk']
    exact h.lookup_eq_none_iff.mp hnew r' hr'
  lookup k := by
    rw [lookup_insert_eq, List.find?_append, ← h.lookup]
    split
    · rename_i hk
      rw [hk, hnew, Option.none_or, List.find?_singleton, decide_eq_true rfl]
      rfl
    · rename_i hk
      have hmiss : decide (key r = k) = false := decide_eq_false fun heq => hk heq.symm
      rw [List.find?_singleton, hmiss]
      simp
  listed o := by
    rw [readAt_modifyAt, List.filter_append, List.map_append, ← h.listed]
    split
    · rename_i ho
      rw [ho, List.filter_singleton, decide_eq_true rfl]
      rfl
    · rename_i ho
      have hmiss : decide (owner r = o) = false := decide_eq_false fun heq => ho heq.symm
      rw [List.filter_singleton, hmiss]
      simp

/-- A record that keeps its key and its owner is replaced where it stands. -/
theorem update {k : K} {r : R} (hlookup : records.lookup k = some r) {f : R → R}
    (hkey : ∀ r, key (f r) = key r) (howner : ∀ r, owner (f r) = owner r) :
    Represents key owner (records.insert k (f r)) lists
      (entered.map fun r' => if key r' = k then f r' else r') where
  distinct := by
    have hkeys : (key ∘ fun r' => if key r' = k then f r' else r') = key := by
      funext r'
      simp only [Function.comp_apply]
      split_ifs
      · exact hkey r'
      · rfl
    rw [List.map_map, hkeys]
    exact h.distinct
  lookup k' := by
    have hkeys : ((fun r' => decide (key r' = k')) ∘ fun r' => if key r' = k then f r' else r') =
        fun r' => decide (key r' = k') := by
      funext r'
      simp only [Function.comp_apply]
      split_ifs
      · rw [hkey]
      · rfl
    rw [lookup_insert_eq, List.find?_map, hkeys, ← h.lookup]
    split
    · rename_i heq
      subst heq
      rw [hlookup, Option.map_some, if_pos (h.lookup_eq_some_iff.mp hlookup).2]
    · rename_i hne
      cases hother : records.lookup k' with
      | none => rfl
      | some r' =>
        rw [Option.map_some, if_neg]
        rw [(h.lookup_eq_some_iff.mp hother).2]
        exact hne
  listed o := by
    have howners : ((fun r' => decide (owner r' = o)) ∘
        fun r' => if key r' = k then f r' else r') = fun r' => decide (owner r' = o) := by
      funext r'
      simp only [Function.comp_apply]
      split_ifs
      · rw [howner]
      · rfl
    have hkeys : (key ∘ fun r' => if key r' = k then f r' else r') = key := by
      funext r'
      simp only [Function.comp_apply]
      split_ifs
      · exact hkey r'
      · rfl
    rw [List.filter_map, howners, List.map_map, hkeys, h.listed]

/-- Without a record under a key there is nothing to replace. -/
theorem map_eq_self {k : K} (hnone : records.lookup k = none) (f : R → R) :
    (entered.map fun r => if key r = k then f r else r) = entered := by
  conv_rhs => rw [← List.map_id entered]
  apply List.map_congr_left
  intro r hr
  rw [if_neg (h.lookup_eq_none_iff.mp hnone r hr), id]

/-- Without a record under a key there is nothing to take out. -/
theorem filter_eq_self {k : K} (hnone : records.lookup k = none) :
    entered.filter (key · ≠ k) = entered := by
  rw [List.filter_eq_self]
  intro r hr
  exact decide_eq_true (h.lookup_eq_none_iff.mp hnone r hr)

/-- A record is taken out of the map and its key out of the list of its owner. -/
theorem remove {k : K} {r : R} (hlookup : records.lookup k = some r) :
    Represents key owner (records.erase k) (modifyAt lists (owner r) (·.filter (· ≠ k)))
      (entered.filter (key · ≠ k)) where
  distinct := h.distinct.sublist (List.filter_sublist.map key)
  lookup k' := by
    rw [lookup_erase_eq, List.find?_filter]
    split
    · rename_i heq
      rw [heq]
      symm
      rw [List.find?_eq_none]
      intro r' _
      simp
    · rename_i hne
      rw [h.lookup]
      congr 1
      funext r'
      by_cases hk : key r' = k'
      · simp [hk, hne]
      · simp [hk]
  listed o := by
    rw [readAt_modifyAt, List.filter_filter]
    obtain ⟨hmem, hkey⟩ := h.lookup_eq_some_iff.mp hlookup
    split
    · rename_i ho
      rw [h.listed, ho, List.filter_map, List.filter_filter]
      congr 2
      funext r'
      exact Bool.and_comm _ _
    · rename_i ho
      rw [h.listed]
      congr 1
      apply List.filter_congr
      intro r' hr'
      by_cases hown : owner r' = o
      · have hne : key r' ≠ k := by
          rintro heq
          have hsame := List.inj_on_of_nodup_map h.distinct hr' hmem (heq.trans hkey.symm)
          rw [hsame] at hown
          exact ho hown.symm
        simp [hown, hne]
      · simp [hown]

end Represents

end Blackstone.OwnerLists
