import Mathlib.Data.List.Nodup
import Mathlib.Data.Set.Card

/-!
# Tables of slots

A table is a list of slots, each with a key and, while it is in use, a value. It `Represents` a map
when no key has two slots and every key that is in use has its value in the map. A slot keeps its
key when it goes out of use, and it is looked up by that key to be used again (`replaceKey`).

The map is bounded: `insert` takes a new key only while fewer keys than its capacity are `live`.
-/

namespace Blackstone.SlotTable

variable {S K V : Type}

/-! ## Bounded maps -/

/-- The keys with a value. -/
def live (m : K → Option V) : Set K := {k | m k ≠ none}

open Classical in
/-- A value for a key, where the key has one already or there is room for it. -/
noncomputable def insert [DecidableEq K] (capacity : ℕ) (m : K → Option V) (k : K) (v : V) :
    K → Option V :=
  if k ∈ live m ∨ (live m).ncard < capacity then Function.update m k (some v) else m

/-- The values with a property. -/
def keep (p : V → Bool) (m : K → Option V) (k : K) : Option V := (m k).filter p

/-! ## Tables -/

/-- Change the first slot with a key. -/
def replaceKey [DecidableEq K] (key : S → K) (k : K) (f : S → S) (slots : List S) : List S :=
  slots.replaceF fun s => if key s = k then some (f s) else none

/-- The slots hold the values of the map, each key in one slot. -/
structure Represents (key : S → K) (content : S → Option V) (slots : List S)
    (m : K → Option V) : Prop where
  nodup : (slots.map key).Nodup
  stored : ∀ s ∈ slots, m (key s) = content s
  absent : ∀ k ∉ slots.map key, m k = none

variable {key : S → K} {content : S → Option V} {slots : List S} {m : K → Option V} {k : K}

theorem represents_nil : Represents key content [] fun _ => none where
  nodup := List.nodup_nil
  stored := by simp
  absent := by simp

/-- A table changed slot by slot. -/
theorem Represents.map (h : Represents key content slots m) {f : S → S}
    (hkey : ∀ s, key (f s) = key s) {m' : K → Option V}
    (hstored : ∀ s ∈ slots, m' (key s) = content (f s)) (habsent : ∀ k, m k = none →
      k ∉ slots.map key → m' k = none) : Represents key content (slots.map f) m' := by
  have hkeys : (slots.map f).map key = slots.map key := by
    rw [List.map_map]
    exact List.map_congr_left fun s _ => hkey s
  constructor
  · rw [hkeys]
    exact h.nodup
  · intro s hs
    obtain ⟨t, ht, rfl⟩ := List.mem_map.mp hs
    rw [hkey, hstored t ht]
  · rw [hkeys]
    intro k hk
    exact habsent k (h.absent k hk) hk

/-- A new slot, for a key that has none. -/
theorem Represents.push [DecidableEq K] (h : Represents key content slots m) (s : S)
    (hs : key s ∉ slots.map key) :
    Represents key content (slots ++ [s]) (Function.update m (key s) (content s)) := by
  constructor
  · rw [List.map_append, List.nodup_append_comm, List.map_singleton, List.singleton_append,
      List.nodup_cons]
    exact ⟨hs, h.nodup⟩
  · intro t ht
    rcases List.mem_append.mp ht with ht | ht
    · have hne : key t ≠ key s := fun heq => hs (heq ▸ List.mem_map_of_mem ht)
      rw [Function.update_of_ne hne, h.stored t ht]
    · rw [List.mem_singleton.mp ht, Function.update_self]
  · intro k hk
    rw [List.map_append, List.mem_append, not_or, List.map_singleton, List.mem_singleton] at hk
    rw [Function.update_of_ne hk.2, h.absent k hk.1]

section Replace

variable [DecidableEq K] {f : S → S}

/-- With each key in one slot, no other slot with the key is left out. -/
theorem replaceKey_eq_map (hnodup : (slots.map key).Nodup) :
    replaceKey key k f slots = slots.map fun s => if key s = k then f s else s := by
  induction slots with
  | nil => rfl
  | cons s slots ih =>
    rw [List.map_cons, List.nodup_cons] at hnodup
    rw [replaceKey, List.replaceF_cons, List.map_cons]
    by_cases hs : key s = k
    · have hrest : ∀ t ∈ slots, (if key t = k then f t else t) = id t := by
        intro t ht
        apply if_neg
        intro hkt
        apply hnodup.1
        rw [hs, ← hkt]
        exact List.mem_map_of_mem ht
      rw [if_pos hs, if_pos hs, List.map_congr_left hrest, List.map_id]
    · rw [if_neg hs, if_neg hs, ← ih hnodup.2]
      rfl

theorem length_replaceKey : (replaceKey key k f slots).length = slots.length :=
  List.length_replaceF

theorem map_key_replaceKey (hkey : ∀ s, key (f s) = key s) :
    (replaceKey key k f slots).map key = slots.map key := by
  induction slots with
  | nil => rfl
  | cons s slots ih =>
    rw [replaceKey, List.replaceF_cons]
    by_cases hs : key s = k
    · simp [hs, hkey]
    · rw [if_neg hs, List.map_cons, List.map_cons, ← ih]
      rfl

theorem mem_replaceKey {s : S} (hs : s ∈ replaceKey key k f slots) :
    s ∈ slots ∨ ∃ t ∈ slots, s = f t := by
  rcases List.exists_or_eq_self_of_replaceF
      (fun t => if key t = k then some (f t) else none) slots with hsame |
      ⟨t, t', pre, post, -, ht, hslots, hreplaced⟩
  · rw [replaceKey, hsame] at hs
    exact Or.inl hs
  · rw [replaceKey, hreplaced, List.mem_append, List.mem_cons] at hs
    rw [hslots]
    rcases hs with hs | rfl | hs
    · exact Or.inl (List.mem_append_left _ hs)
    · refine Or.inr ⟨t, List.mem_append_right _ List.mem_cons_self, ?_⟩
      split_ifs at ht
      exact (Option.some.inj ht).symm
    · exact Or.inl (List.mem_append_right _ (List.mem_cons_of_mem _ hs))

/-- With each key in one slot, the slot of the key is gone and the others are left. -/
theorem mem_replaceKey_of_nodup (hnodup : (slots.map key).Nodup) {s : S}
    (hs : s ∈ replaceKey key k f slots) :
    (s ∈ slots ∧ key s ≠ k) ∨ ∃ t ∈ slots, key t = k ∧ s = f t := by
  rw [replaceKey_eq_map hnodup] at hs
  obtain ⟨t, ht, rfl⟩ := List.mem_map.mp hs
  split_ifs with hk
  · exact Or.inr ⟨t, ht, hk, rfl⟩
  · exact Or.inl ⟨ht, hk⟩

/-- The slot of a key that has one. -/
theorem Represents.replaceKey (h : Represents key content slots m)
    (hkey : ∀ s, key (f s) = key s) {v : Option V} (hv : ∀ s, content (f s) = v)
    (hk : k ∈ slots.map key) :
    Represents key content (replaceKey key k f slots) (Function.update m k v) := by
  rw [replaceKey_eq_map h.nodup]
  apply h.map
  · intro s
    split_ifs
    · exact hkey s
    · rfl
  · intro s hs
    by_cases hks : key s = k
    · rw [if_pos hks, hv, hks, Function.update_self]
    · rw [if_neg hks, Function.update_of_ne hks, h.stored s hs]
  · intro k' hm hk'
    have hne : k' ≠ k := fun heq => hk' (heq ▸ hk)
    rw [Function.update_of_ne hne, hm]

/-- Take out the first slot with a key; the slots after it move up. -/
def eraseKey (key : S → K) (k : K) (slots : List S) : List S :=
  slots.eraseP fun s => decide (key s = k)

theorem length_eraseKey_le : (eraseKey key k slots).length ≤ slots.length :=
  List.eraseP_sublist.length_le

/-- With each key in one slot, no other slot with the key is left. -/
theorem mem_eraseKey_iff (hnodup : (slots.map key).Nodup) {s : S} :
    s ∈ eraseKey key k slots ↔ s ∈ slots ∧ key s ≠ k := by
  induction slots with
  | nil => simp [eraseKey]
  | cons t slots ih =>
    rw [List.map_cons, List.nodup_cons] at hnodup
    rw [eraseKey, List.eraseP_cons]
    by_cases ht : key t = k
    · have hrest : s ∈ slots → key s ≠ k := by
        intro hs hsk
        apply hnodup.1
        rw [ht, ← hsk]
        exact List.mem_map_of_mem hs
      rw [decide_eq_true ht, cond_true, List.mem_cons]
      constructor
      · intro hs
        exact ⟨Or.inr hs, hrest hs⟩
      · rintro ⟨rfl | hs, hsk⟩
        · exact absurd ht hsk
        · exact hs
    · have htail := ih hnodup.2
      rw [eraseKey] at htail
      rw [decide_eq_false ht, cond_false, List.mem_cons, htail, List.mem_cons]
      constructor
      · rintro (rfl | ⟨hs, hsk⟩)
        · exact ⟨Or.inl rfl, ht⟩
        · exact ⟨Or.inr hs, hsk⟩
      · rintro ⟨rfl | hs, hsk⟩
        · exact Or.inl rfl
        · exact Or.inr ⟨hs, hsk⟩

/-- A key without its slot has no value. -/
theorem Represents.eraseKey (h : Represents key content slots m) (k : K) :
    Represents key content (eraseKey key k slots) (Function.update m k none) := by
  constructor
  · exact h.nodup.sublist (List.eraseP_sublist.map key)
  · intro s hs
    obtain ⟨hmem, hsk⟩ := (mem_eraseKey_iff h.nodup).mp hs
    rw [Function.update_of_ne hsk, h.stored s hmem]
  · intro k' hk'
    by_cases heq : k' = k
    · rw [heq, Function.update_self]
    · rw [Function.update_of_ne heq]
      apply h.absent
      intro hmem
      apply hk'
      obtain ⟨s, hs, rfl⟩ := List.mem_map.mp hmem
      exact List.mem_map_of_mem ((mem_eraseKey_iff h.nodup).mpr ⟨hs, heq⟩)

end Replace

/-! ## What a table says about its map -/

/-- The first slot in use with a key holds the value of the key. -/
theorem Represents.find [DecidableEq K] (h : Represents key content slots m) (k : K) :
    (slots.find? fun s => (content s).isSome && decide (key s = k)).bind content = m k := by
  cases hfind : slots.find? fun s => (content s).isSome && decide (key s = k) with
  | some s =>
    have hs := List.find?_some hfind
    rw [Bool.and_eq_true, decide_eq_true_iff] at hs
    rw [Option.bind_some, ← h.stored s (List.mem_of_find?_eq_some hfind), hs.2]
  | none =>
    rw [Option.bind_none]
    by_cases hk : k ∈ slots.map key
    · obtain ⟨s, hs, rfl⟩ := List.mem_map.mp hk
      have hfree : ¬(content s).isSome := by
        simpa using List.find?_eq_none.mp hfind s hs
      rw [h.stored s hs, Option.not_isSome_iff_eq_none.mp hfree]
    · exact (h.absent k hk).symm

/-- As many keys have a value as slots are in use. -/
theorem Represents.ncard_live (h : Represents key content slots m) :
    (live m).ncard = slots.countP fun s => (content s).isSome := by
  classical
  have hlive : live m =
      (((slots.filter fun s => (content s).isSome).map key).toFinset : Set K) := by
    ext k
    rw [List.coe_toFinset, Set.mem_ofPred_eq, List.mem_map]
    constructor
    · intro hk
      by_cases hkey : k ∈ slots.map key
      · obtain ⟨s, hs, rfl⟩ := List.mem_map.mp hkey
        refine ⟨s, List.mem_filter.mpr ⟨hs, ?_⟩, rfl⟩
        rw [Option.isSome_iff_ne_none, ← h.stored s hs]
        exact hk
      · exact absurd (h.absent k hkey) hk
    · rintro ⟨s, hs, rfl⟩
      obtain ⟨hmem, hused⟩ := List.mem_filter.mp hs
      rw [Option.isSome_iff_ne_none, ← h.stored s hmem] at hused
      exact hused
  have hnodup : ((slots.filter fun s => (content s).isSome).map key).Nodup :=
    h.nodup.sublist (List.filter_sublist.map key)
  rw [hlive, Set.ncard_coe_finset, List.toFinset_card_of_nodup hnodup, List.length_map,
    List.countP_eq_length_filter]

theorem Represents.ncard_live_le (h : Represents key content slots m) :
    (live m).ncard ≤ slots.length := by
  rw [h.ncard_live]
  exact List.countP_le_length

/-- A slot out of use leaves room. -/
theorem Represents.ncard_live_lt (h : Represents key content slots m)
    (hk : k ∈ slots.map key) (hfree : k ∉ live m) : (live m).ncard < slots.length := by
  obtain ⟨s, hs, rfl⟩ := List.mem_map.mp hk
  rw [h.ncard_live]
  refine Nat.lt_of_le_of_ne List.countP_le_length ?_
  intro hall
  rw [List.countP_eq_length] at hall
  apply hfree
  have hused := hall s hs
  rwa [Option.isSome_iff_ne_none, ← h.stored s hs] at hused

/-! ## Operations of the bounded map -/

variable [DecidableEq K]

theorem insert_of_mem {capacity : ℕ} (hk : k ∈ live m) (v : V) :
    insert capacity m k v = Function.update m k (some v) :=
  if_pos (Or.inl hk)

theorem insert_of_lt {capacity : ℕ} (hroom : (live m).ncard < capacity) (k : K) (v : V) :
    insert capacity m k v = Function.update m k (some v) :=
  if_pos (Or.inr hroom)

theorem insert_of_full {capacity : ℕ} (hk : k ∉ live m) (hfull : capacity ≤ (live m).ncard)
    (v : V) : insert capacity m k v = m := by
  apply if_neg
  rintro (hmem | hlt)
  · exact hk hmem
  · exact Nat.not_lt.mpr hfull hlt

variable {capacity : ℕ}

/-- A key that has a slot is always taken. -/
theorem Represents.insert_replaceKey (h : Represents key content slots m)
    (hcapacity : slots.length ≤ capacity) {f : S → S} (hkey : ∀ s, key (f s) = key s) {v : V}
    (hv : ∀ s, content (f s) = some v) (hk : k ∈ slots.map key) :
    Represents key content (SlotTable.replaceKey key k f slots) (insert capacity m k v) := by
  have hinsert : insert capacity m k v = Function.update m k (some v) := by
    by_cases hlive : k ∈ live m
    · exact insert_of_mem hlive v
    · exact insert_of_lt ((h.ncard_live_lt hk hlive).trans_le hcapacity) k v
  rw [hinsert]
  exact h.replaceKey hkey hv hk

/-- A key without a slot is taken into a new one. -/
theorem Represents.insert_push (h : Represents key content slots m)
    (hcapacity : slots.length < capacity) {s : S} {v : V} (hv : content s = some v)
    (hs : key s ∉ slots.map key) :
    Represents key content (slots ++ [s]) (insert capacity m (key s) v) := by
  rw [insert_of_lt (h.ncard_live_le.trans_lt hcapacity), ← hv]
  exact h.push s hs

/-- A map without room does not take a key without a slot. -/
theorem Represents.insert_full (h : Represents key content slots m)
    (hfull : capacity ≤ (live m).ncard) (hk : k ∉ slots.map key) (v : V) :
    Represents key content slots (insert capacity m k v) := by
  rw [insert_of_full (not_not.mpr (h.absent k hk)) hfull]
  exact h

theorem Represents.erase_absent (h : Represents key content slots m)
    (hk : k ∉ slots.map key) : Represents key content slots (Function.update m k none) := by
  rw [← h.absent k hk, Function.update_eq_self]
  exact h

omit [DecidableEq K] in
theorem Represents.keep (h : Represents key content slots m) {f : S → S}
    (hkey : ∀ s, key (f s) = key s) {p : V → Bool}
    (hcontent : ∀ s ∈ slots, content (f s) = (content s).filter p) :
    Represents key content (slots.map f) (keep p m) := by
  apply h.map hkey
  · intro s hs
    rw [SlotTable.keep, h.stored s hs, hcontent s hs]
  · intro k hm _
    rw [SlotTable.keep, hm, Option.filter_none]

end Blackstone.SlotTable
