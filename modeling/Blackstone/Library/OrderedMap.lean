import Mathlib.Data.List.Dedup
import Mathlib.Data.List.Induction
import Mathlib.Data.List.Sort
import Mathlib.Tactic.Common

/-!
# Ordered maps

A map is written out in the order of its keys and read back by inserting entry after entry.
Where several entries have one key, the last one counts (`getElem?_putAll`), and in an ordered
list the last entry of a kind is the greatest one (`getLast?_filter_eq_some_iff`).
-/

namespace Blackstone.OrderedMap

variable {K V : Type} [Ord K] [Std.TransOrd K] [Std.LawfulEqOrd K]

theorem mem_insert_iff {m : Std.TreeMap K V} {k k' : K} {v : V} :
    k' ∈ m.insert k v ↔ k = k' ∨ k' ∈ m := by
  rw [Std.TreeMap.mem_insert, Std.LawfulEqOrd.compare_eq_iff_eq]

theorem mem_erase_iff {m : Std.TreeMap K V} {k k' : K} : k' ∈ m.erase k ↔ k ≠ k' ∧ k' ∈ m := by
  rw [Std.TreeMap.mem_erase, ne_eq, Std.LawfulEqOrd.compare_eq_iff_eq]

variable [DecidableEq K]

/-- Inserts entry after entry. -/
def putAll (m : Std.TreeMap K V) (entries : List (K × V)) : Std.TreeMap K V :=
  entries.foldl (fun m e => m.insert e.1 e.2) m

theorem getElem?_insert_eq (m : Std.TreeMap K V) (k k' : K) (v : V) :
    (m.insert k v)[k']? = if k = k' then some v else m[k']? := by
  rw [Std.TreeMap.getElem?_insert]
  simp only [Std.LawfulEqOrd.compare_eq_iff_eq]

theorem getElem?_erase_eq (m : Std.TreeMap K V) (k k' : K) :
    (m.erase k)[k']? = if k = k' then none else m[k']? := by
  rw [Std.TreeMap.getElem?_erase]
  simp only [Std.LawfulEqOrd.compare_eq_iff_eq]

/-- The size of a map whose keys are those of a list. -/
theorem size_eq_of_keys {m : Std.TreeMap K V} {keys : List K} (h : ∀ k, k ∈ m ↔ k ∈ keys) :
    m.size = keys.dedup.length := by
  rw [← Std.TreeMap.length_keys]
  apply List.Perm.length_eq
  apply (List.perm_ext_iff_of_nodup Std.TreeMap.nodup_keys (List.nodup_dedup keys)).mpr
  intro k
  rw [Std.TreeMap.mem_keys, h, List.mem_dedup]

theorem size_insert_eq (m : Std.TreeMap K V) (k : K) (v : V) :
    (m.insert k v).size = (m.keys ++ [k]).dedup.length := by
  apply size_eq_of_keys
  intro k'
  rw [mem_insert_iff, List.mem_append, Std.TreeMap.mem_keys, List.mem_singleton, or_comm,
    eq_comm (a := k)]

section Raised

variable [LE V] [Std.IsPreorder V] {m m' m'' : Std.TreeMap K V}

/-- No value is lost or gets smaller. -/
def Raised (m m' : Std.TreeMap K V) : Prop :=
  ∀ (k : K) (v : V), m[k]? = some v → ∃ v', m'[k]? = some v' ∧ v ≤ v'

omit [Std.TransOrd K] [Std.LawfulEqOrd K] [DecidableEq K] in
theorem Raised.refl (m : Std.TreeMap K V) : Raised m m := fun _ v h => ⟨v, h, Std.le_refl _⟩

omit [Std.TransOrd K] [Std.LawfulEqOrd K] [DecidableEq K] in
theorem Raised.trans (h : Raised m m') (h' : Raised m' m'') : Raised m m'' := by
  intro k v hlookup
  obtain ⟨v', hlookup', hle⟩ := h k v hlookup
  obtain ⟨v'', hlookup'', hle'⟩ := h' k v' hlookup'
  exact ⟨v'', hlookup'', Std.le_trans hle hle'⟩

theorem raised_insert_iff (k : K) (v : V) :
    Raised m (m.insert k v) ↔ ∀ old, m[k]? = some old → old ≤ v := by
  constructor
  · intro h old hold
    obtain ⟨v', hnow, hle⟩ := h k old hold
    rw [getElem?_insert_eq, if_pos rfl] at hnow
    rwa [Option.some.inj hnow]
  · intro h k' v' hlookup
    rw [getElem?_insert_eq]
    split_ifs with hk
    · subst hk
      exact ⟨v, rfl, h v' hlookup⟩
    · exact ⟨v', hlookup, Std.le_refl _⟩

end Raised

omit [DecidableEq K] in
theorem nodup_toList (m : Std.TreeMap K V) : m.toList.Nodup := by
  refine List.Pairwise.imp ?_ (Std.TreeMap.distinct_keys_toList (t := m))
  rintro a b hne rfl
  exact hne Std.ReflCmp.compare_self

omit [DecidableEq K] in
/-- A list without repetition that holds the entries of a map. -/
theorem toList_perm {m : Std.TreeMap K V} {l : List (K × V)} (hl : l.Nodup)
    (h : ∀ e, e ∈ l ↔ m[e.1]? = some e.2) : m.toList.Perm l := by
  apply (List.perm_ext_iff_of_nodup (nodup_toList m) hl).mpr
  intro e
  rw [h, ← Std.TreeMap.mem_toList_iff_getElem?_eq_some]

theorem toList_erase_of_none {m : Std.TreeMap K V} {k : K} (hnone : m[k]? = none) :
    (m.erase k).toList.Perm m.toList := by
  apply toList_perm (nodup_toList m)
  intro e
  rw [Std.TreeMap.mem_toList_iff_getElem?_eq_some, getElem?_erase_eq]
  split_ifs with hk
  · rw [← hk, hnone]
    exact iff_of_false (fun h => nomatch h) (fun h => h)
  · rfl

theorem toList_insert_perm (m : Std.TreeMap K V) (k : K) (v : V) :
    (m.insert k v).toList.Perm ((k, v) :: (m.erase k).toList) := by
  have hnew : (k, v) ∉ (m.erase k).toList := by
    rw [Std.TreeMap.mem_toList_iff_getElem?_eq_some, getElem?_erase_eq, if_pos rfl]
    exact fun h => nomatch h
  apply toList_perm (List.nodup_cons.mpr ⟨hnew, nodup_toList _⟩)
  intro e
  rw [List.mem_cons, Std.TreeMap.mem_toList_iff_getElem?_eq_some, getElem?_erase_eq,
    getElem?_insert_eq]
  by_cases hk : k = e.1
  · rw [if_pos hk, if_pos hk, hk, Option.some_inj, Prod.ext_iff, and_iff_right rfl,
      or_iff_left (fun h => nomatch h), eq_comm]
  · rw [if_neg hk, if_neg hk, or_iff_right]
    rintro rfl
    exact hk rfl

theorem toList_perm_erase {m : Std.TreeMap K V} {k : K} {v : V} (hlookup : m[k]? = some v) :
    m.toList.Perm ((k, v) :: (m.erase k).toList) := by
  have hsame : (m.insert k v).toList.Perm m.toList := by
    apply toList_perm (nodup_toList m)
    intro e
    rw [Std.TreeMap.mem_toList_iff_getElem?_eq_some, getElem?_insert_eq]
    split_ifs with hk
    · rw [← hk, hlookup]
    · rfl
  exact hsame.symm.trans (toList_insert_perm m k v)

/-- The last entry under a key counts. -/
theorem getElem?_putAll (m : Std.TreeMap K V) (entries : List (K × V)) (k : K) :
    (putAll m entries)[k]? =
      (((entries.filter (fun e => e.1 = k)).getLast?).map Prod.snd).or m[k]? := by
  induction entries generalizing m with
  | nil => rfl
  | cons e entries ih =>
    rw [putAll, List.foldl_cons, ← putAll, ih, getElem?_insert_eq]
    by_cases hkey : e.1 = k
    · rw [if_pos hkey, List.filter_cons_of_pos (by simpa using hkey), List.getLast?_cons]
      cases (entries.filter (fun e => e.1 = k)).getLast? with
      | none => rfl
      | some last => rfl
    · rw [if_neg hkey, List.filter_cons_of_neg (by simpa using hkey)]

/-- Nothing is found that was not put. -/
theorem mem_of_getElem?_putAll {entries : List (K × V)} {k : K} {v : V}
    (h : (putAll (∅ : Std.TreeMap K V) entries)[k]? = some v) : (k, v) ∈ entries := by
  rw [getElem?_putAll, Std.TreeMap.getElem?_emptyc, Option.or_none, Option.map_eq_some_iff] at h
  obtain ⟨e, hlast, rfl⟩ := h
  obtain ⟨hmem, hkey⟩ := List.mem_filter.mp (List.mem_of_getLast? hlast)
  rwa [← of_decide_eq_true hkey]

/-- Entries with different keys are all found. -/
theorem getElem?_putAll_iff {entries : List (K × V)}
    (hdistinct : entries.Pairwise fun a b => a.1 ≠ b.1) {k : K} {v : V} :
    (putAll (∅ : Std.TreeMap K V) entries)[k]? = some v ↔ (k, v) ∈ entries := by
  refine ⟨mem_of_getElem?_putAll, fun hmem => ?_⟩
  induction entries using List.reverseRecOn with
  | nil => cases hmem
  | append_singleton entries e ih =>
    obtain ⟨hbefore, -, hnew⟩ := List.pairwise_append.mp hdistinct
    have hput : putAll ∅ (entries ++ [e]) = (putAll ∅ entries).insert e.1 e.2 :=
      List.foldl_concat _ _ _ _
    rw [hput, getElem?_insert_eq]
    rcases List.mem_append.mp hmem with hold | hlast
    · rw [if_neg (hnew _ hold e List.mem_cons_self).symm]
      exact ih hbefore hold
    · rw [← List.mem_singleton.mp hlast, if_pos rfl]

/-- In an ordered list, the last entry of a kind is the greatest one. -/
theorem getLast?_filter_eq_some_iff {α : Type} {r : α → α → Prop}
    (hasymm : ∀ a b, r a b → ¬ r b a) {l : List α} (hl : l.Pairwise r) (p : α → Bool) (a : α) :
    (l.filter p).getLast? = some a ↔
      a ∈ l ∧ p a = true ∧ ∀ b ∈ l, p b = true → b = a ∨ r b a := by
  have hpairwise : (l.filter p).Pairwise r := hl.sublist List.filter_sublist
  rw [List.getLast?_eq_some_iff]
  constructor
  · rintro ⟨front, hfilter⟩
    have hmem : ∀ b, b ∈ l ∧ p b = true ↔ b ∈ front ∨ b = a := by
      intro b
      rw [← List.mem_filter, hfilter, List.mem_append, List.mem_singleton]
    have hbelow : ∀ b ∈ front, r b a := by
      rw [hfilter] at hpairwise
      exact fun b hb => (List.pairwise_append.mp hpairwise).2.2 b hb a List.mem_cons_self
    obtain ⟨hal, hpa⟩ := (hmem a).mpr (Or.inr rfl)
    refine ⟨hal, hpa, fun b hb hpb => ?_⟩
    rcases (hmem b).mp ⟨hb, hpb⟩ with hfront | heq
    · exact Or.inr (hbelow b hfront)
    · exact Or.inl heq
  · rintro ⟨hal, hpa, hgreatest⟩
    have hain : a ∈ l.filter p := List.mem_filter.mpr ⟨hal, hpa⟩
    obtain ⟨front, last, hfilter⟩ :=
      List.eq_nil_or_concat' (l.filter p) |>.resolve_left (List.ne_nil_of_mem hain)
    have hlast : last ∈ l ∧ p last = true := by
      rw [← List.mem_filter, hfilter]
      exact List.mem_append_right _ List.mem_cons_self
    rcases hgreatest last hlast.1 hlast.2 with heq | hbelow
    · exact ⟨front, by rw [hfilter, heq]⟩
    · rw [hfilter, List.mem_append, List.mem_singleton] at hain
      rcases hain with hfront | heq
      · rw [hfilter] at hpairwise
        have habove := (List.pairwise_append.mp hpairwise).2.2 a hfront last List.mem_cons_self
        exact absurd hbelow (hasymm _ _ habove)
      · exact ⟨front, by rw [hfilter, heq]⟩

end Blackstone.OrderedMap
