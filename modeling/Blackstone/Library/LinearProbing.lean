import Mathlib.Data.Finset.Card
import Mathlib.Data.Finset.Image
import Mathlib.Order.Interval.Finset.Nat
import Blackstone.Library.Cyclic

/-!
# Linear probing without deletion

A table is a family of cells; a `Layout` says which cells are in use and which key a
cell carries. Two bounded scans walk the cells cyclically from the home cell of a key:

* `scanPlace` looks for the cell where an insertion or an update of the key happens;
* `scanFind` looks for the cell whose key is the wanted one, and reads the use mark of a
  cell only after it has moved to it.

`Linked` is the probing invariant: every cell between the home of a stored key and its
cell is in use, and no key is stored twice. Under it both scans are exact
(`scanPlace_spec` with `PlaceSpec`, `scanFind_spec` with `FindSpec`), and a fresh cell
chosen by `scanPlace` can be filled without breaking it (`Linked.fill`).
-/

namespace Blackstone.LinearProbing

open Cyclic

/-- How a cell is read: its use mark and its key. -/
structure Layout (E K : Type) where
  used : E → Bool
  key : E → K

/-- Where an insertion scan stops: at an unused cell, at the cell of the key, or nowhere
because it came back to its start. -/
inductive Place where
  | fresh (i : Nat)
  | hit (i : Nat)
  | full
  deriving DecidableEq, Repr

variable {E K : Type}

/-- The insertion scan. `none` means that `fuel` rounds did not end the loop. -/
def scanPlace [DecidableEq K] (L : Layout E K) (cells : Nat → E) (next : Nat → Nat) (k : K)
    (start : Nat) : Nat → Nat → Option Place
  | 0, _ => none
  | fuel + 1, i =>
    if L.used (cells i) = false then some (.fresh i)
    else if L.key (cells i) = k then some (.hit i)
    else if next i = start then some .full
    else scanPlace L cells next k start fuel (next i)

/-- The lookup scan. The outer `none` means that `fuel` rounds did not end the loop. -/
def scanFind [DecidableEq K] (L : Layout E K) (cells : Nat → E) (next : Nat → Nat) (k : K)
    (start : Nat) : Nat → Nat → Option (Option Nat)
  | 0, _ => none
  | fuel + 1, i =>
    if L.key (cells i) = k then some (some i)
    else if next i ≠ start ∧ L.used (cells (next i)) = true then
      scanFind L cells next k start fuel (next i)
    else some none

/-! ## What the scans report -/

/-- A cell that an insertion scan of `k` walks past. -/
def Passed (L : Layout E K) (cells : Nat → E) (k : K) (i : Nat) : Prop :=
  L.used (cells i) = true ∧ L.key (cells i) ≠ k

/-- The meaning of a result of `scanPlace`, with the cells passed before it. -/
inductive PlaceSpec (L : Layout E K) (cells : Nat → E) (m : Nat) (k : K) (s : Nat) :
    Place → Prop
  | fresh {d : Nat} (hd : d < m) (hpre : ∀ e, e < d → Passed L cells k ((s + e) % m))
      (hcell : L.used (cells ((s + d) % m)) = false) :
      PlaceSpec L cells m k s (.fresh ((s + d) % m))
  | hit {d : Nat} (hd : d < m) (hused : L.used (cells ((s + d) % m)) = true)
      (hkey : L.key (cells ((s + d) % m)) = k) :
      PlaceSpec L cells m k s (.hit ((s + d) % m))
  | full (hall : ∀ i, i < m → Passed L cells k i) : PlaceSpec L cells m k s .full

/-- The meaning of a result of `scanFind`: a cell with the key, or a stretch of cells
without it that ends at an unused cell or fills the table. -/
inductive FindSpec (L : Layout E K) (cells : Nat → E) (m : Nat) (k : K) (s : Nat) :
    Option Nat → Prop
  | found {d : Nat} (hd : d < m) (hpre : ∀ e, e < d → L.key (cells ((s + e) % m)) ≠ k)
      (hkey : L.key (cells ((s + d) % m)) = k) :
      FindSpec L cells m k s (some ((s + d) % m))
  | gap {d : Nat} (hd : d < m) (hpre : ∀ e, e < d → L.key (cells ((s + e) % m)) ≠ k)
      (hcell : L.used (cells ((s + d) % m)) = false) : FindSpec L cells m k s none
  | round (hall : ∀ i, i < m → L.key (cells i) ≠ k) : FindSpec L cells m k s none

variable {L : Layout E K} {cells : Nat → E} {m : Nat} {k : K}

/-- Once a scan is back at its start, it has been at every cell. -/
theorem forall_of_round {P : Nat → Prop} {s d : Nat} (hs : s < m) (hd : d < m)
    (hwrap : (s + (d + 1)) % m = s) (h : ∀ e, e < d + 1 → P ((s + e) % m)) :
    ∀ i, i < m → P i := by
  have hround := (offset_eq_start_iff hs hd).mp hwrap
  intro i hi
  obtain ⟨e, he, rfl⟩ := exists_offset hs hi
  exact h e (by omega)

section Scans

variable [DecidableEq K] {next : Nat → Nat} {s : Nat} (hs : s < m)
  (hnext : ∀ i, i < m → next i = (i + 1) % m)
include hs hnext

/-- The insertion scan, from a cell at distance `d` on: it ends within the round and reports
what it found. -/
theorem scanPlace_offset :
    ∀ fuel d, d < m → m ≤ d + fuel → (∀ e, e < d → Passed L cells k ((s + e) % m)) →
      ∃ p, scanPlace L cells next k s fuel ((s + d) % m) = some p ∧
        PlaceSpec L cells m k s p := by
  have hm : 0 < m := by omega
  intro fuel
  induction fuel with
  | zero =>
    intro d hd hfuel _
    omega
  | succ fuel ih =>
    intro d hd hfuel hpre
    rw [scanPlace]
    by_cases hused : L.used (cells ((s + d) % m)) = false
    · exact ⟨_, if_pos hused, .fresh hd hpre hused⟩
    rw [if_neg hused]
    have hused' : L.used (cells ((s + d) % m)) = true := by simpa using hused
    by_cases hkey : L.key (cells ((s + d) % m)) = k
    · exact ⟨_, if_pos hkey, .hit hd hused' hkey⟩
    rw [if_neg hkey, next_offset hm hnext]
    have hpre' : ∀ e, e < d + 1 → Passed L cells k ((s + e) % m) :=
      Nat.forall_lt_succ_right.mpr ⟨hpre, hused', hkey⟩
    by_cases hwrap : (s + (d + 1)) % m = s
    · exact ⟨_, if_pos hwrap, .full (forall_of_round hs hd hwrap hpre')⟩
    · rw [if_neg hwrap]
      have hd' : d + 1 ≠ m := fun h => hwrap ((offset_eq_start_iff hs hd).mpr h)
      exact ih (d + 1) (by omega) (by omega) hpre'

/-- The insertion scan ends within one round and reports what it found. -/
theorem scanPlace_spec {fuel : Nat} (hfuel : m ≤ fuel) :
    ∃ p, scanPlace L cells next k s fuel s = some p ∧ PlaceSpec L cells m k s p := by
  have hscan : ∃ p, scanPlace L cells next k s fuel ((s + 0) % m) = some p ∧
      PlaceSpec L cells m k s p :=
    scanPlace_offset hs hnext fuel 0 (by omega) (by omega) fun e he => absurd he (Nat.not_lt_zero e)
  rwa [Nat.add_zero, Nat.mod_eq_of_lt hs] at hscan

/-- The lookup scan, from a cell at distance `d` on. -/
theorem scanFind_offset :
    ∀ fuel d, d < m → m ≤ d + fuel → (∀ e, e < d → L.key (cells ((s + e) % m)) ≠ k) →
      ∃ r, scanFind L cells next k s fuel ((s + d) % m) = some r ∧
        FindSpec L cells m k s r := by
  have hm : 0 < m := by omega
  intro fuel
  induction fuel with
  | zero =>
    intro d hd hfuel _
    omega
  | succ fuel ih =>
    intro d hd hfuel hpre
    rw [scanFind]
    by_cases hkey : L.key (cells ((s + d) % m)) = k
    · exact ⟨_, if_pos hkey, .found hd hpre hkey⟩
    rw [if_neg hkey, next_offset hm hnext]
    have hpre' : ∀ e, e < d + 1 → L.key (cells ((s + e) % m)) ≠ k :=
      Nat.forall_lt_succ_right.mpr ⟨hpre, hkey⟩
    by_cases hwrap : (s + (d + 1)) % m = s
    · exact ⟨none, if_neg (fun h => h.1 hwrap), .round (forall_of_round hs hd hwrap hpre')⟩
    · have hd' : d + 1 ≠ m := fun h => hwrap ((offset_eq_start_iff hs hd).mpr h)
      cases hused : L.used (cells ((s + (d + 1)) % m)) with
      | false =>
        refine ⟨none, ?_, .gap (by omega) hpre' hused⟩
        simp
      | true =>
        rw [if_pos ⟨hwrap, rfl⟩]
        exact ih (d + 1) (by omega) (by omega) hpre'

/-- The lookup scan ends within one round and reports what it found. -/
theorem scanFind_spec {fuel : Nat} (hfuel : m ≤ fuel) :
    ∃ r, scanFind L cells next k s fuel s = some r ∧ FindSpec L cells m k s r := by
  have hscan : ∃ r, scanFind L cells next k s fuel ((s + 0) % m) = some r ∧
      FindSpec L cells m k s r :=
    scanFind_offset hs hnext fuel 0 (by omega) (by omega) fun e he => absurd he (Nat.not_lt_zero e)
  rwa [Nat.add_zero, Nat.mod_eq_of_lt hs] at hscan

end Scans

/-! ## The probing invariant -/

/-- `k` is stored at cell `i` of the first `m` cells. -/
def Stored (L : Layout E K) (m : Nat) (cells : Nat → E) (k : K) (i : Nat) : Prop :=
  i < m ∧ L.used (cells i) = true ∧ L.key (cells i) = k

/-- Stored keys are reachable from their home through cells in use, and stored once. -/
structure Linked (L : Layout E K) (m : Nat) (home : K → Nat) (cells : Nat → E) : Prop where
  path : ∀ k i, Stored L m cells k i →
    ∃ d, d < m ∧ i = (home k + d) % m ∧
      ∀ e, e < d → L.used (cells ((home k + e) % m)) = true
  distinct : ∀ k i j, Stored L m cells k i → Stored L m cells k j → i = j

variable {home : K → Nat}

theorem linked_of_unused (h : ∀ i, i < m → L.used (cells i) = false) :
    Linked L m home cells where
  path := by
    intro k i hst
    obtain ⟨hi, hused, _⟩ := hst
    rw [h i hi] at hused
    cases hused
  distinct := by
    intro k i j hst _
    obtain ⟨hi, hused, _⟩ := hst
    rw [h i hi] at hused
    cases hused

/-- A gap in the cells after the home of `k`, with other keys before it, proves that `k`
is not stored. -/
theorem Linked.not_stored_of_gap (h : Linked L m home cells) {d : Nat}
    (hpre : ∀ e, e < d → L.key (cells ((home k + e) % m)) ≠ k)
    (hcell : L.used (cells ((home k + d) % m)) = false) (i : Nat) :
    ¬ Stored L m cells k i := by
  intro hst
  obtain ⟨c, _, rfl, hpath⟩ := h.path k i hst
  rcases Nat.lt_trichotomy c d with hlt | rfl | hgt
  · exact hpre c hlt hst.2.2
  · have := hst.2.1
    rw [hcell] at this
    cases this
  · have := hpath d hgt
    rw [hcell] at this
    cases this

theorem Linked.not_stored_of_fresh (h : Linked L m home cells) {i : Nat}
    (hp : PlaceSpec L cells m k (home k) (.fresh i)) (j : Nat) : ¬ Stored L m cells k j := by
  cases hp with
  | fresh hd hpre hcell => exact h.not_stored_of_gap (fun e he => (hpre e he).2) hcell j

theorem PlaceSpec.stored_of_hit {s i : Nat} (hp : PlaceSpec L cells m k s (.hit i)) :
    Stored L m cells k i := by
  cases hp with
  | hit hd hused hkey => exact ⟨offset_lt (by omega) _ _, hused, hkey⟩

theorem PlaceSpec.unused_of_fresh {s i : Nat} (hp : PlaceSpec L cells m k s (.fresh i)) :
    i < m ∧ L.used (cells i) = false := by
  cases hp with
  | fresh hd hpre hcell => exact ⟨offset_lt (by omega) _ _, hcell⟩

theorem PlaceSpec.not_stored_of_full {s : Nat} (hp : PlaceSpec L cells m k s .full) (j : Nat) :
    ¬ Stored L m cells k j := by
  cases hp with
  | full hall =>
    intro hst
    obtain ⟨hj, _, hkey⟩ := hst
    exact (hall j hj).2 hkey

/-- Under the invariant a lookup that reports no cell is right. -/
theorem Linked.not_stored_of_find (h : Linked L m home cells)
    (hf : FindSpec L cells m k (home k) none) (j : Nat) : ¬ Stored L m cells k j := by
  cases hf with
  | gap hd hpre hcell => exact h.not_stored_of_gap hpre hcell j
  | round hall =>
    intro hst
    obtain ⟨hj, _, hkey⟩ := hst
    exact hall j hj hkey

/-- Under the invariant a lookup that reports a cell reports the cell of the key, or an
unused cell that happens to carry the key while the key is not stored at all. -/
theorem Linked.stored_of_find (h : Linked L m home cells) {i : Nat}
    (hf : FindSpec L cells m k (home k) (some i)) :
    Stored L m cells k i ∨
      (i < m ∧ L.used (cells i) = false ∧ ∀ j, ¬ Stored L m cells k j) := by
  cases hf with
  | @found d hd hpre hkey =>
    have hi := offset_lt (by omega : 0 < m) (home k) d
    cases hused : L.used (cells ((home k + d) % m)) with
    | true => exact Or.inl ⟨hi, hused, hkey⟩
    | false => exact Or.inr ⟨hi, rfl, fun j => h.not_stored_of_gap hpre hused j⟩

/-! ## Writing a cell -/

/-- Filling the unused cell that ended an insertion scan keeps the invariant. -/
theorem Linked.fill (h : Linked L m home cells) {i : Nat} {x : E}
    (hp : PlaceSpec L cells m k (home k) (.fresh i))
    (hused : L.used x = true) (hkey : L.key x = k) :
    Linked L m home (Function.update cells i x) := by
  have hnew := h.not_stored_of_fresh hp
  have hback : ∀ {k' j}, j ≠ i → Stored L m (Function.update cells i x) k' j →
      Stored L m cells k' j := by
    intro k' j hne hst
    simpa only [Stored, Function.update_of_ne hne] using hst
  have hmark : ∀ j, L.used (cells j) = true →
      L.used (Function.update cells i x j) = true := by
    intro j hj
    by_cases hji : j = i
    · rw [hji, Function.update_self]
      exact hused
    · rwa [Function.update_of_ne hji]
  have hself : ∀ {k'}, Stored L m (Function.update cells i x) k' i → k' = k := by
    intro k' hst
    have := hst.2.2
    rw [Function.update_self] at this
    exact this.symm.trans hkey
  refine ⟨?_, ?_⟩
  · intro k' j hst
    by_cases hji : j = i
    · subst hji
      obtain rfl := hself hst
      cases hp with
      | @fresh d hd hpre hcell => exact ⟨d, hd, rfl, fun e he => hmark _ (hpre e he).1⟩
    · obtain ⟨d, hd, hj, hpath⟩ := h.path k' j (hback hji hst)
      exact ⟨d, hd, hj, fun e he => hmark _ (hpath e he)⟩
  · intro k' j j' hst hst'
    by_cases hji : j = i
    · subst hji
      by_cases hji' : j' = j
      · exact hji'.symm
      · obtain rfl := hself hst
        exact absurd (hback hji' hst') (hnew j')
    · by_cases hji' : j' = i
      · subst hji'
        obtain rfl := hself hst'
        exact absurd (hback hji hst) (hnew j)
      · exact h.distinct k' j j' (hback hji hst) (hback hji' hst')

/-- Rewriting a cell without touching its mark and key keeps the invariant. -/
theorem stored_update_iff {i : Nat} {x : E} (hused : L.used x = L.used (cells i))
    (hkey : L.key x = L.key (cells i)) (k : K) (j : Nat) :
    Stored L m (Function.update cells i x) k j ↔ Stored L m cells k j := by
  by_cases hji : j = i
  · subst hji
    simp only [Stored, Function.update_self, hused, hkey]
  · simp only [Stored, Function.update_of_ne hji]

theorem Linked.rewrite (h : Linked L m home cells) {i : Nat} {x : E}
    (hused : L.used x = L.used (cells i)) (hkey : L.key x = L.key (cells i)) :
    Linked L m home (Function.update cells i x) := by
  have hiff : ∀ k j, Stored L m (Function.update cells i x) k j ↔ Stored L m cells k j :=
    stored_update_iff hused hkey
  refine ⟨?_, ?_⟩
  · intro k j hst
    obtain ⟨d, hd, hj, hpath⟩ := h.path k j ((hiff k j).mp hst)
    refine ⟨d, hd, hj, fun e he => ?_⟩
    by_cases hei : (home k + e) % m = i
    · rw [hei, Function.update_self, hused, ← hei]
      exact hpath e he
    · rw [Function.update_of_ne hei]
      exact hpath e he
  · intro k j j' hst hst'
    exact h.distinct k j j' ((hiff k j).mp hst) ((hiff k j').mp hst')

/-! ## The set of stored keys -/

/-- The keys stored in the first `m` cells. -/
def storedKeys [DecidableEq K] (L : Layout E K) (m : Nat) (cells : Nat → E) : Finset K :=
  ((Finset.range m).filter (fun i => L.used (cells i) = true)).image
    (fun i => L.key (cells i))

variable [DecidableEq K]

theorem mem_storedKeys : k ∈ storedKeys L m cells ↔ ∃ i, Stored L m cells k i := by
  simp only [storedKeys, Finset.mem_image, Finset.mem_filter, Finset.mem_range, Stored,
    and_assoc]

theorem card_storedKeys_le (L : Layout E K) (m : Nat) (cells : Nat → E) :
    (storedKeys L m cells).card ≤ m := by
  refine (Finset.card_image_le).trans ((Finset.card_filter_le _ _).trans ?_)
  rw [Finset.card_range]

/-- When every cell is in use, as many keys are stored as there are cells. -/
theorem Linked.card_storedKeys_of_full (h : Linked L m home cells)
    (hall : ∀ i, i < m → L.used (cells i) = true) : (storedKeys L m cells).card = m := by
  have hfilter : (Finset.range m).filter (fun i => L.used (cells i) = true) =
      Finset.range m := by
    rw [Finset.filter_eq_self]
    intro i hi
    exact hall i (Finset.mem_range.mp hi)
  rw [storedKeys, hfilter, Finset.card_image_of_injOn, Finset.card_range]
  intro i hi j hj hij
  have hi' := Finset.mem_range.mp hi
  have hj' := Finset.mem_range.mp hj
  exact h.distinct _ i j ⟨hi', hall i hi', rfl⟩ ⟨hj', hall j hj', hij.symm⟩

theorem storedKeys_fill {i : Nat} {x : E} (hi : i < m) (hcell : L.used (cells i) = false)
    (hused : L.used x = true) (hkey : L.key x = k) :
    storedKeys L m (Function.update cells i x) = insert k (storedKeys L m cells) := by
  ext k'
  simp only [Finset.mem_insert, mem_storedKeys]
  constructor
  · intro hmem
    obtain ⟨j, hst⟩ := hmem
    by_cases hji : j = i
    · subst hji
      left
      have := hst.2.2
      rw [Function.update_self] at this
      exact this.symm.trans hkey
    · right
      refine ⟨j, ?_⟩
      simpa only [Stored, Function.update_of_ne hji] using hst
  · intro hmem
    rcases hmem with rfl | ⟨j, hst⟩
    · exact ⟨i, hi, by rw [Function.update_self]; exact ⟨hused, hkey⟩⟩
    · have hji : j ≠ i := by
        intro heq
        rw [Stored, heq, hcell] at hst
        cases hst.2.1
      exact ⟨j, by simpa only [Stored, Function.update_of_ne hji] using hst⟩

/-- A table with a fresh cell for a key is not full: it could hold one key more. -/
theorem Linked.card_storedKeys_of_fresh (h : Linked L m home cells) {i : Nat}
    (hp : PlaceSpec L cells m k (home k) (.fresh i)) {x : E} (hused : L.used x = true)
    (hkey : L.key x = k) : (storedKeys L m cells).card < m := by
  have hnew : k ∉ storedKeys L m cells := by
    intro hmem
    obtain ⟨j, hj⟩ := mem_storedKeys.mp hmem
    exact h.not_stored_of_fresh hp j hj
  obtain ⟨hi, hcell⟩ := hp.unused_of_fresh
  have hle := card_storedKeys_le L m (Function.update cells i x)
  rw [storedKeys_fill hi hcell hused hkey, Finset.card_insert_of_notMem hnew] at hle
  exact hle

theorem storedKeys_rewrite {i : Nat} {x : E} (hused : L.used x = L.used (cells i))
    (hkey : L.key x = L.key (cells i)) :
    storedKeys L m (Function.update cells i x) = storedKeys L m cells := by
  ext k
  simp only [mem_storedKeys, stored_update_iff hused hkey]

end Blackstone.LinearProbing
