import Blackstone.Library.Runs
import Mathlib.Algebra.BigOperators.Fin
import Mathlib.Algebra.Order.BigOperators.Group.Finset
import Mathlib.Logic.Relation

/-!
# Pools of slots

A pool is an array of slots, each in use or free, with counters kept beside it: the slots in
use and, modulo `2 ^ 64`, how many were taken and given back so far. Slots are taken, changed
while they are in use and given back (`Move`). A pool whose counters agree with its slots is
`Balanced`; every sequence of moves keeps it so (`Balanced.moves`).
-/

namespace Blackstone.SlotPool

open Relation

variable {Slot : Type} {n : ℕ}

/-- A pool of `n` slots with its counters. -/
structure Pool (Slot : Type) (n : ℕ) where
  slots : Fin n → Slot
  count : ℤ
  taken : UInt64
  returned : UInt64

/-- The number of slots in use. -/
def inUse (used : Slot → Bool) (slots : Fin n → Slot) : ℤ :=
  ∑ i, if used (slots i) then 1 else 0

/-- The first slot that is not in use. -/
def firstFree (used : Slot → Bool) (slots : Fin n → Slot) : Option (Fin n) :=
  (List.finRange n).find? fun i => !used (slots i)

/-- One change of a pool. A slot that is given back is left clean. -/
inductive Move (used : Slot → Bool) (clean : Slot → Prop) : Pool Slot n → Pool Slot n → Prop
  | take {p : Pool Slot n} {i : Fin n} {s : Slot} (hfree : used (p.slots i) = false)
      (hused : used s = true) :
      Move used clean p
        { p with
          slots := Function.update p.slots i s
          count := p.count + 1
          taken := p.taken + 1 }
  | touch {p : Pool Slot n} {i : Fin n} {s : Slot} (hwas : used (p.slots i) = true)
      (hused : used s = true) :
      Move used clean p { p with slots := Function.update p.slots i s }
  | release {p : Pool Slot n} {i : Fin n} {s : Slot} (hwas : used (p.slots i) = true)
      (hfree : used s = false) (hclean : clean s) :
      Move used clean p
        { p with
          slots := Function.update p.slots i s
          count := p.count - 1
          returned := p.returned + 1 }

/-- The counters agree with the slots, and free slots are clean. -/
structure Balanced (used : Slot → Bool) (clean : Slot → Prop) (p : Pool Slot n) : Prop where
  count_eq : p.count = inUse used p.slots
  totals : ((p.taken - p.returned).toNat : ℤ) = p.count
  clean : ∀ i, used (p.slots i) = false → clean (p.slots i)

variable {used : Slot → Bool} {clean : Slot → Prop}

theorem firstFree_spec {slots : Fin n → Slot} {i : Fin n}
    (h : firstFree used slots = some i) : used (slots i) = false := by
  have hfree := List.find?_some h
  simpa using hfree

theorem inUse_nonneg (slots : Fin n → Slot) : 0 ≤ inUse used slots := by
  apply Finset.sum_nonneg
  intro i _
  split <;> simp

theorem inUse_le (slots : Fin n → Slot) : inUse used slots ≤ n := by
  have hle : ∀ i ∈ Finset.univ, (if used (slots i) then (1 : ℤ) else 0) ≤ 1 := by
    intro i _
    split <;> simp
  have hsum := Finset.sum_le_card_nsmul Finset.univ _ _ hle
  rw [Finset.card_univ, Fintype.card_fin, nsmul_one] at hsum
  exact hsum

theorem inUse_eq_zero_iff {slots : Fin n → Slot} :
    inUse used slots = 0 ↔ ∀ i, used (slots i) = false := by
  have hnonneg : ∀ i ∈ Finset.univ, (0 : ℤ) ≤ if used (slots i) then 1 else 0 := by
    intro i _
    split <;> simp
  rw [inUse, Finset.sum_eq_zero_iff_of_nonneg hnonneg]
  simp

theorem inUse_update (slots : Fin n → Slot) (i : Fin n) (s : Slot) :
    inUse used (Function.update slots i s) =
      inUse used slots + ((if used s then 1 else 0) - if used (slots i) then 1 else 0) :=
  Runs.sum_update_phase slots i s fun s => if used s then (1 : ℤ) else 0

/-- A slot in use is counted. -/
theorem inUse_pos {slots : Fin n → Slot} {i : Fin n} (h : used (slots i) = true) :
    0 < inUse used slots := by
  apply lt_of_le_of_ne (inUse_nonneg slots)
  intro hzero
  simp [inUse_eq_zero_iff.mp hzero.symm i] at h

theorem clean_update {slots : Fin n → Slot} (h : ∀ j, used (slots j) = false → clean (slots j))
    (i : Fin n) {s : Slot} (hs : used s = false → clean s) (j : Fin n)
    (hj : used (Function.update slots i s j) = false) :
    clean (Function.update slots i s j) := by
  by_cases hij : j = i
  · subst hij
    rw [Function.update_self] at hj ⊢
    exact hs hj
  · rw [Function.update_of_ne hij] at hj ⊢
    exact h j hj

/-- One more slot was taken. -/
theorem sub_of_taken {taken returned : UInt64} {count : ℤ}
    (h : ((taken - returned).toNat : ℤ) = count) (hlt : count + 1 < 2 ^ 64) :
    ((taken + 1 - returned).toNat : ℤ) = count + 1 := by
  have hmoved : taken + 1 - returned = taken - returned + 1 := by grind
  have hone : (1 : UInt64).toNat = 1 := rfl
  rw [hmoved, UInt64.toNat_add, hone, Nat.mod_eq_of_lt (by omega)]
  omega

/-- One more slot was given back. -/
theorem sub_of_returned {taken returned : UInt64} {count : ℤ}
    (h : ((taken - returned).toNat : ℤ) = count) (hpos : 0 < count) :
    ((taken - (returned + 1)).toNat : ℤ) = count - 1 := by
  have hmoved : taken - (returned + 1) = taken - returned - 1 := by grind
  have hone : (1 : UInt64).toNat = 1 := rfl
  rw [hmoved, UInt64.toNat_sub_of_le, hone]
  · omega
  · rw [UInt64.le_iff_toNat_le, hone]
    omega

section Moves

variable {p q : Pool Slot n}

theorem Move.free_clean (hmove : Move used clean p q)
    (h : ∀ i, used (p.slots i) = false → clean (p.slots i)) :
    ∀ i, used (q.slots i) = false → clean (q.slots i) := by
  cases hmove with
  | @take i s hfree hused => exact clean_update h i (by simp [hused])
  | @touch i s hwas hused => exact clean_update h i (by simp [hused])
  | @release i s hwas hfree hclean => exact clean_update h i (fun _ => hclean)

/-- Every sequence of moves leaves the free slots clean. -/
theorem clean_of_moves (hmoves : ReflTransGen (Move used clean) p q)
    (h : ∀ i, used (p.slots i) = false → clean (p.slots i)) :
    ∀ i, used (q.slots i) = false → clean (q.slots i) := by
  induction hmoves with
  | refl => exact h
  | tail _ hmove ih => exact hmove.free_clean ih

namespace Balanced

theorem count_nonneg (h : Balanced used clean p) : 0 ≤ p.count := by
  rw [h.count_eq]
  exact inUse_nonneg p.slots

theorem count_le (h : Balanced used clean p) : p.count ≤ n := by
  rw [h.count_eq]
  exact inUse_le p.slots

/-- A pool without slots in use is balanced when its counters say so. -/
theorem of_idle (hidle : ∀ i, used (p.slots i) = false) (hcount : p.count = 0)
    (htotals : p.taken = p.returned) (hclean : ∀ i, clean (p.slots i)) :
    Balanced used clean p where
  count_eq := by rw [hcount, inUse_eq_zero_iff.mpr hidle]
  totals := by simp [htotals, hcount]
  clean i _ := hclean i

theorem move (hn : n < 2 ^ 64) (h : Balanced used clean p) (hmove : Move used clean p q) :
    Balanced used clean q := by
  have hclean := hmove.free_clean h.clean
  cases hmove with
  | @take i s hfree hused =>
    have hcount : p.count + 1 = inUse used (Function.update p.slots i s) := by
      rw [inUse_update, h.count_eq]
      simp [hfree, hused]
    have hle : inUse used (Function.update p.slots i s) ≤ n := inUse_le _
    exact ⟨hcount, sub_of_taken h.totals (by omega), hclean⟩
  | @touch i s hwas hused =>
    refine ⟨?_, h.totals, hclean⟩
    rw [inUse_update, h.count_eq]
    simp [hwas, hused]
  | @release i s hwas hfree _ =>
    have hcount : p.count - 1 = inUse used (Function.update p.slots i s) := by
      rw [inUse_update, h.count_eq]
      simp [hfree, hwas, sub_eq_add_neg]
    have hpos : 0 < p.count := by
      rw [h.count_eq]
      exact inUse_pos hwas
    exact ⟨hcount, sub_of_returned h.totals hpos, hclean⟩

/-- Every sequence of moves keeps a pool balanced. -/
theorem moves (hn : n < 2 ^ 64) (h : Balanced used clean p)
    (hmoves : ReflTransGen (Move used clean) p q) : Balanced used clean q := by
  induction hmoves with
  | refl => exact h
  | tail _ hmove ih => exact ih.move hn hmove

end Balanced

end Moves

end Blackstone.SlotPool
