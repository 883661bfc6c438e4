import Mathlib.Algebra.Order.BigOperators.Group.List
import Mathlib.Algebra.Order.Field.Basic
import Mathlib.Algebra.Order.Field.Canonical
import Mathlib.Tactic.Common

/-!
# Choice by cumulative weights

A walk adds up the weights of a list and stops at the first entry where the sum reaches a
target. With targets from zero up to the total, it stops exactly at the first entry and at the
entries of positive weight (`exists_pick_iff`): the target zero is reached by any weight.
-/

namespace Blackstone.CumulativeChoice

variable {α K : Type}

/-- The sum of the weights. -/
def total [AddMonoid K] (entries : List (α × K)) : K := (entries.map Prod.snd).sum

/-- The first entry where the sum reaches the target. -/
def pick [Add K] [LE K] [DecidableLE K] (target cumulative : K) :
    List (α × K) → Option (α × K)
  | [] => none
  | e :: entries =>
    if target ≤ cumulative + e.2 then some e else pick target (cumulative + e.2) entries

section AddMonoid

variable [AddMonoid K]

@[simp] theorem total_nil : total ([] : List (α × K)) = 0 := rfl

@[simp] theorem total_cons (e : α × K) (entries : List (α × K)) :
    total (e :: entries) = e.2 + total entries := by
  rw [total, List.map_cons, List.sum_cons, total]

theorem total_append (pre post : List (α × K)) : total (pre ++ post) = total pre + total post := by
  rw [total, List.map_append, List.sum_append, total, total]

/-- A target that the total reaches is reached by some entry. -/
theorem pick_isSome [LinearOrder K] {target cumulative : K} {entries : List (α × K)}
    (hne : entries ≠ []) (h : target ≤ cumulative + total entries) :
    (pick target cumulative entries).isSome := by
  induction entries generalizing cumulative with
  | nil => exact absurd rfl hne
  | cons e entries ih =>
    rw [total_cons, ← add_assoc] at h
    rw [pick]
    split_ifs with hreached
    · rfl
    · refine ih ?_ h
      rintro rfl
      rw [total_nil, add_zero] at h
      exact hreached h

end AddMonoid

/-- The walk stops where the sum reaches the target for the first time. -/
theorem pick_eq_some_iff [AddCommMonoid K] [LinearOrder K] [CanonicallyOrderedAdd K]
    {target cumulative : K} {entries : List (α × K)} {e : α × K} :
    pick target cumulative entries = some e ↔
      ∃ pre post, entries = pre ++ e :: post ∧
        (pre ≠ [] → cumulative + total pre < target) ∧ target ≤ cumulative + total pre + e.2 := by
  induction entries generalizing cumulative with
  | nil =>
    refine iff_of_false (fun h => nomatch h) ?_
    rintro ⟨pre, post, hsplit, -⟩
    exact List.append_ne_nil_of_right_ne_nil pre (List.cons_ne_nil e post) hsplit.symm
  | cons first entries ih =>
    rw [pick]
    by_cases hreached : target ≤ cumulative + first.2
    · rw [if_pos hreached, Option.some_inj]
      constructor
      · rintro rfl
        refine ⟨[], entries, rfl, fun h => absurd rfl h, ?_⟩
        rwa [total_nil, add_zero]
      · rintro ⟨pre, post, hsplit, hbefore, -⟩
        cases pre with
        | nil => exact (List.cons.inj hsplit).1
        | cons first' pre =>
          obtain ⟨rfl, -⟩ := List.cons.inj hsplit
          have hlt := hbefore (List.cons_ne_nil _ _)
          rw [total_cons, ← add_assoc] at hlt
          exact absurd (hreached.trans le_self_add) (not_le.mpr hlt)
    · rw [if_neg hreached, ih]
      constructor
      · rintro ⟨pre, post, rfl, hbefore, hat⟩
        refine ⟨first :: pre, post, rfl, fun _ => ?_, ?_⟩
        · rw [total_cons, ← add_assoc]
          cases pre with
          | nil => rwa [total_nil, add_zero, ← not_le]
          | cons e' pre => exact hbefore (List.cons_ne_nil _ _)
        · rwa [total_cons, ← add_assoc]
      · rintro ⟨pre, post, hsplit, hbefore, hat⟩
        cases pre with
        | nil =>
          obtain ⟨rfl, -⟩ := List.cons.inj hsplit
          rw [total_nil, add_zero] at hat
          exact absurd hat hreached
        | cons first' pre =>
          obtain ⟨rfl, hrest⟩ := List.cons.inj hsplit
          rw [total_cons, ← add_assoc] at hbefore hat
          exact ⟨pre, post, hrest, fun _ => hbefore (List.cons_ne_nil _ _), hat⟩

/-- The entries at which the walk stops for some target below the total. -/
theorem exists_pick_iff [Semifield K] [LinearOrder K] [IsStrictOrderedRing K]
    [CanonicallyOrderedAdd K] {entries : List (α × K)} (hpos : 0 < total entries) {e : α × K} :
    (∃ f : K, f < 1 ∧ pick (f * total entries) 0 entries = some e) ↔
      entries.head? = some e ∨ e ∈ entries ∧ 0 < e.2 := by
  constructor
  · rintro ⟨f, -, hpick⟩
    obtain ⟨pre, post, rfl, hbefore, hat⟩ := pick_eq_some_iff.mp hpick
    cases pre with
    | nil => exact Or.inl rfl
    | cons first pre =>
      have hweight := (hbefore (List.cons_ne_nil _ _)).trans_le hat
      exact Or.inr ⟨List.mem_append_right _ List.mem_cons_self, pos_of_lt_add_right hweight⟩
  · rintro (hhead | ⟨hmem, hweight⟩)
    · obtain ⟨post, rfl⟩ := List.head?_eq_some_iff.mp hhead
      refine ⟨0, zero_lt_one, pick_eq_some_iff.mpr ⟨[], post, rfl, fun h => absurd rfl h, ?_⟩⟩
      rw [zero_mul]
      exact zero_le
    · obtain ⟨pre, post, rfl⟩ := List.append_of_mem hmem
      -- a target in the middle of the weight
      have htarget : (total pre + e.2 / 2) / total (pre ++ e :: post) * total (pre ++ e :: post) =
          total pre + e.2 / 2 := div_mul_cancel₀ _ hpos.ne'
      refine ⟨(total pre + e.2 / 2) / total (pre ++ e :: post), ?_, ?_⟩
      · rw [div_lt_one hpos, total_append, total_cons]
        exact add_lt_add_right ((half_lt_self hweight).trans_le le_self_add) _
      · rw [htarget]
        refine pick_eq_some_iff.mpr ⟨pre, post, rfl, fun _ => ?_, ?_⟩
        · rw [zero_add]
          exact lt_add_of_pos_right _ (half_pos hweight)
        · rw [zero_add]
          exact add_le_add_right (half_le_self hweight.le) _

end Blackstone.CumulativeChoice
