import Mathlib.Data.List.Basic
import Mathlib.Tactic.Common

/-!
# Comparing lists

The lexicographic order on lists with a common front (`compare_append_left`), with fronts of equal
length (`compare_append_of_length_eq`), and with fronts that end at a first delimiter
(`compare_terminated`).
-/

namespace Blackstone.LexOrder

variable {α : Type} [Ord α]

theorem compare_append_left [Std.ReflOrd α] (front a b : List α) :
    compare (front ++ a) (front ++ b) = compare a b := by
  induction front with
  | nil => rfl
  | cons x front ih =>
    rw [List.cons_append, List.cons_append, List.compare_cons_cons, Std.ReflOrd.compare_self, ih]
    rfl

variable [Std.LawfulEqOrd α]

/-- Different fronts of equal length decide. -/
theorem compare_append_of_length_eq {a b : List α} (hlength : a.length = b.length) (hne : a ≠ b)
    (x y : List α) : compare (a ++ x) (b ++ y) = compare a b := by
  induction a generalizing b with
  | nil => exact absurd (List.length_eq_zero_iff.mp hlength.symm).symm hne
  | cons c a ih =>
    cases b with
    | nil => cases hlength
    | cons d b =>
      rw [List.cons_append, List.cons_append, List.compare_cons_cons, List.compare_cons_cons]
      cases hcd : compare c d with
      | lt => rfl
      | gt => rfl
      | eq =>
        obtain rfl := Std.LawfulEqOrd.compare_eq_iff_eq.mp hcd
        have hrest : a ≠ b := fun heq => hne (by rw [heq])
        exact ih (Nat.succ.inj hlength) hrest

/-- Different fronts that end at a first delimiter decide. -/
theorem compare_terminated {d : α} {a b : List α} (ha : d ∉ a) (hb : d ∉ b) (hne : a ≠ b)
    (x y : List α) : compare (a ++ d :: x) (b ++ d :: y) = compare (a ++ [d]) (b ++ [d]) := by
  have hdecides : ∀ {c e : α}, c ≠ e → ∀ s t s' t' : List α,
      compare (c :: s) (e :: t) = compare (c :: s') (e :: t') := by
    intro c e hce s t s' t'
    rw [List.compare_cons_cons, List.compare_cons_cons]
    cases hcompare : compare c e with
    | lt => rfl
    | gt => rfl
    | eq => exact absurd (Std.LawfulEqOrd.compare_eq_iff_eq.mp hcompare) hce
  induction a generalizing b with
  | nil =>
    cases b with
    | nil => exact absurd rfl hne
    | cons e b =>
      have hde : d ≠ e := fun heq => hb (by rw [heq]; exact List.mem_cons_self)
      exact hdecides hde _ _ _ _
  | cons c a ih =>
    cases b with
    | nil =>
      have hcd : c ≠ d := fun heq => ha (by rw [heq]; exact List.mem_cons_self)
      exact hdecides hcd _ _ _ _
    | cons e b =>
      by_cases hce : c = e
      · subst hce
        simp only [List.cons_append, List.compare_cons_cons]
        rw [ih (fun h => ha (List.mem_cons_of_mem _ h)) (fun h => hb (List.mem_cons_of_mem _ h))
          (fun heq => hne (by rw [heq]))]
      · exact hdecides hce _ _ _ _

end Blackstone.LexOrder
