import Mathlib.Data.List.Nodup
import Mathlib.Tactic.Common

/-!
# Lists that differ in one position

`DifferInOne` compares two lists position by position; `differInOne_iff` splits both lists
around the position. A fold whose steps are injective, in the state and in the element, ends
in different states on such lists (`foldl_ne`).
-/

namespace Blackstone.SingleChange

variable {α κ S : Type}

/-- The lists have the same length and differ in exactly one position. -/
def DifferInOne (xs ys : List α) : Prop := xs.length = ys.length ∧ ∃! i : ℕ, xs[i]? ≠ ys[i]?

/-- Lists that only differ in the first position have the same tail. -/
theorem eq_of_agree_after {xs ys : List α} {x y : α}
    (hagree : ∀ j : ℕ, (x :: xs)[j]? ≠ (y :: ys)[j]? → j = 0) : xs = ys := by
  apply List.ext_getElem?
  intro j
  by_contra hne
  exact Nat.succ_ne_zero j (hagree (j + 1) (by simpa using hne))

theorem DifferInOne.exists_parts {xs ys : List α} (h : DifferInOne xs ys) :
    ∃ before x y after, x ≠ y ∧ xs = before ++ x :: after ∧ ys = before ++ y :: after := by
  obtain ⟨hlength, i, hi, hunique⟩ := h
  replace hunique : ∀ j : ℕ, xs[j]? ≠ ys[j]? → j = i := hunique
  induction i generalizing xs ys with
  | zero =>
    rcases xs with _ | ⟨x, xs⟩ <;> rcases ys with _ | ⟨y, ys⟩
    · exact absurd rfl hi
    · cases hlength
    · cases hlength
    · obtain rfl := eq_of_agree_after hunique
      refine ⟨[], x, y, xs, ?_, rfl, rfl⟩
      rintro rfl
      exact hi rfl
  | succ i ih =>
    rcases xs with _ | ⟨x, xs⟩ <;> rcases ys with _ | ⟨y, ys⟩
    · exact absurd rfl hi
    · cases hlength
    · cases hlength
    · have hhead : x = y := by
        by_contra hne
        exact Nat.succ_ne_zero i (hunique 0 (by simpa using hne)).symm
      subst hhead
      obtain ⟨before, u, v, after, hne, rfl, rfl⟩ :=
        ih (Nat.succ.inj hlength) (by simpa using hi)
          (fun j hj => Nat.succ.inj (hunique (j + 1) (by simpa using hj)))
      exact ⟨x :: before, u, v, after, hne, rfl, rfl⟩

theorem differInOne_parts {x y : α} (hne : x ≠ y) (before after : List α) :
    DifferInOne (before ++ x :: after) (before ++ y :: after) := by
  refine ⟨by simp, before.length, ?_, ?_⟩
  · simpa using hne
  · intro j hj
    by_contra hother
    apply hj
    rcases Nat.lt_or_ge j before.length with hlt | hge
    · rw [List.getElem?_append_left hlt, List.getElem?_append_left hlt]
    · obtain ⟨k, hk⟩ : ∃ k, j - before.length = k + 1 :=
        Nat.exists_eq_succ_of_ne_zero (by omega)
      rw [List.getElem?_append_right hge, List.getElem?_append_right hge, hk,
        List.getElem?_cons_succ, List.getElem?_cons_succ]

theorem differInOne_iff {xs ys : List α} :
    DifferInOne xs ys ↔
      ∃ before x y after, x ≠ y ∧ xs = before ++ x :: after ∧ ys = before ++ y :: after := by
  constructor
  · exact DifferInOne.exists_parts
  · rintro ⟨before, x, y, after, hne, rfl, rfl⟩
    exact differInOne_parts hne before after

/-- What stands around the lists does not matter. -/
theorem DifferInOne.append {xs ys : List α} (h : DifferInOne xs ys) (left right : List α) :
    DifferInOne (left ++ (xs ++ right)) (left ++ (ys ++ right)) := by
  obtain ⟨before, x, y, after, hne, rfl, rfl⟩ := differInOne_iff.mp h
  have hparts := differInOne_parts hne (left ++ before) (after ++ right)
  simpa only [List.append_assoc, List.cons_append] using hparts

/-- The same for the one of several lists in a row that differs. -/
theorem DifferInOne.flatMap {f g : κ → List α} {k : κ} (h : DifferInOne (f k) (g k))
    (hother : ∀ other, other ≠ k → f other = g other) {keys : List κ} (hnodup : keys.Nodup)
    (hk : k ∈ keys) : DifferInOne (keys.flatMap f) (keys.flatMap g) := by
  obtain ⟨left, right, rfl⟩ := List.append_of_mem hk
  have hmiddle := List.nodup_middle.mp hnodup
  have hnot : ∀ other ∈ left ++ right, other ≠ k := by
    rintro other hmem rfl
    exact (List.nodup_cons.mp hmiddle).1 hmem
  have hleft : left.flatMap f = left.flatMap g :=
    List.flatMap_congr fun other hmem => hother other (hnot other (List.mem_append_left _ hmem))
  have hright : right.flatMap f = right.flatMap g :=
    List.flatMap_congr fun other hmem => hother other (hnot other (List.mem_append_right _ hmem))
  rw [List.flatMap_append, List.flatMap_append, List.flatMap_cons, List.flatMap_cons, hleft,
    hright]
  exact h.append _ _

/-- A fold with injective steps keeps the states apart after the position. -/
theorem foldl_injective {step : S → α → S} (hstate : ∀ x, Function.Injective fun s => step s x)
    (xs : List α) : Function.Injective fun s => xs.foldl step s := by
  induction xs with
  | nil => exact Function.injective_id
  | cons x xs ih => exact ih.comp (hstate x)

theorem DifferInOne.foldl_ne {step : S → α → S}
    (hstate : ∀ x, Function.Injective fun s => step s x)
    (helement : ∀ s, Function.Injective (step s)) {xs ys : List α} (h : DifferInOne xs ys)
    (s : S) : xs.foldl step s ≠ ys.foldl step s := by
  obtain ⟨before, x, y, after, hne, rfl, rfl⟩ := differInOne_iff.mp h
  rw [List.foldl_append, List.foldl_append, List.foldl_cons, List.foldl_cons]
  intro heq
  exact hne (helement _ (foldl_injective hstate after heq))

end Blackstone.SingleChange
