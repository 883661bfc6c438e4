import Mathlib.Data.List.Basic
import Mathlib.Tactic.Common

/-!
# Dropping from the front for filtering

A queue is to lose its elements with a property `p`. A procedure that counts the elements
with a property `q` and drops that many from the front does this exactly when the elements
with `p` stand in front of all others and `q` selects no further element
(`drop_countP_eq_filter_iff`).
-/

namespace Blackstone.Retention

variable {α : Type} {p q : α → Bool}

/-- The elements with `p` stand in front of the others. -/
def InFront (p : α → Bool) (l : List α) : Prop := l.Pairwise (fun x y => p y = true → p x = true)

theorem inFront_cons {x : α} {l : List α} :
    InFront p (x :: l) ↔ (∀ y ∈ l, p y = true → p x = true) ∧ InFront p l :=
  List.pairwise_cons

theorem drop_countP_of_inFront {l : List α} (h : InFront p l) :
    l.drop (l.countP p) = l.filter (fun x => !p x) := by
  induction l with
  | nil => rfl
  | cons x l ih =>
    obtain ⟨hhead, htail⟩ := inFront_cons.mp h
    by_cases hx : p x = true
    · rw [List.countP_cons_of_pos hx, List.drop_succ_cons, ih htail,
        List.filter_cons_of_neg (by simp [hx])]
    · have hnone : ∀ y ∈ x :: l, ¬ p y = true := by
        intro y hy
        rcases List.mem_cons.mp hy with rfl | hy
        · exact hx
        · intro hpy
          exact hx (hhead y hy hpy)
      rw [List.countP_eq_zero.mpr hnone, List.drop_zero, eq_comm, List.filter_eq_self]
      intro y hy
      simp [hnone y hy]

/-- When dropping agrees with filtering, what is dropped has the property. -/
theorem all_take_of_drop_eq {l : List α} (h : l.drop (l.countP p) = l.filter (fun x => !p x)) :
    ∀ x ∈ l.take (l.countP p), p x = true := by
  have hrest : (l.drop (l.countP p)).countP p = 0 := by
    rw [h, List.countP_eq_zero]
    intro x hx
    simpa using (List.mem_filter.mp hx).2
  have hsplit : (l.take (l.countP p)).countP p = l.countP p := by
    have happend : (l.take (l.countP p) ++ l.drop (l.countP p)).countP p =
        (l.take (l.countP p)).countP p + (l.drop (l.countP p)).countP p := List.countP_append
    rw [List.take_append_drop, hrest] at happend
    omega
  apply List.countP_eq_length.mp
  rw [hsplit, List.length_take, Nat.min_eq_left List.countP_le_length]

theorem inFront_of_drop_eq {l : List α} (h : l.drop (l.countP p) = l.filter (fun x => !p x)) :
    InFront p l := by
  induction l with
  | nil => exact List.Pairwise.nil
  | cons x l ih =>
    by_cases hx : p x = true
    · rw [List.countP_cons_of_pos hx, List.drop_succ_cons,
        List.filter_cons_of_neg (by simp [hx])] at h
      exact inFront_cons.mpr ⟨fun _ _ _ => hx, ih h⟩
    · have hcount : (x :: l).countP p = 0 := by
        by_contra hpos
        have hmem : x ∈ (x :: l).take ((x :: l).countP p) := by
          obtain ⟨n, hn⟩ := Nat.exists_eq_succ_of_ne_zero hpos
          rw [hn, List.take_succ_cons]
          exact List.mem_cons_self
        exact hx (all_take_of_drop_eq h x hmem)
      apply List.pairwise_of_forall_mem_list
      intro y _ z hz hpz
      exact absurd hpz (List.countP_eq_zero.mp hcount z hz)

/-- A larger property that selects equally many elements selects the same ones. -/
theorem all_of_countP_eq {l : List α} (hsub : ∀ x ∈ l, p x = true → q x = true)
    (heq : l.countP q = l.countP p) : ∀ x ∈ l, q x = true → p x = true := by
  induction l with
  | nil =>
    intro x hx
    cases hx
  | cons y l ih =>
    have hsub' : ∀ x ∈ l, p x = true → q x = true :=
      fun x hx => hsub x (List.mem_cons_of_mem _ hx)
    have hle : l.countP p ≤ l.countP q := List.countP_mono_left hsub'
    have hhead := hsub y List.mem_cons_self
    rw [List.countP_cons, List.countP_cons] at heq
    intro x hx hqx
    rcases List.mem_cons.mp hx with rfl | hx
    · by_contra hpx
      rw [if_pos hqx, if_neg hpx] at heq
      omega
    · apply ih hsub' ?_ x hx hqx
      by_cases hpy : p y = true
      · rw [if_pos hpy, if_pos (hhead hpy)] at heq
        omega
      · rw [if_neg hpy] at heq
        omega

/-- Dropping as many as `q` selects, where `q` selects all of `p`, filters `p` out exactly
when `q` selects nothing else and the selected ones are in front. -/
theorem drop_countP_eq_filter_iff {l : List α} (hsub : ∀ x ∈ l, p x = true → q x = true) :
    l.drop (l.countP q) = l.filter (fun x => !p x) ↔
      (∀ x ∈ l, q x = true → p x = true) ∧ InFront p l := by
  constructor
  · intro h
    have hsame : l.countP q = l.countP p := by
      have hlen := congrArg List.length h
      have hsum := List.length_eq_countP_add_countP (l := l) p
      have hpos : l.countP q ≤ l.length := List.countP_le_length
      have hneg : l.countP (fun x => !p x) = (l.filter (fun x => !p x)).length :=
        List.countP_eq_length_filter
      have hnot : l.countP (fun x => decide ¬ p x = true) = l.countP (fun x => !p x) :=
        List.countP_congr (fun x _ => by simp)
      rw [List.length_drop, ← hneg] at hlen
      omega
    rw [hsame] at h
    exact ⟨all_of_countP_eq hsub hsame, inFront_of_drop_eq h⟩
  · intro h
    obtain ⟨hsup, hfront⟩ := h
    have hsame : l.countP q = l.countP p :=
      List.countP_congr (fun x hx => ⟨hsup x hx, hsub x hx⟩)
    rw [hsame]
    exact drop_countP_of_inFront hfront

end Blackstone.Retention
