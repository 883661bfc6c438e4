import Mathlib.Data.List.DropRight
import Mathlib.Tactic.Common

/-!
# Trimming

`trim p` removes the elements with `p` from the end of a list and then from its front. What is left
has none of them at its ends (`trimmed_trim`), and a list is left alone exactly when that holds of
it (`trim_eq_self_iff`).
-/

namespace Blackstone.Trim

variable {α : Type} (p : α → Bool)

def trim (l : List α) : List α := (l.rdropWhile p).dropWhile p

/-- Neither the first element nor the last one has `p`. -/
def Trimmed (l : List α) : Prop :=
  (∀ x ∈ l.head?, p x = false) ∧ ∀ x ∈ l.getLast?, p x = false

instance (l : List α) : Decidable (Trimmed p l) := inferInstanceAs (Decidable (_ ∧ _))

variable {p} {l : List α}

theorem trim_infix : trim p l <:+: l :=
  (List.dropWhile_suffix p).isInfix.trans (List.rdropWhile_prefix p l).isInfix

theorem head?_dropWhile {x : α} (hx : x ∈ (l.dropWhile p).head?) : p x = false := by
  have hnot := List.head?_dropWhile_not p l
  rw [Option.mem_def] at hx
  rw [hx] at hnot
  exact hnot

theorem getLast?_rdropWhile {x : α} (hx : x ∈ (l.rdropWhile p).getLast?) : p x = false := by
  obtain ⟨hne, rfl⟩ := List.mem_getLast?_eq_getLast hx
  exact Bool.eq_false_iff.mpr (List.rdropWhile_last_not p l hne)

theorem trimmed_trim : Trimmed p (trim p l) := by
  refine ⟨fun x hx => head?_dropWhile hx, fun x hx => ?_⟩
  obtain ⟨front, hfront⟩ := List.dropWhile_suffix (l := l.rdropWhile p) p
  apply getLast?_rdropWhile (l := l)
  rw [Option.mem_def] at hx ⊢
  rw [← hfront, List.getLast?_append]
  rw [trim] at hx
  rw [hx]
  rfl

theorem trim_eq_self_iff : trim p l = l ↔ Trimmed p l := by
  constructor
  · intro h
    rw [← h]
    exact trimmed_trim
  · rintro ⟨hhead, hlast⟩
    have hright : l.rdropWhile p = l := by
      rw [List.rdropWhile_eq_self_iff]
      intro hne
      rw [hlast _ (List.getLast_mem_getLast? hne)]
      exact Bool.false_ne_true
    rw [trim, hright]
    cases l with
    | nil => rfl
    | cons x l =>
      apply List.dropWhile_cons_of_neg
      rw [hhead x rfl]
      exact Bool.false_ne_true

@[simp] theorem trim_concat {x : α} (hx : p x = true) : trim p (l ++ [x]) = trim p l := by
  rw [trim, List.rdropWhile_concat_pos p l x hx, trim]

@[simp] theorem trim_cons {x : α} (hx : p x = true) : trim p (x :: l) = trim p l := by
  induction l using List.reverseRecOn with
  | nil => simp [trim, List.rdropWhile, hx]
  | append_singleton l y ih =>
    rw [← List.cons_append]
    by_cases hy : p y = true
    · rw [trim_concat hy, trim_concat hy, ih]
    · rw [trim, trim, List.rdropWhile_concat_neg p _ _ hy, List.rdropWhile_concat_neg p _ _ hy,
        List.cons_append, List.dropWhile_cons_of_pos hx]

end Blackstone.Trim
