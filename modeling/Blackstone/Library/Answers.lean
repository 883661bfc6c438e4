import Blackstone.Library.Runs

/-!
# Machines that answer

A machine answers every call of a list and goes on from the state that the call leaves behind.
Two machines whose states stay related, and whose answers agree as long as they are, give the same
answers to a whole list (`answers_eq_of_simulation`).
-/

namespace Blackstone.Answers

open Runs

variable {S T E A : Type}

/-- The answers to a list of calls. -/
def answers (step : S → E → A × S) : S → List E → List A
  | _, [] => []
  | s, e :: calls => (step s e).1 :: answers step (step s e).2 calls

/-- The state after a list of calls. -/
abbrev after (step : S → E → A × S) (s : S) (calls : List E) : S :=
  run (fun s e => (step s e).2) s calls

variable {step : S → E → A × S} {step' : T → E → A × T} {Rel : S → T → Prop}
  {P : T → E → Prop}

theorem related_of_simulation
    (hstep : ∀ s t e, Rel s t → P t e →
      (step s e).1 = (step' t e).1 ∧ Rel (step s e).2 (step' t e).2)
    {s : S} {t : T} {calls : List E} (hrel : Rel s t)
    (halong : Along (fun t e => (step' t e).2) P t calls) :
    Rel (after step s calls) (after step' t calls) := by
  induction calls generalizing s t with
  | nil => exact hrel
  | cons e calls ih => exact ih (hstep s t e hrel halong.1).2 halong.2

/-- Related machines give the same answers along a run on which they stay related. -/
theorem answers_eq_of_simulation
    (hstep : ∀ s t e, Rel s t → P t e →
      (step s e).1 = (step' t e).1 ∧ Rel (step s e).2 (step' t e).2)
    {s : S} {t : T} {calls : List E} (hrel : Rel s t)
    (halong : Along (fun t e => (step' t e).2) P t calls) :
    answers step s calls = answers step' t calls := by
  induction calls generalizing s t with
  | nil => rfl
  | cons e calls ih =>
    obtain ⟨hanswer, hnext⟩ := hstep s t e hrel halong.1
    rw [answers, answers, hanswer, ih hnext halong.2]

/-- The same without a condition on the calls. -/
theorem answers_eq_of_simulation'
    (hstep : ∀ s t e, Rel s t →
      (step s e).1 = (step' t e).1 ∧ Rel (step s e).2 (step' t e).2)
    {s : S} {t : T} (hrel : Rel s t) (calls : List E) :
    answers step s calls = answers step' t calls :=
  answers_eq_of_simulation (P := fun _ _ => True) (fun s t e h _ => hstep s t e h) hrel
    (along_true _ _)

end Blackstone.Answers
