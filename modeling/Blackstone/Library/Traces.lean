import Mathlib.Data.List.Basic
import Mathlib.Tactic.Common

/-!
# Since the last start

`Since Start End events`: one of the events is a start, and none of those behind it is an end. What
a machine keeps from a start to the next end is followed along a run with `since_concat`.
-/

namespace Blackstone.Traces

variable {E : Type} {Start End End' : E → Prop} {events : List E} {e : E}

/-- There was a start, and no end since. -/
def Since (Start End : E → Prop) (events : List E) : Prop :=
  ∃ before e after, events = before ++ e :: after ∧ Start e ∧ ∀ f ∈ after, ¬ End f

@[simp] theorem not_since_nil : ¬ Since Start End [] := by
  rintro ⟨before, e, after, hevents, -⟩
  cases before <;> cases hevents

/-- One more event. -/
theorem since_concat :
    Since Start End (events ++ [e]) ↔ Start e ∨ (Since Start End events ∧ ¬ End e) := by
  constructor
  · rintro ⟨before, s, after, hevents, hstart, hnone⟩
    rcases List.eq_nil_or_concat' after with rfl | ⟨after, last, rfl⟩
    · obtain ⟨-, rfl⟩ := List.append_singleton_inj.mp hevents
      exact Or.inl hstart
    · rw [← List.cons_append, ← List.append_assoc] at hevents
      obtain ⟨hfront, rfl⟩ := List.append_singleton_inj.mp hevents
      refine Or.inr ⟨⟨before, s, after, hfront, hstart, fun f hf => ?_⟩, ?_⟩
      · exact hnone f (List.mem_append_left _ hf)
      · exact hnone e (List.mem_append_right _ List.mem_cons_self)
  · rintro (hstart | ⟨⟨before, s, after, rfl, hstart, hnone⟩, hend⟩)
    · exact ⟨events, e, [], rfl, hstart, fun f hf => nomatch hf⟩
    · refine ⟨before, s, after ++ [e], by simp, hstart, fun f hf => ?_⟩
      rcases List.mem_append.mp hf with hf | hf
      · exact hnone f hf
      · rwa [List.mem_singleton.mp hf]

/-- Only the ends that happen count. -/
theorem since_congr (h : ∀ e ∈ events, End e ↔ End' e) :
    Since Start End events ↔ Since Start End' events := by
  constructor
  · rintro ⟨before, s, after, rfl, hstart, hnone⟩
    exact ⟨before, s, after, rfl, hstart, fun f hf hend =>
      hnone f hf ((h f (by simp [hf])).mpr hend)⟩
  · rintro ⟨before, s, after, rfl, hstart, hnone⟩
    exact ⟨before, s, after, rfl, hstart, fun f hf hend =>
      hnone f hf ((h f (by simp [hf])).mp hend)⟩

/-- With fewer ends, there is still none since. -/
theorem Since.imp (h : Since Start End events) (himp : ∀ e, End' e → End e) :
    Since Start End' events := by
  obtain ⟨before, s, after, hevents, hstart, hnone⟩ := h
  exact ⟨before, s, after, hevents, hstart, fun f hf hend => hnone f hf (himp f hend)⟩

end Blackstone.Traces
