import Mathlib.Data.List.Infix
import Mathlib.Tactic.Common

/-!
# Windows of a text

The windows of a fixed length, taken at every offset, are the substrings of that length
(`mem_windows_iff`).
-/

namespace Blackstone.Substrings

variable {α : Type}

/-- The substrings of length `n`, from the first offset to the last. -/
def windows (n : ℕ) (text : List α) : List (List α) :=
  (List.range (text.length + 1 - n)).map (fun i => (text.drop i).take n)

theorem mem_windows_iff {n : ℕ} {w text : List α} :
    w ∈ windows n text ↔ w <:+: text ∧ w.length = n := by
  rw [windows, List.mem_map]
  constructor
  · rintro ⟨i, hi, rfl⟩
    have hfits := List.mem_range.mp hi
    refine ⟨(List.take_prefix n _).isInfix.trans (List.drop_suffix i text).isInfix, ?_⟩
    rw [List.length_take, List.length_drop]
    omega
  · rintro ⟨⟨pre, post, rfl⟩, rfl⟩
    refine ⟨pre.length, ?_, ?_⟩
    · rw [List.mem_range, List.length_append, List.length_append]
      omega
    · rw [List.append_assoc, List.drop_left, List.take_left]

end Blackstone.Substrings
