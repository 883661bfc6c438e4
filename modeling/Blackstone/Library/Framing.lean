import Mathlib.Data.List.Basic
import Mathlib.Tactic.Common

/-!
# Frames on a stream

A reader takes frames from a stream one after the other. Where every frame is read as what it was
made of, and the reader then stands at its end, a sequence of frames is read as what they were made
of (`readMany_eq`).
-/

namespace Blackstone.Framing

variable {R A X : Type}

/-- Read as many frames as are asked for. -/
def readMany (read : R → Option (A × R)) : ℕ → R → Option (List A × R)
  | 0, r => some ([], r)
  | n + 1, r => do
    let (a, r) ← read r
    let (rest, r) ← readMany read n r
    return (a :: rest, r)

/-- Frames are read one by one, by a reader that stands before `bytes` when `At bytes r`. -/
theorem readMany_eq {read : R → Option (A × R)} (At : List UInt8 → R → Prop)
    {frame : X → List UInt8} {value : X → A} {Valid : X → Prop}
    (hread : ∀ x rest r, Valid x → At (frame x ++ rest) r →
      ∃ r', read r = some (value x, r') ∧ At rest r') {xs : List X} (hvalid : ∀ x ∈ xs, Valid x)
    {rest : List UInt8} {r : R} (hr : At (xs.flatMap frame ++ rest) r) :
    ∃ r', readMany read xs.length r = some (xs.map value, r') ∧ At rest r' := by
  induction xs generalizing r with
  | nil => exact ⟨r, rfl, hr⟩
  | cons x xs ih =>
    rw [List.flatMap_cons, List.append_assoc] at hr
    obtain ⟨r', hfirst, hr'⟩ := hread x _ r (hvalid x List.mem_cons_self) hr
    obtain ⟨r'', hrest, hr''⟩ := ih (fun y hy => hvalid y (List.mem_cons_of_mem x hy)) hr'
    refine ⟨r'', ?_, hr''⟩
    rw [List.length_cons, readMany, hfirst, Option.bind_eq_bind, Option.bind_some]
    simp only [hrest]
    rfl

end Blackstone.Framing
