import Mathlib.Data.List.Forall2
import Mathlib.Data.Set.Finite.List

/-!
# Texts in pieces

A text that arrives in pieces, of which a receiver keeps some. When the pieces that are kept
hold as many characters as all of them, no piece that is dropped had any
(`filter_eq_of_length_le`). An operation on strings over a finite alphabet that keeps the
length and can be undone is a bijection (`rightInverse_of_leftInverse`).
-/

namespace Blackstone.Pieces

variable {α : Type}

/-- The pieces that are not empty. -/
def nonempty (pieces : List (List α)) : List (List α) := pieces.filter (· ≠ [])

theorem nonempty_cons_of_ne {piece : List α} (h : piece ≠ []) (pieces : List (List α)) :
    nonempty (piece :: pieces) = piece :: nonempty pieces :=
  List.filter_cons_of_pos (by simpa using h)

@[simp] theorem nonempty_cons_nil (pieces : List (List α)) :
    nonempty ([] :: pieces) = nonempty pieces :=
  List.filter_cons_of_neg (by simp)

theorem flatten_nonempty (pieces : List (List α)) :
    (nonempty pieces).flatten = pieces.flatten := by
  induction pieces with
  | nil => rfl
  | cons piece pieces ih =>
    by_cases h : piece = []
    · rw [h, nonempty_cons_nil, ih, List.flatten_cons, List.nil_append]
    · rw [nonempty_cons_of_ne h, List.flatten_cons, List.flatten_cons, ih]

theorem length_flatten_filter_le (keep : List α → Bool) (pieces : List (List α)) :
    (pieces.filter keep).flatten.length ≤ pieces.flatten.length := by
  induction pieces with
  | nil => exact Nat.le_refl _
  | cons piece pieces ih =>
    rw [List.filter_cons]
    split
    · simp only [List.flatten_cons, List.length_append]
      omega
    · simp only [List.flatten_cons, List.length_append]
      omega

/-- When as many characters are kept as there are, only empty pieces are dropped. -/
theorem filter_eq_of_length_le {keep : List α → Bool} (hkeep : ∀ piece, keep piece = true →
    piece ≠ []) {pieces : List (List α)}
    (h : pieces.flatten.length ≤ (pieces.filter keep).flatten.length) :
    nonempty pieces = pieces.filter keep := by
  induction pieces with
  | nil => rfl
  | cons piece pieces ih =>
    have hrest := length_flatten_filter_le keep pieces
    by_cases hpiece : keep piece = true
    · rw [List.filter_cons_of_pos hpiece] at h ⊢
      simp only [List.flatten_cons, List.length_append] at h
      rw [nonempty_cons_of_ne (hkeep piece hpiece), ih (by omega)]
    · rw [List.filter_cons_of_neg hpiece] at h ⊢
      simp only [List.flatten_cons, List.length_append] at h
      have hnil : piece = [] := List.length_eq_zero_iff.mp (by omega)
      rw [hnil, nonempty_cons_nil, ih (by omega)]

/-- Related pieces stay related when the empty ones are dropped. -/
theorem forall₂_nonempty {R : List α → List α → Prop} (hR : ∀ x y, R x y → (x = [] ↔ y = []))
    {xs ys : List (List α)} (h : List.Forall₂ R xs ys) :
    List.Forall₂ R (nonempty xs) (nonempty ys) := by
  induction h with
  | nil => exact List.Forall₂.nil
  | @cons x y xs ys hxy _ ih =>
    by_cases hx : x = []
    · rw [hx, (hR x y hxy).mp hx, nonempty_cons_nil, nonempty_cons_nil]
      exact ih
    · have hy : y ≠ [] := fun hy => hx ((hR x y hxy).mpr hy)
      rw [nonempty_cons_of_ne hx, nonempty_cons_of_ne hy]
      exact List.Forall₂.cons hxy ih

/-- A function that maps the empty piece to itself can skip the empty pieces. -/
theorem nonempty_map {f : List α → List α} (hf : f [] = []) (pieces : List (List α)) :
    nonempty (pieces.map f) = nonempty ((nonempty pieces).map f) := by
  induction pieces with
  | nil => rfl
  | cons piece pieces ih =>
    by_cases h : piece = []
    · rw [h, List.map_cons, hf, nonempty_cons_nil, nonempty_cons_nil, ih]
    · rw [nonempty_cons_of_ne h, List.map_cons, List.map_cons]
      by_cases himage : f piece = []
      · rw [himage, nonempty_cons_nil, nonempty_cons_nil, ih]
      · rw [nonempty_cons_of_ne himage, nonempty_cons_of_ne himage, ih]

theorem nonempty_eq_self {pieces : List (List α)} (h : ∀ piece ∈ pieces, piece ≠ []) :
    nonempty pieces = pieces :=
  List.filter_eq_self.mpr (fun piece hpiece => by simpa using h piece hpiece)

/-- On strings over a finite alphabet, an operation that keeps the length and has a left
inverse is undone by it on both sides. -/
theorem rightInverse_of_leftInverse [Finite α] {f g : List α → List α}
    (hlength : ∀ s, (f s).length = s.length) (hleft : Function.LeftInverse g f) :
    Function.RightInverse g f := by
  intro c
  have hfinite : Finite {s : List α | s.length = c.length} := (List.finite_length_eq α c.length)
  let onLength : {s : List α | s.length = c.length} → {s : List α | s.length = c.length} :=
    fun s => ⟨f s.1, (hlength s.1).trans s.2⟩
  have hinjective : Function.Injective onLength := by
    intro s t h
    exact Subtype.ext (hleft.injective (Subtype.ext_iff.mp h))
  obtain ⟨s, hs⟩ := Finite.surjective_of_injective hinjective ⟨c, rfl⟩
  have hpreimage : f s.1 = c := congrArg Subtype.val hs
  rw [← hpreimage, hleft s.1]

end Blackstone.Pieces
