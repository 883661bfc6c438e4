import Mathlib.Data.List.Flatten
import Mathlib.Tactic.Common

/-!
# Repetitions of a word

`repeated w n` are the first `n` symbols of `w w w ...`. A sequence is a beginning of itself
behind `w` exactly when it is such a repetition (`prefix_append_iff`): a reader that starts a word
too early and finds what it expects has read a repetition.
-/

namespace Blackstone.Repetition

variable {α : Type} {w : List α}

/-- Copies of a word in a row. -/
def copies (w : List α) (n : ℕ) : List α := (List.replicate n w).flatten

/-- The first symbols of a word that is repeated. -/
def repeated (w : List α) (n : ℕ) : List α := (copies w n).take n

theorem copies_succ (w : List α) (n : ℕ) : copies w (n + 1) = w ++ copies w n := by
  rw [copies, List.replicate_succ, List.flatten_cons, copies]

theorem copies_add (w : List α) (m n : ℕ) : copies w (m + n) = copies w m ++ copies w n := by
  rw [copies, ← List.replicate_append_replicate, List.flatten_append, copies, copies]

theorem length_copies (w : List α) (n : ℕ) : (copies w n).length = n * w.length := by
  rw [copies, List.length_flatten, List.map_replicate, List.sum_replicate_nat]

theorem le_length_copies (hw : w ≠ []) (n : ℕ) : n ≤ (copies w n).length := by
  rw [length_copies]
  exact Nat.le_mul_of_pos_right n (List.length_pos_iff.mpr hw)

/-- As many copies as are needed, or more. -/
theorem take_copies (hw : w ≠ []) {m n : ℕ} (hn : n ≤ (copies w m).length) :
    (copies w m).take n = repeated w n := by
  have hleft : (copies w (m + n)).take n = (copies w m).take n := by
    rw [copies_add, List.take_append_of_le_length hn]
  have hright : (copies w (n + m)).take n = repeated w n := by
    rw [copies_add, List.take_append_of_le_length (le_length_copies hw n), repeated]
  rw [← hleft, Nat.add_comm, hright]

@[simp] theorem length_repeated (hw : w ≠ []) (n : ℕ) : (repeated w n).length = n := by
  rw [repeated, List.length_take, Nat.min_eq_left (le_length_copies hw n)]

theorem append_repeated (hw : w ≠ []) (n : ℕ) : w ++ repeated w n = repeated w (w.length + n) := by
  have hle : w.length + n ≤ (copies w (n + 1)).length := by
    have hcopies := le_length_copies hw n
    rw [copies_succ, List.length_append]
    omega
  rw [← take_copies hw hle, copies_succ, List.take_length_add_append, repeated]

theorem copies_append_repeated (hw : w ≠ []) (k n : ℕ) :
    copies w k ++ repeated w n = repeated w (k * w.length + n) := by
  induction k with
  | zero =>
    rw [Nat.zero_mul, Nat.zero_add]
    rfl
  | succ k ih =>
    rw [copies_succ, List.append_assoc, ih, append_repeated hw, Nat.succ_mul]
    congr 1
    omega

/-- What is left of a repetition behind whole words. -/
theorem drop_repeated (hw : w ≠ []) (k m n : ℕ) :
    (repeated w (k * w.length + (m + n))).drop (k * w.length + m) =
      (repeated w (m + n)).drop m := by
  rw [← copies_append_repeated hw, ← length_copies, ← List.drop_drop, List.drop_left]

theorem prefix_copies {xs : List α} (h : xs <+: w ++ xs) (n : ℕ) : xs <+: copies w n ++ xs := by
  induction n with
  | zero => exact List.prefix_rfl
  | succ n ih =>
    rw [copies_succ, List.append_assoc]
    exact h.trans ((List.prefix_append_right_inj w).mpr ih)

theorem eq_repeated_of_prefix (hw : w ≠ []) {xs : List α} (h : xs <+: w ++ xs) :
    xs = repeated w xs.length := by
  have htake := List.prefix_iff_eq_take.mp (prefix_copies h xs.length)
  rwa [List.take_append_of_le_length (le_length_copies hw _)] at htake

theorem prefix_repeated (hw : w ≠ []) (n : ℕ) : repeated w n <+: w ++ repeated w n := by
  have hle : n ≤ (copies w (w.length + n)).length := by
    have hcopies := le_length_copies hw (w.length + n)
    omega
  rw [append_repeated hw, ← take_copies hw hle, repeated]
  exact List.take_prefix_take_left (Nat.le_add_left n w.length)

theorem prefix_append_iff (hw : w ≠ []) {xs : List α} :
    xs <+: w ++ xs ↔ xs = repeated w xs.length := by
  constructor
  · exact eq_repeated_of_prefix hw
  · intro h
    rw [h]
    exact prefix_repeated hw _

/-- A reader that starts one word too early and still gets the whole has read a repetition. -/
theorem eq_repeated_of_take (hw : w ≠ []) {xs rest : List α}
    (h : (w ++ (xs ++ rest)).take xs.length = xs) : xs = repeated w xs.length := by
  have hle : xs.length ≤ (w ++ xs).length := by
    rw [List.length_append]
    exact Nat.le_add_left xs.length w.length
  rw [← List.append_assoc, List.take_append_of_le_length hle] at h
  exact (prefix_append_iff hw).mp (List.prefix_iff_eq_take.mpr h.symm)

/-- Such a reader of a repetition gets the whole, ... -/
theorem take_append_repeated (hw : w ≠ []) (n : ℕ) (rest : List α) :
    (w ++ (repeated w n ++ rest)).take n = repeated w n := by
  have hle : n ≤ (w ++ repeated w n).length := by
    rw [List.length_append, length_repeated hw]
    exact Nat.le_add_left n w.length
  have htake := List.prefix_iff_eq_take.mp (prefix_repeated hw n)
  rw [length_repeated hw] at htake
  rw [← List.append_assoc, List.take_append_of_le_length hle, ← htake]

/-- ... and one word, turned by what is over, stays in front of the rest. -/
theorem drop_append_repeated (hw : w ≠ []) (k m : ℕ) (rest : List α) :
    (w ++ (repeated w (k * w.length + m) ++ rest)).drop (k * w.length + m) =
      (repeated w (m + w.length)).drop m ++ rest := by
  have hle : k * w.length + m ≤ (w ++ repeated w (k * w.length + m)).length := by
    rw [List.length_append, length_repeated hw]
    exact Nat.le_add_left _ w.length
  have hsum : w.length + (k * w.length + m) = k * w.length + (m + w.length) := by omega
  rw [← List.append_assoc, List.drop_append_of_le_length hle, append_repeated hw, hsum,
    drop_repeated hw]

/-- The symbols of a repetition are those of the word. -/
theorem mem_of_mem_repeated {n : ℕ} {x : α} (hx : x ∈ repeated w n) : x ∈ w := by
  obtain ⟨word, hword, hmem⟩ := List.mem_flatten.mp (List.mem_of_mem_take hx)
  rwa [List.eq_of_mem_replicate hword] at hmem

theorem repeated_map {β : Type} (f : α → β) (w : List α) (n : ℕ) :
    (repeated w n).map f = repeated (w.map f) n := by
  rw [repeated, List.map_take, copies, List.map_flatten, List.map_replicate, repeated, copies]

end Blackstone.Repetition
