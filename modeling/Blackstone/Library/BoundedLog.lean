import Mathlib.Data.List.DropRight
import Mathlib.Tactic.Common

/-!
# Logs that keep their last entries

A log with room for `n` entries drops its oldest one to make room for a new one, either
after the new entry has gone in (`pushEvict`) or before (`evictPush`). Both keep the last
`n` entries of everything that was ever appended.
-/

namespace Blackstone.BoundedLog

variable {α : Type}

/-- Appends an entry, then drops the oldest one if there are too many. -/
def pushEvict (n : Nat) (log : List α) (x : α) : List α :=
  if (log ++ [x]).length > n then (log ++ [x]).tail else log ++ [x]

/-- Drops the oldest entry if there is no room, then appends one. -/
def evictPush (n : Nat) (log : List α) (x : α) : List α :=
  (if log.length ≥ n then log.tail else log) ++ [x]

theorem length_pushEvict_le {n : Nat} {log : List α} (h : log.length ≤ n) (x : α) :
    (pushEvict n log x).length ≤ n := by
  rw [pushEvict]
  split
  · rw [List.length_tail, List.length_append, List.length_singleton]
    omega
  · omega

theorem length_rtake (l : List α) (n : Nat) : (l.rtake n).length = min n l.length := by
  rw [List.rtake, List.length_drop]
  omega

theorem rtake_of_length_le {l : List α} {n : Nat} (h : l.length ≤ n) : l.rtake n = l := by
  rw [List.rtake, Nat.sub_eq_zero_of_le h, List.drop_zero]

/-- The last entries after an append, from the last ones before. -/
theorem rtake_concat_of_le {l : List α} {n : Nat} (h : n ≤ l.length) (x : α) :
    (l ++ [x]).rtake n = (l.rtake n ++ [x]).tail := by
  have hindex : (l ++ [x]).length - n = l.length - n + 1 := by
    rw [List.length_append, List.length_singleton]
    omega
  rw [List.rtake, hindex, ← List.tail_drop, List.drop_append_of_le_length (Nat.sub_le _ _)]
  rfl

theorem rtake_concat_of_lt {l : List α} {n : Nat} (h : l.length < n) (x : α) :
    (l ++ [x]).rtake n = l.rtake n ++ [x] := by
  rw [rtake_of_length_le (Nat.le_of_lt h), rtake_of_length_le]
  rw [List.length_append, List.length_singleton]
  exact h

theorem pushEvict_rtake (n : Nat) (l : List α) (x : α) :
    pushEvict n (l.rtake n) x = (l ++ [x]).rtake n := by
  rw [pushEvict, List.length_append, length_rtake, List.length_singleton]
  by_cases h : n ≤ l.length
  · rw [if_pos (by omega), rtake_concat_of_le h]
  · rw [if_neg (by omega), rtake_concat_of_lt (Nat.lt_of_not_ge h)]

theorem evictPush_rtake {n : Nat} (hn : 0 < n) (l : List α) (x : α) :
    evictPush n (l.rtake n) x = (l ++ [x]).rtake n := by
  rw [evictPush, length_rtake]
  by_cases h : n ≤ l.length
  · have hne : l.rtake n ≠ [] := by
      apply List.ne_nil_of_length_pos
      rw [length_rtake]
      omega
    rw [if_pos (by omega), rtake_concat_of_le h, List.tail_append_of_ne_nil hne]
  · rw [if_neg (by omega), rtake_concat_of_lt (Nat.lt_of_not_ge h)]

/-- What was evicted and what was kept. -/
theorem rdrop_append_rtake (l : List α) (n : Nat) : l.rdrop n ++ l.rtake n = l :=
  List.take_append_drop _ _

end Blackstone.BoundedLog
