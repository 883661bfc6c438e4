import Mathlib.Logic.Function.Basic
import Blackstone.Library.Cyclic

/-!
# Ring buffers

A buffer of `capacity` cells is addressed by growing counters taken modulo `capacity`.
`Window cells capacity head q` says that the cells from position `head` on hold the queue
`q`. The lemmas are the queue operations on windows: `Window.push` writes behind the last
element, `Window.pop` moves the head over the first one. Cells outside the window are
unrestricted.

`Counters` is the part of a buffer kept in 64-bit words: a head, a tail and a redundant
size that agree on the length of the queue.
-/

namespace Blackstone.RingBuffer

open Cyclic

variable {α : Type}

/-- The cells from position `head` on hold the elements of `q`, oldest first. -/
structure Window (cells : Nat → α) (capacity head : Nat) (q : List α) : Prop where
  length_le : q.length ≤ capacity
  cell : ∀ j (hj : j < q.length), cells ((head + j) % capacity) = q[j]

theorem Window.empty (cells : Nat → α) (capacity head : Nat) :
    Window cells capacity head [] where
  length_le := Nat.zero_le _
  cell j hj := absurd hj (Nat.not_lt_zero j)

/-- Writing the cell behind the window appends to the queue, as long as it is not full. -/
theorem Window.push {cells : Nat → α} {capacity head : Nat} {q : List α}
    (h : Window cells capacity head q) (hspace : q.length < capacity) (x : α) :
    Window (Function.update cells ((head + q.length) % capacity) x) capacity head
      (q ++ [x]) where
  length_le := by
    rw [List.length_append]
    exact hspace
  cell j hj := by
    rw [List.length_append, List.length_singleton] at hj
    by_cases hlast : j = q.length
    · subst hlast
      rw [Function.update_self, List.getElem_concat_length rfl]
    · have hold : j < q.length := by omega
      have hne : (head + j) % capacity ≠ (head + q.length) % capacity := by
        intro heq
        exact hlast (offset_injective (by omega) hspace heq)
      rw [Function.update_of_ne hne, List.getElem_append_left hold]
      exact h.cell j hold

/-- The cell at the head holds the oldest element. -/
theorem Window.head {cells : Nat → α} {capacity head : Nat} {x : α} {q : List α}
    (h : Window cells capacity head (x :: q)) : cells (head % capacity) = x :=
  h.cell 0 (Nat.zero_lt_succ _)

/-- Moving the head drops the oldest element. -/
theorem Window.pop {cells : Nat → α} {capacity head : Nat} {x : α} {q : List α}
    (h : Window cells capacity head (x :: q)) : Window cells capacity (head + 1) q where
  length_le := Nat.le_of_succ_le h.length_le
  cell j hj := by
    have hcell := h.cell (j + 1) (Nat.succ_lt_succ hj)
    rw [show head + 1 + j = head + (j + 1) by omega]
    exact hcell

/-! ## The counters -/

theorem toNat_succ {n : UInt64} (h : n.toNat + 1 < 2 ^ 64) : (n + 1).toNat = n.toNat + 1 := by
  rw [UInt64.toNat_add]
  exact Nat.mod_eq_of_lt h

theorem toNat_pred {n : UInt64} (h : 0 < n.toNat) : (n - 1).toNat = n.toNat - 1 := by
  have hone : (1 : UInt64) ≤ n := by
    rw [UInt64.le_iff_toNat_le, UInt64.toNat_one]
    exact h
  rw [UInt64.toNat_sub_of_le _ _ hone, UInt64.toNat_one]

/-- Head, tail and size agree on a queue of `len` elements. -/
structure Counters (capacity head tail size : UInt64) (len : Nat) : Prop where
  capacity_pos : 0 < capacity.toNat
  tail_eq : tail.toNat = head.toNat + len
  size_eq : size.toNat = len
  len_le : len ≤ capacity.toNat

section Counters

variable {capacity head tail size : UInt64} {len : Nat}

theorem Counters.tail_index (h : Counters capacity head tail size len) :
    (tail % capacity).toNat = (head.toNat + len) % capacity.toNat := by
  rw [UInt64.toNat_mod, h.tail_eq]

theorem Counters.toNat_head_succ (h : Counters capacity head tail size (len + 1)) :
    (head + 1).toNat = head.toNat + 1 := by
  have htail := h.tail_eq
  have hword := tail.toNat_lt
  exact toNat_succ (by omega)

theorem Counters.full_iff (h : Counters capacity head tail size len) :
    size ≥ capacity ↔ capacity.toNat ≤ len := by
  rw [ge_iff_le, UInt64.le_iff_toNat_le, h.size_eq]

theorem Counters.empty_iff (h : Counters capacity head tail size len) :
    size = 0 ↔ len = 0 := by
  rw [← UInt64.toNat_inj, h.size_eq, UInt64.toNat_zero]

theorem Counters.push (h : Counters capacity head tail size len)
    (hspace : len < capacity.toNat) (hroom : tail.toNat + 1 < 2 ^ 64) :
    Counters capacity head (tail + 1) (size + 1) (len + 1) := by
  have hsize : size.toNat + 1 < 2 ^ 64 := by
    have := capacity.toNat_lt
    rw [h.size_eq]
    omega
  refine ⟨h.capacity_pos, ?_, ?_, hspace⟩
  · rw [toNat_succ hroom, h.tail_eq]
    omega
  · rw [toNat_succ hsize, h.size_eq]

theorem Counters.pop (h : Counters capacity head tail size (len + 1)) :
    Counters capacity (head + 1) tail (size - 1) len := by
  have htail := h.tail_eq
  have hsize := h.size_eq
  have hhead := h.toNat_head_succ
  refine ⟨h.capacity_pos, ?_, ?_, Nat.le_of_succ_le h.len_le⟩
  · omega
  · rw [toNat_pred (by omega), hsize]
    rfl

end Counters

/-! ## The history of a buffer -/

/-- What went in is what came out followed by what is queued; a pop keeps this. -/
theorem history_pop {added popped q : List α} (h : added = popped ++ q) {x : α}
    (hx : q.head? = some x) : added = popped ++ [x] ++ q.tail := by
  obtain ⟨rest, rfl⟩ := List.head?_eq_some_iff.mp hx
  rw [h, List.append_assoc]
  rfl

end Blackstone.RingBuffer
