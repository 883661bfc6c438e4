import Mathlib.Data.List.Basic
import Mathlib.Tactic.Common

/-!
# Byte streams

The receiving end of a stream of bytes. What was sent arrives piece by piece, and a read takes at
most as much as has arrived: it waits for the first byte, but not for more. No read changes the
order, so what was read and what is unread make up what was sent (`unread_recv`).
-/

namespace Blackstone.ByteStream

/-- The bytes that have arrived and were not read, and those on their way. -/
structure Stream where
  buffered : List UInt8
  inFlight : List UInt8

namespace Stream

def unread (s : Stream) : List UInt8 := s.buffered ++ s.inFlight

/-- Some bytes arrive. -/
def deliver (s : Stream) (n : ℕ) : Stream :=
  ⟨s.buffered ++ s.inFlight.take n, s.inFlight.drop n⟩

/-- The stream when a read of `len` bytes returns, before which `n` bytes arrive by themselves. -/
def await (s : Stream) (n len : ℕ) : Stream :=
  if (s.deliver n).buffered = [] ∧ 0 < len then (s.deliver n).deliver 1 else s.deliver n

/-- A read that leaves the bytes where they are. -/
def peek (s : Stream) (n len : ℕ) : List UInt8 × Stream :=
  ((s.await n len).buffered.take len, s.await n len)

/-- A read. -/
def recv (s : Stream) (n len : ℕ) : List UInt8 × Stream :=
  ((s.await n len).buffered.take len,
    { s.await n len with buffered := (s.await n len).buffered.drop len })

variable (s : Stream) (n len : ℕ)

@[simp] theorem unread_deliver : (s.deliver n).unread = s.unread := by
  rw [unread, deliver, List.append_assoc, List.take_append_drop, unread]

@[simp] theorem unread_await : (s.await n len).unread = s.unread := by
  rw [await]
  split_ifs
  · rw [unread_deliver, unread_deliver]
  · exact unread_deliver s n

theorem buffered_prefix_deliver : s.buffered <+: (s.deliver n).buffered := List.prefix_append _ _

theorem buffered_prefix_await : s.buffered <+: (s.await n len).buffered := by
  rw [await]
  split_ifs
  · exact (buffered_prefix_deliver s n).trans (buffered_prefix_deliver _ 1)
  · exact buffered_prefix_deliver s n

theorem unread_recv : (s.recv n len).1 ++ (s.recv n len).2.unread = s.unread := by
  rw [← unread_await s n len, recv, unread, unread, ← List.append_assoc, List.take_append_drop]

variable {s n len} {front rest : List UInt8}

/-- A read for which enough has arrived. -/
theorem recv_of_le (hunread : s.unread = front ++ rest) (hfront : front.length = len)
    (hle : len ≤ (s.await n len).buffered.length) :
    (s.recv n len).1 = front ∧ (s.recv n len).2.unread = rest := by
  have hlength : (s.recv n len).1.length = front.length := by
    rw [recv, List.length_take, hfront]
    exact Nat.min_eq_left hle
  have hsplit := unread_recv s n len
  rw [hunread] at hsplit
  exact List.append_inj hsplit hlength

/-- A read for which too little has arrived takes all of it. -/
theorem recv_of_lt (hunread : s.unread = front ++ rest) (hfront : front.length = len)
    (hlt : (s.await n len).buffered.length < len) :
    (s.recv n len).1.length = (s.await n len).buffered.length ∧
      (s.recv n len).2.unread = front.drop (s.await n len).buffered.length ++ rest := by
  have hlength : (s.recv n len).1.length = (s.await n len).buffered.length := by
    rw [recv, List.length_take]
    exact Nat.min_eq_right (Nat.le_of_lt hlt)
  refine ⟨hlength, ?_⟩
  have hsplit := unread_recv s n len
  have hdrop := congrArg (List.drop (s.recv n len).1.length) hsplit
  rw [List.drop_left, hunread, hlength, List.drop_append_of_le_length (by omega)] at hdrop
  exact hdrop

end Stream

end Blackstone.ByteStream
