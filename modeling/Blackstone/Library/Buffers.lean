import Mathlib.Data.List.Basic
import Mathlib.Logic.Function.Basic
import Mathlib.Tactic.Common

/-!
# Buffers

A memory of byte buffers that are known by name, as the arrays that a function is given pointers
to: two pointers may be to one buffer. A read or a write that leaves its buffer fails.
-/

namespace Blackstone.Buffers

def writeAt (buffer : List UInt8) (offset : ℕ) (bytes : List UInt8) : Option (List UInt8) :=
  if offset + bytes.length ≤ buffer.length then
    some (buffer.take offset ++ bytes ++ buffer.drop (offset + bytes.length))
  else none

theorem writeAt_append {written buffer bytes : List UInt8} {offset : ℕ}
    (hoffset : written.length = offset) (hle : offset + bytes.length ≤ buffer.length) :
    writeAt (written ++ buffer.drop offset) offset bytes =
      some (written ++ bytes ++ buffer.drop (offset + bytes.length)) := by
  have hlength : (written ++ buffer.drop offset).length = buffer.length := by
    rw [List.length_append, List.length_drop]
    omega
  rw [writeAt, hlength, if_pos hle, List.take_left' hoffset, ← hoffset, List.drop_append,
    List.drop_eq_nil_of_le (by omega), List.nil_append, List.drop_drop]
  congr 3
  omega

theorem writeAt_zero {buffer bytes : List UInt8} (hle : bytes.length ≤ buffer.length) :
    writeAt buffer 0 bytes = some (bytes ++ buffer.drop bytes.length) := by
  rw [writeAt, if_pos (by omega), List.take_zero, List.nil_append, Nat.zero_add]

def readAt (buffer : List UInt8) (offset len : ℕ) : Option (List UInt8) :=
  if offset + len ≤ buffer.length then some ((buffer.drop offset).take len) else none

/-- A read of what lies between two other parts. -/
theorem readAt_append {front bytes back : List UInt8} {offset len : ℕ}
    (hoffset : front.length = offset) (hlen : bytes.length = len) :
    readAt (front ++ bytes ++ back) offset len = some bytes := by
  rw [readAt, if_pos, List.append_assoc, List.drop_left' hoffset, List.take_left' hlen]
  rw [List.length_append, List.length_append, hoffset, hlen]
  exact Nat.le_add_right _ _

/-- The contents of the buffers. -/
abbrev Memory (ι : Type) := ι → List UInt8

variable {ι : Type}

def Memory.read (m : Memory ι) (i : ι) (len : ℕ) : Option (List UInt8) :=
  if len ≤ (m i).length then some ((m i).take len) else none

theorem Memory.read_eq {m : Memory ι} {i : ι} {len : ℕ} (hle : len ≤ (m i).length) :
    m.read i len = some ((m i).take len) := if_pos hle

variable [DecidableEq ι]

/-- A write into one of the buffers. -/
def Memory.write (m : Memory ι) (i : ι) (offset : ℕ) (bytes : List UInt8) :
    Option (Memory ι) :=
  (writeAt (m i) offset bytes).map (Function.update m i)

theorem Memory.write_eq {m : Memory ι} {i : ι} {offset : ℕ} {bytes buffer : List UInt8}
    (h : writeAt (m i) offset bytes = some buffer) :
    m.write i offset bytes = some (Function.update m i buffer) := by
  rw [Memory.write, h, Option.map_some]

/-- A write into the buffer that was written last, behind what is written already. -/
theorem Memory.write_append {m : Memory ι} {i : ι} {written buffer bytes : List UInt8}
    {offset stop : ℕ} (hoffset : written.length = offset) (hstop : offset + bytes.length = stop)
    (hle : stop ≤ buffer.length) :
    Memory.write (Function.update m i (written ++ buffer.drop offset)) i offset bytes =
      some (Function.update m i (written ++ bytes ++ buffer.drop stop)) := by
  subst hstop
  have hwrite := writeAt_append hoffset hle
  rw [Memory.write, Function.update_self, hwrite, Option.map_some, Function.update_idem]

theorem Memory.write_zero {m : Memory ι} {i : ι} {bytes : List UInt8}
    (hle : bytes.length ≤ (m i).length) :
    m.write i 0 bytes = some (Function.update m i (bytes ++ (m i).drop bytes.length)) :=
  Memory.write_eq (writeAt_zero hle)

theorem Memory.write_eq_none {m : Memory ι} {i : ι} {offset : ℕ} {bytes : List UInt8}
    (hlt : (m i).length < offset + bytes.length) : m.write i offset bytes = none := by
  rw [Memory.write, writeAt, if_neg (by omega), Option.map_none]

/-- The buffers of two memories have the same sizes. -/
def Memory.SameSizes (m t : Memory ι) : Prop := ∀ i, (t i).length = (m i).length

omit [DecidableEq ι] in
theorem Memory.SameSizes.rfl {m : Memory ι} : m.SameSizes m := fun _ => Eq.refl _

omit [DecidableEq ι] in
theorem Memory.SameSizes.trans {m t u : Memory ι} (hmt : m.SameSizes t) (htu : t.SameSizes u) :
    m.SameSizes u := fun i => (htu i).trans (hmt i)

theorem Memory.SameSizes.update {m : Memory ι} {i : ι} {buffer : List UInt8}
    (hlength : buffer.length = (m i).length) : m.SameSizes (Function.update m i buffer) := by
  intro j
  by_cases hj : j = i
  · rw [hj, Function.update_self, hlength]
  · rw [Function.update_of_ne hj]

/-- A write that stays in its buffer succeeds, whatever is written. -/
theorem Memory.write_inBounds {m : Memory ι} {i : ι} {offset : ℕ} {bytes : List UInt8}
    (hle : offset + bytes.length ≤ (m i).length) :
    ∃ t, m.write i offset bytes = some t ∧ m.SameSizes t := by
  refine ⟨_, Memory.write_eq (if_pos hle), Memory.SameSizes.update ?_⟩
  rw [List.length_append, List.length_append, List.length_take, List.length_drop]
  omega

end Blackstone.Buffers
