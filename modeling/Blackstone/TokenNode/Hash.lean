import Blackstone.TokenNode.Types
import Mathlib.Algebra.Group.Nat.Defs

/-!
# The hash of the token node

`hash.c`: two multiplicative 64-bit hashes over the bytes, written in little-endian order
and stretched to `HASH_LEN` bytes.

Both rounds multiply by an odd constant, so a round can be undone: two inputs that end in
the same bytes have the same digest exactly when they drive the states alike before those
bytes (`hashCompute_append_inj`).

The hash of a block covers several thousand bytes. `digestNat` computes it on natural
numbers, forcing the state after every byte, so that a concrete digest can be evaluated;
`hashCompute_eq` connects the two.
-/

namespace Blackstone.TokenNode

/-- The `n` little-endian bytes of a machine integer. -/
def leBytes (n x : Nat) : List UInt8 :=
  (List.range n).map (fun i => UInt8.ofNat (x / 2 ^ (8 * i)))

@[simp] theorem length_leBytes (n x : Nat) : (leBytes n x).length = n := by
  simp [leBytes]

/-- The initial value of both states. -/
def hashInit : UInt64 := 0xcbf29ce484222325

/-- One round of the byte loop, on the pair of states `h1`, `h2`. -/
def hashStep (h : UInt64 × UInt64) (b : UInt8) : UInt64 × UInt64 :=
  ((h.1 ^^^ b.toUInt64) * 0x100000001b3,
    (h.2 ^^^ (b.toUInt64 + 0x9e3779b97f4a7c15)) * 0xbf58476d1ce4e5b9)

/-- Both states in memory, followed by `out[i] = out[i - 16] ^ out[i - 8]`. -/
def hashOut (h : Nat × Nat) : Hash :=
  ⟨(List.range 16).foldl (fun out i => out.set! (i + 16) (out[i]! ^^^ out[i + 8]!))
    ⟨(leBytes 8 h.1 ++ leBytes 8 h.2 ++ List.replicate 16 0).toArray, by simp⟩⟩

/-- `hash_compute`. Irreducible, so that no proof evaluates it by accident. -/
@[irreducible] def hashCompute (data : List UInt8) : Hash :=
  let h := data.foldl hashStep (hashInit, hashInit)
  hashOut (h.1.toNat, h.2.toNat)

/-! ## Rounds can be undone -/

theorem mul_right_cancel_of_inv {p a b : UInt64} (q : UInt64) (hinv : p * q = 1)
    (h : a * p = b * p) : a = b := by
  have hmul : a * p * q = b * p * q := by rw [h]
  rwa [UInt64.mul_assoc, UInt64.mul_assoc, hinv, UInt64.mul_one, UInt64.mul_one] at hmul

theorem hashStep_inj {g h : UInt64 × UInt64} (b : UInt8) (heq : hashStep g b = hashStep h b) :
    g = h := by
  obtain ⟨h1, h2⟩ := Prod.mk.inj heq
  have hfst := mul_right_cancel_of_inv 0xce965057aff6957b (by decide) h1
  have hsnd := mul_right_cancel_of_inv 0x96de1b173f119089 (by decide) h2
  exact Prod.ext ((UInt64.xor_left_inj _).mp hfst) ((UInt64.xor_left_inj _).mp hsnd)

theorem foldl_hashStep_inj (data : List UInt8) {g h : UInt64 × UInt64}
    (heq : data.foldl hashStep g = data.foldl hashStep h) : g = h := by
  induction data generalizing g h with
  | nil => exact heq
  | cons b data ih => exact hashStep_inj b (ih heq)

/-- A number is determined by its low bytes, up to what is above them. -/
theorem mod_eq_of_leBytes_eq {n x y : Nat} (heq : leBytes n x = leBytes n y) :
    x % 2 ^ (8 * n) = y % 2 ^ (8 * n) := by
  rw [Nat.pow_mul]
  induction n with
  | zero => rw [Nat.pow_zero, Nat.mod_one, Nat.mod_one]
  | succ n ih =>
    rw [leBytes, leBytes, List.range_succ, List.map_append, List.map_append] at heq
    obtain ⟨hlow, hlast⟩ := List.append_inj heq (by simp)
    have hbyte := congrArg UInt8.toNat (List.singleton_inj.mp hlast)
    rw [UInt8.toNat_ofNat', UInt8.toNat_ofNat', Nat.pow_mul] at hbyte
    rw [@Nat.mod_pow_succ x, @Nat.mod_pow_succ y, ih hlow, hbyte]

theorem leBytes_inj {x y : Nat} (hx : x < 2 ^ 64) (hy : y < 2 ^ 64)
    (heq : leBytes 8 x = leBytes 8 y) : x = y := by
  have hmod := mod_eq_of_leBytes_eq heq
  rwa [Nat.mod_eq_of_lt hx, Nat.mod_eq_of_lt hy] at hmod

/-- The stretching loop leaves the first 16 bytes alone. -/
theorem stretch_getElem (rounds : List Nat) (out : Vector UInt8 32) (j : Nat) (hj : j < 16) :
    (rounds.foldl (fun out i => out.set! (i + 16) (out[i]! ^^^ out[i + 8]!)) out)[j] =
      out[j] := by
  induction rounds generalizing out with
  | nil => rfl
  | cons i rounds ih =>
    rw [List.foldl_cons, ih, Vector.getElem_set!_ne (by omega) (by omega)]

theorem hashOut_inj {g h : Nat × Nat} (hg : g.1 < 2 ^ 64 ∧ g.2 < 2 ^ 64)
    (hh : h.1 < 2 ^ 64 ∧ h.2 < 2 ^ 64) (heq : hashOut g = hashOut h) : g = h := by
  have hbytes : leBytes 8 g.1 ++ leBytes 8 g.2 = leBytes 8 h.1 ++ leBytes 8 h.2 := by
    apply List.ext_getElem
    · simp
    · intro j hj hj'
      have hlt : j < 16 := by simpa using hj
      have hget := congrArg (fun out : Hash => out.bytes[j]) heq
      simp only [hashOut, stretch_getElem _ _ j hlt] at hget
      rwa [Vector.getElem_mk, Vector.getElem_mk, List.getElem_toArray, List.getElem_toArray,
        List.getElem_append_left hj, List.getElem_append_left hj'] at hget
  obtain ⟨h1, h2⟩ := List.append_inj hbytes (by simp)
  exact Prod.ext (leBytes_inj hg.1 hh.1 h1) (leBytes_inj hg.2 hh.2 h2)

/-- The states after the bytes of a digest. -/
def absorbDigest (h : Hash) : UInt64 × UInt64 :=
  h.bytes.toList.foldl hashStep (hashInit, hashInit)

theorem hashCompute_append_inj (xs ys data : List UInt8) :
    hashCompute (xs ++ data) = hashCompute (ys ++ data) ↔
      xs.foldl hashStep (hashInit, hashInit) = ys.foldl hashStep (hashInit, hashInit) := by
  unfold hashCompute
  rw [List.foldl_append, List.foldl_append]
  constructor
  · intro heq
    have hout := hashOut_inj ⟨UInt64.toNat_lt _, UInt64.toNat_lt _⟩
      ⟨UInt64.toNat_lt _, UInt64.toNat_lt _⟩ heq
    obtain ⟨h1, h2⟩ := Prod.mk.inj hout
    exact foldl_hashStep_inj data (Prod.ext (UInt64.toNat_inj.mp h1) (UInt64.toNat_inj.mp h2))
  · intro heq
    rw [heq]

/-! ## Evaluation -/

/-- `k n`, with `n` evaluated first. -/
def forced {α : Type} (n : Nat) (k : Nat → α) : α :=
  match n with
  | 0 => k 0
  | m + 1 => k (m + 1)

theorem forced_eq {α : Type} (n : Nat) (k : Nat → α) : forced n k = k n := by
  cases n <;> rfl

/-- The byte loop on natural numbers below `2^64`. -/
def digestNat : List UInt8 → Nat → Nat → Nat × Nat
  | [], h1, h2 => (h1, h2)
  | b :: data, h1, h2 =>
    forced ((h1 ^^^ b.toNat) * 0x100000001b3 % 2 ^ 64) fun h1' =>
      forced ((h2 ^^^ (b.toNat + 0x9e3779b97f4a7c15)) * 0xbf58476d1ce4e5b9 % 2 ^ 64)
        fun h2' => digestNat data h1' h2'

theorem digestNat_eq (data : List UInt8) (h1 h2 : UInt64) :
    digestNat data h1.toNat h2.toNat =
      ((data.foldl hashStep (h1, h2)).1.toNat, (data.foldl hashStep (h1, h2)).2.toNat) := by
  induction data generalizing h1 h2 with
  | nil => rfl
  | cons b data ih =>
    have hbyte := b.toNat_lt
    have hword : (b.toUInt64 + 0x9e3779b97f4a7c15).toNat =
        b.toNat + 0x9e3779b97f4a7c15 := by
      rw [UInt64.toNat_add, UInt8.toNat_toUInt64]
      exact Nat.mod_eq_of_lt (by change b.toNat + 0x9e3779b97f4a7c15 < 2 ^ 64; omega)
    have h1' : (hashStep (h1, h2) b).1.toNat =
        (h1.toNat ^^^ b.toNat) * 0x100000001b3 % 2 ^ 64 := by
      rw [hashStep, UInt64.toNat_mul, UInt64.toNat_xor, UInt8.toNat_toUInt64]
      rfl
    have h2' : (hashStep (h1, h2) b).2.toNat =
        (h2.toNat ^^^ (b.toNat + 0x9e3779b97f4a7c15)) * 0xbf58476d1ce4e5b9 % 2 ^ 64 := by
      rw [hashStep, UInt64.toNat_mul, UInt64.toNat_xor, hword]
      rfl
    rw [digestNat, forced_eq, forced_eq, ← h1', ← h2', List.foldl_cons]
    exact ih _ _

theorem hashCompute_eq (data : List UInt8) :
    hashCompute data = hashOut (digestNat data hashInit.toNat hashInit.toNat) := by
  unfold hashCompute
  rw [digestNat_eq]

end Blackstone.TokenNode
