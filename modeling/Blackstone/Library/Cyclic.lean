import Mathlib.Data.Nat.ModEq

/-!
# Cyclic positions

The positions `(s + d) % m` that are reached from a start `s` in a cycle of `m` cells. The
first `m` distances reach every cell once.
-/

namespace Blackstone.Cyclic

theorem offset_lt {m : Nat} (hm : 0 < m) (s d : Nat) : (s + d) % m < m := Nat.mod_lt _ hm

theorem offset_injective {m s d e : Nat} (hd : d < m) (he : e < m)
    (h : (s + d) % m = (s + e) % m) : d = e := by
  have hcancel : d ≡ e [MOD m] := Nat.ModEq.add_left_cancel' s h
  rwa [Nat.ModEq, Nat.mod_eq_of_lt hd, Nat.mod_eq_of_lt he] at hcancel

theorem exists_offset {m s i : Nat} (hs : s < m) (hi : i < m) :
    ∃ d, d < m ∧ (s + d) % m = i := by
  rcases Nat.lt_or_ge i s with h | h
  · refine ⟨i + m - s, by omega, ?_⟩
    rw [show s + (i + m - s) = i + m by omega, Nat.add_mod_right, Nat.mod_eq_of_lt hi]
  · refine ⟨i - s, by omega, ?_⟩
    rw [show s + (i - s) = i by omega, Nat.mod_eq_of_lt hi]

theorem next_offset {m s d : Nat} {next : Nat → Nat} (hm : 0 < m)
    (hnext : ∀ i, i < m → next i = (i + 1) % m) :
    next ((s + d) % m) = (s + (d + 1)) % m := by
  rw [hnext _ (offset_lt hm s d), Nat.mod_add_mod, Nat.add_assoc]

theorem offset_eq_start_iff {m s d : Nat} (hs : s < m) (hd : d < m) :
    (s + (d + 1)) % m = s ↔ d + 1 = m := by
  constructor
  · intro h
    by_contra hne
    have hlt : d + 1 < m := by omega
    have h0 : (s + (d + 1)) % m = (s + 0) % m := by
      rw [h, Nat.add_zero, Nat.mod_eq_of_lt hs]
    have := offset_injective hlt (by omega) h0
    omega
  · intro h
    rw [h, Nat.add_mod_right, Nat.mod_eq_of_lt hs]

end Blackstone.Cyclic
