import Mathlib.Tactic.Common
import Mathlib.Tactic.Ring

/-!
# Square and multiply

A power is computed from the binary digits of its exponent: the running square is multiplied
into the result at every digit one (`powLoop`). The multiplication need not be exact. If it adds
exponents for all products that the loop uses (`powLoop_of_products`), or for all exponents up to
the final one (`powLoop_of_le`), then the loop computes the power. The square after the last digit
is not used.
-/

namespace Blackstone.BinaryPower

variable {α : Type} (mul : α → α → α)

/-- The result `r`, multiplied by the power of `a`. -/
def powLoop (r a : α) (e : Nat) : α :=
  if e = 0 then r
  else powLoop (if e % 2 = 1 then mul r a else r) (mul a a) (e / 2)
termination_by e

/-- The products that the result is made from. -/
def products (r a : α) (e : Nat) : List (α × α) :=
  if e = 0 then []
  else
    (if e % 2 = 1 then [(r, a)] else []) ++ (if e / 2 = 0 then [] else [(a, a)]) ++
      products (if e % 2 = 1 then mul r a else r) (mul a a) (e / 2)
termination_by e

variable {mul}

theorem powLoop_zero (r a : α) : powLoop mul r a 0 = r := by
  rw [powLoop, if_pos rfl]

theorem powLoop_of_ne_zero (r a : α) {e : Nat} (he : e ≠ 0) :
    powLoop mul r a e =
      powLoop mul (if e % 2 = 1 then mul r a else r) (mul a a) (e / 2) := by
  rw [powLoop, if_neg he]

theorem products_of_ne_zero (r a : α) {e : Nat} (he : e ≠ 0) :
    products mul r a e =
      (if e % 2 = 1 then [(r, a)] else []) ++ (if e / 2 = 0 then [] else [(a, a)]) ++
        products mul (if e % 2 = 1 then mul r a else r) (mul a a) (e / 2) := by
  rw [products, if_neg he]

/-- The exponent is split into its last digit and the rest. -/
theorem exponent_split (i j e : Nat) :
    (if e % 2 = 1 then i + j else i) + (j + j) * (e / 2) = i + j * e := by
  have he : e = 2 * (e / 2) + e % 2 := (Nat.div_add_mod e 2).symm
  rcases Nat.mod_two_eq_zero_or_one e with heven | hodd
  · rw [if_neg (by omega)]
    calc i + (j + j) * (e / 2) = i + j * (2 * (e / 2)) := by ring
      _ = i + j * e := by rw [show 2 * (e / 2) = e by omega]
  · rw [if_pos hodd]
    calc i + j + (j + j) * (e / 2) = i + j * (2 * (e / 2) + 1) := by ring
      _ = i + j * e := by rw [show 2 * (e / 2) + 1 = e by omega]

variable {Rep : α → Nat → Prop}

/-- The result after one round represents its exponent, if the product that it needs does. -/
theorem rep_round {r a : α} {i j e : Nat} (hr : Rep r i)
    (hproduct : e % 2 = 1 → Rep (mul r a) (i + j)) :
    Rep (if e % 2 = 1 then mul r a else r) (if e % 2 = 1 then i + j else i) := by
  by_cases hodd : e % 2 = 1
  · rw [if_pos hodd, if_pos hodd]
    exact hproduct hodd
  · rw [if_neg hodd, if_neg hodd]
    exact hr

/-- The loop computes the power if the first round and the rest of the loop do. After the last
digit there is no rest. -/
theorem rep_powLoop {r a : α} {i j e : Nat} (he : e ≠ 0)
    (hround : Rep (if e % 2 = 1 then mul r a else r) (if e % 2 = 1 then i + j else i))
    (hrest : e / 2 ≠ 0 → Rep (powLoop mul (if e % 2 = 1 then mul r a else r) (mul a a) (e / 2))
      ((if e % 2 = 1 then i + j else i) + (j + j) * (e / 2))) :
    Rep (powLoop mul r a e) (i + j * e) := by
  rw [powLoop_of_ne_zero r a he]
  by_cases hlast : e / 2 = 0
  · rw [hlast, powLoop_zero, ← exponent_split, hlast, Nat.mul_zero, Nat.add_zero]
    exact hround
  · rw [← exponent_split]
    exact hrest hlast

/-- The loop computes the power if the products that it uses add exponents. -/
theorem powLoop_of_products {r a : α} {i j e : Nat}
    (hmul : ∀ p ∈ products mul r a e, ∀ i j, Rep p.1 i → Rep p.2 j → Rep (mul p.1 p.2) (i + j))
    (hr : Rep r i) (ha : Rep a j) : Rep (powLoop mul r a e) (i + j * e) := by
  induction e using Nat.strongRecOn generalizing r a i j with
  | ind e ih =>
    by_cases he : e = 0
    · rw [he, powLoop_zero, Nat.mul_zero, Nat.add_zero]
      exact hr
    · rw [products_of_ne_zero r a he] at hmul
      have hround : Rep (if e % 2 = 1 then mul r a else r) (if e % 2 = 1 then i + j else i) := by
        apply rep_round hr
        intro hodd
        refine hmul (r, a) ?_ i j hr ha
        rw [if_pos hodd]
        exact List.mem_cons_self
      apply rep_powLoop he hround
      intro hlast
      refine ih (e / 2) (by omega) (fun p hp => ?_) hround ?_
      · exact hmul p (List.mem_append_right _ hp)
      · refine hmul (a, a) (List.mem_append_left _ (List.mem_append_right _ ?_)) j j ha ha
        rw [if_neg hlast]
        exact List.mem_cons_self

/-- The loop computes the power if products add exponents up to the final one. -/
theorem powLoop_of_le {N : Nat}
    (hmul : ∀ x y i j, Rep x i → Rep y j → i + j ≤ N → Rep (mul x y) (i + j))
    {r a : α} {i j e : Nat} (hr : Rep r i) (ha : Rep a j) (hN : i + j * e ≤ N) :
    Rep (powLoop mul r a e) (i + j * e) := by
  induction e using Nat.strongRecOn generalizing r a i j with
  | ind e ih =>
    by_cases he : e = 0
    · rw [he, powLoop_zero, Nat.mul_zero, Nat.add_zero]
      exact hr
    · have hround : Rep (if e % 2 = 1 then mul r a else r) (if e % 2 = 1 then i + j else i) := by
        apply rep_round hr
        intro _
        have hle : j ≤ j * e := Nat.le_mul_of_pos_right j (Nat.pos_of_ne_zero he)
        exact hmul r a i j hr ha (by omega)
      apply rep_powLoop he hround
      intro hlast
      rw [← exponent_split] at hN
      refine ih (e / 2) (by omega) hround (hmul a a j j ha ha ?_) hN
      have hle : j + j ≤ (j + j) * (e / 2) :=
        Nat.le_mul_of_pos_right _ (Nat.pos_of_ne_zero hlast)
      omega

end Blackstone.BinaryPower
