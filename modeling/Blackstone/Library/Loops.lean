import Mathlib.Data.List.Basic
import Mathlib.Tactic.Common

/-!
# Loops whose rounds can fail

`loop more body fuel` runs `body` while `more` holds. It fails when a round fails, and when there
is more to do after `fuel` rounds. `loop_spec` is the rule of total correctness: an invariant that
every round keeps, and a measure that every round lowers. `foldlM_range_spec` is the rule of a
loop that counts. `foldl_gathers_iff` is the rule of a loop that compares to the end and gathers
whether something differs.
-/

namespace Blackstone.Loops

variable {S : Type}

/-- A loop of at most `fuel` rounds. -/
def loop (more : S → Bool) (body : S → Option S) : ℕ → S → Option S
  | 0, s => if more s then none else some s
  | fuel + 1, s => if more s then (body s).bind (loop more body fuel) else some s

/-- A loop whose rounds keep an invariant and lower a measure ends with the invariant. -/
theorem loop_spec {more : S → Bool} {body : S → Option S} (Inv : S → Prop) (measure : S → ℕ)
    (hround : ∀ s, Inv s → more s = true →
      ∃ t, body s = some t ∧ Inv t ∧ measure t < measure s)
    (fuel : ℕ) (s : S) (hfuel : measure s ≤ fuel) (hinv : Inv s) :
    ∃ t, loop more body fuel s = some t ∧ Inv t ∧ more t = false := by
  induction fuel generalizing s with
  | zero =>
    rw [loop]
    split_ifs with hmore
    · obtain ⟨t, -, -, hlt⟩ := hround s hinv hmore
      omega
    · exact ⟨s, rfl, hinv, by simpa using hmore⟩
  | succ fuel ih =>
    rw [loop]
    split_ifs with hmore
    · obtain ⟨t, hbody, ht, hlt⟩ := hround s hinv hmore
      rw [hbody, Option.bind_some]
      exact ih t (by omega) ht
    · exact ⟨s, rfl, hinv, by simpa using hmore⟩

/-- A loop that counts from 0 keeps an invariant that says how far it is. -/
theorem foldlM_range_spec {body : S → ℕ → Option S} (Inv : ℕ → S → Prop) {n : ℕ}
    (hround : ∀ i < n, ∀ s, Inv i s → ∃ t, body s i = some t ∧ Inv (i + 1) t) {s : S}
    (hinv : Inv 0 s) : ∃ t, (List.range n).foldlM body s = some t ∧ Inv n t := by
  induction n with
  | zero => exact ⟨s, rfl, hinv⟩
  | succ n ih =>
    obtain ⟨t, hrun, ht⟩ := ih (fun i hi => hround i (Nat.lt_succ_of_lt hi))
    obtain ⟨u, hbody, hu⟩ := hround n (Nat.lt_succ_self n) t ht
    refine ⟨u, ?_, hu⟩
    rw [List.range_succ, List.foldlM_append, hrun, Option.bind_eq_bind, Option.bind_some,
      List.foldlM_cons, hbody, Option.bind_eq_bind, Option.bind_some]
    rfl

/-- When the result of a round is good exactly if the one before was and the index passes, the
result of the loop is good exactly if the first was and all indices pass. -/
theorem foldl_gathers_iff {I : Type} {body : S → I → S} (Good : S → Prop) {Passes : I → Prop}
    (hround : ∀ s i, Good (body s i) ↔ Good s ∧ Passes i) (indices : List I) (s : S) :
    Good (indices.foldl body s) ↔ Good s ∧ ∀ i ∈ indices, Passes i := by
  induction indices generalizing s with
  | nil => simp
  | cons i indices ih => rw [List.foldl_cons, ih, hround, List.forall_mem_cons, and_assoc]

end Blackstone.Loops
