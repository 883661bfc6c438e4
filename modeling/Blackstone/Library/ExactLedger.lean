import Mathlib.Data.Finset.Card
import Mathlib.Logic.Function.Basic

/-!
# Exact ledgers

A sheet assigns a natural number to every account and knows which accounts are open. Both
operations are partial: a withdrawal needs the money, a deposit needs an open account or
the right to open one, and a balance that stays below a bound. A sheet that carries out a
list of transfers has therefore never overdrawn or wrapped a balance.
-/

namespace Blackstone.ExactLedger

variable {K : Type}

/-- Balances over the naturals; only an open account holds money. -/
structure Sheet (K : Type) where
  balance : K → Nat
  accounts : Finset K
  closed : ∀ k, k ∉ accounts → balance k = 0

theorem Sheet.ext_of {s t : Sheet K} (hbalance : ∀ k, s.balance k = t.balance k)
    (haccounts : s.accounts = t.accounts) : s = t := by
  cases s
  cases t
  simp only [Sheet.mk.injEq]
  exact ⟨funext hbalance, haccounts⟩

variable [DecidableEq K]

def Sheet.debited (s : Sheet K) (k : K) (n : Nat) : Sheet K where
  balance := Function.update s.balance k (s.balance k - n)
  accounts := s.accounts
  closed := by
    intro k' hk'
    by_cases heq : k' = k
    · rw [heq, Function.update_self, s.closed k (heq ▸ hk'), Nat.zero_sub]
    · rw [Function.update_of_ne heq, s.closed k' hk']

def Sheet.credited (s : Sheet K) (k : K) (n : Nat) : Sheet K where
  balance := Function.update s.balance k (s.balance k + n)
  accounts := insert k s.accounts
  closed := by
    intro k' hk'
    rw [Finset.mem_insert, not_or] at hk'
    rw [Function.update_of_ne hk'.1, s.closed k' hk'.2]

/-- There is an account for `k`, or one can be opened. -/
def Sheet.CanOpen (s : Sheet K) (limit : Nat) (k : K) : Prop :=
  k ∈ s.accounts ∨ s.accounts.card < limit

instance (s : Sheet K) (limit : Nat) (k : K) : Decidable (s.CanOpen limit k) :=
  inferInstanceAs (Decidable (_ ∨ _))

/-- Takes `n` from an account that covers it. -/
def Sheet.withdraw (s : Sheet K) (k : K) (n : Nat) : Option (Sheet K) :=
  if n ≤ s.balance k then some (s.debited k n) else none

/-- Adds `n` to an account, opening it if need be. -/
def Sheet.deposit (bound limit : Nat) (s : Sheet K) (k : K) (n : Nat) : Option (Sheet K) :=
  if s.CanOpen limit k ∧ s.balance k + n < bound then some (s.credited k n) else none

/-- One party pays, another one receives. -/
def Sheet.transfer (bound limit : Nat) (s : Sheet K) (payer payee : K) (paid received : Nat) :
    Option (Sheet K) :=
  (s.withdraw payer paid).bind fun s' => s'.deposit bound limit payee received

/-- A transfer between two accounts goes through exactly when the payer covers it and the
payee can take it. -/
theorem Sheet.transfer_eq {bound limit : Nat} {s : Sheet K} {payer payee : K}
    (hne : payer ≠ payee) (paid received : Nat) :
    s.transfer bound limit payer payee paid received =
      if paid ≤ s.balance payer ∧ s.CanOpen limit payee ∧ s.balance payee + received < bound then
        some ((s.debited payer paid).credited payee received)
      else none := by
  have hbalance : (s.debited payer paid).balance payee = s.balance payee :=
    Function.update_of_ne hne.symm _ _
  unfold Sheet.transfer Sheet.withdraw
  by_cases hpaid : paid ≤ s.balance payer
  · rw [if_pos hpaid, Option.bind_some, Sheet.deposit, hbalance]
    exact if_congr ⟨fun h => ⟨hpaid, h⟩, fun h => h.2⟩ rfl rfl
  · rw [if_neg hpaid, Option.bind_none, if_neg (fun h => hpaid h.1)]

end Blackstone.ExactLedger
