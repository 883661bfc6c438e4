import Blackstone.Balance.Cache
import Blackstone.Library.ExactLedger

/-!
# The balance cache as an exact ledger

`sheetOf` reads the table as a sheet of natural numbers. An update by a negated amount is
a withdrawal as long as the balance covers it (`sheetOf_debit`), an update by an amount is
a deposit as long as the table has room and the balance stays below `2^64`
(`sheetOf_credit`). The remaining lemmas follow a balance and the total of a token through
such an update.
-/

namespace Blackstone.Balance

open ExactLedger

variable {A : Type} [DecidableEq A] {hash : A → UInt32 → UInt32} {cache : BalanceCache A}

/-- The balances of a table, with the stored keys as accounts. -/
def sheetOf (h : CacheOk hash cache) : Sheet (Key A) where
  balance k := (cacheGet hash cache k.1 k.2).toNat
  accounts := keys cache
  closed k hk := by
    rw [h.cacheGet_of_notMem hk, UInt64.toNat_zero]

theorem sheetOf_congr {cache' : BalanceCache A} (h : CacheOk hash cache)
    (h' : CacheOk hash cache') (heq : cache = cache') : sheetOf h = sheetOf h' := by
  subst heq
  rfl

theorem mem_keys_of_balance (h : CacheOk hash cache) {a : A} {t : UInt32}
    (hpos : 0 < (cacheGet hash cache a t).toNat) : (a, t) ∈ keys cache := by
  by_contra hno
  rw [h.cacheGet_of_notMem hno, UInt64.toNat_zero] at hpos
  exact absurd hpos (Nat.lt_irrefl 0)

theorem toNat_add_neg {balance amount : UInt64} (h : amount.toNat ≤ balance.toNat) :
    (balance + -amount).toNat = balance.toNat - amount.toNat := by
  rw [← UInt64.sub_eq_add_neg]
  exact UInt64.toNat_sub_of_le _ _ (UInt64.le_iff_toNat_le.mpr h)

theorem toNat_add_of_lt {balance amount : UInt64}
    (h : balance.toNat + amount.toNat < 2 ^ 64) :
    (balance + amount).toNat = balance.toNat + amount.toNat := by
  rw [UInt64.toNat_add]
  exact Nat.mod_eq_of_lt h

/-- A covered debit takes its amount from the balance. -/
theorem CacheOk.toNat_debit (h : CacheOk hash cache) {a : A} {t : UInt32} {amount : UInt64}
    (hle : amount.toNat ≤ (cacheGet hash cache a t).toNat) :
    (cacheGet hash (cacheUpdate hash cache a t (-amount)) a t).toNat =
      (cacheGet hash cache a t).toNat - amount.toNat := by
  by_cases hroom : HasRoom cache (a, t)
  · rw [h.cacheGet_update_self hroom, toNat_add_neg hle]
  · -- without an entry the balance is zero, so the amount is zero too
    have hzero : cacheGet hash cache a t = 0 :=
      h.cacheGet_of_notMem fun hmem => hroom (HasRoom.of_mem hmem)
    rw [h.cacheUpdate_of_noRoom hroom, hzero, UInt64.toNat_zero, Nat.zero_sub]

/-- An update changes the balance of its key only. -/
theorem balance_sheetOf_update (h : CacheOk hash cache) (a : A) (t : UInt32) (delta : UInt64)
    (k : Key A) :
    (sheetOf (h.update a t delta)).balance k = Function.update (sheetOf h).balance (a, t)
      (cacheGet hash (cacheUpdate hash cache a t delta) a t).toNat k := by
  by_cases hk : k = (a, t)
  · subst hk
    exact (Function.update_self (a, t) _ (sheetOf h).balance).symm
  · have hframe := h.cacheGet_update_of_ne hk delta
    exact (congrArg UInt64.toNat hframe).trans
      (Function.update_of_ne hk _ (sheetOf h).balance).symm

theorem sheetOf_debit (h : CacheOk hash cache) {a : A} {t : UInt32} {amount : UInt64}
    (hpos : 0 < amount.toNat) (hle : amount.toNat ≤ (cacheGet hash cache a t).toNat) :
    sheetOf (h.update a t (-amount)) = (sheetOf h).debited (a, t) amount.toNat := by
  have hmem := mem_keys_of_balance h (lt_of_lt_of_le hpos hle)
  apply Sheet.ext_of
  · intro k
    rw [balance_sheetOf_update, h.toNat_debit hle]
    rfl
  · exact (h.keys_update a t (-amount)).trans
      (by rw [if_pos (HasRoom.of_mem hmem), Finset.insert_eq_of_mem hmem]; rfl)

theorem sheetOf_credit (h : CacheOk hash cache) {a : A} {t : UInt32} {amount : UInt64}
    (hroom : HasRoom cache (a, t))
    (hlt : (cacheGet hash cache a t).toNat + amount.toNat < 2 ^ 64) :
    sheetOf (h.update a t amount) = (sheetOf h).credited (a, t) amount.toNat := by
  apply Sheet.ext_of
  · intro k
    rw [balance_sheetOf_update, h.cacheGet_update_self hroom amount, toNat_add_of_lt hlt]
    rfl
  · exact (h.keys_update a t amount).trans (by rw [if_pos hroom]; rfl)

/-! ## The total of a token -/

/-- The total of a token follows the balance of the updated key. -/
theorem CacheOk.total_of_balance (h : CacheOk hash cache) {a : A} {t : UInt32} {delta : UInt64}
    {lost gained : Nat}
    (hbalance : (cacheGet hash (cacheUpdate hash cache a t delta) a t).toNat + lost =
      (cacheGet hash cache a t).toNat + gained) (u : UInt32) :
    totalBalance (cacheUpdate hash cache a t delta) u + (if t = u then lost else 0) =
      totalBalance cache u + if t = u then gained else 0 := by
  have htotal := h.total_cacheUpdate a t delta u
  unfold share at htotal
  by_cases htu : t = u
  · simp only [if_pos htu] at htotal ⊢
    omega
  · simp only [if_neg htu] at htotal ⊢
    exact htotal

/-- A covered debit lowers the total of its token by the amount. -/
theorem CacheOk.total_debit (h : CacheOk hash cache) {a : A} {t : UInt32} {amount : UInt64}
    (hle : amount.toNat ≤ (cacheGet hash cache a t).toNat) (u : UInt32) :
    totalBalance cache u = totalBalance (cacheUpdate hash cache a t (-amount)) u +
      if t = u then amount.toNat else 0 := by
  have hself : (cacheGet hash (cacheUpdate hash cache a t (-amount)) a t).toNat +
      amount.toNat = (cacheGet hash cache a t).toNat + 0 := by
    rw [h.toNat_debit hle, Nat.sub_add_cancel hle, Nat.add_zero]
  have htotal := h.total_of_balance hself u
  rw [ite_self, Nat.add_zero] at htotal
  exact htotal.symm

/-- A credit raises the total of its token by at most the amount. -/
theorem CacheOk.total_credit_le (h : CacheOk hash cache) (a : A) (t : UInt32)
    (amount : UInt64) (u : UInt32) :
    totalBalance (cacheUpdate hash cache a t amount) u ≤
      totalBalance cache u + if t = u then amount.toNat else 0 := by
  have hself : (cacheGet hash (cacheUpdate hash cache a t amount) a t).toNat ≤
      (cacheGet hash cache a t).toNat + amount.toNat := by
    by_cases hroom : HasRoom cache (a, t)
    · rw [h.cacheGet_update_self hroom, UInt64.toNat_add]
      exact Nat.mod_le _ _
    · rw [h.cacheUpdate_of_noRoom hroom]
      exact Nat.le_add_right _ _
  rw [← h.total_of_balance (Nat.add_sub_cancel' hself) u]
  exact Nat.le_add_right _ _

/-- A credit raises the total of its token by the amount when the table has room and the
balance does not wrap. -/
theorem CacheOk.total_credit (h : CacheOk hash cache) {a : A} {t : UInt32} {amount : UInt64}
    (hroom : HasRoom cache (a, t))
    (hlt : (cacheGet hash cache a t).toNat + amount.toNat < 2 ^ 64) (u : UInt32) :
    totalBalance (cacheUpdate hash cache a t amount) u =
      totalBalance cache u + if t = u then amount.toNat else 0 := by
  have hself : (cacheGet hash (cacheUpdate hash cache a t amount) a t).toNat + 0 =
      (cacheGet hash cache a t).toNat + amount.toNat := by
    rw [h.cacheGet_update_self hroom, toNat_add_of_lt hlt, Nat.add_zero]
  have htotal := h.total_of_balance hself u
  rwa [ite_self, Nat.add_zero] at htotal

end Blackstone.Balance
