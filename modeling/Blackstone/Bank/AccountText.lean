import Blackstone.Bank.Account
import Blackstone.Bank.AmountText
import Blackstone.Library.DelimitedRecords

/-!
# The text form of an account

`BankAccount::serialize` and `BankAccount::deserialize` of `account.cpp`. The transactions of the
account follow its fixed fields, behind the same delimiter, and the balances go through a stream
and lose all but six digits. An account is read back exactly when it is `Restorable`
(`deserialize_serialize_iff`).
-/

namespace Blackstone.Bank

open Delimited SignificantDigits

namespace BankAccount

/-- A boolean written to a stream. -/
def flagText (b : Bool) : Str := if b then ascii "1" else ascii "0"

/-- `BankAccount::serialize`. -/
def serialize (account : BankAccount) : Str :=
  join bar ([account.accountId, account.ownerId, printDouble account.balance,
    printDouble account.frozenBalance, account.accountType, flagText account.isFrozen,
    decimal account.createdAt.toNat, decimal account.lastTransactionAt.toNat, account.publicKey,
    account.encryptedPrivateKey] ++ account.transactionHistory)

/-- `BankAccount::deserialize`, `none` when a number cannot be read. -/
def deserialize (data : Str) : Option BankAccount :=
  let accountId := getline bar data
  let ownerId := getline bar accountId.2
  let balStr := getline bar ownerId.2
  let fbalStr := getline bar balStr.2
  let accountType := getline bar fbalStr.2
  let frozenStr := getline bar accountType.2
  let createdStr := getline bar frozenStr.2
  let lastStr := getline bar createdStr.2
  let publicKey := getline bar lastStr.2
  let encryptedPrivateKey := getline bar publicKey.2
  let history := getlines bar encryptedPrivateKey.2.length encryptedPrivateKey.2
  match stod balStr.1, stod fbalStr.1, stoull createdStr.1, stoull lastStr.1 with
  | some balance, some frozenBalance, some createdAt, some lastTransactionAt =>
    some
      { accountId := accountId.1
        ownerId := ownerId.1
        balance := balance
        frozenBalance := frozenBalance
        accountType := accountType.1
        isFrozen := frozenStr.1 = ascii "1"
        createdAt := createdAt
        lastTransactionAt := lastTransactionAt
        transactionHistory := history.filter (· ≠ [])
        publicKey := publicKey.1
        encryptedPrivateKey := encryptedPrivateKey.1 }
  | _, _, _, _ => none

/-- The strings of an account are free of delimiters. -/
structure BarFree (account : BankAccount) : Prop where
  accountId : bar ∉ account.accountId
  ownerId : bar ∉ account.ownerId
  accountType : bar ∉ account.accountType
  publicKey : bar ∉ account.publicKey
  encryptedPrivateKey : bar ∉ account.encryptedPrivateKey
  transactionHistory : ∀ txId ∈ account.transactionHistory, bar ∉ txId

/-- An account that is read back as it was written. -/
structure Restorable (account : BankAccount) : Prop extends account.BarFree where
  entries : ∀ txId ∈ account.transactionHistory, txId ≠ []
  balance : HasDigits 5 account.balance
  frozenBalance : HasDigits 5 account.frozenBalance

/-- An account after its balances have gone through a stream, without its empty entries. -/
def rounded (account : BankAccount) : BankAccount :=
  { account with
    balance := roundSignificant 5 account.balance
    frozenBalance := roundSignificant 5 account.frozenBalance
    transactionHistory := account.transactionHistory.filter (· ≠ []) }

theorem bar_not_mem_flagText (b : Bool) : bar ∉ flagText b := by
  cases b <;> decide

theorem flagText_eq_one (b : Bool) : decide (flagText b = ascii "1") = b := by
  cases b <;> decide

/-- What is read from an account without delimiters in its strings. -/
theorem BarFree.deserialize_serialize {account : BankAccount} (h : account.BarFree) :
    deserialize account.serialize = some account.rounded := by
  simp only [deserialize, serialize, List.cons_append, List.nil_append, getline_join h.accountId,
    getline_join h.ownerId, getline_join (bar_not_mem_printDouble _), getline_join h.accountType,
    getline_join (bar_not_mem_flagText _), getline_join (bar_not_mem_decimal _),
    getline_join h.publicKey, getline_join h.encryptedPrivateKey, stod_printDouble, stoull_decimal,
    flagText_eq_one]
  rw [filter_getlines_join h.transactionHistory le_rfl]
  rfl

/-- What is read has no delimiters in its strings and no empty entries. -/
theorem barFree_of_deserialize {data : Str} {account : BankAccount}
    (h : deserialize data = some account) :
    account.BarFree ∧ ∀ txId ∈ account.transactionHistory, txId ≠ [] := by
  unfold deserialize at h
  simp only at h
  split at h
  · cases h
    refine ⟨⟨not_mem_getline _, not_mem_getline _, not_mem_getline _, not_mem_getline _,
      not_mem_getline _, ?_⟩, ?_⟩
    · intro txId hmem
      exact not_mem_of_mem_getlines (List.mem_of_mem_filter hmem)
    · intro txId hmem
      exact of_decide_eq_true (List.mem_filter.mp hmem).2
  · cases h

theorem rounded_eq_self_iff (account : BankAccount) :
    account.rounded = account ↔
      HasDigits 5 account.balance ∧ HasDigits 5 account.frozenBalance ∧
        ∀ txId ∈ account.transactionHistory, txId ≠ [] := by
  rw [← roundSignificant_eq_self_iff, ← roundSignificant_eq_self_iff]
  constructor
  · intro hsame
    refine ⟨congrArg BankAccount.balance hsame, congrArg BankAccount.frozenBalance hsame, ?_⟩
    have hhistory : account.transactionHistory.filter (· ≠ []) = account.transactionHistory :=
      congrArg BankAccount.transactionHistory hsame
    intro txId hmem
    exact of_decide_eq_true (List.filter_eq_self.mp hhistory txId hmem)
  · rintro ⟨hbalance, hfrozen, hentries⟩
    have hhistory : account.transactionHistory.filter (· ≠ []) = account.transactionHistory :=
      List.filter_eq_self.mpr fun txId hmem => decide_eq_true (hentries txId hmem)
    rw [rounded, hbalance, hfrozen, hhistory]

/-- An account is read back from its text form exactly when its strings have no delimiters, its
history has no empty entries and its balances have at most six significant digits. -/
theorem deserialize_serialize_iff (account : BankAccount) :
    deserialize account.serialize = some account ↔ account.Restorable := by
  constructor
  · intro hread
    obtain ⟨hclean, hentries⟩ := barFree_of_deserialize hread
    have hsame : account.rounded = account :=
      Option.some.inj (hclean.deserialize_serialize.symm.trans hread)
    obtain ⟨hbalance, hfrozen, -⟩ := (rounded_eq_self_iff account).mp hsame
    exact ⟨hclean, hentries, hbalance, hfrozen⟩
  · intro h
    rw [h.toBarFree.deserialize_serialize,
      (rounded_eq_self_iff account).mpr ⟨h.balance, h.frozenBalance, h.entries⟩]

end BankAccount

end Blackstone.Bank
