import Blackstone.Bank.Account
import Blackstone.Library.Answers
import Blackstone.Library.OwnerLists

/-!
# The register of accounts

The rest of `AccountManager` in `account.cpp`. The manager keeps its accounts in a map and the
ids of every owner in a list; `getAccountsByOwner` looks the ids up with `accounts.at`, which
throws for an id that the map does not have. What the manager is for is a plain list of accounts
in the order in which they were opened (`registerAnswer`), and it answers every sequence of
requests as that list does (`managerAnswers_eq`).
-/

namespace Blackstone.Bank

open Answers DefaultMap OwnerLists

/-! ## The remaining requests -/

namespace AccountManager

/-- `AccountManager::deleteAccount`. -/
def deleteAccount (manager : AccountManager) (accountId : Str) : Bool × AccountManager :=
  match manager.accounts.lookup accountId with
  | none => (false, manager)
  | some account =>
    (true,
      { accounts := manager.accounts.erase accountId
        ownerToAccounts :=
          modifyAt manager.ownerToAccounts account.ownerId (·.filter (· ≠ accountId)) })

/-- `AccountManager::getAccount`. -/
def getAccount (manager : AccountManager) (accountId : Str) : BankAccount :=
  (manager.accounts.lookup accountId).getD AccountConstructor.plain.account

/-- `AccountManager::getAccountsByOwner`, `none` when it throws. -/
def getAccountsByOwner (manager : AccountManager) (ownerId : Str) : Option (List BankAccount) :=
  gather manager.accounts manager.ownerToAccounts ownerId

/-- `AccountManager::getAccountCount`. -/
def getAccountCount (manager : AccountManager) : Nat := manager.accounts.keys.card

/-- `AccountManager::accountExists`. -/
def accountExists (manager : AccountManager) (accountId : Str) : Bool :=
  (manager.accounts.lookup accountId).isSome

end AccountManager

/-- A request to the manager, with the readings of the clock. -/
inductive AccountRequest where
  | createAccount (accountId ownerId publicKey : Str) (createdAt lastTransactionAt : UInt64)
  | deleteAccount (accountId : Str)
  | updateBalance (accountId : Str) (amount : ℚ) (now : UInt64)
  | freezeAccount (accountId : Str)
  | unfreezeAccount (accountId : Str)
  | getAccount (accountId : Str)
  | getAccountsByOwner (ownerId : Str)
  | getAccountCount
  | accountExists (accountId : Str)

/-- What a request gives back. -/
inductive AccountAnswer where
  | flag (b : Bool)
  | account (account : BankAccount)
  | accounts (accounts : Option (List BankAccount))
  | count (n : Nat)

/-- A call that answers with a flag. -/
def flagged {S : Type} (result : Bool × S) : AccountAnswer × S := (.flag result.1, result.2)

/-- The manager answers a request. -/
def managerAnswer (manager : AccountManager) : AccountRequest → AccountAnswer × AccountManager
  | .createAccount accountId ownerId publicKey createdAt lastTransactionAt =>
    flagged (manager.createAccount accountId ownerId publicKey createdAt lastTransactionAt)
  | .deleteAccount accountId => flagged (manager.deleteAccount accountId)
  | .updateBalance accountId amount now => flagged (manager.updateBalance accountId amount now)
  | .freezeAccount accountId => flagged (manager.freezeAccount accountId)
  | .unfreezeAccount accountId => flagged (manager.unfreezeAccount accountId)
  | .getAccount accountId => (.account (manager.getAccount accountId), manager)
  | .getAccountsByOwner ownerId => (.accounts (manager.getAccountsByOwner ownerId), manager)
  | .getAccountCount => (.count manager.getAccountCount, manager)
  | .accountExists accountId => (.flag (manager.accountExists accountId), manager)

/-! ## The list of accounts -/

/-- The account under an id. -/
def findAccount (opened : List BankAccount) (accountId : Str) : Option BankAccount :=
  opened.find? (·.accountId = accountId)

/-- A call on the account under an id, where it stands. -/
def callAccount (opened : List BankAccount) (accountId : Str)
    (call : BankAccount → Bool × BankAccount) : Bool × List BankAccount :=
  ((findAccount opened accountId).any fun account => (call account).1,
    opened.map fun account => if account.accountId = accountId then (call account).2 else account)

/-- What `updateBalance` does with an account. -/
def balanceCall (amount : ℚ) (now : UInt64) (account : BankAccount) : Bool × BankAccount :=
  if amount > 0 then account.deposit amount now
  else if amount < 0 then account.withdraw (-amount) now
  else (true, account)

/-- A list of accounts in the order of their opening answers a request. -/
def registerAnswer (opened : List BankAccount) :
    AccountRequest → AccountAnswer × List BankAccount
  | .createAccount accountId ownerId publicKey createdAt lastTransactionAt =>
    if (findAccount opened accountId).isSome then (.flag false, opened)
    else (.flag true, opened ++ [(AccountConstructor.named accountId ownerId publicKey createdAt
      lastTransactionAt).account])
  | .deleteAccount accountId =>
    (.flag (findAccount opened accountId).isSome, opened.filter (·.accountId ≠ accountId))
  | .updateBalance accountId amount now =>
    flagged (callAccount opened accountId (balanceCall amount now))
  | .freezeAccount accountId => flagged (callAccount opened accountId BankAccount.freeze)
  | .unfreezeAccount accountId => flagged (callAccount opened accountId BankAccount.unfreeze)
  | .getAccount accountId =>
    (.account ((findAccount opened accountId).getD AccountConstructor.plain.account), opened)
  | .getAccountsByOwner ownerId => (.accounts (some (opened.filter (·.ownerId = ownerId))), opened)
  | .getAccountCount => (.count opened.length, opened)
  | .accountExists accountId => (.flag (findAccount opened accountId).isSome, opened)

/-! ## The manager follows the list -/

/-- The manager holds the accounts of a list. -/
abbrev Registers (manager : AccountManager) (opened : List BankAccount) : Prop :=
  Represents BankAccount.accountId BankAccount.ownerId manager.accounts manager.ownerToAccounts
    opened

/-- A call that leaves the id and the owner of an account alone. -/
structure KeepsNames (call : BankAccount → Bool × BankAccount) : Prop where
  accountId : ∀ account, (call account).2.accountId = account.accountId
  ownerId : ∀ account, (call account).2.ownerId = account.ownerId

theorem keepsNames_accountResult (op : AccountOp) : KeepsNames (accountResult · op) := by
  constructor
  all_goals
    intro account
    rcases accountResult_cases account op with hrefused | ⟨-, hresult⟩
    · simp only [hrefused]
    · cases op with
      | deposit amount now => simp only [hresult.2]
      | withdraw amount now => simp only [hresult.2.2]
      | freeze => simp only [hresult.2]
      | unfreeze => simp only [hresult.2]

theorem keepsNames_balanceCall (amount : ℚ) (now : UInt64) :
    KeepsNames (balanceCall amount now) := by
  constructor
  all_goals
    intro account
    unfold balanceCall
    split_ifs
  · exact (keepsNames_accountResult (.deposit amount now)).accountId account
  · exact (keepsNames_accountResult (.withdraw (-amount) now)).accountId account
  · rfl
  · exact (keepsNames_accountResult (.deposit amount now)).ownerId account
  · exact (keepsNames_accountResult (.withdraw (-amount) now)).ownerId account
  · rfl

section Requests

variable {manager : AccountManager} {opened : List BankAccount} (h : Registers manager opened)
include h

theorem Registers.find (accountId : Str) :
    manager.accounts.lookup accountId = findAccount opened accountId := h.lookup accountId

theorem Registers.call (accountId : Str) {call : BankAccount → Bool × BankAccount}
    (hkeeps : KeepsNames call) :
    (manager.onAccount accountId call).1 = (callAccount opened accountId call).1 ∧
      Registers (manager.onAccount accountId call).2 (callAccount opened accountId call).2 := by
  unfold AccountManager.onAccount callAccount
  rw [← h.find]
  cases hlookup : manager.accounts.lookup accountId with
  | none =>
    rw [h.map_eq_self hlookup fun account => (call account).2]
    exact ⟨rfl, h⟩
  | some account =>
    exact ⟨rfl, h.update hlookup (f := fun account => (call account).2) hkeeps.accountId
      hkeeps.ownerId⟩

theorem Registers.create (accountId ownerId publicKey : Str)
    (createdAt lastTransactionAt : UInt64) :
    (managerAnswer manager
        (.createAccount accountId ownerId publicKey createdAt lastTransactionAt)).1 =
      (registerAnswer opened
        (.createAccount accountId ownerId publicKey createdAt lastTransactionAt)).1 ∧
    Registers
      (managerAnswer manager
        (.createAccount accountId ownerId publicKey createdAt lastTransactionAt)).2
      (registerAnswer opened
        (.createAccount accountId ownerId publicKey createdAt lastTransactionAt)).2 := by
  simp only [managerAnswer, registerAnswer, AccountManager.createAccount, flagged, ← h.find]
  cases hlookup : manager.accounts.lookup accountId with
  | none =>
    exact ⟨rfl, h.enter (r := (AccountConstructor.named accountId ownerId publicKey createdAt
      lastTransactionAt).account) hlookup⟩
  | some account => exact ⟨rfl, h⟩

theorem Registers.delete (accountId : Str) :
    (managerAnswer manager (.deleteAccount accountId)).1 =
      (registerAnswer opened (.deleteAccount accountId)).1 ∧
    Registers (managerAnswer manager (.deleteAccount accountId)).2
      (registerAnswer opened (.deleteAccount accountId)).2 := by
  simp only [managerAnswer, registerAnswer, AccountManager.deleteAccount, flagged, ← h.find]
  cases hlookup : manager.accounts.lookup accountId with
  | none =>
    rw [h.filter_eq_self hlookup]
    exact ⟨rfl, h⟩
  | some account => exact ⟨rfl, h.remove hlookup⟩

/-- A request gets the same answer from both and keeps them together. -/
theorem Registers.answer (request : AccountRequest) :
    (managerAnswer manager request).1 = (registerAnswer opened request).1 ∧
      Registers (managerAnswer manager request).2 (registerAnswer opened request).2 := by
  cases request with
  | createAccount accountId ownerId publicKey createdAt lastTransactionAt =>
    exact h.create accountId ownerId publicKey createdAt lastTransactionAt
  | deleteAccount accountId => exact h.delete accountId
  | updateBalance accountId amount now =>
    obtain ⟨hflag, hnext⟩ := h.call accountId (keepsNames_balanceCall amount now)
    exact ⟨congrArg AccountAnswer.flag hflag, hnext⟩
  | freezeAccount accountId =>
    obtain ⟨hflag, hnext⟩ := h.call accountId (keepsNames_accountResult .freeze)
    exact ⟨congrArg AccountAnswer.flag hflag, hnext⟩
  | unfreezeAccount accountId =>
    obtain ⟨hflag, hnext⟩ := h.call accountId (keepsNames_accountResult .unfreeze)
    exact ⟨congrArg AccountAnswer.flag hflag, hnext⟩
  | getAccount accountId =>
    simp only [managerAnswer, registerAnswer, AccountManager.getAccount, h.find]
    exact ⟨trivial, h⟩
  | getAccountsByOwner ownerId =>
    simp only [managerAnswer, registerAnswer, AccountManager.getAccountsByOwner, h.gather]
    exact ⟨trivial, h⟩
  | getAccountCount =>
    simp only [managerAnswer, registerAnswer, AccountManager.getAccountCount, h.card_keys]
    exact ⟨trivial, h⟩
  | accountExists accountId =>
    simp only [managerAnswer, registerAnswer, AccountManager.accountExists, h.find]
    exact ⟨trivial, h⟩

end Requests

/-- The manager answers every sequence of requests as the list of accounts in the order of their
opening; in particular `getAccountsByOwner` never throws. -/
theorem managerAnswers_eq (requests : List AccountRequest) :
    answers managerAnswer AccountManager.create requests = answers registerAnswer [] requests :=
  answers_eq_of_simulation' (fun _ _ request h => Registers.answer h request) represents_empty
    requests

end Blackstone.Bank
