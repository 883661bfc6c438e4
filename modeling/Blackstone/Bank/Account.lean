import Mathlib.Algebra.Order.Ring.Rat
import Mathlib.Tactic.Linarith
import Mathlib.Tactic.Ring
import Blackstone.Bank.Sha1
import Blackstone.Library.DefaultMap
import Blackstone.Library.Runs

/-!
# Accounts of the banking system

`account.cpp`. A frozen account compares a withdrawal with the balance at the freeze and
takes it from the current one.

A `Tally` follows what happens between a freeze and the next unfreeze. While an account is
frozen its balance is what the tally gives (`Followed`), so that the account is safe as long
as every withdrawal from a frozen account is covered by the current balance, and no longer
(`accounts_safe_iff`).
-/

namespace Blackstone.Bank

open DefaultMap Runs

/-- `BankAccount`. -/
structure BankAccount where
  accountId : Str
  ownerId : Str
  balance : ℚ
  frozenBalance : ℚ
  accountType : Str
  isFrozen : Bool
  createdAt : UInt64
  lastTransactionAt : UInt64
  transactionHistory : List Str
  publicKey : Str
  encryptedPrivateKey : Str

/-- The two constructors, with the two readings of the clock. -/
inductive AccountConstructor where
  | plain
  | named (id owner pubKey : Str) (createdAt lastTransactionAt : UInt64)

/-- The account that a constructor makes. -/
def AccountConstructor.account : AccountConstructor → BankAccount
  | .plain =>
    { accountId := []
      ownerId := []
      balance := 0
      frozenBalance := 0
      accountType := []
      isFrozen := false
      createdAt := 0
      lastTransactionAt := 0
      transactionHistory := []
      publicKey := []
      encryptedPrivateKey := [] }
  | .named id owner pubKey createdAt lastTransactionAt =>
    { accountId := id
      ownerId := owner
      balance := 0
      frozenBalance := 0
      accountType := ascii "standard"
      isFrozen := false
      createdAt := createdAt
      lastTransactionAt := lastTransactionAt
      transactionHistory := []
      publicKey := pubKey
      encryptedPrivateKey := [] }

/-- `BankAccount::deposit`. -/
def BankAccount.deposit (account : BankAccount) (amount : ℚ) (now : UInt64) :
    Bool × BankAccount :=
  if amount ≤ 0 then (false, account)
  else (true, { account with balance := account.balance + amount, lastTransactionAt := now })

/-- `BankAccount::withdraw`. -/
def BankAccount.withdraw (account : BankAccount) (amount : ℚ) (now : UInt64) :
    Bool × BankAccount :=
  if amount ≤ 0 then (false, account)
  else if account.isFrozen ∧ amount > account.frozenBalance then (false, account)
  else if ¬ account.isFrozen ∧ amount > account.balance then (false, account)
  else (true, { account with balance := account.balance - amount, lastTransactionAt := now })

/-- `BankAccount::freeze`. -/
def BankAccount.freeze (account : BankAccount) : Bool × BankAccount :=
  if account.isFrozen then (false, account)
  else (true, { account with isFrozen := true, frozenBalance := account.balance })

/-- `BankAccount::unfreeze`. -/
def BankAccount.unfreeze (account : BankAccount) : Bool × BankAccount :=
  if ¬ account.isFrozen then (false, account)
  else (true, { account with isFrozen := false, frozenBalance := 0 })

/-- A call on an account. -/
inductive AccountOp where
  | deposit (amount : ℚ) (now : UInt64)
  | withdraw (amount : ℚ) (now : UInt64)
  | freeze
  | unfreeze

/-- What a call returns and leaves behind. -/
def accountResult (account : BankAccount) : AccountOp → Bool × BankAccount
  | .deposit amount now => account.deposit amount now
  | .withdraw amount now => account.withdraw amount now
  | .freeze => account.freeze
  | .unfreeze => account.unfreeze

/-! ## The account manager -/

/-- `AccountManager`, without its lock. -/
structure AccountManager where
  accounts : Map Str BankAccount
  ownerToAccounts : Map Str (List Str)

/-- The constructor. -/
def AccountManager.create : AccountManager where
  accounts := ∅
  ownerToAccounts := ∅

/-- `AccountManager::createAccount`, with the readings of the clock. -/
def AccountManager.createAccount (manager : AccountManager) (accountId ownerId publicKey : Str)
    (createdAt lastTransactionAt : UInt64) : Bool × AccountManager :=
  match manager.accounts.lookup accountId with
  | some _ => (false, manager)
  | none =>
    (true,
      { accounts := manager.accounts.insert accountId
          (AccountConstructor.named accountId ownerId publicKey createdAt
            lastTransactionAt).account
        ownerToAccounts := modifyAt manager.ownerToAccounts ownerId (· ++ [accountId]) })

/-- Runs a call on the account under an id, if there is one. -/
def AccountManager.onAccount (manager : AccountManager) (accountId : Str)
    (call : BankAccount → Bool × BankAccount) : Bool × AccountManager :=
  match manager.accounts.lookup accountId with
  | none => (false, manager)
  | some account =>
    ((call account).1,
      { manager with accounts := manager.accounts.insert accountId (call account).2 })

/-- `AccountManager::updateBalance`. -/
def AccountManager.updateBalance (manager : AccountManager) (accountId : Str) (amount : ℚ)
    (now : UInt64) : Bool × AccountManager :=
  manager.onAccount accountId fun account =>
    if amount > 0 then account.deposit amount now
    else if amount < 0 then account.withdraw (-amount) now
    else (true, account)

/-- `AccountManager::freezeAccount`. -/
def AccountManager.freezeAccount (manager : AccountManager) (accountId : Str) :
    Bool × AccountManager :=
  manager.onAccount accountId BankAccount.freeze

/-- `AccountManager::unfreezeAccount`. -/
def AccountManager.unfreezeAccount (manager : AccountManager) (accountId : Str) :
    Bool × AccountManager :=
  manager.onAccount accountId BankAccount.unfreeze

/-! ## What happens since the freeze -/

/-- The balance at the freeze, and the sums of the deposits and withdrawals since. -/
structure Tally where
  atFreeze : ℚ
  deposited : ℚ
  withdrawn : ℚ

/-- The tally after a call that returned true. -/
def Tally.after (tally : Option Tally) (account : BankAccount) : AccountOp → Option Tally
  | .deposit amount _ => tally.map fun t => { t with deposited := t.deposited + amount }
  | .withdraw amount _ => tally.map fun t => { t with withdrawn := t.withdrawn + amount }
  | .freeze => some { atFreeze := account.balance, deposited := 0, withdrawn := 0 }
  | .unfreeze => none

/-- An account with the tally since its last freeze, if it is frozen. -/
structure Watched where
  account : BankAccount
  tally : Option Tally

/-- The account after a call. -/
def watchStep (w : Watched) (op : AccountOp) : Watched where
  account := (accountResult w.account op).2
  tally := if (accountResult w.account op).1 then Tally.after w.tally w.account op else w.tally

/-- The account is not in debt, and what was withdrawn since the freeze was there. -/
structure Safe (w : Watched) : Prop where
  balance : 0 ≤ w.account.balance
  withdrawn : ∀ t ∈ w.tally, t.withdrawn ≤ t.atFreeze + t.deposited

/-- A withdrawal that a frozen account does not refuse is covered by its balance. -/
def FrozenCovered (account : BankAccount) : AccountOp → Prop
  | .withdraw amount _ =>
    account.isFrozen = true → 0 < amount → amount ≤ account.frozenBalance →
      amount ≤ account.balance
  | _ => True

/-- The tally follows the account. -/
structure Followed (w : Watched) : Prop where
  frozen : w.account.isFrozen = w.tally.isSome
  balance : ∀ t ∈ w.tally, w.account.balance = t.atFreeze + t.deposited - t.withdrawn

theorem watchStep_of_refused {w : Watched} {op : AccountOp}
    (h : accountResult w.account op = (false, w.account)) : watchStep w op = w := by
  rw [watchStep, h]
  rfl

/-- A call is refused and changes nothing, or it has passed its checks. -/
theorem accountResult_cases (account : BankAccount) (op : AccountOp) :
    accountResult account op = (false, account) ∨
      (accountResult account op).1 = true ∧
        match op with
        | .deposit amount now => 0 < amount ∧ (accountResult account op).2 =
            { account with balance := account.balance + amount, lastTransactionAt := now }
        | .withdraw amount now => 0 < amount ∧
            amount ≤ (if account.isFrozen then account.frozenBalance else account.balance) ∧
            (accountResult account op).2 =
              { account with balance := account.balance - amount, lastTransactionAt := now }
        | .freeze => account.isFrozen = false ∧ (accountResult account op).2 =
            { account with isFrozen := true, frozenBalance := account.balance }
        | .unfreeze => account.isFrozen = true ∧ (accountResult account op).2 =
            { account with isFrozen := false, frozenBalance := 0 } := by
  cases op with
  | deposit amount now =>
    simp only [accountResult, BankAccount.deposit]
    by_cases hamount : amount ≤ 0
    · left
      rw [if_pos hamount]
    · right
      rw [if_neg hamount]
      exact ⟨rfl, not_le.mp hamount, rfl⟩
  | withdraw amount now =>
    simp only [accountResult, BankAccount.withdraw]
    by_cases hamount : amount ≤ 0
    · left
      rw [if_pos hamount]
    · cases hfrozen : account.isFrozen with
      | true =>
        by_cases hshort : amount > account.frozenBalance
        · left
          simp [hamount, hshort]
        · right
          simp [hamount, not_le.mp hamount, hshort, not_lt.mp hshort]
      | false =>
        by_cases hshort : amount > account.balance
        · left
          simp [hamount, hshort]
        · right
          simp [hamount, not_le.mp hamount, hshort, not_lt.mp hshort]
  | freeze =>
    simp only [accountResult, BankAccount.freeze]
    cases hfrozen : account.isFrozen with
    | true => exact Or.inl rfl
    | false => exact Or.inr ⟨rfl, rfl, rfl⟩
  | unfreeze =>
    simp only [accountResult, BankAccount.unfreeze]
    cases hfrozen : account.isFrozen with
    | true => exact Or.inr ⟨rfl, rfl, rfl⟩
    | false => exact Or.inl rfl

/-- A call that moves the balance and the tally alike leaves the account followed. -/
theorem Followed.move {w : Watched} (h : Followed w) {account : BankAccount}
    {change : Tally → Tally} (hfrozen : account.isFrozen = w.account.isFrozen)
    (hbalance : ∀ t, w.account.balance = t.atFreeze + t.deposited - t.withdrawn →
      account.balance = (change t).atFreeze + (change t).deposited - (change t).withdrawn) :
    Followed { account := account, tally := w.tally.map change } := by
  refine ⟨?_, ?_⟩
  · show account.isFrozen = (w.tally.map change).isSome
    rw [Option.isSome_map, hfrozen, h.frozen]
  · intro t ht
    obtain ⟨t, htally, rfl⟩ := Option.mem_map.mp ht
    exact hbalance t (h.balance t htally)

theorem Followed.step {w : Watched} (h : Followed w) (op : AccountOp) :
    Followed (watchStep w op) := by
  rcases accountResult_cases w.account op with hrefused | ⟨haccepted, hresult⟩
  · rw [watchStep_of_refused hrefused]
    exact h
  · rw [watchStep, haccepted, if_pos rfl]
    cases op with
    | deposit amount now =>
      rw [hresult.2]
      apply h.move
      · rfl
      · intro t hbalance
        show w.account.balance + amount = _
        rw [hbalance]
        ring
    | withdraw amount now =>
      rw [hresult.2.2]
      apply h.move
      · rfl
      · intro t hbalance
        show w.account.balance - amount = _
        rw [hbalance]
        ring
    | freeze =>
      rw [hresult.2]
      refine ⟨rfl, ?_⟩
      intro t ht
      cases ht
      show w.account.balance = _
      ring
    | unfreeze =>
      rw [hresult.2]
      refine ⟨rfl, ?_⟩
      intro t ht
      cases ht

/-- For an account that the tally follows, only the balance matters. -/
theorem Followed.safe_iff_balance {w : Watched} (h : Followed w) :
    Safe w ↔ 0 ≤ w.account.balance := by
  constructor
  · intro hsafe
    exact hsafe.balance
  · intro hbalance
    refine ⟨hbalance, ?_⟩
    intro t ht
    rw [h.balance t ht] at hbalance
    linarith

/-- A withdrawal within the frozen balance is not refused. -/
theorem frozenCovered_of_refused {account : BankAccount} {op : AccountOp}
    (hrefused : accountResult account op = (false, account)) : FrozenCovered account op := by
  cases op with
  | deposit amount now => trivial
  | withdraw amount now =>
    intro hfrozen hpos hle
    have haccepted : (account.withdraw amount now).1 = true := by
      simp [BankAccount.withdraw, not_le.mpr hpos, hfrozen, not_lt.mpr hle]
    have hfalse : (account.withdraw amount now).1 = false := congrArg Prod.fst hrefused
    rw [haccepted] at hfalse
    cases hfalse
  | freeze => trivial
  | unfreeze => trivial

theorem Followed.safe_step_iff {w : Watched} (h : Followed w) (hsafe : Safe w) (op : AccountOp) :
    Safe (watchStep w op) ↔ FrozenCovered w.account op := by
  have hbalance := hsafe.balance
  rw [(h.step op).safe_iff_balance]
  show 0 ≤ (accountResult w.account op).2.balance ↔ _
  rcases accountResult_cases w.account op with hrefused | ⟨haccepted, hresult⟩
  · rw [hrefused]
    refine ⟨fun _ => frozenCovered_of_refused hrefused, fun _ => hbalance⟩
  · cases op with
    | deposit amount now =>
      rw [hresult.2]
      refine ⟨fun _ => trivial, fun _ => ?_⟩
      show 0 ≤ w.account.balance + amount
      linarith [hresult.1]
    | withdraw amount now =>
      obtain ⟨hpos, hguard, hresult⟩ := hresult
      rw [hresult]
      show 0 ≤ w.account.balance - amount ↔ _
      rw [sub_nonneg]
      constructor
      · intro hcovered _ _ _
        exact hcovered
      · intro hcovered
        split_ifs at hguard with hfrozen
        · exact hcovered hfrozen hpos hguard
        · exact hguard
    | freeze =>
      rw [hresult.2]
      exact ⟨fun _ => trivial, fun _ => hbalance⟩
    | unfreeze =>
      rw [hresult.2]
      exact ⟨fun _ => trivial, fun _ => hbalance⟩

/-! ## Runs of one account -/

/-- An account before its first freeze. -/
def watch (account : BankAccount) : Watched where
  account := account
  tally := none

theorem followed_watch (c : AccountConstructor) : Followed (watch c.account) where
  frozen := by
    cases c <;> rfl
  balance t ht := by
    cases ht

theorem safe_watch (c : AccountConstructor) : Safe (watch c.account) where
  balance := by
    cases c <;> exact le_refl 0
  withdrawn t ht := by
    cases ht

/-- The account is safe when it is made and after every call. -/
def SafeRun (c : AccountConstructor) (ops : List AccountOp) : Prop :=
  Safe (watch c.account) ∧
    Along watchStep (fun w op => Safe (watchStep w op)) (watch c.account) ops

theorem safeRun_iff (c : AccountConstructor) (ops : List AccountOp) :
    SafeRun c ops ↔
      Along watchStep (fun w op => FrozenCovered w.account op) (watch c.account) ops := by
  have hcongr := along_congr_of_invariant (fun w => Followed w ∧ Safe w)
    (fun _ op h => h.1.safe_step_iff h.2 op) (fun _ op h hsafe => ⟨h.1.step op, hsafe⟩) ops
    ⟨followed_watch c, safe_watch c⟩
  exact ⟨fun h => hcongr.mp h.2, fun h => ⟨safe_watch c, hcongr.mpr h⟩⟩

/-! ## Runs of the manager -/

/-- A call of the manager, or a call on the account that it holds under an id. -/
inductive ManagerCall where
  | createAccount (accountId ownerId publicKey : Str) (createdAt lastTransactionAt : UInt64)
  | updateBalance (accountId : Str) (amount : ℚ) (now : UInt64)
  | freezeAccount (accountId : Str)
  | unfreezeAccount (accountId : Str)
  | direct (accountId : Str) (op : AccountOp)

/-- The manager after a call. -/
def managerStep (manager : AccountManager) : ManagerCall → AccountManager
  | .createAccount accountId ownerId publicKey createdAt lastTransactionAt =>
    (manager.createAccount accountId ownerId publicKey createdAt lastTransactionAt).2
  | .updateBalance accountId amount now => (manager.updateBalance accountId amount now).2
  | .freezeAccount accountId => (manager.freezeAccount accountId).2
  | .unfreezeAccount accountId => (manager.unfreezeAccount accountId).2
  | .direct accountId op => (manager.onAccount accountId (accountResult · op)).2

/-- The account that a call is about and the call that it makes there. -/
def ManagerCall.target : ManagerCall → Option (Str × AccountOp)
  | .createAccount _ _ _ _ _ => none
  | .updateBalance accountId amount now =>
    if amount > 0 then some (accountId, .deposit amount now)
    else if amount < 0 then some (accountId, .withdraw (-amount) now)
    else none
  | .freezeAccount accountId => some (accountId, .freeze)
  | .unfreezeAccount accountId => some (accountId, .unfreeze)
  | .direct accountId op => some (accountId, op)

/-- The manager with the tallies of its accounts. -/
structure WatchedManager where
  manager : AccountManager
  tallies : Str → Option Tally

/-- The account under an id with its tally. -/
def WatchedManager.view (m : WatchedManager) (accountId : Str) : Option Watched :=
  (m.manager.accounts.lookup accountId).map fun account => ⟨account, m.tallies accountId⟩

/-- The manager after a call; the call updates the tally of the account it is about. -/
def watchManager (m : WatchedManager) (call : ManagerCall) : WatchedManager where
  manager := managerStep m.manager call
  tallies :=
    match call.target with
    | none => m.tallies
    | some (accountId, op) =>
      Function.update m.tallies accountId
        ((m.view accountId).bind fun w => (watchStep w op).tally)

/-- The manager before the first call. -/
def WatchedManager.create : WatchedManager where
  manager := AccountManager.create
  tallies _ := none

theorem onAccount_lookup (manager : AccountManager) (accountId k : Str)
    (call : BankAccount → Bool × BankAccount) :
    (manager.onAccount accountId call).2.accounts.lookup k =
      if k = accountId then (manager.accounts.lookup k).map (fun account => (call account).2)
      else manager.accounts.lookup k := by
  unfold AccountManager.onAccount
  by_cases hk : k = accountId
  · subst hk
    rw [if_pos rfl]
    cases hlookup : manager.accounts.lookup k with
    | none => exact hlookup
    | some account => exact Finmap.lookup_insert _
  · rw [if_neg hk]
    cases manager.accounts.lookup accountId with
    | none => rfl
    | some account => exact Finmap.lookup_insert_of_ne _ hk

/-- A call about an account is its call on that account. -/
theorem managerStep_lookup {call : ManagerCall} {accountId : Str} {op : AccountOp}
    (htarget : call.target = some (accountId, op)) (manager : AccountManager) (k : Str) :
    (managerStep manager call).accounts.lookup k =
      if k = accountId then
        (manager.accounts.lookup k).map (fun account => (accountResult account op).2)
      else manager.accounts.lookup k := by
  cases call with
  | createAccount => cases htarget
  | updateBalance id amount now =>
    show (manager.onAccount id _).2.accounts.lookup k = _
    rw [onAccount_lookup]
    rw [ManagerCall.target] at htarget
    split_ifs at htarget with hpos hneg
    · cases htarget
      simp only [if_pos hpos]
      rfl
    · cases htarget
      simp only [if_neg hpos, if_pos hneg]
      rfl
  | freezeAccount id =>
    cases htarget
    exact onAccount_lookup _ _ _ _
  | unfreezeAccount id =>
    cases htarget
    exact onAccount_lookup _ _ _ _
  | direct id op' =>
    cases htarget
    exact onAccount_lookup _ _ _ _

theorem view_of_target {call : ManagerCall} {accountId : Str} {op : AccountOp}
    (htarget : call.target = some (accountId, op)) (m : WatchedManager) (k : Str) :
    (watchManager m call).view k =
      if k = accountId then (m.view k).map (watchStep · op) else m.view k := by
  have hlookup := managerStep_lookup htarget m.manager k
  rw [WatchedManager.view]
  simp only [watchManager, htarget]
  rw [hlookup]
  by_cases hk : k = accountId
  · subst hk
    rw [if_pos rfl, if_pos rfl, Function.update_self, WatchedManager.view]
    cases m.manager.accounts.lookup k with
    | none => rfl
    | some account => rfl
  · rw [if_neg hk, if_neg hk, Function.update_of_ne hk]
    rfl

/-- Any other call leaves the accounts alone or makes a new one. -/
theorem view_of_no_target {call : ManagerCall} (htarget : call.target = none)
    {m : WatchedManager} (habsent : ∀ k, m.view k = none → m.tallies k = none)
    (k : Str) :
    (watchManager m call).view k = m.view k ∨
      ∃ c : AccountConstructor, (watchManager m call).view k = some (watch c.account) := by
  have htallies : (watchManager m call).tallies = m.tallies := by
    simp only [watchManager, htarget]
  rw [WatchedManager.view, WatchedManager.view, htallies]
  cases call with
  | createAccount id owner publicKey createdAt lastTransactionAt =>
    simp only [watchManager, managerStep, AccountManager.createAccount]
    cases hlookup : m.manager.accounts.lookup id with
    | some account => exact Or.inl rfl
    | none =>
      by_cases hk : k = id
      · subst hk
        right
        refine ⟨.named k owner publicKey createdAt lastTransactionAt, ?_⟩
        dsimp only
        rw [Finmap.lookup_insert, habsent k (by rw [WatchedManager.view, hlookup]; rfl)]
        rfl
      · left
        dsimp only
        rw [Finmap.lookup_insert_of_ne _ hk]
  | updateBalance id amount now =>
    left
    rw [ManagerCall.target] at htarget
    split_ifs at htarget with hpos hneg
    show Option.map _ (Finmap.lookup k (m.manager.onAccount id _).2.accounts) = _
    rw [onAccount_lookup]
    simp only [if_neg hpos, if_neg hneg]
    split
    · rw [Option.map_map]
      rfl
    · rfl
  | freezeAccount id => cases htarget
  | unfreezeAccount id => cases htarget
  | direct id op => cases htarget

/-- Every account of the manager is safe. -/
def ManagerSafe (m : WatchedManager) : Prop := ∀ k w, m.view k = some w → Safe w

/-- A withdrawal that the call makes from a frozen account is covered. -/
def CallCovered (m : WatchedManager) (call : ManagerCall) : Prop :=
  ∀ accountId op account, call.target = some (accountId, op) →
    m.manager.accounts.lookup accountId = some account → FrozenCovered account op

/-- The invariant of the manager. -/
structure ManagerKept (m : WatchedManager) : Prop where
  followed : ∀ k w, m.view k = some w → Followed w
  safe : ManagerSafe m
  absent : ∀ k, m.view k = none → m.tallies k = none

theorem ManagerKept.followed_step {m : WatchedManager} (h : ManagerKept m) (call : ManagerCall)
    (k : Str) (w : Watched) (hview : (watchManager m call).view k = some w) : Followed w := by
  cases htarget : call.target with
  | none =>
    rcases view_of_no_target htarget h.absent k with hsame | ⟨c, hnew⟩
    · rw [hsame] at hview
      exact h.followed k w hview
    · rw [hnew] at hview
      cases hview
      exact followed_watch c
  | some target =>
    rw [view_of_target htarget] at hview
    split at hview
    · obtain ⟨old, hold, rfl⟩ := Option.map_eq_some_iff.mp hview
      exact (h.followed k old hold).step _
    · exact h.followed k w hview

theorem ManagerKept.absent_step {m : WatchedManager} (h : ManagerKept m) (call : ManagerCall)
    (k : Str) (hview : (watchManager m call).view k = none) :
    (watchManager m call).tallies k = none := by
  cases htarget : call.target with
  | none =>
    have htallies : (watchManager m call).tallies = m.tallies := by
      simp only [watchManager, htarget]
    rcases view_of_no_target htarget h.absent k with hsame | ⟨c, hnew⟩
    · rw [hsame] at hview
      rw [htallies, h.absent k hview]
    · rw [hnew] at hview
      cases hview
  | some target =>
    rw [view_of_target htarget] at hview
    simp only [watchManager, htarget]
    by_cases hk : k = target.1
    · rw [if_pos hk, Option.map_eq_none_iff] at hview
      rw [hk, Function.update_self, ← hk, hview]
      rfl
    · rw [if_neg hk] at hview
      rw [Function.update_of_ne hk, h.absent k hview]

/-- After a call all accounts are safe exactly when its withdrawal was covered. -/
theorem ManagerKept.safe_step_iff {m : WatchedManager} (h : ManagerKept m) (call : ManagerCall) :
    ManagerSafe (watchManager m call) ↔ CallCovered m call := by
  cases htarget : call.target with
  | none =>
    constructor
    · intro _ accountId op account hsome
      rw [htarget] at hsome
      cases hsome
    · intro _ k w hview
      rcases view_of_no_target htarget h.absent k with hsame | ⟨c, hnew⟩
      · rw [hsame] at hview
        exact h.safe k w hview
      · rw [hnew] at hview
        cases hview
        exact safe_watch c
  | some target =>
    obtain ⟨accountId, op⟩ := target
    constructor
    · intro hsafe id op' account hsome hlookup
      rw [htarget] at hsome
      cases hsome
      have hold : m.view accountId = some ⟨account, m.tallies accountId⟩ := by
        rw [WatchedManager.view, hlookup]
        rfl
      have hnew : (watchManager m call).view accountId =
          some (watchStep ⟨account, m.tallies accountId⟩ op) := by
        rw [view_of_target htarget, if_pos rfl, hold]
        rfl
      exact ((h.followed _ _ hold).safe_step_iff (h.safe _ _ hold) op).mp (hsafe _ _ hnew)
    · intro hcovered k w hview
      rw [view_of_target htarget] at hview
      split at hview
      · rename_i hk
        obtain ⟨old, hold, rfl⟩ := Option.map_eq_some_iff.mp hview
        apply ((h.followed k old hold).safe_step_iff (h.safe k old hold) op).mpr
        obtain ⟨account, hlookup, rfl⟩ := Option.map_eq_some_iff.mp hold
        exact hcovered accountId op account htarget (hk ▸ hlookup)
      · exact h.safe k w hview

theorem managerKept_create : ManagerKept WatchedManager.create where
  followed k w hview := by
    cases hview
  safe k w hview := by
    cases hview
  absent _ _ := rfl

/-- Every account of the manager is safe after every call. -/
def ManagerSafeRun (calls : List ManagerCall) : Prop :=
  ManagerSafe WatchedManager.create ∧
    Along watchManager (fun m call => ManagerSafe (watchManager m call)) WatchedManager.create calls

theorem managerSafeRun_iff (calls : List ManagerCall) :
    ManagerSafeRun calls ↔ Along watchManager CallCovered WatchedManager.create calls := by
  have hcongr := along_congr_of_invariant ManagerKept (fun _ call h => h.safe_step_iff call)
    (fun _ call h hsafe => ⟨h.followed_step call, hsafe, h.absent_step call⟩) calls
    managerKept_create
  exact ⟨fun h => hcongr.mp h.2, fun h => ⟨managerKept_create.safe, hcongr.mpr h⟩⟩

/-- An account used directly, and the accounts of a manager, are safe in a run exactly when
every withdrawal from a frozen account within the frozen balance is covered by the current
balance. -/
theorem accounts_safe_iff (c : AccountConstructor) (ops : List AccountOp)
    (calls : List ManagerCall) :
    (SafeRun c ops ↔
        Along watchStep (fun w op => FrozenCovered w.account op) (watch c.account) ops) ∧
      (ManagerSafeRun calls ↔
        Along watchManager CallCovered WatchedManager.create calls) :=
  ⟨safeRun_iff c ops, managerSafeRun_iff calls⟩

/-- The frozen balance can be withdrawn twice. -/
theorem frozenTwice_overdraws :
    ¬ SafeRun .plain [.deposit 100 0, .freeze, .withdraw 100 0, .withdraw 100 0] := by
  intro hrun
  have hlast := ((safeRun_iff _ _).mp hrun).2.2.2.1
  exact absurd (hlast (by decide +kernel) (by norm_num) (by decide +kernel)) (by decide +kernel)

end Blackstone.Bank
