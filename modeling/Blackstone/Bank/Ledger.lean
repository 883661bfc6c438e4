import Mathlib.Algebra.Order.Ring.Rat
import Mathlib.Tactic.Linarith
import Blackstone.Bank.Sha1
import Blackstone.Library.BoundedLog
import Blackstone.Library.DefaultMap
import Blackstone.Library.Runs

/-!
# The ledger

`ledger.cpp`. `addTransaction` keeps running balances over everything that was ever added,
while the entries are the last `maxEntries` ones only. `verifyConsistency` recomputes the
balances from these entries, starting at zero.

The two agree exactly when every account with an entry left had a balance of zero just
before the first entry that is left (`ledger_consistent_iff`).
-/

namespace Blackstone.Bank

open BoundedLog DefaultMap Runs

/-- `LedgerEntry`. -/
structure LedgerEntry where
  entryId : Str
  accountId : Str
  amount : ℚ
  transactionId : Str
  timestamp : UInt64
  entryType : Str
  balanceAfter : ℚ

/-- The constructor with four arguments, with the clock and the random bytes it reads. -/
def LedgerEntry.create (accId : Str) (amt : ℚ) (txId type : Str) (timestamp : UInt64)
    (bytes : Str) : LedgerEntry where
  entryId := sha1 (accId ++ decimal timestamp.toNat ++ bytes)
  accountId := accId
  amount := amt
  transactionId := txId
  timestamp := timestamp
  entryType := type
  balanceAfter := 0

/-- `Ledger`, without its lock. -/
structure Ledger where
  entries : List LedgerEntry
  balances : Map Str ℚ
  accountEntries : Map Str (List Str)
  maxEntries : Nat

/-- The constructor. -/
def Ledger.create (max : Nat) : Ledger where
  entries := []
  balances := ∅
  accountEntries := ∅
  maxEntries := max

/-- A call of `addTransaction`, with the clock and the random bytes it reads. -/
structure LedgerCall where
  accountId : Str
  amount : ℚ
  transactionId : Str
  type : Str
  timestamp : UInt64
  bytes : Str

/-- The balance after an amount of the given type. -/
def applyAmount (type : Str) (balance amount : ℚ) : ℚ :=
  if type = ascii "credit" then balance + amount else balance - amount

/-- The entry that `addTransaction` appends, over the balance of its account. -/
def LedgerCall.entry (call : LedgerCall) (currentBalance : ℚ) : LedgerEntry :=
  { LedgerEntry.create call.accountId call.amount call.transactionId call.type call.timestamp
      call.bytes with
    balanceAfter := applyAmount call.type currentBalance call.amount }

/-- `Ledger::addTransaction`. -/
def Ledger.addTransaction (s : Ledger) (call : LedgerCall) : Bool × Ledger :=
  let entry := call.entry (readAt s.balances call.accountId)
  (true,
    { s with
      entries := pushEvict s.maxEntries s.entries entry
      balances := (touch s.balances call.accountId).insert call.accountId entry.balanceAfter
      accountEntries := modifyAt s.accountEntries call.accountId (· ++ [entry.entryId]) })

/-- The loop of `Ledger::verifyConsistency`. -/
def verifyEntries (computedBalances : Map Str ℚ) : List LedgerEntry → Bool
  | [] => true
  | entry :: entries =>
    let computed := modifyAt computedBalances entry.accountId
      (applyAmount entry.entryType · entry.amount)
    if readAt computed entry.accountId ≠ entry.balanceAfter then false
    else verifyEntries computed entries

/-- `Ledger::verifyConsistency`. -/
def Ledger.verifyConsistency (s : Ledger) : Bool := verifyEntries ∅ s.entries

/-- The ledger after a call. -/
def ledgerStep (s : Ledger) (call : LedgerCall) : Ledger := (s.addTransaction call).2

/-! ## The history of a ledger -/

/-- The amount of a call with the sign of its type. -/
def LedgerCall.signed (call : LedgerCall) : ℚ :=
  if call.type = ascii "credit" then call.amount else -call.amount

/-- What the calls add to the balance of an account. -/
def net (account : Str) (calls : List LedgerCall) : ℚ :=
  ((calls.filter (fun call => call.accountId = account)).map LedgerCall.signed).sum

/-- The entries of calls, on top of given balances. -/
def entriesFrom (balance : Str → ℚ) : List LedgerCall → List LedgerEntry
  | [] => []
  | call :: calls =>
    call.entry (balance call.accountId) ::
      entriesFrom (fun account => balance account + net account [call]) calls

theorem applyAmount_eq (call : LedgerCall) (balance : ℚ) :
    applyAmount call.type balance call.amount = balance + call.signed := by
  rw [applyAmount, LedgerCall.signed]
  split
  · rfl
  · rw [sub_eq_add_neg]

theorem net_append (account : Str) (calls more : List LedgerCall) :
    net account (calls ++ more) = net account calls + net account more := by
  rw [net, List.filter_append, List.map_append, List.sum_append]
  rfl

theorem net_singleton (account : Str) (call : LedgerCall) :
    net account [call] = if call.accountId = account then call.signed else 0 := by
  unfold net
  by_cases h : call.accountId = account
  · simp [h]
  · simp [h]

theorem length_entriesFrom (balance : Str → ℚ) (calls : List LedgerCall) :
    (entriesFrom balance calls).length = calls.length := by
  induction calls generalizing balance with
  | nil => rfl
  | cons call calls ih => rw [entriesFrom, List.length_cons, List.length_cons, ih]

theorem entriesFrom_append (balance : Str → ℚ) (calls more : List LedgerCall) :
    entriesFrom balance (calls ++ more) =
      entriesFrom balance calls ++
        entriesFrom (fun account => balance account + net account calls) more := by
  induction calls generalizing balance with
  | nil => simp [entriesFrom, net]
  | cons call calls ih =>
    have hnet : ∀ account, net account (call :: calls) = net account [call] + net account calls :=
      fun account => net_append account [call] calls
    simp only [List.cons_append, entriesFrom, ih, hnet, add_assoc]

/-- The entries that are left are those of the last calls, on top of what the others add. -/
theorem entriesFrom_rtake (balance : Str → ℚ) (calls : List LedgerCall) (n : Nat) :
    (entriesFrom balance calls).rtake n =
      entriesFrom (fun account => balance account + net account (calls.rdrop n))
        (calls.rtake n) := by
  have hlength : (entriesFrom balance calls).length - n =
      (entriesFrom balance (calls.rdrop n)).length := by
    rw [length_entriesFrom, length_entriesFrom, List.rdrop, List.length_take]
    omega
  rw [List.rtake, hlength]
  nth_rewrite 2 [← rdrop_append_rtake calls n]
  rw [entriesFrom_append, List.drop_left]

/-- The ledger after some calls. -/
structure LedgerAfter (max : Nat) (calls : List LedgerCall) (s : Ledger) : Prop where
  maxEntries : s.maxEntries = max
  balances : ∀ account, readAt s.balances account = net account calls
  entries : s.entries = (entriesFrom (fun _ => 0) calls).rtake max

theorem ledgerAfter_create (max : Nat) : LedgerAfter max [] (Ledger.create max) where
  maxEntries := rfl
  balances account := readAt_empty account
  entries := (List.rtake_nil max).symm

theorem LedgerAfter.step {max : Nat} {calls : List LedgerCall} {s : Ledger}
    (h : LedgerAfter max calls s) (call : LedgerCall) :
    LedgerAfter max (calls ++ [call]) (ledgerStep s call) where
  maxEntries := h.maxEntries
  balances account := by
    show readAt (Finmap.insert _ _ (touch s.balances _)) account = _
    rw [net_append, net_singleton, ← h.balances account]
    by_cases haccount : account = call.accountId
    · rw [haccount, if_pos rfl, readAt_insert_self]
      exact applyAmount_eq call _
    · rw [if_neg (Ne.symm haccount), readAt_insert_of_ne _ haccount, readAt_touch, add_zero]
  entries := by
    show pushEvict s.maxEntries s.entries (call.entry (readAt s.balances call.accountId)) = _
    rw [h.maxEntries, h.entries, pushEvict_rtake, entriesFrom_append, h.balances]
    simp only [entriesFrom, zero_add]

theorem ledgerAfter_run (max : Nat) (calls : List LedgerCall) :
    LedgerAfter max calls (run ledgerStep (Ledger.create max) calls) := by
  induction calls using List.reverseRecOn with
  | nil => exact ledgerAfter_create max
  | append_singleton calls call ih =>
    rw [run, List.foldl_append]
    exact ih.step call

/-! ## Consistency -/

/-- Recomputing balances gives those of the entries exactly when the accounts of the entries
start with the same ones. -/
theorem verifyEntries_iff {computed : Map Str ℚ} {balance : Str → ℚ} {calls : List LedgerCall} :
    verifyEntries computed (entriesFrom balance calls) = true ↔
      ∀ call ∈ calls, readAt computed call.accountId = balance call.accountId := by
  induction calls generalizing computed balance with
  | nil => simp [entriesFrom, verifyEntries]
  | cons call calls ih =>
    have hread : ∀ account, readAt (modifyAt computed call.accountId
        (applyAmount call.type · call.amount)) account =
          readAt computed account + net account [call] := by
      intro account
      rw [readAt_modifyAt, net_singleton]
      by_cases haccount : account = call.accountId
      · rw [if_pos haccount, if_pos haccount.symm, haccount]
        exact applyAmount_eq call _
      · rw [if_neg haccount, if_neg (Ne.symm haccount), add_zero]
    have hcheck : readAt (modifyAt computed call.accountId
        (applyAmount call.type · call.amount)) call.accountId =
          applyAmount call.type (balance call.accountId) call.amount ↔
        readAt computed call.accountId = balance call.accountId := by
      rw [hread, applyAmount_eq, net_singleton, if_pos rfl, add_left_inj]
    rw [List.forall_mem_cons, entriesFrom, verifyEntries]
    show (if readAt (modifyAt computed call.accountId (applyAmount call.type · call.amount))
      call.accountId ≠ applyAmount call.type (balance call.accountId) call.amount then false
      else verifyEntries (modifyAt computed call.accountId
        (applyAmount call.type · call.amount)) _) = true ↔ _
    by_cases hhead : readAt computed call.accountId = balance call.accountId
    · rw [if_neg (not_not.mpr (hcheck.mpr hhead)), ih]
      simp only [hread, add_left_inj, hhead, true_and]
    · rw [if_pos (fun heq => hhead (hcheck.mp heq))]
      simp [hhead]

/-- Every account with an entry among the last `max` had a balance of zero before them. -/
def EvictedToZero (max : Nat) (calls : List LedgerCall) : Prop :=
  ∀ call ∈ calls.rtake max, net call.accountId (calls.rdrop max) = 0

/-- After any calls, the ledger is consistent exactly when the calls whose entries are gone
add up to zero for every account that has an entry left. -/
theorem ledger_consistent_iff (max : Nat) (calls : List LedgerCall) :
    (run ledgerStep (Ledger.create max) calls).verifyConsistency = true ↔
      EvictedToZero max calls := by
  rw [Ledger.verifyConsistency, (ledgerAfter_run max calls).entries, entriesFrom_rtake,
    verifyEntries_iff]
  apply forall₂_congr
  intro call _
  rw [readAt_empty, zero_add]
  exact eq_comm

/-- A credit of 5 to an account. -/
def creditFive : LedgerCall where
  accountId := ascii "Alice"
  amount := 5
  transactionId := ascii "t1"
  type := ascii "credit"
  timestamp := 0
  bytes := []

/-- With room for one entry, the second credit makes the ledger inconsistent. -/
theorem secondCredit_not_consistent :
    (run ledgerStep (Ledger.create 1) [creditFive, creditFive]).verifyConsistency = false := by
  rw [← Bool.not_eq_true, ledger_consistent_iff]
  intro h
  have hzero : net creditFive.accountId [creditFive] = 0 := h creditFive List.mem_cons_self
  rw [net_singleton, if_pos rfl] at hzero
  have hfive : creditFive.signed = 5 := if_pos rfl
  rw [hfive] at hzero
  norm_num at hzero

end Blackstone.Bank
