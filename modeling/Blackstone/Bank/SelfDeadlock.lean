import Blackstone.Bank.AmountText
import Blackstone.Bank.BackupManager
import Blackstone.Bank.Database
import Blackstone.Bank.Ledger
import Blackstone.Bank.PeerManager

/-!
# Methods that lock twice

The methods of `db_manager.cpp` and `ledger.cpp` with their mutex. `DatabaseManager::get` always
calls `cleanupExpired`, which locks again; `set` and `del` call `saveToDisk` when the store saves
itself; and `Ledger::deserialize` calls `clear`. Together with the peer manager and the backup
manager, no call of a run waits for itself exactly when every call is taken in a state that is
safe for it (`noDeadlock_iff_safe`).
-/

namespace Blackstone.Bank

open Delimited DefaultMap BoundedLog LockGuard Call Runs

/-! ## The database -/

/-- `DatabaseManager` with its flag and the contents of its file. -/
structure DatabaseObject where
  store : DatabaseManager
  autoSave : Bool
  file : Option Str

namespace DatabaseObject

/-- The constructor. -/
def create (autoSaveEnabled : Bool) (file : Option Str) : DatabaseObject where
  store := DatabaseManager.create file
  autoSave := autoSaveEnabled
  file := file

/-- `DatabaseManager::saveToDisk`. -/
def saveToDisk : Call DatabaseObject Unit :=
  lockGuard (write (fun s => { s with file := some s.store.saveToDisk }))

/-- `DatabaseManager::cleanupExpired`. -/
def cleanupExpired (now : UInt64) : Call DatabaseObject Unit :=
  lockGuard (write (fun s => { s with store := s.store.cleanupExpired now }))

/-- A change of the store that is saved if the flag is set. -/
def changeAndSave (f : DatabaseManager → DatabaseManager) : Call DatabaseObject Bool :=
  lockGuard do
    write (fun s => { s with store := f s.store })
    let autoSave ← read DatabaseObject.autoSave
    if autoSave then saveToDisk
    return true

/-- `DatabaseManager::set`. -/
def set (now : UInt64) (key value : Str) (ttlMs : UInt64) : Call DatabaseObject Bool :=
  changeAndSave (·.set now key value ttlMs)

/-- `DatabaseManager::del`. -/
def del (key : Str) : Call DatabaseObject Bool := changeAndSave (·.del key)

/-- `DatabaseManager::get`. -/
def get (now : UInt64) (key : Str) : Call DatabaseObject Str :=
  lockGuard do
    cleanupExpired now
    read (fun s => s.store.data[key]?.getD [])

/-- `DatabaseManager::keys`; the empty pattern is a part of every key. -/
def keys (s : DatabaseObject) (pattern : Str) : List Str :=
  s.store.data.keys.filter (fun key => pattern <:+: key)

/-- A call of a public method, with the clock that it reads. -/
inductive Method where
  | set (now : UInt64) (key value : Str) (ttlMs : UInt64)
  | get (now : UInt64) (key : Str)
  | del (key : Str)
  | exists (key : Str)
  | keys (pattern : Str)
  | size
  | flush
  | close

/-- A method runs; what it returns is dropped. -/
def perform : Method → Call DatabaseObject Unit
  | .set now key value ttlMs => do discard (set now key value ttlMs)
  | .get now key => do discard (get now key)
  | .del key => do discard (del key)
  | .exists key => do discard (lockGuard (read (·.store.data.contains key)))
  | .keys pattern => do discard (lockGuard (read (·.keys pattern)))
  | .size => do discard (lockGuard (read (·.store.data.size)))
  | .flush => saveToDisk
  | .close => saveToDisk

/-- A method does not wait for itself. -/
def Safe (s : DatabaseObject) : Method → Prop
  | .set _ _ _ _ => s.autoSave = false
  | .get _ _ => False
  | .del _ => s.autoSave = false
  | _ => True

theorem balanced_saveToDisk : Balanced saveToDisk := balanced_lockGuard _

theorem unblocked_saveToDisk : Unblocked saveToDisk := unblocked_write _

theorem balanced_perform (method : Method) : Balanced (perform method) := by
  cases method with
  | flush => exact balanced_saveToDisk
  | close => exact balanced_saveToDisk
  | _ =>
    simp only [perform, set, get, del, changeAndSave]
    exact (balanced_lockGuard _).discard

theorem changeAndSave_ne_deadlock_iff {s : Guarded DatabaseObject} (hfree : s.locked = false)
    (f : DatabaseManager → DatabaseManager) :
    (discard (changeAndSave f) : Call DatabaseObject Unit) s ≠ .deadlock ↔
      s.state.autoSave = false := by
  rw [ne_eq, discard_eq_deadlock_iff, changeAndSave, lockGuard_eq_deadlock_iff _ hfree,
    write_bind, read_bind]
  cases hsave : s.state.autoSave with
  | false => exact iff_of_true (quiet_pure true _) rfl
  | true =>
    refine iff_of_false (fun h => h ?_) (fun h => (by cases h))
    exact bind_eq_deadlock (lockGuard_locked _ rfl) _

theorem get_eq_deadlock {s : Guarded DatabaseObject} (hfree : s.locked = false) (now : UInt64)
    (key : Str) : get now key s = .deadlock := by
  rw [get, lockGuard_eq_deadlock_iff _ hfree]
  exact bind_eq_deadlock (lockGuard_locked _ rfl) _

theorem noDeadlock_iff {s : Guarded DatabaseObject} (hfree : s.locked = false)
    (method : Method) : NoDeadlock perform s method ↔ Safe s.state method := by
  cases method with
  | set now key value ttlMs => exact changeAndSave_ne_deadlock_iff hfree _
  | get now key =>
    rw [NoDeadlock, perform, ne_eq, discard_eq_deadlock_iff]
    exact iff_of_false (fun h => h (get_eq_deadlock hfree now key)) id
  | del key => exact changeAndSave_ne_deadlock_iff hfree _
  | flush => exact iff_of_true (unblocked_saveToDisk s hfree) trivial
  | close => exact iff_of_true (unblocked_saveToDisk s hfree) trivial
  | _ => exact iff_of_true ((unblocked_read _).discard s hfree) trivial

theorem along_noDeadlock_iff (autoSaveEnabled : Bool) (file : Option Str)
    (methods : List Method) :
    Along (step perform) (NoDeadlock perform) ⟨false, create autoSaveEnabled file⟩ methods ↔
      Along (step perform) (fun s method => Safe s.state method)
        ⟨false, create autoSaveEnabled file⟩ methods :=
  LockGuard.along_noDeadlock_iff (fun _ => True) Safe balanced_perform
    (fun _ hfree _ method => noDeadlock_iff hfree method) (fun _ _ _ _ _ => trivial) rfl trivial
    methods

end DatabaseObject

/-! ## The ledger -/

/-- `LedgerEntry::serialize`. -/
def LedgerEntry.serialize (entry : LedgerEntry) : Str :=
  join bar [entry.entryId, entry.accountId, printDouble entry.amount, entry.transactionId,
    decimal entry.timestamp.toNat, entry.entryType, printDouble entry.balanceAfter]

/-- `LedgerEntry::deserialize`; a number that cannot be read is thrown. -/
def LedgerEntry.deserialize (data : Str) : Option LedgerEntry := do
  let entryId := getline bar data
  let accountId := getline bar entryId.2
  let amtStr := getline bar accountId.2
  let amount ← stod amtStr.1
  let transactionId := getline bar amtStr.2
  let tsStr := getline bar transactionId.2
  let timestamp ← stoull tsStr.1
  let entryType := getline bar tsStr.2
  let balStr := getline bar entryType.2
  let balanceAfter ← stod balStr.1
  return {
    entryId := entryId.1
    accountId := accountId.1
    amount := amount
    transactionId := transactionId.1
    timestamp := timestamp
    entryType := entryType.1
    balanceAfter := balanceAfter }

namespace Ledger

/-- The character `';'` after each entry of a serialized ledger. -/
def semicolon : UInt8 := 59

/-- Appends an entry and records it under its account. -/
def record (s : Ledger) (entries : List LedgerEntry) (entry : LedgerEntry) : Ledger :=
  { s with
    entries := entries
    balances := s.balances.insert entry.accountId entry.balanceAfter
    accountEntries := modifyAt s.accountEntries entry.accountId (· ++ [entry.entryId]) }

/-- `Ledger::addEntry`. -/
def addEntry (s : Ledger) (entry : LedgerEntry) : Ledger :=
  s.record (evictPush s.maxEntries s.entries entry) entry

/-- `Ledger::getBalance`. -/
def getBalance (s : Ledger) (accountId : Str) : ℚ := readAt s.balances accountId

/-- `Ledger::getEntriesForAccount`. -/
def getEntriesForAccount (s : Ledger) (accountId : Str) (limit : Nat) : List LedgerEntry :=
  ((readAt s.accountEntries accountId).filterMap
    (fun entryId => s.entries.find? (fun entry => entry.entryId = entryId))).take limit

/-- `Ledger::getEntriesSince`. -/
def getEntriesSince (s : Ledger) (timestamp : UInt64) : List LedgerEntry :=
  s.entries.filter (fun entry => timestamp ≤ entry.timestamp)

/-- `Ledger::getEntryCount`. -/
def getEntryCount (s : Ledger) : Nat := s.entries.length

/-- `Ledger::serialize`. -/
def serialize (s : Ledger) : Str :=
  s.entries.flatMap (fun entry => entry.serialize ++ [semicolon])

/-- `Ledger::clear`. -/
def clear : Call Ledger Unit :=
  lockGuard (write (fun s => { s with entries := [], balances := ∅, accountEntries := ∅ }))

/-- The loop body of `Ledger::deserialize`. -/
def load (entryStr : Str) : Call Ledger Unit :=
  if entryStr = [] then pure ()
  else do
    let entry ← ofOption (LedgerEntry.deserialize entryStr)
    write (fun s => s.record (s.entries ++ [entry]) entry)

/-- `Ledger::deserialize`. -/
def deserialize (data : Str) : Call Ledger Unit :=
  lockGuard do
    clear
    (getlines semicolon data.length data).forM load

/-- A call of a public method; `addTransaction` reads the clock and random bytes. -/
inductive Method where
  | addEntry (entry : LedgerEntry)
  | addTransaction (call : LedgerCall)
  | getBalance (accountId : Str)
  | getEntriesForAccount (accountId : Str) (limit : Nat)
  | getEntriesSince (timestamp : UInt64)
  | verifyConsistency
  | getEntryCount
  | clear
  | serialize
  | deserialize (data : Str)

/-- A method runs; what it returns is dropped. -/
def perform : Method → Call Ledger Unit
  | .addEntry entry => lockGuard (write (·.addEntry entry))
  | .addTransaction call => do discard (lockGuard (update (·.addTransaction call)))
  | .getBalance accountId => do discard (lockGuard (read (·.getBalance accountId)))
  | .getEntriesForAccount accountId limit =>
    do discard (lockGuard (read (·.getEntriesForAccount accountId limit)))
  | .getEntriesSince timestamp => do discard (lockGuard (read (·.getEntriesSince timestamp)))
  | .verifyConsistency => do discard (lockGuard (read verifyConsistency))
  | .getEntryCount => do discard (lockGuard (read getEntryCount))
  | .clear => clear
  | .serialize => do discard (lockGuard (read serialize))
  | .deserialize data => deserialize data

/-- A method does not wait for itself. -/
def Safe : Method → Prop
  | .deserialize _ => False
  | _ => True

theorem balanced_perform (method : Method) : Balanced (perform method) := by
  cases method with
  | addTransaction => exact (balanced_lockGuard _).discard
  | deserialize data =>
    rw [perform, deserialize]
    exact balanced_lockGuard _
  | _ =>
    simp only [perform, clear]
    first
      | exact balanced_lockGuard _
      | exact (balanced_lockGuard _).discard

theorem deserialize_eq_deadlock {s : Guarded Ledger} (hfree : s.locked = false) (data : Str) :
    deserialize data s = .deadlock := by
  rw [deserialize, lockGuard_eq_deadlock_iff _ hfree]
  exact bind_eq_deadlock (lockGuard_locked _ rfl) _

theorem unblocked_perform {method : Method} (h : ∀ data, method ≠ .deserialize data) :
    Unblocked (perform method) := by
  cases method with
  | deserialize data => exact absurd rfl (h data)
  | addTransaction call => exact (quiet_update _).lockGuard.discard
  | _ =>
    simp only [perform, clear]
    first
      | exact unblocked_write _
      | exact (unblocked_read _).discard

theorem noDeadlock_iff {s : Guarded Ledger} (hfree : s.locked = false) (method : Method) :
    NoDeadlock perform s method ↔ Safe method := by
  cases method with
  | deserialize data => exact iff_of_false (fun h => h (deserialize_eq_deadlock hfree data)) id
  | _ => exact iff_of_true (unblocked_perform (fun _ h => by cases h) s hfree) trivial

theorem along_noDeadlock_iff (max : Nat) (methods : List Method) :
    Along (step perform) (NoDeadlock perform) ⟨false, create max⟩ methods ↔
      Along (step perform) (fun _ method => Safe method) ⟨false, create max⟩ methods :=
  LockGuard.along_noDeadlock_iff (fun _ => True) (fun _ method => Safe method) balanced_perform
    (fun _ hfree _ method => noDeadlock_iff hfree method) (fun _ _ _ _ _ => trivial) rfl trivial
    methods

end Ledger

/-! ## All four classes -/

/-- In runs of the four classes, no call waits for itself exactly when no database is asked for
a key or changed while it saves itself, no peer's score falls below the threshold, no backup
manager that holds its mutex finds more backups than allowed, and no ledger is read from text. -/
theorem noDeadlock_iff_safe (autoSaveEnabled : Bool) (file : Option Str)
    (database : List DatabaseObject.Method) (maxPeersCount : Nat)
    (peers : List PeerManager.Method) (directory : Str) (maxBackupCount : Nat)
    (files : Std.TreeMap Str Str) (backups : List BackupManager.Method) (max : Nat)
    (ledger : List Ledger.Method) :
    (Along (step DatabaseObject.perform) (NoDeadlock DatabaseObject.perform)
          ⟨false, DatabaseObject.create autoSaveEnabled file⟩ database ↔
        Along (step DatabaseObject.perform) (fun s method => DatabaseObject.Safe s.state method)
          ⟨false, DatabaseObject.create autoSaveEnabled file⟩ database) ∧
      (Along (step PeerManager.perform) (NoDeadlock PeerManager.perform)
          ⟨false, PeerManager.create maxPeersCount⟩ peers ↔
        Along (step PeerManager.perform) (fun s method => PeerManager.Safe s.state method)
          ⟨false, PeerManager.create maxPeersCount⟩ peers) ∧
      (Along (step BackupManager.perform) (NoDeadlock BackupManager.perform)
          ⟨false, BackupManager.create directory maxBackupCount files⟩ backups ↔
        Along (step BackupManager.perform) (fun s method => BackupManager.Safe s.state method)
          ⟨false, BackupManager.create directory maxBackupCount files⟩ backups) ∧
      (Along (step Ledger.perform) (NoDeadlock Ledger.perform) ⟨false, Ledger.create max⟩ ledger ↔
        Along (step Ledger.perform) (fun _ method => Ledger.Safe method)
          ⟨false, Ledger.create max⟩ ledger) :=
  ⟨DatabaseObject.along_noDeadlock_iff autoSaveEnabled file database,
    PeerManager.along_noDeadlock_iff maxPeersCount peers,
    BackupManager.along_noDeadlock_iff directory maxBackupCount files backups,
    Ledger.along_noDeadlock_iff max ledger⟩

/-- In the default configuration, a database waits for itself in its first call. -/
theorem get_deadlocks :
    ¬ ∀ (autoSaveEnabled : Bool) (file : Option Str) (database : List DatabaseObject.Method),
      Along (step DatabaseObject.perform) (NoDeadlock DatabaseObject.perform)
        ⟨false, DatabaseObject.create autoSaveEnabled file⟩ database := by
  intro h
  obtain ⟨hfirst, -⟩ := h true none [.get 0 (ascii "balance")]
  exact (DatabaseObject.noDeadlock_iff rfl _).mp hfirst

end Blackstone.Bank
