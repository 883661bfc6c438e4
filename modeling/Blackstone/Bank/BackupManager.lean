import Blackstone.Bank.Ternary
import Blackstone.Library.LockGuard
import Blackstone.Library.OrderedMap
import Mathlib.Data.List.Sort

/-!
# The backup manager

`backup_manager.cpp`. The methods that change the list of backups lock `backupMutex`. While they
hold it, `createBackup` and `setMaxBackups` call `cleanupOldBackups`, which deletes the oldest
backups by a method that locks again. They wait for themselves exactly when there are more
backups than allowed (`along_noDeadlock_iff`).

The clock and the system's refusals to open, remove or copy a file are arguments of the methods.
-/

namespace Blackstone.Bank

open Delimited LockGuard Call OrderedMap Runs

/-- `BackupManager`, without its mutex, and the files. -/
structure BackupManager where
  backupDir : Str
  metadata : Std.TreeMap Str Str
  maxBackups : Nat
  files : Std.TreeMap Str Str

namespace BackupManager

/-- The constructor. -/
def create (directory : Str) (maxBackupCount : Nat) (files : Std.TreeMap Str Str) :
    BackupManager where
  backupDir := directory
  metadata := ∅
  maxBackups := maxBackupCount
  files := files

/-- `BackupManager::generateBackupPath`. -/
def generateBackupPath (s : BackupManager) (name : Str) : Str :=
  s.backupDir ++ ascii "/" ++ name ++ ascii ".backup"

/-- What `createBackup` does to the files and the list. -/
def store (s : BackupManager) (written listed : UInt64) (name data : Str) : BackupManager :=
  { s with
    files := s.files.insert (s.generateBackupPath name)
      (decimal written.toNat ++ ascii "\n" ++ encodeBinary data)
    metadata := s.metadata.insert name (decimal listed.toNat) }

/-- What `restoreBackup` reads; a file that does not open is `none`. -/
def restore (s : BackupManager) (name : Str) (refused : Str → Bool) : Option Str :=
  let path := s.generateBackupPath name
  match s.files[path]? with
  | none => none
  | some text =>
    if refused path then none else some (decodeTernary (getline 0 (getline 10 text).2).1)

/-- `BackupManager::restoreBackup`, with the data that it assigns. -/
def restoreBackup (name : Str) (refused : Str → Bool) :
    Call BackupManager (Bool × Option Str) :=
  lockGuard do
    let data ← read (·.restore name refused)
    return (data.any (· ≠ []), data)

/-- `BackupManager::deleteBackup`; a file that must not be removed is an exception. -/
def deleteBackup (name : Str) (refused : Str → Bool) : Call BackupManager Bool :=
  lockGuard do
    let path ← read (·.generateBackupPath name)
    if refused path then ofOption none
    else do
      let removed ← read (·.files.contains path)
      if removed then
        write (fun s => { s with
          files := s.files.erase path
          metadata := s.metadata.erase name })
      return removed

/-- `BackupManager::listBackups`. -/
def listBackups (s : BackupManager) : List Str := s.metadata.keys

/-- `BackupManager::backupExists`. -/
def backupExists (s : BackupManager) (name : Str) : Bool := s.metadata.contains name

/-- `BackupManager::getBackupSize`. -/
def getBackupSize (name : Str) (refused : Str → Bool) : Call BackupManager Nat := do
  let path ← read (·.generateBackupPath name)
  let text ← read (·.files[path]?)
  ofOption (if refused path then none else text.map List.length)

/-- `BackupManager::getBackupTime`. -/
def getBackupTime (name : Str) : Call BackupManager UInt64 :=
  lockGuard do
    let found ← read (·.metadata[name]?)
    match found with
    | none => return 0
    | some time => ofOption (stoull time)

/-- The pairs that `cleanupOldBackups` sorts; a time that cannot be read is thrown. -/
def readTimes : List (Str × Str) → Option (List (UInt64 × Str))
  | [] => some []
  | e :: entries =>
    match stoull e.2 with
    | none => none
    | some time => (readTimes entries).map ((time, e.1) :: ·)

/-- The order of pairs. -/
def before (a b : UInt64 × Str) : Bool :=
  a.1 < b.1 || (a.1 == b.1 && (compare a.2 b.2).isLE)

/-- `BackupManager::cleanupOldBackups`. -/
def cleanupOldBackups (refused : Str → Bool) : Call BackupManager Unit := do
  let s ← read id
  if s.metadata.size ≤ s.maxBackups then pure ()
  else do
    let times ← ofOption (readTimes s.metadata.toList)
    let oldest := (times.mergeSort before).take (s.metadata.size - s.maxBackups)
    oldest.forM (fun e => do discard (deleteBackup e.2 refused))

/-- `BackupManager::createBackup`. -/
def createBackup (written listed : UInt64) (name data : Str) (refused : Str → Bool) :
    Call BackupManager Bool :=
  lockGuard do
    let path ← read (·.generateBackupPath name)
    if refused path then return false
    else do
      write (·.store written listed name data)
      cleanupOldBackups refused
      return true

/-- `BackupManager::setMaxBackups`. -/
def setMaxBackups (max : Nat) (refused : Str → Bool) : Call BackupManager Unit :=
  lockGuard do
    write (fun s => { s with maxBackups := max })
    cleanupOldBackups refused

/-- `BackupManager::exportBackup`. -/
def exportBackup (name exportPath : Str) (refused : Str → Bool) : Call BackupManager Bool :=
  update fun s =>
    let dst := exportPath ++ ascii "/" ++ name ++ ascii ".backup"
    match s.files[s.generateBackupPath name]? with
    | none => (false, s)
    | some text =>
      if refused dst then (false, s) else (true, { s with files := s.files.insert dst text })

/-- `BackupManager::importBackup`. -/
def importBackup (listed : UInt64) (importPath newName : Str) (refused : Str → Bool) :
    Call BackupManager Bool :=
  update fun s =>
    let dst := s.generateBackupPath newName
    match s.files[importPath]? with
    | none => (false, s)
    | some text =>
      if refused dst then (false, s)
      else
        (true,
          { s with
            files := s.files.insert dst text
            metadata := s.metadata.insert newName (decimal listed.toNat) })

/-- A call of a public method, or a change of the files by another program. -/
inductive Method where
  | createBackup (written listed : UInt64) (name data : Str) (refused : Str → Bool)
  | restoreBackup (name : Str) (refused : Str → Bool)
  | deleteBackup (name : Str) (refused : Str → Bool)
  | listBackups
  | backupExists (name : Str)
  | getBackupSize (name : Str) (refused : Str → Bool)
  | getBackupTime (name : Str)
  | cleanupOldBackups (refused : Str → Bool)
  | setMaxBackups (max : Nat) (refused : Str → Bool)
  | exportBackup (name exportPath : Str) (refused : Str → Bool)
  | importBackup (listed : UInt64) (importPath newName : Str) (refused : Str → Bool)
  | filesChanged (files : Std.TreeMap Str Str)

/-- A method runs; what it returns is dropped. -/
def perform : Method → Call BackupManager Unit
  | .createBackup written listed name data refused =>
    do discard (createBackup written listed name data refused)
  | .restoreBackup name refused => do discard (restoreBackup name refused)
  | .deleteBackup name refused => do discard (deleteBackup name refused)
  | .listBackups => do discard (lockGuard (read listBackups))
  | .backupExists name => do discard (lockGuard (read (·.backupExists name)))
  | .getBackupSize name refused => do discard (getBackupSize name refused)
  | .getBackupTime name => do discard (getBackupTime name)
  | .cleanupOldBackups refused => cleanupOldBackups refused
  | .setMaxBackups max refused => setMaxBackups max refused
  | .exportBackup name exportPath refused => do discard (exportBackup name exportPath refused)
  | .importBackup listed importPath newName refused =>
    do discard (importBackup listed importPath newName refused)
  | .filesChanged files => write (fun s => { s with files := files })

/-! ## What every method keeps -/

theorem balanced_cleanupOldBackups (refused : Str → Bool) :
    Balanced (cleanupOldBackups refused) := by
  refine (balanced_update _).bind fun s => ?_
  split
  · exact balanced_pure ()
  · refine (balanced_ofOption _).bind fun times => ?_
    exact Balanced.forM (fun e => (balanced_lockGuard _).discard) _

theorem balanced_perform (method : Method) : Balanced (perform method) := by
  cases method with
  | createBackup => exact (balanced_lockGuard _).discard
  | restoreBackup => exact (balanced_lockGuard _).discard
  | deleteBackup => exact (balanced_lockGuard _).discard
  | listBackups => exact (balanced_lockGuard _).discard
  | backupExists => exact (balanced_lockGuard _).discard
  | getBackupSize =>
    refine Balanced.discard ((balanced_update _).bind fun path => ?_)
    exact (balanced_update _).bind fun text => balanced_ofOption _
  | getBackupTime => exact (balanced_lockGuard _).discard
  | cleanupOldBackups refused => exact balanced_cleanupOldBackups refused
  | setMaxBackups => exact balanced_lockGuard _
  | exportBackup => exact (balanced_update _).discard
  | importBackup => exact (balanced_update _).discard
  | filesChanged =>
    rw [perform]
    exact balanced_update _

/-- Every listed time can be read. -/
def Readable (s : BackupManager) : Prop :=
  ∀ (name time : Str), s.metadata[name]? = some time → (stoull time).isSome = true

theorem Readable.insert {s : BackupManager} (h : s.Readable) (listed : UInt64) (name : Str)
    {s' : BackupManager} (hs' : s'.metadata = s.metadata.insert name (decimal listed.toNat)) :
    s'.Readable := by
  intro name' time htime
  rw [hs', getElem?_insert_eq] at htime
  split at htime
  · rw [← Option.some.inj htime, stoull_decimal]
    rfl
  · exact h name' time htime

theorem Readable.erase {s : BackupManager} (h : s.Readable) (name : Str)
    {s' : BackupManager} (hs' : s'.metadata = s.metadata.erase name) : s'.Readable := by
  intro name' time htime
  rw [hs', getElem?_erase_eq] at htime
  split at htime
  · cases htime
  · exact h name' time htime

theorem preserves_deleteBackup (name : Str) (refused : Str → Bool) :
    Preserves Readable (deleteBackup name refused) := by
  refine Preserves.lockGuard (preserves_read.bind fun path => ?_)
  split
  · exact preserves_ofOption none
  · refine preserves_read.bind fun removed => ?_
    split
    · refine Preserves.bind ?_ fun _ => preserves_pure _
      exact preserves_update (fun s hs => hs.erase name rfl)
    · exact preserves_pure _

theorem preserves_cleanupOldBackups (refused : Str → Bool) :
    Preserves Readable (cleanupOldBackups refused) := by
  refine preserves_read.bind fun s => ?_
  split
  · exact preserves_pure ()
  · refine (preserves_ofOption _).bind fun times => ?_
    exact Preserves.forM (fun e : UInt64 × Str => (preserves_deleteBackup e.2 refused).discard) _

theorem preserves_createBackup (written listed : UInt64) (name data : Str)
    (refused : Str → Bool) :
    Preserves Readable (createBackup written listed name data refused) := by
  refine Preserves.lockGuard (preserves_read.bind fun path => ?_)
  split
  · exact preserves_pure false
  · refine Preserves.bind (preserves_update fun s hs => ?_) fun _ => ?_
    · exact hs.insert listed name rfl
    · exact (preserves_cleanupOldBackups refused).bind fun _ => preserves_pure true

theorem preserves_setMaxBackups (max : Nat) (refused : Str → Bool) :
    Preserves Readable (setMaxBackups max refused) :=
  Preserves.lockGuard ((preserves_update fun _ hs => hs).bind
    fun _ => preserves_cleanupOldBackups refused)

theorem preserves_exportBackup (name exportPath : Str) (refused : Str → Bool) :
    Preserves Readable (exportBackup name exportPath refused) := by
  refine preserves_update fun s hs => ?_
  simp only
  split
  · exact hs
  · split
    · exact hs
    · exact hs

theorem preserves_importBackup (listed : UInt64) (importPath newName : Str)
    (refused : Str → Bool) :
    Preserves Readable (importBackup listed importPath newName refused) := by
  refine preserves_update fun s hs => ?_
  simp only
  split
  · exact hs
  · split
    · exact hs
    · exact hs.insert listed newName rfl

theorem preserves_perform (method : Method) : Preserves Readable (perform method) := by
  cases method with
  | createBackup written listed name data refused =>
    exact (preserves_createBackup written listed name data refused).discard
  | restoreBackup name refused =>
    exact (Preserves.lockGuard (preserves_read.bind fun data => preserves_pure _)).discard
  | deleteBackup name refused => exact (preserves_deleteBackup name refused).discard
  | listBackups => exact (Preserves.lockGuard preserves_read).discard
  | backupExists => exact (Preserves.lockGuard preserves_read).discard
  | getBackupSize =>
    refine Preserves.discard (preserves_read.bind fun path => ?_)
    exact preserves_read.bind fun text => preserves_ofOption _
  | getBackupTime =>
    refine Preserves.discard (Preserves.lockGuard (preserves_read.bind fun found => ?_))
    cases found with
    | none => exact preserves_pure 0
    | some time => exact preserves_ofOption _
  | cleanupOldBackups refused => exact preserves_cleanupOldBackups refused
  | setMaxBackups max refused => exact preserves_setMaxBackups max refused
  | exportBackup name exportPath refused =>
    exact (preserves_exportBackup name exportPath refused).discard
  | importBackup listed importPath newName refused =>
    exact (preserves_importBackup listed importPath newName refused).discard
  | filesChanged =>
    rw [perform]
    exact preserves_update fun _ hs => hs

/-! ## Deadlocks -/

theorem exists_readTimes {entries : List (Str × Str)}
    (h : ∀ e ∈ entries, (stoull e.2).isSome = true) :
    ∃ times, readTimes entries = some times ∧ times.length = entries.length := by
  induction entries with
  | nil => exact ⟨[], rfl, rfl⟩
  | cons e entries ih =>
    obtain ⟨time, htime⟩ := Option.isSome_iff_exists.mp (h e List.mem_cons_self)
    obtain ⟨times, htimes, hlength⟩ := ih (fun e' he' => h e' (List.mem_cons_of_mem _ he'))
    refine ⟨(time, e.1) :: times, ?_, by rw [List.length_cons, List.length_cons, hlength]⟩
    rw [readTimes, htime, htimes]
    rfl

/-- Where the mutex is held, the cleanup waits for itself if it has anything to delete. -/
theorem cleanupOldBackups_eq_deadlock_iff {s : Guarded BackupManager} (hlocked : s.locked = true)
    (hs : s.state.Readable) (refused : Str → Bool) :
    cleanupOldBackups refused s = .deadlock ↔ s.state.maxBackups < s.state.metadata.size := by
  rw [cleanupOldBackups, read_bind]
  by_cases hroom : s.state.metadata.size ≤ s.state.maxBackups
  · simp only [id, if_pos hroom]
    exact iff_of_false (quiet_pure () s) (Nat.not_lt.mpr hroom)
  · obtain ⟨times, htimes, hlength⟩ := @exists_readTimes s.state.metadata.toList
      (fun e he => hs e.1 e.2 (Std.TreeMap.mem_toList_iff_getElem?_eq_some.mp he))
    simp only [id, if_neg hroom, htimes]
    rw [Std.TreeMap.length_toList] at hlength
    have hne : (times.mergeSort before).take
        (s.state.metadata.size - s.state.maxBackups) ≠ [] := by
      apply List.ne_nil_of_length_pos
      rw [List.length_take, List.length_mergeSort]
      omega
    obtain ⟨e, oldest, holdest⟩ := List.exists_cons_of_ne_nil hne
    have hfirst := (discard_eq_deadlock_iff (deleteBackup e.2 refused) s).mpr
      (lockGuard_locked _ hlocked)
    refine iff_of_true ?_ (Nat.not_le.mp hroom)
    rw [ofOption_some_bind]
    simp only [holdest]
    exact forM_cons_eq_deadlock
      (f := fun e : UInt64 × Str => (do discard (deleteBackup e.2 refused))) hfirst oldest

/-- A method does not wait for itself. -/
def Safe (s : BackupManager) : Method → Prop
  | .createBackup _ _ name _ refused =>
    refused (s.generateBackupPath name) = false →
      (if name ∈ s.metadata then s.metadata.size else s.metadata.size + 1) ≤ s.maxBackups
  | .setMaxBackups max _ => s.metadata.size ≤ max
  | _ => True

theorem createBackup_ne_deadlock_iff {s : Guarded BackupManager} (hfree : s.locked = false)
    (hs : s.state.Readable) (written listed : UInt64) (name data : Str) (refused : Str → Bool) :
    createBackup written listed name data refused s ≠ .deadlock ↔
      Safe s.state (.createBackup written listed name data refused) := by
  rw [createBackup, ne_eq, lockGuard_eq_deadlock_iff _ hfree, read_bind, Safe]
  cases hrefused : refused (s.state.generateBackupPath name) with
  | true => exact iff_of_true (quiet_pure false _) (fun h => (by cases h))
  | false =>
    have hstored : (s.state.store written listed name data).Readable := hs.insert listed name rfl
    have hsize : (s.state.store written listed name data).metadata.size =
        if name ∈ s.state.metadata then s.state.metadata.size
        else s.state.metadata.size + 1 := Std.TreeMap.size_insert
    simp only [Bool.false_eq_true, if_false, true_imp_iff]
    rw [write_bind, bind_pure_eq_deadlock_iff, cleanupOldBackups_eq_deadlock_iff rfl hstored,
      hsize, not_lt]
    rfl

theorem setMaxBackups_ne_deadlock_iff {s : Guarded BackupManager} (hfree : s.locked = false)
    (hs : s.state.Readable) (max : Nat) (refused : Str → Bool) :
    setMaxBackups max refused s ≠ .deadlock ↔ s.state.metadata.size ≤ max := by
  have hcleanup := cleanupOldBackups_eq_deadlock_iff
    (s := ⟨true, { s.state with maxBackups := max }⟩) rfl hs refused
  rw [setMaxBackups, ne_eq, lockGuard_eq_deadlock_iff _ hfree, write_bind]
  exact (not_congr hcleanup).trans not_lt

theorem unblocked_deleteBackup (name : Str) (refused : Str → Bool) :
    Unblocked (deleteBackup name refused) := by
  refine fun s => lockGuard_ne_deadlock ((quiet_update _).bind fun path => ?_)
  split
  · exact quiet_ofOption none
  · refine (quiet_update _).bind fun removed => ?_
    split
    · exact (quiet_update _).bind fun _ => quiet_pure _
    · exact quiet_pure _

theorem unblocked_cleanupOldBackups (refused : Str → Bool) :
    Unblocked (cleanupOldBackups refused) := by
  refine Unblocked.bind (fun s _ => quiet_update _ s) (balanced_update _) fun s => ?_
  split
  · exact fun s _ => quiet_pure () s
  · refine Unblocked.bind (fun s _ => quiet_ofOption _ s) (balanced_ofOption _) fun times => ?_
    exact Unblocked.forM (fun e : UInt64 × Str => (unblocked_deleteBackup e.2 refused).discard)
      (fun e => (balanced_lockGuard _).discard) _

theorem unblocked_perform {method : Method}
    (hcreate : ∀ written listed name data refused,
      method ≠ .createBackup written listed name data refused)
    (hmax : ∀ max refused, method ≠ .setMaxBackups max refused) : Unblocked (perform method) := by
  cases method with
  | createBackup written listed name data refused =>
    exact absurd rfl (hcreate written listed name data refused)
  | setMaxBackups max refused => exact absurd rfl (hmax max refused)
  | restoreBackup =>
    exact (Quiet.lockGuard ((quiet_update _).bind fun _ => quiet_pure _)).discard
  | deleteBackup name refused => exact (unblocked_deleteBackup name refused).discard
  | listBackups => exact (unblocked_read _).discard
  | backupExists => exact (unblocked_read _).discard
  | getBackupSize =>
    refine Unblocked.discard (Quiet.unblocked ((quiet_update _).bind fun path => ?_))
    exact (quiet_update _).bind fun text => quiet_ofOption _
  | getBackupTime =>
    refine Unblocked.discard (Quiet.lockGuard ((quiet_update _).bind fun found => ?_))
    cases found with
    | none => exact quiet_pure 0
    | some time => exact quiet_ofOption _
  | cleanupOldBackups refused => exact unblocked_cleanupOldBackups refused
  | exportBackup => exact (quiet_update _).unblocked.discard
  | importBackup => exact (quiet_update _).unblocked.discard
  | filesChanged =>
    rw [perform]
    exact (quiet_update _).unblocked

theorem noDeadlock_iff {s : Guarded BackupManager} (hfree : s.locked = false)
    (hs : s.state.Readable) (method : Method) :
    NoDeadlock perform s method ↔ Safe s.state method := by
  cases method with
  | createBackup written listed name data refused =>
    rw [NoDeadlock, perform, ne_eq, discard_eq_deadlock_iff]
    exact createBackup_ne_deadlock_iff hfree hs written listed name data refused
  | setMaxBackups max refused => exact setMaxBackups_ne_deadlock_iff hfree hs max refused
  | _ =>
    exact iff_of_true (unblocked_perform (fun _ _ _ _ _ h => by cases h)
      (fun _ _ h => by cases h) s hfree) trivial

/-- Along a run, no method waits for itself exactly when no method that holds the mutex finds
more backups than allowed. -/
theorem along_noDeadlock_iff (directory : Str) (maxBackupCount : Nat)
    (files : Std.TreeMap Str Str) (methods : List Method) :
    Along (step perform) (NoDeadlock perform) ⟨false, create directory maxBackupCount files⟩
        methods ↔
      Along (step perform) (fun s method => Safe s.state method)
        ⟨false, create directory maxBackupCount files⟩ methods := by
  have hstart : (create directory maxBackupCount files).Readable := by
    intro name time htime
    rw [create, Std.TreeMap.getElem?_emptyc] at htime
    cases htime
  exact LockGuard.along_noDeadlock_iff Readable Safe balanced_perform
    (fun _ hfree hs method => noDeadlock_iff hfree hs method) preserves_perform rfl hstart methods

end BackupManager

end Blackstone.Bank
