import Blackstone.Library.Runs
import Blackstone.Updater.Files

/-!
# The update manager

`UpdateManager` of `main.py` in `options-manager` and the callers of its methods. What the network,
the disk and the programs that are started do is given with each call (`Outcome`).

An update is downloaded and its checksum compared, a backup is written, and the entries of the
update are copied into the working directory. When that fails, the last backup in the order of the
file names is restored.
-/

namespace Blackstone.Updater

open OrderedMap Runs

/-- `UpdateConfig`, without paths, addresses and delays. -/
structure UpdateConfig where
  autoInstall : Bool
  backupBeforeUpdate : Bool
  rollbackOnFailure : Bool
  maxRetries : Nat

/-- The default configuration. -/
def defaultConfig : UpdateConfig where
  autoInstall := true
  backupBeforeUpdate := true
  rollbackOnFailure := true
  maxRetries := 5

/-- `UpdateManifest`, the fields that are read. -/
structure UpdateManifest where
  version : Text
  requiredBuild : Int
  binaryChecksum : Text
  binarySize : Int
  migrationScript : Option Text
  rolloutPercentage : Int

/-- The manifest of a forced update for which there is none. -/
def forcedManifest : UpdateManifest where
  version := text "999.999.999"
  requiredBuild := 999999
  binaryChecksum := []
  binarySize := 0
  migrationScript := none
  rolloutPercentage := 100

/-- `UpdateState`. -/
inductive UpdateState where
  | idle | checking | downloading | verifying | backup | installing | migrating | rollback
  | completed | failed

/-- `UpdateStatus`. -/
structure UpdateStatus where
  currentVersion : Text
  availableVersion : Option Text
  updateAvailable : Bool
  updateSize : Int
  state : UpdateState

variable {C : Type}

/-- The contents of files as the manager reads and writes them: the text of `version.json`, and the
version that the program itself reports. -/
structure Platform (C : Type) where
  dump : Text → Nat → Int → C
  load : C → Option Text
  load_dump : ∀ version now build, load (dump version now build) = some version
  detect : Files C → Text

/-- A downloaded file: its checksum, and its entries if it is an archive. -/
structure Download (C : Type) where
  hexdigest : Text
  length_hexdigest : hexdigest.length = 64
  entries : Option (Entries C)

/-- A time as it stands in the name of a backup, `YYYYmmdd_HHMMSS`. -/
structure Stamp where
  text : Text
  length_text : text.length = 15

/-- How the writing of a backup ends; an archive that is cut off is closed and stays. -/
inductive BackupOutcome (C : Type) where
  | complete
  | refused
  | cut (written : Entries C)

/-- What happens outside during an update. -/
structure Outcome (C : Type) where
  attempts : List (Option (Download C))
  backup : BackupOutcome C
  fault : Fault C
  migrate : Files C → Files C × Bool
  now : Nat
  chmodFails : Bool
  rollbackFault : Fault C

/-- `UpdateManager` with the working directory and the backups. -/
structure UpdateManager (C : Type) where
  files : Files C
  backups : Std.TreeMap Text (Entries C)
  status : UpdateStatus

namespace UpdateManager

/-- A change of `status.state`. -/
def inState (m : UpdateManager C) (state : UpdateState) : UpdateManager C :=
  { m with status := { m.status with state := state } }

/-- `_get_current_version`. -/
def getCurrentVersion (p : Platform C) (files : Files C) : Text :=
  match files[text "version.json"]? with
  | some (.file content) => (p.load content).getD (p.detect files)
  | _ => p.detect files

/-- The constructor, in a directory without backups. -/
def create (p : Platform C) (files : Files C) : UpdateManager C where
  files := files
  backups := ∅
  status :=
    { currentVersion := getCurrentVersion p files
      availableVersion := none
      updateAvailable := false
      updateSize := 0
      state := .idle }

/-! ## Checking and downloading -/

/-- `check_for_updates`, with the manifest that was fetched. -/
def checkForUpdates (m : UpdateManager C) (fetched : Option UpdateManifest) :
    Option UpdateManifest × UpdateManager C :=
  let checking := m.inState .checking
  match fetched with
  | none => (none, { checking with status := { checking.status with updateAvailable := false } })
  | some manifest =>
    match compareVersions manifest.version m.status.currentVersion with
    | none => (none, m.inState .failed)
    | some result =>
      if result > 0 then
        (some manifest,
          { checking with
            status := { checking.status with
              availableVersion := some manifest.version
              updateAvailable := true
              updateSize := manifest.binarySize } })
      else (none, { checking with status := { checking.status with updateAvailable := false } })

/-- `_constant_time_compare`. -/
def constantTimeCompare (a b : Text) : Bool :=
  if a.length ≠ b.length then false
  else (a.zip b).foldl (fun result xy => result ||| (xy.1.toNat ^^^ xy.2.toNat)) 0 = 0

/-- `verify_checksum`. -/
def verifyChecksum (download : Download C) (expected : Text) : Bool :=
  constantTimeCompare download.hexdigest (expected.map Char.toLower)

/-- `download_update`: the first download with the right checksum, of `max_retries` attempts. -/
def downloadUpdate (cfg : UpdateConfig) (m : UpdateManager C) (manifest : UpdateManifest)
    (attempts : List (Option (Download C))) : Option (Download C) × UpdateManager C :=
  match ((attempts.take cfg.maxRetries).filterMap id).find?
      (verifyChecksum · manifest.binaryChecksum) with
  | some download => (some download, m.inState .downloading)
  | none => (none, m.inState .failed)

/-! ## Backups and rollback -/

/-- The name of a backup. -/
def backupName (version : Text) (stamp : Stamp) : Text :=
  text "backup_" ++ (version ++ '_' :: (stamp.text ++ text ".zip"))

/-- `create_backup`; there is no directory in the one of the backups. -/
def createBackup (cfg : UpdateConfig) (m : UpdateManager C) (stamp : Stamp)
    (outcome : BackupOutcome C) : Option Text × UpdateManager C :=
  if ¬cfg.backupBeforeUpdate then (none, m)
  else
    let name := backupName m.status.currentVersion stamp
    if '/' ∈ m.status.currentVersion then (none, m.inState .backup)
    else
      match outcome with
      | .complete =>
        (some name, { m.inState .backup with backups := m.backups.insert name (archive m.files) })
      | .refused => (none, m.inState .backup)
      | .cut written =>
        (none, { m.inState .backup with backups := m.backups.insert name written })

/-- The names that the pattern `backup_*.zip` matches. -/
def isBackupName (name : Text) : Bool :=
  (text "backup_").isPrefixOf name && (text ".zip").isSuffixOf name

/-- The first of the sorted and reversed names. -/
def latestBackup (backups : Std.TreeMap Text (Entries C)) : Option (Text × Entries C) :=
  (backups.toList.filter fun entry => isBackupName entry.1).getLast?

/-- `rollback_update`. -/
def rollbackUpdate (p : Platform C) (m : UpdateManager C) (fault : Fault C) :
    Bool × UpdateManager C :=
  match latestBackup m.backups with
  | none => (false, m.inState .rollback)
  | some (_, entries) =>
    let copied := copyAll fault 0 m.files entries
    let restored := { m.inState .rollback with files := copied.1 }
    if copied.2 then
      (true, { restored with
        status := { restored.status with currentVersion := getCurrentVersion p copied.1 } })
    else (false, restored)

/-! ## Installing -/

/-- The migration script is run if there is one. -/
def runMigration (manifest : UpdateManifest) (migrate : Files C → Files C × Bool)
    (files : Files C) : Files C × Bool :=
  match manifest.migrationScript with
  | none => (files, true)
  | some script => if script = [] then (files, true) else migrate files

/-- The state in which an exception of `install_update` is caught. -/
def failedState (manifest : UpdateManifest) (outcome : Outcome C) (files : Files C)
    (entries : Option (Entries C)) : UpdateState :=
  match entries with
  | none => .installing
  | some entries =>
    if (copyAll outcome.fault 0 files entries).2 ∧ manifest.migrationScript.getD [] ≠ [] then
      .migrating
    else .installing

/-- `version.json` is written, in the given round. -/
def writeVersion (p : Platform C) (manifest : UpdateManifest) (outcome : Outcome C) (round : Nat)
    (files : Files C) : Files C × Bool :=
  match outcome.fault.at round, files[text "version.json"]? with
  | some left, _ => (put files (text "version.json") left, false)
  | none, some (.dir _) => (files, false)
  | none, _ =>
    (files.insert (text "version.json")
      (.file (p.dump manifest.version outcome.now manifest.requiredBuild)),
      !(files.contains (text "main") && outcome.chmodFails))

/-- What `install_update` does to the files; the flag is false after an exception. -/
def installFiles (p : Platform C) (manifest : UpdateManifest) (outcome : Outcome C)
    (files : Files C) (entries : Option (Entries C)) : Files C × Bool :=
  match entries with
  | none => (files, false)
  | some entries =>
    let copied := copyAll outcome.fault 0 files entries
    if ¬copied.2 then copied
    else
      let migrated := runMigration manifest outcome.migrate copied.1
      if ¬migrated.2 then migrated
      else writeVersion p manifest outcome entries.length migrated.1

/-- `install_update`. -/
def installUpdate (p : Platform C) (cfg : UpdateConfig) (m : UpdateManager C)
    (manifest : UpdateManifest) (outcome : Outcome C) (download : Download C) :
    Bool × UpdateManager C :=
  let installed := installFiles p manifest outcome m.files download.entries
  let left :=
    { m.inState (failedState manifest outcome m.files download.entries) with files := installed.1 }
  if installed.2 then
    (true, { left with
      status := { left.status with currentVersion := manifest.version, state := .completed } })
  else if cfg.rollbackOnFailure then
    (false, (left.rollbackUpdate p outcome.rollbackFault).2)
  else (false, left)

/-- `apply_update`. -/
def applyUpdate (p : Platform C) (cfg : UpdateConfig) (m : UpdateManager C)
    (manifest : UpdateManifest) (stamp : Stamp) (outcome : Outcome C) : Bool × UpdateManager C :=
  match m.downloadUpdate cfg manifest outcome.attempts with
  | (none, failed) => (false, failed)
  | (some download, downloaded) =>
    let backed := downloaded.createBackup cfg stamp outcome.backup
    if cfg.backupBeforeUpdate ∧ backed.1 = none then (false, backed.2)
    else backed.2.installUpdate p cfg manifest outcome download

/-! ## The callers -/

/-- One round of `auto_update_loop`, with the number that was drawn. -/
def autoUpdate (p : Platform C) (cfg : UpdateConfig) (m : UpdateManager C)
    (fetched : Option UpdateManifest) (roll : Int) (stamp : Stamp) (outcome : Outcome C) :
    UpdateManager C :=
  match m.checkForUpdates fetched with
  | (none, checked) => checked
  | (some manifest, checked) =>
    if cfg.autoInstall ∧ roll ≤ manifest.rolloutPercentage then
      (checked.applyUpdate p cfg manifest stamp outcome).2
    else checked

/-- `_cmd_update`. -/
def cmdUpdate (p : Platform C) (cfg : UpdateConfig) (m : UpdateManager C) (force : Bool)
    (fetched : Option UpdateManifest) (stamp : Stamp) (outcome : Outcome C) : UpdateManager C :=
  match m.checkForUpdates fetched with
  | (some manifest, checked) => (checked.applyUpdate p cfg manifest stamp outcome).2
  | (none, checked) =>
    if force then (checked.applyUpdate p cfg forcedManifest stamp outcome).2 else checked

/-- `repair_corrupted_files`, which makes no backup. -/
def repairCorruptedFiles (p : Platform C) (cfg : UpdateConfig) (m : UpdateManager C)
    (fetched : Option UpdateManifest) (outcome : Outcome C) : UpdateManager C :=
  match m.checkForUpdates fetched with
  | (none, checked) => checked
  | (some manifest, checked) =>
    match checked.downloadUpdate cfg manifest outcome.attempts with
    | (none, failed) => failed
    | (some download, downloaded) => (downloaded.installUpdate p cfg manifest outcome download).2

end UpdateManager

/-- A call of the manager, or work of the program in its directory. -/
inductive UpdateCall (C : Type) where
  | autoUpdate (fetched : Option UpdateManifest) (roll : Int) (outcome : Outcome C)
  | cmdUpdate (force : Bool) (fetched : Option UpdateManifest) (outcome : Outcome C)
  | repair (fetched : Option UpdateManifest) (outcome : Outcome C)
  | rollback (fault : Fault C)
  | work (change : Files C → Files C)

/-- A call and its time. -/
structure UpdateEvent (C : Type) where
  stamp : Stamp
  call : UpdateCall C

/-- The manager after a call. -/
def updateStep (p : Platform C) (cfg : UpdateConfig) (m : UpdateManager C) (e : UpdateEvent C) :
    UpdateManager C :=
  match e.call with
  | .autoUpdate fetched roll outcome => m.autoUpdate p cfg fetched roll e.stamp outcome
  | .cmdUpdate force fetched outcome => m.cmdUpdate p cfg force fetched e.stamp outcome
  | .repair fetched outcome => m.repairCorruptedFiles p cfg fetched outcome
  | .rollback fault => (m.rollbackUpdate p fault).2
  | .work change => { m with files := change m.files }

end Blackstone.Updater
