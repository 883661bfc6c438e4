import Blackstone.Library.LexOrder
import Blackstone.Updater.UpdateManager

/-!
# Undoing a failed update

The name of a backup has the version before the time, and a rollback takes the last name. On every
run, the backup of a failing update is the one that is taken exactly when no backup was made from a
version whose text sorts behind the current one (`ownBackup_iff`): `9.0.0` does behind `10.0.0`.
When it is taken, the files are what they were before exactly when the update has changed nothing
that is not in the backup (`undone_iff`).
-/

namespace Blackstone.Updater

open LexOrder OrderedMap Runs

variable {C : Type}

/-- Times are compared as texts. -/
instance : LE Stamp := ⟨fun a b => (compare a.text b.text).isLE⟩

instance : Preorder Stamp where
  le_refl a := Std.ReflOrd.isLE_rfl
  le_trans _ _ _ h h' := Std.TransOrd.isLE_trans h h'

namespace UpdateManager

variable (p : Platform C) (cfg : UpdateConfig)

theorem lt_of_isLE {o : Ordering} (hle : o.isLE) (hne : o ≠ .eq) : o = .lt := by
  cases o
  · rfl
  · exact absurd rfl hne
  · cases hle

/-! ## What the calls leave alone -/

@[simp] theorem files_checkForUpdates (m : UpdateManager C) (fetched : Option UpdateManifest) :
    (m.checkForUpdates fetched).2.files = m.files := by
  unfold checkForUpdates
  cases fetched with
  | none => rfl
  | some manifest =>
    dsimp only
    split
    · rfl
    · split <;> rfl

@[simp] theorem backups_checkForUpdates (m : UpdateManager C) (fetched : Option UpdateManifest) :
    (m.checkForUpdates fetched).2.backups = m.backups := by
  unfold checkForUpdates
  cases fetched with
  | none => rfl
  | some manifest =>
    dsimp only
    split
    · rfl
    · split <;> rfl

@[simp] theorem currentVersion_checkForUpdates (m : UpdateManager C)
    (fetched : Option UpdateManifest) :
    (m.checkForUpdates fetched).2.status.currentVersion = m.status.currentVersion := by
  unfold checkForUpdates
  cases fetched with
  | none => rfl
  | some manifest =>
    dsimp only
    split
    · rfl
    · split <;> rfl

/-- A download changes nothing but the state. -/
theorem downloadUpdate_eq (m : UpdateManager C) (manifest : UpdateManifest)
    (attempts : List (Option (Download C))) :
    ∃ state, (m.downloadUpdate cfg manifest attempts).2 = m.inState state := by
  unfold downloadUpdate
  split
  · exact ⟨_, rfl⟩
  · exact ⟨_, rfl⟩

@[simp] theorem backups_rollbackUpdate (m : UpdateManager C) (fault : Fault C) :
    (m.rollbackUpdate p fault).2.backups = m.backups := by
  unfold rollbackUpdate
  split
  · rfl
  · dsimp only
    split <;> rfl

@[simp] theorem backups_installUpdate (m : UpdateManager C) (manifest : UpdateManifest)
    (outcome : Outcome C) (download : Download C) :
    (m.installUpdate p cfg manifest outcome download).2.backups = m.backups := by
  unfold installUpdate
  dsimp only
  split_ifs
  · rfl
  · rw [backups_rollbackUpdate]
    rfl
  · rfl

/-! ## The names of the backups -/

/-- The only name that is new after a backup is its own. -/
theorem mem_backups_createBackup {m : UpdateManager C} {stamp : Stamp}
    {outcome : BackupOutcome C} {name : Text}
    (h : name ∈ (m.createBackup cfg stamp outcome).2.backups) :
    name ∈ m.backups ∨ name = backupName m.status.currentVersion stamp := by
  unfold createBackup at h
  dsimp only at h
  split_ifs at h
  · exact Or.inl h
  · cases outcome with
    | complete =>
      rcases mem_insert_iff.mp h with heq | hold
      · exact Or.inr heq.symm
      · exact Or.inl hold
    | refused => exact Or.inl h
    | cut written =>
      rcases mem_insert_iff.mp h with heq | hold
      · exact Or.inr heq.symm
      · exact Or.inl hold
  · exact Or.inl h

theorem mem_backups_applyUpdate {m : UpdateManager C} {manifest : UpdateManifest} {stamp : Stamp}
    {outcome : Outcome C} {name : Text}
    (h : name ∈ (m.applyUpdate p cfg manifest stamp outcome).2.backups) :
    name ∈ m.backups ∨ name = backupName m.status.currentVersion stamp := by
  obtain ⟨state, hstate⟩ := m.downloadUpdate_eq cfg manifest outcome.attempts
  unfold applyUpdate at h
  revert h hstate
  cases m.downloadUpdate cfg manifest outcome.attempts with
  | mk found downloaded =>
    rintro h rfl
    cases found with
    | none => exact Or.inl h
    | some download =>
      dsimp only at h
      split_ifs at h
      · exact mem_backups_createBackup cfg (m := m.inState state) h
      · rw [backups_installUpdate] at h
        exact mem_backups_createBackup cfg (m := m.inState state) h

/-- The only name that is new after a call has its time. -/
theorem mem_backups_updateStep {m : UpdateManager C} {e : UpdateEvent C} {name : Text}
    (h : name ∈ (updateStep p cfg m e).backups) :
    name ∈ m.backups ∨ ∃ version, name = backupName version e.stamp := by
  unfold updateStep at h
  cases hcall : e.call with
  | autoUpdate fetched roll outcome =>
    have hkept := m.backups_checkForUpdates fetched
    rw [hcall] at h
    simp only [autoUpdate] at h
    revert h hkept
    cases m.checkForUpdates fetched with
    | mk found checked =>
      intro h hkept
      cases found with
      | none => exact Or.inl (hkept ▸ h)
      | some manifest =>
        dsimp only at h hkept
        split_ifs at h
        · rcases mem_backups_applyUpdate p cfg h with hold | hnew
          · exact Or.inl (hkept ▸ hold)
          · exact Or.inr ⟨_, hnew⟩
        · exact Or.inl (hkept ▸ h)
  | cmdUpdate force fetched outcome =>
    have hkept := m.backups_checkForUpdates fetched
    rw [hcall] at h
    simp only [cmdUpdate] at h
    revert h hkept
    cases m.checkForUpdates fetched with
    | mk found checked =>
      intro h hkept
      have happly : ∀ manifest, name ∈
          (checked.applyUpdate p cfg manifest e.stamp outcome).2.backups →
          name ∈ m.backups ∨ ∃ version, name = backupName version e.stamp := by
        intro manifest hmem
        rcases mem_backups_applyUpdate p cfg hmem with hold | hnew
        · exact Or.inl (hkept ▸ hold)
        · exact Or.inr ⟨_, hnew⟩
      cases found with
      | none =>
        dsimp only at h hkept
        split_ifs at h
        · exact happly _ h
        · exact Or.inl (hkept ▸ h)
      | some manifest => exact happly manifest h
  | repair fetched outcome =>
    have hkept := m.backups_checkForUpdates fetched
    rw [hcall] at h
    simp only [repairCorruptedFiles] at h
    revert h hkept
    cases m.checkForUpdates fetched with
    | mk found checked =>
      intro h hkept
      cases found with
      | none => exact Or.inl (hkept ▸ h)
      | some manifest =>
        obtain ⟨state, hstate⟩ := checked.downloadUpdate_eq cfg manifest outcome.attempts
        dsimp only at h hkept
        revert h hstate
        cases checked.downloadUpdate cfg manifest outcome.attempts with
        | mk file downloaded =>
          rintro h rfl
          cases file with
          | none => exact Or.inl (hkept ▸ h)
          | some download =>
            dsimp only at h
            rw [backups_installUpdate] at h
            exact Or.inl (hkept ▸ h)
  | rollback fault =>
    rw [hcall] at h
    dsimp only at h
    rw [backups_rollbackUpdate] at h
    exact Or.inl h
  | work change =>
    rw [hcall] at h
    exact Or.inl h

/-- Every backup has the name of a version and of a time that is over. -/
def Named (clock : Stamp) (m : UpdateManager C) : Prop :=
  ∀ name ∈ m.backups, ∃ version stamp, name = backupName version stamp ∧ stamp ≤ clock

theorem named_create (files : Files C) (clock : Stamp) : Named clock (create p files) :=
  fun _ hname => absurd hname Std.TreeMap.not_mem_emptyc

theorem Named.step {m : UpdateManager C} {e : UpdateEvent C} (h : Named e.stamp m) :
    Named e.stamp (updateStep p cfg m e) := by
  intro name hname
  rcases mem_backups_updateStep p cfg hname with hold | ⟨version, rfl⟩
  · exact h name hold
  · exact ⟨version, e.stamp, rfl, le_refl _⟩

/-- On every run the backups have the names of times that are over. -/
theorem named_run (files : Files C) {events : List (UpdateEvent C)}
    (hsorted : events.Pairwise fun e f => e.stamp ≤ f.stamp) {stamp : Stamp}
    (hlater : ∀ e ∈ events, e.stamp ≤ stamp) :
    Named stamp (run (updateStep p cfg) (create p files) events) := by
  refine run_of_nondecreasing ?_ (fun m e h => h.step p cfg) (named_create p files) hsorted hlater
  intro clock later m h hle name hname
  obtain ⟨version, stamp, heq, hbefore⟩ := h name hname
  exact ⟨version, stamp, heq, hbefore.trans hle⟩

/-! ## The order of the names -/

theorem isBackupName_backupName (version : Text) (stamp : Stamp) :
    isBackupName (backupName version stamp) = true := by
  rw [isBackupName, Bool.and_eq_true, List.isPrefixOf_iff_prefix, List.isSuffixOf_iff_suffix]
  refine ⟨List.prefix_append _ _, text "backup_" ++ (version ++ '_' :: stamp.text), ?_⟩
  simp only [backupName, List.append_assoc, List.cons_append]

theorem backupName_injective {version version' : Text} {stamp stamp' : Stamp}
    (h : backupName version stamp = backupName version' stamp') : version = version' := by
  have hrest := List.append_cancel_left h
  have hlength : ('_' :: (stamp.text ++ text ".zip")).length =
      ('_' :: (stamp'.text ++ text ".zip")).length := by
    rw [List.length_cons, List.length_cons, List.length_append, List.length_append,
      stamp.length_text, stamp'.length_text]
  exact (List.append_inj' hrest hlength).1

/-- Different names of one version are in the order of their times. -/
theorem compare_backupName_self {version : Text} {stamp stamp' : Stamp}
    (hne : backupName version stamp ≠ backupName version stamp') :
    compare (backupName version stamp) (backupName version stamp') =
      compare stamp.text stamp'.text := by
  have htexts : stamp.text ≠ stamp'.text := by
    intro heq
    apply hne
    rw [backupName, backupName, heq]
  unfold backupName
  rw [compare_append_left, compare_append_left, List.compare_cons_cons,
    Std.ReflOrd.compare_self, Ordering.eq_then,
    compare_append_of_length_eq (stamp.length_text.trans stamp'.length_text.symm) htexts]

/-- Names of different versions are in the order of the versions, as texts up to the next `'_'`. -/
theorem compare_backupName_of_ne {version version' : Text} (h : '_' ∉ version)
    (h' : '_' ∉ version') (hne : version ≠ version') (stamp stamp' : Stamp) :
    compare (backupName version stamp) (backupName version' stamp') =
      compare (version ++ ['_']) (version' ++ ['_']) := by
  unfold backupName
  rw [compare_append_left, compare_terminated h h' hne]

/-- The backup with a name is the last one exactly when the names of the others are before it. -/
theorem latestBackup_insert_iff (backups : Std.TreeMap Text (Entries C)) {name : Text}
    (hname : isBackupName name = true) (entries : Entries C) :
    latestBackup (backups.insert name entries) = some (name, entries) ↔
      ∀ other ∈ backups, isBackupName other = true → other ≠ name → compare other name = .lt := by
  have hordered : (backups.insert name entries).toList.Pairwise
      fun a b => compare a.1 b.1 = .lt := Std.TreeMap.ordered_keys_toList
  rw [latestBackup, getLast?_filter_eq_some_iff (r := fun a b => compare a.1 b.1 = .lt)
    (fun a b hab hba => by rw [Std.OrientedOrd.eq_swap, hba] at hab; cases hab) hordered]
  have hlookup : ∀ entry : Text × Entries C, entry ∈ (backups.insert name entries).toList ↔
      (if name = entry.1 then some entries else backups[entry.1]?) = some entry.2 := by
    intro entry
    rw [Std.TreeMap.mem_toList_iff_getElem?_eq_some, getElem?_insert_eq]
  constructor
  · rintro ⟨-, -, hlast⟩ other hother hpattern hne
    rw [Std.TreeMap.mem_iff_isSome_getElem?, Option.isSome_iff_exists] at hother
    obtain ⟨kept, hkept⟩ := hother
    have hmem := (hlookup (other, kept)).mpr (by rw [if_neg (fun heq => hne heq.symm), hkept])
    rcases hlast (other, kept) hmem hpattern with heq | hbefore
    · exact absurd (congrArg Prod.fst heq) hne
    · exact hbefore
  · intro hbefore
    refine ⟨(hlookup (name, entries)).mpr (if_pos rfl), hname, ?_⟩
    rintro ⟨other, kept⟩ hmem hpattern
    have hfound := (hlookup (other, kept)).mp hmem
    split_ifs at hfound with heq
    · left
      rw [heq]
      exact congrArg (Prod.mk other) (Option.some.inj hfound).symm
    · right
      refine hbefore other ?_ hpattern (fun hsame => heq hsame.symm)
      rw [Std.TreeMap.mem_iff_isSome_getElem?, hfound]
      rfl

/-! ## The backup of a failing update -/

/-- Neither a path nor a name of a backup is cut inside the version. -/
def Plain (version : Text) : Prop := '_' ∉ version ∧ '/' ∉ version

/-- The backup that `create_backup` has written is the last one. -/
def OwnLast (m : UpdateManager C) (stamp : Stamp) : Prop :=
  latestBackup (m.createBackup cfg stamp .complete).2.backups =
    some (backupName m.status.currentVersion stamp, archive m.files)

theorem createBackup_complete (hbackup : cfg.backupBeforeUpdate = true) {m : UpdateManager C}
    (hplain : Plain m.status.currentVersion) (stamp : Stamp) :
    m.createBackup cfg stamp .complete =
      (some (backupName m.status.currentVersion stamp),
        { m.inState .backup with
          backups := m.backups.insert (backupName m.status.currentVersion stamp)
            (archive m.files) }) := by
  unfold createBackup
  simp only [hbackup, not_true_eq_false, if_false, if_neg hplain.2]

/-- In every run, the backup of a failing update is the one that a rollback takes exactly when no
earlier backup is of a version whose text sorts behind the current one. -/
theorem ownBackup_iff (files : Files C) {events : List (UpdateEvent C)}
    (hsorted : events.Pairwise fun e f => e.stamp ≤ f.stamp) {stamp : Stamp}
    (hlater : ∀ e ∈ events, e.stamp ≤ stamp) (hbackup : cfg.backupBeforeUpdate = true)
    (hversion : Plain (run (updateStep p cfg) (create p files) events).status.currentVersion)
    (hplain : ∀ version before,
      backupName version before ∈ (run (updateStep p cfg) (create p files) events).backups →
        Plain version) :
    OwnLast cfg (run (updateStep p cfg) (create p files) events) stamp ↔
      ∀ version before,
        backupName version before ∈ (run (updateStep p cfg) (create p files) events).backups →
          (compare (version ++ ['_'])
            ((run (updateStep p cfg) (create p files) events).status.currentVersion ++
              ['_'])).isLE := by
  have hnamed := named_run p cfg files hsorted hlater
  generalize run (updateStep p cfg) (create p files) events = m at hversion hplain hnamed ⊢
  rw [OwnLast, createBackup_complete cfg hbackup hversion,
    latestBackup_insert_iff _ (isBackupName_backupName _ _)]
  constructor
  · intro hlast version before hmem
    by_cases hsame : version = m.status.currentVersion
    · rw [hsame]
      exact Std.ReflOrd.isLE_rfl
    · have hne : backupName version before ≠ backupName m.status.currentVersion stamp :=
        fun heq => hsame (backupName_injective heq)
      have hbefore := hlast _ hmem (isBackupName_backupName _ _) hne
      rw [compare_backupName_of_ne (hplain _ _ hmem).1 hversion.1 hsame] at hbefore
      rw [hbefore]
      rfl
  · intro hle name hmem _ hne
    obtain ⟨version, before, rfl, hstamp⟩ := hnamed name hmem
    by_cases hsame : version = m.status.currentVersion
    · subst hsame
      have htexts : before.text ≠ stamp.text := by
        intro heq
        apply hne
        rw [backupName, backupName, heq]
      rw [compare_backupName_self hne]
      exact lt_of_isLE hstamp (Std.LawfulEqOrd.compare_eq_iff_eq.not.mpr htexts)
    · have htexts : version ++ ['_'] ≠ m.status.currentVersion ++ ['_'] :=
        fun heq => hsame (List.append_cancel_right heq)
      rw [compare_backupName_of_ne (hplain _ _ hmem).1 hversion.1 hsame]
      exact lt_of_isLE (hle _ _ hmem) (Std.LawfulEqOrd.compare_eq_iff_eq.not.mpr htexts)

/-! The first backup of an installation is of `9.0.0`, the second one of `10.0.0`. -/

/-- A platform whose files are texts. -/
def textPlatform : Platform Text where
  dump version _ _ := version
  load := some
  load_dump _ _ _ := rfl
  detect _ := text "9.0.0"

def firstFiles : Files Text := (∅ : Files Text).insert (text "main") (.file (text "old"))

def noon : Stamp := ⟨text "20260101_120000", rfl⟩

def evening : Stamp := ⟨text "20260101_180000", rfl⟩

/-- A download with a checksum of 64 digits. -/
def downloadOf (entries : Entries Text) : Download Text where
  hexdigest := List.replicate 64 'a'
  length_hexdigest := List.length_replicate
  entries := some entries

def manifestOf (version : Text) : UpdateManifest where
  version := version
  requiredBuild := 1
  binaryChecksum := List.replicate 64 'a'
  binarySize := 1
  migrationScript := none
  rolloutPercentage := 100

/-- An update that meets no exception of the system. -/
def quietOutcome (entries : Entries Text) : Outcome Text where
  attempts := [some (downloadOf entries)]
  backup := .complete
  fault := none
  migrate files := (files, true)
  now := 0
  chmodFails := false
  rollbackFault := none

def tenEvent : UpdateEvent Text where
  stamp := noon
  call := .autoUpdate (some (manifestOf (text "10.0.0"))) 1
    (quietOutcome [(text "main", .file (text "new"))])

theorem mem_backups_ten {name : Text}
    (h : name ∈ (run (updateStep textPlatform defaultConfig)
      (create textPlatform firstFiles) [tenEvent]).backups) :
    name = backupName (text "9.0.0") noon := by
  have hkeys : (run (updateStep textPlatform defaultConfig)
      (create textPlatform firstFiles) [tenEvent]).backups.keys =
      [backupName (text "9.0.0") noon] := by decide +kernel
  rw [← Std.TreeMap.mem_keys, hkeys] at h
  exact List.mem_singleton.mp h

/-- After the update to `10.0.0` the last backup is the one of `9.0.0`. -/
theorem ownBackup_iff_ten :
    ¬OwnLast defaultConfig (run (updateStep textPlatform defaultConfig)
      (create textPlatform firstFiles) [tenEvent]) evening := by
  intro hown
  have hle := (ownBackup_iff textPlatform defaultConfig firstFiles
    (List.pairwise_singleton _ tenEvent)
    (List.forall_mem_singleton.mpr (by decide +kernel)) rfl
    ⟨by decide +kernel, by decide +kernel⟩ (fun version before hmem => by
      rw [backupName_injective (mem_backups_ten hmem)]
      exact ⟨by decide, by decide⟩)).mp hown (text "9.0.0") noon (by decide +kernel)
  exact absurd hle (by decide +kernel)

/-! ## Undoing a failed update -/

theorem files_rollbackUpdate {m : UpdateManager C} {name : Text} {entries : Entries C}
    (hlatest : latestBackup m.backups = some (name, entries)) (fault : Fault C) :
    (m.rollbackUpdate p fault).2.files = (copyAll fault 0 m.files entries).1 := by
  unfold rollbackUpdate
  rw [hlatest]
  dsimp only
  split <;> rfl

/-- A failing update ends with its own backup copied over what it has left, if that is the last. -/
theorem files_applyUpdate_failed (hbackup : cfg.backupBeforeUpdate = true)
    (hrollback : cfg.rollbackOnFailure = true) {m : UpdateManager C} {manifest : UpdateManifest}
    {stamp : Stamp} {outcome : Outcome C} {download : Download C}
    (hdownload : (m.downloadUpdate cfg manifest outcome.attempts).1 = some download)
    (hcomplete : outcome.backup = .complete) (hversion : Plain m.status.currentVersion)
    (hfailed : (installFiles p manifest outcome m.files download.entries).2 = false)
    (hown : OwnLast cfg m stamp) :
    (m.applyUpdate p cfg manifest stamp outcome).2.files =
      (copyAll outcome.rollbackFault 0
        (installFiles p manifest outcome m.files download.entries).1 (archive m.files)).1 := by
  obtain ⟨state, hstate⟩ := m.downloadUpdate_eq cfg manifest outcome.attempts
  have hpair : m.downloadUpdate cfg manifest outcome.attempts = (some download, m.inState state) :=
    Prod.ext hdownload hstate
  have hversion' : Plain (m.inState state).status.currentVersion := hversion
  rw [OwnLast, createBackup_complete cfg hbackup hversion] at hown
  rw [applyUpdate, hpair]
  simp only [hcomplete, createBackup_complete cfg hbackup hversion', reduceCtorEq, and_false,
    if_false]
  unfold installUpdate
  dsimp only
  simp only [inState, hfailed, hrollback, Bool.false_eq_true, if_false, if_true]
  have hlatest : latestBackup (m.backups.insert (backupName m.status.currentVersion stamp)
      (archive m.files)) = some (backupName m.status.currentVersion stamp, archive m.files) := hown
  exact files_rollbackUpdate p (by exact hlatest) _

/-- In every run, a failing update whose backup is the last one is undone by the rollback exactly
when it has changed the kind of nothing that was saved and has left all other names alone. -/
theorem undone_iff (files : Files C) {events : List (UpdateEvent C)}
    (hsorted : events.Pairwise fun e f => e.stamp ≤ f.stamp) {stamp : Stamp}
    (hlater : ∀ e ∈ events, e.stamp ≤ stamp) (hbackup : cfg.backupBeforeUpdate = true)
    (hrollback : cfg.rollbackOnFailure = true)
    (hversion : Plain (run (updateStep p cfg) (create p files) events).status.currentVersion)
    (hplain : ∀ version before,
      backupName version before ∈ (run (updateStep p cfg) (create p files) events).backups →
        Plain version ∧ (compare (version ++ ['_'])
          ((run (updateStep p cfg) (create p files) events).status.currentVersion ++
            ['_'])).isLE)
    {manifest : UpdateManifest} {outcome : Outcome C} {download : Download C}
    (hdownload : ((run (updateStep p cfg) (create p files) events).downloadUpdate cfg manifest
      outcome.attempts).1 = some download)
    (hcomplete : outcome.backup = .complete) (hquiet : outcome.rollbackFault = none)
    (hfailed : (installFiles p manifest outcome
      (run (updateStep p cfg) (create p files) events).files download.entries).2 = false) :
    (∀ name : Text, ((run (updateStep p cfg) (create p files) events).applyUpdate p cfg manifest
        stamp outcome).2.files[name]? =
      (run (updateStep p cfg) (create p files) events).files[name]?) ↔
      Restorable (run (updateStep p cfg) (create p files) events).files
        (installFiles p manifest outcome (run (updateStep p cfg) (create p files) events).files
          download.entries).1 := by
  have hown := (ownBackup_iff p cfg files hsorted hlater hbackup hversion
    fun version before hmem => (hplain version before hmem).1).mpr
    fun version before hmem => (hplain version before hmem).2
  rw [files_applyUpdate_failed p cfg hbackup hrollback hdownload hcomplete hversion hfailed hown,
    hquiet]
  exact restoreAll_archive_iff _ _

/-- An update that adds a file before it meets an exception. -/
def addingEntries : Entries Text :=
  [(text "notes", .file (text "new")), (text "main", .dir ∅)]

/-- The rollback leaves the new file behind. -/
theorem undone_iff_adding :
    ¬∀ name : Text, ((create textPlatform firstFiles).applyUpdate textPlatform defaultConfig
        (manifestOf (text "10.0.0")) noon (quietOutcome addingEntries)).2.files[name]? =
      (create textPlatform firstFiles).files[name]? := by
  intro hsame
  have hdownload : ((create textPlatform firstFiles).downloadUpdate defaultConfig
      (manifestOf (text "10.0.0")) (quietOutcome addingEntries).attempts).1 =
        some (downloadOf addingEntries) := rfl
  have hfailed : (installFiles textPlatform (manifestOf (text "10.0.0"))
      (quietOutcome addingEntries) firstFiles (downloadOf addingEntries).entries).2 = false := by
    decide +kernel
  have hrestorable := (undone_iff textPlatform defaultConfig firstFiles List.Pairwise.nil
    (fun e he => nomatch he) rfl rfl ⟨by decide +kernel, by decide +kernel⟩
    (fun version before hmem => absurd hmem Std.TreeMap.not_mem_emptyc) hdownload rfl rfl
    hfailed).mp hsame
  have hnotes := congrArg Option.isSome (hrestorable.other (text "notes") (by decide +kernel))
  exact absurd hnotes (by decide +kernel)

end UpdateManager

end Blackstone.Updater
