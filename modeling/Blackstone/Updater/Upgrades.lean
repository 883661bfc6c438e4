import Blackstone.Updater.Rollback
import Mathlib.Data.Nat.Bitwise

/-!
# What is installed

A version is installed only when it is newer than the current one and a download had the checksum
of its manifest; a forced update without a manifest never gets so far, since its checksum is
empty. On every run, the current version is the initial one, the one that a rollback has read, or
newer than that (`noDowngrade`).
-/

namespace Blackstone.Updater

open Runs

variable {C : Type}

/-! ## The checksum -/

theorem foldl_or_eq_zero_iff (pairs : List (Char × Char)) (start : Nat) :
    pairs.foldl (fun result xy => result ||| (xy.1.toNat ^^^ xy.2.toNat)) start = 0 ↔
      start = 0 ∧ ∀ xy ∈ pairs, xy.1 = xy.2 := by
  induction pairs generalizing start with
  | nil => simp
  | cons xy pairs ih =>
    rw [List.foldl_cons, ih, Nat.or_eq_zero_iff, Nat.xor_eq_zero_iff, Char.toNat_inj,
      List.forall_mem_cons, and_assoc]

/-- The comparison in constant time decides equality. -/
theorem constantTimeCompare_iff (a b : Text) :
    UpdateManager.constantTimeCompare a b = true ↔ a = b := by
  unfold UpdateManager.constantTimeCompare
  split_ifs with hlength
  · refine iff_of_false (fun h => h) ?_
    rintro rfl
    exact hlength rfl
  · have hequal : a.length = b.length := not_not.mp hlength
    rw [decide_eq_true_eq, foldl_or_eq_zero_iff, and_iff_right rfl]
    constructor
    · intro hpairs
      apply List.ext_getElem hequal
      intro i hi hi'
      have hmem : (a[i], b[i]) ∈ a.zip b := by
        rw [List.mem_iff_getElem]
        refine ⟨i, by rw [List.length_zip]; omega, List.getElem_zip⟩
      exact hpairs _ hmem
    · rintro rfl xy hmem
      obtain ⟨i, hi, rfl⟩ := List.mem_iff_getElem.mp hmem
      rw [List.getElem_zip]

namespace UpdateManager

variable (p : Platform C) (cfg : UpdateConfig)

/-- The digest of a download is the checksum of its manifest. -/
def Verified (download : Download C) (manifest : UpdateManifest) : Prop :=
  download.hexdigest = manifest.binaryChecksum.map Char.toLower

theorem verified_of_downloadUpdate {m : UpdateManager C} {manifest : UpdateManifest}
    {attempts : List (Option (Download C))} {download : Download C}
    (h : (m.downloadUpdate cfg manifest attempts).1 = some download) :
    some download ∈ attempts ∧ Verified download manifest := by
  unfold downloadUpdate at h
  split at h
  · rename_i found hfound
    cases h
    have hmem := List.mem_of_find?_eq_some hfound
    obtain ⟨attempt, hattempt, hsome⟩ := List.mem_filterMap.mp hmem
    have hverified := List.find?_some hfound
    rw [verifyChecksum, constantTimeCompare_iff] at hverified
    rw [id] at hsome
    exact ⟨List.mem_of_mem_take (hsome ▸ hattempt), hverified⟩
  · cases h

/-- No download has the empty checksum of a forced update. -/
theorem downloadUpdate_forced (m : UpdateManager C) (attempts : List (Option (Download C))) :
    (m.downloadUpdate cfg forcedManifest attempts).1 = none := by
  cases hdownload : (m.downloadUpdate cfg forcedManifest attempts).1 with
  | none => rfl
  | some download =>
    obtain ⟨-, hverified⟩ := verified_of_downloadUpdate cfg hdownload
    have hlength := download.length_hexdigest
    rw [hverified] at hlength
    cases hlength

/-! ## The version after a call -/

/-- A version that a rollback has read from the files. -/
def RolledBack (m : UpdateManager C) : Prop :=
  m.status.state = .rollback ∧ m.status.currentVersion = getCurrentVersion p m.files

/-- A newer version was installed from a verified download. -/
def Upgraded (attempts : List (Option (Download C))) (m m' : UpdateManager C) : Prop :=
  ∃ manifest download, Newer manifest.version m.status.currentVersion ∧
    some download ∈ attempts ∧ Verified download manifest ∧
    m'.status.currentVersion = manifest.version

/-- The version is as before, a newer one, or the one of a rollback. -/
def VersionKept (attempts : List (Option (Download C))) (m m' : UpdateManager C) : Prop :=
  m'.status.currentVersion = m.status.currentVersion ∨ Upgraded attempts m m' ∨ RolledBack p m'

variable {p} in
theorem VersionKept.of_eq {attempts : List (Option (Download C))} {m m' m'' : UpdateManager C}
    (h : VersionKept p attempts m' m'')
    (hsame : m'.status.currentVersion = m.status.currentVersion) :
    VersionKept p attempts m m'' := by
  unfold VersionKept Upgraded at h ⊢
  rwa [hsame] at h

theorem version_rollbackUpdate (m : UpdateManager C) (fault : Fault C) :
    (m.rollbackUpdate p fault).2.status.currentVersion = m.status.currentVersion ∨
      RolledBack p (m.rollbackUpdate p fault).2 := by
  unfold rollbackUpdate
  split
  · exact Or.inl rfl
  · dsimp only
    split_ifs
    · exact Or.inr ⟨rfl, rfl⟩
    · exact Or.inl rfl

theorem version_installUpdate {m : UpdateManager C} {manifest : UpdateManifest}
    {outcome : Outcome C} {download : Download C}
    (hnewer : Newer manifest.version m.status.currentVersion)
    (hattempt : some download ∈ outcome.attempts) (hverified : Verified download manifest) :
    VersionKept p outcome.attempts m (m.installUpdate p cfg manifest outcome download).2 := by
  unfold installUpdate
  dsimp only
  split_ifs
  · exact Or.inr (Or.inl ⟨manifest, download, hnewer, hattempt, hverified, rfl⟩)
  · rcases version_rollbackUpdate p { m.inState
        (failedState manifest outcome m.files download.entries) with
        files := (installFiles p manifest outcome m.files download.entries).1 }
        outcome.rollbackFault with hsame | hback
    · exact Or.inl hsame
    · exact Or.inr (Or.inr hback)
  · exact Or.inl rfl

theorem currentVersion_createBackup (m : UpdateManager C) (stamp : Stamp)
    (outcome : BackupOutcome C) :
    (m.createBackup cfg stamp outcome).2.status.currentVersion = m.status.currentVersion := by
  unfold createBackup
  dsimp only
  split_ifs
  · rfl
  · cases outcome <;> rfl
  · rfl

theorem version_applyUpdate {m : UpdateManager C} {manifest : UpdateManifest} {stamp : Stamp}
    {outcome : Outcome C} (hnewer : Newer manifest.version m.status.currentVersion) :
    VersionKept p outcome.attempts m (m.applyUpdate p cfg manifest stamp outcome).2 := by
  obtain ⟨state, hstate⟩ := m.downloadUpdate_eq cfg manifest outcome.attempts
  cases hfound : (m.downloadUpdate cfg manifest outcome.attempts).1 with
  | none =>
    have hpair : m.downloadUpdate cfg manifest outcome.attempts = (none, m.inState state) :=
      Prod.ext hfound hstate
    rw [applyUpdate, hpair]
    exact Or.inl rfl
  | some download =>
    have hpair : m.downloadUpdate cfg manifest outcome.attempts =
        (some download, m.inState state) := Prod.ext hfound hstate
    obtain ⟨hattempt, hverified⟩ := verified_of_downloadUpdate cfg hfound
    have hversion : ((m.inState state).createBackup cfg stamp
        outcome.backup).2.status.currentVersion = m.status.currentVersion :=
      currentVersion_createBackup cfg (m.inState state) stamp outcome.backup
    rw [applyUpdate, hpair]
    dsimp only
    split_ifs
    · exact Or.inl hversion
    · rw [← hversion] at hnewer
      exact (version_installUpdate p cfg hnewer hattempt hverified).of_eq hversion

/-- A forced update without a manifest changes nothing but the state. -/
theorem applyUpdate_forced (m : UpdateManager C) (stamp : Stamp) (outcome : Outcome C) :
    ∃ state, (m.applyUpdate p cfg forcedManifest stamp outcome).2 = m.inState state := by
  obtain ⟨state, hstate⟩ := m.downloadUpdate_eq cfg forcedManifest outcome.attempts
  have hpair : m.downloadUpdate cfg forcedManifest outcome.attempts = (none, m.inState state) :=
    Prod.ext (downloadUpdate_forced cfg m outcome.attempts) hstate
  rw [applyUpdate, hpair]
  exact ⟨state, rfl⟩

/-- A manifest that a check returns is of a newer version. -/
theorem newer_of_checkForUpdates {m : UpdateManager C} {fetched : Option UpdateManifest}
    {manifest : UpdateManifest} (h : (m.checkForUpdates fetched).1 = some manifest) :
    Newer manifest.version m.status.currentVersion := by
  unfold checkForUpdates at h
  cases fetched with
  | none => cases h
  | some found =>
    dsimp only at h
    split at h
    · cases h
    · rename_i result hresult
      split_ifs at h with hpos
      cases h
      exact (newer_iff _ _).mpr ⟨result, hresult, hpos⟩

/-- The downloads of a call. -/
def attemptsOf : UpdateCall C → List (Option (Download C))
  | .autoUpdate _ _ outcome => outcome.attempts
  | .cmdUpdate _ _ outcome => outcome.attempts
  | .repair _ outcome => outcome.attempts
  | _ => []

/-- What a call does to the version. -/
theorem version_updateStep (m : UpdateManager C) (e : UpdateEvent C) :
    VersionKept p (attemptsOf e.call) m (updateStep p cfg m e) := by
  unfold updateStep
  cases e.call with
  | autoUpdate fetched roll outcome =>
    have hversion := m.currentVersion_checkForUpdates fetched
    have hnewer := @newer_of_checkForUpdates C m fetched
    simp only [autoUpdate, attemptsOf]
    revert hversion hnewer
    cases m.checkForUpdates fetched with
    | mk found checked =>
      intro hversion hnewer
      cases found with
      | none => exact Or.inl hversion
      | some manifest =>
        have hnew : Newer manifest.version checked.status.currentVersion :=
          hversion ▸ hnewer rfl
        dsimp only
        split_ifs
        · exact (version_applyUpdate p cfg hnew).of_eq hversion
        · exact Or.inl hversion
  | cmdUpdate force fetched outcome =>
    have hversion := m.currentVersion_checkForUpdates fetched
    have hnewer := @newer_of_checkForUpdates C m fetched
    simp only [cmdUpdate, attemptsOf]
    revert hversion hnewer
    cases m.checkForUpdates fetched with
    | mk found checked =>
      intro hversion hnewer
      cases found with
      | none =>
        dsimp only
        split_ifs
        · obtain ⟨state, hstate⟩ := checked.applyUpdate_forced p cfg e.stamp outcome
          rw [hstate]
          exact Or.inl hversion
        · exact Or.inl hversion
      | some manifest =>
        have hnew : Newer manifest.version checked.status.currentVersion :=
          hversion ▸ hnewer rfl
        exact (version_applyUpdate p cfg hnew).of_eq hversion
  | repair fetched outcome =>
    have hversion := m.currentVersion_checkForUpdates fetched
    have hnewer := @newer_of_checkForUpdates C m fetched
    simp only [repairCorruptedFiles, attemptsOf]
    revert hversion hnewer
    cases m.checkForUpdates fetched with
    | mk found checked =>
      intro hversion hnewer
      cases found with
      | none => exact Or.inl hversion
      | some manifest =>
        have hnew : Newer manifest.version checked.status.currentVersion :=
          hversion ▸ hnewer rfl
        obtain ⟨state, hstate⟩ := checked.downloadUpdate_eq cfg manifest outcome.attempts
        have hdownload := @verified_of_downloadUpdate C cfg checked manifest outcome.attempts
        dsimp only
        revert hstate hdownload
        cases checked.downloadUpdate cfg manifest outcome.attempts with
        | mk file downloaded =>
          rintro rfl hdownload
          cases file with
          | none => exact Or.inl hversion
          | some download =>
            obtain ⟨hattempt, hverified⟩ := hdownload rfl
            have hinstalled : VersionKept p outcome.attempts (checked.inState state)
                ((checked.inState state).installUpdate p cfg manifest outcome download).2 :=
              version_installUpdate p cfg hnew hattempt hverified
            exact hinstalled.of_eq hversion
  | rollback fault =>
    rcases version_rollbackUpdate p m fault with hsame | hback
    · exact Or.inl hsame
    · exact Or.inr (Or.inr hback)
  | work change => exact Or.inl rfl

/-- On every run the version is the initial one, or the one of the last rollback that has read
one, or newer than that. -/
theorem noDowngrade (m : UpdateManager C) (events : List (UpdateEvent C)) :
    ∃ before after, events = before ++ after ∧
      (before = [] ∨ RolledBack p (run (updateStep p cfg) m before)) ∧
      ((run (updateStep p cfg) m events).status.currentVersion =
          (run (updateStep p cfg) m before).status.currentVersion ∨
        Newer (run (updateStep p cfg) m events).status.currentVersion
          (run (updateStep p cfg) m before).status.currentVersion) := by
  induction events using List.reverseRecOn with
  | nil => exact ⟨[], [], rfl, Or.inl rfl, Or.inl rfl⟩
  | append_singleton events e ih =>
    obtain ⟨before, after, hsplit, hbase, hrest⟩ := ih
    rw [run_concat]
    rcases version_updateStep p cfg (run (updateStep p cfg) m events) e with
      hsame | ⟨manifest, download, hnewer, -, -, hversion⟩ | hback
    · refine ⟨before, after ++ [e], by rw [hsplit, List.append_assoc], hbase, ?_⟩
      rw [hsame]
      exact hrest
    · refine ⟨before, after ++ [e], by rw [hsplit, List.append_assoc], hbase, Or.inr ?_⟩
      rw [hversion]
      rcases hrest with hequal | hnewer'
      · rwa [← hequal]
      · exact hnewer.trans hnewer'
    · refine ⟨events ++ [e], [], (List.append_nil _).symm, Or.inr ?_, Or.inl ?_⟩
      · rwa [run_concat]
      · rw [run_concat]

end UpdateManager

end Blackstone.Updater
