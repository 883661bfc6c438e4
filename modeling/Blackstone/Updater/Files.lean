import Blackstone.Library.OrderedMap
import Blackstone.Updater.Versions

/-!
# The files that an update touches

`main.py` in `options-manager`. An update and a backup are archives of files and directories at
the top level; `install_update` and `rollback_update` copy the entries of an archive into the
working directory one after the other, and both stop at the first exception. A directory replaces
the one of the same name. A file that meets a directory is copied into it.

A backup has the essential files and the directory `config`. Restoring it brings the working
directory back exactly when it is `Restorable` from what the update has left
(`restoreAll_archive_iff`).
-/

namespace Blackstone.Updater

open OrderedMap

/-- The path of a file inside a directory. -/
abbrev Path := List Text

/-- A file, or a directory with its files; directories without files are not kept apart. -/
inductive Item (C : Type) where
  | file (content : C)
  | dir (files : Std.TreeMap Path C)

/-- A directory with what is at its top level. -/
abbrev Files (C : Type) := Std.TreeMap Text (Item C)

/-- The entries of an archive in the order in which they are listed. -/
abbrev Entries (C : Type) := List (Text × Item C)

variable {C : Type}

/-- What stands under a name afterwards, nothing for `none`. -/
def put (files : Files C) (name : Text) : Option (Item C) → Files C
  | none => files.erase name
  | some item => files.insert name item

/-- A file is copied over a file or into a directory, a directory replaces a directory; `none` is
an exception, of `rmtree` for a file and of `copy2` for a directory of that name. -/
def copied (name : Text) : Option (Item C) → Item C → Option (Item C)
  | none, item => some item
  | some (.file _), .file content => some (.file content)
  | some (.dir files), .file content =>
    if files.keys.any fun path => path.head? = some name ∧ path ≠ [name] then none
    else some (.dir (files.insert [name] content))
  | some (.file _), .dir _ => none
  | some (.dir _), .dir files => some (.dir files)

/-- An exception of the system at one round of a loop, and what it leaves under the name. -/
abbrev Fault (C : Type) := Option (Nat × Option (Item C))

/-- What an exception of the system leaves in this round, if there is one. -/
def Fault.at (fault : Fault C) (k : Nat) : Option (Option (Item C)) :=
  fault.bind fun (round, left) => if round = k then some left else none

/-- The loop over an archive, from round `k` on; the flag is false after an exception. -/
def copyAll (fault : Fault C) : Nat → Files C → Entries C → Files C × Bool
  | _, files, [] => (files, true)
  | k, files, (name, item) :: rest =>
    match fault.at k with
    | some left => (put files name left, false)
    | none =>
      match copied name files[name]? item with
      | none => (files, false)
      | some result => copyAll fault (k + 1) (files.insert name result) rest

/-! ## Backups -/

/-- The names of the essential files; `glob` finds no hidden ones. -/
def essential (name : Text) : Bool :=
  name = text "main" || name = text "bank_crypto.log" || name = text "version.json" ||
    (name.head? ≠ some '.' &&
      ((text ".so").isSuffixOf name || (text ".dll").isSuffixOf name ||
        (text ".dylib").isSuffixOf name))

/-- What a backup has of an item: a file if it is essential, the files below `config`. -/
def saved (name : Text) : Item C → Option (Item C)
  | .file content => if essential name then some (.file content) else none
  | .dir files => if name = text "config" ∧ ¬files.isEmpty then some (.dir files) else none

/-- The archive that `create_backup` writes. -/
def archive (files : Files C) : Entries C :=
  files.toList.filterMap fun entry => (saved entry.1 entry.2).map fun item => (entry.1, item)

theorem saved_eq_some {name : Text} {item kept : Item C} (h : saved name item = some kept) :
    kept = item := by
  cases item with
  | file content =>
    simp only [saved] at h
    split_ifs at h
    exact (Option.some.inj h).symm
  | dir files =>
    simp only [saved] at h
    split_ifs at h
    exact (Option.some.inj h).symm

theorem mem_archive_iff {files : Files C} {name : Text} {item : Item C} :
    (name, item) ∈ archive files ↔
      files[name]? = some item ∧ saved name item = some item := by
  unfold archive
  rw [List.mem_filterMap]
  constructor
  · rintro ⟨⟨name', item'⟩, hmem, hsaved⟩
    obtain ⟨kept, hkept, heq⟩ := Option.map_eq_some_iff.mp hsaved
    cases heq
    obtain rfl := saved_eq_some hkept
    exact ⟨Std.TreeMap.mem_toList_iff_getElem?_eq_some.mp hmem, hkept⟩
  · rintro ⟨hlookup, hsaved⟩
    refine ⟨(name, item), Std.TreeMap.mem_toList_iff_getElem?_eq_some.mpr hlookup, ?_⟩
    rw [hsaved]
    rfl

/-- The names of a backup are different. -/
theorem distinct_archive (files : Files C) :
    (archive files).Pairwise fun a b => a.1 ≠ b.1 := by
  unfold archive
  rw [List.pairwise_filterMap]
  refine List.Pairwise.imp ?_ (Std.TreeMap.distinct_keys_toList (t := files))
  intro a b hne a' ha b' hb
  obtain ⟨-, -, rfl⟩ := Option.map_eq_some_iff.mp ha
  obtain ⟨-, -, rfl⟩ := Option.map_eq_some_iff.mp hb
  intro heq
  exact hne (Std.LawfulEqOrd.compare_eq_iff_eq.mpr heq)

/-! ## Copying an archive without exceptions of the system -/

/-- The two items are of one kind, or there is no first one. -/
def SameKind : Option (Item C) → Item C → Prop
  | none, _ => True
  | some (.file _), .file _ => True
  | some (.dir _), .dir _ => True
  | _, _ => False

theorem SameKind.copied {name : Text} {old : Option (Item C)} {item : Item C}
    (h : SameKind old item) : Updater.copied name old item = some item := by
  cases old with
  | none => rfl
  | some old =>
    cases old <;> cases item
    · rfl
    · exact h.elim
    · exact h.elim
    · rfl

theorem sameKind_self (item : Item C) : SameKind (some item) item := by
  cases item <;> trivial

/-- Nothing but an item of the same kind becomes the item that is copied over it. -/
theorem sameKind_of_copied {name : Text} {old : Option (Item C)} {item : Item C}
    (h : Updater.copied name old item = some item) : SameKind old item := by
  cases old with
  | none => trivial
  | some old =>
    cases old with
    | file content =>
      cases item with
      | file _ => trivial
      | dir _ => cases h
    | dir files =>
      cases item with
      | file content =>
        simp only [Updater.copied] at h
        split_ifs at h
        cases h
      | dir _ => trivial

/-- One round of the loop. -/
theorem copyAll_cons (k : Nat) (files : Files C) (name : Text) (item : Item C)
    (rest : Entries C) :
    copyAll none k files ((name, item) :: rest) =
      match copied name files[name]? item with
      | none => (files, false)
      | some result => copyAll none (k + 1) (files.insert name result) rest := rfl

/-- Other names are left alone. -/
theorem getElem?_copyAll_of_not_mem (k : Nat) (files : Files C) {entries : Entries C} {name : Text}
    (hname : ∀ entry ∈ entries, entry.1 ≠ name) :
    (copyAll none k files entries).1[name]? = files[name]? := by
  induction entries generalizing k files with
  | nil => rfl
  | cons entry entries ih =>
    obtain ⟨name', item⟩ := entry
    rw [copyAll_cons]
    cases copied name' files[name']? item with
    | none => rfl
    | some result =>
      dsimp only
      rw [ih _ _ fun e he => hname e (List.mem_cons_of_mem _ he), getElem?_insert_eq,
        if_neg (hname _ List.mem_cons_self)]

/-- Every entry stands under its name afterwards exactly when it has met nothing of another
kind. -/
theorem forall_getElem?_copyAll_iff (k : Nat) (files : Files C) {entries : Entries C}
    (hdistinct : entries.Pairwise fun a b => a.1 ≠ b.1) :
    (∀ entry ∈ entries, (copyAll none k files entries).1[entry.1]? = some entry.2) ↔
      ∀ entry ∈ entries, SameKind files[entry.1]? entry.2 := by
  induction entries generalizing k files with
  | nil => exact iff_of_true (fun e he => nomatch he) (fun e he => nomatch he)
  | cons entry entries ih =>
    obtain ⟨name, item⟩ := entry
    obtain ⟨hnew, hrest⟩ := List.pairwise_cons.mp hdistinct
    have hother : ∀ entry ∈ entries, entry.1 ≠ name := fun e he => (hnew e he).symm
    have hsame : ∀ (result : Item C), ∀ entry ∈ entries,
        (files.insert name result)[entry.1]? = files[entry.1]? := by
      intro result e he
      rw [getElem?_insert_eq, if_neg (hnew e he)]
    rw [List.forall_mem_cons, List.forall_mem_cons, copyAll_cons]
    dsimp only
    cases hcopied : copied name files[name]? item with
    | none =>
      dsimp only
      constructor
      · rintro ⟨hfirst, -⟩
        rw [hfirst, (sameKind_self item).copied] at hcopied
        cases hcopied
      · rintro ⟨hfirst, -⟩
        rw [hfirst.copied] at hcopied
        cases hcopied
    | some result =>
      dsimp only
      rw [getElem?_copyAll_of_not_mem _ _ hother, getElem?_insert_eq, if_pos rfl,
        ih (k + 1) (files.insert name result) hrest]
      refine and_congr ?_ (forall₂_congr fun e he => by rw [hsame result e he])
      rw [Option.some_inj]
      constructor
      · rintro rfl
        exact sameKind_of_copied hcopied
      · intro hkind
        rw [hkind.copied] at hcopied
        exact (Option.some.inj hcopied).symm

/-! ## Restoring a backup -/

/-- The loop of `rollback_update`. -/
def restoreAll (left : Files C) (entries : Entries C) : Files C × Bool :=
  copyAll none 0 left entries

/-- What was saved has not changed its kind, and what was not saved has not changed. -/
structure Restorable (files left : Files C) : Prop where
  saved : ∀ (name : Text) item, (name, item) ∈ archive files → SameKind left[name]? item
  other : ∀ name : Text, (∀ entry ∈ archive files, entry.1 ≠ name) → left[name]? = files[name]?

/-- A backup brings the files back exactly when they are `Restorable` from what is left. -/
theorem restoreAll_archive_iff (files left : Files C) :
    (∀ name : Text, (restoreAll left (archive files)).1[name]? = files[name]?) ↔
      Restorable files left := by
  have hentries := forall_getElem?_copyAll_iff 0 left (distinct_archive files)
  constructor
  · intro hsame
    have hback : ∀ entry ∈ archive files,
        (copyAll none 0 left (archive files)).1[entry.1]? = some entry.2 := by
      intro entry hmem
      rw [← (mem_archive_iff.mp hmem).1]
      exact hsame entry.1
    refine ⟨fun name item hmem => hentries.mp hback (name, item) hmem, fun name hname => ?_⟩
    rw [← hsame name, restoreAll, getElem?_copyAll_of_not_mem _ _ hname]
  · rintro ⟨hsaved, hother⟩ name
    by_cases hname : ∃ entry ∈ archive files, entry.1 = name
    · obtain ⟨⟨name', item⟩, hmem, rfl⟩ := hname
      rw [(mem_archive_iff.mp hmem).1]
      exact hentries.mpr (fun entry hentry => hsaved entry.1 entry.2 hentry) (name', item) hmem
    · push Not at hname
      rw [restoreAll, getElem?_copyAll_of_not_mem _ _ hname, hother name hname]

/-- Nothing but another kind raises an exception. -/
theorem copyAll_ok (k : Nat) (files : Files C) {entries : Entries C}
    (hdistinct : entries.Pairwise fun a b => a.1 ≠ b.1)
    (hkind : ∀ entry ∈ entries, SameKind files[entry.1]? entry.2) :
    (copyAll none k files entries).2 = true := by
  induction entries generalizing k files with
  | nil => rfl
  | cons entry entries ih =>
    obtain ⟨name, item⟩ := entry
    obtain ⟨hnew, hrest⟩ := List.pairwise_cons.mp hdistinct
    obtain ⟨hfirst, hothers⟩ := List.forall_mem_cons.mp hkind
    rw [copyAll_cons, hfirst.copied]
    refine ih _ _ hrest fun e he => ?_
    rw [getElem?_insert_eq, if_neg (hnew e he)]
    exact hothers e he

theorem Restorable.restoreAll_ok {files left : Files C} (h : Restorable files left) :
    (restoreAll left (archive files)).2 = true :=
  copyAll_ok 0 left (distinct_archive files) fun entry hmem => h.saved entry.1 entry.2 hmem

end Blackstone.Updater
