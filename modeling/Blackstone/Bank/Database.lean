import Blackstone.Bank.Ternary
import Blackstone.Library.Delimited
import Blackstone.Library.OrderedMap
import Blackstone.Library.Runs

/-!
# The database file

`db_manager.cpp` without its mutex. The values and the ends of their lifetimes are two maps;
the file keeps a line `key:value` for each value, written in the ternary code. What a key is
read back as is the rest of the last line that begins with the key and a colon.

A store that was saved and loaded answers like the original one, now and at every later time,
exactly when it is `Persistable` (`persists_iff`). The lifetimes are not in the file, and a key
with a colon is read back as another key.
-/

namespace Blackstone.Bank

open Delimited OrderedMap Runs

/-- The end of a line. -/
def newline : UInt8 := 10

/-- `DatabaseManager`: the values and the times in milliseconds when they expire. -/
structure DatabaseManager where
  data : Std.TreeMap Str Str
  expiry : Std.TreeMap Str UInt64

namespace DatabaseManager

/-- A line of the file, decoded and split at the first colon. -/
def parseLine (line : Str) : Option (Str × Str) :=
  let decoded := decodeTernary line
  if colon ∈ decoded then some (getline colon decoded) else none

/-- `DatabaseManager::loadFromDisk`; a file that does not open is `none`. -/
def loadFromDisk (db : DatabaseManager) (file : Option Str) : DatabaseManager :=
  match file with
  | none => db
  | some text =>
    let lines := (getlines newline text.length text).filter (· ≠ [])
    { db with data := putAll db.data (lines.filterMap parseLine) }

/-- `DatabaseManager::DatabaseManager`. -/
def create (file : Option Str) : DatabaseManager := loadFromDisk ⟨∅, ∅⟩ file

/-- The text of a line of `DatabaseManager::saveToDisk`. -/
def writeLine (entry : Str × Str) : Str := encodeBinary (entry.1 ++ colon :: entry.2)

/-- `DatabaseManager::saveToDisk`. -/
def saveToDisk (db : DatabaseManager) : Str :=
  db.data.toList.flatMap (fun entry => writeLine entry ++ [newline])

/-- What `DatabaseManager::cleanupExpired` does about an entry of `expiry`. -/
def expire (now : UInt64) (db : DatabaseManager) (entry : Str × UInt64) : DatabaseManager :=
  if entry.2 ≤ now then
    { data := db.data.erase entry.1
      expiry := db.expiry.erase entry.1 }
  else db

/-- `DatabaseManager::cleanupExpired`. -/
def cleanupExpired (db : DatabaseManager) (now : UInt64) : DatabaseManager :=
  db.expiry.toList.foldl (expire now) db

/-- `DatabaseManager::set`. -/
def set (db : DatabaseManager) (now : UInt64) (key value : Str) (ttlMs : UInt64) :
    DatabaseManager where
  data := db.data.insert key value
  expiry := if 0 < ttlMs then db.expiry.insert key (now + ttlMs) else db.expiry.erase key

/-- `DatabaseManager::get`, with the store that it leaves. -/
def get (db : DatabaseManager) (now : UInt64) (key : Str) : Str × DatabaseManager :=
  let cleaned := db.cleanupExpired now
  (cleaned.data[key]?.getD [], cleaned)

/-- `DatabaseManager::del`. -/
def del (db : DatabaseManager) (key : Str) : DatabaseManager where
  data := db.data.erase key
  expiry := db.expiry.erase key

@[simp] theorem data_set (db : DatabaseManager) (now : UInt64) (key value : Str)
    (ttlMs : UInt64) : (db.set now key value ttlMs).data = db.data.insert key value := rfl

@[simp] theorem expiry_set (db : DatabaseManager) (now : UInt64) (key value : Str)
    (ttlMs : UInt64) : (db.set now key value ttlMs).expiry =
      if 0 < ttlMs then db.expiry.insert key (now + ttlMs) else db.expiry.erase key := rfl

@[simp] theorem data_del (db : DatabaseManager) (key : Str) :
    (db.del key).data = db.data.erase key := rfl

@[simp] theorem expiry_del (db : DatabaseManager) (key : Str) :
    (db.del key).expiry = db.expiry.erase key := rfl

/-! ## Changes of the store -/

/-- A change of the store. -/
inductive Change where
  | set (key value : Str) (ttlMs : UInt64)
  | del (key : Str)
  | cleanupExpired

/-- The store after a change at a time. -/
def step (db : DatabaseManager) (event : UInt64 × Change) : DatabaseManager :=
  match event.2 with
  | .set key value ttlMs => db.set event.1 key value ttlMs
  | .del key => db.del key
  | .cleanupExpired => db.cleanupExpired event.1

/-- The lifetime of a key is over. -/
def ended (db : DatabaseManager) (now : UInt64) (key : Str) : Bool :=
  db.expiry[key]?.any (· ≤ now)

theorem getElem?_foldl_expire (now : UInt64) (db : DatabaseManager)
    (entries : List (Str × UInt64)) (key : Str) :
    ((entries.foldl (expire now) db).data[key]? =
        if entries.any (fun e => e.1 == key && decide (e.2 ≤ now)) then none
        else db.data[key]?) ∧
      (entries.foldl (expire now) db).expiry[key]? =
        if entries.any (fun e => e.1 == key && decide (e.2 ≤ now)) then none
        else db.expiry[key]? := by
  induction entries generalizing db with
  | nil => exact ⟨rfl, rfl⟩
  | cons e entries ih =>
    obtain ⟨hdata, hexpiry⟩ := ih (expire now db e)
    rw [List.foldl_cons, hdata, hexpiry, List.any_cons, expire]
    by_cases htime : e.2 ≤ now
    · rw [if_pos htime, getElem?_erase_eq, getElem?_erase_eq]
      by_cases hkey : e.1 = key
      · simp [hkey, htime]
      · rw [if_neg hkey, if_neg hkey, beq_false_of_ne hkey, Bool.false_and, Bool.false_or]
        exact ⟨rfl, rfl⟩
    · rw [if_neg htime, decide_eq_false htime, Bool.and_false, Bool.false_or]
      exact ⟨rfl, rfl⟩

theorem any_expiry_toList (db : DatabaseManager) (now : UInt64) (key : Str) :
    db.expiry.toList.any (fun e => e.1 == key && decide (e.2 ≤ now)) = db.ended now key := by
  rw [Bool.eq_iff_iff, List.any_eq_true, ended, Option.any_eq_true]
  constructor
  · rintro ⟨⟨key', time⟩, hmem, hentry⟩
    obtain ⟨hkey, htime⟩ := Bool.and_eq_true_iff.mp hentry
    obtain rfl : key' = key := eq_of_beq hkey
    exact ⟨time, Std.TreeMap.mem_toList_iff_getElem?_eq_some.mp hmem, htime⟩
  · rintro ⟨time, hlookup, htime⟩
    exact ⟨(key, time), Std.TreeMap.mem_toList_iff_getElem?_eq_some.mpr hlookup,
      Bool.and_eq_true_iff.mpr ⟨beq_self_eq_true key, htime⟩⟩

/-- The cleanup drops the keys whose lifetime is over. -/
@[simp] theorem getElem?_data_cleanupExpired (db : DatabaseManager) (now : UInt64) (key : Str) :
    (db.cleanupExpired now).data[key]? = if db.ended now key then none else db.data[key]? := by
  rw [cleanupExpired, (getElem?_foldl_expire _ _ _ _).1, any_expiry_toList]

@[simp] theorem getElem?_expiry_cleanupExpired (db : DatabaseManager) (now : UInt64)
    (key : Str) :
    (db.cleanupExpired now).expiry[key]? =
      if db.ended now key then none else db.expiry[key]? := by
  rw [cleanupExpired, (getElem?_foldl_expire _ _ _ _).2, any_expiry_toList]

/-- What a store answers. -/
theorem get_fst (db : DatabaseManager) (now : UInt64) (key : Str) :
    (db.get now key).1 = if db.ended now key then [] else db.data[key]?.getD [] := by
  rw [get, getElem?_data_cleanupExpired]
  split <;> rfl

theorem ended_mono {db : DatabaseManager} {now later : UInt64} (htime : now ≤ later) {key : Str}
    (h : db.ended now key = true) : db.ended later key = true := by
  obtain ⟨time, hlookup, hle⟩ := Option.any_eq_true _ _ |>.mp h
  exact Option.any_eq_true _ _ |>.mpr
    ⟨time, hlookup, decide_eq_true (UInt64.le_trans (of_decide_eq_true hle) htime)⟩

/-- A cleanup does not change later answers. -/
theorem get_cleanupExpired (db : DatabaseManager) {now later : UInt64} (htime : now ≤ later)
    (key : Str) : ((db.cleanupExpired now).get later key).1 = (db.get later key).1 := by
  rw [get_fst, get_fst, getElem?_data_cleanupExpired, ended, getElem?_expiry_cleanupExpired]
  by_cases hended : db.ended now key = true
  · rw [if_pos hended, if_pos hended, if_pos (ended_mono htime hended)]
    rfl
  · rw [if_neg hended, if_neg hended, ended]

/-! ## The file -/

theorem newline_not_mem_writeLine (entry : Str × Str) : newline ∉ writeLine entry := by
  intro hmem
  obtain ⟨c, _, hb⟩ := List.mem_flatMap.mp hmem
  rcases List.mem_append.mp hb with hdigit | hbar
  · obtain ⟨x, hx, heq⟩ := List.mem_map.mp hdigit
    have hdigits : ∀ i : Fin 3, UInt8.ofNat (48 + i) ≠ newline := by decide
    exact hdigits ⟨x, lt_three_of_mem_toTernary hx⟩ heq
  · exact absurd (List.mem_singleton.mp hbar) (by decide)

theorem writeLine_ne_nil (entry : Str × Str) : writeLine entry ≠ [] := by
  intro hnil
  have hdecoded := decodeTernary_encodeBinary (entry.1 ++ colon :: entry.2)
  rw [← writeLine, hnil] at hdecoded
  exact List.append_ne_nil_of_right_ne_nil _ (List.cons_ne_nil _ _) hdecoded.symm

/-- The key and the value as which an entry is read back. -/
def readBack (entry : Str × Str) : Str × Str := getline colon (entry.1 ++ colon :: entry.2)

theorem parseLine_writeLine (entry : Str × Str) :
    parseLine (writeLine entry) = some (readBack entry) := by
  rw [parseLine, writeLine, decodeTernary_encodeBinary]
  exact if_pos (List.mem_append_right _ List.mem_cons_self)

/-- The store that reads the file of another one. -/
def reopen (db : DatabaseManager) : DatabaseManager := create (some db.saveToDisk)

theorem reopen_eq (db : DatabaseManager) :
    db.reopen = ⟨putAll ∅ (db.data.toList.map readBack), ∅⟩ := by
  have htext : db.saveToDisk = (db.data.toList.map writeLine).flatMap (· ++ [newline]) := by
    rw [saveToDisk, List.flatMap_map]
  have hlines : getlines newline db.saveToDisk.length db.saveToDisk =
      db.data.toList.map writeLine := by
    rw [htext]
    apply getlines_flatMap _ le_rfl
    intro line hline
    obtain ⟨entry, _, rfl⟩ := List.mem_map.mp hline
    exact newline_not_mem_writeLine entry
  have hkept : (db.data.toList.map writeLine).filter (· ≠ []) =
      db.data.toList.map writeLine := by
    rw [List.filter_eq_self]
    intro line hline
    obtain ⟨entry, _, rfl⟩ := List.mem_map.mp hline
    exact decide_eq_true (writeLine_ne_nil entry)
  have hparsed : (db.data.toList.map writeLine).filterMap parseLine =
      db.data.toList.map readBack := by
    rw [List.filterMap_map, ← List.filterMap_eq_map]
    congr 1
    funext entry
    exact parseLine_writeLine entry
  rw [reopen, create, loadFromDisk, hlines, hkept, hparsed]

theorem readBack_of_not_mem {key : Str} (hkey : colon ∉ key) (value : Str) :
    readBack (key, value) = (key, value) := getline_append_cons hkey value

/-- A key with a colon is cut there, and its rest becomes a part of the value. -/
theorem readBack_append {key : Str} (hkey : colon ∉ key) (rest value : Str) :
    readBack (key ++ colon :: rest, value) = (key, rest ++ colon :: value) := by
  rw [readBack, List.append_assoc, List.cons_append]
  exact getline_append_cons hkey _

theorem readBack_fst {entry : Str × Str} {key : Str} (hkey : colon ∉ key) :
    (readBack entry).1 = key ↔ entry.1 = key ∨ ∃ rest, entry.1 = key ++ colon :: rest := by
  obtain ⟨name, value⟩ := entry
  constructor
  · intro hread
    by_cases hname : colon ∈ name
    · obtain ⟨front, rest, rfl, hfront⟩ := List.eq_append_cons_of_mem hname
      rw [readBack_append hfront] at hread
      exact Or.inr ⟨rest, by rw [← hread]⟩
    · rw [readBack_of_not_mem hname] at hread
      exact Or.inl hread
  · rintro (rfl | ⟨rest, rfl⟩)
    · rw [readBack_of_not_mem hkey]
    · rw [readBack_append hkey]

theorem compare_cons_cons_self (b : UInt8) (rest rest' : Str) :
    compare (b :: rest) (b :: rest') = compare rest rest' := by
  have hself : compare b b = .eq := Std.ReflCmp.compare_self
  rw [List.compare_cons_cons, hself]
  rfl

/-- Texts with a common beginning compare like what follows it. -/
theorem compare_append_append (key rest rest' : Str) :
    compare (key ++ rest) (key ++ rest') = compare rest rest' := by
  induction key with
  | nil => rfl
  | cons b key ih =>
    rw [List.cons_append, List.cons_append, compare_cons_cons_self, ih]

theorem compare_append_cons (key rest : Str) : compare key (key ++ colon :: rest) = .lt := by
  calc compare key (key ++ colon :: rest)
      = compare (key ++ []) (key ++ colon :: rest) := by rw [List.append_nil]
    _ = .lt := compare_append_append key [] _

theorem mem_toList (db : DatabaseManager) (entry : Str × Str) :
    entry ∈ db.data.toList ↔ db.data[entry.1]? = some entry.2 :=
  Std.TreeMap.mem_toList_iff_getElem?_eq_some

theorem getLast?_filter_toList (db : DatabaseManager) (p : Str × Str → Bool)
    (entry : Str × Str) :
    (db.data.toList.filter p).getLast? = some entry ↔
      db.data[entry.1]? = some entry.2 ∧ p entry = true ∧
        ∀ entry' : Str × Str, db.data[entry'.1]? = some entry'.2 → p entry' = true →
          entry' = entry ∨ compare entry'.1 entry.1 = .lt := by
  have hasymm : ∀ a b : Str × Str, compare a.1 b.1 = .lt → ¬ compare b.1 a.1 = .lt := by
    intro a b hab hba
    rw [Std.OrientedCmp.gt_of_lt hab] at hba
    cases hba
  rw [getLast?_filter_eq_some_iff hasymm db.data.ordered_keys_toList p entry]
  simp only [mem_toList]

/-- The last entry that is read back under a key counts. -/
theorem getElem?_data_reopen (db : DatabaseManager) (key text : Str) :
    db.reopen.data[key]? = some text ↔
      ∃ entry : Str × Str, db.data[entry.1]? = some entry.2 ∧ readBack entry = (key, text) ∧
        ∀ entry' : Str × Str, db.data[entry'.1]? = some entry'.2 → (readBack entry').1 = key →
          entry' = entry ∨ compare entry'.1 entry.1 = .lt := by
  have hlast := db.getLast?_filter_toList (fun e => (readBack e).1 = key)
  simp only [decide_eq_true_eq] at hlast
  rw [reopen_eq, getElem?_putAll, List.filter_map, List.getLast?_map, Option.map_map,
    Std.TreeMap.getElem?_emptyc, Option.or_none, Option.map_eq_some_iff]
  constructor
  · rintro ⟨entry, hentry, htext⟩
    obtain ⟨hdata, hread, hgreatest⟩ := (hlast entry).mp hentry
    exact ⟨entry, hdata, Prod.ext hread htext, hgreatest⟩
  · rintro ⟨entry, hdata, hread, hgreatest⟩
    exact ⟨entry, (hlast entry).mpr ⟨hdata, congrArg Prod.fst hread, hgreatest⟩,
      congrArg Prod.snd hread⟩

/-- Nothing is read back under a key with a colon. -/
theorem reopen_of_mem (db : DatabaseManager) {key : Str} (hkey : colon ∈ key) :
    db.reopen.data[key]? = none := by
  rw [Option.eq_none_iff_forall_ne_some]
  intro text htext
  obtain ⟨entry, -, hread, -⟩ := (getElem?_data_reopen db key text).mp htext
  have hfree := not_mem_getline (d := colon) (entry.1 ++ colon :: entry.2)
  rw [← readBack, hread] at hfree
  exact hfree hkey

/-- A key is read back as it was written if no key continues it after a colon. -/
theorem reopen_of_alone (db : DatabaseManager) {key : Str} (hkey : colon ∉ key)
    (halone : ∀ rest : Str, db.data[key ++ colon :: rest]? = none) :
    db.reopen.data[key]? = db.data[key]? := by
  apply Option.ext
  intro text
  rw [getElem?_data_reopen]
  constructor
  · rintro ⟨⟨name, value⟩, hdata, hread, -⟩
    rcases (readBack_fst hkey).mp (congrArg Prod.fst hread) with rfl | ⟨rest, rfl⟩
    · rw [readBack_of_not_mem hkey] at hread
      rw [hdata, congrArg Prod.snd hread]
    · rw [halone] at hdata
      cases hdata
  · intro hdata
    refine ⟨(key, text), hdata, readBack_of_not_mem hkey text, fun entry' hentry' hread => ?_⟩
    obtain ⟨name, value⟩ := entry'
    rcases (readBack_fst hkey).mp hread with rfl | ⟨rest, rfl⟩
    · have hvalue : some value = some text := hentry'.symm.trans hdata
      exact Or.inl (by rw [Option.some.inj hvalue])
    · rw [halone] at hentry'
      cases hentry'

/-- The entry of the last key that continues a key after a colon. -/
def LastContinuation (db : DatabaseManager) (key rest value : Str) : Prop :=
  db.data[key ++ colon :: rest]? = some value ∧
    ∀ rest' : Str, rest' ≠ rest → db.data[key ++ colon :: rest']? ≠ none → compare rest' rest = .lt

/-- A key that others continue is read back as the last one of them. -/
theorem reopen_of_continued (db : DatabaseManager) {key rest value : Str} (hkey : colon ∉ key)
    (hlast : LastContinuation db key rest value) :
    db.reopen.data[key]? = some (rest ++ colon :: value) := by
  rw [getElem?_data_reopen]
  refine ⟨(key ++ colon :: rest, value), hlast.1, readBack_append hkey rest value, ?_⟩
  rintro ⟨name, value'⟩ hentry' hread
  rcases (readBack_fst hkey).mp hread with rfl | ⟨rest', rfl⟩
  · exact Or.inr (compare_append_cons _ rest)
  · by_cases heq : rest' = rest
    · subst heq
      rw [hlast.1] at hentry'
      exact Or.inl (by rw [Option.some.inj hentry'])
    · right
      have hlt := hlast.2 rest' heq (by rw [hentry']; exact Option.some_ne_none _)
      rw [compare_append_append, compare_cons_cons_self, hlt]

/-- Of the keys that continue a key there is a last one. -/
theorem exists_lastContinuation (db : DatabaseManager) {key : Str}
    (hsome : ¬ ∀ rest : Str, db.data[key ++ colon :: rest]? = none) :
    ∃ rest value, LastContinuation db key rest value := by
  obtain ⟨rest₀, hrest₀⟩ := not_forall.mp hsome
  obtain ⟨value₀, hvalue₀⟩ := Option.ne_none_iff_exists'.mp hrest₀
  obtain ⟨last, hlast⟩ : ∃ last,
      (db.data.toList.filter (fun e => (key ++ [colon]).isPrefixOf e.1)).getLast? = some last := by
    apply Option.ne_none_iff_exists'.mp
    rw [ne_eq, List.getLast?_eq_none_iff, List.filter_eq_nil_iff]
    intro hnone
    apply hnone (key ++ colon :: rest₀, value₀) ((db.mem_toList _).mpr hvalue₀)
    rw [List.isPrefixOf_iff_prefix]
    exact ⟨rest₀, List.append_assoc _ _ _⟩
  obtain ⟨hmem, hprefix, hgreatest⟩ := (db.getLast?_filter_toList _ _).mp hlast
  obtain ⟨rest, hrest⟩ := List.isPrefixOf_iff_prefix.mp hprefix
  obtain ⟨name, value⟩ := last
  obtain rfl : key ++ colon :: rest = name := (List.append_assoc _ _ _).symm.trans hrest
  refine ⟨rest, value, hmem, fun rest' hne hrest' => ?_⟩
  obtain ⟨value', hvalue'⟩ := Option.ne_none_iff_exists'.mp hrest'
  have hcontinues : (key ++ [colon]).isPrefixOf (key ++ colon :: rest') = true :=
    List.isPrefixOf_iff_prefix.mpr ⟨rest', List.append_assoc _ _ _⟩
  rcases hgreatest (key ++ colon :: rest', value') hvalue' hcontinues with heq | hlt
  · have hname := congrArg Prod.fst heq
    exact absurd (List.cons.inj (List.append_cancel_left hname)).2 hne
  · rwa [compare_append_append, compare_cons_cons_self] at hlt

/-! ## What a file keeps -/

/-- A store that was saved and loaded answers like the original one from now on. -/
def Persists (db : DatabaseManager) (now : UInt64) : Prop :=
  ∀ (key : Str) (time : UInt64), now ≤ time →
    (db.reopen.get time key).1 = (db.get time key).1

/-- The entries of a store that survive in a file. A key with a colon has an empty value or is
over; a key without one has no lifetime, unless its value is empty; and if the key is continued
by others after a colon, its value is what the last of them is read back as. -/
structure Persistable (db : DatabaseManager) (now : UInt64) : Prop where
  with_colon : ∀ key value : Str, colon ∈ key → db.data[key]? = some value →
    value = [] ∨ db.ended now key = true
  alone : ∀ key value : Str, colon ∉ key → (∀ rest : Str, db.data[key ++ colon :: rest]? = none) →
    db.data[key]? = some value → value = [] ∨ db.expiry[key]? = none
  continued : ∀ key rest value : Str, colon ∉ key → db.LastContinuation key rest value →
    db.data[key]? = some (rest ++ colon :: value) ∧ db.expiry[key]? = none

theorem get_reopen (db : DatabaseManager) (time : UInt64) (key : Str) :
    (db.reopen.get time key).1 = db.reopen.data[key]?.getD [] := by
  rw [get_fst, reopen_eq]
  rfl

theorem le_last (time : UInt64) : time ≤ 0xffffffffffffffff :=
  UInt64.le_iff_toNat_le.mpr (Nat.le_of_lt_succ time.toNat_lt)

/-- Every lifetime is over at the end of time. -/
theorem ended_last (db : DatabaseManager) (key : Str) :
    db.ended 0xffffffffffffffff key = (db.expiry[key]?).isSome := by
  rw [ended]
  cases db.expiry[key]? with
  | none => rfl
  | some time => exact decide_eq_true (le_last time)

theorem get_of_expiry_none {db : DatabaseManager} {key : Str} (h : db.expiry[key]? = none)
    (time : UInt64) : (db.get time key).1 = db.data[key]?.getD [] := by
  rw [get_fst, ended, h]
  rfl

theorem persists_of_persistable {db : DatabaseManager} {now : UInt64} (h : db.Persistable now) :
    db.Persists now := by
  intro key time htime
  rw [get_reopen]
  by_cases hkey : colon ∈ key
  · rw [reopen_of_mem db hkey, get_fst]
    cases hdata : db.data[key]? with
    | none => exact (ite_self _).symm
    | some value =>
      rcases h.with_colon key value hkey hdata with rfl | hended
      · exact (ite_self _).symm
      · rw [if_pos (ended_mono htime hended)]
        rfl
  · by_cases halone : ∀ rest : Str, db.data[key ++ colon :: rest]? = none
    · rw [reopen_of_alone db hkey halone]
      cases hdata : db.data[key]? with
      | none =>
        rw [get_fst, hdata]
        exact (ite_self _).symm
      | some value =>
        rcases h.alone key value hkey halone hdata with rfl | hnone
        · rw [get_fst, hdata]
          exact (ite_self _).symm
        · rw [get_of_expiry_none hnone, hdata]
    · obtain ⟨rest, value, hlast⟩ := exists_lastContinuation db halone
      obtain ⟨hdata, hnone⟩ := h.continued key rest value hkey hlast
      rw [reopen_of_continued db hkey hlast, get_of_expiry_none hnone, hdata]

theorem persistable_of_persists {db : DatabaseManager} {now : UInt64} (h : db.Persists now) :
    db.Persistable now where
  with_colon key value hkey hdata := by
    have hnow := h key now UInt64.le_rfl
    rw [get_reopen, reopen_of_mem db hkey, get_fst, hdata] at hnow
    by_cases hended : db.ended now key = true
    · exact Or.inr hended
    · rw [if_neg hended] at hnow
      exact Or.inl hnow.symm
  alone key value hkey halone hdata := by
    have hend := h key 0xffffffffffffffff (le_last now)
    rw [get_reopen, reopen_of_alone db hkey halone, get_fst, ended_last, hdata] at hend
    cases hexpiry : db.expiry[key]? with
    | none => exact Or.inr rfl
    | some time =>
      rw [hexpiry] at hend
      exact Or.inl hend
  continued key rest value hkey hlast := by
    have hend := h key 0xffffffffffffffff (le_last now)
    have hne : rest ++ colon :: value ≠ [] :=
      List.append_ne_nil_of_right_ne_nil _ (List.cons_ne_nil _ _)
    rw [get_reopen, reopen_of_continued db hkey hlast, Option.getD_some, get_fst,
      ended_last] at hend
    cases hexpiry : db.expiry[key]? with
    | some time =>
      rw [hexpiry] at hend
      exact absurd hend hne
    | none =>
      rw [hexpiry] at hend
      cases hdata : db.data[key]? with
      | none =>
        rw [hdata] at hend
        exact absurd hend hne
      | some stored =>
        rw [hdata] at hend
        exact ⟨congrArg some hend.symm, rfl⟩

/-! ## Runs -/

/-- A change that sets no lifetime and no key with a colon. -/
def Change.Plain : Change → Prop
  | .set key _ ttlMs => colon ∉ key ∧ ttlMs = 0
  | .del _ => True
  | .cleanupExpired => True

/-- A store without lifetimes and without keys that have a colon. -/
structure Plain (db : DatabaseManager) : Prop where
  colon_free : ∀ key : Str, colon ∈ key → db.data[key]? = none
  permanent : ∀ key : Str, db.expiry[key]? = none

theorem plain_create (file : Option Str) : (create file).Plain := by
  constructor
  · intro key hkey
    cases file with
    | none => exact Std.TreeMap.getElem?_emptyc
    | some text =>
      simp only [create, loadFromDisk]
      rw [getElem?_putAll, Std.TreeMap.getElem?_emptyc, Option.or_none, Option.map_eq_none_iff,
        List.getLast?_eq_none_iff, List.filter_eq_nil_iff]
      intro entry hentry heq
      obtain ⟨line, -, hline⟩ := List.mem_filterMap.mp hentry
      rw [parseLine] at hline
      split at hline
      · have hfree := not_mem_getline (d := colon) (decodeTernary line)
        rw [Option.some.inj hline, of_decide_eq_true heq] at hfree
        exact hfree hkey
      · cases hline
  · intro key
    cases file with
    | none => exact Std.TreeMap.getElem?_emptyc
    | some text => exact Std.TreeMap.getElem?_emptyc

theorem plain_step {db : DatabaseManager} {event : UInt64 × Change} (h : db.Plain)
    (hplain : event.2.Plain) : (db.step event).Plain := by
  obtain ⟨now, change⟩ := event
  cases change with
  | set key value ttlMs =>
    obtain ⟨hfree, rfl⟩ := hplain
    constructor
    · intro key' hkey'
      have hne : key ≠ key' := by
        rintro rfl
        exact hfree hkey'
      rw [step, data_set, getElem?_insert_eq, if_neg hne, h.colon_free key' hkey']
    · intro key'
      rw [step, expiry_set, if_neg (by decide), getElem?_erase_eq, h.permanent key', ite_self]
  | del key =>
    constructor
    · intro key' hkey'
      rw [step, data_del, getElem?_erase_eq, h.colon_free key' hkey', ite_self]
    · intro key'
      rw [step, expiry_del, getElem?_erase_eq, h.permanent key', ite_self]
  | cleanupExpired =>
    constructor
    · intro key' hkey'
      rw [step, getElem?_data_cleanupExpired, h.colon_free key' hkey', ite_self]
    · intro key'
      rw [step, getElem?_expiry_cleanupExpired, h.permanent key', ite_self]

theorem Plain.persistable {db : DatabaseManager} (h : db.Plain) (now : UInt64) :
    db.Persistable now where
  with_colon key value hkey hdata := by
    rw [h.colon_free key hkey] at hdata
    cases hdata
  alone key value _ _ _ := Or.inr (h.permanent key)
  continued key rest value _ hlast := by
    have hmem : colon ∈ key ++ colon :: rest := List.mem_append_right _ List.mem_cons_self
    have hdata := hlast.1
    rw [h.colon_free _ hmem] at hdata
    cases hdata

/-- Without lifetimes and keys with a colon, a store persists in every state. -/
theorem persists_of_plain (file : Option Str) {events : List (UInt64 × Change)}
    (hplain : ∀ event ∈ events, event.2.Plain) (now : UInt64) :
    (run step (create file) events).Persists now := by
  apply persists_of_persistable
  apply Plain.persistable
  exact run_invariant (fun _ _ => plain_step) (plain_create file) (along_of_forall hplain)

/-- A store that was reached by changes at any times persists exactly when the file can keep
its entries. -/
theorem persists_iff (file : Option Str) (events : List (UInt64 × Change)) (now : UInt64) :
    (run step (create file) events).Persists now ↔
      (run step (create file) events).Persistable now :=
  ⟨persistable_of_persists, persists_of_persistable⟩

/-- A session that was set to last five seconds lives on in the file. -/
theorem not_persists_session :
    ¬ ∀ (file : Option Str) (events : List (UInt64 × Change)) (now : UInt64),
      (run step (create file) events).Persists now := by
  intro h
  have hlater := h none [(1000, .set (ascii "session") (ascii "token") 5000)] 1000
    (ascii "session") 7000 (by decide)
  revert hlater
  decide +kernel

end DatabaseManager

end Blackstone.Bank
