import Blackstone.Bank.Database
import Blackstone.Library.Trim

/-!
# The configuration file

`config_loader.cpp` without its mutex. A line of the file is `key = value`; blanks around the two
and a pair of quotes around the value are dropped when it is read, and a line that begins with `#`
or `;` is a comment. A path with `.json` in it is never read.

`restored_iff`: what was saved is read back by a new loader exactly when it is `Persistable`.
`getInt_reopen` and `getBool_reopen` compose the accessors with the file.
-/

namespace Blackstone.Bank

open Delimited OrderedMap Trim

/-- `ConfigLoader`. -/
structure ConfigLoader where
  config : Std.TreeMap Str Str
  configPath : Str

namespace ConfigLoader

/-- The bytes `' '`, `'#'`, `';'`, `'='` and `'"'`. -/
def blank : UInt8 := 32
def sharp : UInt8 := 35
def semicolon : UInt8 := 59
def equals : UInt8 := 61
def quote : UInt8 := 34

def isBlank (b : UInt8) : Bool := b = blank

/-- The constructor. -/
def create (path : Str) : ConfigLoader := ⟨∅, path⟩

/-- The value without a pair of quotes. -/
def unquote (value : Str) : Str :=
  if 2 ≤ value.length ∧ value.head? = some quote ∧ value.getLast? = some quote then
    (value.drop 1).take (value.length - 2)
  else value

/-- What `parseLine` stores for a line. -/
def lineEntry (line : Str) : Option (Str × Str) :=
  if line.head? = none ∨ line.head? = some sharp ∨ line.head? = some semicolon then none
  else if equals ∈ line then
    some (trim isBlank (getline equals line).1, unquote (trim isBlank (getline equals line).2))
  else none

/-- `parseLine`. -/
def parseLine (config : Std.TreeMap Str Str) (line : Str) : Std.TreeMap Str Str :=
  match lineEntry line with
  | none => config
  | some (key, value) => config.insert key value

/-- `parseINI`. -/
def parseINI (config : Std.TreeMap Str Str) (content : Str) : Std.TreeMap Str Str :=
  (getlines newline content.length content).foldl parseLine config

/-- `parseJSON` has no body. -/
def parseJSON (config : Std.TreeMap Str Str) (_content : Str) : Std.TreeMap Str Str := config

/-- `configPath.find(".json") != npos`. -/
def isJson (loader : ConfigLoader) : Prop := ascii ".json" <:+: loader.configPath

instance (loader : ConfigLoader) : Decidable loader.isJson :=
  inferInstanceAs (Decidable (_ <:+: _))

/-- `load`; a file that does not open is `none`. -/
def load (loader : ConfigLoader) : Option Str → ConfigLoader × Bool
  | none => (loader, false)
  | some content =>
    ({ loader with
        config := if loader.isJson then parseJSON loader.config content
          else parseINI loader.config content }, true)

/-- A line of `save`. -/
def writeLine (entry : Str × Str) : Str := entry.1 ++ ascii " = " ++ entry.2

def header : List Str :=
  [ascii "# Configuration File", ascii "# Generated by Banking System", []]

/-- The lines of `save`. -/
def savedLines (loader : ConfigLoader) : List Str := header ++ loader.config.toList.map writeLine

/-- What `save` writes to a file that opens. -/
def save (loader : ConfigLoader) : Str := loader.savedLines.flatMap (· ++ [newline])

/-- A new loader of the file that was saved. -/
def reopen (loader : ConfigLoader) : ConfigLoader :=
  ((create loader.configPath).load (some loader.save)).1

/-! ## The accessors -/

def getString (loader : ConfigLoader) (key defaultValue : Str) : Str :=
  loader.config[key]?.getD defaultValue

def getInt (loader : ConfigLoader) (key : Str) (defaultValue : Int32) : Int32 :=
  let val := loader.getString key []
  if val = [] then defaultValue else (stoi val).getD defaultValue

def getBool (loader : ConfigLoader) (key : Str) (defaultValue : Bool) : Bool :=
  let val := loader.getString key []
  if val = [] then defaultValue
  else val = ascii "true" ∨ val = ascii "1" ∨ val = ascii "yes" ∨ val = ascii "on"

def setString (loader : ConfigLoader) (key value : Str) : ConfigLoader :=
  { loader with config := loader.config.insert key value }

def setInt (loader : ConfigLoader) (key : Str) (value : Int32) : ConfigLoader :=
  loader.setString key (decimalInt value.toInt)

def setBool (loader : ConfigLoader) (key : Str) (value : Bool) : ConfigLoader :=
  loader.setString key (if value then ascii "true" else ascii "false")

def hasKey (loader : ConfigLoader) (key : Str) : Bool := loader.config.contains key

def removeKey (loader : ConfigLoader) (key : Str) : ConfigLoader :=
  { loader with config := loader.config.erase key }

def getKeys (loader : ConfigLoader) : List Str := loader.config.keys

def clear (loader : ConfigLoader) : ConfigLoader := { loader with config := ∅ }

/-! ## What is read back -/

/-- A key that is read back as it is written. -/
structure KeyOk (key : Str) : Prop where
  line : newline ∉ key
  field : equals ∉ key
  trimmed : Trimmed isBlank key
  comment : key.head? ≠ some sharp ∧ key.head? ≠ some semicolon

/-- A value that is read back as it is written. -/
structure ValueOk (value : Str) : Prop where
  line : newline ∉ value
  trimmed : Trimmed isBlank value
  quotes : ¬(2 ≤ value.length ∧ value.head? = some quote ∧ value.getLast? = some quote)

/-- The file is read at all, and every entry is read back. -/
def Persistable (loader : ConfigLoader) : Prop :=
  (loader.isJson → ∀ key : Str, loader.config[key]? = none) ∧
    (¬loader.isJson →
      ∀ key value : Str, loader.config[key]? = some value → KeyOk key ∧ ValueOk value)

theorem foldl_parseLine (config : Std.TreeMap Str Str) (lines : List Str) :
    lines.foldl parseLine config = putAll config (lines.filterMap lineEntry) := by
  induction lines generalizing config with
  | nil => rfl
  | cons line lines ih =>
    rw [List.foldl_cons, ih, parseLine]
    cases hentry : lineEntry line with
    | none => rw [List.filterMap_cons_none hentry]
    | some entry => rw [List.filterMap_cons_some hentry, putAll, putAll, List.foldl_cons]

theorem unquote_sublist (value : Str) : (unquote value).Sublist value := by
  unfold unquote
  split_ifs
  · exact (List.take_sublist _ _).trans (List.drop_sublist _ _)
  · exact List.Sublist.refl _

theorem unquote_eq_self_iff (value : Str) : unquote value = value ↔
    ¬(2 ≤ value.length ∧ value.head? = some quote ∧ value.getLast? = some quote) := by
  unfold unquote
  split_ifs with hquoted
  · refine iff_of_false ?_ (not_not.mpr hquoted)
    intro hsame
    have hlength := congrArg List.length hsame
    rw [List.length_take, List.length_drop] at hlength
    omega
  · exact iff_of_true rfl hquoted

/-- A line stores a key without `=` and without blanks around it, and nothing that was not in the
line. -/
theorem lineEntry_some {line key value : Str} (h : lineEntry line = some (key, value)) :
    equals ∉ key ∧ Trimmed isBlank key ∧ (∀ b ∈ key, b ∈ line) ∧ ∀ b ∈ value, b ∈ line := by
  unfold lineEntry at h
  split_ifs at h
  obtain ⟨rfl, rfl⟩ := Prod.mk.inj (Option.some.inj h)
  have hkey : ∀ b ∈ trim isBlank (getline equals line).1, b ∈ (getline equals line).1 :=
    fun b hb => trim_infix.subset hb
  refine ⟨fun hmem => not_mem_getline _ (hkey _ hmem), trimmed_trim, fun b hb => ?_, fun b hb => ?_⟩
  · exact (List.takeWhile_prefix _).subset (hkey b hb)
  · have hvalue := trim_infix.subset ((unquote_sublist _).subset hb)
    exact (List.dropWhile_suffix _).subset (List.mem_of_mem_tail hvalue)

/-- A line of `save` whose key has no `=`. -/
theorem lineEntry_writeLine {key : Str} (hkey : equals ∉ key) (value : Str) :
    lineEntry (writeLine (key, value)) =
      if key.head? = some sharp ∨ key.head? = some semicolon then none
      else some (trim isBlank key, unquote (trim isBlank value)) := by
  have hline : writeLine (key, value) = (key ++ [blank]) ++ equals :: (blank :: value) := by
    rw [writeLine]
    simp [ascii, blank, equals]
  have hfree : equals ∉ key ++ [blank] := by
    rw [List.mem_append, not_or]
    exact ⟨hkey, by decide⟩
  have hhead : (writeLine (key, value)).head? = key.head? ∨
      key.head? = none ∧ (writeLine (key, value)).head? = some blank := by
    cases key with
    | nil => exact Or.inr ⟨rfl, rfl⟩
    | cons b key => exact Or.inl rfl
  have hmem : equals ∈ writeLine (key, value) := by
    rw [hline]
    exact List.mem_append_right _ List.mem_cons_self
  have hblank : isBlank blank = true := rfl
  rw [lineEntry, if_pos hmem, hline, getline_append_cons hfree, ← hline, trim_concat hblank,
    trim_cons hblank]
  rcases hhead with hsame | ⟨hnone, hfirst⟩
  · have hne : (writeLine (key, value)).head? ≠ none := by
      rw [hline]
      simp
    rw [← hsame]
    simp only [hne, false_or]
  · rw [hnone, hfirst]
    simp [blank, sharp, semicolon]

/-! ## Saving and loading -/

variable {loader : ConfigLoader}

theorem mem_toList {key value : Str} :
    (key, value) ∈ loader.config.toList ↔ loader.config[key]? = some value :=
  Std.TreeMap.mem_toList_iff_getElem?_eq_some

theorem reopen_of_json (hjson : loader.isJson) (key : Str) : loader.reopen.config[key]? = none := by
  have hread : loader.reopen.config = ∅ := by
    simp only [reopen, create, load]
    exact if_pos hjson
  rw [hread, Std.TreeMap.getElem?_emptyc]

theorem reopen_eq (hjson : ¬loader.isJson) : loader.reopen.config =
    putAll ∅ ((getlines newline loader.save.length loader.save).filterMap lineEntry) := by
  rw [← foldl_parseLine]
  simp only [reopen, create, load]
  exact if_neg hjson

/-- What is read back has no end of a line in it. -/
theorem clean_of_reopen (hjson : ¬loader.isJson) {key value : Str}
    (h : loader.reopen.config[key]? = some value) :
    newline ∉ key ∧ newline ∉ value ∧ equals ∉ key ∧ Trimmed isBlank key := by
  rw [reopen_eq hjson] at h
  obtain ⟨line, hline, hentry⟩ := List.mem_filterMap.mp (mem_of_getElem?_putAll h)
  obtain ⟨hfield, htrimmed, hkey, hvalue⟩ := lineEntry_some hentry
  have hfree := not_mem_of_mem_getlines hline
  exact ⟨fun hmem => hfree (hkey _ hmem), fun hmem => hfree (hvalue _ hmem), hfield, htrimmed⟩

/-- An entry without ends of lines, whose key has no `=` and no blanks around it. -/
def Clean (loader : ConfigLoader) : Prop :=
  ∀ key value : Str, loader.config[key]? = some value →
    newline ∉ key ∧ newline ∉ value ∧ equals ∉ key ∧ Trimmed isBlank key

/-- The lines of a clean loader are read as they are written. -/
theorem getlines_save (h : loader.Clean) :
    getlines newline loader.save.length loader.save = loader.savedLines := by
  refine getlines_flatMap (fun line hline => ?_) (Nat.le_refl _)
  rcases List.mem_append.mp hline with hheader | hentry
  · have hfree : ∀ line ∈ header, newline ∉ line := by decide
    exact hfree line hheader
  · obtain ⟨⟨key, value⟩, hmem, rfl⟩ := List.mem_map.mp hentry
    obtain ⟨hkey, hvalue, -⟩ := h key value (mem_toList.mp hmem)
    rw [writeLine, List.mem_append, List.mem_append, not_or, not_or]
    exact ⟨⟨hkey, by decide⟩, hvalue⟩

/-- What is read back under a key is the value without its blanks and quotes. -/
theorem getElem?_reopen (hjson : ¬loader.isJson) (h : loader.Clean) {key value : Str} :
    loader.reopen.config[key]? = some value ↔
      ¬(key.head? = some sharp ∨ key.head? = some semicolon) ∧
        ∃ written, loader.config[key]? = some written ∧
          value = unquote (trim isBlank written) := by
  have hentry : ∀ e ∈ loader.config.toList, lineEntry (writeLine e) =
      if e.1.head? = some sharp ∨ e.1.head? = some semicolon then none
      else some (e.1, unquote (trim isBlank e.2)) := by
    rintro ⟨key, value⟩ hmem
    obtain ⟨-, -, hfield, htrimmed⟩ := h key value (mem_toList.mp hmem)
    rw [lineEntry_writeLine hfield, trim_eq_self_iff.mpr htrimmed]
  have hheader : header.filterMap lineEntry = [] := by decide
  rw [reopen_eq hjson, getlines_save h, savedLines, List.filterMap_append, hheader,
    List.nil_append, List.filterMap_map, getElem?_putAll_iff, List.mem_filterMap]
  · constructor
    · rintro ⟨⟨key', written⟩, hmem, hread⟩
      rw [Function.comp_apply, hentry _ hmem] at hread
      split_ifs at hread with hcomment
      obtain ⟨rfl, rfl⟩ := Prod.mk.inj (Option.some.inj hread)
      exact ⟨hcomment, written, mem_toList.mp hmem, rfl⟩
    · rintro ⟨hcomment, written, hwritten, rfl⟩
      refine ⟨(key, written), mem_toList.mpr hwritten, ?_⟩
      rw [Function.comp_apply, hentry _ (mem_toList.mpr hwritten), if_neg hcomment]
  · have hkeys := loader.config.distinct_keys_toList
    rw [List.pairwise_filterMap]
    refine hkeys.imp_of_mem fun {a b} ha hb hne a' ha' b' hb' heq => hne ?_
    rw [Function.comp_apply, hentry _ ha] at ha'
    rw [Function.comp_apply, hentry _ hb] at hb'
    split_ifs at ha' hb'
    rw [← Option.some.inj ha', ← Option.some.inj hb'] at heq
    rw [Std.LawfulEqOrd.compare_eq_iff_eq]
    exact heq

/-- A value that is read back has no blanks around it and no quotes. -/
theorem unquote_trim_eq_self_iff (value : Str) : unquote (trim isBlank value) = value ↔
    Trimmed isBlank value ∧
      ¬(2 ≤ value.length ∧ value.head? = some quote ∧ value.getLast? = some quote) := by
  rw [← unquote_eq_self_iff, ← trim_eq_self_iff]
  constructor
  · intro hsame
    have hinfix : trim isBlank value <:+: value := trim_infix
    have hlength := (unquote_sublist (trim isBlank value)).length_le
    rw [hsame] at hlength
    have htrim := hinfix.eq_of_length (Nat.le_antisymm hinfix.length_le hlength)
    rw [htrim] at hsame
    exact ⟨htrim, hsame⟩
  · rintro ⟨htrim, hquotes⟩
    rw [htrim, hquotes]

/-- What was saved is read back by a new loader exactly when it is `Persistable`. -/
theorem restored_iff (loader : ConfigLoader) :
    (∀ key : Str, loader.reopen.config[key]? = loader.config[key]?) ↔ loader.Persistable := by
  constructor
  · intro hsame
    refine ⟨fun hjson key => ?_, fun hjson key value hvalue => ?_⟩
    · rw [← hsame]
      exact reopen_of_json hjson key
    · have hclean : loader.Clean := by
        intro key' value' hvalue'
        rw [← hsame] at hvalue'
        exact clean_of_reopen hjson hvalue'
      obtain ⟨hkey, hline, hfield, htrimmed⟩ := hclean key value hvalue
      obtain ⟨hcomment, written, hwritten, hread⟩ :=
        (getElem?_reopen hjson hclean).mp ((hsame key).trans hvalue)
      obtain rfl := Option.some.inj (hvalue.symm.trans hwritten)
      obtain ⟨hblanks, hquotes⟩ := (unquote_trim_eq_self_iff value).mp hread.symm
      exact ⟨⟨hkey, hfield, htrimmed, not_or.mp hcomment⟩, ⟨hline, hblanks, hquotes⟩⟩
  · rintro ⟨hempty, hentries⟩ key
    by_cases hjson : loader.isJson
    · rw [hempty hjson, reopen_of_json hjson]
    · have hclean : loader.Clean := by
        intro key' value' hvalue'
        obtain ⟨hkey, hvalue⟩ := hentries hjson key' value' hvalue'
        exact ⟨hkey.line, hvalue.line, hkey.field, hkey.trimmed⟩
      apply Option.ext
      intro value
      rw [getElem?_reopen hjson hclean]
      constructor
      · rintro ⟨-, written, hwritten, rfl⟩
        obtain ⟨-, hvalue⟩ := hentries hjson key written hwritten
        rw [(unquote_trim_eq_self_iff written).mpr ⟨hvalue.trimmed, hvalue.quotes⟩]
        exact hwritten
      · intro hvalue
        obtain ⟨hkey, hok⟩ := hentries hjson key value hvalue
        exact ⟨not_or.mpr hkey.comment, value, hvalue,
          ((unquote_trim_eq_self_iff value).mpr ⟨hok.trimmed, hok.quotes⟩).symm⟩

/-! ## The accessors after a restart -/

/-- Another value under one key. -/
theorem Persistable.setString (h : loader.Persistable) (hjson : ¬loader.isJson) {key value : Str}
    (hkey : KeyOk key) (hvalue : ValueOk value) : (loader.setString key value).Persistable := by
  refine ⟨fun hjson' => absurd hjson' hjson, fun _ key' value' hlookup => ?_⟩
  simp only [ConfigLoader.setString] at hlookup
  rw [getElem?_insert_eq] at hlookup
  split_ifs at hlookup with hsame
  · rw [← hsame, ← Option.some.inj hlookup]
    exact ⟨hkey, hvalue⟩
  · exact h.2 hjson key' value' hlookup

theorem getString_reopen (h : loader.Persistable) (key defaultValue : Str) :
    loader.reopen.getString key defaultValue = loader.getString key defaultValue := by
  rw [getString, getString, (restored_iff loader).mpr h]

theorem getString_setString (loader : ConfigLoader) (key value key' defaultValue : Str) :
    (loader.setString key value).getString key' defaultValue =
      if key = key' then value else loader.getString key' defaultValue := by
  simp only [getString, setString, getElem?_insert_eq]
  split_ifs
  · rfl
  · rfl

/-- A byte that is no line end, blank or quote. -/
def isPlain (b : UInt8) : Bool := b != newline && !isBlank b && b != quote

/-- A text without blanks and quotes. -/
theorem valueOk_of_all {value : Str} (h : value.all isPlain = true) : ValueOk value := by
  have hplain : ∀ b ∈ value, b ≠ newline ∧ isBlank b = false ∧ b ≠ quote := by
    intro b hb
    have hb := List.all_eq_true.mp h b hb
    simp only [isPlain, Bool.and_eq_true, bne_iff_ne, Bool.not_eq_true'] at hb
    exact ⟨hb.1.1, hb.1.2, hb.2⟩
  exact ⟨fun hmem => (hplain _ hmem).1 rfl,
    ⟨fun _ hb => (hplain _ (List.mem_of_mem_head? hb)).2.1,
      fun _ hb => (hplain _ (List.mem_of_mem_getLast? hb)).2.1⟩,
    fun hquotes => (hplain _ (List.mem_of_mem_head? hquotes.2.1)).2.2 rfl⟩

theorem isPlain_of_isDigit {b : UInt8} (hb : isDigit b = true) : isPlain b = true := by
  have hother : ∀ c, isDigit c = false → b ≠ c := by
    rintro c hc rfl
    exact absurd hb (by rw [hc]; exact Bool.false_ne_true)
  simp only [isPlain, Bool.and_eq_true, bne_iff_ne, Bool.not_eq_true']
  exact ⟨⟨hother _ rfl, decide_eq_false (hother _ rfl)⟩, hother _ rfl⟩

theorem valueOk_decimalInt (n : ℤ) : ValueOk (decimalInt n) := by
  have hdecimal : ∀ m, (decimal m).all isPlain = true := fun m =>
    List.all_eq_true.mpr fun b hb => isPlain_of_isDigit (isDigit_of_mem_decimal hb)
  apply valueOk_of_all
  rw [decimalInt]
  split_ifs
  · rw [List.all_append, hdecimal, Bool.and_true]
    rfl
  · exact hdecimal _

theorem decimalInt_ne_nil (n : ℤ) : decimalInt n ≠ [] := by
  rw [decimalInt]
  split_ifs
  · exact List.append_ne_nil_of_right_ne_nil _ (decimal_ne_nil _)
  · exact decimal_ne_nil _

/-- A number and a flag that were set are found by a new loader of the file, and nothing else has
changed. -/
theorem reopen_setInt_setBool (h : loader.Persistable) (hjson : ¬loader.isJson) {key key' : Str}
    (hkey : KeyOk key) (hkey' : KeyOk key') (hne : key ≠ key') (number : Int32) (flag : Bool) :
    let reopened := ((loader.setInt key number).setBool key' flag).reopen
    (∀ defaultValue, reopened.getInt key defaultValue = number) ∧
      (∀ defaultValue, reopened.getBool key' defaultValue = flag) ∧
      ∀ other defaultValue, other ≠ key → other ≠ key' →
        reopened.getString other defaultValue = loader.getString other defaultValue := by
  have hflag : ∀ flag : Bool,
      ValueOk (if flag then ascii "true" else ascii "false") ∧
        (if flag then ascii "true" else ascii "false") ≠ [] := by
    intro flag
    cases flag with
    | false => exact ⟨valueOk_of_all rfl, by decide⟩
    | true => exact ⟨valueOk_of_all rfl, by decide⟩
  have hset : ((loader.setInt key number).setBool key' flag).Persistable :=
    (h.setString hjson hkey (valueOk_decimalInt _)).setString hjson hkey' (hflag flag).1
  refine ⟨fun defaultValue => ?_, fun defaultValue => ?_, fun other defaultValue ho ho' => ?_⟩
  · rw [getInt, getString_reopen hset, setBool, setInt, getString_setString,
      if_neg hne.symm, getString_setString, if_pos rfl, if_neg (decimalInt_ne_nil _),
      stoi_decimalInt, Option.getD_some]
  · rw [getBool, getString_reopen hset, setBool, getString_setString, if_pos rfl,
      if_neg (hflag flag).2]
    cases flag with
    | false => decide
    | true => decide
  · rw [getString_reopen hset, setBool, setInt, getString_setString, if_neg ho'.symm,
      getString_setString, if_neg ho.symm]

/-- A port and a switch in a new file. -/
theorem reopen_setInt_setBool_port :
    let reopened := (((create (ascii "config.ini")).setInt (ascii "port") 8080).setBool
      (ascii "tls") true).reopen
    reopened.getInt (ascii "port") 0 = 8080 ∧ reopened.getBool (ascii "tls") false = true := by
  have hpath : ¬(create (ascii "config.ini")).isJson := by decide
  have hempty : (create (ascii "config.ini")).Persistable := by
    refine ⟨fun hjson => absurd hjson hpath, fun _ key value hlookup => ?_⟩
    rw [create, Std.TreeMap.getElem?_emptyc] at hlookup
    cases hlookup
  have hport : KeyOk (ascii "port") := ⟨by decide, by decide, by decide, by decide⟩
  have htls : KeyOk (ascii "tls") := ⟨by decide, by decide, by decide, by decide⟩
  have hread := reopen_setInt_setBool hempty hpath hport htls (by decide) 8080 true
  exact ⟨hread.1 0, hread.2.1 false⟩

end ConfigLoader

end Blackstone.Bank
