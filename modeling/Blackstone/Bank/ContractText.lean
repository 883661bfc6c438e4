import Blackstone.Bank.AccountText
import Blackstone.Bank.SmartContract

/-!
# The text form of a contract

`SmartContract::serialize` and `SmartContract::deserialize` of `smart_contract.cpp`. Every entry
of the state is a field `key:tag:value` behind the fixed ones; the events are not written. A text
is cut at every `'|'` and an entry at its first `':'`, so that the state is read back exactly when
it is `Restorable` (`restores_iff`).
-/

namespace Blackstone.Bank

open Delimited OrderedMap SignificantDigits

/-- `std::stoll`. -/
def stoll (text : Str) : Option Int64 :=
  match readNumber text with
  | none => none
  | some (negative, n) =>
    let value : Int := if negative then -n else n
    if -2 ^ 63 ≤ value ∧ value < 2 ^ 63 then some (Int64.ofInt value) else none

theorem stoll_decimalInt (x : Int64) : stoll (decimalInt x.toInt) = some x := by
  have hrange : -2 ^ 63 ≤ x.toInt ∧ x.toInt < 2 ^ 63 := ⟨x.le_toInt, x.toInt_lt⟩
  have hread : readNumber (decimalInt x.toInt) = some (decide (x.toInt < 0), x.toInt.natAbs) := by
    unfold decimalInt
    split_ifs with hneg
    · rw [readNumber_neg, decide_eq_true hneg]
    · rw [readNumber_decimal, decide_eq_false hneg]
  have hvalue : (if decide (x.toInt < 0) = true then -(x.toInt.natAbs : Int)
      else x.toInt.natAbs) = x.toInt := by
    split_ifs with hneg
    · have := of_decide_eq_true hneg
      omega
    · have : ¬x.toInt < 0 := by simpa using hneg
      omega
  unfold stoll
  rw [hread]
  simp only [hvalue]
  rw [if_pos hrange, Int64.ofInt_toInt]

namespace ContractValue

/-- A value behind its tag. -/
def text : ContractValue → Str
  | .int value => ascii "i:" ++ decimalInt value.toInt
  | .double value => ascii "d:" ++ printDouble value
  | .string value => ascii "s:" ++ value
  | .bool value => ascii "b:" ++ BankAccount.flagText value

/-- The branches of `deserialize` for a value; the outer `none` when a number cannot be read, the
inner one when there is no tag. -/
def read (value : Str) : Option (Option ContractValue) :=
  if value.take 2 = ascii "i:" then (stoll (value.drop 2)).map fun v => some (.int v)
  else if value.take 2 = ascii "d:" then (stod (value.drop 2)).map fun v => some (.double v)
  else if value.take 2 = ascii "s:" then some (some (.string (value.drop 2)))
  else if value.take 2 = ascii "b:" then some (some (.bool (value.drop 2 = ascii "1")))
  else some none

/-- A value after it has gone through a stream. -/
def rounded : ContractValue → ContractValue
  | .double value => .double (roundSignificant 5 value)
  | value => value

/-- No delimiter in a string. -/
def BarFree : ContractValue → Prop
  | .string value => bar ∉ value
  | _ => True

/-- A value that is read back as it was written. -/
def Restorable : ContractValue → Prop
  | .double value => HasDigits 5 value
  | .string value => bar ∉ value
  | _ => True

theorem read_text (value : ContractValue) : read value.text = some (some value.rounded) := by
  cases value with
  | int value =>
    show (stoll (decimalInt value.toInt)).map _ = _
    rw [stoll_decimalInt]
    rfl
  | double value =>
    show (stod (printDouble value)).map _ = _
    rw [stod_printDouble]
    rfl
  | string value => rfl
  | bool value =>
    show some (some (ContractValue.bool (decide (BankAccount.flagText value = ascii "1")))) = _
    rw [BankAccount.flagText_eq_one]
    rfl

theorem barFree_text {value : ContractValue} (h : value.BarFree) : bar ∉ value.text := by
  unfold text
  cases value with
  | int value => simpa [ascii, bar] using bar_not_mem_decimalInt value.toInt
  | double value => simpa [ascii, bar] using bar_not_mem_printDouble value
  | string value =>
    have hvalue : bar ∉ value := h
    simpa [ascii, bar] using hvalue
  | bool value => simpa [ascii, bar] using BankAccount.bar_not_mem_flagText value

/-- What is read from a text without delimiters has none. -/
theorem barFree_of_read {text : Str} {value : ContractValue} (htext : bar ∉ text)
    (h : read text = some (some value)) : value.BarFree := by
  unfold read at h
  split_ifs at h
  · obtain ⟨v, -, hv⟩ := Option.map_eq_some_iff.mp h
    cases hv
    trivial
  · obtain ⟨v, -, hv⟩ := Option.map_eq_some_iff.mp h
    cases hv
    trivial
  · cases h
    exact fun hmem => htext (List.mem_of_mem_drop hmem)
  · cases h
    trivial
  · cases h

theorem restorable_iff (value : ContractValue) :
    value.Restorable ↔ value.BarFree ∧ value.rounded = value := by
  cases value with
  | int value => exact iff_of_true trivial ⟨trivial, rfl⟩
  | double value =>
    rw [Restorable, ← roundSignificant_eq_self_iff, rounded, ContractValue.double.injEq]
    exact ⟨fun h => ⟨trivial, h⟩, fun h => h.2⟩
  | string value => exact ⟨fun h => ⟨h, rfl⟩, fun h => h.1⟩
  | bool value => exact iff_of_true trivial ⟨trivial, rfl⟩

end ContractValue

namespace SmartContract

/-- An entry of the state, as it is written. -/
def entryText (entry : Str × ContractValue) : Str := entry.1 ++ colon :: entry.2.text

/-- `serialize`. -/
def serialize (contract : SmartContract) : Str :=
  join bar ([contract.contractId, contract.creator, contract.code,
    BankAccount.flagText contract.isActive, decimal contract.createdAt.toNat] ++
    contract.state.toList.map entryText)

/-- What the loop of `deserialize` finds in a field, `none` when it throws. -/
def readEntry (kv : Str) : Option (Option (Str × ContractValue)) :=
  if kv = [] then some none
  else if colon ∈ kv then
    (ContractValue.read (getline colon kv).2).map
      (·.map fun value => ((getline colon kv).1, value))
  else some none

/-- The loop of `deserialize`, over the fields that it reads. -/
def readState (state : Std.TreeMap Str ContractValue) : List Str →
    Option (Std.TreeMap Str ContractValue)
  | [] => some state
  | kv :: fields =>
    match readEntry kv with
    | none => none
    | some none => readState state fields
    | some (some (key, value)) => readState (state.insert key value) fields

/-- `deserialize`, `none` when it throws. -/
def deserialize (data : Str) : Option SmartContract :=
  let contractId := getline bar data
  let creator := getline bar contractId.2
  let code := getline bar creator.2
  let activeStr := getline bar code.2
  let createdStr := getline bar activeStr.2
  match stoull createdStr.1, readState ∅ (getlines bar createdStr.2.length createdStr.2) with
  | some createdAt, some state =>
    some
      { contractId := contractId.1
        creator := creator.1
        code := code.1
        state := state
        events := []
        isActive := activeStr.1 = ascii "1"
        createdAt := createdAt
        bounded := Nat.zero_le _ }
  | _, _ => none

/-! ## The loop over the state -/

/-- A key and a value that are cut where they should be. -/
def CleanEntry (entry : Str × ContractValue) : Prop :=
  bar ∉ entry.1 ∧ colon ∉ entry.1 ∧ entry.2.BarFree

theorem readEntry_entryText {entry : Str × ContractValue} (h : CleanEntry entry) :
    readEntry (entryText entry) = some (some (entry.1, entry.2.rounded)) := by
  have hline : getline colon (entryText entry) = (entry.1, entry.2.text) :=
    getline_append_cons h.2.1 _
  have hmem : colon ∈ entryText entry := List.mem_append_right _ List.mem_cons_self
  rw [readEntry, if_neg (List.ne_nil_of_mem hmem), if_pos hmem, hline,
    ContractValue.read_text]
  rfl

theorem bar_not_mem_entryText {entry : Str × ContractValue} (h : CleanEntry entry) :
    bar ∉ entryText entry := by
  rw [entryText, List.mem_append, List.mem_cons]
  rintro (hkey | hcolon | hvalue)
  · exact h.1 hkey
  · exact absurd hcolon (by decide)
  · exact ContractValue.barFree_text h.2.2 hvalue

/-- What the loop finds in a field without delimiters is clean. -/
theorem cleanEntry_of_readEntry {kv : Str} {entry : Str × ContractValue} (hkv : bar ∉ kv)
    (h : readEntry kv = some (some entry)) : CleanEntry entry := by
  unfold readEntry at h
  split_ifs at h
  · cases h
  · obtain ⟨found, hread, hentry⟩ := Option.map_eq_some_iff.mp h
    obtain ⟨value, rfl, rfl⟩ := Option.map_eq_some_iff.mp hentry
    have hrest : bar ∉ (getline colon kv).2 := by
      intro hmem
      exact hkv ((List.dropWhile_sublist _).subset (List.mem_of_mem_tail hmem))
    exact ⟨fun hmem => hkv ((List.takeWhile_sublist _).subset hmem), not_mem_getline kv,
      ContractValue.barFree_of_read hrest hread⟩
  · cases h

/-- Empty fields are skipped. -/
theorem readState_filter (state : Std.TreeMap Str ContractValue) (fields : List Str) :
    readState state (fields.filter (· ≠ [])) = readState state fields := by
  induction fields generalizing state with
  | nil => rfl
  | cons kv fields ih =>
    by_cases hnil : kv = []
    · subst hnil
      exact ih state
    · rw [List.filter_cons_of_pos (by simpa using hnil), readState, readState]
      cases readEntry kv with
      | none => rfl
      | some found =>
        cases found with
        | none => exact ih state
        | some entry => exact ih _

/-- Clean entries are put into the state, with their values rounded. -/
theorem readState_entryText {entries : List (Str × ContractValue)}
    (h : ∀ entry ∈ entries, CleanEntry entry) (state : Std.TreeMap Str ContractValue) :
    readState state (entries.map entryText) =
      some (putAll state (entries.map fun entry => (entry.1, entry.2.rounded))) := by
  induction entries generalizing state with
  | nil => rfl
  | cons entry entries ih =>
    rw [List.map_cons, readState, readEntry_entryText (h entry List.mem_cons_self)]
    exact ih (fun e he => h e (List.mem_cons_of_mem _ he)) _

/-- Every entry of the state that is read is clean. -/
theorem cleanEntry_of_readState {fields : List Str} (hfields : ∀ kv ∈ fields, bar ∉ kv)
    {state read : Std.TreeMap Str ContractValue}
    (hstate : ∀ (key : Str) value, state[key]? = some value → CleanEntry (key, value))
    (h : readState state fields = some read) (key : Str) (value : ContractValue)
    (hlookup : read[key]? = some value) : CleanEntry (key, value) := by
  induction fields generalizing state with
  | nil =>
    cases h
    exact hstate key value hlookup
  | cons kv fields ih =>
    have hrest := fun kv' hkv' => hfields kv' (List.mem_cons_of_mem _ hkv')
    rw [readState] at h
    cases hentry : readEntry kv with
    | none =>
      rw [hentry] at h
      cases h
    | some found =>
      rw [hentry] at h
      cases found with
      | none => exact ih hrest hstate h
      | some entry =>
        have hclean := cleanEntry_of_readEntry (hfields kv List.mem_cons_self) hentry
        refine ih hrest ?_ h
        intro key' value' hlookup'
        rw [getElem?_insert_eq] at hlookup'
        split_ifs at hlookup' with hkey
        · cases hlookup'
          rw [← hkey]
          exact hclean
        · exact hstate key' value' hlookup'

/-! ## What is read back -/

/-- Two contracts that differ in their events at most. -/
structure SameButEvents (a b : SmartContract) : Prop where
  contractId : a.contractId = b.contractId
  creator : a.creator = b.creator
  code : a.code = b.code
  isActive : a.isActive = b.isActive
  createdAt : a.createdAt = b.createdAt
  state : ∀ key : Str, a.state[key]? = b.state[key]?

/-- Writing and reading a contract loses its events and nothing else. -/
def Restores (contract : SmartContract) : Prop :=
  ∃ restored, deserialize contract.serialize = some restored ∧ restored.events = [] ∧
    SameButEvents restored contract

/-- The strings of a contract are cut where they should be. -/
structure Clean (contract : SmartContract) : Prop where
  contractId : bar ∉ contract.contractId
  creator : bar ∉ contract.creator
  code : bar ∉ contract.code
  state : ∀ (key : Str) value, contract.state[key]? = some value → CleanEntry (key, value)

/-- A contract that is read back as it was written. -/
structure Restorable (contract : SmartContract) : Prop where
  contractId : bar ∉ contract.contractId
  creator : bar ∉ contract.creator
  code : bar ∉ contract.code
  state : ∀ (key : Str) value, contract.state[key]? = some value →
    bar ∉ key ∧ colon ∉ key ∧ value.Restorable

/-- The state that is read. -/
def roundedState (contract : SmartContract) : Std.TreeMap Str ContractValue :=
  putAll ∅ (contract.state.toList.map fun entry => (entry.1, entry.2.rounded))

theorem getElem?_roundedState (contract : SmartContract) (key : Str) :
    contract.roundedState[key]? = contract.state[key]?.map ContractValue.rounded := by
  have hdistinct : (contract.state.toList.map fun entry =>
      (entry.1, entry.2.rounded)).Pairwise fun a b => a.1 ≠ b.1 := by
    rw [List.pairwise_map]
    refine List.Pairwise.imp ?_ (Std.TreeMap.distinct_keys_toList (t := contract.state))
    intro a b hne heq
    exact hne (Std.LawfulEqOrd.compare_eq_iff_eq.mpr heq)
  apply Option.ext
  intro value
  rw [roundedState, getElem?_putAll_iff hdistinct, List.mem_map, Option.map_eq_some_iff]
  constructor
  · rintro ⟨⟨key', value'⟩, hmem, heq⟩
    cases heq
    exact ⟨value', Std.TreeMap.mem_toList_iff_getElem?_eq_some.mp hmem, rfl⟩
  · rintro ⟨value', hlookup, rfl⟩
    exact ⟨(key, value'), Std.TreeMap.mem_toList_iff_getElem?_eq_some.mpr hlookup, rfl⟩

/-- What is read from a clean contract. -/
theorem Clean.deserialize_serialize {contract : SmartContract} (h : contract.Clean) :
    deserialize contract.serialize =
      some { contract with
        state := contract.roundedState
        events := []
        bounded := Nat.zero_le _ } := by
  have hentries : ∀ entry ∈ contract.state.toList, CleanEntry entry := fun entry hmem =>
    h.state entry.1 entry.2 (Std.TreeMap.mem_toList_iff_getElem?_eq_some.mp hmem)
  have hfields : ∀ field ∈ contract.state.toList.map entryText, bar ∉ field := by
    intro field hmem
    obtain ⟨entry, hentry, rfl⟩ := List.mem_map.mp hmem
    exact bar_not_mem_entryText (hentries entry hentry)
  have hstate : readState ∅ (getlines bar (join bar (contract.state.toList.map entryText)).length
      (join bar (contract.state.toList.map entryText))) = some contract.roundedState := by
    rw [← readState_filter, filter_getlines_join hfields le_rfl, readState_filter,
      readState_entryText hentries]
    rfl
  simp only [deserialize, serialize, List.cons_append, List.nil_append,
    getline_join h.contractId, getline_join h.creator, getline_join h.code,
    getline_join (BankAccount.bar_not_mem_flagText _), getline_join (bar_not_mem_decimal _),
    stoull_decimal, hstate, BankAccount.flagText_eq_one]

/-- What is read is clean. -/
theorem clean_of_deserialize {data : Str} {contract : SmartContract}
    (h : deserialize data = some contract) : contract.Clean := by
  unfold deserialize at h
  simp only at h
  split at h
  · rename_i createdAt state _ hstate
    cases h
    refine ⟨not_mem_getline _, not_mem_getline _, not_mem_getline _, ?_⟩
    apply cleanEntry_of_readState (fun kv hkv => not_mem_of_mem_getlines hkv) ?_ hstate
    intro key value hlookup
    rw [Std.TreeMap.getElem?_emptyc] at hlookup
    cases hlookup
  · cases h

theorem SameButEvents.clean {a b : SmartContract} (h : SameButEvents a b) (ha : a.Clean) :
    b.Clean where
  contractId := h.contractId ▸ ha.contractId
  creator := h.creator ▸ ha.creator
  code := h.code ▸ ha.code
  state key value hlookup := ha.state key value ((h.state key).trans hlookup)

/-- Writing and reading a contract loses nothing but its events exactly when no string that is
written has a `'|'`, no key of the state has a `':'` and no number has more than six significant
digits. -/
theorem restores_iff (contract : SmartContract) : contract.Restores ↔ contract.Restorable := by
  constructor
  · rintro ⟨restored, hread, -, hsame⟩
    have hclean := hsame.clean (clean_of_deserialize hread)
    refine ⟨hclean.contractId, hclean.creator, hclean.code, fun key value hlookup => ?_⟩
    obtain ⟨hbar, hcolon, hvalue⟩ := hclean.state key value hlookup
    rw [hclean.deserialize_serialize] at hread
    have hstate := hsame.state key
    rw [← Option.some.inj hread, getElem?_roundedState, hlookup, Option.map_some,
      Option.some_inj] at hstate
    exact ⟨hbar, hcolon, (ContractValue.restorable_iff value).mpr ⟨hvalue, hstate⟩⟩
  · intro h
    have hclean : contract.Clean := by
      refine ⟨h.contractId, h.creator, h.code, fun key value hlookup => ?_⟩
      obtain ⟨hbar, hcolon, hvalue⟩ := h.state key value hlookup
      exact ⟨hbar, hcolon, ((ContractValue.restorable_iff value).mp hvalue).1⟩
    refine ⟨_, hclean.deserialize_serialize, rfl, rfl, rfl, rfl, rfl, rfl, fun key => ?_⟩
    show contract.roundedState[key]? = _
    rw [getElem?_roundedState]
    cases hlookup : contract.state[key]? with
    | none => rfl
    | some value =>
      obtain ⟨-, -, hvalue⟩ := h.state key value hlookup
      rw [Option.map_some, ((ContractValue.restorable_iff value).mp hvalue).2]

end SmartContract

end Blackstone.Bank
