import Blackstone.Bank.Sha1
import Blackstone.Library.Answers
import Blackstone.Library.RelationIndex

/-!
# The indexer

`indexer.cpp` without its mutex. The indices are nested maps in which removing a record clears away
what has become empty. What an indexer is for is a relation between index names, values and record
ids; it answers every sequence of requests as that relation does, and keeps no index and no value
that the relation has lost (`indexerAnswers_eq`).
-/

namespace Blackstone.Bank

open Answers OrderedMap RelationIndex Runs

/-- `Indexer`; a set of record ids is its elements. -/
structure Indexer where
  indices : Index Str Str Str

namespace Indexer

def create : Indexer := ⟨∅⟩

/-- `addToIndex`. -/
def addToIndex (indexer : Indexer) (indexName indexValue recordId : Str) : Indexer :=
  let valueMap := entryAt indexer.indices indexName
  ⟨indexer.indices.insert indexName
    (valueMap.insert indexValue (insert recordId (entryAt valueMap indexValue)))⟩

/-- The part of `removeFromIndex` that changes the values of the index. -/
def removeRecord (valueMap : Values Str Str) (indexValue recordId : Str) : Values Str Str :=
  match valueMap[indexValue]? with
  | none => valueMap
  | some records =>
    if records.erase recordId = ∅ then valueMap.erase indexValue
    else valueMap.insert indexValue (records.erase recordId)

/-- `removeFromIndex`. -/
def removeFromIndex (indexer : Indexer) (indexName indexValue recordId : Str) : Indexer :=
  match indexer.indices[indexName]? with
  | none => indexer
  | some valueMap =>
    let removed := removeRecord valueMap indexValue recordId
    if removed.isEmpty then ⟨indexer.indices.erase indexName⟩
    else ⟨indexer.indices.insert indexName removed⟩

/-- `queryIndex`. -/
def queryIndex (indexer : Indexer) (indexName indexValue : Str) : Finset Str :=
  match indexer.indices[indexName]? with
  | none => ∅
  | some valueMap => entryAt valueMap indexValue

/-- `value >= start && value <= end`. -/
def inRange (start stop value : Str) : Bool :=
  (compare start value).isLE && (compare value stop).isLE

/-- `queryRange`. -/
def queryRange (indexer : Indexer) (indexName start stop : Str) : Finset Str :=
  match indexer.indices[indexName]? with
  | none => ∅
  | some valueMap => collect valueMap (inRange start stop)

/-- `dropIndex`. -/
def dropIndex (indexer : Indexer) (indexName : Str) : Indexer :=
  ⟨indexer.indices.erase indexName⟩

/-- `clear`. -/
def clear (_indexer : Indexer) : Indexer := ⟨∅⟩

/-- `getIndexSize`. -/
def getIndexSize (indexer : Indexer) (indexName : Str) : ℕ :=
  match indexer.indices[indexName]? with
  | none => 0
  | some valueMap => count valueMap

end Indexer

/-! ## Requests -/

inductive IndexRequest where
  | addToIndex (indexName indexValue recordId : Str)
  | removeFromIndex (indexName indexValue recordId : Str)
  | queryIndex (indexName indexValue : Str)
  | queryRange (indexName start stop : Str)
  | dropIndex (indexName : Str)
  | clear
  | getIndexSize (indexName : Str)

inductive IndexAnswer where
  | done
  | records (ids : Finset Str)
  | size (n : ℕ)

/-- The indexer answers a request. -/
def indexerAnswer (indexer : Indexer) : IndexRequest → IndexAnswer × Indexer
  | .addToIndex indexName indexValue recordId =>
    (.done, indexer.addToIndex indexName indexValue recordId)
  | .removeFromIndex indexName indexValue recordId =>
    (.done, indexer.removeFromIndex indexName indexValue recordId)
  | .queryIndex indexName indexValue =>
    (.records (indexer.queryIndex indexName indexValue), indexer)
  | .queryRange indexName start stop =>
    (.records (indexer.queryRange indexName start stop), indexer)
  | .dropIndex indexName => (.done, indexer.dropIndex indexName)
  | .clear => (.done, indexer.clear)
  | .getIndexSize indexName => (.size (indexer.getIndexSize indexName), indexer)

/-! ## The relation -/

/-- The records that are related to a name and to a value that passes a test. -/
def related (rel : Finset (Str × Str × Str)) (name : Str) (p : Str → Bool) : Finset Str :=
  (rel.filter fun e => e.1 = name ∧ p e.2.1 = true).image fun e => e.2.2

/-- The relation answers a request. -/
def relationAnswer (rel : Finset (Str × Str × Str)) :
    IndexRequest → IndexAnswer × Finset (Str × Str × Str)
  | .addToIndex indexName indexValue recordId =>
    (.done, insert (indexName, indexValue, recordId) rel)
  | .removeFromIndex indexName indexValue recordId =>
    (.done, rel.erase (indexName, indexValue, recordId))
  | .queryIndex indexName indexValue =>
    (.records (related rel indexName (· = indexValue)), rel)
  | .queryRange indexName start stop =>
    (.records (related rel indexName (Indexer.inRange start stop)), rel)
  | .dropIndex indexName => (.done, rel.filter (·.1 ≠ indexName))
  | .clear => (.done, ∅)
  | .getIndexSize indexName => (.size (rel.filter (·.1 = indexName)).card, rel)

/-- The indexer holds the relation and nothing empty. -/
structure Holds (indexer : Indexer) (rel : Finset (Str × Str × Str)) : Prop where
  represents : Represents indexer.indices rel
  pruned : Pruned indexer.indices

section Requests

variable {indexer : Indexer} {rel : Finset (Str × Str × Str)}

theorem entryAt_removeRecord (valueMap : Values Str Str) (indexValue recordId value : Str) :
    entryAt (Indexer.removeRecord valueMap indexValue recordId) value =
      if indexValue = value then (entryAt valueMap value).erase recordId
      else entryAt valueMap value := by
  unfold Indexer.removeRecord
  cases hlookup : valueMap[indexValue]? with
  | none =>
    split_ifs with hvalue
    · rw [← hvalue, entryAt_of_none hlookup, Finset.erase_empty]
    · rfl
  | some records =>
    dsimp only
    split_ifs with hempty hvalue hvalue
    · rw [entryAt_erase, if_pos hvalue, ← hvalue, entryAt_of_some hlookup, hempty]
    · rw [entryAt_erase, if_neg hvalue]
    · rw [entryAt_insert, if_pos hvalue, ← hvalue, entryAt_of_some hlookup]
    · rw [entryAt_insert, if_neg hvalue]

theorem filled_removeRecord {valueMap : Values Str Str} (h : Filled valueMap)
    (indexValue recordId : Str) : Filled (Indexer.removeRecord valueMap indexValue recordId) := by
  unfold Indexer.removeRecord
  cases valueMap[indexValue]? with
  | none => exact h
  | some records =>
    dsimp only
    split_ifs with hempty
    · exact h.erase indexValue
    · exact h.insert (Finset.nonempty_iff_ne_empty.mpr hempty)

theorem Holds.addToIndex (h : Holds indexer rel) (name value id : Str) :
    Holds (indexer.addToIndex name value id) (insert (name, value, id) rel) where
  represents := by
    intro n v r
    simp only [Indexer.addToIndex, Finset.mem_insert, Prod.mk.injEq, h.represents n v r,
      entryAt_insert]
    by_cases hname : name = n
    · subst hname
      by_cases hvalue : value = v
      · subst hvalue
        simp
      · simp [entryAt_insert, hvalue, Ne.symm hvalue]
    · simp [hname, Ne.symm hname]
  pruned := by
    refine h.pruned.insert ?_ ((h.pruned.filled name).insert (Finset.insert_nonempty _ _))
    rw [Std.TreeMap.isEmpty_insert]

theorem Holds.removeFromIndex (h : Holds indexer rel) (name value id : Str) :
    Holds (indexer.removeFromIndex name value id) (rel.erase (name, value, id)) := by
  have hsame : ∀ n v r, (n, v, r) ∈ rel.erase (name, value, id) ↔
      r ∈ if name = n then entryAt
          (Indexer.removeRecord (entryAt indexer.indices n) value id) v
        else entryAt (entryAt indexer.indices n) v := by
    intro n v r
    rw [Finset.mem_erase, h.represents n v r, entryAt_removeRecord]
    by_cases hname : name = n
    · by_cases hvalue : value = v
      · simp [hname, hvalue]
      · simp [hname, hvalue, Ne.symm hvalue]
    · simp [hname, Ne.symm hname]
  unfold Indexer.removeFromIndex
  cases hlookup : indexer.indices[name]? with
  | none =>
    refine ⟨fun n v r => ?_, h.pruned⟩
    rw [hsame]
    split_ifs with hname
    · rw [← hname, entryAt_of_none hlookup]
      rfl
    · rfl
  | some valueMap =>
    have hfilled := filled_removeRecord (h.pruned name valueMap hlookup).2 value id
    dsimp only
    split_ifs with hempty
    · refine ⟨fun n v r => ?_, h.pruned.erase name⟩
      rw [hsame, entryAt_erase]
      split_ifs with hname
      · rw [← hname, entryAt_of_some hlookup]
        have hnone := hfilled.isEmpty_iff.not.mp (by simp [hempty])
        simp only [entryAt_empty, Finset.notMem_empty, iff_false]
        exact fun hr => hnone ⟨v, r, hr⟩
      · rfl
    · refine ⟨fun n v r => ?_, h.pruned.insert (by simpa using hempty) hfilled⟩
      rw [hsame, entryAt_insert]
      split_ifs with hname
      · rw [← hname, entryAt_of_some hlookup]
      · rfl

theorem Holds.dropIndex (h : Holds indexer rel) (name : Str) :
    Holds (indexer.dropIndex name) (rel.filter (·.1 ≠ name)) where
  represents := by
    intro n v r
    rw [Finset.mem_filter, h.represents n v r, Indexer.dropIndex, entryAt_erase]
    split_ifs with hname
    · simp [hname]
    · simp [Ne.symm hname]
  pruned := h.pruned.erase name

theorem mem_related_iff {name : Str} {p : Str → Bool} {r : Str} :
    r ∈ related rel name p ↔ ∃ v, p v = true ∧ (name, v, r) ∈ rel := by
  simp only [related, Finset.mem_image, Finset.mem_filter, Prod.exists]
  constructor
  · rintro ⟨n, v, r', ⟨hmem, rfl, hp⟩, rfl⟩
    exact ⟨v, hp, hmem⟩
  · rintro ⟨v, hp, hmem⟩
    exact ⟨name, v, r, ⟨hmem, rfl, hp⟩, rfl⟩

theorem Holds.queryIndex (h : Holds indexer rel) (name value : Str) :
    indexer.queryIndex name value = related rel name (· = value) := by
  ext r
  rw [mem_related_iff]
  simp only [h.represents name, decide_eq_true_eq, exists_eq_left, Indexer.queryIndex]
  cases hlookup : indexer.indices[name]? with
  | none => simp [hlookup]
  | some valueMap => simp [hlookup]

theorem Holds.queryRange (h : Holds indexer rel) (name start stop : Str) :
    indexer.queryRange name start stop = related rel name (Indexer.inRange start stop) := by
  ext r
  rw [mem_related_iff]
  simp only [h.represents name, Indexer.queryRange]
  cases hlookup : indexer.indices[name]? with
  | none => simp [hlookup]
  | some valueMap => simp [hlookup, mem_collect_iff]

theorem Holds.getIndexSize (h : Holds indexer rel) (name : Str) :
    indexer.getIndexSize name = (rel.filter (·.1 = name)).card := by
  have hinjective : ((rel.filter (·.1 = name)).image Prod.snd).card =
      (rel.filter (·.1 = name)).card := by
    refine Finset.card_image_of_injOn ?_
    rintro ⟨n, e⟩ hn ⟨n', e'⟩ hn' heq
    rw [Finset.mem_coe, Finset.mem_filter] at hn hn'
    exact Prod.ext (hn.2.trans hn'.2.symm) heq
  have hpairs : ∀ v r, (v, r) ∈ (rel.filter (·.1 = name)).image Prod.snd ↔
      r ∈ entryAt (entryAt indexer.indices name) v := by
    intro v r
    simp only [Finset.mem_image, Finset.mem_filter, Prod.exists, ← h.represents name v r]
    constructor
    · rintro ⟨n, v', r', ⟨hmem, rfl⟩, heq⟩
      rwa [← heq]
    · intro hmem
      exact ⟨name, v, r, ⟨hmem, rfl⟩, rfl⟩
  rw [← hinjective, ← count_eq_card hpairs, Indexer.getIndexSize]
  cases hlookup : indexer.indices[name]? with
  | none => rw [entryAt_of_none hlookup]; rfl
  | some valueMap => rw [entryAt_of_some hlookup]

/-- One request. -/
theorem Holds.answer (h : Holds indexer rel) (request : IndexRequest) :
    (indexerAnswer indexer request).1 = (relationAnswer rel request).1 ∧
      Holds (indexerAnswer indexer request).2 (relationAnswer rel request).2 := by
  cases request with
  | addToIndex name value id => exact ⟨rfl, h.addToIndex name value id⟩
  | removeFromIndex name value id => exact ⟨rfl, h.removeFromIndex name value id⟩
  | queryIndex name value => exact ⟨congrArg IndexAnswer.records (h.queryIndex name value), h⟩
  | queryRange name start stop =>
    exact ⟨congrArg IndexAnswer.records (h.queryRange name start stop), h⟩
  | dropIndex name => exact ⟨rfl, h.dropIndex name⟩
  | clear => exact ⟨rfl, represents_empty, pruned_empty⟩
  | getIndexSize name => exact ⟨congrArg IndexAnswer.size (h.getIndexSize name), h⟩

end Requests

/-- The indexer answers every sequence of requests as the relation, and then keeps exactly the
names and, under each name, the values that have a record. -/
theorem indexerAnswers_eq (requests : List IndexRequest) :
    answers indexerAnswer Indexer.create requests = answers relationAnswer ∅ requests ∧
      ∀ name, (name ∈ (after indexerAnswer Indexer.create requests).indices ↔
          ∃ value id, (name, value, id) ∈ after relationAnswer ∅ requests) ∧
        ∀ value, value ∈ entryAt (after indexerAnswer Indexer.create requests).indices name ↔
          ∃ id, (name, value, id) ∈ after relationAnswer ∅ requests := by
  have hcreate : Holds Indexer.create ∅ := ⟨represents_empty, pruned_empty⟩
  have hheld : Holds (after indexerAnswer Indexer.create requests)
      (after relationAnswer ∅ requests) :=
    related_of_simulation (P := fun _ _ => True) (fun _ _ request h _ => h.answer request) hcreate
      (along_true _ _)
  refine ⟨answers_eq_of_simulation' (fun _ _ request h => h.answer request) hcreate requests,
    fun name => ⟨hheld.represents.mem_iff hheld.pruned name, fun value => ?_⟩⟩
  rw [(hheld.pruned.filled name).mem_iff]
  exact exists_congr fun id => (hheld.represents name value id).symm

end Blackstone.Bank
