import Blackstone.Library.Runs
import Blackstone.TransactionApi.StreamSplit

/-!
# The store of the server

`encryptTransaction`, `decryptTransaction` and the deletion of a transaction in `server.js`. Each
waits at every call of the database, so that the calls of several requests come in any order. A
transaction is decrypted from its own document, and what counts is that the document was not
deleted after it was saved; the chunks are complete exactly when none was saved before a deletion
came to the chunks (`stored_iff`). A request that lists the transactions shows the id of one whose
chunks are still being saved.
-/

namespace Blackstone.TransactionApi.Server

open Runs

/-! ## The requests -/

/-- What a request does to the database, with the number of its calls that are done. -/
inductive Request where
  | encrypt (id : String) (iv : Vector UInt8 16) (encrypted : List UInt8) (hash : String)
    (calls : ℕ)
  | delete (id : String) (calls : ℕ)

/-- `Buffer.concat([iv, encrypted])`. -/
def combined (iv : Vector UInt8 16) (encrypted : List UInt8) : List UInt8 := iv.toList ++ encrypted

/-- The document that `encryptTransaction` saves first. -/
def document (id : String) (iv : Vector UInt8 16) (encrypted : List UInt8) (hash : String) :
    Transaction :=
  ⟨id, combined iv encrypted, split (combined iv encrypted) 1024, hash, "encrypted"⟩

/-- The documents of the chunks, in the order in which they are saved. -/
def pieces (id : String) (iv : Vector UInt8 16) (encrypted : List UInt8) : List Chunk :=
  (split (combined iv encrypted) 1024).mapIdx fun i data => ⟨id, i, data⟩

/-- The next call of a request. -/
def advance (db : Database) : Request → Database × Request
  | .encrypt id iv encrypted hash 0 =>
    ({ db with transactions := db.transactions ++ [document id iv encrypted hash] },
      .encrypt id iv encrypted hash 1)
  | .encrypt id iv encrypted hash (k + 1) =>
    match (pieces id iv encrypted)[k]? with
    | none => (db, .encrypt id iv encrypted hash (k + 1))
    | some piece =>
      ({ db with chunks := db.chunks ++ [piece] }, .encrypt id iv encrypted hash (k + 2))
  | .delete id 0 =>
    ({ db with transactions := db.transactions.eraseP fun t => decide (t.transactionId = id) },
      .delete id 1)
  | .delete id 1 =>
    ({ db with chunks := db.chunks.filter fun c => !decide (c.transactionId = id) }, .delete id 2)
  | .delete id calls => (db, .delete id calls)

/-- `decryptTransaction`. An exception of the decryption is an error of `decipher`. -/
def decryptTransaction {Key Data : Type}
    (decipher : Key → List UInt8 → List UInt8 → Except String Data) (environmentKey : Key)
    (db : Database) (id : String) (keyBuffer : Option Key) : Except String (Data × String) :=
  match db.findOne id with
  | none => .error "Transaction not found"
  | some t => do
    let decrypted ← decipher (keyBuffer.getD environmentKey) (t.encryptedData.take 16)
      (t.encryptedData.drop 16)
    return (decrypted, t.originalHash)

variable {n : ℕ}

/-- The database and what the requests have still to do. -/
structure Store (n : ℕ) where
  db : Database
  requests : Fin n → Request

/-- One request makes its next call. -/
def storeStep (s : Store n) (i : Fin n) : Store n :=
  let advanced := advance s.db (s.requests i)
  ⟨advanced.1, Function.update s.requests i advanced.2⟩

/-- The requests begin on an empty database. -/
def Store.start (requests : Fin n → Request) : Store n := ⟨⟨[], []⟩, requests⟩

/-! ## What belongs to an id -/

/-- A request is to store a transaction under the id. -/
def Request.Stores (id : String) : Request → Prop
  | .encrypt id' _ _ _ _ => id' = id
  | .delete _ _ => False

/-- The number of calls that are done. -/
def Request.calls : Request → ℕ
  | .encrypt _ _ _ _ calls => calls
  | .delete _ calls => calls

def transactionsOf (db : Database) (id : String) : List Transaction :=
  db.transactions.filter fun t => decide (t.transactionId = id)

def chunksOf (db : Database) (id : String) : List Chunk :=
  db.chunks.filter fun c => decide (c.transactionId = id)

section Advance

variable {db : Database} {id id' : String} {iv : Vector UInt8 16} {encrypted : List UInt8}
  {hash : String}

theorem transactionId_of_mem_pieces {piece : Chunk} (h : piece ∈ pieces id iv encrypted) :
    piece.transactionId = id := by
  obtain ⟨i, _, rfl⟩ := List.mem_mapIdx.mp h
  rfl

/-- The first element is deleted from those that are meant, and no other one. -/
theorem filter_eraseP {α : Type} (p : α → Bool) (xs : List α) :
    (xs.eraseP p).filter p = (xs.filter p).tail := by
  induction xs with
  | nil => rfl
  | cons x xs ih =>
    cases hx : p x with
    | true => simp [hx]
    | false => simp [hx, ih]

theorem filter_eraseP_of_disjoint {α : Type} {p q : α → Bool}
    (h : ∀ x, p x = true → q x = false) (xs : List α) : (xs.eraseP p).filter q = xs.filter q := by
  induction xs with
  | nil => rfl
  | cons x xs ih =>
    cases hx : p x with
    | true => simp [hx, h x hx]
    | false => simp [hx, ih, List.filter_cons]

theorem not_both {i i' : String} (hne : i' ≠ i) (name : String) :
    decide (name = i') = true → decide (name = i) = false := by
  intro h
  rw [of_decide_eq_true h]
  exact decide_eq_false hne

/-- The first deletion of a request. -/
theorem transactionsOf_delete (db : Database) (id id' : String) :
    transactionsOf (advance db (.delete id' 0)).1 id =
      if id' = id then (transactionsOf db id).tail else transactionsOf db id := by
  split_ifs with hid
  · subst hid
    exact filter_eraseP _ _
  · exact filter_eraseP_of_disjoint (fun t : Transaction => not_both hid t.transactionId) _

/-- The second deletion of a request. -/
theorem chunksOf_delete (db : Database) (id id' : String) :
    chunksOf (advance db (.delete id' 1)).1 id = if id' = id then [] else chunksOf db id := by
  simp only [chunksOf, advance, List.filter_filter]
  split_ifs with hid
  · subst hid
    simp
  · refine List.filter_congr fun c _ => ?_
    by_cases hc : c.transactionId = id
    · simp [hc, Ne.symm hid]
    · simp [hc]

theorem transactionsOf_save (db : Database) (id id' : String) (iv : Vector UInt8 16)
    (encrypted : List UInt8) (hash : String) :
    transactionsOf (advance db (.encrypt id' iv encrypted hash 0)).1 id =
      transactionsOf db id ++ if id' = id then [document id' iv encrypted hash] else [] := by
  simp only [transactionsOf, advance, List.filter_append]
  split_ifs with hid
  · simp [document, hid]
  · simp [document, hid]

/-- A request goes on with what it was to do. -/
theorem advance_encrypt (db : Database) (id : String) (iv : Vector UInt8 16)
    (encrypted : List UInt8) (hash : String) (calls : ℕ) :
    ∃ calls', (advance db (.encrypt id iv encrypted hash calls)).2 =
      .encrypt id iv encrypted hash calls' := by
  cases calls with
  | zero => exact ⟨1, rfl⟩
  | succ k =>
    rw [advance]
    cases (pieces id iv encrypted)[k]? with
    | none => exact ⟨k + 1, rfl⟩
    | some piece => exact ⟨k + 2, rfl⟩

theorem stores_advance (db : Database) (r : Request) (id : String) :
    (advance db r).2.Stores id ↔ r.Stores id := by
  cases r with
  | encrypt id' iv encrypted hash calls =>
    obtain ⟨calls', hnext⟩ := advance_encrypt db id' iv encrypted hash calls
    rw [hnext]
    rfl
  | delete id' calls =>
    match calls with
    | 0 | 1 | _ + 2 => rfl

/-- A request for another id. -/
theorem advance_of_not_stores (db : Database) {r : Request} {id : String} (h : ¬ r.Stores id)
    (hfirst : r ≠ .delete id 0) (hsecond : r ≠ .delete id 1) :
    transactionsOf (advance db r).1 id = transactionsOf db id ∧
      chunksOf (advance db r).1 id = chunksOf db id := by
  cases r with
  | encrypt id' iv encrypted hash calls =>
    have hid : ¬ id' = id := h
    cases calls with
    | zero => exact ⟨by rw [transactionsOf_save, if_neg hid, List.append_nil], rfl⟩
    | succ k =>
      rw [advance]
      cases hpiece : (pieces id' iv encrypted)[k]? with
      | none => exact ⟨rfl, rfl⟩
      | some piece =>
        have hother := transactionId_of_mem_pieces (List.mem_of_getElem? hpiece)
        exact ⟨rfl, by simp [chunksOf, hother, hid]⟩
  | delete id' calls =>
    match calls with
    | 0 =>
      have hid : ¬ id' = id := fun heq => hfirst (by rw [heq])
      exact ⟨by rw [transactionsOf_delete, if_neg hid], rfl⟩
    | 1 =>
      have hid : ¬ id' = id := fun heq => hsecond (by rw [heq])
      exact ⟨rfl, by rw [chunksOf_delete, if_neg hid]⟩
    | _ + 2 => exact ⟨rfl, rfl⟩

end Advance

/-! ## The chunks -/

section Pieces

variable {id : String} {iv : Vector UInt8 16} {encrypted : List UInt8}

theorem ne_nil_of_mem_split {chunkSize : ℕ} (hpos : 1 ≤ chunkSize) {data chunk : List UInt8}
    (h : chunk ∈ split data chunkSize) : chunk ≠ [] := by
  rw [split_eq hpos, List.mem_append] at h
  rcases h with hwhole | hrest
  · apply List.ne_nil_of_length_pos
    rw [Blocks.length_of_mem_wholeBlocks hwhole]
    exact hpos
  · split_ifs at hrest with hleft
    · rw [List.mem_singleton.mp hrest]
      exact List.ne_nil_of_length_pos hleft
    · cases hrest

theorem map_data_pieces (id : String) (iv : Vector UInt8 16) (encrypted : List UInt8) :
    (pieces id iv encrypted).map Chunk.data = split (combined iv encrypted) 1024 := by
  apply List.ext_getElem
  · rw [List.length_map, pieces, List.length_mapIdx]
  · intro k _ _
    simp [pieces]

theorem pieces_ne_nil (id : String) (iv : Vector UInt8 16) (encrypted : List UInt8) :
    pieces id iv encrypted ≠ [] := by
  intro hnil
  have hall := combine_split (by decide : 1 ≤ 1024) (combined iv encrypted)
  rw [← map_data_pieces id iv encrypted, hnil, combined] at hall
  have hlength := congrArg List.length hall
  simp [combine] at hlength
  omega

theorem pairwise_pieces :
    (pieces id iv encrypted).Pairwise fun c d => decide (c.index ≤ d.index) = true := by
  rw [List.pairwise_iff_getElem]
  intro k l hk hl hkl
  simp only [pieces, List.getElem_mapIdx, decide_eq_true_eq]
  exact hkl.le

/-- The chunks that are left are read in the order of their saves. -/
theorem findChunks_eq {db : Database}
    (hchunks : (chunksOf db id).Sublist (pieces id iv encrypted)) :
    db.findChunks id = chunksOf db id :=
  List.mergeSort_of_pairwise (pairwise_pieces.sublist hchunks)

/-- The chunks that are left make the data only when all are left. -/
theorem combine_eq_iff {left : List Chunk} (h : left.Sublist (pieces id iv encrypted)) :
    combine (left.map Chunk.data) = combined iv encrypted ↔ left = pieces id iv encrypted := by
  have hall := combine_split (by decide : 1 ≤ 1024) (combined iv encrypted)
  constructor
  · intro hleft
    have hsublist := h.map Chunk.data
    rw [map_data_pieces] at hsublist
    have hsplit := Blocks.eq_of_sublist_of_flatten hsublist
      (fun chunk hchunk => ne_nil_of_mem_split (by decide) hchunk) (hleft.trans hall.symm)
    rw [← map_data_pieces id iv encrypted] at hsplit
    have hlength := congrArg List.length hsplit
    rw [List.length_map, List.length_map] at hlength
    exact h.eq_of_length hlength
  · intro hleft
    rw [hleft, map_data_pieces, hall]

end Pieces

/-! ## One request among the others -/

section Own

variable (i : Fin n) (id : String) (iv : Vector UInt8 16) (encrypted : List UInt8) (hash : String)

/-- The request `i` stores its transaction, and no other request has its id. -/
structure Owns (s : Store n) : Prop where
  own : s.requests i = .encrypt id iv encrypted hash (s.requests i).calls
  others : ∀ j, j ≠ i → ¬ (s.requests j).Stores id
  documents : transactionsOf s.db id = [] ∨
    (transactionsOf s.db id = [document id iv encrypted hash] ∧ (s.requests i).calls ≠ 0)
  chunks : ∃ a ≤ (s.requests i).calls - 1,
    chunksOf s.db id = ((pieces id iv encrypted).take ((s.requests i).calls - 1)).drop a

/-- The document is there, or it is still to come. -/
def DocumentKept (s : Store n) : Prop :=
  (s.requests i).calls = 0 ∨ transactionsOf s.db id = [document id iv encrypted hash]

/-- All chunks that were saved are there. -/
def ChunksKept (s : Store n) : Prop :=
  chunksOf s.db id = (pieces id iv encrypted).take ((s.requests i).calls - 1)

/-- No document of the id is deleted that was saved. -/
def SparesDocument (s : Store n) (j : Fin n) : Prop :=
  ¬ (s.requests j = .delete id 0 ∧ 1 ≤ (s.requests i).calls)

/-- No chunks of the id are deleted that were saved. -/
def SparesChunks (s : Store n) (j : Fin n) : Prop :=
  ¬ (s.requests j = .delete id 1 ∧ 2 ≤ (s.requests i).calls)

end Own

section Step

variable {i : Fin n} {id : String} {iv : Vector UInt8 16} {encrypted : List UInt8} {hash : String}
  {s : Store n}

/-- What a call does to the documents and the chunks of the request `i`. -/
inductive Effect (i : Fin n) (id : String) (iv : Vector UInt8 16) (encrypted : List UInt8)
    (hash : String) (s : Store n) (j : Fin n) (s' : Store n) : Prop
  | saves (hj : j = i) (hbefore : (s.requests i).calls = 0) (hafter : (s'.requests i).calls = 1)
    (htransactions : transactionsOf s'.db id = [document id iv encrypted hash])
    (hchunks : chunksOf s'.db id = chunksOf s.db id)
  | savesChunk (hj : j = i) (k : ℕ) (piece : Chunk)
    (hpiece : (pieces id iv encrypted)[k]? = some piece)
    (hbefore : (s.requests i).calls = k + 1) (hafter : (s'.requests i).calls = k + 2)
    (htransactions : transactionsOf s'.db id = transactionsOf s.db id)
    (hchunks : chunksOf s'.db id = chunksOf s.db id ++ [piece])
  | deletes (hj : s.requests j = .delete id 0)
    (hcalls : (s'.requests i).calls = (s.requests i).calls)
    (htransactions : transactionsOf s'.db id = [])
    (hchunks : chunksOf s'.db id = chunksOf s.db id)
  | deletesChunks (hj : s.requests j = .delete id 1)
    (hcalls : (s'.requests i).calls = (s.requests i).calls)
    (htransactions : transactionsOf s'.db id = transactionsOf s.db id)
    (hchunks : chunksOf s'.db id = [])
  | other (hfirst : s.requests j ≠ .delete id 0) (hsecond : s.requests j ≠ .delete id 1)
    (hcalls : (s'.requests i).calls = (s.requests i).calls)
    (htransactions : transactionsOf s'.db id = transactionsOf s.db id)
    (hchunks : chunksOf s'.db id = chunksOf s.db id)

theorem Owns.effect (h : Owns i id iv encrypted hash s) (j : Fin n) :
    Effect i id iv encrypted hash s j (storeStep s j) := by
  by_cases hj : j = i
  · subst hj
    have hown := h.own
    simp only [storeStep]
    cases hcalls : (s.requests j).calls with
    | zero =>
      rw [hcalls] at hown
      have hnone : transactionsOf s.db id = [] := by
        rcases h.documents with hnone | ⟨-, hpositive⟩
        · exact hnone
        · exact absurd hcalls hpositive
      refine .saves rfl hcalls ?_ ?_ ?_
      · simp [hown, advance, Request.calls]
      · simp only [hown]
        rw [transactionsOf_save, hnone, if_pos rfl, List.nil_append]
      · simp [hown, advance, chunksOf]
    | succ k =>
      rw [hcalls] at hown
      cases hpiece : (pieces id iv encrypted)[k]? with
      | none =>
        refine .other ?_ ?_ ?_ ?_ ?_
        all_goals simp [hown, advance, hpiece, Request.calls]
      | some piece =>
        have hid := transactionId_of_mem_pieces (List.mem_of_getElem? hpiece)
        refine .savesChunk rfl k piece hpiece hcalls ?_ ?_ ?_
        · simp [hown, advance, hpiece, Request.calls]
        · simp [hown, advance, hpiece, transactionsOf]
        · simp [hown, advance, hpiece, chunksOf, hid]
  · have hcalls : ((storeStep s j).requests i).calls = (s.requests i).calls := by
      simp [storeStep, Function.update_of_ne (Ne.symm hj)]
    by_cases hfirst : s.requests j = .delete id 0
    · refine .deletes hfirst hcalls ?_ ?_
      · simp only [storeStep, hfirst, transactionsOf_delete, if_true]
        rcases h.documents with hnone | ⟨hone, -⟩
        · rw [hnone, List.tail_nil]
        · rw [hone, List.tail_cons]
      · simp [storeStep, hfirst, advance, chunksOf]
    · by_cases hsecond : s.requests j = .delete id 1
      · refine .deletesChunks hsecond hcalls ?_ ?_
        · simp [storeStep, hsecond, advance, transactionsOf]
        · simp only [storeStep, hsecond, chunksOf_delete, if_true]
      · obtain ⟨htransactions, hchunks⟩ :=
          advance_of_not_stores s.db (h.others j hj) hfirst hsecond
        exact .other hfirst hsecond hcalls htransactions hchunks

theorem Owns.storeStep (h : Owns i id iv encrypted hash s) (j : Fin n) :
    Owns i id iv encrypted hash (storeStep s j) where
  own := by
    by_cases hj : j = i
    · subst hj
      obtain ⟨calls, hnext⟩ :=
        advance_encrypt s.db id iv encrypted hash (s.requests j).calls
      simp only [Server.storeStep, Function.update_self]
      rw [h.own, hnext]
      rfl
    · simp only [Server.storeStep, Function.update_of_ne (Ne.symm hj)]
      exact h.own
  others := by
    intro k hk
    by_cases hj : k = j
    · subst hj
      simp only [Server.storeStep, Function.update_self, stores_advance]
      exact h.others k hk
    · simp only [Server.storeStep, Function.update_of_ne hj]
      exact h.others k hk
  documents := by
    cases h.effect j with
    | saves _ _ hafter htransactions _ => exact Or.inr ⟨htransactions, by rw [hafter]; decide⟩
    | savesChunk _ k _ _ hbefore hafter htransactions _ =>
      rw [htransactions, hafter]
      exact h.documents.imp_right fun hone => ⟨hone.1, Nat.succ_ne_zero _⟩
    | deletes _ _ htransactions _ => exact Or.inl htransactions
    | deletesChunks _ hcalls htransactions _ => rw [htransactions, hcalls]; exact h.documents
    | other _ _ hcalls htransactions _ => rw [htransactions, hcalls]; exact h.documents
  chunks := by
    obtain ⟨a, ha, hchunks⟩ := h.chunks
    cases h.effect j with
    | saves _ hbefore hafter _ hsame =>
      rw [hsame, hafter, hchunks, hbefore]
      exact ⟨0, Nat.zero_le _, by simp⟩
    | savesChunk _ k piece hpiece hbefore hafter _ happend =>
      rw [hbefore] at ha hchunks
      rw [happend, hafter, hchunks]
      refine ⟨a, Nat.le_succ_of_le ha, ?_⟩
      obtain ⟨hlt, -⟩ := List.getElem?_eq_some_iff.mp hpiece
      have hlength : a ≤ ((pieces id iv encrypted).take k).length := by
        rw [List.length_take, Nat.min_eq_left hlt.le]
        exact ha
      rw [show k + 2 - 1 = k + 1 from rfl, List.take_add_one, hpiece, Option.toList_some,
        List.drop_append_of_le_length hlength]
      rfl
    | deletes _ hcalls _ hsame => rw [hsame, hcalls]; exact ⟨a, ha, hchunks⟩
    | deletesChunks _ hcalls _ hnone =>
      rw [hnone, hcalls]
      refine ⟨_, le_refl _, ?_⟩
      rw [List.drop_eq_nil_of_le]
      exact List.length_take_le _ _
    | other _ _ hcalls _ hsame => rw [hsame, hcalls]; exact ⟨a, ha, hchunks⟩

theorem Owns.not_delete (h : Owns i id iv encrypted hash s) {j : Fin n} (hj : j = i) (calls : ℕ) :
    s.requests j ≠ .delete id calls := by
  rw [hj, h.own]
  exact fun heq => nomatch heq

/-- The document goes with a deletion behind its save, and never comes back. -/
theorem documentKept_storeStep (h : Owns i id iv encrypted hash s) (j : Fin n) :
    DocumentKept i id iv encrypted hash (storeStep s j) ↔
      DocumentKept i id iv encrypted hash s ∧ SparesDocument i id s j := by
  unfold DocumentKept SparesDocument
  cases h.effect j with
  | saves hj hbefore hafter htransactions _ => simp [hbefore, htransactions]
  | savesChunk hj k _ _ hbefore hafter htransactions _ =>
    simp [hbefore, hafter, htransactions, h.not_delete hj]
  | deletes hj hcalls htransactions _ =>
    rw [hcalls, htransactions]
    simp only [hj, true_and, Nat.not_le, Nat.lt_one_iff]
    constructor
    · rintro (hzero | hsome)
      · exact ⟨Or.inl hzero, hzero⟩
      · cases hsome
    · exact fun hkept => Or.inl hkept.2
  | deletesChunks hj hcalls htransactions _ => simp [hcalls, htransactions, hj]
  | other hfirst _ hcalls htransactions _ => simp [hcalls, htransactions, hfirst]

/-- Chunks go with a deletion behind the first save, and never come back. -/
theorem chunksKept_storeStep (h : Owns i id iv encrypted hash s) (j : Fin n) :
    ChunksKept i id iv encrypted (storeStep s j) ↔
      ChunksKept i id iv encrypted s ∧ SparesChunks i id s j := by
  unfold ChunksKept SparesChunks
  cases h.effect j with
  | saves hj hbefore hafter _ hchunks => simp [hbefore, hafter, hchunks]
  | savesChunk hj k piece hpiece hbefore hafter _ hchunks =>
    rw [hbefore, hafter, hchunks, and_iff_left (fun hboth => h.not_delete hj 1 hboth.1),
      show k + 2 - 1 = k + 1 from rfl, List.take_add_one, hpiece, Option.toList_some,
      List.append_left_inj]
    rfl
  | deletes hj hcalls _ hchunks => simp [hcalls, hchunks, hj]
  | deletesChunks hj hcalls _ hchunks =>
    obtain ⟨a, -, hsuffix⟩ := h.chunks
    rw [hcalls, hchunks, eq_comm, List.take_eq_nil_iff, or_iff_left (pieces_ne_nil id iv encrypted)]
    simp only [hj, true_and, Nat.not_le]
    constructor
    · intro hzero
      rw [hsuffix, hzero]
      exact ⟨by simp, by omega⟩
    · omega
  | other _ hsecond hcalls _ hchunks => simp [hcalls, hchunks, hsecond]

end Step

/-! ## What is read -/

section Read

variable {db : Database} {id : String} {iv : Vector UInt8 16} {encrypted : List UInt8}
  {hash : String}

theorem findOne_eq (db : Database) (id : String) :
    db.findOne id = (transactionsOf db id).head? := by
  rw [Database.findOne, transactionsOf, List.head?_filter]

/-- The document is decrypted with the iv before the encrypted data. -/
theorem decryptTransaction_document {Key Data : Type}
    (decipher : Key → List UInt8 → List UInt8 → Except String Data) (environmentKey : Key)
    (h : db.findOne id = some (document id iv encrypted hash)) :
    decryptTransaction decipher environmentKey db id none =
      (decipher environmentKey iv.toList encrypted).map fun decrypted => (decrypted, hash) := by
  have hlength : iv.toList.length = 16 := Vector.length_toList
  have hiv : (document id iv encrypted hash).encryptedData.take 16 = iv.toList :=
    List.take_left' hlength
  have hencrypted : (document id iv encrypted hash).encryptedData.drop 16 = encrypted :=
    List.drop_left' hlength
  simp only [decryptTransaction, h, hiv, hencrypted, Option.getD_none]
  cases decipher environmentKey iv.toList encrypted with
  | error message => rfl
  | ok decrypted => rfl

end Read

section Finished

variable {requests : Fin n → Request} {i : Fin n} {id : String} {iv : Vector UInt8 16}
  {encrypted : List UInt8} {hash : String} {s : Store n}

theorem documentKept_start (hrequest : requests i = .encrypt id iv encrypted hash 0) :
    DocumentKept i id iv encrypted hash (Store.start requests) := by
  left
  simp only [Store.start, hrequest, Request.calls]

theorem chunksKept_start (hrequest : requests i = .encrypt id iv encrypted hash 0) :
    ChunksKept i id iv encrypted (Store.start requests) := by
  simp [ChunksKept, Store.start, hrequest, Request.calls, chunksOf]

/-- The transaction is decrypted exactly when its document is saved and there. -/
theorem Owns.decrypt_iff (h : Owns i id iv encrypted hash s) {Key Data : Type}
    {decipher : Key → List UInt8 → List UInt8 → Except String Data} {environmentKey : Key}
    {text : Data} (hdecipher : decipher environmentKey iv.toList encrypted = .ok text) :
    decryptTransaction decipher environmentKey s.db id none = .ok (text, hash) ↔
      1 ≤ (s.requests i).calls ∧ DocumentKept i id iv encrypted hash s := by
  constructor
  · intro hdecrypt
    rcases h.documents with hnone | ⟨hone, hsaved⟩
    · have hfind : s.db.findOne id = none := by rw [findOne_eq, hnone, List.head?_nil]
      rw [decryptTransaction, hfind] at hdecrypt
      cases hdecrypt
    · exact ⟨Nat.pos_of_ne_zero hsaved, Or.inr hone⟩
  · rintro ⟨hsaved, hzero | hone⟩
    · omega
    · have hfind : s.db.findOne id = some (document id iv encrypted hash) := by
        rw [findOne_eq, hone, List.head?_cons]
      rw [decryptTransaction_document decipher environmentKey hfind, hdecipher]
      rfl

/-- The chunks make the encrypted data exactly when all are saved and none is missing. -/
theorem Owns.combine_iff (h : Owns i id iv encrypted hash s) :
    combine ((s.db.findChunks id).map Chunk.data) = combined iv encrypted ↔
      (pieces id iv encrypted).length < (s.requests i).calls ∧
        ChunksKept i id iv encrypted s := by
  obtain ⟨a, -, hleft⟩ := h.chunks
  have hsublist : (chunksOf s.db id).Sublist (pieces id iv encrypted) := by
    rw [hleft]
    exact (List.drop_sublist _ _).trans (List.take_sublist _ _)
  rw [findChunks_eq hsublist, combine_eq_iff hsublist, ChunksKept]
  constructor
  · intro hall
    have hpositive := List.length_pos_iff.mpr (pieces_ne_nil id iv encrypted)
    have hlength := congrArg List.length (hleft.symm.trans hall)
    rw [List.length_drop, List.length_take] at hlength
    refine ⟨by omega, ?_⟩
    rw [hall, List.take_of_length_le (by omega)]
  · rintro ⟨hdone, hkept⟩
    rw [hkept, List.take_of_length_le (by omega)]

end Finished

/-- At every moment of every run: the transaction is decrypted exactly when its document is saved
and was not deleted behind the save, and its chunks make the encrypted data exactly when all are
saved and no deletion came to the chunks behind the save of the first one. -/
theorem stored_iff {requests : Fin n → Request} {i : Fin n} {id : String} {iv : Vector UInt8 16}
    {encrypted : List UInt8} {hash : String}
    (hrequest : requests i = .encrypt id iv encrypted hash 0)
    (hothers : ∀ j, j ≠ i → ¬ (requests j).Stores id) (events : List (Fin n)) {s : Store n}
    (hs : s = run storeStep (Store.start requests) events) {Key Data : Type}
    {decipher : Key → List UInt8 → List UInt8 → Except String Data} {environmentKey : Key}
    {text : Data} (hdecipher : decipher environmentKey iv.toList encrypted = .ok text) :
    (decryptTransaction decipher environmentKey s.db id none = .ok (text, hash) ↔
        1 ≤ (s.requests i).calls ∧
          Along storeStep (SparesDocument i id) (Store.start requests) events) ∧
      (combine ((s.db.findChunks id).map Chunk.data) = combined iv encrypted ↔
        (pieces id iv encrypted).length < (s.requests i).calls ∧
          Along storeStep (SparesChunks i id) (Store.start requests) events) := by
  have hstart : Owns i id iv encrypted hash (Store.start requests) := by
    refine ⟨?_, hothers, Or.inl rfl, 0, Nat.zero_le _, ?_⟩
    · simp [Store.start, hrequest, Request.calls]
    · simp [Store.start, hrequest, Request.calls, chunksOf]
  have hkeep : ∀ (s : Store n) (j : Fin n), Owns i id iv encrypted hash s →
      Owns i id iv encrypted hash (storeStep s j) := fun s j h => h.storeStep j
  have howns : Owns i id iv encrypted hash s := by
    rw [hs]
    exact run_invariant (fun s j h _ => hkeep s j h) hstart (along_true _ _)
  have hdocument := run_iff_along_of_invariant (DocumentKept i id iv encrypted hash) hkeep
    (fun s j h => documentKept_storeStep h j) events hstart
  have hchunks := run_iff_along_of_invariant (ChunksKept i id iv encrypted) hkeep
    (fun s j h => chunksKept_storeStep h j) events hstart
  rw [← hs, and_iff_right (documentKept_start hrequest)] at hdocument
  rw [← hs, and_iff_right (chunksKept_start hrequest)] at hchunks
  rw [← hdocument, ← hchunks]
  exact ⟨howns.decrypt_iff hdecipher, howns.combine_iff⟩

/-- A transaction is deleted between the save of its document and the save of its only chunk. -/
def interrupted (i : Fin 2) : Request :=
  if i.val = 0 then .encrypt "a" (Vector.replicate 16 0) [7] "h" 0 else .delete "a" 0

/-- A cipher that changes nothing. -/
def plain (_ : Unit) (_ encrypted : List UInt8) : Except String (List UInt8) := .ok encrypted

/-- The document is gone and the chunk stays. -/
theorem stored_iff_interrupted :
    decryptTransaction plain ()
        (run storeStep (Store.start interrupted) [0, 1, 1, 0]).db "a" none ≠ .ok ([7], "h") ∧
      combine (((run storeStep (Store.start interrupted) [0, 1, 1, 0]).db.findChunks "a").map
        Chunk.data) = combined (Vector.replicate 16 0) [7] := by
  have hothers : ∀ j, j ≠ 0 → ¬ (interrupted j).Stores "a" := by
    intro j hj
    have hval : j.val ≠ 0 := fun hval => hj (Fin.ext hval)
    rw [interrupted, if_neg hval]
    exact id
  have hdecipher : plain () (Vector.replicate 16 0).toList [7] = .ok [7] := rfl
  obtain ⟨hdecrypt, hcombine⟩ := stored_iff (i := 0) rfl hothers [0, 1, 1, 0] rfl hdecipher
  rw [hcombine]
  refine ⟨fun hok => ?_, ?_, ?_⟩
  · obtain ⟨-, -, hspares, -⟩ := hdecrypt.mp hok
    exact hspares ⟨rfl, le_refl 1⟩
  · decide
  · simp [Along, SparesChunks, storeStep, advance, interrupted, Store.start, Request.calls]

end Blackstone.TransactionApi.Server
