import Blackstone.Library.Answers
import Blackstone.Library.FreeQueue
import Mathlib.Logic.Embedding.Basic

/-!
# Pools of buffers

`BufferPool` of `buffer_pool.cpp` without its mutex. A pointer is the address of a buffer's array;
the arrays that the allocator makes have different addresses, which they do when they are not
empty. The pool answers every sequence of calls as a queue of free addresses
(`bufferPoolAnswers_eq`). Whether two clients can come to share a buffer is decided by whether
somebody holds a buffer that is not in use (`bufferExclusive_iff`): `clear` makes it so, and so does
a release by a client that does not hold the buffer.
-/

namespace Blackstone.Bank

open Answers FreeQueue Runs

/-- `BufferPool::Buffer`. -/
structure Buffer where
  address : ℕ
  data : List UInt8
  inUse : Bool

structure BufferPool where
  bufferSize : ℕ
  maxBuffers : ℕ
  buffers : List Buffer
  available : List ℕ

namespace BufferPool

/-- The constructor, with the addresses that the allocator gives to the arrays. -/
def create (bufferSizeBytes maxBufferCount : ℕ) (addresses : ℕ ↪ ℕ) : BufferPool where
  bufferSize := bufferSizeBytes
  maxBuffers := maxBufferCount
  buffers := (List.range maxBufferCount).map fun i =>
    ⟨addresses i, List.replicate bufferSizeBytes 0, false⟩
  available := List.range maxBufferCount

/-- `buffers[i].inUse = flag`. -/
def setInUse (pool : BufferPool) (i : ℕ) (flag : Bool) : BufferPool :=
  { pool with buffers := pool.buffers.modify i fun b => { b with inUse := flag } }

/-- `acquire`; `nullptr` is `none`. -/
def acquire (pool : BufferPool) : Option ℕ × BufferPool :=
  match pool.available with
  | [] => (none, pool)
  | idx :: rest =>
    (pool.buffers[idx]?.map Buffer.address, { pool.setInUse idx true with available := rest })

/-- `release`. -/
def release (pool : BufferPool) (ptr : ℕ) : BufferPool :=
  match pool.buffers.findIdx? fun b => b.inUse && b.address == ptr with
  | none => pool
  | some i => { pool.setInUse i false with available := pool.available ++ [i] }

/-- `getAvailableCount`. -/
def getAvailableCount (pool : BufferPool) : ℕ := pool.available.length

/-- `getUsedCount`. -/
def getUsedCount (pool : BufferPool) : ℕ := pool.buffers.countP Buffer.inUse

/-- `resize`; the new arrays get new addresses. -/
def resize (_pool : BufferPool) (newBufferSize newMaxBuffers : ℕ) (addresses : ℕ ↪ ℕ) :
    BufferPool :=
  create newBufferSize newMaxBuffers addresses

/-- `clear`. -/
def clear (pool : BufferPool) : BufferPool :=
  { pool with
    buffers := pool.buffers.map fun b =>
      { b with inUse := false, data := List.replicate b.data.length 0 }
    available := List.range pool.buffers.length }

/-- The addresses of all buffers. -/
def addresses (pool : BufferPool) : List ℕ := pool.buffers.map Buffer.address

/-- The addresses in the queue, and those of the buffers in use. -/
def toPool (pool : BufferPool) : Pool ℕ where
  all := pool.addresses
  free := pool.available.filterMap (pool.addresses[·]?)
  used := ((pool.buffers.filter Buffer.inUse).map Buffer.address).toFinset

/-- The queue has the indices of the buffers that are not in use. -/
structure Consistent (pool : BufferPool) : Prop where
  addresses : pool.addresses.Nodup
  nodup : pool.available.Nodup
  available : ∀ i, i ∈ pool.available ↔ ∃ b, pool.buffers[i]? = some b ∧ b.inUse = false

theorem filterMap_range (l : List ℕ) : (List.range l.length).filterMap (l[·]?) = l := by
  induction l with
  | nil => rfl
  | cons a l ih =>
    rw [List.length_cons, List.range_succ_eq_map, List.filterMap_cons_some List.getElem?_cons_zero,
      List.filterMap_map]
    exact congrArg (List.cons a) ih

section Lookup

variable {pool : BufferPool}

@[simp] theorem addresses_setInUse (pool : BufferPool) (i : ℕ) (flag : Bool) :
    (pool.setInUse i flag).addresses = pool.addresses := by
  apply List.ext_getElem?
  intro j
  simp only [BufferPool.addresses, setInUse, List.getElem?_map, List.getElem?_modify]
  split_ifs
  · cases pool.buffers[j]? <;> rfl
  · cases pool.buffers[j]? <;> rfl

theorem getElem?_setInUse (pool : BufferPool) (i j : ℕ) (flag : Bool) :
    (pool.setInUse i flag).buffers[j]? =
      if i = j then pool.buffers[j]?.map fun b => { b with inUse := flag }
      else pool.buffers[j]? := by
  rw [setInUse, List.getElem?_modify]
  split_ifs
  · rfl
  · cases pool.buffers[j]? <;> rfl

theorem getElem?_addresses {i : ℕ} {a : ℕ} :
    pool.addresses[i]? = some a ↔ ∃ b, pool.buffers[i]? = some b ∧ b.address = a := by
  simp [BufferPool.addresses]

theorem mem_used_iff {a : ℕ} :
    a ∈ pool.toPool.used ↔ ∃ (i : ℕ) (b : Buffer), pool.buffers[i]? = some b ∧
      b.inUse = true ∧ b.address = a := by
  simp only [toPool, List.mem_toFinset, List.mem_map, List.mem_filter]
  constructor
  · rintro ⟨b, ⟨hb, huse⟩, rfl⟩
    obtain ⟨i, hi⟩ := List.mem_iff_getElem?.mp hb
    exact ⟨i, b, hi, huse, rfl⟩
  · rintro ⟨i, b, hb, huse, rfl⟩
    exact ⟨b, ⟨List.mem_of_getElem? hb, huse⟩, rfl⟩

/-- An address has one buffer. -/
theorem Consistent.index_unique (h : pool.Consistent) {i j : ℕ} {b b' : Buffer}
    (hb : pool.buffers[i]? = some b) (hb' : pool.buffers[j]? = some b')
    (haddress : b.address = b'.address) : i = j := by
  have hi := getElem?_addresses.mpr ⟨b, hb, rfl⟩
  have hj := getElem?_addresses.mpr ⟨b', hb', haddress.symm⟩
  obtain ⟨hlt, -⟩ := List.getElem?_eq_some_iff.mp hi
  exact (List.getElem?_inj hlt h.addresses).mp (hi.trans hj.symm)

theorem Consistent.mem_free_iff (h : pool.Consistent) {a : ℕ} :
    a ∈ pool.toPool.free ↔ ∃ b ∈ pool.buffers, b.address = a ∧ b.inUse = false := by
  simp only [toPool, List.mem_filterMap, h.available, getElem?_addresses]
  constructor
  · rintro ⟨i, ⟨b, hb, hfree⟩, b', hb', rfl⟩
    rw [hb, Option.some.injEq] at hb'
    exact ⟨b, List.mem_of_getElem? hb, by rw [hb'], hfree⟩
  · rintro ⟨b, hb, rfl, hfree⟩
    obtain ⟨i, hi⟩ := List.mem_iff_getElem?.mp hb
    exact ⟨i, ⟨b, hi, hfree⟩, b, hi, rfl⟩

theorem used_setInUse_true {i : ℕ} {b : Buffer} (hb : pool.buffers[i]? = some b) :
    (pool.setInUse i true).toPool.used = insert b.address pool.toPool.used := by
  ext a
  simp only [Finset.mem_insert, mem_used_iff, getElem?_setInUse]
  constructor
  · rintro ⟨j, b', hb', huse, rfl⟩
    split_ifs at hb' with hj
    · subst hj
      rw [hb, Option.map_some, Option.some.injEq] at hb'
      exact Or.inl (by rw [← hb'])
    · exact Or.inr ⟨j, b', hb', huse, rfl⟩
  · rintro (rfl | ⟨j, b', hb', huse, rfl⟩)
    · exact ⟨i, { b with inUse := true }, by rw [if_pos rfl, hb]; rfl, rfl, rfl⟩
    · by_cases hj : i = j
      · subst hj
        exact ⟨i, { b' with inUse := true }, by rw [if_pos rfl, hb']; rfl, rfl, rfl⟩
      · exact ⟨j, b', by rw [if_neg hj, hb'], huse, rfl⟩

theorem Consistent.used_setInUse_false (h : pool.Consistent) {i : ℕ} {b : Buffer}
    (hb : pool.buffers[i]? = some b) :
    (pool.setInUse i false).toPool.used = pool.toPool.used.erase b.address := by
  ext a
  simp only [Finset.mem_erase, mem_used_iff, getElem?_setInUse]
  constructor
  · rintro ⟨j, b', hb', huse, rfl⟩
    split_ifs at hb' with hj
    · subst hj
      rw [hb, Option.map_some, Option.some.injEq] at hb'
      rw [← hb'] at huse
      cases huse
    · exact ⟨fun haddress => hj (h.index_unique hb' hb haddress).symm, j, b', hb', huse, rfl⟩
  · rintro ⟨hne, j, b', hb', huse, rfl⟩
    have hj : i ≠ j := by
      rintro rfl
      rw [hb, Option.some.injEq] at hb'
      exact hne (by rw [hb'])
    exact ⟨j, b', by rw [if_neg hj, hb'], huse, rfl⟩

end Lookup

/-! ## One call -/

section Calls

variable {pool : BufferPool}

/-- `acquire` hands out the front of the queue. -/
theorem Consistent.toPool_acquire (h : pool.Consistent) :
    pool.acquire.1 = pool.toPool.acquire.1 ∧ pool.acquire.2.toPool = pool.toPool.acquire.2 := by
  unfold BufferPool.acquire Pool.acquire
  cases havailable : pool.available with
  | nil => simp [toPool, havailable]
  | cons idx rest =>
    obtain ⟨b, hb, -⟩ := (h.available idx).mp (by rw [havailable]; exact List.mem_cons_self)
    have haddress := getElem?_addresses.mpr ⟨b, hb, rfl⟩
    have hfree : pool.toPool.free = b.address :: rest.filterMap (pool.addresses[·]?) := by
      rw [toPool, havailable, List.filterMap_cons_some haddress]
    rw [hfree]
    refine ⟨congrArg (Option.map Buffer.address) hb, Pool.ext ?_ ?_ ?_⟩
    · exact addresses_setInUse pool idx true
    · exact congrArg (fun all : List ℕ => rest.filterMap (all[·]?))
        (addresses_setInUse pool idx true)
    · exact used_setInUse_true hb

theorem Consistent.acquire (h : pool.Consistent) : pool.acquire.2.Consistent := by
  unfold BufferPool.acquire
  cases havailable : pool.available with
  | nil => exact h
  | cons idx rest =>
    obtain ⟨hnew, hrest⟩ := List.nodup_cons.mp (havailable ▸ h.nodup)
    refine ⟨?_, hrest, fun i => ?_⟩
    · exact (addresses_setInUse pool idx true).symm ▸ h.addresses
    · have hbefore := h.available i
      rw [havailable, List.mem_cons] at hbefore
      simp only [getElem?_setInUse]
      by_cases hi : idx = i
      · subst hi
        simp [hnew]
      · rw [if_neg hi, ← hbefore, or_iff_right (Ne.symm hi)]

/-- What `release` finds. -/
theorem release_cases (pool : BufferPool) (ptr : ℕ) :
    (ptr ∉ pool.toPool.used ∧ pool.release ptr = pool) ∨
      ∃ i b, pool.buffers[i]? = some b ∧ b.inUse = true ∧ b.address = ptr ∧
        pool.release ptr = { pool.setInUse i false with available := pool.available ++ [i] } := by
  unfold BufferPool.release
  cases hfind : pool.buffers.findIdx? fun b => b.inUse && b.address == ptr with
  | none =>
    refine Or.inl ⟨fun hused => ?_, rfl⟩
    obtain ⟨i, b, hb, huse, haddress⟩ := mem_used_iff.mp hused
    have hnot := List.findIdx?_eq_none_iff.mp hfind b (List.mem_of_getElem? hb)
    simp [huse, haddress] at hnot
  | some i =>
    obtain ⟨hlt, htest, -⟩ := List.findIdx?_eq_some_iff_getElem.mp hfind
    simp only [Bool.and_eq_true, beq_iff_eq] at htest
    exact Or.inr ⟨i, _, List.getElem?_eq_getElem hlt, htest.1, htest.2, rfl⟩

/-- `release` puts the address at the end of the queue. -/
theorem Consistent.toPool_release (h : pool.Consistent) (ptr : ℕ) :
    (pool.release ptr).toPool = pool.toPool.release ptr := by
  unfold Pool.release
  rcases release_cases pool ptr with ⟨hnot, hsame⟩ | ⟨i, b, hb, huse, rfl, hrelease⟩
  · rw [if_neg hnot, hsame]
  · have haddress := getElem?_addresses.mpr ⟨b, hb, rfl⟩
    rw [if_pos (mem_used_iff.mpr ⟨i, b, hb, huse, rfl⟩), hrelease]
    refine Pool.ext ?_ ?_ ?_
    · exact addresses_setInUse pool i false
    · have hfree : (pool.available ++ [i]).filterMap ((pool.setInUse i false).addresses[·]?) =
          pool.available.filterMap (pool.addresses[·]?) ++ [b.address] := by
        rw [addresses_setInUse, List.filterMap_append, List.filterMap_cons_some haddress,
          List.filterMap_nil]
      exact hfree
    · exact h.used_setInUse_false hb

theorem Consistent.release (h : pool.Consistent) (ptr : ℕ) : (pool.release ptr).Consistent := by
  rcases release_cases pool ptr with ⟨-, hsame⟩ | ⟨i, b, hb, huse, -, hrelease⟩
  · rwa [hsame]
  · have hnew : i ∉ pool.available := by
      rw [h.available]
      rintro ⟨b', hb', hfree⟩
      rw [hb, Option.some.injEq] at hb'
      rw [hb', hfree] at huse
      cases huse
    rw [hrelease]
    refine ⟨?_, ?_, fun j => ?_⟩
    · exact (addresses_setInUse pool i false).symm ▸ h.addresses
    · exact List.nodup_append.mpr ⟨h.nodup, List.nodup_singleton i, by
        rintro j hj k hk rfl
        exact hnew (List.mem_singleton.mp hk ▸ hj)⟩
    · simp only [getElem?_setInUse, List.mem_append, List.mem_singleton, h.available j]
      by_cases hj : i = j
      · subst hj
        simp [hb]
      · simp [hj, Ne.symm hj]

/-- A pool in which nothing is in use and every index is in the queue. -/
theorem fresh {pool : BufferPool} (haddresses : pool.addresses.Nodup)
    (hbuffers : ∀ b ∈ pool.buffers, b.inUse = false)
    (havailable : pool.available = List.range pool.buffers.length) :
    pool.Consistent ∧ pool.toPool = Pool.reset pool.addresses := by
  constructor
  · refine ⟨haddresses, havailable ▸ List.nodup_range, fun i => ?_⟩
    rw [havailable, List.mem_range]
    constructor
    · intro hi
      exact ⟨_, List.getElem?_eq_getElem hi, hbuffers _ (List.getElem_mem hi)⟩
    · rintro ⟨b, hb, -⟩
      exact (List.getElem?_eq_some_iff.mp hb).1
  · refine Pool.ext rfl ?_ ?_
    · have hlength : pool.buffers.length = pool.addresses.length := by
        rw [BufferPool.addresses, List.length_map]
      rw [toPool, havailable, hlength]
      exact filterMap_range pool.addresses
    · ext a
      simp only [mem_used_iff, Pool.reset, Finset.notMem_empty, iff_false]
      rintro ⟨i, b, hb, huse, -⟩
      rw [hbuffers b (List.mem_of_getElem? hb)] at huse
      cases huse

theorem fresh_create (bufferSize maxBuffers : ℕ) (addresses : ℕ ↪ ℕ) :
    (create bufferSize maxBuffers addresses).Consistent ∧
      (create bufferSize maxBuffers addresses).toPool =
        Pool.reset ((List.range maxBuffers).map addresses) := by
  have haddresses : (create bufferSize maxBuffers addresses).addresses =
      (List.range maxBuffers).map addresses := by
    simp [create, BufferPool.addresses]
  rw [← haddresses]
  refine fresh ?_ ?_ ?_
  · rw [haddresses]
    exact List.nodup_range.map addresses.injective
  · simp [create]
  · simp [create]

theorem Consistent.fresh_clear (h : pool.Consistent) :
    pool.clear.Consistent ∧ pool.clear.toPool = Pool.reset pool.toPool.all := by
  have haddresses : pool.clear.addresses = pool.addresses := by
    simp [clear, BufferPool.addresses]
  have hfresh := fresh (haddresses.symm ▸ h.addresses) (by simp [clear]) (by simp [clear])
  rwa [haddresses] at hfresh

end Calls

end BufferPool

/-! ## All calls -/

inductive BufferRequest where
  | acquire
  | release (ptr : ℕ)
  | getAvailableCount
  | getUsedCount
  | resize (newBufferSize newMaxBuffers : ℕ) (addresses : ℕ ↪ ℕ)
  | clear

inductive BufferAnswer where
  | done
  | pointer (ptr : Option ℕ)
  | count (n : ℕ)

/-- The pool answers a request. -/
def bufferPoolAnswer (pool : BufferPool) : BufferRequest → BufferAnswer × BufferPool
  | .acquire => (.pointer pool.acquire.1, pool.acquire.2)
  | .release ptr => (.done, pool.release ptr)
  | .getAvailableCount => (.count pool.getAvailableCount, pool)
  | .getUsedCount => (.count pool.getUsedCount, pool)
  | .resize newBufferSize newMaxBuffers addresses =>
    (.done, pool.resize newBufferSize newMaxBuffers addresses)
  | .clear => (.done, pool.clear)

/-- The queue answers a request. -/
def freeQueueAnswer (queue : Pool ℕ) : BufferRequest → BufferAnswer × Pool ℕ
  | .acquire => (.pointer queue.acquire.1, queue.acquire.2)
  | .release ptr => (.done, queue.release ptr)
  | .getAvailableCount => (.count queue.free.length, queue)
  | .getUsedCount => (.count queue.used.card, queue)
  | .resize _ newMaxBuffers addresses =>
    (.done, Pool.reset ((List.range newMaxBuffers).map addresses))
  | .clear => (.done, Pool.reset queue.all)

/-- The queue is the one of the pool. -/
structure Queued (pool : BufferPool) (queue : Pool ℕ) : Prop where
  consistent : pool.Consistent
  toPool : pool.toPool = queue
  sound : queue.Sound

section Requests

open BufferPool

variable {pool : BufferPool} {queue : Pool ℕ}

theorem queued_create (bufferSize maxBuffers : ℕ) (addresses : ℕ ↪ ℕ) :
    Queued (create bufferSize maxBuffers addresses)
      (Pool.reset ((List.range maxBuffers).map addresses)) where
  consistent := (fresh_create bufferSize maxBuffers addresses).1
  toPool := (fresh_create bufferSize maxBuffers addresses).2
  sound := Pool.sound_reset (List.nodup_range.map addresses.injective)

theorem Queued.acquire (h : Queued pool queue) : Queued pool.acquire.2 queue.acquire.2 where
  consistent := h.consistent.acquire
  toPool := h.toPool ▸ h.consistent.toPool_acquire.2
  sound := h.sound.acquire

theorem Queued.release (h : Queued pool queue) (ptr : ℕ) :
    Queued (pool.release ptr) (queue.release ptr) where
  consistent := h.consistent.release ptr
  toPool := h.toPool ▸ h.consistent.toPool_release ptr
  sound := h.sound.release ptr

theorem Queued.clear (h : Queued pool queue) : Queued pool.clear (Pool.reset queue.all) where
  consistent := h.consistent.fresh_clear.1
  toPool := h.toPool ▸ h.consistent.fresh_clear.2
  sound := Pool.sound_reset (h.toPool ▸ h.consistent.addresses)

theorem Queued.getAvailableCount (h : Queued pool queue) :
    pool.getAvailableCount = queue.free.length := by
  have hfree : queue.free = pool.available.filterMap (pool.addresses[·]?) := by
    rw [← h.toPool]
    rfl
  rw [hfree, BufferPool.getAvailableCount, List.length_filterMap_eq_countP,
    List.countP_eq_length.mpr]
  intro i hi
  obtain ⟨b, hb, -⟩ := (h.consistent.available i).mp hi
  rw [getElem?_addresses.mpr ⟨b, hb, rfl⟩]
  rfl

theorem Queued.getUsedCount (h : Queued pool queue) : pool.getUsedCount = queue.used.card := by
  have hnodup : ((pool.buffers.filter Buffer.inUse).map Buffer.address).Nodup :=
    h.consistent.addresses.sublist (List.filter_sublist.map _)
  have hused : queue.used = ((pool.buffers.filter Buffer.inUse).map Buffer.address).toFinset := by
    rw [← h.toPool]
    rfl
  rw [hused, List.toFinset_card_of_nodup hnodup, List.length_map, ← List.countP_eq_length_filter,
    BufferPool.getUsedCount]

/-- One request. -/
theorem Queued.answer (h : Queued pool queue) (request : BufferRequest) :
    (bufferPoolAnswer pool request).1 = (freeQueueAnswer queue request).1 ∧
      Queued (bufferPoolAnswer pool request).2 (freeQueueAnswer queue request).2 := by
  cases request with
  | acquire =>
    refine ⟨congrArg BufferAnswer.pointer ?_, h.acquire⟩
    rw [h.consistent.toPool_acquire.1, h.toPool]
  | release ptr => exact ⟨rfl, h.release ptr⟩
  | getAvailableCount => exact ⟨congrArg BufferAnswer.count h.getAvailableCount, h⟩
  | getUsedCount => exact ⟨congrArg BufferAnswer.count h.getUsedCount, h⟩
  | resize newBufferSize newMaxBuffers addresses =>
    exact ⟨rfl, queued_create newBufferSize newMaxBuffers addresses⟩
  | clear => exact ⟨rfl, h.clear⟩

end Requests

/-- The pool answers every sequence of requests as a queue of free addresses: the buffer that has
been free for the longest time comes first, and releasing what is not in use changes nothing. -/
theorem bufferPoolAnswers_eq (bufferSize maxBuffers : ℕ) (addresses : ℕ ↪ ℕ)
    (requests : List BufferRequest) :
    answers bufferPoolAnswer (BufferPool.create bufferSize maxBuffers addresses) requests =
      answers freeQueueAnswer (Pool.reset ((List.range maxBuffers).map addresses)) requests :=
  answers_eq_of_simulation' (fun _ _ request h => h.answer request)
    (queued_create bufferSize maxBuffers addresses) requests

/-! ## Clients -/

variable {C : Type} [DecidableEq C]

/-- A pool, and which client has got which pointer and has not released it. -/
structure Lending (C : Type) where
  pool : BufferPool
  held : List (C × ℕ)

inductive LendingEvent (C : Type) where
  | acquire (c : C)
  | release (c : C) (ptr : ℕ)
  | resize (newBufferSize newMaxBuffers : ℕ) (addresses : ℕ ↪ ℕ)
  | clear

def lendingStep (s : Lending C) : LendingEvent C → Lending C
  | .acquire c => ⟨s.pool.acquire.2, (s.pool.acquire.1.map (Prod.mk c)).toList ++ s.held⟩
  | .release c ptr => ⟨s.pool.release ptr, s.held.erase (c, ptr)⟩
  | .resize newBufferSize newMaxBuffers addresses =>
    ⟨s.pool.resize newBufferSize newMaxBuffers addresses, s.held⟩
  | .clear => ⟨s.pool.clear, s.held⟩

/-- The clients release what they hold, and while they hold something the pool is neither resized
nor cleared. -/
def CarefulCall (s : Lending C) : LendingEvent C → Prop
  | .acquire _ => True
  | .release c ptr => (c, ptr) ∈ s.held
  | .resize _ _ _ => s.held = []
  | .clear => s.held = []

/-- What an event is for the queue. -/
def LendingEvent.move (pool : BufferPool) : LendingEvent C → Move ℕ C
  | .acquire c => .acquire c
  | .release c ptr => .release c ptr
  | .resize _ newMaxBuffers addresses => .reset ((List.range newMaxBuffers).map addresses)
  | .clear => .reset pool.addresses

/-- The queue and what is held. -/
def Lending.toLent (s : Lending C) : Lent ℕ C := ⟨s.pool.toPool, s.held⟩

/-- The queue of the pool is in order. -/
def Lending.Ordered (s : Lending C) : Prop := Queued s.pool s.pool.toPool

section Lending

variable {s : Lending C}

theorem toLent_lendingStep (h : s.Ordered) (e : LendingEvent C) :
    (lendingStep s e).toLent = lentStep s.toLent (e.move s.pool) := by
  obtain ⟨hconsistent, -, -⟩ := h
  cases e with
  | acquire c =>
    obtain ⟨hanswer, hpool⟩ := hconsistent.toPool_acquire
    simp only [Lending.toLent, lendingStep, lentStep, LendingEvent.move, hanswer, hpool]
  | release c ptr =>
    simp only [Lending.toLent, lendingStep, lentStep, LendingEvent.move,
      hconsistent.toPool_release]
  | resize newBufferSize newMaxBuffers addresses =>
    simp only [Lending.toLent, lendingStep, lentStep, LendingEvent.move, BufferPool.resize,
      (BufferPool.fresh_create newBufferSize newMaxBuffers addresses).2]
  | clear =>
    simp only [Lending.toLent, lendingStep, lentStep, LendingEvent.move,
      hconsistent.fresh_clear.2]
    rfl

theorem Lending.Ordered.lendingStep (h : s.Ordered) (e : LendingEvent C) :
    (lendingStep s e).Ordered := by
  have hqueued : ∀ {pool : BufferPool} {queue : Pool ℕ}, Queued pool queue →
      Queued pool pool.toPool := by
    rintro pool queue ⟨hconsistent, rfl, hsound⟩
    exact ⟨hconsistent, rfl, hsound⟩
  cases e with
  | acquire c => exact hqueued (Queued.acquire h)
  | release c ptr => exact hqueued (Queued.release h ptr)
  | resize newBufferSize newMaxBuffers addresses =>
    exact hqueued (queued_create newBufferSize newMaxBuffers addresses)
  | clear => exact hqueued (Queued.clear h)

omit [DecidableEq C] in
theorem unshared_iff (h : s.Ordered) :
    Unshared s.toLent ↔ Exclusive s.held ∧
      ∀ e ∈ s.held, ∀ b ∈ s.pool.buffers, b.address = e.2 → b.inUse = true := by
  have hguarded : ∀ a, a ∉ s.pool.toPool.free ↔
      ∀ b ∈ s.pool.buffers, b.address = a → b.inUse = true := by
    intro a
    rw [h.consistent.mem_free_iff]
    simp
  constructor
  · intro hunshared
    exact ⟨hunshared.exclusive, fun e he => (hguarded e.2).mp (hunshared.guarded e he)⟩
  · rintro ⟨hexclusive, huse⟩
    exact ⟨hexclusive, fun e he => (hguarded e.2).mpr (huse e he)⟩

theorem Lending.Ordered.unshared (h : s.Ordered) (hunshared : Unshared s.toLent)
    {e : LendingEvent C} (hcareful : CarefulCall s e) :
    Unshared (Blackstone.Bank.lendingStep s e).toLent := by
  rw [toLent_lendingStep h e]
  refine hunshared.lentStep h.sound ?_
  cases e <;> exact hcareful

/-- Acquiring again and again. -/
theorem run_replicate (h : s.Ordered) (c : C) (n : ℕ) :
    (run Blackstone.Bank.lendingStep s (List.replicate n (.acquire c))).toLent =
      run lentStep s.toLent (List.replicate n (.acquire c)) := by
  induction n generalizing s with
  | zero => rfl
  | succ n ih =>
    rw [List.replicate_succ, run_cons, List.replicate_succ, run_cons, ih (h.lendingStep _),
      toLent_lendingStep h]
    rfl

end Lending

/-- In every state that can be reached, careful clients will never share a buffer exactly when none
is shared now and every buffer that is held is in use. -/
theorem bufferExclusive_iff (bufferSize maxBuffers : ℕ) (addresses : ℕ ↪ ℕ)
    (events : List (LendingEvent C)) {s : Lending C}
    (hs : s = run lendingStep ⟨BufferPool.create bufferSize maxBuffers addresses, []⟩ events) :
    (∀ more, Along lendingStep CarefulCall s more →
        Exclusive (run lendingStep s more).held) ↔
      Exclusive s.held ∧
        ∀ e ∈ s.held, ∀ b ∈ s.pool.buffers, b.address = e.2 → b.inUse = true := by
  have hcreate : Lending.Ordered
      (⟨BufferPool.create bufferSize maxBuffers addresses, []⟩ : Lending C) := by
    obtain ⟨hconsistent, htoPool, hsound⟩ := queued_create bufferSize maxBuffers addresses
    exact ⟨hconsistent, rfl, htoPool.symm ▸ hsound⟩
  have hordered : s.Ordered := by
    rw [hs]
    exact run_invariant (fun s e h _ => h.lendingStep e) hcreate (along_true _ _)
  rw [← unshared_iff hordered]
  constructor
  · intro h
    refine unshared_of_acquires fun c n => ?_
    rw [← run_replicate hordered c n]
    have hacquire : ∀ e ∈ List.replicate n (LendingEvent.acquire c), e = .acquire c :=
      fun e he => List.eq_of_mem_replicate he
    refine h _ ((along_of_forall hacquire).imp ?_)
    rintro s' e rfl
    trivial
  · intro hunshared more hcareful
    have hkeep : ∀ (s : Lending C) e, s.Ordered ∧ Unshared s.toLent → CarefulCall s e →
        (lendingStep s e).Ordered ∧ Unshared (lendingStep s e).toLent :=
      fun s e h he => ⟨h.1.lendingStep e, h.1.unshared h.2 he⟩
    exact (run_invariant hkeep ⟨hordered, hunshared⟩ hcareful).2.exclusive

/-- One client holds the only buffer, and the pool is cleared. -/
def heldAndCleared : Lending Bool :=
  run lendingStep ⟨BufferPool.create 1 1 (.refl ℕ), []⟩ [.acquire true, .clear]

theorem bufferExclusive_iff_clear :
    ¬ ∀ more, Along lendingStep CarefulCall heldAndCleared more →
      Exclusive (run lendingStep heldAndCleared more).held := by
  intro h
  have hiff := bufferExclusive_iff 1 1 (.refl ℕ) [LendingEvent.acquire true, .clear]
    (show heldAndCleared = _ from rfl)
  obtain ⟨-, huse⟩ := hiff.mp h
  exact absurd (huse (true, 0) List.mem_cons_self ⟨0, [0], false⟩ List.mem_cons_self rfl)
    Bool.false_ne_true

end Blackstone.Bank
