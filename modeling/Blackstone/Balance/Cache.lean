import Mathlib.Algebra.BigOperators.Group.Finset.Piecewise
import Blackstone.Library.LinearProbing

/-!
# The balance cache

Two programs of the repository keep their balances in the same open-addressing table and
differ only in the width of an address and in the hash of a key. This module holds the
table and its two operations with the address type and the hash as parameters; the token
node and the single-file engine instantiate them under their own names.

The slot index is a 32-bit integer while the capacity is a `size_t`, so a probe walks the
first `reach capacity = min capacity 2^32` entries. `CacheOk` is the invariant of the
table. `cacheUpdate_cases` says all that an update can do; from it follow the
preservation of the invariant, the balances after an update (`cacheGet_update_self`,
`cacheGet_update_of_ne`, `cacheUpdate_of_noRoom`) and the total of a token
(`total_cacheUpdate`).
-/

namespace Blackstone.Balance

open LinearProbing

/-- The fields of `balance_entry_t` that are read. The other fields are zero from the
allocation on and are only ever set to zero. -/
structure BalanceEntry (A : Type) where
  address : A
  tokenId : UInt32
  balance : UInt64
  lastUpdate : UInt32

/-- `balance_cache_t`. The hit and miss counters only feed statistics and are left out. -/
structure BalanceCache (A : Type) where
  entries : Nat → BalanceEntry A
  capacity : Nat
  count : Nat

/-- A balance is kept per address and token. -/
abbrev Key (A : Type) := A × UInt32

variable {A : Type}

/-- An entry is in use once `last_update` is set; it is found by address and token. -/
def layout (A : Type) : Layout (BalanceEntry A) (Key A) where
  used e := e.lastUpdate != 0
  key e := (e.address, e.tokenId)

/-- `balance += delta`. -/
def BalanceEntry.add (e : BalanceEntry A) (delta : UInt64) : BalanceEntry A :=
  { e with balance := e.balance + delta }

@[simp] theorem layout_used_add (e : BalanceEntry A) (delta : UInt64) :
    (layout A).used (e.add delta) = (layout A).used e := rfl

@[simp] theorem layout_key_add (e : BalanceEntry A) (delta : UInt64) :
    (layout A).key (e.add delta) = (layout A).key e := rfl

/-- `balance_cache_create`: every entry is zeroed, so its address is the zero address. -/
def cacheCreate (zero : A) (capacity : Nat) : BalanceCache A where
  entries _ := ⟨zero, 0, 0, 0⟩
  capacity := capacity
  count := 0

/-- `idx = hash % capacity`. -/
def startIdx (hash : A → UInt32 → UInt32) (capacity : Nat) (k : Key A) : Nat :=
  (hash k.1 k.2).toNat % capacity

/-- `idx = (idx + 1) % capacity`, where `idx + 1` is computed in 32 bits. -/
def nextIdx (capacity idx : Nat) : Nat := (idx + 1) % 2 ^ 32 % capacity

variable [DecidableEq A]

/-- The loop of `balance_cache_update`, cut off after `fuel` rounds. -/
def updateLoop (hash : A → UInt32 → UInt32) (cache : BalanceCache A) (k : Key A)
    (fuel : Nat) : Option Place :=
  scanPlace (layout A) cache.entries (nextIdx cache.capacity) k
    (startIdx hash cache.capacity k) fuel (startIdx hash cache.capacity k)

/-- The loop of `balance_cache_get`, cut off after `fuel` rounds. -/
def getLoop (hash : A → UInt32 → UInt32) (cache : BalanceCache A) (k : Key A)
    (fuel : Nat) : Option (Option Nat) :=
  scanFind (layout A) cache.entries (nextIdx cache.capacity) k
    (startIdx hash cache.capacity k) fuel (startIdx hash cache.capacity k)

/-- `balance_cache_update`. A table without a slot for the key drops the delta. -/
def cacheUpdate (hash : A → UInt32 → UInt32) (cache : BalanceCache A) (addr : A)
    (tokenId : UInt32) (delta : UInt64) : BalanceCache A :=
  match updateLoop hash cache (addr, tokenId) cache.capacity with
  | some (.fresh idx) =>
    { cache with
      entries := Function.update cache.entries idx ⟨addr, tokenId, delta, 1⟩
      count := cache.count + 1 }
  | some (.hit idx) =>
    { cache with
      entries := Function.update cache.entries idx ((cache.entries idx).add delta) }
  | some .full => cache
  | none => cache

/-- `balance_cache_get`. -/
def cacheGet (hash : A → UInt32 → UInt32) (cache : BalanceCache A) (addr : A)
    (tokenId : UInt32) : UInt64 :=
  match getLoop hash cache (addr, tokenId) cache.capacity with
  | some (some idx) => (cache.entries idx).balance
  | some none => 0
  | none => 0

/-! ## The entries a probe can reach -/

/-- The number of entries that a 32-bit index walks through. -/
def reach (capacity : Nat) : Nat := min capacity (2 ^ 32)

omit [DecidableEq A] in
theorem startIdx_lt (hash : A → UInt32 → UInt32) {capacity : Nat} (hcap : 0 < capacity)
    (k : Key A) : startIdx hash capacity k < reach capacity := by
  have hmod := Nat.mod_lt (hash k.1 k.2).toNat hcap
  have hle := Nat.mod_le (hash k.1 k.2).toNat capacity
  have hword := (hash k.1 k.2).toNat_lt
  unfold startIdx reach
  omega

theorem nextIdx_eq {capacity i : Nat} (hi : i < reach capacity) :
    nextIdx capacity i = (i + 1) % reach capacity := by
  unfold nextIdx
  unfold reach at hi ⊢
  rcases Nat.le_total capacity (2 ^ 32) with h | h
  · rw [Nat.min_eq_left h] at hi ⊢
    rcases Nat.lt_or_ge (i + 1) (2 ^ 32) with hlt | hge
    · rw [Nat.mod_eq_of_lt hlt]
    · have hcap : capacity = i + 1 := by omega
      have hi' : i + 1 = 2 ^ 32 := by omega
      rw [hcap, hi', Nat.mod_self, Nat.zero_mod]
  · rw [Nat.min_eq_right h] at hi ⊢
    rcases Nat.lt_or_ge (i + 1) (2 ^ 32) with hlt | hge
    · rw [Nat.mod_eq_of_lt hlt, Nat.mod_eq_of_lt (by omega)]
    · have hi' : i + 1 = 2 ^ 32 := by omega
      rw [hi', Nat.mod_self, Nat.zero_mod]

theorem reach_le (capacity : Nat) : reach capacity ≤ capacity := Nat.min_le_left _ _

/-- The keys that have an entry. -/
def keys (cache : BalanceCache A) : Finset (Key A) :=
  storedKeys (layout A) (reach cache.capacity) cache.entries

/-- The invariant of the table: probing finds every stored key, unused entries hold no
balance, entries out of reach are unused, and `count` counts the stored keys. -/
structure CacheOk (hash : A → UInt32 → UInt32) (cache : BalanceCache A) : Prop where
  capacity_pos : 0 < cache.capacity
  linked : Linked (layout A) (reach cache.capacity) (startIdx hash cache.capacity)
    cache.entries
  blank : ∀ i, (layout A).used (cache.entries i) = false → (cache.entries i).balance = 0
  beyond : ∀ i, reach cache.capacity ≤ i → (layout A).used (cache.entries i) = false
  count_eq : cache.count = (keys cache).card

/-- An update of `k` finds an entry: `k` has one, or a reachable entry is unused. -/
def HasRoom (cache : BalanceCache A) (k : Key A) : Prop :=
  k ∈ keys cache ∨ (keys cache).card < reach cache.capacity

instance (cache : BalanceCache A) (k : Key A) : Decidable (HasRoom cache k) :=
  inferInstanceAs (Decidable (_ ∨ _))

theorem HasRoom.of_mem {cache : BalanceCache A} {k : Key A} (h : k ∈ keys cache) :
    HasRoom cache k := Or.inl h

theorem HasRoom.of_card {cache : BalanceCache A} {k : Key A}
    (h : (keys cache).card < reach cache.capacity) : HasRoom cache k := Or.inr h

variable {hash : A → UInt32 → UInt32} {cache : BalanceCache A}

theorem keys_card_le (cache : BalanceCache A) :
    (keys cache).card ≤ reach cache.capacity := card_storedKeys_le _ _ _

theorem cacheOk_create (hash : A → UInt32 → UInt32) (zero : A) {capacity : Nat}
    (hcap : 0 < capacity) : CacheOk hash (cacheCreate zero capacity) where
  capacity_pos := hcap
  linked := linked_of_unused fun _ _ => rfl
  blank _ _ := rfl
  beyond _ _ := rfl
  count_eq := by
    symm
    rw [show (cacheCreate zero capacity).count = 0 from rfl, Finset.card_eq_zero]
    refine Finset.eq_empty_of_forall_notMem fun k hk => ?_
    obtain ⟨i, _, hused, _⟩ := mem_storedKeys.mp hk
    cases hused

theorem keys_create (zero : A) (capacity : Nat) : keys (cacheCreate zero capacity) = ∅ := by
  refine Finset.eq_empty_of_forall_notMem fun k hk => ?_
  obtain ⟨i, _, hused, _⟩ := mem_storedKeys.mp hk
  cases hused

/-! ## Reading -/

/-- Both loops stop within `capacity` rounds, and say what they found. -/
theorem CacheOk.updateLoop_spec (h : CacheOk hash cache) (k : Key A) :
    ∃ p, updateLoop hash cache k cache.capacity = some p ∧
      PlaceSpec (layout A) cache.entries (reach cache.capacity) k
        (startIdx hash cache.capacity k) p :=
  scanPlace_spec (startIdx_lt hash h.capacity_pos k) (fun _ hi => nextIdx_eq hi)
    (reach_le cache.capacity)

theorem CacheOk.getLoop_spec (h : CacheOk hash cache) (k : Key A) :
    ∃ r, getLoop hash cache k cache.capacity = some r ∧
      FindSpec (layout A) cache.entries (reach cache.capacity) k
        (startIdx hash cache.capacity k) r :=
  scanFind_spec (startIdx_lt hash h.capacity_pos k) (fun _ hi => nextIdx_eq hi)
    (reach_le cache.capacity)

theorem CacheOk.cacheGet_of_stored (h : CacheOk hash cache) {a : A} {t : UInt32} {i : Nat}
    (hst : Stored (layout A) (reach cache.capacity) cache.entries (a, t) i) :
    cacheGet hash cache a t = (cache.entries i).balance := by
  obtain ⟨r, hrun, hspec⟩ := h.getLoop_spec (a, t)
  unfold cacheGet
  rw [hrun]
  cases r with
  | none => exact absurd hst (h.linked.not_stored_of_find hspec i)
  | some j =>
    rcases h.linked.stored_of_find hspec with hj | ⟨_, _, hno⟩
    · rw [h.linked.distinct _ i j hst hj]
    · exact absurd hst (hno i)

theorem CacheOk.cacheGet_of_notMem (h : CacheOk hash cache) {a : A} {t : UInt32}
    (hno : (a, t) ∉ keys cache) : cacheGet hash cache a t = 0 := by
  obtain ⟨r, hrun, hspec⟩ := h.getLoop_spec (a, t)
  unfold cacheGet
  rw [hrun]
  cases r with
  | none => rfl
  | some j =>
    rcases h.linked.stored_of_find hspec with hj | ⟨_, hunused, _⟩
    · exact absurd (mem_storedKeys.mpr ⟨j, hj⟩) hno
    · exact h.blank j hunused

/-! ## Writing -/

/-- All that an update does: it adds to the entry of the key, fills a new entry for it,
or leaves a full table alone. -/
theorem CacheOk.cacheUpdate_cases (h : CacheOk hash cache) (a : A) (t : UInt32)
    (delta : UInt64) :
    (∃ i, Stored (layout A) (reach cache.capacity) cache.entries (a, t) i ∧
      cacheUpdate hash cache a t delta =
        { cache with
          entries := Function.update cache.entries i ((cache.entries i).add delta) }) ∨
    (∃ i, (a, t) ∉ keys cache ∧ i < reach cache.capacity ∧
      PlaceSpec (layout A) cache.entries (reach cache.capacity) (a, t)
        (startIdx hash cache.capacity (a, t)) (.fresh i) ∧
      (layout A).used (cache.entries i) = false ∧
      (keys cache).card < reach cache.capacity ∧
      cacheUpdate hash cache a t delta =
        { cache with
          entries := Function.update cache.entries i ⟨a, t, delta, 1⟩
          count := cache.count + 1 }) ∨
    ((a, t) ∉ keys cache ∧ (keys cache).card = reach cache.capacity ∧
      cacheUpdate hash cache a t delta = cache) := by
  obtain ⟨p, hrun, hspec⟩ := h.updateLoop_spec (a, t)
  unfold cacheUpdate
  rw [hrun]
  cases p with
  | hit i => exact Or.inl ⟨i, hspec.stored_of_hit, rfl⟩
  | fresh i =>
    right; left
    have hno : (a, t) ∉ keys cache := by
      intro hmem
      obtain ⟨j, hj⟩ := mem_storedKeys.mp hmem
      exact h.linked.not_stored_of_fresh hspec j hj
    obtain ⟨hi, hcell⟩ := hspec.unused_of_fresh
    have hcard : (keys cache).card < reach cache.capacity :=
      h.linked.card_storedKeys_of_fresh hspec
        (show (layout A).used ⟨a, t, delta, 1⟩ = true from rfl) rfl
    exact ⟨i, hno, hi, hspec, hcell, hcard, rfl⟩
  | full =>
    right; right
    refine ⟨?_, ?_, rfl⟩
    · intro hmem
      obtain ⟨j, hj⟩ := mem_storedKeys.mp hmem
      exact hspec.not_stored_of_full j hj
    · cases hspec with
      | full hall => exact h.linked.card_storedKeys_of_full fun i hi => (hall i hi).1

@[simp] theorem cacheUpdate_capacity (hash : A → UInt32 → UInt32) (cache : BalanceCache A)
    (a : A) (t : UInt32) (delta : UInt64) :
    (cacheUpdate hash cache a t delta).capacity = cache.capacity := by
  unfold cacheUpdate
  split <;> rfl

theorem CacheOk.keys_update (h : CacheOk hash cache) (a : A) (t : UInt32) (delta : UInt64) :
    keys (cacheUpdate hash cache a t delta) =
      if HasRoom cache (a, t) then insert (a, t) (keys cache) else keys cache := by
  rcases h.cacheUpdate_cases a t delta with ⟨i, hst, heq⟩ | ⟨i, hno, hi, _, hcell, hcard, heq⟩ |
      ⟨hno, hcard, heq⟩
  · have hmem : (a, t) ∈ keys cache := mem_storedKeys.mpr ⟨i, hst⟩
    rw [heq, if_pos (HasRoom.of_mem hmem), Finset.insert_eq_of_mem hmem]
    exact storedKeys_rewrite (layout_used_add _ _) (layout_key_add _ _)
  · rw [heq, if_pos (HasRoom.of_card hcard)]
    exact storedKeys_fill hi hcell rfl rfl
  · rw [heq, if_neg]
    intro hroom
    rcases hroom with hmem | hlt
    · exact hno hmem
    · omega

/-- A cell within reach that is written, and is in use afterwards. -/
theorem CacheOk.write (h : CacheOk hash cache) {i : Nat} (hi : i < reach cache.capacity)
    {entry : BalanceEntry A} (hused : (layout A).used entry = true) {count : Nat}
    (hlinked : Linked (layout A) (reach cache.capacity) (startIdx hash cache.capacity)
      (Function.update cache.entries i entry))
    (hcount : count = (keys { cache with
      entries := Function.update cache.entries i entry, count := count }).card) :
    CacheOk hash { cache with
      entries := Function.update cache.entries i entry, count := count } := by
  refine ⟨h.capacity_pos, hlinked, ?_, ?_, hcount⟩
  · intro j hj
    by_cases hji : j = i
    · subst hji
      simp only [Function.update_self] at hj
      exact Bool.noConfusion (hused.symm.trans hj)
    · simp only [Function.update_of_ne hji] at hj ⊢
      exact h.blank j hj
  · intro j hj
    have hji : j ≠ i := (lt_of_lt_of_le hi hj).ne'
    simp only [Function.update_of_ne hji]
    exact h.beyond j hj

/-- An update keeps the invariant. -/
theorem CacheOk.update (h : CacheOk hash cache) (a : A) (t : UInt32) (delta : UInt64) :
    CacheOk hash (cacheUpdate hash cache a t delta) := by
  have hkeys := h.keys_update a t delta
  rcases h.cacheUpdate_cases a t delta with ⟨i, hst, heq⟩ |
      ⟨i, hno, hi, hspec, hcell, hcard, heq⟩ | ⟨_, _, heq⟩
  · have hmem : (a, t) ∈ keys cache := mem_storedKeys.mpr ⟨i, hst⟩
    rw [if_pos (HasRoom.of_mem hmem), Finset.insert_eq_of_mem hmem] at hkeys
    rw [heq] at hkeys ⊢
    refine h.write hst.1 ?_ (h.linked.rewrite (layout_used_add _ _) (layout_key_add _ _)) ?_
    · rw [layout_used_add]
      exact hst.2.1
    · rw [hkeys]
      exact h.count_eq
  · rw [if_pos (HasRoom.of_card hcard)] at hkeys
    rw [heq] at hkeys ⊢
    apply h.write hi rfl (h.linked.fill hspec rfl rfl)
    rw [hkeys, Finset.card_insert_of_notMem hno, ← h.count_eq]
  · rw [heq]
    exact h

/-- A table without room for the key drops the update. -/
theorem CacheOk.cacheUpdate_of_noRoom (h : CacheOk hash cache) {a : A} {t : UInt32}
    (hroom : ¬ HasRoom cache (a, t)) (delta : UInt64) :
    cacheUpdate hash cache a t delta = cache := by
  rcases h.cacheUpdate_cases a t delta with ⟨i, hst, _⟩ | ⟨_, _, _, _, _, hcard, _⟩ |
      ⟨_, _, heq⟩
  · exact absurd (Or.inl (mem_storedKeys.mpr ⟨i, hst⟩)) hroom
  · exact absurd (Or.inr hcard) hroom
  · exact heq

/-- With room for the key, the update adds the delta to its balance. -/
theorem CacheOk.cacheGet_update_self (h : CacheOk hash cache) {a : A} {t : UInt32}
    (hroom : HasRoom cache (a, t)) (delta : UInt64) :
    cacheGet hash (cacheUpdate hash cache a t delta) a t =
      cacheGet hash cache a t + delta := by
  have hok := h.update a t delta
  rcases h.cacheUpdate_cases a t delta with ⟨i, hst, heq⟩ | ⟨i, hno, hi, _, _, _, heq⟩ |
      ⟨hno, hcard, _⟩
  · rw [h.cacheGet_of_stored hst]
    rw [heq] at hok ⊢
    rw [hok.cacheGet_of_stored
      ((stored_update_iff (layout_used_add _ _) (layout_key_add _ _) (a, t) i).mpr hst)]
    simp only [Function.update_self, BalanceEntry.add]
  · rw [h.cacheGet_of_notMem hno]
    rw [heq] at hok ⊢
    have hst : Stored (layout A) (reach cache.capacity)
        (Function.update cache.entries i ⟨a, t, delta, 1⟩) (a, t) i := by
      refine ⟨hi, ?_, ?_⟩ <;> rw [Function.update_self] <;> rfl
    rw [hok.cacheGet_of_stored hst]
    simp only [Function.update_self, UInt64.zero_add]
  · rcases hroom with hmem | hlt
    · exact absurd hmem hno
    · omega

/-- An update changes no other balance. -/
theorem CacheOk.cacheGet_update_of_ne (h : CacheOk hash cache) {a a' : A} {t t' : UInt32}
    (hne : (a', t') ≠ (a, t)) (delta : UInt64) :
    cacheGet hash (cacheUpdate hash cache a t delta) a' t' = cacheGet hash cache a' t' := by
  have hok := h.update a t delta
  have hkeys := h.keys_update a t delta
  by_cases hmem : (a', t') ∈ keys cache
  · obtain ⟨j, hj⟩ := mem_storedKeys.mp hmem
    rw [h.cacheGet_of_stored hj]
    rcases h.cacheUpdate_cases a t delta with ⟨i, hst, heq⟩ | ⟨i, _, _, _, hcell, _, heq⟩ |
        ⟨_, _, heq⟩
    · rw [heq] at hok ⊢
      rw [hok.cacheGet_of_stored
        ((stored_update_iff (layout_used_add _ _) (layout_key_add _ _) (a', t') j).mpr hj)]
      have hji : j ≠ i := by
        intro hji
        rw [hji] at hj
        exact hne (hj.2.2.symm.trans hst.2.2)
      simp only [Function.update_of_ne hji]
    · rw [heq] at hok ⊢
      have hji : j ≠ i := by
        intro hji
        rw [hji] at hj
        exact Bool.noConfusion (hj.2.1.symm.trans hcell)
      have hj' : Stored (layout A) (reach cache.capacity)
          (Function.update cache.entries i ⟨a, t, delta, 1⟩) (a', t') j := by
        simpa only [Stored, Function.update_of_ne hji] using hj
      rw [hok.cacheGet_of_stored hj']
      simp only [Function.update_of_ne hji]
    · rw [heq, h.cacheGet_of_stored hj]
  · have hmem' : (a', t') ∉ keys (cacheUpdate hash cache a t delta) := by
      rw [hkeys]
      split
      · simp [hne, hmem]
      · exact hmem
    rw [hok.cacheGet_of_notMem hmem', h.cacheGet_of_notMem hmem]

/-- An update changes one balance, if the table has room for its key. -/
theorem CacheOk.cacheGet_update (h : CacheOk hash cache) (a : A) (t : UInt32) (delta : UInt64)
    (k : Key A) : cacheGet hash (cacheUpdate hash cache a t delta) k.1 k.2 =
      cacheGet hash cache k.1 k.2 + if (a, t) = k ∧ HasRoom cache (a, t) then delta else 0 := by
  by_cases hkey : (a, t) = k
  · subst hkey
    by_cases hroom : HasRoom cache (a, t)
    · rw [if_pos ⟨rfl, hroom⟩]
      exact h.cacheGet_update_self hroom delta
    · rw [if_neg (fun hboth => hroom hboth.2), UInt64.add_zero, h.cacheUpdate_of_noRoom hroom]
  · rw [if_neg (fun hboth => hkey hboth.1), UInt64.add_zero]
    exact h.cacheGet_update_of_ne (fun heq => hkey heq.symm) delta

/-! ## The total of a token -/

/-- The sum, over the naturals, of the balances of one token. -/
def totalBalance (cache : BalanceCache A) (t : UInt32) : Nat :=
  ∑ i ∈ Finset.range cache.capacity,
    if (cache.entries i).tokenId = t then (cache.entries i).balance.toNat else 0

/-- The part of a key's balance that counts for token `t`. -/
def share (hash : A → UInt32 → UInt32) (cache : BalanceCache A) (k : Key A)
    (t : UInt32) : Nat :=
  if k.2 = t then (cacheGet hash cache k.1 k.2).toNat else 0

omit [DecidableEq A] in
theorem sum_update_entry {n i : Nat} (hi : i < n) (entries : Nat → BalanceEntry A)
    (x : BalanceEntry A) (f : BalanceEntry A → Nat) :
    (∑ j ∈ Finset.range n, f (Function.update entries i x j)) + f (entries i) =
      (∑ j ∈ Finset.range n, f (entries j)) + f x := by
  have hmem : i ∈ Finset.range n := Finset.mem_range.mpr hi
  have hmoved : f ∘ Function.update entries i x = Function.update (f ∘ entries) i (f x) :=
    Function.comp_update _ _ _ _
  have hnew : ∑ j ∈ Finset.range n, f (Function.update entries i x j) =
      f x + ∑ j ∈ Finset.range n \ {i}, f (entries j) := by
    rw [← Finset.sum_update_of_mem hmem (fun j => f (entries j)) (f x)]
    exact Finset.sum_congr rfl fun j _ => congrFun hmoved j
  rw [hnew, Finset.sum_eq_add_sum_sdiff_singleton_of_mem hmem (fun j => f (entries j))]
  omega

/-- An update changes the total of a token by what it changes in the key's balance. -/
theorem CacheOk.total_cacheUpdate (h : CacheOk hash cache) (a : A) (t : UInt32)
    (delta : UInt64) (u : UInt32) :
    totalBalance (cacheUpdate hash cache a t delta) u + share hash cache (a, t) u =
      totalBalance cache u + share hash (cacheUpdate hash cache a t delta) (a, t) u := by
  rcases h.cacheUpdate_cases a t delta with ⟨i, hst, heq⟩ |
      ⟨i, hno, hi, _, hcell, hcard, heq⟩ | ⟨_, _, heq⟩
  · have hself := h.cacheGet_update_self (HasRoom.of_mem (mem_storedKeys.mpr ⟨i, hst⟩)) delta
    have hkey : (cache.entries i).tokenId = t := congrArg Prod.snd hst.2.2
    have hsum := sum_update_entry (lt_of_lt_of_le hst.1 (reach_le _)) cache.entries
      ((cache.entries i).add delta) (fun e => if e.tokenId = u then e.balance.toNat else 0)
    simp only [share]
    rw [hself, h.cacheGet_of_stored hst, heq]
    simpa only [totalBalance, BalanceEntry.add, hkey] using hsum
  · have hroom : HasRoom cache (a, t) := HasRoom.of_card hcard
    have hself := h.cacheGet_update_self hroom delta
    have hsum := sum_update_entry (lt_of_lt_of_le hi (reach_le _)) cache.entries
      ⟨a, t, delta, 1⟩ (fun e => if e.tokenId = u then e.balance.toNat else 0)
    have hzero : (cache.entries i).balance = 0 := h.blank i hcell
    simp only [share]
    rw [hself, h.cacheGet_of_notMem hno, heq, UInt64.zero_add]
    simpa only [totalBalance, hzero, UInt64.toNat_zero, ite_self] using hsum
  · rw [heq]

end Blackstone.Balance
