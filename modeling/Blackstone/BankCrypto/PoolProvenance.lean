import Blackstone.BankCrypto.RandomPool
import Blackstone.BankCrypto.SourcePrimitives

/-!
# Where the bytes of the random pool come from

The functions of the random pool on bytes that carry a note whether they were delivered by the
platform source or by a hash of such bytes (`taggedOps_translates`). `PoolAccount` is an account of
a run in three numbers: the index, the entropy, and how many bytes at the start of the pool are
such bytes. It needs only the lengths of the requests and of the reads.

At the end of the pool all of it is replaced by a digest of 32 bytes and what the array on the
stack held behind it, and the entropy is set to 256 before the whole request is taken from it. A
run is as expected exactly when the account allows each of its calls
(`rngRun_safe_iff`).
-/

namespace Blackstone.BankCrypto

/-! ## Bytes with a note -/

/-- A byte, and whether it was delivered by the platform source or by a hash of such bytes. What a
caller adds is xored into a byte and takes nothing from it. -/
structure TaggedByte where
  value : UInt8
  sourced : Bool

def sourcedByte (value : UInt8) : TaggedByte := ⟨value, true⟩

def strayByte (value : UInt8) : TaggedByte := ⟨value, false⟩

/-- The functions of the source. -/
def byteOps (sha256 : List UInt8 → Bytes 32) : ByteOps UInt8 := ⟨sha256, (· ^^^ ·)⟩

def taggedOps (sha256 : List UInt8 → Bytes 32) : ByteOps TaggedByte where
  sha256 text := (sha256 (text.map TaggedByte.value)).map fun b => ⟨b, text.all TaggedByte.sourced⟩
  xor a b := ⟨a.value ^^^ b.value, a.sourced && b.sourced⟩

/-- What the platform source delivers and what callers add is noted as such, an array on the stack
holds stray bytes. -/
def tagCall : RngCall UInt8 → RngCall TaggedByte
  | .bytes len read stack =>
    .bytes len (read.map sourcedByte) fun k => (stack k).map strayByte
  | .reseed stack read => .reseed (stack.map strayByte) (read.map sourcedByte)
  | .addEntropy data => .addEntropy (data.map sourcedByte)

/-- The state after `bank_rng_init`. -/
def tagStart (s : RngState UInt8) (read : List UInt8) : RngState TaggedByte :=
  rngInit (s.map strayByte) (read.map sourcedByte)

/-- The notes change nothing of what the functions do. -/
theorem taggedOps_translates (sha256 : List UInt8 → Bytes 32) :
    (taggedOps sha256).Translates TaggedByte.value (byteOps sha256) where
  sha256 text := by
    rw [taggedOps, byteOps]
    dsimp only
    rw [Vector.map_map]
    exact Vector.map_id _
  xor _ _ := rfl

theorem value_tagged (tag : UInt8 → TaggedByte) (htag : ∀ b, (tag b).value = b)
    (v : Bytes 1024) : (v.map tag).map TaggedByte.value = v := by
  apply Vector.ext
  intro i hi
  rw [Vector.getElem_map, Vector.getElem_map, htag]

theorem value_sourced (bytes : List UInt8) :
    (bytes.map sourcedByte).map TaggedByte.value = bytes := by
  rw [List.map_map]
  exact List.map_id bytes

theorem map_value_tagCall (call : RngCall UInt8) :
    (tagCall call).map TaggedByte.value = call := by
  have hstray := value_tagged strayByte fun _ => rfl
  cases call with
  | bytes len read stack =>
    simp only [tagCall, RngCall.map, value_sourced, hstray]
  | reseed stack read =>
    simp only [tagCall, RngCall.map, value_sourced, hstray]
  | addEntropy data =>
    simp only [tagCall, RngCall.map, value_sourced]

/-- A run on bytes with notes is a run of the source. -/
theorem value_run (sha256 : List UInt8 → Bytes 32) (libraryInitialized : Bool)
    (s : RngState UInt8) (read : List UInt8) (calls : List (RngCall UInt8)) :
    (Runs.run (rngStep (taggedOps sha256) libraryInitialized) (tagStart s read)
        (calls.map tagCall)).map TaggedByte.value =
      Runs.run (rngStep (byteOps sha256) libraryInitialized) (rngInit s read) calls := by
  have hstart : (tagStart s read).map TaggedByte.value = rngInit s read := by
    simp only [tagStart, rngInit, RngState.map, map_overwrite, value_sourced,
      value_tagged strayByte fun _ => rfl]
  rw [← hstart]
  generalize tagStart s read = start
  induction calls generalizing start with
  | nil => rfl
  | cons call calls ih =>
    have hstep := (rngStep_map (taggedOps_translates sha256) libraryInitialized start
      (tagCall call)).1
    rw [map_value_tagCall] at hstep
    rw [List.map_cons, Runs.run_cons, Runs.run_cons, ih, hstep]

/-! ## What is expected of a call -/

section Code

variable (sha256 : List UInt8 → Bytes 32) (libraryInitialized : Bool)

/-- A call leaves the index and the entropy within their bounds, takes no more entropy than there
is, and hands out sourced bytes only. -/
structure CallSafe (s : RngState TaggedByte) (call : RngCall TaggedByte) : Prop where
  index : (rngStep (taggedOps sha256) libraryInitialized s call).poolIndex < 1024
  entropy : (rngStep (taggedOps sha256) libraryInitialized s call).entropyBits ≤ 8192
  noUnderflow : libraryInitialized = true → ∀ len read stack, call = .bytes len read stack →
    len * 8 ≤ (rngCopy (taggedOps sha256) s len read stack).rng.entropyBits
  sourced : ∀ b ∈ handedOut (taggedOps sha256) libraryInitialized s call, b.sourced = true

/-- A run from `start`: the bounds hold at first, every call is safe, and no byte of the pool is
handed out twice between two refreshes. -/
structure RngRunSafe (start : RngState TaggedByte) (calls : List (RngCall TaggedByte)) :
    Prop where
  index : start.poolIndex < 1024
  entropy : start.entropyBits ≤ 8192
  along : Runs.Along (rngStep (taggedOps sha256) libraryInitialized)
    (CallSafe sha256 libraryInitialized) start calls
  noReuse : NoReuse (accessLog (taggedOps sha256) libraryInitialized start calls)

end Code

/-! ## The account -/

/-- The index, the entropy, and how many bytes at the start of the pool are sourced. -/
structure PoolAccount where
  index : ℕ
  entropyBits : ℕ
  sourced : ℕ

namespace PoolAccount

/-- After an initialisation for which the platform source delivers `readLen` bytes. -/
def start (readLen : ℕ) : PoolAccount := ⟨0, 8192, min 1024 readLen⟩

def refill (a : PoolAccount) (len readLen : ℕ) : PoolAccount :=
  if a.entropyBits < 8 * len then
    { a with entropyBits := 8192, sourced := max a.sourced (min 1024 readLen) }
  else a

/-- A request that stays below the end of the pool stays in the sourced part. One that reaches the
end is for at most 32 bytes, and the whole pool is sourced. -/
def Serves (a : PoolAccount) (len : ℕ) : Prop :=
  if a.index + len < 1024 then len = 0 ∨ a.index + len ≤ a.sourced
  else len ≤ 32 ∧ a.sourced = 1024

/-- After a request that is served. -/
def serve (a : PoolAccount) (len : ℕ) : PoolAccount :=
  if a.index + len < 1024 then
    { a with index := a.index + len, entropyBits := a.entropyBits - 8 * len }
  else ⟨a.index + len - 1024, 256 - 8 * len, 32⟩

def Allows (libraryInitialized : Bool) (a : PoolAccount) : RngCall UInt8 → Prop
  | .bytes len read _ =>
    libraryInitialized = true → (a.refill len.toNat read.length).Serves len.toNat
  | .reseed _ _ => True
  | .addEntropy _ => True

def step (libraryInitialized : Bool) (a : PoolAccount) : RngCall UInt8 → PoolAccount
  | .bytes len read _ =>
    if libraryInitialized then (a.refill len.toNat read.length).serve len.toNat else a
  | .reseed _ read =>
    if libraryInitialized then
      { a with entropyBits := 8192, sourced := min a.sourced read.length }
    else a
  | .addEntropy data =>
    if libraryInitialized then
      { a with entropyBits := min 8192 (a.entropyBits + 8 * data.length) }
    else a

/-- The account of a state. -/
structure Describes (a : PoolAccount) (s : RngState TaggedByte) : Prop where
  index : s.poolIndex = a.index
  index_lt : a.index < 1024
  entropy : s.entropyBits.toNat = a.entropyBits
  entropy_le : a.entropyBits ≤ 8192
  sourced_le : a.sourced ≤ 1024
  pool : ∀ i : Fin 1024, (s.pool.get i).sourced = true ↔ i.val < a.sourced

end PoolAccount

/-! ## Notes in the pool -/

theorem get_overwrite_sourced (buffer : Vector TaggedByte 1024) (bytes : List UInt8)
    (i : Fin 1024) :
    ((overwrite buffer (bytes.map sourcedByte)).get i).sourced = true ↔
      i.val < bytes.length ∨ (buffer.get i).sourced = true := by
  have hget : (overwrite buffer (bytes.map sourcedByte)).get i =
      (bytes.map sourcedByte).getD i.val (buffer.get i) := Vector.getElem_ofFn i.isLt
  rw [hget]
  rcases Nat.lt_or_ge i.val bytes.length with hlt | hge
  · rw [List.getD_eq_getElem _ _ (by rwa [List.length_map]), List.getElem_map]
    exact iff_of_true rfl (Or.inl hlt)
  · rw [List.getD_eq_default _ _ (by rwa [List.length_map])]
    exact (or_iff_right hge.not_gt).symm

/-- The new pool has a digest and behind it what the array held. -/
theorem get_rehash_sourced (sha256 : List UInt8 → Bytes 32) (s : RngState TaggedByte)
    (stack : Bytes 1024) (i : Fin 1024) :
    ((rehash (taggedOps sha256) s (stack.map strayByte)).pool.get i).sourced = true ↔
      i.val < 32 ∧ ∀ j, (s.pool.get j).sourced = true := by
  have hget : (rehash (taggedOps sha256) s (stack.map strayByte)).pool.get i =
      ((taggedOps sha256).sha256 s.pool.toList).toList.getD i.val
        ((stack.map strayByte).get i) := Vector.getElem_ofFn i.isLt
  have hall : s.pool.toList.all TaggedByte.sourced = true ↔
      ∀ j, (s.pool.get j).sourced = true := by
    rw [List.all_eq_true]
    constructor
    · intro h j
      exact h _ (Vector.mem_toList_iff.mpr (Vector.getElem_mem j.isLt))
    · intro h b hb
      obtain ⟨j, hj, rfl⟩ := Vector.mem_iff_getElem.mp (Vector.mem_toList_iff.mp hb)
      exact h ⟨j, hj⟩
  rw [hget]
  rcases Nat.lt_or_ge i.val 32 with hlt | hge
  · rw [List.getD_eq_getElem _ _ (by rwa [Vector.length_toList]), Vector.getElem_toList,
      taggedOps]
    dsimp only
    rw [Vector.getElem_map, and_iff_right hlt]
    exact hall
  · rw [List.getD_eq_default _ _ (by rwa [Vector.length_toList]), get_map]
    exact iff_of_false Bool.false_ne_true fun h => hge.not_gt h.1

theorem toNat_mul_eight {len : UInt64} (hlen : len.toNat < 2 ^ 61) :
    (len * 8).toNat = 8 * len.toNat := by
  have height : (8 : UInt64).toNat = 8 := rfl
  rw [UInt64.toNat_mul, height]
  omega

namespace PoolAccount.Describes

variable {a : PoolAccount} {s : RngState TaggedByte}

theorem entropyBits_le (h : a.Describes s) : s.entropyBits ≤ 8192 := by
  rw [UInt64.le_iff_toNat_le, h.entropy]
  exact h.entropy_le

theorem of_start (s : RngState UInt8) (read : List UInt8) :
    (PoolAccount.start read.length).Describes (tagStart s read) where
  index := rfl
  index_lt := Nat.succ_pos 1023
  entropy := rfl
  entropy_le := le_rfl
  sourced_le := Nat.min_le_left _ _
  pool i := by
    have hi := i.isLt
    have hstray : ¬((s.map strayByte).pool.get i).sourced = true := by
      rw [RngState.map, get_map]
      exact Bool.false_ne_true
    rw [tagStart, rngInit, get_overwrite_sourced, or_iff_left hstray]
    change _ ↔ i.val < min 1024 read.length
    omega

theorem refill (h : a.Describes s) {len : UInt64} (hlen : len.toNat < 2 ^ 61)
    (read : List UInt8) :
    (a.refill len.toNat read.length).Describes
      (BankCrypto.refill s len (read.map sourcedByte)) := by
  have hless : s.entropyBits < len * 8 ↔ a.entropyBits < 8 * len.toNat := by
    rw [UInt64.lt_iff_toNat_lt, h.entropy, toNat_mul_eight hlen]
  rw [PoolAccount.refill, BankCrypto.refill]
  by_cases hlow : a.entropyBits < 8 * len.toNat
  · rw [if_pos hlow, if_pos (hless.mpr hlow)]
    refine ⟨h.index, h.index_lt, rfl, le_rfl, ?_, ?_⟩
    · have hle := h.sourced_le
      dsimp only
      omega
    · intro i
      have hi := i.isLt
      dsimp only
      rw [get_overwrite_sourced, h.pool i]
      omega
  · rw [if_neg hlow, if_neg (hless.not.mpr hlow)]
    exact h

end PoolAccount.Describes

theorem forall_mem_slice (v : Vector TaggedByte 1024) (start count : ℕ) :
    (∀ b ∈ (v.toList.drop start).take count, b.sourced = true) ↔
      ∀ i : Fin 1024, start ≤ i.val → i.val < start + count → (v.get i).sourced = true := by
  constructor
  · intro h i hle hlt
    apply h
    rw [List.mem_iff_getElem?]
    refine ⟨i.val - start, ?_⟩
    rw [List.getElem?_take_of_lt (by omega), List.getElem?_drop, Nat.add_sub_cancel' hle,
      List.getElem?_eq_getElem (by rw [Vector.length_toList]; exact i.isLt), Vector.getElem_toList]
    rfl
  · intro h b hb
    obtain ⟨k, hk, rfl⟩ := List.getElem_of_mem hb
    have hlength := hk
    rw [List.length_take, List.length_drop, Vector.length_toList] at hlength
    rw [List.getElem_take, List.getElem_drop, Vector.getElem_toList]
    exact h ⟨start + k, by omega⟩ (by dsimp only; omega) (by dsimp only; omega)

/-! ## Calls and their account -/

namespace PoolAccount

theorem refill_index (a : PoolAccount) (len readLen : ℕ) :
    (a.refill len readLen).index = a.index := by
  rw [PoolAccount.refill]
  split_ifs
  · rfl
  · rfl

/-- There is entropy enough for a request that is no longer than the pool. -/
theorem le_refill (a : PoolAccount) {len : ℕ} (hlen : len ≤ 1024) (readLen : ℕ) :
    8 * len ≤ (a.refill len readLen).entropyBits := by
  rw [PoolAccount.refill]
  split_ifs with hlow
  · dsimp only
    omega
  · omega

end PoolAccount

section Request

variable (sha256 : List UInt8 → Bytes 32) {a : PoolAccount} {s : RngState TaggedByte}
  (h : a.Describes s) {len : UInt64} (read : List UInt8) (stack : ℕ → Bytes 1024)
include h

/-- A request that goes more than 32 bytes past the end of the pool hands out what the array on
the stack held. -/
theorem exists_stray (hfar : 1024 + 32 < s.poolIndex + len.toNat) :
    ∃ b ∈ (rngCopy (taggedOps sha256) s len (read.map sourcedByte)
      fun k => (stack k).map strayByte).buf, ¬b.sourced = true := by
  have hindex : s.poolIndex < 1024 := h.index ▸ h.index_lt
  have hhead := prefix_rngCopy (taggedOps sha256) hindex len (read.map sourcedByte)
    (fun k => (stack k).map strayByte) (by omega)
  by_contra hnone
  push Not at hnone
  have hslice := (forall_mem_slice _ 0 _).mp fun b hb =>
    hnone b (hhead.mem (List.mem_append_right _ hb))
  have hstray := hslice ⟨32, by decide⟩ (Nat.zero_le _) (by dsimp only; omega)
  rw [get_rehash_sourced] at hstray
  exact absurd hstray.1 (lt_irrefl 32)

/-- The bytes of a request that stays below the end of the pool. -/
theorem sourced_iff_of_lt (hlt : a.index + len.toNat < 1024) :
    (∀ b ∈ (rngCopy (taggedOps sha256) s len (read.map sourcedByte)
      fun k => (stack k).map strayByte).buf, b.sourced = true) ↔
      len.toNat = 0 ∨ a.index + len.toNat ≤ (a.refill len.toNat read.length).sourced := by
  have hrefill := h.refill (show len.toNat < 2 ^ 61 by omega) read
  rw [(rngCopy_of_lt (taggedOps sha256) _ _ (by rwa [h.index])).2, forall_mem_slice, h.index]
  constructor
  · intro hall
    by_cases hzero : len.toNat = 0
    · exact Or.inl hzero
    · have hlast := hall ⟨a.index + len.toNat - 1, by omega⟩ (by dsimp only; omega)
        (by dsimp only; omega)
      rw [hrefill.pool] at hlast
      dsimp only at hlast
      omega
  · intro hserved i hle hi
    rw [hrefill.pool]
    omega

/-- The bytes of a request that reaches the end of the pool. -/
theorem sourced_iff_of_ge (hge : 1024 ≤ a.index + len.toNat) (hlen : len.toNat ≤ 32) :
    (∀ b ∈ (rngCopy (taggedOps sha256) s len (read.map sourcedByte)
      fun k => (stack k).map strayByte).buf, b.sourced = true) ↔
      (a.refill len.toNat read.length).sourced = 1024 := by
  have hrefill := h.refill (show len.toNat < 2 ^ 61 by omega) read
  have hindex : s.poolIndex < 1024 := h.index ▸ h.index_lt
  have hle := hrefill.sourced_le
  have hlt := h.index_lt
  rw [rngCopy_buf_of_ge (taggedOps sha256) hindex _ _ _ (by rwa [h.index]) (by rw [h.index]; omega)]
  constructor
  · intro hall
    have hdrop : ((BankCrypto.refill s len (read.map sourcedByte)).pool.toList.drop
        s.poolIndex).take 1024 =
        (BankCrypto.refill s len (read.map sourcedByte)).pool.toList.drop s.poolIndex := by
      apply List.take_of_length_le
      rw [List.length_drop, Vector.length_toList]
      omega
    have hlast := (forall_mem_slice _ s.poolIndex 1024).mp (fun b hb => by
      rw [hdrop] at hb
      exact hall b (List.mem_append_left _ hb)) ⟨1023, by decide⟩ (by dsimp only; omega)
      (by dsimp only; omega)
    rw [hrefill.pool] at hlast
    dsimp only at hlast
    omega
  · intro hwhole b hb
    have hpool : ∀ i, ((BankCrypto.refill s len (read.map sourcedByte)).pool.get i).sourced =
        true := by
      intro i
      rw [hrefill.pool, hwhole]
      exact i.isLt
    rcases List.mem_append.mp hb with hold | hnew
    · obtain ⟨i, hi, rfl⟩ := Vector.mem_iff_getElem.mp
        (Vector.mem_toList_iff.mp (List.mem_of_mem_drop hold))
      exact hpool ⟨i, hi⟩
    · refine (forall_mem_slice _ 0 _).mpr ?_ b hnew
      intro i _ hi
      rw [get_rehash_sourced]
      refine ⟨?_, hpool⟩
      rw [h.index] at hi
      omega

/-- The entropy after the loop. -/
theorem entropyBits_rngCopy (hlen : len.toNat < 2 ^ 61) :
    (rngCopy (taggedOps sha256) s len (read.map sourcedByte)
      fun k => (stack k).map strayByte).rng.entropyBits.toNat =
      if 1024 ≤ a.index + len.toNat then 256
      else (a.refill len.toNat read.length).entropyBits := by
  have hindex : s.poolIndex < 1024 := h.index ▸ h.index_lt
  rw [rngCopy_entropyBits (taggedOps sha256) hindex, h.index, ← (h.refill hlen read).entropy]
  split_ifs
  · rfl
  · rfl

/-- A request takes no more entropy than there is if it stays below the end of the pool, or if it
is for at most 32 bytes. -/
theorem noUnderflow_iff (hlen : len.toNat < 2 ^ 61) :
    len * 8 ≤ (rngCopy (taggedOps sha256) s len (read.map sourcedByte)
        fun k => (stack k).map strayByte).rng.entropyBits ↔
      (1024 ≤ a.index + len.toNat → len.toNat ≤ 32) := by
  rw [UInt64.le_iff_toNat_le, toNat_mul_eight hlen, entropyBits_rngCopy sha256 h read stack hlen]
  split_ifs with hend
  · omega
  · have hle := a.le_refill (show len.toNat ≤ 1024 by omega) read.length
    exact iff_of_true hle fun hge => absurd hge hend

/-- A request is as expected exactly when the account serves it. -/
theorem callSafe_bytes_iff :
    CallSafe sha256 true s (tagCall (.bytes len read stack)) ↔
      (a.refill len.toNat read.length).Serves len.toNat := by
  have hindex : s.poolIndex < 1024 := h.index ▸ h.index_lt
  have hlt := h.index_lt
  rw [PoolAccount.Serves, PoolAccount.refill_index]
  constructor
  · intro hsafe
    have hnear : len.toNat ≤ 1024 + 32 := by
      by_contra hfar
      obtain ⟨b, hb, hstray⟩ := exists_stray sha256 h read stack
        (show 1024 + 32 < s.poolIndex + len.toNat by omega)
      exact hstray (hsafe.sourced b hb)
    have hentropy := (noUnderflow_iff sha256 h read stack (show len.toNat < 2 ^ 61 by omega)).mp
      (hsafe.noUnderflow rfl _ _ _ rfl)
    split_ifs with hbelow
    · exact (sourced_iff_of_lt sha256 h read stack hbelow).mp hsafe.sourced
    · have hlen := hentropy (by omega)
      exact ⟨hlen, (sourced_iff_of_ge sha256 h read stack (by omega) hlen).mp hsafe.sourced⟩
  · intro hserved
    have hlen : len.toNat < 1024 := by
      split_ifs at hserved
      · omega
      · omega
    have hsmall : len.toNat < 2 ^ 61 := by omega
    have hentropy := (noUnderflow_iff sha256 h read stack hsmall).mpr fun hge => by
      rw [if_neg (by omega)] at hserved
      exact hserved.1
    refine ⟨rngStep_index_lt _ _ hindex _, ?_, ?_, ?_⟩
    · change (rngCopy _ s len _ _).rng.entropyBits - len * 8 ≤ 8192
      rw [UInt64.le_iff_toNat_le, UInt64.toNat_sub_of_le _ _ hentropy,
        entropyBits_rngCopy sha256 h read stack hsmall]
      have hle := (h.refill hsmall read).entropy_le
      have hbound : (8192 : UInt64).toNat = 8192 := rfl
      rw [hbound]
      split_ifs
      · omega
      · omega
    · rintro _ len' read' stack' hcall
      cases hcall
      exact hentropy
    · split_ifs at hserved with hbelow
      · exact (sourced_iff_of_lt sha256 h read stack hbelow).mpr hserved
      · exact (sourced_iff_of_ge sha256 h read stack (by omega) hserved.1).mpr hserved.2

/-- The account of the state after a request that is served. -/
theorem describes_bytes (hserved : (a.refill len.toNat read.length).Serves len.toNat) :
    ((a.refill len.toNat read.length).serve len.toNat).Describes
      (rngStep (taggedOps sha256) true s (tagCall (.bytes len read stack))) := by
  have hindex : s.poolIndex < 1024 := h.index ▸ h.index_lt
  have hlt := h.index_lt
  have hsafe := (callSafe_bytes_iff sha256 h read stack).mpr hserved
  have hentropy := hsafe.noUnderflow rfl _ _ _ rfl
  rw [PoolAccount.Serves, PoolAccount.refill_index] at hserved
  have hlen : len.toNat < 1024 := by
    split_ifs at hserved
    · omega
    · omega
  have hrefill := h.refill (show len.toNat < 2 ^ 61 by omega) read
  have hleft : (rngStep (taggedOps sha256) true s
      (tagCall (.bytes len read stack))).entropyBits.toNat =
      (if 1024 ≤ a.index + len.toNat then 256
        else (a.refill len.toNat read.length).entropyBits) - 8 * len.toNat := by
    change ((rngCopy _ s len _ _).rng.entropyBits - len * 8).toNat = _
    rw [UInt64.toNat_sub_of_le _ _ hentropy, toNat_mul_eight (show len.toNat < 2 ^ 61 by omega),
      entropyBits_rngCopy sha256 h read stack (show len.toNat < 2 ^ 61 by omega)]
  have hle := hrefill.entropy_le
  have hsame := h.index
  rw [PoolAccount.serve, PoolAccount.refill_index]
  split_ifs at hserved ⊢ with hbelow
  · have hrng := (rngCopy_of_lt (taggedOps sha256) (read.map sourcedByte)
      (fun k => (stack k).map strayByte) (show s.poolIndex + len.toNat < 1024 by omega)).1
    rw [if_neg (by omega)] at hleft
    refine ⟨?_, hbelow, hleft, ?_, hrefill.sourced_le, ?_⟩
    · change (rngCopy _ s len _ _).rng.poolIndex = _
      rw [hrng, h.index]
    · dsimp only
      omega
    · change ∀ i, ((rngCopy _ s len _ _).rng.pool.get i).sourced = true ↔ _
      rw [hrng]
      exact hrefill.pool
  · have hrng := rngCopy_rng_of_ge (taggedOps sha256) hindex len (read.map sourcedByte)
      (fun k => (stack k).map strayByte) (by omega) (by omega)
    rw [if_pos (by omega)] at hleft
    refine ⟨?_, ?_, hleft, ?_, ?_, ?_⟩
    · change (rngCopy _ s len _ _).rng.poolIndex = _
      rw [hrng, h.index]
    · dsimp only
      omega
    · dsimp only
      omega
    · change 32 ≤ 1024
      decide
    · change ∀ i, ((rngCopy _ s len _ _).rng.pool.get i).sourced = true ↔ _
      rw [hrng]
      intro i
      rw [get_rehash_sourced]
      refine and_iff_left fun j => ?_
      rw [hrefill.pool, hserved.2]
      exact j.isLt

end Request

/-! ## Runs and their account -/

section Run

variable (sha256 : List UInt8 → Bytes 32) (libraryInitialized : Bool)

theorem toNat_addEntropy {e : UInt64} {toAdd : ℕ} (he : e.toNat ≤ 8192) (hadd : toAdd ≤ 1024) :
    (if 1024 * 8 < e + UInt64.ofNat toAdd * 8 then 1024 * 8
      else e + UInt64.ofNat toAdd * 8).toNat = min 8192 (e.toNat + 8 * toAdd) := by
  have height : (8 : UInt64).toNat = 8 := rfl
  have hbound : (1024 * 8 : UInt64).toNat = 8192 := rfl
  have hsum : (e + UInt64.ofNat toAdd * 8).toNat = e.toNat + 8 * toAdd := by
    rw [UInt64.toNat_add, UInt64.toNat_mul, UInt64.toNat_ofNat', height]
    omega
  split_ifs with hmore
  · rw [UInt64.lt_iff_toNat_lt, hsum, hbound] at hmore
    rw [hbound]
    omega
  · rw [UInt64.lt_iff_toNat_lt, hsum, hbound] at hmore
    rw [hsum]
    omega

theorem get_ofFn (f : Fin 1024 → TaggedByte) (i : Fin 1024) : (Vector.ofFn f).get i = f i :=
  Vector.getElem_ofFn i.isLt

theorem describes_addEntropy {a : PoolAccount} {s : RngState TaggedByte} (h : a.Describes s)
    (data : List UInt8) :
    (a.step true (.addEntropy data)).Describes
      (rngStep (taggedOps sha256) true s (tagCall (.addEntropy data))) := by
  have hle := h.entropy_le
  rw [tagCall, rngStep, rngAddEntropy, List.length_map]
  by_cases hnone : true = false ∨ data.length = 0
  · have hempty : data.length = 0 := hnone.resolve_left (by decide)
    rw [if_pos hnone]
    refine ⟨h.index, h.index_lt, ?_, Nat.min_le_left _ _, h.sourced_le, h.pool⟩
    change _ = min 8192 (a.entropyBits + 8 * data.length)
    rw [h.entropy, hempty]
    omega
  · have hadd : (if data.length < 1024 then data.length else 1024) = min data.length 1024 := by
      split_ifs
      · omega
      · omega
    rw [if_neg hnone, hadd]
    refine ⟨h.index, h.index_lt, ?_, Nat.min_le_left _ _, h.sourced_le, ?_⟩
    · dsimp only
      rw [toNat_addEntropy (h.entropy ▸ hle) (Nat.min_le_right _ _), h.entropy]
      change _ = min 8192 (a.entropyBits + 8 * data.length)
      omega
    · intro i
      refine Iff.trans ?_ (h.pool i)
      dsimp only
      rw [get_ofFn]
      split_ifs with hadded
      · rw [List.getD_eq_getElem _ _ (by rw [List.length_map]; omega), List.getElem_map, taggedOps]
        exact iff_of_eq (congrArg (· = true) (Bool.and_true _))
      · exact Iff.rfl

/-- The account of the state after a call that it allows. -/
theorem describes_step {a : PoolAccount} {s : RngState TaggedByte} (h : a.Describes s)
    (call : RngCall UInt8) (hallows : a.Allows libraryInitialized call) :
    (a.step libraryInitialized call).Describes
      (rngStep (taggedOps sha256) libraryInitialized s (tagCall call)) := by
  cases libraryInitialized with
  | false =>
    cases call with
    | bytes len read stack => exact h
    | reseed stack read => exact h
    | addEntropy data => exact h
  | true =>
    cases call with
    | bytes len read stack => exact describes_bytes sha256 h read stack (hallows rfl)
    | reseed stack read =>
      refine ⟨h.index, h.index_lt, rfl, le_rfl, (Nat.min_le_left _ _).trans h.sourced_le, ?_⟩
      intro i
      have hget : (rngStep (taggedOps sha256) true s (tagCall (.reseed stack read))).pool.get i =
          (taggedOps sha256).xor (s.pool.get i)
            ((overwrite (stack.map strayByte) (read.map sourcedByte)).get i) :=
        Vector.getElem_zipWith i.isLt
      have hstray : ¬((stack.map strayByte).get i).sourced = true := by
        rw [get_map]
        exact Bool.false_ne_true
      rw [hget, taggedOps]
      dsimp only
      rw [Bool.and_eq_true, h.pool, get_overwrite_sourced, or_iff_left hstray]
      exact lt_min_iff.symm
    | addEntropy data => exact describes_addEntropy sha256 h data

/-- A call is as expected exactly when the account allows it. -/
theorem callSafe_iff {a : PoolAccount} {s : RngState TaggedByte} (h : a.Describes s)
    (call : RngCall UInt8) :
    CallSafe sha256 libraryInitialized s (tagCall call) ↔ a.Allows libraryInitialized call := by
  have hquiet : a.Allows libraryInitialized call →
      handedOut (taggedOps sha256) libraryInitialized s (tagCall call) = [] →
      (libraryInitialized = true → ∀ len read stack, tagCall call ≠ .bytes len read stack) →
      CallSafe sha256 libraryInitialized s (tagCall call) := by
    intro hallows hnone hnot
    have hnext := describes_step sha256 libraryInitialized h call hallows
    refine ⟨hnext.index ▸ hnext.index_lt, hnext.entropyBits_le, ?_, ?_⟩
    · intro hinit len read stack hcall
      exact absurd hcall (hnot hinit len read stack)
    · intro b hb
      rw [hnone] at hb
      cases hb
  cases call with
  | bytes len read stack =>
    cases libraryInitialized with
    | false =>
      have hallows : a.Allows false (.bytes len read stack) := fun hinit => by cases hinit
      exact iff_of_true (hquiet hallows rfl fun hinit => by cases hinit) hallows
    | true =>
      rw [callSafe_bytes_iff sha256 h read stack]
      exact ⟨fun hserved _ => hserved, fun hallows => hallows rfl⟩
  | reseed stack read =>
    exact iff_of_true (hquiet trivial rfl fun _ _ _ _ hcall => by cases hcall) trivial
  | addEntropy data =>
    exact iff_of_true (hquiet trivial rfl fun _ _ _ _ hcall => by cases hcall) trivial

end Run

/-- A run is as expected exactly when its account allows each of its calls. -/
theorem rngRun_safe_iff (sha256 : List UInt8 → Bytes 32) (libraryInitialized : Bool)
    (s : RngState UInt8) (read : List UInt8) (calls : List (RngCall UInt8)) :
    RngRunSafe sha256 libraryInitialized (tagStart s read) (calls.map tagCall) ↔
      Runs.Along (PoolAccount.step libraryInitialized) (PoolAccount.Allows libraryInitialized)
        (PoolAccount.start read.length) calls := by
  have hstart := PoolAccount.Describes.of_start s read
  rw [← Runs.along_iff_of_simulation (fun s a => PoolAccount.Describes a s) tagCall
    (fun _ _ call h => callSafe_iff sha256 libraryInitialized h call)
    (fun _ _ call h hallows => describes_step sha256 libraryInitialized h call hallows) calls
    hstart]
  constructor
  · intro hsafe
    exact hsafe.along
  · intro halong
    exact ⟨hstart.index ▸ hstart.index_lt, hstart.entropyBits_le, halong,
      accessLog_noReuse _ _ (hstart.index ▸ hstart.index_lt) _⟩

/-- One request for 1100 bytes after an initialisation, with a platform source that delivers all
that it is asked for. -/
theorem rngRun_not_safe :
    ¬RngRunSafe sourcePrimitives.sha256 true
      (tagStart ⟨zeroBytes 1024, 0, 0⟩ (List.replicate 1024 0x5a))
      ([.bytes 1100 (List.replicate 1024 0xa5) fun _ => zeroBytes 1024].map tagCall) := by
  intro hsafe
  have hstart := PoolAccount.Describes.of_start ⟨zeroBytes 1024, 0, 0⟩ (List.replicate 1024 0x5a)
  have hallows := (callSafe_iff sourcePrimitives.sha256 true hstart _).mp hsafe.along.1
  have hserved := hallows rfl
  have hlen : (1100 : UInt64).toNat = 1100 := rfl
  have hindex : (PoolAccount.start (List.replicate 1024 (0x5a : UInt8)).length).index = 0 := rfl
  rw [PoolAccount.Serves, PoolAccount.refill_index, hindex, hlen, if_neg (by decide)] at hserved
  exact absurd hserved.1 (by decide)

end Blackstone.BankCrypto
