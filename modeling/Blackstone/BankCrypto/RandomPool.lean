import Blackstone.BankCrypto.Context
import Blackstone.Library.Runs
import Mathlib.Data.List.GetD

/-!
# The random pool

`rng/bank_rng_init.cpp`, `bank_rng_random.cpp` and `bank_rng_entropy.cpp`, generic in what a byte
of the pool is: the functions on `UInt8` are those of the source, and bytes with a note on where
they come from go through the same functions (`rngStep_map`). What the platform source delivers,
and what an array on the stack holds before it is written, are inputs of a call.

The index stays in the pool (`rngStep_index_lt`), a request is served in full
(`rngCopy_remaining`), and no byte of the pool is handed out twice between two
refreshes (`accessLog_noReuse`).
-/

namespace Blackstone.BankCrypto

/-- SHA-256 and the exclusive or, on any kind of bytes. -/
structure ByteOps (α : Type) where
  sha256 : List α → Vector α 32
  xor : α → α → α

/-- `bank_rng_state`. -/
structure RngState (α : Type) where
  pool : Vector α 1024
  poolIndex : ℕ
  entropyBits : UInt64

/-- An access to the pool: the bytes that a request copies out of it, or the step that makes a new
pool of the old one. -/
inductive PoolAccess where
  | handOut (start count : ℕ)
  | refresh

/-- A call of one of the three functions. `read` are the bytes that the platform source delivers,
fewer than asked for when it fails, and `stack` is what an array holds before it is written. The
array of `bank_rng_bytes` has such contents for each time the pool is hashed. A null pointer of
`bank_rng_add_entropy` is no data. -/
inductive RngCall (α : Type) where
  | bytes (len : UInt64) (read : List α) (stack : ℕ → Vector α 1024)
  | reseed (stack : Vector α 1024) (read : List α)
  | addEntropy (data : List α)

variable {α : Type}

/-- A buffer after a read that delivers `bytes`. -/
def overwrite (buffer : Vector α 1024) (bytes : List α) : Vector α 1024 :=
  Vector.ofFn fun i => bytes.getD i.val (buffer.get i)

/-- `bank_rng_init`. -/
def rngInit (s : RngState α) (read : List α) : RngState α where
  pool := overwrite s.pool read
  poolIndex := 0
  entropyBits := 1024 * 8

/-! ## Requests -/

/-- The variables of the loop of `bank_rng_bytes`, the number of times that it has hashed the pool,
and its accesses. -/
structure CopyLoop (α : Type) where
  rng : RngState α
  remaining : ℕ
  buf : List α
  rehashes : ℕ
  accesses : List PoolAccess

/-- The start of `bank_rng_bytes`. -/
def refill (s : RngState α) (len : UInt64) (read : List α) : RngState α :=
  if s.entropyBits < len * 8 then
    { s with pool := overwrite s.pool read, entropyBits := 1024 * 8 }
  else s

section Code

variable (ops : ByteOps α)

/-- The end of the pool is reached: the digest is 32 bytes, and all of `new_pool` is copied. -/
def rehash (s : RngState α) (newPool : Vector α 1024) : RngState α where
  pool := overwrite newPool (ops.sha256 s.pool.toList).toList
  poolIndex := 0
  entropyBits := 32 * 8

/-- The body of the loop up to the `if`. -/
def copyOut (c : CopyLoop α) : CopyLoop α :=
  let toCopy := if 1024 - c.rng.poolIndex < c.remaining then 1024 - c.rng.poolIndex
    else c.remaining
  { c with
    rng := { c.rng with poolIndex := c.rng.poolIndex + toCopy }
    remaining := c.remaining - toCopy
    buf := c.buf ++ (c.rng.pool.toList.drop c.rng.poolIndex).take toCopy
    accesses := c.accesses ++ [.handOut c.rng.poolIndex toCopy] }

/-- The body of the loop. -/
def copyRound (stack : ℕ → Vector α 1024) (c : CopyLoop α) : CopyLoop α :=
  let c := copyOut c
  if 1024 ≤ c.rng.poolIndex then
    { c with
      rng := rehash ops c.rng (stack c.rehashes)
      rehashes := c.rehashes + 1
      accesses := c.accesses ++ [.refresh] }
  else c

/-- The loop, for at most `fuel` rounds. -/
def copyLoop (stack : ℕ → Vector α 1024) : ℕ → CopyLoop α → CopyLoop α
  | 0, c => c
  | fuel + 1, c => if c.remaining = 0 then c else copyLoop stack fuel (copyRound ops stack c)

/-- `bank_rng_bytes` up to the end of its loop. -/
def rngCopy (s : RngState α) (len : UInt64) (read : List α) (stack : ℕ → Vector α 1024) :
    CopyLoop α :=
  copyLoop ops stack len.toNat ⟨refill s len read, len.toNat, [], 0, []⟩

/-- `bank_rng_bytes`: the state after it, what it returns, and what it writes to `buf`. -/
def rngBytes (libraryInitialized : Bool) (s : RngState α) (len : UInt64) (read : List α)
    (stack : ℕ → Vector α 1024) : RngState α × Bool × List α :=
  if libraryInitialized then
    let c := rngCopy ops s len read stack
    ({ c.rng with entropyBits := c.rng.entropyBits - len * 8 }, true, c.buf)
  else (s, false, [])

/-! ## Entropy -/

/-- `bank_rng_reseed`. -/
def rngReseed (libraryInitialized : Bool) (s : RngState α) (newEntropy : Vector α 1024)
    (read : List α) : RngState α :=
  if libraryInitialized then
    { s with
      pool := Vector.zipWith ops.xor s.pool (overwrite newEntropy read)
      entropyBits := 1024 * 8 }
  else s

/-- `bank_rng_add_entropy`. -/
def rngAddEntropy (libraryInitialized : Bool) (s : RngState α) (data : List α) : RngState α :=
  if libraryInitialized = false ∨ data.length = 0 then s
  else
    let toAdd := if data.length < 1024 then data.length else 1024
    let entropyBits := s.entropyBits + UInt64.ofNat toAdd * 8
    { s with
      pool := Vector.ofFn fun i =>
        if i.val < toAdd then ops.xor (s.pool.get i) (data.getD i.val (s.pool.get i))
        else s.pool.get i
      entropyBits := if 1024 * 8 < entropyBits then 1024 * 8 else entropyBits }

/-- A call. -/
def rngStep (libraryInitialized : Bool) (s : RngState α) : RngCall α → RngState α
  | .bytes len read stack => (rngBytes ops libraryInitialized s len read stack).1
  | .reseed stack read => rngReseed ops libraryInitialized s stack read
  | .addEntropy data => rngAddEntropy ops libraryInitialized s data

/-- What a call hands out. -/
def handedOut (libraryInitialized : Bool) (s : RngState α) : RngCall α → List α
  | .bytes len read stack => (rngBytes ops libraryInitialized s len read stack).2.2
  | .reseed _ _ => []
  | .addEntropy _ => []

/-- The accesses of a call to the pool. -/
def accesses (libraryInitialized : Bool) (s : RngState α) : RngCall α → List PoolAccess
  | .bytes len read stack =>
    if libraryInitialized then (rngCopy ops s len read stack).accesses else []
  | .reseed _ _ => []
  | .addEntropy _ => []

/-- The accesses of a run. -/
def accessLog (libraryInitialized : Bool) : RngState α → List (RngCall α) → List PoolAccess
  | _, [] => []
  | s, call :: calls => accesses ops libraryInitialized s call ++
      accessLog libraryInitialized (rngStep ops libraryInitialized s call) calls

end Code

/-! ## The positions handed out -/

/-- The positions that were handed out since the last refresh. -/
def takenAfter (taken : ℕ → Prop) : PoolAccess → ℕ → Prop
  | .handOut start count => fun i => taken i ∨ start ≤ i ∧ i < start + count
  | .refresh => fun _ => False

/-- An access hands out no position a second time. -/
def FreshAccess (taken : ℕ → Prop) : PoolAccess → Prop
  | .handOut start count => ∀ i, start ≤ i → i < start + count → ¬taken i
  | .refresh => True

/-- Between two refreshes no position is handed out twice. -/
def NoReuse (accesses : List PoolAccess) : Prop :=
  Runs.Along takenAfter FreshAccess (fun _ => False) accesses

/-! ## The loop -/

section Loop

variable (ops : ByteOps α) (stack : ℕ → Vector α 1024)

theorem copyLoop_of_done {c : CopyLoop α} (hdone : c.remaining = 0) (fuel : ℕ) :
    copyLoop ops stack fuel c = c := by
  cases fuel with
  | zero => rfl
  | succ fuel => exact if_pos hdone

theorem copyLoop_succ {c : CopyLoop α} (hmore : c.remaining ≠ 0) (fuel : ℕ) :
    copyLoop ops stack (fuel + 1) c = copyLoop ops stack fuel (copyRound ops stack c) :=
  if_neg hmore

/-- A round that stays below the end of the pool is the last one. -/
theorem copyRound_of_lt {c : CopyLoop α} (hlt : c.rng.poolIndex + c.remaining < 1024) :
    copyRound ops stack c =
      { c with
        rng := { c.rng with poolIndex := c.rng.poolIndex + c.remaining }
        remaining := 0
        buf := c.buf ++ (c.rng.pool.toList.drop c.rng.poolIndex).take c.remaining
        accesses := c.accesses ++ [.handOut c.rng.poolIndex c.remaining] } := by
  have hcopy : (if 1024 - c.rng.poolIndex < c.remaining then 1024 - c.rng.poolIndex
      else c.remaining) = c.remaining := if_neg (by omega)
  rw [copyRound, copyOut, hcopy]
  dsimp only
  rw [if_neg (by omega), Nat.sub_self]

/-- A round that reaches the end hands out the rest of the pool and hashes it. -/
theorem copyRound_of_ge {c : CopyLoop α} (hindex : c.rng.poolIndex < 1024)
    (hge : 1024 ≤ c.rng.poolIndex + c.remaining) :
    copyRound ops stack c =
      { rng := rehash ops c.rng (stack c.rehashes)
        remaining := c.remaining - (1024 - c.rng.poolIndex)
        buf := c.buf ++ c.rng.pool.toList.drop c.rng.poolIndex
        rehashes := c.rehashes + 1
        accesses :=
          c.accesses ++ [.handOut c.rng.poolIndex (1024 - c.rng.poolIndex), .refresh] } := by
  have hcopy : (if 1024 - c.rng.poolIndex < c.remaining then 1024 - c.rng.poolIndex
      else c.remaining) = 1024 - c.rng.poolIndex := by
    split_ifs
    · rfl
    · omega
  have hrest : (c.rng.pool.toList.drop c.rng.poolIndex).take (1024 - c.rng.poolIndex) =
      c.rng.pool.toList.drop c.rng.poolIndex := by
    apply List.take_of_length_le
    rw [List.length_drop, Vector.length_toList]
  rw [copyRound, copyOut, hcopy]
  dsimp only
  rw [if_pos (by omega), hrest, List.append_assoc]
  rfl

/-- What every round keeps: the index is in the pool. -/
theorem copyRound_index_lt {c : CopyLoop α} (hindex : c.rng.poolIndex < 1024) :
    (copyRound ops stack c).rng.poolIndex < 1024 := by
  rcases Nat.lt_or_ge (c.rng.poolIndex + c.remaining) 1024 with hlt | hge
  · rw [copyRound_of_lt ops stack hlt]
    exact hlt
  · rw [copyRound_of_ge ops stack hindex hge]
    exact Nat.succ_pos 1023

/-- Every round copies something. -/
theorem copyRound_remaining_lt {c : CopyLoop α} (hindex : c.rng.poolIndex < 1024)
    (hmore : c.remaining ≠ 0) : (copyRound ops stack c).remaining < c.remaining := by
  rcases Nat.lt_or_ge (c.rng.poolIndex + c.remaining) 1024 with hlt | hge
  · rw [copyRound_of_lt ops stack hlt]
    exact Nat.pos_of_ne_zero hmore
  · rw [copyRound_of_ge ops stack hindex hge]
    dsimp only
    omega

/-- The rule of the loop: what holds at first and is kept by every round holds at the end, where
nothing remains. -/
theorem copyLoop_spec (Inv : CopyLoop α → Prop)
    (hround : ∀ c, c.rng.poolIndex < 1024 → c.remaining ≠ 0 → Inv c → Inv (copyRound ops stack c))
    {c : CopyLoop α} {fuel : ℕ} (hfuel : c.remaining ≤ fuel) (hindex : c.rng.poolIndex < 1024)
    (hinv : Inv c) :
    Inv (copyLoop ops stack fuel c) ∧ (copyLoop ops stack fuel c).remaining = 0 ∧
      (copyLoop ops stack fuel c).rng.poolIndex < 1024 := by
  induction fuel generalizing c with
  | zero => exact ⟨hinv, Nat.le_zero.mp hfuel, hindex⟩
  | succ fuel ih =>
    by_cases hdone : c.remaining = 0
    · rw [copyLoop_of_done ops stack hdone]
      exact ⟨hinv, hdone, hindex⟩
    · have hlt := copyRound_remaining_lt ops stack hindex hdone
      rw [copyLoop_succ ops stack hdone]
      exact ih (by omega) (copyRound_index_lt ops stack hindex) (hround c hindex hdone hinv)

/-- What the loop hands out is only added to. -/
theorem prefix_copyRound (c : CopyLoop α) : c.buf <+: (copyRound ops stack c).buf := by
  have hbuf : (copyRound ops stack c).buf = (copyOut c).buf := by
    rw [copyRound]
    split_ifs
    · rfl
    · rfl
  rw [hbuf]
  exact List.prefix_append _ _

/-- The last round. -/
theorem copyLoop_of_lt {c : CopyLoop α} {fuel : ℕ}
    (hlt : c.rng.poolIndex + c.remaining < 1024) (hfuel : c.remaining ≤ fuel) :
    (copyLoop ops stack fuel c).rng =
        { c.rng with poolIndex := c.rng.poolIndex + c.remaining } ∧
      (copyLoop ops stack fuel c).buf =
        c.buf ++ (c.rng.pool.toList.drop c.rng.poolIndex).take c.remaining := by
  by_cases hdone : c.remaining = 0
  · rw [copyLoop_of_done ops stack hdone, hdone, List.take_zero, List.append_nil]
    exact ⟨rfl, rfl⟩
  · obtain ⟨fuel, rfl⟩ := Nat.exists_eq_succ_of_ne_zero (show fuel ≠ 0 by omega)
    rw [copyLoop_succ ops stack hdone, copyRound_of_lt ops stack hlt]
    rw [copyLoop_of_done ops stack rfl]
    exact ⟨rfl, rfl⟩

end Loop

/-! ## Requests as a whole -/

theorem refill_poolIndex (s : RngState α) (len : UInt64) (read : List α) :
    (refill s len read).poolIndex = s.poolIndex := by
  rw [refill]
  split_ifs
  · rfl
  · rfl

theorem rngAddEntropy_poolIndex (ops : ByteOps α) (libraryInitialized : Bool) (s : RngState α)
    (data : List α) :
    (rngAddEntropy ops libraryInitialized s data).poolIndex = s.poolIndex := by
  by_cases hnone : libraryInitialized = false ∨ data.length = 0
  · rw [rngAddEntropy, if_pos hnone]
  · rw [rngAddEntropy, if_neg hnone]

/-- A request that ends before the end of the pool. -/
theorem rngCopy_of_lt (ops : ByteOps α) {s : RngState α} {len : UInt64} (read : List α)
    (stack : ℕ → Vector α 1024) (hlt : s.poolIndex + len.toNat < 1024) :
    (rngCopy ops s len read stack).rng =
        { refill s len read with poolIndex := s.poolIndex + len.toNat } ∧
      (rngCopy ops s len read stack).buf =
        ((refill s len read).pool.toList.drop s.poolIndex).take len.toNat := by
  have hstart := refill_poolIndex s len read
  have hlast := copyLoop_of_lt ops stack (c := ⟨refill s len read, len.toNat, [], 0, []⟩)
    (by rwa [hstart]) (le_refl len.toNat)
  rw [hstart] at hlast
  exact hlast

/-- The variables of the loop when the pool was hashed for the first time. -/
def rehashedLoop (ops : ByteOps α) (s : RngState α) (len : UInt64) (read : List α)
    (stack : ℕ → Vector α 1024) : CopyLoop α where
  rng := rehash ops (refill s len read) (stack 0)
  remaining := s.poolIndex + len.toNat - 1024
  buf := (refill s len read).pool.toList.drop s.poolIndex
  rehashes := 1
  accesses := [.handOut s.poolIndex (1024 - s.poolIndex), .refresh]

section Request

variable (ops : ByteOps α) {s : RngState α} (hindex : s.poolIndex < 1024) (len : UInt64)
  (read : List α) (stack : ℕ → Vector α 1024)
include hindex

theorem rngCopy_spec (Inv : CopyLoop α → Prop)
    (hround : ∀ c, c.rng.poolIndex < 1024 → c.remaining ≠ 0 → Inv c → Inv (copyRound ops stack c))
    (hinv : Inv ⟨refill s len read, len.toNat, [], 0, []⟩) :
    Inv (rngCopy ops s len read stack) ∧ (rngCopy ops s len read stack).remaining = 0 ∧
      (rngCopy ops s len read stack).rng.poolIndex < 1024 := by
  apply copyLoop_spec ops stack Inv hround le_rfl _ hinv
  change (refill s len read).poolIndex < 1024
  rwa [refill_poolIndex]

/-- The loop ends, and the request is served in full. -/
theorem length_rngCopy : (rngCopy ops s len read stack).buf.length = len.toNat := by
  have hspec := rngCopy_spec ops hindex len read stack
    (fun c => c.buf.length + c.remaining = len.toNat) ?_ (Nat.zero_add _)
  · obtain ⟨hlength, hdone, -⟩ := hspec
    rwa [hdone] at hlength
  · intro c hc _ hlength
    have hslice : (c.rng.pool.toList.drop c.rng.poolIndex).length = 1024 - c.rng.poolIndex := by
      rw [List.length_drop, Vector.length_toList]
    rcases Nat.lt_or_ge (c.rng.poolIndex + c.remaining) 1024 with hlt | hge
    · rw [copyRound_of_lt ops stack hlt]
      dsimp only
      rw [List.length_append, List.length_take, hslice]
      omega
    · rw [copyRound_of_ge ops stack hc hge]
      dsimp only
      rw [List.length_append, hslice]
      omega

theorem rngCopy_index_lt : (rngCopy ops s len read stack).rng.poolIndex < 1024 :=
  (rngCopy_spec ops hindex len read stack (fun _ => True) (fun _ _ _ _ => trivial) trivial).2.2

/-- The entropy is counted anew as soon as the end of the pool is reached. -/
theorem rngCopy_entropyBits :
    (rngCopy ops s len read stack).rng.entropyBits =
      if 1024 ≤ s.poolIndex + len.toNat then 32 * 8 else (refill s len read).entropyBits := by
  have hspec := rngCopy_spec ops hindex len read stack
    (fun c => c.rng.entropyBits = (refill s len read).entropyBits ∧
      c.rng.poolIndex + c.remaining = s.poolIndex + len.toNat ∨
        c.rng.entropyBits = 32 * 8 ∧ 1024 ≤ s.poolIndex + len.toNat) ?_ ?_
  · obtain ⟨⟨hentropy, hsum⟩ | ⟨hentropy, hge⟩, hdone, hlt⟩ := hspec
    · rw [hentropy, if_neg (by omega)]
    · rw [hentropy, if_pos hge]
  · rintro c hc hmore hinv
    rcases Nat.lt_or_ge (c.rng.poolIndex + c.remaining) 1024 with hlt | hge
    · rw [copyRound_of_lt ops stack hlt]
      exact hinv
    · rw [copyRound_of_ge ops stack hc hge]
      refine Or.inr ⟨rfl, ?_⟩
      obtain ⟨-, hsum⟩ | ⟨-, hge'⟩ := hinv
      · omega
      · exact hge'
  · exact Or.inl ⟨rfl, by rw [refill_poolIndex]⟩

section Rehash

variable (hge : 1024 ≤ s.poolIndex + len.toNat)
include hge

theorem rngCopy_eq_copyLoop :
    ∃ fuel, s.poolIndex + len.toNat - 1024 ≤ fuel ∧
      rngCopy ops s len read stack =
        copyLoop ops stack fuel (rehashedLoop ops s len read stack) := by
  have hstart := refill_poolIndex s len read
  obtain ⟨fuel, hfuel⟩ := Nat.exists_eq_succ_of_ne_zero (show len.toNat ≠ 0 by omega)
  refine ⟨fuel, by omega, ?_⟩
  have hrest : len.toNat - (1024 - s.poolIndex) = s.poolIndex + len.toNat - 1024 := by omega
  rw [rngCopy, hfuel, copyLoop_succ ops stack (Nat.succ_ne_zero fuel), ← hfuel,
    copyRound_of_ge ops stack (by rwa [hstart]) (by rwa [hstart]), rehashedLoop]
  dsimp only
  rw [hstart, hrest]
  rfl

/-- A request that goes past the end of the pool once. -/
theorem rngCopy_rng_of_ge (honce : s.poolIndex + len.toNat < 2048) :
    (rngCopy ops s len read stack).rng =
      { rehash ops (refill s len read) (stack 0) with
        poolIndex := s.poolIndex + len.toNat - 1024 } := by
  obtain ⟨fuel, hfuel, hrun⟩ := rngCopy_eq_copyLoop ops hindex len read stack hge
  have hlt : (rehashedLoop ops s len read stack).rng.poolIndex +
      (rehashedLoop ops s len read stack).remaining < 1024 := by
    change 0 + (s.poolIndex + len.toNat - 1024) < 1024
    omega
  rw [hrun, (copyLoop_of_lt ops stack hlt hfuel).1]
  change RngState.mk _ (0 + (s.poolIndex + len.toNat - 1024)) _ = _
  rw [Nat.zero_add]
  rfl

/-- It hands out the rest of the pool and the start of the new one. -/
theorem prefix_rngCopy :
    (refill s len read).pool.toList.drop s.poolIndex ++
        (rehash ops (refill s len read) (stack 0)).pool.toList.take
          (s.poolIndex + len.toNat - 1024) <+:
      (rngCopy ops s len read stack).buf := by
  obtain ⟨fuel, hfuel, hrun⟩ := rngCopy_eq_copyLoop ops hindex len read stack hge
  have hstart : (rehashedLoop ops s len read stack).rng.poolIndex = 0 := rfl
  have hrest : (rehashedLoop ops s len read stack).remaining =
      s.poolIndex + len.toNat - 1024 := rfl
  rw [hrun]
  rcases Nat.lt_or_ge (s.poolIndex + len.toNat) 2048 with honce | htwice
  · have hlast := copyLoop_of_lt ops stack (c := rehashedLoop ops s len read stack)
      (by rw [hstart, hrest]; omega) hfuel
    rw [hlast.2]
    exact List.prefix_rfl
  · obtain ⟨fuel, rfl⟩ := Nat.exists_eq_succ_of_ne_zero (show fuel ≠ 0 by omega)
    rw [copyLoop_succ ops stack (by rw [hrest]; omega)]
    have hround := copyRound_of_ge ops stack (c := rehashedLoop ops s len read stack)
      (by rw [hstart]; decide) (by rw [hstart, hrest]; omega)
    have hbuf : (copyRound ops stack (rehashedLoop ops s len read stack)).buf =
        (refill s len read).pool.toList.drop s.poolIndex ++
          (rehash ops (refill s len read) (stack 0)).pool.toList := by
      rw [hround]
      rfl
    have hremaining : (copyRound ops stack (rehashedLoop ops s len read stack)).remaining ≤
        fuel := by
      have hless := copyRound_remaining_lt ops stack (c := rehashedLoop ops s len read stack)
        (by rw [hstart]; decide) (by rw [hrest]; omega)
      rw [hrest] at hless
      omega
    have hkept := (copyLoop_spec ops stack
      (fun c => (copyRound ops stack (rehashedLoop ops s len read stack)).buf <+: c.buf)
      (fun c _ _ hc => hc.trans (prefix_copyRound ops stack c)) hremaining
      (copyRound_index_lt ops stack (by rw [hstart]; decide)) List.prefix_rfl).1
    refine List.IsPrefix.trans ?_ hkept
    rw [hbuf, List.take_of_length_le (by rw [Vector.length_toList]; omega)]

theorem rngCopy_buf_of_ge (honce : s.poolIndex + len.toNat < 2048) :
    (rngCopy ops s len read stack).buf =
      (refill s len read).pool.toList.drop s.poolIndex ++
        (rehash ops (refill s len read) (stack 0)).pool.toList.take
          (s.poolIndex + len.toNat - 1024) := by
  have hhead := prefix_rngCopy ops hindex len read stack hge
  refine (hhead.eq_of_length ?_).symm
  rw [length_rngCopy ops hindex, List.length_append, List.length_drop, List.length_take,
    Vector.length_toList, Vector.length_toList]
  omega

end Rehash

end Request

/-- Between calls the index is in the pool. -/
theorem rngStep_index_lt (ops : ByteOps α) (libraryInitialized : Bool) {s : RngState α}
    (hindex : s.poolIndex < 1024) (call : RngCall α) :
    (rngStep ops libraryInitialized s call).poolIndex < 1024 := by
  cases call with
  | bytes len read stack =>
    cases libraryInitialized with
    | false => exact hindex
    | true => exact rngCopy_index_lt ops hindex len read stack
  | reseed stack read =>
    cases libraryInitialized with
    | false => exact hindex
    | true => exact hindex
  | addEntropy data =>
    rw [rngStep, rngAddEntropy_poolIndex]
    exact hindex

/-! ## No byte twice -/

section Reuse

variable (ops : ByteOps α) (libraryInitialized : Bool)

/-- What was handed out since the last refresh lies before the index. -/
theorem rngCopy_fresh {s : RngState α} (hindex : s.poolIndex < 1024) {taken : ℕ → Prop}
    (htaken : ∀ i, taken i → i < s.poolIndex) (len : UInt64) (read : List α)
    (stack : ℕ → Vector α 1024) :
    Runs.Along takenAfter FreshAccess taken (rngCopy ops s len read stack).accesses ∧
      ∀ i, Runs.run takenAfter taken (rngCopy ops s len read stack).accesses i →
        i < (rngCopy ops s len read stack).rng.poolIndex := by
  refine (rngCopy_spec ops hindex len read stack
    (fun c => Runs.Along takenAfter FreshAccess taken c.accesses ∧
      ∀ i, Runs.run takenAfter taken c.accesses i → i < c.rng.poolIndex) ?_ ?_).1
  · rintro c hc - ⟨hfresh, hbefore⟩
    have hnew : ∀ count, FreshAccess (Runs.run takenAfter taken c.accesses)
        (.handOut c.rng.poolIndex count) := by
      intro count i hle _ hold
      exact absurd (hbefore i hold) (by omega)
    rcases Nat.lt_or_ge (c.rng.poolIndex + c.remaining) 1024 with hlt | hge
    · rw [copyRound_of_lt ops stack hlt]
      refine ⟨Runs.along_append.mpr ⟨hfresh, hnew _, trivial⟩, ?_⟩
      intro i hi
      rw [Runs.run, List.foldl_append] at hi
      obtain hold | ⟨-, hnow⟩ := hi
      · exact (hbefore i hold).trans_le (Nat.le_add_right _ _)
      · exact hnow
    · rw [copyRound_of_ge ops stack hc hge]
      refine ⟨Runs.along_append.mpr ⟨hfresh, hnew _, trivial, trivial⟩, ?_⟩
      intro i hi
      rw [Runs.run, List.foldl_append] at hi
      exact hi.elim
  · refine ⟨trivial, ?_⟩
    intro i hi
    rw [refill_poolIndex]
    exact htaken i hi

theorem accesses_fresh {s : RngState α} (hindex : s.poolIndex < 1024) {taken : ℕ → Prop}
    (htaken : ∀ i, taken i → i < s.poolIndex) (call : RngCall α) :
    Runs.Along takenAfter FreshAccess taken (accesses ops libraryInitialized s call) ∧
      ∀ i, Runs.run takenAfter taken (accesses ops libraryInitialized s call) i →
        i < (rngStep ops libraryInitialized s call).poolIndex := by
  cases call with
  | bytes len read stack =>
    cases libraryInitialized with
    | false => exact ⟨trivial, htaken⟩
    | true => exact rngCopy_fresh ops hindex htaken len read stack
  | reseed stack read =>
    cases libraryInitialized with
    | false => exact ⟨trivial, htaken⟩
    | true => exact ⟨trivial, htaken⟩
  | addEntropy data =>
    rw [rngStep, rngAddEntropy_poolIndex]
    exact ⟨trivial, htaken⟩

theorem accessLog_fresh {s : RngState α} (hindex : s.poolIndex < 1024) {taken : ℕ → Prop}
    (htaken : ∀ i, taken i → i < s.poolIndex) (calls : List (RngCall α)) :
    Runs.Along takenAfter FreshAccess taken (accessLog ops libraryInitialized s calls) := by
  induction calls generalizing s taken with
  | nil => trivial
  | cons call calls ih =>
    obtain ⟨hfresh, hbefore⟩ := accesses_fresh ops libraryInitialized hindex htaken call
    rw [accessLog, Runs.along_append]
    exact ⟨hfresh, ih (rngStep_index_lt ops libraryInitialized hindex call) hbefore⟩

/-- No byte of the pool is handed out a second time before the pool is refreshed. -/
theorem accessLog_noReuse {s : RngState α} (hindex : s.poolIndex < 1024)
    (calls : List (RngCall α)) : NoReuse (accessLog ops libraryInitialized s calls) :=
  accessLog_fresh ops libraryInitialized hindex (fun _ hnone => hnone.elim) calls

end Reuse

/-! ## Other kinds of bytes -/

section Map

variable {β : Type} (f : α → β)

def RngState.map (s : RngState α) : RngState β := ⟨s.pool.map f, s.poolIndex, s.entropyBits⟩

def RngCall.map : RngCall α → RngCall β
  | .bytes len read stack => .bytes len (read.map f) fun k => (stack k).map f
  | .reseed stack read => .reseed (stack.map f) (read.map f)
  | .addEntropy data => .addEntropy (data.map f)

def CopyLoop.map (c : CopyLoop α) : CopyLoop β where
  rng := c.rng.map f
  remaining := c.remaining
  buf := c.buf.map f
  rehashes := c.rehashes
  accesses := c.accesses

/-- The functions on bytes commute with a translation of bytes. -/
structure ByteOps.Translates (opsα : ByteOps α) (opsβ : ByteOps β) : Prop where
  sha256 : ∀ text, (opsα.sha256 text).map f = opsβ.sha256 (text.map f)
  xor : ∀ a b, f (opsα.xor a b) = opsβ.xor (f a) (f b)

theorem get_map (v : Vector α 1024) (i : Fin 1024) : (v.map f).get i = f (v.get i) :=
  Vector.getElem_map f i.isLt

theorem map_overwrite (buffer : Vector α 1024) (bytes : List α) :
    (overwrite buffer bytes).map f = overwrite (buffer.map f) (bytes.map f) := by
  apply Vector.ext
  intro i hi
  rw [Vector.getElem_map, overwrite, overwrite, Vector.getElem_ofFn, Vector.getElem_ofFn, get_map,
    List.getD_map]

theorem map_refill (s : RngState α) (len : UInt64) (read : List α) :
    (refill s len read).map f = refill (s.map f) len (read.map f) := by
  rw [refill, refill, RngState.map, RngState.map]
  split_ifs
  · rw [map_overwrite]
  · rfl

variable {f} {opsα : ByteOps α} {opsβ : ByteOps β} (hops : opsα.Translates f opsβ)
include hops

theorem map_rehash (s : RngState α) (newPool : Vector α 1024) :
    (rehash opsα s newPool).map f = rehash opsβ (s.map f) (newPool.map f) := by
  rw [rehash, rehash, RngState.map, RngState.map, map_overwrite, ← Vector.toList_map, hops.sha256,
    Vector.toList_map]

theorem map_copyRound (stack : ℕ → Vector α 1024) (c : CopyLoop α) :
    (copyRound opsα stack c).map f =
      copyRound opsβ (fun k => (stack k).map f) (c.map f) := by
  have hout : (copyOut c).map f = copyOut (c.map f) := by
    rw [copyOut, copyOut, CopyLoop.map, CopyLoop.map, RngState.map, List.map_append, List.map_take,
      List.map_drop, RngState.map, Vector.toList_map]
  rw [copyRound, copyRound, ← hout]
  by_cases hend : 1024 ≤ (copyOut c).rng.poolIndex
  · have hend' : 1024 ≤ ((copyOut c).map f).rng.poolIndex := hend
    rw [if_pos hend, if_pos hend', CopyLoop.map, map_rehash hops]
    rfl
  · have hend' : ¬1024 ≤ ((copyOut c).map f).rng.poolIndex := hend
    rw [if_neg hend, if_neg hend']

theorem map_copyLoop (stack : ℕ → Vector α 1024) (fuel : ℕ) (c : CopyLoop α) :
    (copyLoop opsα stack fuel c).map f =
      copyLoop opsβ (fun k => (stack k).map f) fuel (c.map f) := by
  induction fuel generalizing c with
  | zero => rfl
  | succ fuel ih =>
    by_cases hdone : c.remaining = 0
    · rw [copyLoop_of_done opsα stack hdone, copyLoop_of_done opsβ]
      exact hdone
    · rw [copyLoop_succ opsα stack hdone, copyLoop_succ opsβ, ih, map_copyRound hops]
      exact hdone

theorem map_rngCopy (s : RngState α) (len : UInt64) (read : List α)
    (stack : ℕ → Vector α 1024) :
    (rngCopy opsα s len read stack).map f =
      rngCopy opsβ (s.map f) len (read.map f) fun k => (stack k).map f := by
  rw [rngCopy, rngCopy, map_copyLoop hops, ← map_refill]
  rfl

/-- A call on translated bytes does what it does on the bytes. -/
theorem rngStep_map (libraryInitialized : Bool) (s : RngState α) (call : RngCall α) :
    (rngStep opsα libraryInitialized s call).map f =
        rngStep opsβ libraryInitialized (s.map f) (call.map f) ∧
      (handedOut opsα libraryInitialized s call).map f =
        handedOut opsβ libraryInitialized (s.map f) (call.map f) := by
  cases call with
  | bytes len read stack =>
    cases libraryInitialized with
    | false => exact ⟨rfl, rfl⟩
    | true =>
      have hcopy := map_rngCopy hops s len read stack
      have hrng := congrArg CopyLoop.rng hcopy
      have hbuf := congrArg CopyLoop.buf hcopy
      refine ⟨?_, hbuf⟩
      change (RngState.mk _ _ _).map f = RngState.mk _ _ _
      rw [← hrng]
      rfl
  | reseed stack read =>
    cases libraryInitialized with
    | false => exact ⟨rfl, rfl⟩
    | true =>
      have hpool : (Vector.zipWith opsα.xor s.pool (overwrite stack read)).map f =
          Vector.zipWith opsβ.xor (s.pool.map f) (overwrite (stack.map f) (read.map f)) := by
        rw [← map_overwrite]
        apply Vector.ext
        intro i hi
        rw [Vector.getElem_map, Vector.getElem_zipWith, Vector.getElem_zipWith, hops.xor,
          Vector.getElem_map, Vector.getElem_map]
      refine ⟨?_, rfl⟩
      rw [rngStep, RngCall.map, rngStep, rngReseed, rngReseed, if_pos rfl, if_pos rfl,
        RngState.map, RngState.map, hpool]
  | addEntropy data =>
    have hpool : ∀ toAdd : ℕ,
        (Vector.ofFn fun i : Fin 1024 =>
          if i.val < toAdd then opsα.xor (s.pool.get i) (data.getD i.val (s.pool.get i))
          else s.pool.get i).map f =
        Vector.ofFn fun i : Fin 1024 =>
          if i.val < toAdd then
            opsβ.xor ((s.pool.map f).get i) ((data.map f).getD i.val ((s.pool.map f).get i))
          else (s.pool.map f).get i := by
      intro toAdd
      apply Vector.ext
      intro i hi
      rw [Vector.getElem_map, Vector.getElem_ofFn, Vector.getElem_ofFn, get_map, List.getD_map]
      split_ifs
      · rw [hops.xor]
      · rfl
    refine ⟨?_, rfl⟩
    rw [rngStep, RngCall.map, rngStep, rngAddEntropy, rngAddEntropy, List.length_map]
    by_cases hnone : libraryInitialized = false ∨ data.length = 0
    · rw [if_pos hnone, if_pos hnone]
    · rw [if_neg hnone, if_neg hnone, RngState.map, hpool]
      rfl

end Map

end Blackstone.BankCrypto
