import Blackstone.BankCrypto.ShaContext
import Blackstone.Library.Poly1305
import Mathlib.Data.UInt
import Mathlib.Tactic.IntervalCases

/-!
# Poly1305

`poly1305/bank_poly1305_core.cpp`. The array `buf` of the context is both the input buffer and the
accumulator, so that the bytes of the next block are written over the sum of those before: the tag
depends on the key, the last complete block and what is left after it only (`polyRun_eq`).

The numbers are cut into 32-bit words but carried over and masked at 26 bits, the bit behind a
complete block is missing, and a block of the bit alone is added behind a message of complete
blocks. The bit behind the last `len` bytes is `1 << (len * 8)` on an `int`, which is undefined for
more than three bytes and gives `none` here. All messages of a length get the tag of RFC 8439 only
under keys whose clamped half is zero (`polyRun_rfc8439_iff`).
-/

namespace Blackstone.BankCrypto

open Blocks

abbrev PolyWords := Vector UInt32 4

/-- `bank_poly1305_ctx`, without the key, which is not written. -/
structure Poly1305Context where
  r : PolyWords
  s : PolyWords
  buf : Bytes 16
  bufLen : ℕ
  totalLen : UInt64

/-- Four bytes as a word, the least significant first. -/
def polyLoad (bytes : List UInt8) (i : ℕ) : UInt32 :=
  (bytes.getD i 0).toUInt32 ||| ((bytes.getD (i + 1) 0).toUInt32 <<< 8) |||
    ((bytes.getD (i + 2) 0).toUInt32 <<< 16) ||| ((bytes.getD (i + 3) 0).toUInt32 <<< 24)

/-- `bank_poly1305_init`. -/
def polyInit (key : Bytes 32) : Poly1305Context where
  r := Vector.ofFn fun i => polyLoad key.toList (4 * i.val) &&& 0x0ffffffc
  s := Vector.ofFn fun i => polyLoad key.toList (16 + 4 * i.val)
  buf := zeroBytes 16
  bufLen := 0
  totalLen := 0

/-- The loop that fills `t`. -/
def polyTerms (block : List UInt8) (len : ℕ) : PolyWords :=
  (List.range len).foldl (fun t i => t.setIfInBounds (i / 4)
    (t.toList.getD (i / 4) 0 ||| ((block.getD i 0).toUInt32 <<< UInt32.ofNat (i % 4 * 8))))
    (Vector.replicate 4 0)

/-- `1 << n` on an `int`. -/
def shiftedOne (n : ℕ) : Option UInt32 := if n < 32 then some (1 <<< UInt32.ofNat n) else none

/-- `memcpy` of the buffer into four words of a little-endian machine. -/
def polyWords (buf : Bytes 16) : PolyWords := Vector.ofFn fun i => polyLoad buf.toList (4 * i.val)

/-- `memcpy` of the words back. -/
def polyBuffer (h : PolyWords) : Bytes 16 :=
  Vector.ofFn fun i =>
    (h.toList.getD (i.val / 4) 0 >>> UInt32.ofNat (8 * (i.val % 4))).toUInt8

/-- `h[i]`. -/
def wordAt (h : PolyWords) (i : ℕ) : UInt32 := h.toList.getD i 0

/-- The chain of carries, which is the same in both functions. -/
def polyCarry (h : PolyWords) : PolyWords :=
  let h0 := wordAt h 0
  let h1 := wordAt h 1 + (h0 >>> 26)
  let h0 := h0 &&& 0x3ffffff
  let h2 := wordAt h 2 + (h1 >>> 26)
  let h1 := h1 &&& 0x3ffffff
  let h3 := wordAt h 3 + (h2 >>> 26)
  let h2 := h2 &&& 0x3ffffff
  let h0 := h0 + (h3 >>> 26) * 5
  let h3 := h3 &&& 0x3ffffff
  let h1 := h1 + (h0 >>> 26)
  let h0 := h0 &&& 0x3ffffff
  #v[h0, h1, h2, h3]

/-- The products with `r`, and how they are put together again. -/
def polyMultiply (h r : PolyWords) : PolyWords :=
  let h0 := (wordAt h 0).toUInt64
  let h1 := (wordAt h 1).toUInt64
  let h2 := (wordAt h 2).toUInt64
  let h3 := (wordAt h 3).toUInt64
  let r0 := (wordAt r 0).toUInt64
  let r1 := (wordAt r 1).toUInt64
  let r2 := (wordAt r 2).toUInt64
  let r3 := (wordAt r 3).toUInt64
  let s0 := h0 * r0 + h1 * r3 * 5 + h2 * r2 * 5 + h3 * r1 * 5
  let s1 := h0 * r1 + h1 * r0 + h2 * r3 * 5 + h3 * r2 * 5
  let s2 := h0 * r2 + h1 * r1 + h2 * r0 + h3 * r3 * 5
  let s3 := h0 * r3 + h1 * r2 + h2 * r1 + h3 * r0
  #v[(s0 &&& 0x3ffffff).toUInt32, ((s0 >>> 26) ||| ((s1 &&& 0x3ffffff) <<< 6)).toUInt32,
    ((s1 >>> 20) ||| ((s2 &&& 0x3ffffff) <<< 12)).toUInt32,
    ((s2 >>> 14) ||| ((s3 &&& 0x3ffffff) <<< 18)).toUInt32]

/-- What is computed of the words of the buffer and of the block. -/
def polyStep (r h t : PolyWords) : PolyWords :=
  polyMultiply (polyCarry (Vector.zipWith (fun h t => h + (t &&& 0x3ffffff)) h t)) r

/-- `bank_poly1305_add_block`. -/
def polyAddBlock (ctx : Poly1305Context) (block : List UInt8) (len : ℕ) (finalBlock : Bool) :
    Option Poly1305Context := do
  let t := polyTerms block len
  let t ← if finalBlock then
      (shiftedOne (len * 8)).map fun bit => t.setIfInBounds 0 (wordAt t 0 ||| bit)
    else some t
  return { ctx with buf := polyBuffer (polyStep ctx.r (polyWords ctx.buf) t) }

/-- The body of the loop of `bank_poly1305_update`. -/
def polyUpdateByte (ctx : Poly1305Context) (byte : UInt8) : Option Poly1305Context :=
  let ctx :=
    { ctx with buf := ctx.buf.setIfInBounds ctx.bufLen byte, bufLen := ctx.bufLen + 1 }
  if ctx.bufLen = 16 then
    (polyAddBlock ctx ctx.buf.toList 16 false).map ({ · with bufLen := 0 })
  else some ctx

/-- `bank_poly1305_update`. -/
def polyUpdate (ctx : Poly1305Context) (data : List UInt8) : Option Poly1305Context :=
  (data.foldlM polyUpdateByte ctx).map fun ctx =>
    { ctx with totalLen := ctx.totalLen + UInt64.ofNat data.length }

/-- The first step of the end. -/
def polyAddLast (ctx : Poly1305Context) : Option Poly1305Context :=
  if 0 < ctx.bufLen then polyAddBlock ctx ctx.buf.toList ctx.bufLen true
  else polyAddBlock ctx [] 0 true

/-- `bank_poly1305_final`. -/
def polyFinal (ctx : Poly1305Context) : Option (List UInt8) := do
  let ctx ← polyAddLast ctx
  let h := Vector.zipWith (· + ·) (polyWords ctx.buf) ctx.s
  return (polyBuffer (polyCarry h)).toList

/-- The three functions, for a message in chunks. -/
def polyRun (key : Bytes 32) (chunks : List (List UInt8)) : Option (List UInt8) := do
  let ctx ← chunks.foldlM polyUpdate (polyInit key)
  polyFinal ctx

/-! ## What is left of a message -/

/-- The buffer after the complete blocks: it is made of the last of them alone. -/
def afterBlocks (r : PolyWords) (message : List UInt8) : Bytes 16 :=
  match (wholeBlocks 16 message).getLast? with
  | none => zeroBytes 16
  | some block =>
    polyBuffer (polyStep r (polyWords (copyTo (zeroBytes 16) block)) (polyTerms block 16))

/-- The tag of the rest of a message over the buffer that the last complete block leaves. -/
def limbTag (key : Bytes 32) (buffer : Bytes 16) (rest : List UInt8) : List UInt8 :=
  let ctx := polyInit key
  let t := polyTerms rest rest.length
  let t := t.setIfInBounds 0 (wordAt t 0 ||| (1 <<< UInt32.ofNat (rest.length * 8)))
  let h := polyStep ctx.r (polyWords (copyTo buffer rest)) t
  (polyBuffer (polyCarry (Vector.zipWith (· + ·) (polyWords (polyBuffer h)) ctx.s))).toList

/-! ## The run -/

theorem copyTo_set {n : ℕ} (buffer : Bytes n) (bytes : List UInt8) (byte : UInt8) :
    (copyTo buffer bytes).setIfInBounds bytes.length byte = copyTo buffer (bytes ++ [byte]) := by
  apply Vector.ext
  intro i hi
  simp only [copyTo, Vector.getElem_setIfInBounds, Vector.getElem_ofFn,
    List.getD_eq_getElem?_getD, List.getElem?_append]
  by_cases hlast : bytes.length = i
  · subst hlast
    rw [if_pos rfl, if_neg (lt_irrefl _), Nat.sub_self]
    rfl
  · rw [if_neg hlast]
    split_ifs with hlt
    · rfl
    · rw [List.getElem?_eq_none (by omega), List.getElem?_eq_none]
      rw [List.length_singleton]
      omega

theorem copyTo_nil {n : ℕ} (buffer : Bytes n) : copyTo buffer [] = buffer := by
  apply Vector.ext
  intro i hi
  simp only [copyTo, Vector.getElem_ofFn, List.getD_nil, Fin.getElem_fin]

theorem copyTo_full {n : ℕ} (a b : Bytes n) {bytes : List UInt8} (hfull : bytes.length = n) :
    copyTo a bytes = copyTo b bytes :=
  Vector.toList_inj.mp ((toList_copyTo_full hfull).trans (toList_copyTo_full hfull).symm)

/-- Only the first bytes of the block are read. -/
theorem polyTerms_append (xs ys : List UInt8) :
    polyTerms (xs ++ ys) xs.length = polyTerms xs xs.length := by
  apply List.foldl_ext
  intro t i hi
  have hlt : i < xs.length := List.mem_range.mp hi
  have hsame : (xs ++ ys).getD i 0 = xs.getD i 0 := by
    rw [List.getD_eq_getElem?_getD, List.getD_eq_getElem?_getD, List.getElem?_append_left hlt]
  rw [hsame]

/-- Where the context is after a message. -/
structure PolyAt (key : Bytes 32) (message : List UInt8) (ctx : Poly1305Context) : Prop where
  r : ctx.r = (polyInit key).r
  s : ctx.s = (polyInit key).s
  bufLen : ctx.bufLen = message.length % 16
  buf : ctx.buf = copyTo (afterBlocks (polyInit key).r message) (remainder 16 message)

section Run

variable {key : Bytes 32} {message : List UInt8} {ctx : Poly1305Context}

theorem PolyAt.start : PolyAt key [] (polyInit key) := ⟨rfl, rfl, rfl, (copyTo_nil _).symm⟩

/-- One byte more: into the buffer, or to the end of a block. -/
theorem PolyAt.updateByte (hctx : PolyAt key message ctx) (byte : UInt8) :
    ∃ ctx', polyUpdateByte ctx byte = some ctx' ∧ PolyAt key (message ++ [byte]) ctx' := by
  obtain ⟨hr, hs, hbufLen, hbuf⟩ := hctx
  have hlength : (remainder 16 message).length = message.length % 16 := length_remainder _ _
  have hset : ctx.buf.setIfInBounds ctx.bufLen byte =
      copyTo (afterBlocks (polyInit key).r message) (remainder 16 message ++ [byte]) := by
    rw [hbuf, hbufLen, ← hlength, copyTo_set]
  by_cases hfull : ctx.bufLen + 1 = 16
  · have hmod : (message.length + 1) % 16 = 0 := by omega
    have hblock : (remainder 16 message ++ [byte]).length = 16 := by
      rw [List.length_append, hlength, List.length_singleton]
      omega
    have hblocks := wholeBlocks_concat_of_mod (n := 16) (x := byte) (by decide) hmod
    have hrest : remainder 16 (message ++ [byte]) = [] := by
      apply remainder_eq_nil
      rwa [List.length_append]
    have hbytes :
        (ctx.buf.setIfInBounds ctx.bufLen byte).toList = remainder 16 message ++ [byte] := by
      rw [hset, toList_copyTo_full hblock]
    have hafter : afterBlocks (polyInit key).r (message ++ [byte]) =
        polyBuffer (polyStep ctx.r (polyWords (ctx.buf.setIfInBounds ctx.bufLen byte))
          (polyTerms (ctx.buf.setIfInBounds ctx.bufLen byte).toList 16)) := by
      rw [hbytes, hset, hr, copyTo_full _ (zeroBytes 16) hblock, afterBlocks, hblocks,
        List.getLast?_concat]
    refine ⟨_, if_pos hfull, hr, hs, ?_, ?_⟩
    · rw [List.length_append]
      exact hmod.symm
    · rw [hrest, copyTo_nil, hafter]
  · have hmod : (message.length + 1) % 16 ≠ 0 := by omega
    obtain ⟨hblocks, hrest⟩ := wholeBlocks_concat_of_ne (n := 16) (x := byte) (by decide) hmod
    refine ⟨_, if_neg hfull, hr, hs, ?_, ?_⟩
    · rw [List.length_append, List.length_singleton]
      change ctx.bufLen + 1 = _
      omega
    · rw [hrest, afterBlocks, hblocks]
      exact hset

theorem PolyAt.update (hctx : PolyAt key message ctx) (data : List UInt8) :
    ∃ ctx', polyUpdate ctx data = some ctx' ∧ PolyAt key (message ++ data) ctx' := by
  have hbytes : ∃ ctx', data.foldlM polyUpdateByte ctx = some ctx' ∧
      PolyAt key (message ++ data) ctx' := by
    induction data generalizing message ctx with
    | nil => exact ⟨ctx, rfl, by rwa [List.append_nil]⟩
    | cons byte data ih =>
      obtain ⟨ctx₁, hbyte, hctx₁⟩ := hctx.updateByte byte
      obtain ⟨ctx₂, hrun, hctx₂⟩ := ih hctx₁
      refine ⟨ctx₂, ?_, ?_⟩
      · rw [List.foldlM_cons, hbyte, Option.bind_eq_bind, Option.bind_some, hrun]
      · rwa [List.append_assoc, List.singleton_append] at hctx₂
  obtain ⟨ctx', hrun, hr, hs, hbufLen, hbuf⟩ := hbytes
  exact ⟨_, congrArg _ hrun, hr, hs, hbufLen, hbuf⟩

theorem PolyAt.chunks (hctx : PolyAt key message ctx) (chunks : List (List UInt8)) :
    ∃ ctx', chunks.foldlM polyUpdate ctx = some ctx' ∧
      PolyAt key (message ++ chunks.flatten) ctx' := by
  induction chunks generalizing message ctx with
  | nil => exact ⟨ctx, rfl, by rwa [List.flatten_nil, List.append_nil]⟩
  | cons chunk chunks ih =>
    obtain ⟨ctx₁, hchunk, hctx₁⟩ := hctx.update chunk
    obtain ⟨ctx₂, hrun, hctx₂⟩ := ih hctx₁
    refine ⟨ctx₂, ?_, ?_⟩
    · rw [List.foldlM_cons, hchunk, Option.bind_eq_bind, Option.bind_some, hrun]
    · rwa [List.append_assoc, ← List.flatten_cons] at hctx₂

theorem shiftedOne_eq (n : ℕ) :
    shiftedOne (n * 8) = if n ≤ 3 then some (1 <<< UInt32.ofNat (n * 8)) else none := by
  rw [shiftedOne]
  congr 1
  exact propext ⟨fun h => by omega, fun h => by omega⟩

/-- The end adds the rest of the message, also where there is none. -/
theorem PolyAt.final (hctx : PolyAt key message ctx) :
    polyFinal ctx = if message.length % 16 ≤ 3 then
      some (limbTag key (afterBlocks (polyInit key).r message) (remainder 16 message))
    else none := by
  obtain ⟨hr, hs, hbufLen, hbuf⟩ := hctx
  have hlength : (remainder 16 message).length = message.length % 16 := length_remainder _ _
  have hlt : message.length % 16 < 16 := Nat.mod_lt _ (by decide)
  have hlast : polyAddLast ctx =
      polyAddBlock ctx (remainder 16 message) (message.length % 16) true := by
    rw [polyAddLast]
    split_ifs with hpos
    · have hterms : polyTerms ctx.buf.toList ctx.bufLen =
          polyTerms (remainder 16 message) (message.length % 16) := by
        rw [hbuf, hbufLen, ← hlength, toList_copyTo _ (by omega), polyTerms_append]
      rw [polyAddBlock, polyAddBlock, hterms, hbufLen]
    · have hzero : message.length % 16 = 0 := by omega
      rw [remainder_eq_nil hzero, hzero]
  rw [polyFinal, hlast, polyAddBlock]
  simp only [if_true, shiftedOne_eq]
  split_ifs with hshort
  · simp only [limbTag, Option.map_some, Option.bind_eq_bind, Option.bind_some, Option.pure_def,
      hlength, hr, hs, hbuf]
  · rfl

theorem polyRun_eq (key : Bytes 32) (chunks : List (List UInt8)) :
    polyRun key chunks = if chunks.flatten.length % 16 ≤ 3 then
      some (limbTag key (afterBlocks (polyInit key).r chunks.flatten)
        (remainder 16 chunks.flatten)) else none := by
  have hstart : PolyAt key [] (polyInit key) := PolyAt.start
  obtain ⟨ctx, hrun, hctx⟩ := hstart.chunks chunks
  rw [List.nil_append] at hctx
  rw [polyRun, hrun, Option.bind_eq_bind, Option.bind_some, hctx.final]

end Run

/-! ## Conformance -/

theorem getD_polyBuffer (h : PolyWords) {i : ℕ} (hi : i < 16) :
    (polyBuffer h).toList.getD i 0 =
      (h.toList.getD (i / 4) 0 >>> UInt32.ofNat (8 * (i % 4))).toUInt8 := by
  rw [List.getD_eq_getElem?_getD, List.getElem?_eq_getElem (by rwa [Vector.length_toList]),
    Option.getD_some, Vector.getElem_toList, polyBuffer, Vector.getElem_ofFn]

theorem toNat_low (w : UInt32) : (w &&& 0x3ffffff).toNat = w.toNat % 2 ^ 26 := by
  rw [UInt32.toNat_and]
  exact Nat.and_two_pow_sub_one_eq_mod _ 26

theorem masked_shiftRight_lt (w : UInt32) : ((w &&& 0x3ffffff) >>> 24).toUInt8 < 4 := by
  have hvalue : ((w &&& 0x3ffffff) >>> 24).toNat = w.toNat % 2 ^ 26 / 2 ^ 24 := by
    rw [UInt32.toNat_shiftRight, toNat_low, Nat.shiftRight_eq_div_pow]
    rfl
  apply UInt8.lt_iff_toNat_lt.mpr
  rw [UInt32.toNat_toUInt8, hvalue]
  change w.toNat % 2 ^ 26 / 2 ^ 24 % 256 < 4
  omega

/-- Three words of every tag have no more than 26 bits. -/
theorem limbTag_high (key : Bytes 32) (buffer : Bytes 16) (rest : List UInt8) :
    ∀ i ∈ [3, 11, 15], (limbTag key buffer rest).getD i 0 < 4 := by
  intro i hi
  rw [List.mem_cons, List.mem_cons, List.mem_singleton] at hi
  rw [limbTag, getD_polyBuffer _ (by omega)]
  obtain rfl | rfl | rfl := hi
  · exact masked_shiftRight_lt _
  · exact masked_shiftRight_lt _
  · exact masked_shiftRight_lt _

/-- The tag is the one of RFC 8439 if and only if at most three bytes are left after the complete
blocks, and the limbs of these bytes and of the last complete block alone happen to make it; then
three bytes of it are below 4. With more bytes left the shift is undefined. -/
theorem polyRun_eq_rfc8439_iff (key : Bytes 32) (chunks : List (List UInt8)) :
    (polyRun key chunks = some (Poly1305.tag key.toList chunks.flatten) ↔
      chunks.flatten.length % 16 ≤ 3 ∧
        limbTag key (afterBlocks (polyInit key).r chunks.flatten) (remainder 16 chunks.flatten) =
          Poly1305.tag key.toList chunks.flatten) ∧
      (polyRun key chunks = some (Poly1305.tag key.toList chunks.flatten) →
        ∀ i ∈ [3, 11, 15], (Poly1305.tag key.toList chunks.flatten).getD i 0 < 4) ∧
      (polyRun key chunks = none ↔ 3 < chunks.flatten.length % 16) := by
  rw [polyRun_eq]
  split_ifs with hshort
  · rw [Option.some_inj]
    refine ⟨⟨fun h => ⟨hshort, h⟩, fun h => h.2⟩, ?_, ?_⟩
    · rintro htag i hi
      rw [← htag]
      exact limbTag_high _ _ _ i hi
    · exact iff_of_false (by rintro ⟨⟩) (by omega)
  · refine ⟨iff_of_false (by rintro ⟨⟩) (fun h => hshort h.1), by rintro ⟨⟩, ?_⟩
    exact iff_of_true rfl (by omega)

/-! ## Words and bytes -/

/-- A byte that is shifted into its place in a word. -/
theorem testBit_place (b : UInt8) {j t : ℕ} (hj : j < 4) (ht : t < 32) :
    (b.toUInt32 <<< UInt32.ofNat (8 * j)).toNat.testBit t =
      if t / 8 = j then b.toNat.testBit (t % 8) else false := by
  have hshift : (UInt32.ofNat (8 * j)).toNat % 32 = 8 * j := by
    rw [UInt32.toNat_ofNat_of_lt' (lt_of_lt_of_le (show 8 * j < 32 by omega) (by decide))]
    omega
  rw [UInt32.toNat_shiftLeft, hshift, UInt8.toNat_toUInt32, Nat.testBit_mod_two_pow,
    Nat.testBit_shiftLeft, decide_eq_true ht, Bool.true_and]
  split_ifs with hplace
  · rw [decide_eq_true (by omega), Bool.true_and]
    congr 1
    omega
  · rcases Nat.lt_or_ge t (8 * j) with hlow | hhigh
    · rw [decide_eq_false (by omega), Bool.false_and]
    · have hover : b.toNat < 2 ^ (t - 8 * j) :=
        b.toNat_lt.trans_le (Nat.pow_le_pow_right (by decide) (show 8 ≤ t - 8 * j by omega))
      rw [Nat.testBit_lt_two_pow hover, Bool.and_false]

theorem testBit_polyLoad (bytes : List UInt8) (i : ℕ) {t : ℕ} (ht : t < 32) :
    (polyLoad bytes i).toNat.testBit t = (bytes.getD (i + t / 8) 0).toNat.testBit (t % 8) := by
  have hload : polyLoad bytes i =
      ((bytes.getD (i + 0) 0).toUInt32 <<< UInt32.ofNat (8 * 0)) |||
        ((bytes.getD (i + 1) 0).toUInt32 <<< UInt32.ofNat (8 * 1)) |||
        ((bytes.getD (i + 2) 0).toUInt32 <<< UInt32.ofNat (8 * 2)) |||
        ((bytes.getD (i + 3) 0).toUInt32 <<< UInt32.ofNat (8 * 3)) := by
    have hzero : ∀ w : UInt32, w <<< UInt32.ofNat (8 * 0) = w := fun _ => UInt32.shiftLeft_zero
    rw [polyLoad, hzero, Nat.add_zero]
    rfl
  rw [hload, UInt32.toNat_or, UInt32.toNat_or, UInt32.toNat_or, Nat.testBit_or, Nat.testBit_or,
    Nat.testBit_or, testBit_place _ (by decide) ht, testBit_place _ (by decide) ht,
    testBit_place _ (by decide) ht, testBit_place _ (by decide) ht]
  have hquotient : t / 8 < 4 := by omega
  interval_cases t / 8 <;> simp

theorem testBit_polyBuffer (h : PolyWords) {i j : ℕ} (hi : i < 16) (hj : j < 8) :
    ((polyBuffer h).toList.getD i 0).toNat.testBit j =
      (wordAt h (i / 4)).toNat.testBit (8 * (i % 4) + j) := by
  have hshift : (UInt32.ofNat (8 * (i % 4))).toNat % 32 = 8 * (i % 4) := by
    rw [UInt32.toNat_ofNat_of_lt' (lt_of_lt_of_le (show 8 * (i % 4) < 32 by omega) (by decide))]
    omega
  rw [getD_polyBuffer h hi, UInt32.toNat_toUInt8, UInt32.toNat_shiftRight, hshift,
    Nat.testBit_mod_two_pow, Nat.testBit_shiftRight, wordAt, decide_eq_true hj, Bool.true_and]

theorem words_ext {h h' : PolyWords} (hwords : ∀ i < 4, wordAt h i = wordAt h' i) : h = h' := by
  apply Vector.ext
  intro i hi
  have hword := hwords i hi
  rwa [wordAt, wordAt, List.getD_eq_getElem?_getD, List.getD_eq_getElem?_getD,
    List.getElem?_eq_getElem (by rwa [Vector.length_toList]), Option.getD_some,
    List.getElem?_eq_getElem (by rwa [Vector.length_toList]), Option.getD_some,
    Vector.getElem_toList, Vector.getElem_toList] at hword

theorem wordAt_ofFn (f : Fin 4 → UInt32) {i : ℕ} (hi : i < 4) :
    wordAt (Vector.ofFn f) i = f ⟨i, hi⟩ := by
  rw [wordAt, List.getD_eq_getElem?_getD, List.getElem?_eq_getElem (by rwa [Vector.length_toList]),
    Option.getD_some, Vector.getElem_toList, Vector.getElem_ofFn]

/-- `memcpy` of the words into the buffer and back. -/
theorem polyWords_polyBuffer (h : PolyWords) : polyWords (polyBuffer h) = h := by
  apply words_ext
  intro i hi
  apply UInt32.toNat_inj.mp
  apply Nat.eq_of_testBit_eq
  intro t
  rcases Nat.lt_or_ge t 32 with ht | ht
  · have hword : (4 * i + t / 8) / 4 = i := by omega
    have hbit : 8 * ((4 * i + t / 8) % 4) + t % 8 = t := by omega
    rw [polyWords, wordAt_ofFn _ hi, testBit_polyLoad _ _ ht, testBit_polyBuffer _ (by omega)
      (by omega), hword, hbit]
  · have hover : ∀ w : UInt32, w.toNat.testBit t = false := fun w =>
      Nat.testBit_lt_two_pow (w.toNat_lt.trans_le (Nat.pow_le_pow_right (by decide) ht))
    rw [hover, hover]

theorem polyBuffer_injective : Function.Injective polyBuffer :=
  Function.LeftInverse.injective polyWords_polyBuffer

/-- The second half of the key is the bytes of `s`. -/
theorem toList_polyBuffer_s (key : Bytes 32) :
    (polyBuffer (polyInit key).s).toList = key.toList.drop 16 := by
  have hlength : key.toList.length = 32 := Vector.length_toList
  apply List.ext_getElem
  · rw [Vector.length_toList, List.length_drop, hlength]
  · intro i hi hi'
    rw [Vector.length_toList] at hi
    have hbytes : (polyBuffer (polyInit key).s).toList.getD i 0 = key.toList.getD (16 + i) 0 := by
      apply UInt8.toNat_inj.mp
      apply Nat.eq_of_testBit_eq
      intro j
      rcases Nat.lt_or_ge j 8 with hj | hj
      · have hbyte : 16 + 4 * (i / 4) + (8 * (i % 4) + j) / 8 = 16 + i := by omega
        have hbit : (8 * (i % 4) + j) % 8 = j := by omega
        rw [testBit_polyBuffer _ hi hj, polyInit, wordAt_ofFn _ (by omega),
          testBit_polyLoad _ _ (by omega), hbyte, hbit]
      · have hover : ∀ b : UInt8, b.toNat.testBit j = false := fun b =>
          Nat.testBit_lt_two_pow (b.toNat_lt.trans_le (Nat.pow_le_pow_right (by decide) hj))
        rw [hover, hover]
    rw [List.getElem_drop]
    rwa [List.getD_eq_getElem?_getD, List.getElem?_eq_getElem (by rwa [Vector.length_toList]),
      Option.getD_some, List.getD_eq_getElem?_getD,
      List.getElem?_eq_getElem (by rw [hlength]; omega), Option.getD_some] at hbytes

/-! ## Keys whose clamped half is zero -/

/-- The code clears the bits that the standard clears, and two more. -/
theorem wordAt_r {key : Bytes 32} (hr : Poly1305.clampedR key.toList = 0) {i : ℕ} (hi : i < 4) :
    wordAt (polyInit key).r i = 0 := by
  have hmask : ∀ i < 4, ∀ t < 32, (0x0ffffffc : ℕ).testBit t = true →
      (0x0ffffffc0ffffffc0ffffffc0fffffff : ℕ).testBit (32 * i + t) = true := by decide
  rw [polyInit, wordAt_ofFn _ hi]
  apply UInt32.toNat_inj.mp
  apply Nat.eq_of_testBit_eq
  intro t
  rw [UInt32.toNat_and, Nat.testBit_and, UInt32.toNat_zero, Nat.zero_testBit]
  by_cases hkept : (0x0ffffffc : ℕ).testBit t = true
  · have ht : t < 32 := by
      by_contra hlarge
      rw [Nat.testBit_lt_two_pow (lt_of_lt_of_le (show 0x0ffffffc < 2 ^ 32 by decide)
        (Nat.pow_le_pow_right (by decide) (not_lt.mp hlarge)))] at hkept
      cases hkept
    have hzero := congrArg (Nat.testBit · (32 * i + t)) hr
    have hquotient : (32 * i + t) / 8 = 4 * i + t / 8 := by omega
    have hrest : (32 * i + t) % 8 = t % 8 := by omega
    have hbyte : (key.toList.take 16).getD (4 * i + t / 8) 0 =
        key.toList.getD (4 * i + t / 8) 0 := by
      rw [List.getD_eq_getElem?_getD, List.getElem?_take_of_lt (by omega),
        ← List.getD_eq_getElem?_getD]
    simp only [Poly1305.clampedR, Nat.testBit_and, hmask i hi t ht hkept, Bool.and_true,
      Poly1305.testBit_ofLittleEndian, hquotient, hrest, hbyte, Nat.zero_testBit] at hzero
    rw [testBit_polyLoad _ _ ht, hzero, Bool.false_and]
  · have hcleared : (0x0ffffffc : UInt32).toNat.testBit t = false := Bool.not_eq_true _ ▸ hkept
    rw [hcleared, Bool.and_false]

theorem polyStep_of_zero {r : PolyWords} (hr : ∀ i < 4, wordAt r i = 0) (h t : PolyWords) :
    polyStep r h t = Vector.replicate 4 0 := by
  have hzero : ∀ h : PolyWords, polyMultiply h r = Vector.replicate 4 0 := by
    intro h
    have hcast : (0 : UInt32).toUInt64 = 0 := rfl
    simp only [polyMultiply, hr 0 (by decide), hr 1 (by decide), hr 2 (by decide),
      hr 3 (by decide), hcast, UInt64.mul_zero, UInt64.zero_mul, UInt64.add_zero]
    rfl
  rw [polyStep, hzero]

theorem toNat_high (w : UInt32) : (w >>> 26).toNat = w.toNat / 2 ^ 26 := by
  rw [UInt32.toNat_shiftRight, Nat.shiftRight_eq_div_pow]
  rfl

/-- The words after the carries, as numbers. -/
theorem toNat_polyCarry (h : PolyWords) {a b c d : ℕ} (ha : (wordAt h 0).toNat = a)
    (hb : (wordAt h 1).toNat = b) (hc : (wordAt h 2).toNat = c) (hd : (wordAt h 3).toNat = d) :
    ∃ b' c' d' a', b' = (b + a / 2 ^ 26) % 2 ^ 32 ∧ c' = (c + b' / 2 ^ 26) % 2 ^ 32 ∧
      d' = (d + c' / 2 ^ 26) % 2 ^ 32 ∧ a' = (a % 2 ^ 26 + d' / 2 ^ 26 * 5 % 2 ^ 32) % 2 ^ 32 ∧
      (wordAt (polyCarry h) 0).toNat = a' % 2 ^ 26 ∧
      (wordAt (polyCarry h) 1).toNat = (b' % 2 ^ 26 + a' / 2 ^ 26) % 2 ^ 32 ∧
      (wordAt (polyCarry h) 2).toNat = c' % 2 ^ 26 ∧
      (wordAt (polyCarry h) 3).toNat = d' % 2 ^ 26 := by
  have h0 : ∀ w0 w1 w2 w3 : UInt32, wordAt #v[w0, w1, w2, w3] 0 = w0 := fun _ _ _ _ => rfl
  have h1 : ∀ w0 w1 w2 w3 : UInt32, wordAt #v[w0, w1, w2, w3] 1 = w1 := fun _ _ _ _ => rfl
  have h2 : ∀ w0 w1 w2 w3 : UInt32, wordAt #v[w0, w1, w2, w3] 2 = w2 := fun _ _ _ _ => rfl
  have h3 : ∀ w0 w1 w2 w3 : UInt32, wordAt #v[w0, w1, w2, w3] 3 = w3 := fun _ _ _ _ => rfl
  have hfive : (5 : UInt32).toNat = 5 := rfl
  refine ⟨_, _, _, _, rfl, rfl, rfl, rfl, ?_⟩
  simp only [polyCarry, h0, h1, h2, h3, toNat_low, toNat_high, UInt32.toNat_add, UInt32.toNat_mul,
    hfive, ha, hb, hc, hd, and_self]

/-- A word that receives a carry and is masked is as before only without the carry. -/
theorem lt_of_masked_carry {b c : ℕ} (hb : b < 2 ^ 32)
    (h : (c + b / 2 ^ 26) % 2 ^ 32 % 2 ^ 26 = c) : b < 2 ^ 26 := by
  have hcarry : b / 2 ^ 26 < 2 ^ 6 := Nat.div_lt_of_lt_mul hb
  have hnone : b / 2 ^ 26 = 0 := by
    generalize b / 2 ^ 26 = q at *
    omega
  exact (Nat.div_eq_zero_iff_lt (by decide)).mp hnone

/-- The carries change nothing if and only if there are none. -/
theorem polyCarry_eq_self_iff (h : PolyWords) :
    polyCarry h = h ↔ ∀ i < 4, wordAt h i < 2 ^ 26 := by
  have hsmall : ∀ w : UInt32, w < 2 ^ 26 ↔ w.toNat < 2 ^ 26 := fun w => UInt32.lt_iff_toNat_lt
  obtain ⟨b', c', d', a', hb', hc', hd', ha', hword0, hword1, hword2, hword3⟩ :=
    toNat_polyCarry h rfl rfl rfl rfl
  constructor
  · intro hsame
    rw [hsame] at hword0 hword2 hword3
    have h0 : (wordAt h 0).toNat < 2 ^ 26 := hword0 ▸ Nat.mod_lt _ (by decide)
    have h2 : (wordAt h 2).toNat < 2 ^ 26 := hword2 ▸ Nat.mod_lt _ (by decide)
    have h3 : (wordAt h 3).toNat < 2 ^ 26 := hword3 ▸ Nat.mod_lt _ (by decide)
    have h1 : (wordAt h 1).toNat < 2 ^ 26 := by
      rw [Nat.div_eq_of_lt h0, Nat.add_zero, Nat.mod_eq_of_lt (wordAt h 1).toNat_lt] at hb'
      rw [hc', hb'] at hword2
      exact lt_of_masked_carry (wordAt h 1).toNat_lt hword2.symm
    intro i hi
    rw [hsmall]
    interval_cases i
    · exact h0
    · exact h1
    · exact h2
    · exact h3
  · intro hall
    have h0 := (hsmall _).mp (hall 0 (by decide))
    have h1 := (hsmall _).mp (hall 1 (by decide))
    have h2 := (hsmall _).mp (hall 2 (by decide))
    have h3 := (hsmall _).mp (hall 3 (by decide))
    have hword : ∀ {n : ℕ}, n < 2 ^ 26 → n % 2 ^ 32 = n := fun hn =>
      Nat.mod_eq_of_lt (hn.trans (by decide))
    rw [Nat.div_eq_of_lt h0, Nat.add_zero, hword h1] at hb'
    rw [hb', Nat.div_eq_of_lt h1, Nat.add_zero, hword h2] at hc'
    rw [hc', Nat.div_eq_of_lt h2, Nat.add_zero, hword h3] at hd'
    rw [hd', Nat.div_eq_of_lt h3, Nat.zero_mul, Nat.zero_mod, Nat.add_zero, Nat.mod_eq_of_lt h0,
      hword h0] at ha'
    rw [ha', Nat.mod_eq_of_lt h0] at hword0
    rw [hb', ha', Nat.div_eq_of_lt h0, Nat.add_zero, Nat.mod_eq_of_lt h1, hword h1] at hword1
    rw [hc', Nat.mod_eq_of_lt h2] at hword2
    rw [hd', Nat.mod_eq_of_lt h3] at hword3
    apply words_ext
    intro i hi
    apply UInt32.toNat_inj.mp
    interval_cases i
    · exact hword0
    · exact hword1
    · exact hword2
    · exact hword3

/-- Without the clamped half, the tag is made of the second half alone. -/
theorem limbTag_of_zero {key : Bytes 32} (hr : Poly1305.clampedR key.toList = 0)
    (buffer : Bytes 16) (rest : List UInt8) :
    limbTag key buffer rest = (polyBuffer (polyCarry (polyInit key).s)).toList := by
  have hsum : Vector.zipWith (· + ·) (Vector.replicate 4 0) (polyInit key).s =
      (polyInit key).s := by
    apply Vector.ext
    intro i hi
    rw [Vector.getElem_zipWith, Vector.getElem_replicate, UInt32.zero_add]
  rw [limbTag, polyStep_of_zero (fun i hi => wordAt_r hr hi), polyWords_polyBuffer, hsum]

/-- A key without a clamped half gives the right tags if and only if the words of its second half
fit into 26 bits. -/
theorem polyRun_eq_iff_of_zero {key : Bytes 32} (hr : Poly1305.clampedR key.toList = 0)
    (chunks : List (List UInt8)) :
    polyRun key chunks = some (Poly1305.tag key.toList chunks.flatten) ↔
      chunks.flatten.length % 16 ≤ 3 ∧ ∀ i < 4, wordAt (polyInit key).s i < 2 ^ 26 := by
  have hkey : key.toList.length = 32 := Vector.length_toList
  rw [polyRun_eq, Poly1305.tag_of_clampedR_eq_zero hkey hr, ← toList_polyBuffer_s,
    limbTag_of_zero hr]
  split_ifs with hshort
  · rw [Option.some_inj, Vector.toList_inj, polyBuffer_injective.eq_iff, polyCarry_eq_self_iff,
      and_iff_right hshort]
  · exact iff_of_false (by rintro ⟨⟩) (fun h => hshort h.1)

/-! ## Keys whose clamped half is not zero -/

theorem afterBlocks_block_append (r : PolyWords) {first message : List UInt8}
    (hfirst : first.length = 16) (hmessage : 16 ≤ message.length) :
    afterBlocks r (first ++ message) = afterBlocks r message := by
  have hsome : wholeBlocks 16 message ≠ [] := by
    intro hnone
    have hcount := congrArg List.length hnone
    rw [wholeBlocks, List.length_map, List.length_range, List.length_nil] at hcount
    omega
  obtain ⟨block, blocks, hblocks⟩ := List.exists_cons_of_ne_nil hsome
  rw [afterBlocks, afterBlocks, wholeBlocks_block_append (by decide) hfirst, hblocks,
    List.getLast?_cons_cons]

/-- Of the complete blocks only the last one counts. -/
theorem polyRun_block_append (key : Bytes 32) {first message : List UInt8}
    (hfirst : first.length = 16) (hmessage : 16 ≤ message.length) {chunks : List (List UInt8)}
    (hchunks : chunks.flatten = first ++ message) :
    polyRun key chunks = polyRun key [message] := by
  have hlength : (first ++ message).length % 16 = message.length % 16 := by
    rw [List.length_append, hfirst, Nat.add_mod_left]
  rw [polyRun_eq, polyRun_eq, hchunks, hlength, afterBlocks_block_append _ hfirst hmessage,
    remainder_block_append hfirst, List.flatten_singleton]

/-- With any other key, of all messages that differ in the first block and have another one, at
most four get the right tag. -/
theorem encard_right_le {key : Bytes 32} (hr : Poly1305.clampedR key.toList ≠ 0)
    {message : List UInt8} (hmessage : 16 ≤ message.length) :
    {first : Bytes 16 | ∃ chunks : List (List UInt8), chunks.flatten = first.toList ++ message ∧
      polyRun key chunks = some (Poly1305.tag key.toList chunks.flatten)}.encard ≤ 4 := by
  have hrun : ∀ first : Bytes 16, ∀ chunks : List (List UInt8),
      chunks.flatten = first.toList ++ message → polyRun key chunks = polyRun key [message] :=
    fun first chunks hchunks => polyRun_block_append key first.length_toList hmessage hchunks
  cases hresult : polyRun key [message] with
  | none =>
    have hnone : {first : Bytes 16 | ∃ chunks : List (List UInt8),
        chunks.flatten = first.toList ++ message ∧
        polyRun key chunks = some (Poly1305.tag key.toList chunks.flatten)} = ∅ := by
      rw [Set.eq_empty_iff_forall_notMem]
      rintro first ⟨chunks, hchunks, hright⟩
      rw [hrun first chunks hchunks, hresult] at hright
      cases hright
    rw [hnone, Set.encard_empty]
    exact bot_le
  | some t =>
    have hmaps : Set.MapsTo Vector.toList
        {first : Bytes 16 | ∃ chunks : List (List UInt8),
          chunks.flatten = first.toList ++ message ∧
          polyRun key chunks = some (Poly1305.tag key.toList chunks.flatten)}
        {b | b.length = 16 ∧ Poly1305.tag key.toList (b ++ message) = t} := by
      rintro first ⟨chunks, hchunks, hright⟩
      rw [hrun first chunks hchunks, hresult, hchunks, Option.some_inj] at hright
      exact ⟨first.length_toList, hright.symm⟩
    exact (Set.encard_le_encard_of_injOn hmaps fun _ _ _ _ h => Vector.toList_inj.mp h).trans
      (Poly1305.encard_firstBlock_le hr message t)

theorem clampedR_of_right {key : Bytes 32} {k : Fin 16}
    (hright : ∀ chunks : List (List UInt8), chunks.flatten.length % 16 = k.val →
      polyRun key chunks = some (Poly1305.tag key.toList chunks.flatten)) :
    Poly1305.clampedR key.toList = 0 := by
  let message : List UInt8 := List.replicate (16 + k.val) 0
  have hmessage : message.length = 16 + k.val := List.length_replicate
  have hlength : message.length % 16 = k.val := by omega
  have hrun := hright [message] (by rwa [List.flatten_singleton])
  have hevery : ∀ b : List UInt8, b.length = 16 →
      Poly1305.tag key.toList (b ++ message) = Poly1305.tag key.toList [message].flatten := by
    intro b hb
    have hflatten : [b ++ message].flatten = b ++ message := List.flatten_singleton
    have hsame := hright [b ++ message] (by rw [hflatten, List.length_append]; omega)
    rw [polyRun_block_append key hb (by omega) hflatten, hrun, hflatten, Option.some_inj] at hsame
    exact hsame.symm
  exact Poly1305.clampedR_eq_zero hevery

/-- For every key and every number `k` of bytes after the complete blocks, all messages of such a
length get the tag of RFC 8439 if and only if `k` is at most 3, the clamped half of the key is zero
and the words of the other half fit into 26 bits. With a clamped half of zero this is so for every
single message; with another one, of the messages that differ in the first block and have a second
one, at most four get the right tag. With more than three bytes left the shift is undefined. -/
theorem polyRun_rfc8439_iff (key : Bytes 32) :
    (∀ k : Fin 16, (∀ chunks : List (List UInt8), chunks.flatten.length % 16 = k.val →
        polyRun key chunks = some (Poly1305.tag key.toList chunks.flatten)) ↔
      k.val ≤ 3 ∧ Poly1305.clampedR key.toList = 0 ∧
        ∀ i < 4, wordAt (polyInit key).s i < 2 ^ 26) ∧
      (Poly1305.clampedR key.toList = 0 → ∀ chunks : List (List UInt8),
        polyRun key chunks = some (Poly1305.tag key.toList chunks.flatten) ↔
          chunks.flatten.length % 16 ≤ 3 ∧ ∀ i < 4, wordAt (polyInit key).s i < 2 ^ 26) ∧
      (Poly1305.clampedR key.toList ≠ 0 → ∀ message : List UInt8, 16 ≤ message.length →
        {first : Bytes 16 | ∃ chunks : List (List UInt8),
          chunks.flatten = first.toList ++ message ∧
          polyRun key chunks = some (Poly1305.tag key.toList chunks.flatten)}.encard ≤ 4) ∧
      ∀ chunks : List (List UInt8), polyRun key chunks = none ↔
        3 < chunks.flatten.length % 16 := by
  refine ⟨?_, polyRun_eq_iff_of_zero, fun hr _ => encard_right_le hr, fun chunks =>
    (polyRun_eq_rfc8439_iff key chunks).2.2⟩
  intro k
  constructor
  · intro hright
    have hr := clampedR_of_right hright
    have hlength : (List.replicate k.val (0 : UInt8)).length % 16 = k.val := by
      rw [List.length_replicate, Nat.mod_eq_of_lt k.isLt]
    have hrun := hright [List.replicate k.val 0] (by rwa [List.flatten_singleton])
    obtain ⟨hshort, hwords⟩ := (polyRun_eq_iff_of_zero hr _).mp hrun
    rw [List.flatten_singleton, hlength] at hshort
    exact ⟨hshort, hr, hwords⟩
  · rintro ⟨hk, hr, hwords⟩ chunks hlength
    exact (polyRun_eq_iff_of_zero hr chunks).mpr ⟨hlength.trans_le hk, hwords⟩

/-- The key of the example of RFC 8439. -/
def poly1305ExampleKey : Bytes 32 :=
  #v[0x85, 0xd6, 0xbe, 0x78, 0x57, 0x55, 0x6d, 0x33, 0x7f, 0x44, 0x52, 0xfe, 0x42, 0xd5, 0x06,
    0xa8, 0x01, 0x03, 0x80, 0x8a, 0xfb, 0x0d, 0xb2, 0xfd, 0x4a, 0xbf, 0xf6, 0xaf, 0x41, 0x49,
    0xf5, 0x1b]

/-- No byte of message, for which the standard's tag is the second half of the key, and four, of
which the shift by 32 is undefined. -/
theorem polyRun_ne_rfc8439 :
    Poly1305.tag poly1305ExampleKey.toList [] = poly1305ExampleKey.toList.drop 16 ∧
      polyRun poly1305ExampleKey [] ≠ some (Poly1305.tag poly1305ExampleKey.toList []) ∧
      polyRun poly1305ExampleKey [[1, 2], [3, 4]] = none := by
  decide +kernel

/-- The condition can be met: with a key of zeros, every tag is 0. -/
example : polyRun (zeroBytes 32) [[1], [2, 3]] =
    some (Poly1305.tag (zeroBytes 32).toList [1, 2, 3]) := by decide +kernel

end Blackstone.BankCrypto
