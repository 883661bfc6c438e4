import Blackstone.Bank.HexText
import Blackstone.BankCrypto.Sha256
import Blackstone.Library.Loops
import Blackstone.Library.Sha1

/-!
# The bank's SHA-1

`sha1.cpp`. The buffer grows with each chunk and is drained in steps of 64 bytes, and the padding
is put to it byte by byte; both loops end. What is hashed is the concatenation of the chunks, as
FIPS 180-1 has it (`sha1_standard`).
-/

namespace Blackstone.Bank

open BigEndian Blocks Loops

/-! ## The loops -/

/-- The loop of `UltraFastSHA1` that drains the buffer. -/
def drainLoop (fuel : ℕ) (s : Words × List UInt8) : Option (Words × List UInt8) :=
  loop (fun s => decide (64 ≤ s.2.length))
    (fun s => some (transform s.1 (s.2.take 64), s.2.drop 64)) fuel s

/-- The loop of `UltraFastSHA1::final` that pads the buffer. -/
def padLoop (fuel : ℕ) (buffer : List UInt8) : Option (List UInt8) :=
  loop (fun buffer => decide (buffer.length % 64 ≠ 56)) (fun buffer => some (buffer ++ [0])) fuel
    buffer

/-- `UltraFastSHA1::update`, with its loop. -/
def Sha1Context.updateLoop (ctx : Sha1Context) (data : Str) : Option Sha1Context := do
  let buffer := ctx.buffer ++ data
  let drained ← drainLoop buffer.length (ctx.h, buffer)
  pure ⟨drained.1, ctx.msgLen + UInt64.ofNat data.length, drained.2⟩

/-- `UltraFastSHA1::final`, with its loops. -/
def Sha1Context.finalLoop (ctx : Sha1Context) : Option Str := do
  let bits := ctx.msgLen * 8
  let buffer ← padLoop 64 (ctx.buffer ++ [0x80])
  let buffer := buffer ++ lengthBytes bits
  let drained ← drainLoop buffer.length (ctx.h, buffer)
  let h := drained.1
  pure (hexWord h.a ++ hexWord h.b ++ hexWord h.c ++ hexWord h.d ++ hexWord h.e)

theorem drainLoop_eq {fuel : ℕ} {buffer : List UInt8} (hfuel : buffer.length ≤ fuel) (h : Words) :
    drainLoop fuel (h, buffer) = some (drain h buffer fuel) := by
  induction fuel generalizing h buffer with
  | zero =>
    have hshort : ¬ 64 ≤ buffer.length := by omega
    rw [drainLoop, loop, if_neg (by rwa [decide_eq_true_eq])]
    rfl
  | succ fuel ih =>
    rw [drainLoop, loop, drain]
    simp only [decide_eq_true_eq, ge_iff_le]
    split_ifs with hmore
    · exact ih (by rw [List.length_drop]; omega) _
    · rfl

/-- Zeros are put to the buffer until its length is right. -/
theorem padLoop_eq {fuel zeros : ℕ} {buffer : List UInt8}
    (hzeros : zeros = (120 - buffer.length % 64) % 64) (hfuel : zeros ≤ fuel) :
    padLoop fuel buffer = some (buffer ++ List.replicate zeros 0) := by
  induction fuel generalizing zeros buffer with
  | zero =>
    obtain rfl : zeros = 0 := Nat.le_zero.mp hfuel
    rw [padLoop, loop, if_neg (by rw [decide_eq_true_eq]; omega), List.replicate_zero,
      List.append_nil]
  | succ fuel ih =>
    rw [padLoop, loop]
    simp only [decide_eq_true_eq]
    split_ifs with hmore
    · cases zeros with
      | zero => omega
      | succ zeros =>
        rw [Option.bind_some]
        have hcount : zeros = (120 - (buffer ++ [0]).length % 64) % 64 := by
          rw [List.length_append, List.length_singleton]
          omega
        have hrest : padLoop fuel (buffer ++ [0]) =
            some (buffer ++ [0] ++ List.replicate zeros 0) := ih hcount (by omega)
        rw [padLoop] at hrest
        rw [hrest, List.append_assoc, List.replicate_succ, List.singleton_append]
    · obtain rfl : zeros = 0 := by omega
      rw [List.replicate_zero, List.append_nil]

theorem updateLoop_eq (ctx : Sha1Context) (data : Str) :
    ctx.updateLoop data = some (ctx.update data) := by
  rw [Sha1Context.updateLoop, drainLoop_eq le_rfl]
  rfl

theorem finalLoop_eq (ctx : Sha1Context) : ctx.finalLoop = some ctx.final := by
  have hpadded : padLoop 64 (ctx.buffer ++ [0x80]) = some (padded ctx.buffer) := by
    rw [padLoop_eq rfl (by omega), padded, List.length_append, List.length_singleton]
    congr 3
    omega
  rw [Sha1Context.finalLoop, hpadded]
  simp only [Option.bind_eq_bind, Option.bind_some, drainLoop_eq le_rfl]
  rfl

/-! ## One block -/

/-- The words of a hash value as the standard has them. -/
def Words.bits (v : Words) : Sha1.Words :=
  ⟨v.a.toBitVec, v.b.toBitVec, v.c.toBitVec, v.d.toBitVec, v.e.toBitVec⟩

theorem getD_toBitVec (words : List UInt32) (i : ℕ) :
    (words.map UInt32.toBitVec).getD i 0 = (words.getD i 0).toBitVec := by
  rw [List.getD_eq_getElem?_getD, List.getD_eq_getElem?_getD, List.getElem?_map]
  exact Option.getD_map _ _ _

theorem toBitVec_rotate (x : UInt32) :
    ((x <<< 1) ||| (x >>> 31)).toBitVec = x.toBitVec.rotateLeft 1 ∧
      ((x <<< 5) ||| (x >>> 27)).toBitVec = x.toBitVec.rotateLeft 5 ∧
      ((x <<< 30) ||| (x >>> 2)).toBitVec = x.toBitVec.rotateLeft 30 := ⟨rfl, rfl, rfl⟩

theorem roundOf_eq (i : ℕ) (b c d : UInt32) :
    (roundOf i b c d).1.toBitVec = Sha1.f i b.toBitVec c.toBitVec d.toBitVec ∧
      (roundOf i b c d).2.toBitVec = Sha1.k i := by
  rw [roundOf, Sha1.f, Sha1.k]
  split_ifs
  · exact ⟨rfl, rfl⟩
  · exact ⟨rfl, rfl⟩
  · exact ⟨rfl, rfl⟩
  · exact ⟨rfl, rfl⟩

theorem bits_sha1Round (v : Words) (i : ℕ) (w : UInt32) :
    (sha1Round v i w).bits = Sha1.round v.bits i w.toBitVec := by
  obtain ⟨hf, hk⟩ := roundOf_eq i v.b v.c v.d
  simp only [sha1Round, Sha1.round, Words.bits, UInt32.toBitVec_add, hf, hk,
    (toBitVec_rotate _).2.1, (toBitVec_rotate _).2.2]
  rw [BitVec.add_assoc _ (Sha1.k i), BitVec.add_comm (Sha1.k i), ← BitVec.add_assoc]

theorem map_extendWords (words : List UInt32) :
    (extendWords words).map UInt32.toBitVec =
      Sha1.schedule (words.map UInt32.toBitVec) 64 := by
  rw [extendWords]
  generalize 64 = n
  induction n with
  | zero => rfl
  | succ t ih =>
    rw [List.range_succ, List.foldl_append, List.foldl_cons, List.foldl_nil, Sha1.schedule, ← ih,
      List.map_append, List.map_singleton, (toBitVec_rotate _).1]
    simp only [getD_toBitVec, UInt32.toBitVec_xor]
    rfl

/-- The words of a chunk are read as those of SHA-256. -/
theorem map_chunkWords {chunk : List UInt8} (hlength : chunk.length = 64) :
    (chunkWords chunk).map UInt32.toBitVec = Sha2.wordsOf 32 chunk := by
  have hload := BankCrypto.sha256Functions_implements.map_load
    (⟨chunk.toArray, hlength⟩ : BankCrypto.Bytes 64)
  exact hload

/-- The transform is the compression function of the standard. -/
theorem bits_transform (h : Words) {chunk : List UInt8} (hlength : chunk.length = 64) :
    (transform h chunk).bits = Sha1.compress h.bits chunk := by
  have hrounds : ∀ (words : List UInt32) (n : ℕ),
      ((List.range n).foldl (fun v i => sha1Round v i (words.getD i 0)) h).bits =
        (List.range n).foldl
          (fun v t => Sha1.round v t ((words.map UInt32.toBitVec).getD t 0)) h.bits := by
    intro words n
    induction n with
    | zero => rfl
    | succ n ih =>
      rw [List.range_succ, List.foldl_append, List.foldl_append, ← ih]
      simp only [List.foldl_cons, List.foldl_nil, bits_sha1Round, getD_toBitVec]
  rw [Sha1.compress, ← map_chunkWords hlength, ← map_extendWords, ← hrounds]
  rfl

theorem bits_foldl_transform (h : Words) {blocks : List (List UInt8)}
    (hblocks : ∀ block ∈ blocks, block.length = 64) :
    (blocks.foldl transform h).bits = blocks.foldl Sha1.compress h.bits := by
  induction blocks generalizing h with
  | nil => rfl
  | cons block blocks ih =>
    rw [List.foldl_cons, List.foldl_cons, ih _ (fun b hb => hblocks b (List.mem_cons_of_mem _ hb)),
      bits_transform h (hblocks block List.mem_cons_self)]

/-! ## All blocks -/

/-- Draining takes the complete blocks from the buffer. -/
theorem drain_eq {rounds : ℕ} {buffer : List UInt8} (hrounds : buffer.length ≤ rounds)
    (h : Words) :
    drain h buffer rounds = ((wholeBlocks 64 buffer).foldl transform h, remainder 64 buffer) := by
  induction rounds generalizing h buffer with
  | zero =>
    have hshort : buffer.length < 64 := by omega
    rw [drain, wholeBlocks_of_lt hshort, remainder_eq_self hshort]
    rfl
  | succ rounds ih =>
    rw [drain]
    split_ifs with hmore
    · have hblock : (buffer.take 64).length = 64 := List.length_take_of_le hmore
      have hsplit := List.take_append_drop 64 buffer
      rw [ih (by rw [List.length_drop]; omega)]
      conv_rhs => rw [← hsplit]
      rw [wholeBlocks_block_append (by decide) hblock, remainder_block_append hblock,
        List.foldl_cons]
    · have hshort : buffer.length < 64 := Nat.lt_of_not_ge hmore
      rw [wholeBlocks_of_lt hshort, remainder_eq_self hshort]
      rfl

/-- The context has taken these bytes. -/
structure Sha1Context.Holds (ctx : Sha1Context) (bytes : List UInt8) : Prop where
  h : ctx.h.bits = Sha1.chain bytes
  msgLen : ctx.msgLen = UInt64.ofNat bytes.length
  buffer : ctx.buffer = remainder 64 bytes

theorem holds_reset : Sha1Context.reset.Holds [] where
  h := by
    rw [Sha1.chain, wholeBlocks_of_lt (by decide)]
    rfl
  msgLen := rfl
  buffer := rfl

/-- What is drained goes on from the complete blocks so far. -/
theorem bits_drain {ctx : Sha1Context} {bytes : List UInt8} (hctx : ctx.Holds bytes)
    (data : List UInt8) :
    (drain ctx.h (ctx.buffer ++ data) (ctx.buffer ++ data).length).1.bits =
      Sha1.chain (bytes ++ data) := by
  rw [drain_eq le_rfl, Sha1.chain_append, ← hctx.h, ← hctx.buffer]
  exact bits_foldl_transform _ (fun block hblock => length_of_mem_wholeBlocks hblock)

theorem Sha1Context.Holds.update {ctx : Sha1Context} {bytes : List UInt8} (hctx : ctx.Holds bytes)
    (data : Str) : (ctx.update data).Holds (bytes ++ data) where
  h := bits_drain hctx data
  msgLen := by
    show ctx.msgLen + UInt64.ofNat data.length = UInt64.ofNat (bytes ++ data).length
    rw [hctx.msgLen, List.length_append, UInt64.ofNat_add]
  buffer := by
    rw [Sha1Context.update, drain_eq le_rfl, hctx.buffer, ← remainder_append]

theorem Sha1Context.Holds.updates {ctx : Sha1Context} {bytes : List UInt8}
    (hctx : ctx.Holds bytes) (chunks : List Str) :
    (chunks.foldl Sha1Context.update ctx).Holds (bytes ++ chunks.flatten) := by
  induction chunks generalizing ctx bytes with
  | nil =>
    rw [List.flatten_nil, List.append_nil]
    exact hctx
  | cons chunk chunks ih =>
    rw [List.foldl_cons, List.flatten_cons, ← List.append_assoc]
    exact ih (hctx.update chunk)

/-! ## The digest -/

/-- Bytes written with two hexadecimal digits each. -/
def hexText (bytes : List UInt8) : Str :=
  bytes.flatMap fun b => [hexDigit (b.toNat / 16), hexDigit (b.toNat % 16)]

theorem hexText_append (xs ys : List UInt8) : hexText (xs ++ ys) = hexText xs ++ hexText ys :=
  List.flatMap_append

theorem hexWord_eq (x : UInt32) : hexWord x = hexText (bigEndian 4 x.toNat) := by
  have hhigh : ∀ k : ℕ, (UInt8.ofNat (x.toNat / 256 ^ k)).toNat / 16 =
      x.toNat / 2 ^ (8 * k + 4) % 16 := by
    intro k
    rw [UInt8.toNat_ofNat', pow_add, pow_mul, ← Nat.div_div_eq_div_mul, show 2 ^ 8 = 256 from rfl]
    omega
  have hlow : ∀ k : ℕ, (UInt8.ofNat (x.toNat / 256 ^ k)).toNat % 16 =
      x.toNat / 2 ^ (8 * k) % 16 := by
    intro k
    rw [UInt8.toNat_ofNat', pow_mul, show 2 ^ 8 = 256 from rfl]
    omega
  simp only [hexText, bigEndian, List.range, List.range.loop, List.map_cons, List.map_nil,
    List.flatMap_cons, List.flatMap_nil, hhigh, hlow]
  rfl

theorem lengthBytes_eq (m : ℕ) : lengthBytes (UInt64.ofNat m * 8) = bigEndian 8 (8 * m) :=
  BankCrypto.lengthBytes_eq m

/-- The padding and the length are those of the standard. -/
theorem final_eq {ctx : Sha1Context} {bytes : List UInt8} (hctx : ctx.Holds bytes) :
    ctx.final = hexText (Sha1.digest bytes) := by
  have hmod : (remainder 64 bytes).length % 64 = bytes.length % 64 := by
    rw [length_remainder, Nat.mod_mod]
  have hpadded : bytes ++ ([0x80] ++ (List.replicate ((119 - ctx.buffer.length % 64) % 64) 0 ++
      lengthBytes (ctx.msgLen * 8))) = Sha2.padded 32 bytes := by
    rw [hctx.msgLen, hctx.buffer, hmod, lengthBytes_eq, Sha2.padded, List.append_assoc,
      List.append_assoc]
  have hbits := bits_drain hctx ([0x80] ++
    (List.replicate ((119 - ctx.buffer.length % 64) % 64) 0 ++ lengthBytes (ctx.msgLen * 8)))
  rw [hpadded, ← List.append_assoc, ← List.append_assoc] at hbits
  rw [Sha1.digest, ← hbits]
  simp only [Sha1.Words.toList, List.flatMap_cons, List.flatMap_nil, hexText_append]
  rw [Sha1Context.final]
  simp only [hexWord_eq, padded]
  rfl

theorem foldlM_updateLoop (ctx : Sha1Context) (chunks : List Str) :
    chunks.foldlM Sha1Context.updateLoop ctx = some (chunks.foldl Sha1Context.update ctx) := by
  induction chunks generalizing ctx with
  | nil => rfl
  | cons chunk chunks ih =>
    rw [List.foldlM_cons, updateLoop_eq, List.foldl_cons, ← ih]
    rfl

/-- However a string is cut into chunks, its SHA-1 digest is what the context gives. -/
theorem sha1_standard (chunks : List Str) :
    (chunks.foldlM Sha1Context.updateLoop Sha1Context.reset).bind Sha1Context.finalLoop =
        some (hexText (Sha1.digest chunks.flatten)) ∧
      sha1 chunks.flatten = hexText (Sha1.digest chunks.flatten) ∧
      (hexText (Sha1.digest chunks.flatten)).length = 40 ∧
      LowerHex (hexText (Sha1.digest chunks.flatten)) := by
  have hchunks := holds_reset.updates chunks
  have hwhole := holds_reset.update chunks.flatten
  rw [List.nil_append] at hchunks hwhole
  have hsha1 : sha1 chunks.flatten = hexText (Sha1.digest chunks.flatten) := by
    unfold sha1
    exact final_eq hwhole
  refine ⟨?_, hsha1, ?_, ?_⟩
  · rw [foldlM_updateLoop, Option.bind_some, finalLoop_eq, final_eq hchunks]
  · rw [← hsha1]
    exact length_sha1 _
  · rw [← hsha1]
    exact lowerHex_sha1 _

end Blackstone.Bank
