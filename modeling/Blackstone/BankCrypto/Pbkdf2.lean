import Mathlib.Data.Int.Basic
import Blackstone.BankCrypto.Hmac
import Blackstone.Library.Loops

/-!
# PBKDF2

`kdf/bank_pbkdf2.cpp`. The inner calls of the code read their data from the buffer `u` and write
their result there. `pbkdf2Iteration_spec` and `copyKey_spec` are the invariants of the inner
loops, `pbkdf2Round_spec` is the one of the outer loop, and `pbkdf2_eq_rfc8018` is the whole run.
-/

namespace Blackstone.BankCrypto

open BigEndian BlockStream Buffers KeyDerivation Loops

/-- The three arrays of the caller and the three local ones. -/
inductive Pbkdf2Buffer
  | password | salt | key | digest | saltBlock | u
  deriving DecidableEq, Repr

abbrev Pbkdf2Memory := Memory Pbkdf2Buffer

/-- `(block >> shift) & 0xFF`. -/
def blockByte (block shift : Int32) : UInt8 := ((block >>> shift) &&& 0xff).toUInt32.toUInt8

/-- The salt block of the block with a number: the salt and the number. -/
def fillSaltBlock (m : Pbkdf2Memory) (saltLen : ℕ) (block : Int32) : Option Pbkdf2Memory := do
  let m ← m.write .saltBlock 0 (← m.read .salt saltLen)
  let m ← m.write .saltBlock saltLen [blockByte block 24]
  let m ← m.write .saltBlock (saltLen + 1) [blockByte block 16]
  let m ← m.write .saltBlock (saltLen + 2) [blockByte block 8]
  m.write .saltBlock (saltLen + 3) [blockByte block 0]

/-- `digest[j] ^= u[j]`. -/
def xorDigest (m : Pbkdf2Memory) (j : ℕ) : Option Pbkdf2Memory := do
  m.write .digest j [(← (m .digest)[j]?) ^^^ (← (m .u)[j]?)]

/-- The body of the loop over the iterations, which does not use its counter. -/
def pbkdf2Iteration (passwordLen : ℕ) (m : Pbkdf2Memory) (_ : ℕ) : Option Pbkdf2Memory := do
  let m ← hmacSha256Into m .password passwordLen .u 32 .u
  (List.range 32).foldlM xorDigest m

/-- The variables of the loop that copies the digest. -/
structure CopyState where
  m : Pbkdf2Memory
  keyIdx : ℕ
  i : ℕ

/-- `key[key_idx++] = digest[i]`. -/
def copyByte (s : CopyState) : Option CopyState := do
  let m ← s.m.write .key s.keyIdx [← (s.m .digest)[s.i]?]
  return ⟨m, s.keyIdx + 1, s.i + 1⟩

/-- The loop that copies the digest, as far as there is room in the key. -/
def copyKey (keyLen : ℕ) (s : CopyState) : Option CopyState :=
  loop (fun s => s.i < 32 && s.keyIdx < keyLen) copyByte 32 s

/-- The variables of the outer loop. `block` is an `int`; what it becomes after the last block
is not read. -/
structure Pbkdf2State where
  m : Pbkdf2Memory
  keyIdx : ℕ
  block : Int32

/-- The body of the outer loop, up to the digest of the block. -/
def deriveBlock (m : Pbkdf2Memory) (passwordLen saltLen : ℕ) (iterations : ℤ) (block : Int32) :
    Option Pbkdf2Memory := do
  let m ← fillSaltBlock m saltLen block
  let m ← hmacSha256Into m .password passwordLen .saltBlock (saltLen + 4) .digest
  let m ← m.write .u 0 (← m.read .digest 32)
  (List.range (iterations - 1).toNat).foldlM (pbkdf2Iteration passwordLen) m

/-- The body of the outer loop. -/
def pbkdf2Round (passwordLen saltLen : ℕ) (iterations : ℤ) (keyLen : ℕ) (s : Pbkdf2State) :
    Option Pbkdf2State := do
  let m ← deriveBlock s.m passwordLen saltLen iterations s.block
  let copied ← copyKey keyLen ⟨m, s.keyIdx, 0⟩
  return ⟨copied.m, copied.keyIdx, s.block + 1⟩

/-- `bank_pbkdf2_hmac_sha256`. The local arrays hold anything on entry. -/
def pbkdf2HmacSha256 (m : Pbkdf2Memory) (passwordLen saltLen : ℕ) (iterations : ℤ)
    (keyLen : ℕ) : Option Pbkdf2Memory := do
  let s ← loop (fun s : Pbkdf2State => s.keyIdx < keyLen)
    (pbkdf2Round passwordLen saltLen iterations keyLen) keyLen ⟨m, 0, 1⟩
  return s.m

/-! ## The counter of blocks -/

theorem blockByte_eq {n : ℕ} (hn : n < 2 ^ 31) {shift : Int32} {k : ℕ}
    (hshift : (shift.toBitVec.smod 32).toNat = k) :
    blockByte (Int32.ofNat n) shift = UInt8.ofNat (n / 2 ^ k) := by
  have hmod : n % 2 ^ 32 = n := Nat.mod_eq_of_lt (by omega)
  have hmsb : (BitVec.ofNat 32 n).msb = false := by
    rw [BitVec.msb_eq_decide, BitVec.toNat_ofNat, decide_eq_false_iff_not, hmod]
    omega
  have hblock : (Int32.ofNat n).toBitVec = BitVec.ofNat 32 n := rfl
  have hword : ((Int32.ofNat n >>> shift) &&& 0xff).toUInt32.toNat = n / 2 ^ k % 256 := by
    change ((Int32.ofNat n >>> shift) &&& 0xff).toBitVec.toNat = n / 2 ^ k % 256
    rw [Int32.toBitVec_and, Int32.toBitVec_shiftRight, hblock, BitVec.sshiftRight',
      BitVec.sshiftRight_eq_of_msb_false hmsb, BitVec.toNat_and, BitVec.toNat_ushiftRight,
      BitVec.toNat_ofNat, hmod, hshift, Nat.shiftRight_eq_div_pow]
    exact Nat.and_two_pow_sub_one_eq_mod _ 8
  apply UInt8.toNat_inj.mp
  rw [blockByte, UInt32.toNat_toUInt8, UInt8.toNat_ofNat', hword]
  exact Nat.mod_mod _ _

/-- The four bytes of the number of a block are its big-endian form. -/
theorem blockBytes_eq {n : ℕ} (hn : n < 2 ^ 31) :
    [blockByte (Int32.ofNat n) 24, blockByte (Int32.ofNat n) 16, blockByte (Int32.ofNat n) 8,
      blockByte (Int32.ofNat n) 0] = bigEndian 4 n := by
  rw [blockByte_eq hn (k := 24) (by decide), blockByte_eq hn (k := 16) (by decide),
    blockByte_eq hn (k := 8) (by decide), blockByte_eq hn (k := 0) (by decide)]
  rfl

/-! ## The steps of a round -/

section Steps

variable {m : Pbkdf2Memory} {passwordLen saltLen keyLen : ℕ}

/-- The salt block holds the salt and the number of the block. -/
theorem fillSaltBlock_spec (hsalt : saltLen ≤ (m .salt).length) (hsaltLen : saltLen ≤ 64)
    (hsaltBlock : (m .saltBlock).length = 68) {n : ℕ} (hn : n < 2 ^ 31) :
    fillSaltBlock m saltLen (Int32.ofNat n) =
      some (Function.update m .saltBlock ((m .salt).take saltLen ++ bigEndian 4 n ++
        (m .saltBlock).drop (saltLen + 4))) := by
  have htaken : ((m .salt).take saltLen).length = saltLen := List.length_take_of_le hsalt
  have hfirst : m.write .saltBlock 0 ((m .salt).take saltLen) = some (Function.update m .saltBlock
      ((m .salt).take saltLen ++ (m .saltBlock).drop saltLen)) := by
    rw [Memory.write_zero (by omega), htaken]
  have hbyte : ∀ (written : List UInt8) (b : UInt8) (offset stop : ℕ), written.length = offset →
      offset + 1 = stop → stop ≤ 68 →
      Memory.write (Function.update m .saltBlock (written ++ (m .saltBlock).drop offset))
          .saltBlock offset [b] =
        some (Function.update m .saltBlock (written ++ [b] ++ (m .saltBlock).drop stop)) := by
    intro written b offset stop hoffset hstop hle
    exact Memory.write_append hoffset hstop (by omega)
  rw [fillSaltBlock, Memory.read_eq hsalt]
  simp only [Option.bind_eq_bind, Option.bind_some, hfirst]
  rw [hbyte _ _ saltLen _ htaken rfl (by omega), Option.bind_some,
    hbyte _ _ (saltLen + 1) _ (by simp [htaken]) rfl (by omega), Option.bind_some,
    hbyte _ _ (saltLen + 2) _ (by simp [htaken]) rfl (by omega), Option.bind_some,
    hbyte _ _ (saltLen + 3) _ (by simp [htaken]) rfl (by omega), ← blockBytes_eq hn]
  simp only [List.append_assoc, List.cons_append, List.nil_append]

/-- The memory when the first `j` bytes of the digest are xored. -/
def xoredTo (m : Pbkdf2Memory) (j : ℕ) : Pbkdf2Memory :=
  Function.update m .digest ((xorBytes (m .digest) (m .u)).take j ++ (m .digest).drop j)

theorem xorDigest_step (hdigest : (m .digest).length = 32) (hu : (m .u).length = 32) {j : ℕ}
    (hj : j < 32) : xorDigest (xoredTo m j) j = some (xoredTo m (j + 1)) := by
  have hxor : (xorBytes (m .digest) (m .u)).length = 32 := by
    rw [length_xorBytes, hdigest, hu, Nat.min_self]
  have hlength : ((xorBytes (m .digest) (m .u)).take j).length = j :=
    List.length_take_of_le (by omega)
  have hold : (xoredTo m j .digest)[j]? = some (m .digest)[j] := by
    rw [xoredTo, Function.update_self, List.getElem?_append_right hlength.le, hlength,
      Nat.sub_self, List.getElem?_drop, Nat.add_zero, List.getElem?_eq_getElem]
  have hpad : (xoredTo m j .u)[j]? = some (m .u)[j] := by
    rw [xoredTo, Function.update_of_ne (by decide), List.getElem?_eq_getElem]
  have hnew : (xorBytes (m .digest) (m .u)).take j ++ [(m .digest)[j] ^^^ (m .u)[j]] =
      (xorBytes (m .digest) (m .u)).take (j + 1) := by
    rw [List.take_succ_eq_append_getElem (by omega)]
    simp only [xorBytes, List.getElem_zipWith]
  rw [xorDigest, hold, hpad]
  simp only [Option.bind_eq_bind, Option.bind_some]
  rw [xoredTo, Memory.write_append hlength rfl (by rw [List.length_singleton]; omega), hnew]
  rfl

/-- The loop over the bytes leaves the exclusive or in the digest. -/
theorem xorDigest_spec (hdigest : (m .digest).length = 32) (hu : (m .u).length = 32) :
    (List.range 32).foldlM xorDigest m =
      some (Function.update m .digest (xorBytes (m .digest) (m .u))) := by
  have hxor : (xorBytes (m .digest) (m .u)).length = 32 := by
    rw [length_xorBytes, hdigest, hu, Nat.min_self]
  have hround : ∀ j < 32, ∀ t, t = xoredTo m j →
      ∃ t', xorDigest t j = some t' ∧ t' = xoredTo m (j + 1) := by
    rintro j hj _ rfl
    exact ⟨_, xorDigest_step hdigest hu hj, rfl⟩
  obtain ⟨t, hrun, ht⟩ := foldlM_range_spec (fun j t => t = xoredTo m j) hround
    (s := m) (by simp [xoredTo])
  rw [hrun, ht, xoredTo, List.take_of_length_le hxor.le, List.drop_of_length_le hdigest.le,
    List.append_nil]

/-- Where the iterations are: the arrays `u` and `digest` hold the last iterate and the exclusive
or of all, and the other arrays are as they were. -/
structure IteratedTo (m : Pbkdf2Memory) (password salt : List UInt8) (n i : ℕ)
    (t : Pbkdf2Memory) : Prop where
  u : t .u = iterate rfcHmac password salt n i
  digest : t .digest = iterateXor rfcHmac password salt n i
  frame : ∀ b, b ≠ .u → b ≠ .digest → t b = m b

@[simp] theorem length_rfcIterate (password salt : List UInt8) (n i : ℕ) :
    (iterate rfcHmac password salt n i).length = 32 := length_iterate length_rfcHmac _ _ _ _

@[simp] theorem length_rfcIterateXor (password salt : List UInt8) (n i : ℕ) :
    (iterateXor rfcHmac password salt n i).length = 32 := length_iterateXor length_rfcHmac _ _ _ _

/-- One iteration, of which the code is written over its own data. -/
theorem pbkdf2Iteration_spec {salt : List UInt8} {n i : ℕ} {t : Pbkdf2Memory}
    (hpassword : passwordLen ≤ (m .password).length)
    (ht : IteratedTo m ((m .password).take passwordLen) salt n i t) :
    ∃ t', pbkdf2Iteration passwordLen t i = some t' ∧
      IteratedTo m ((m .password).take passwordLen) salt n (i + 1) t' := by
  have hsame : t .password = m .password := ht.frame _ (by decide) (by decide)
  have hu : (t .u).length = 32 := by rw [ht.u, length_rfcIterate]
  have hnext : rfcHmac ((t .password).take passwordLen) ((t .u).take 32) ++ (t .u).drop 32 =
      iterate rfcHmac ((m .password).take passwordLen) salt n (i + 1) := by
    rw [List.take_of_length_le hu.le, List.drop_of_length_le hu.le, List.append_nil, hsame, ht.u]
    rfl
  have hkey : passwordLen ≤ (t .password).length := by rwa [hsame]
  have hinto := hmacSha256Into_eq t .password .u .u hkey hu.ge hu.ge
  rw [hnext] at hinto
  rw [pbkdf2Iteration, hinto, Option.bind_eq_bind, Option.bind_some, xorDigest_spec]
  · refine ⟨_, rfl, ?_, ?_, ?_⟩
    · rfl
    · change xorBytes (t .digest) _ = _
      rw [ht.digest]
      rfl
    · intro b hub hdigestb
      rw [Function.update_of_ne hdigestb, Function.update_of_ne hub]
      exact ht.frame b hub hdigestb
  · change (t .digest).length = 32
    rw [ht.digest, length_rfcIterateXor]
  · rw [Function.update_self, length_rfcIterate]

/-- The first call and the copy of its result start the iterations. -/
theorem firstIterate_spec (salt : List UInt8) (n : ℕ)
    (hpassword : passwordLen ≤ (m .password).length)
    (hsaltBlock : (m .saltBlock).take (saltLen + 4) = salt ++ bigEndian 4 n)
    (hsaltLen : saltLen + 4 ≤ (m .saltBlock).length)
    (hdigest : (m .digest).length = 32) (hu : (m .u).length = 32) :
    ∃ m' t, hmacSha256Into m .password passwordLen .saltBlock (saltLen + 4) .digest = some m' ∧
      m'.read .digest 32 = some (m' .digest) ∧ m'.write .u 0 (m' .digest) = some t ∧
      IteratedTo m ((m .password).take passwordLen) salt n 0 t := by
  have hinto := hmacSha256Into_eq m .password .saltBlock .digest hpassword hsaltLen hdigest.ge
  rw [hsaltBlock, List.drop_of_length_le hdigest.le, List.append_nil] at hinto
  let code := iterate rfcHmac ((m .password).take passwordLen) salt n 0
  have hlength : code.length = 32 := length_rfcIterate _ _ _ _
  have hread : Memory.read (Function.update m .digest code) .digest 32 = some code := by
    rw [Memory.read_eq (by rw [Function.update_self, hlength]), Function.update_self,
      List.take_of_length_le hlength.le]
  have hwrite : Memory.write (Function.update m .digest code) .u 0 code =
      some (Function.update (Function.update m .digest code) .u code) := by
    have hrest : (Function.update m .digest code) .u = m .u := Function.update_of_ne (by decide) _ _
    rw [Memory.write_zero (by rw [hrest, hu, hlength]), hrest, hlength,
      List.drop_of_length_le hu.le, List.append_nil]
  refine ⟨_, _, hinto, hread, hwrite, ?_, ?_, ?_⟩
  · rfl
  · rfl
  · intro b hub hdigestb
    rw [Function.update_of_ne hub, Function.update_of_ne hdigestb]

/-- The variables of the copying loop after `i` bytes, where `written` is what the key held
before and `old` what the caller left there. -/
def copiedTo (m : Pbkdf2Memory) (written old : List UInt8) (i : ℕ) : CopyState :=
  ⟨Function.update m .key (written ++ (m .digest).take i ++ old.drop (written.length + i)),
    written.length + i, i⟩

theorem copyByte_step {written old : List UInt8} {i : ℕ} (hi : i < (m .digest).length)
    (hroom : written.length + i < old.length) :
    copyByte (copiedTo m written old i) = some (copiedTo m written old (i + 1)) := by
  have hlength : (written ++ (m .digest).take i).length = written.length + i := by
    rw [List.length_append, List.length_take_of_le hi.le]
  have hbyte : ((copiedTo m written old i).m .digest)[(copiedTo m written old i).i]? =
      some (m .digest)[i] := List.getElem?_eq_getElem hi
  have hnew : written ++ (m .digest).take i ++ [(m .digest)[i]] =
      written ++ (m .digest).take (i + 1) := by
    rw [List.append_assoc, ← List.take_succ_eq_append_getElem hi]
  have hwrite : (copiedTo m written old i).m.write .key (copiedTo m written old i).keyIdx
      [(m .digest)[i]] = some (copiedTo m written old (i + 1)).m := by
    rw [copiedTo, copiedTo, ← hnew]
    exact Memory.write_append hlength rfl hroom
  rw [copyByte, hbyte, Option.bind_eq_bind, Option.bind_some, hwrite]
  rfl

/-- The copying loop appends as much of the digest as there is room for. -/
theorem copyKey_spec (written old : List UInt8) (hdigest : (m .digest).length = 32)
    (hkey : m .key = written ++ old.drop written.length) (hkeyLen : keyLen ≤ old.length)
    (hle : written.length ≤ keyLen) :
    copyKey keyLen ⟨m, written.length, 0⟩ =
      some (copiedTo m written old (min 32 (keyLen - written.length))) := by
  have hstart : (⟨m, written.length, 0⟩ : CopyState) = copiedTo m written old 0 := by
    simp only [copiedTo, List.take_zero, List.append_nil, Nat.add_zero, ← hkey,
      Function.update_eq_self]
  have hround : ∀ s : CopyState,
      (∃ i ≤ min 32 (keyLen - written.length), s = copiedTo m written old i) →
      (decide (s.i < 32) && decide (s.keyIdx < keyLen)) = true →
      ∃ t, copyByte s = some t ∧
        (∃ i ≤ min 32 (keyLen - written.length), t = copiedTo m written old i) ∧
        32 - t.i < 32 - s.i := by
    rintro _ ⟨i, hi, rfl⟩ hmore
    rw [Bool.and_eq_true, decide_eq_true_eq, decide_eq_true_eq] at hmore
    have hlt : i < 32 ∧ written.length + i < keyLen := hmore
    refine ⟨_, copyByte_step (by omega) (by omega), ⟨i + 1, by omega, rfl⟩, ?_⟩
    change 32 - (i + 1) < 32 - i
    omega
  obtain ⟨_, hrun, ⟨i, hi, rfl⟩, hdone⟩ := loop_spec
    (fun s => ∃ i ≤ min 32 (keyLen - written.length), s = copiedTo m written old i)
    (fun s => 32 - s.i) hround 32 (copiedTo m written old 0) (Nat.sub_le _ _)
    ⟨0, Nat.zero_le _, rfl⟩
  have hstop : ¬ (i < 32 ∧ written.length + i < keyLen) := by
    rintro ⟨hlt, hroom⟩
    rw [decide_eq_true (show (copiedTo m written old i).i < 32 from hlt),
      decide_eq_true (show (copiedTo m written old i).keyIdx < keyLen from hroom)] at hdone
    exact absurd hdone (by decide)
  rw [copyKey, hstart, hrun, show i = min 32 (keyLen - written.length) by omega]

end Steps

/-! ## The run -/

/-- The arrays that are not written keep their contents, and the local ones their sizes. -/
structure Pbkdf2Frame (old m : Pbkdf2Memory) : Prop where
  password : m .password = old .password
  salt : m .salt = old .salt
  digest : (m .digest).length = 32
  saltBlock : (m .saltBlock).length = 68
  u : (m .u).length = 32

/-- The block with number `i + 1`, derived from the arrays of the caller. -/
def pbkdf2Block (m : Pbkdf2Memory) (passwordLen saltLen : ℕ) (iterations : ℤ) (i : ℕ) :
    List UInt8 :=
  iterateXor rfcHmac ((m .password).take passwordLen) ((m .salt).take saltLen) (i + 1)
    (iterations - 1).toNat

/-- Where the outer loop is: the key holds the first `n` blocks, no more of them than fit into it,
and after them what the caller left there. -/
structure DerivedTo (old : Pbkdf2Memory) (passwordLen saltLen : ℕ) (iterations : ℤ)
    (keyLen n : ℕ) (s : Pbkdf2State) : Prop where
  frame : Pbkdf2Frame old s.m
  counter : s.block = Int32.ofNat (n + 1)
  keyIdx : s.keyIdx = min (32 * n) keyLen
  key : s.m .key = (firstBlocks (pbkdf2Block old passwordLen saltLen iterations) n).take keyLen ++
    (old .key).drop s.keyIdx

section Run

variable {old : Pbkdf2Memory} {passwordLen saltLen keyLen : ℕ} {iterations : ℤ}

theorem length_pbkdf2Block (i : ℕ) :
    (pbkdf2Block old passwordLen saltLen iterations i).length = 32 :=
  length_rfcIterateXor _ _ _ _

/-- The digest of a block, from its number. -/
theorem deriveBlock_spec (iterations : ℤ) {m : Pbkdf2Memory} (hm : Pbkdf2Frame old m)
    (hpassword : passwordLen ≤ (old .password).length) (hsalt : saltLen ≤ (old .salt).length)
    (hsaltLen : saltLen ≤ 64) {n : ℕ} (hn : n + 1 < 2 ^ 31) :
    ∃ t, deriveBlock m passwordLen saltLen iterations (Int32.ofNat (n + 1)) = some t ∧
      Pbkdf2Frame old t ∧ t .key = m .key ∧
      t .digest = pbkdf2Block old passwordLen saltLen iterations n := by
  have hfill := fillSaltBlock_spec (m := m) (by rw [hm.salt]; exact hsalt) hsaltLen hm.saltBlock hn
  let block := (m .salt).take saltLen ++ bigEndian 4 (n + 1) ++ (m .saltBlock).drop (saltLen + 4)
  have hnumbered : ((m .salt).take saltLen ++ bigEndian 4 (n + 1)).length = saltLen + 4 := by
    rw [List.length_append, length_bigEndian, hm.salt, List.length_take_of_le hsalt]
  have hblock : block.length = 68 := by
    rw [List.length_append, hnumbered, List.length_drop, hm.saltBlock]
    omega
  have hpassword' : passwordLen ≤ (Function.update m .saltBlock block .password).length := by
    rwa [Function.update_of_ne (by decide), hm.password]
  have hnumber : (Function.update m .saltBlock block .saltBlock).take (saltLen + 4) =
      (m .salt).take saltLen ++ bigEndian 4 (n + 1) := by
    rw [Function.update_self, List.take_left' hnumbered]
  have hroom : saltLen + 4 ≤ (Function.update m .saltBlock block .saltBlock).length := by
    rw [Function.update_self, hblock]
    omega
  obtain ⟨m', t, hinto, hread, hwrite, ht⟩ := firstIterate_spec ((m .salt).take saltLen) (n + 1)
    hpassword' hnumber hroom hm.digest hm.u
  rw [Function.update_of_ne (by decide)] at ht
  have hround : ∀ i < (iterations - 1).toNat, ∀ t,
      IteratedTo (Function.update m .saltBlock block) ((m .password).take passwordLen)
        ((m .salt).take saltLen) (n + 1) i t →
      ∃ t', pbkdf2Iteration passwordLen t i = some t' ∧
        IteratedTo (Function.update m .saltBlock block) ((m .password).take passwordLen)
          ((m .salt).take saltLen) (n + 1) (i + 1) t' := by
    intro i _ t ht
    exact pbkdf2Iteration_spec hpassword' ht
  obtain ⟨t', hrun, ht'⟩ := foldlM_range_spec _ hround ht
  refine ⟨t', ?_, ?_, ?_, ?_⟩
  · rw [deriveBlock, hfill]
    simp only [Option.bind_eq_bind, Option.bind_some]
    rw [hinto, Option.bind_some, hread, Option.bind_some, hwrite, Option.bind_some, hrun]
  · refine ⟨?_, ?_, ?_, ?_, ?_⟩
    · rw [ht'.frame _ (by decide) (by decide), Function.update_of_ne (by decide), hm.password]
    · rw [ht'.frame _ (by decide) (by decide), Function.update_of_ne (by decide), hm.salt]
    · rw [ht'.digest, length_rfcIterateXor]
    · rw [ht'.frame _ (by decide) (by decide), Function.update_self, hblock]
    · rw [ht'.u, length_rfcIterate]
  · rw [ht'.frame _ (by decide) (by decide), Function.update_of_ne (by decide)]
  · rw [ht'.digest, pbkdf2Block, hm.password, hm.salt]

theorem pbkdf2Round_spec (hpassword : passwordLen ≤ (old .password).length)
    (hsalt : saltLen ≤ (old .salt).length) (hsaltLen : saltLen ≤ 64)
    (hkey : keyLen ≤ (old .key).length) {n : ℕ} {s : Pbkdf2State} (hn : n + 1 < 2 ^ 31)
    (hmore : s.keyIdx < keyLen) (hs : DerivedTo old passwordLen saltLen iterations keyLen n s) :
    ∃ t, pbkdf2Round passwordLen saltLen iterations keyLen s = some t ∧
      DerivedTo old passwordLen saltLen iterations keyLen (n + 1) t := by
  obtain ⟨hframe, hcounter, hkeyIdx, hwritten⟩ := hs
  obtain ⟨t, hrun, ht, hsame, hdigest⟩ :=
    deriveBlock_spec iterations hframe hpassword hsalt hsaltLen hn
  have hidx : s.keyIdx = 32 * n := by omega
  let written := (firstBlocks (pbkdf2Block old passwordLen saltLen iterations) n).take keyLen
  have hlength : written.length = s.keyIdx := by
    rw [List.length_take, length_firstBlocks length_pbkdf2Block, hkeyIdx, Nat.min_comm]
  have hcopy := copyKey_spec written (old .key) ht.digest (by rw [hsame, hwritten, hlength]) hkey
    (by omega)
  have hnew : written ++ (t .digest).take (min 32 (keyLen - written.length)) =
      (firstBlocks (pbkdf2Block old passwordLen saltLen iterations) (n + 1)).take keyLen := by
    rw [firstBlocks_take_succ length_pbkdf2Block, hdigest, hlength, hidx, Nat.min_comm,
      ← List.take_take, List.take_of_length_le (length_pbkdf2Block n).le]
  rw [hlength] at hcopy hnew
  have hstep : pbkdf2Round passwordLen saltLen iterations keyLen s =
      some ⟨(copiedTo t written (old .key) (min 32 (keyLen - s.keyIdx))).m,
        (copiedTo t written (old .key) (min 32 (keyLen - s.keyIdx))).keyIdx,
        Int32.ofNat (n + 1) + 1⟩ := by
    rw [pbkdf2Round, hcounter, hrun, Option.bind_eq_bind, Option.bind_some, hcopy]
    rfl
  refine ⟨_, hstep, ?_, ?_, ?_, ?_⟩
  · exact ⟨ht.password, ht.salt, ht.digest, ht.saltBlock, ht.u⟩
  · exact (Int32.ofNat_add (n + 1) 1).symm
  · change written.length + min 32 (keyLen - s.keyIdx) = min (32 * (n + 1)) keyLen
    omega
  · change written ++ (t .digest).take (min 32 (keyLen - s.keyIdx)) ++ _ = _
    rw [hnew]
    rfl

/-- The run ends, the key is the one of the standard, and the rest of the arrays of the caller is as
it was. -/
theorem pbkdf2HmacSha256_eq (hold : Pbkdf2Frame old old)
    (hpassword : passwordLen ≤ (old .password).length) (hsalt : saltLen ≤ (old .salt).length)
    (hkey : keyLen ≤ (old .key).length) (hsaltLen : saltLen ≤ 64) (hiterations : 1 ≤ iterations)
    (hkeyLen : keyLen ≤ 32 * (2 ^ 31 - 1)) :
    ∃ m, pbkdf2HmacSha256 old passwordLen saltLen iterations keyLen = some m ∧
      m .key = pbkdf2 rfcHmac 32 ((old .password).take passwordLen) ((old .salt).take saltLen)
        iterations.toNat keyLen ++ (old .key).drop keyLen ∧
      m .password = old .password ∧ m .salt = old .salt := by
  have hround : ∀ s : Pbkdf2State,
      (∃ n, DerivedTo old passwordLen saltLen iterations keyLen n s) →
      decide (s.keyIdx < keyLen) = true →
      ∃ t, pbkdf2Round passwordLen saltLen iterations keyLen s = some t ∧
        (∃ n, DerivedTo old passwordLen saltLen iterations keyLen n t) ∧
        keyLen - t.keyIdx < keyLen - s.keyIdx := by
    rintro s ⟨n, hs⟩ hmore
    have hlt : s.keyIdx < keyLen := of_decide_eq_true hmore
    have hidx := hs.keyIdx
    obtain ⟨t, hrun, ht⟩ := pbkdf2Round_spec hpassword hsalt hsaltLen hkey (by omega) hlt hs
    have hidx' := ht.keyIdx
    exact ⟨t, hrun, ⟨n + 1, ht⟩, by omega⟩
  have hstart : DerivedTo old passwordLen saltLen iterations keyLen 0 ⟨old, 0, 1⟩ :=
    ⟨hold, rfl, (Nat.zero_min keyLen).symm, by simp [firstBlocks]⟩
  obtain ⟨s, hrun, ⟨n, hs⟩, hdone⟩ := loop_spec
    (fun s => ∃ n, DerivedTo old passwordLen saltLen iterations keyLen n s)
    (fun s => keyLen - s.keyIdx) hround keyLen _ (Nat.sub_le _ _) ⟨0, hstart⟩
  have hstop : ¬ s.keyIdx < keyLen := of_decide_eq_false hdone
  have hidx := hs.keyIdx
  have hcount : (iterations - 1).toNat = iterations.toNat - 1 := by omega
  refine ⟨s.m, ?_, ?_, hs.frame.password, hs.frame.salt⟩
  · rw [pbkdf2HmacSha256, hrun, Option.bind_eq_bind, Option.bind_some]
    rfl
  · rw [hs.key, show s.keyIdx = keyLen by omega,
      firstBlocks_take_blockCount length_pbkdf2Block (by decide) (by omega), pbkdf2, ← hcount]
    rfl

/-- For every password, every salt that fits into the salt block, every positive number of
iterations and every length of at most `2 ^ 31 - 1` blocks, the run ends with no write out of
bounds. The key is the one of RFC 8018, and what comes after it in the array of the caller is as it
was. -/
theorem pbkdf2_eq_rfc8018 (hold : Pbkdf2Frame old old)
    (hpassword : passwordLen ≤ (old .password).length) (hsalt : saltLen ≤ (old .salt).length)
    (hkey : keyLen ≤ (old .key).length) (hsaltLen : saltLen ≤ 64) (hiterations : 1 ≤ iterations)
    (hkeyLen : keyLen ≤ 32 * (2 ^ 31 - 1)) :
    ∃ m, pbkdf2HmacSha256 old passwordLen saltLen iterations keyLen = some m ∧
      m .key = pbkdf2 rfcHmac 32 ((old .password).take passwordLen) ((old .salt).take saltLen)
        iterations.toNat keyLen ++ (old .key).drop keyLen ∧
      m .password = old .password ∧ m .salt = old .salt :=
  pbkdf2HmacSha256_eq hold hpassword hsalt hkey hsaltLen hiterations hkeyLen

end Run

def emptyPbkdf2Memory (key : List UInt8) : Pbkdf2Memory
  | .password => []
  | .salt => []
  | .key => key
  | .digest => List.replicate 32 0
  | .saltBlock => List.replicate 68 0
  | .u => List.replicate 32 0

theorem pbkdf2_eq_rfc8018_empty :
    ∃ m, pbkdf2HmacSha256 (emptyPbkdf2Memory [7, 7, 7]) 0 0 2 2 = some m ∧
      m .key = pbkdf2 rfcHmac 32 [] [] 2 2 ++ [7] ∧ m .password = [] ∧ m .salt = [] :=
  pbkdf2_eq_rfc8018 ⟨rfl, rfl, rfl, rfl, rfl⟩ (Nat.zero_le _) (Nat.zero_le _) (by decide)
    (by decide) (by decide) (by decide)

end Blackstone.BankCrypto
