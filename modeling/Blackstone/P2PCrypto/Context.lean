import Blackstone.Library.ByteOrder
import Blackstone.Library.PermutationTable
import Blackstone.Library.Sha2

/-!
# The context

`CryptoContext` in `crypto_types.h`, with the members that the cipher, the hash and the signature
use, and the tables of `sbox_tables.c`. Two of its arrays of words are written and read as bytes;
the machine is little-endian.

Whatever the random stream is, the tables of a context are permutations with their inverses
(`tabled_initSboxes`).
-/

namespace Blackstone.P2PCrypto

open Blocks ByteOrder PermutationTable
open Sha2 (Words)

/-! ## Words as bytes -/

/-- The bytes of some words. -/
def memory (words : List UInt64) : List UInt8 := words.flatMap fun w => store 8 w.toNat

/-- The word at a place in memory. -/
def wordAt (bytes : List UInt8) (i : ℕ) : UInt64 :=
  UInt64.ofNat (load ((bytes.drop (8 * i)).take 8))

/-- `memcpy` to an array of words, which is long enough. -/
def memcpyWords {n : ℕ} (words : Vector UInt64 n) (bytes : List UInt8) : Vector UInt64 n :=
  Vector.ofFn fun i => wordAt (bytes ++ (memory words.toList).drop bytes.length) i

/-- `memcpy` to an array of bytes, which is long enough. -/
def memcpyBytes {n : ℕ} (buffer : Vector UInt8 n) (bytes : List UInt8) : Vector UInt8 n :=
  Vector.ofFn fun i => bytes.getD i (buffer.get i)

/-! ## The context -/

/-- `CryptoContext`. The words of `state` have the names that they have in `hash_core`. -/
structure CryptoContext where
  state : Words UInt64
  binaryBuffer : Vector UInt8 4096
  hashBuffer : Vector UInt8 64
  signatureBuffer : Vector UInt8 128
  keySchedule : Vector UInt64 64
  sboxByte : Vector UInt8 256
  invSbox : Vector UInt8 256
  ternarySbox : Vector UInt8 256
  ternaryInvSbox : Vector UInt8 256
  randomBuffer : Vector UInt64 64
  initialized : Bool

/-- The place that `init_sboxes` exchanges with place `i`. The random numbers are drawn from place
255 down. -/
def sboxChoice (rnd : ℕ → UInt64) (i : ℕ) : ℕ := (rnd (255 - i) &&& 0xFF).toNat % (i + 1)

/-- The bytes in order. -/
def identityBox : Vector UInt8 256 := Vector.ofFn UInt8.ofFin

/-- `sbox_byte`, shuffled. -/
def shuffledBox (rnd : ℕ → UInt64) : Vector UInt8 256 :=
  ⟨shuffleFrom (sboxChoice rnd) 255 identityBox.toArray,
    (size_shuffleFrom _ _ _).trans identityBox.size_toArray⟩

theorem toArray_shuffledBox (rnd : ℕ → UInt64) :
    (shuffledBox rnd).toArray = shuffleFrom (sboxChoice rnd) 255 identityBox.toArray := by
  simp only [shuffledBox]

/-- An entry of `ternary_sbox`. -/
def ternaryByte (i : UInt8) : UInt8 :=
  let val := i ^^^ 0x5A
  let val := (val <<< 3) ||| (val >>> 5)
  let val := val ^^^ 0x3C
  (val >>> 2) ||| (val <<< 6)

/-- `ternary_sbox`. -/
def ternaryBox : Vector UInt8 256 := Vector.ofFn fun i => ternaryByte (UInt8.ofFin i)

/-- `init_sboxes`, with the numbers that `rdrand_wrapper` gives. -/
def initSboxes (ctx : CryptoContext) (rnd : ℕ → UInt64) : CryptoContext :=
  { ctx with
    sboxByte := shuffledBox rnd
    invSbox := inverseTable (shuffledBox rnd) ctx.invSbox
    ternarySbox := ternaryBox
    ternaryInvSbox := inverseTable ternaryBox ctx.ternaryInvSbox }

/-- The tables are permutations with their inverses. -/
structure CryptoContext.Tabled (ctx : CryptoContext) : Prop where
  inv_sbox : Function.LeftInverse (lookup ctx.invSbox) (lookup ctx.sboxByte)
  inv_ternary : Function.LeftInverse (lookup ctx.ternaryInvSbox) (lookup ctx.ternarySbox)

/-! ## The tables -/

theorem toList_identityBox_nodup : identityBox.toList.Nodup := by
  rw [identityBox, Vector.toList_ofFn]
  apply List.nodup_ofFn_ofInjective
  intro i j hij
  exact congrArg UInt8.toFin hij

theorem shuffledBox_injective (rnd : ℕ → UInt64) :
    Function.Injective (lookup (shuffledBox rnd)) := by
  apply lookup_injective
  have hperm := (perm_shuffleFrom (sboxChoice rnd) 255 identityBox.toArray).toList
  exact hperm.nodup_iff.mpr toList_identityBox_nodup

/-- Each step of an entry can be taken back. -/
theorem ternaryByte_injective : Function.Injective ternaryByte := by
  have hback : ∀ i : Fin 256,
      ((((ternaryByte (UInt8.ofFin i) <<< 2) ||| (ternaryByte (UInt8.ofFin i) >>> 6)) ^^^ 0x3C)
            <<< 5 |||
          (((ternaryByte (UInt8.ofFin i) <<< 2) ||| (ternaryByte (UInt8.ofFin i) >>> 6)) ^^^ 0x3C)
            >>> 3) ^^^ 0x5A = UInt8.ofFin i := by
    decide +kernel
  intro b c hbc
  have hb := hback b.toFin
  rw [UInt8.ofFin_toFin, hbc, ← UInt8.ofFin_toFin c, hback c.toFin] at hb
  rw [← hb, UInt8.ofFin_toFin]

theorem lookup_ternaryBox (b : UInt8) : lookup ternaryBox b = ternaryByte b := by
  rw [lookup, ternaryBox, Fin.getElem_fin, Vector.getElem_ofFn]
  rfl

theorem ternaryBox_injective : Function.Injective (lookup ternaryBox) := by
  intro b c hbc
  rw [lookup_ternaryBox, lookup_ternaryBox] at hbc
  exact ternaryByte_injective hbc

theorem tabled_initSboxes (ctx : CryptoContext) (rnd : ℕ → UInt64) :
    (initSboxes ctx rnd).Tabled := by
  have hsbox := lookup_inverseTable (shuffledBox_injective rnd) ctx.invSbox
  have hternary := lookup_inverseTable ternaryBox_injective ctx.ternaryInvSbox
  constructor
  · simpa only [initSboxes] using hsbox
  · simpa only [initSboxes] using hternary

/-! ## Copies -/

theorem length_memory (words : List UInt64) : (memory words).length = 8 * words.length := by
  induction words with
  | nil => rfl
  | cons w words ih =>
    rw [memory, List.flatMap_cons, List.length_append, length_store, ← memory, ih,
      List.length_cons]
    omega

theorem take_drop_memory {words : List UInt64} {i : ℕ} (hi : i < words.length) :
    ((memory words).drop (8 * i)).take 8 = store 8 (words[i]).toNat := by
  induction words generalizing i with
  | nil => exact absurd hi (Nat.not_lt_zero i)
  | cons w words ih =>
    rw [memory, List.flatMap_cons, ← memory]
    cases i with
    | zero => exact List.take_left' (length_store 8 _)
    | succ i =>
      rw [Nat.mul_succ, Nat.add_comm, ← List.drop_drop, List.drop_left' (length_store 8 _),
        ih (Nat.lt_of_succ_lt_succ hi), List.getElem_cons_succ]

/-- A word is read from where it was written. -/
theorem wordAt_memory {words : List UInt64} {i : ℕ} (hi : i < words.length) :
    wordAt (memory words) i = words[i] := by
  have hlt : (words[i]).toNat < 256 ^ 8 := UInt64.toNat_lt _
  rw [wordAt, take_drop_memory hi, load_store, Nat.mod_eq_of_lt hlt, UInt64.ofNat_toNat]

/-- Words are known from their bytes. -/
theorem memory_inj {words words' : List UInt64} (hlength : words.length = words'.length)
    (hmemory : memory words = memory words') : words = words' := by
  apply List.ext_getElem hlength
  intro i hi hi'
  rw [← wordAt_memory hi, ← wordAt_memory hi', hmemory]

/-- The lowest byte of a word is the first one in memory. -/
theorem toUInt8_wordAt {bytes : List UInt8} {i : ℕ} (hi : 8 * i < bytes.length) :
    (wordAt bytes i).toUInt8 = bytes[8 * i] := by
  have hfirst : (bytes.drop (8 * i)).take 8 = bytes[8 * i] :: (bytes.drop (8 * i + 1)).take 7 := by
    rw [List.drop_eq_getElem_cons hi, List.take_succ_cons]
  have hlow : ∀ m b : ℕ, (256 * m + b) % 2 ^ 64 % 2 ^ 8 = b % 2 ^ 8 := by
    intro m b
    omega
  apply UInt8.toNat_inj.mp
  rw [wordAt, hfirst, load, List.reverse_cons, BigEndian.ofBigEndian_concat, UInt64.toNat_toUInt8,
    UInt64.toNat_ofNat', hlow]
  exact Nat.mod_eq_of_lt (UInt8.toNat_lt _)

section Copies

variable {n : ℕ}

/-- The lowest byte of a word after a copy: the copied one, or the one that was there. -/
theorem toUInt8_memcpyWords (words : Vector UInt64 n) (bytes : List UInt8) (i : Fin n) :
    ((memcpyWords words bytes).get i).toUInt8 =
      if h : 8 * i.val < bytes.length then bytes[8 * i.val] else (words.get i).toUInt8 := by
  have hword : i.val < words.toList.length := by
    rw [Vector.length_toList]
    exact i.isLt
  have hi : 8 * i.val < (memory words.toList).length := by
    rw [length_memory]
    omega
  have hcopy : 8 * i.val < (bytes ++ (memory words.toList).drop bytes.length).length := by
    rw [List.length_append, List.length_drop]
    omega
  have hcopied : (memcpyWords words bytes).get i =
      wordAt (bytes ++ (memory words.toList).drop bytes.length) i.val :=
    Vector.getElem_ofFn i.isLt
  rw [hcopied, toUInt8_wordAt hcopy]
  split_ifs with hbytes
  · exact List.getElem_append_left hbytes
  · have hkept : words.get i = wordAt (memory words.toList) i.val :=
      (Vector.getElem_toList hword).symm.trans (wordAt_memory hword).symm
    rw [hkept, toUInt8_wordAt hi, List.getElem_append_right (by omega), List.getElem_drop]
    congr 1
    omega

theorem get_memcpyBytes (buffer : Vector UInt8 n) {bytes : List UInt8} (i : Fin n)
    (hi : i.val < bytes.length) : (memcpyBytes buffer bytes).get i = bytes[i.val] := by
  have hcopied : (memcpyBytes buffer bytes).get i = bytes.getD i.val (buffer.get i) :=
    Vector.getElem_ofFn i.isLt
  rw [hcopied, List.getD_eq_getElem?_getD, List.getElem?_eq_getElem hi, Option.getD_some]

theorem getD_toList (buffer : Vector UInt8 n) (i : Fin n) :
    buffer.toList.getD i 0 = buffer.get i := by
  have hi : i.val < buffer.toList.length := by
    rw [Vector.length_toList]
    exact i.isLt
  rw [List.getD_eq_getElem?_getD, List.getElem?_eq_getElem hi, Option.getD_some,
    Vector.getElem_toList]
  rfl

/-- An array is copied to the front of a buffer. -/
theorem get_memcpyBytes_toList {m : ℕ} (buffer : Vector UInt8 n) (source : Vector UInt8 m)
    (i : Fin m) (hi : i.val < n) :
    (memcpyBytes buffer source.toList).get ⟨i.val, hi⟩ = source.get i := by
  have hlt : i.val < source.toList.length := by
    rw [Vector.length_toList]
    exact i.isLt
  rw [get_memcpyBytes buffer ⟨i.val, hi⟩ hlt, Vector.getElem_toList]
  rfl

/-- What was copied is there. -/
theorem take_memcpyBytes (buffer : Vector UInt8 n) {bytes : List UInt8}
    (hle : bytes.length ≤ n) : (memcpyBytes buffer bytes).toList.take bytes.length = bytes := by
  apply List.ext_getElem
  · rw [List.length_take, Vector.length_toList]
    omega
  · intro i _ hi
    rw [List.getElem_take, Vector.getElem_toList]
    exact get_memcpyBytes buffer ⟨i, by omega⟩ hi

end Copies

end Blackstone.P2PCrypto
