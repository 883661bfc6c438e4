import Blackstone.BankCrypto.Context
import Blackstone.Library.Aes
import Mathlib.Data.List.GetD
import Mathlib.Tactic.IntervalCases

/-!
# AES-256

`aes/bank_aes_core.cpp`. Two things differ from FIPS 197. The key expansion xors the constant of
the first round in every round. The new byte `a ^ b ^ xtime(a ^ b) ^ t` of a mixed column has the
coefficients 2, 2, 1, 1 where the standard has 2, 3, 1, 1, so that a change of all four bytes of a
column by one value is lost (`mixColumns_eq_of_shift`).

Therefore encryption is not injective under any key (`encryptBlock_not_injective`): no key makes
it AES (`encryptBlock_never_aes`), and decryption undoes it under none
(`decryptBlock_never_inverse`).
-/

namespace Blackstone.BankCrypto

/-! ## The transformations -/

def sboxTable : List UInt8 :=
  [0x63, 0x7c, 0x77, 0x7b, 0xf2, 0x6b, 0x6f, 0xc5, 0x30, 0x01, 0x67, 0x2b,
  0xfe, 0xd7, 0xab, 0x76, 0xca, 0x82, 0xc9, 0x7d, 0xfa, 0x59, 0x47, 0xf0,
  0xad, 0xd4, 0xa2, 0xaf, 0x9c, 0xa4, 0x72, 0xc0, 0xb7, 0xfd, 0x93, 0x26,
  0x36, 0x3f, 0xf7, 0xcc, 0x34, 0xa5, 0xe5, 0xf1, 0x71, 0xd8, 0x31, 0x15,
  0x04, 0xc7, 0x23, 0xc3, 0x18, 0x96, 0x05, 0x9a, 0x07, 0x12, 0x80, 0xe2,
  0xeb, 0x27, 0xb2, 0x75, 0x09, 0x83, 0x2c, 0x1a, 0x1b, 0x6e, 0x5a, 0xa0,
  0x52, 0x3b, 0xd6, 0xb3, 0x29, 0xe3, 0x2f, 0x84, 0x53, 0xd1, 0x00, 0xed,
  0x20, 0xfc, 0xb1, 0x5b, 0x6a, 0xcb, 0xbe, 0x39, 0x4a, 0x4c, 0x58, 0xcf,
  0xd0, 0xef, 0xaa, 0xfb, 0x43, 0x4d, 0x33, 0x85, 0x45, 0xf9, 0x02, 0x7f,
  0x50, 0x3c, 0x9f, 0xa8, 0x51, 0xa3, 0x40, 0x8f, 0x92, 0x9d, 0x38, 0xf5,
  0xbc, 0xb6, 0xda, 0x21, 0x10, 0xff, 0xf3, 0xd2, 0xcd, 0x0c, 0x13, 0xec,
  0x5f, 0x97, 0x44, 0x17, 0xc4, 0xa7, 0x7e, 0x3d, 0x64, 0x5d, 0x19, 0x73,
  0x60, 0x81, 0x4f, 0xdc, 0x22, 0x2a, 0x90, 0x88, 0x46, 0xee, 0xb8, 0x14,
  0xde, 0x5e, 0x0b, 0xdb, 0xe0, 0x32, 0x3a, 0x0a, 0x49, 0x06, 0x24, 0x5c,
  0xc2, 0xd3, 0xac, 0x62, 0x91, 0x95, 0xe4, 0x79, 0xe7, 0xc8, 0x37, 0x6d,
  0x8d, 0xd5, 0x4e, 0xa9, 0x6c, 0x56, 0xf4, 0xea, 0x65, 0x7a, 0xae, 0x08,
  0xba, 0x78, 0x25, 0x2e, 0x1c, 0xa6, 0xb4, 0xc6, 0xe8, 0xdd, 0x74, 0x1f,
  0x4b, 0xbd, 0x8b, 0x8a, 0x70, 0x3e, 0xb5, 0x66, 0x48, 0x03, 0xf6, 0x0e,
  0x61, 0x35, 0x57, 0xb9, 0x86, 0xc1, 0x1d, 0x9e, 0xe1, 0xf8, 0x98, 0x11,
  0x69, 0xd9, 0x8e, 0x94, 0x9b, 0x1e, 0x87, 0xe9, 0xce, 0x55, 0x28, 0xdf,
  0x8c, 0xa1, 0x89, 0x0d, 0xbf, 0xe6, 0x42, 0x68, 0x41, 0x99, 0x2d, 0x0f,
  0xb0, 0x54, 0xbb, 0x16]

def invSboxTable : List UInt8 :=
  [0x52, 0x09, 0x6a, 0xd5, 0x30, 0x36, 0xa5, 0x38, 0xbf, 0x40, 0xa3, 0x9e,
  0x81, 0xf3, 0xd7, 0xfb, 0x7c, 0xe3, 0x39, 0x82, 0x9b, 0x2f, 0xff, 0x87,
  0x34, 0x8e, 0x43, 0x44, 0xc4, 0xde, 0xe9, 0xcb, 0x54, 0x7b, 0x94, 0x32,
  0xa6, 0xc2, 0x23, 0x3d, 0xee, 0x4c, 0x95, 0x0b, 0x42, 0xfa, 0xc3, 0x4e,
  0x08, 0x2e, 0xa1, 0x66, 0x28, 0xd9, 0x24, 0xb2, 0x76, 0x5b, 0xa2, 0x49,
  0x6d, 0x8b, 0xd1, 0x25, 0x72, 0xf8, 0xf6, 0x64, 0x86, 0x68, 0x98, 0x16,
  0xd4, 0xa4, 0x5c, 0xcc, 0x5d, 0x65, 0xb6, 0x92, 0x6c, 0x70, 0x48, 0x50,
  0xfd, 0xed, 0xb9, 0xda, 0x5e, 0x15, 0x46, 0x57, 0xa7, 0x8d, 0x9d, 0x84,
  0x90, 0xd8, 0xab, 0x00, 0x8c, 0xbc, 0xd3, 0x0a, 0xf7, 0xe4, 0x58, 0x05,
  0xb8, 0xb3, 0x45, 0x06, 0xd0, 0x2c, 0x1e, 0x8f, 0xca, 0x3f, 0x0f, 0x02,
  0xc1, 0xaf, 0xbd, 0x03, 0x01, 0x13, 0x8a, 0x6b, 0x3a, 0x91, 0x11, 0x41,
  0x4f, 0x67, 0xdc, 0xea, 0x97, 0xf2, 0xcf, 0xce, 0xf0, 0xb4, 0xe6, 0x73,
  0x96, 0xac, 0x74, 0x22, 0xe7, 0xad, 0x35, 0x85, 0xe2, 0xf9, 0x37, 0xe8,
  0x1c, 0x75, 0xdf, 0x6e, 0x47, 0xf1, 0x1a, 0x71, 0x1d, 0x29, 0xc5, 0x89,
  0x6f, 0xb7, 0x62, 0x0e, 0xaa, 0x18, 0xbe, 0x1b, 0xfc, 0x56, 0x3e, 0x4b,
  0xc6, 0xd2, 0x79, 0x20, 0x9a, 0xdb, 0xc0, 0xfe, 0x78, 0xcd, 0x5a, 0xf4,
  0x1f, 0xdd, 0xa8, 0x33, 0x88, 0x07, 0xc7, 0x31, 0xb1, 0x12, 0x10, 0x59,
  0x27, 0x80, 0xec, 0x5f, 0x60, 0x51, 0x7f, 0xa9, 0x19, 0xb5, 0x4a, 0x0d,
  0x2d, 0xe5, 0x7a, 0x9f, 0x93, 0xc9, 0x9c, 0xef, 0xa0, 0xe0, 0x3b, 0x4d,
  0xae, 0x2a, 0xf5, 0xb0, 0xc8, 0xeb, 0xbb, 0x3c, 0x83, 0x53, 0x99, 0x61,
  0x17, 0x2b, 0x04, 0x7e, 0xba, 0x77, 0xd6, 0x26, 0xe1, 0x69, 0x14, 0x63,
  0x55, 0x21, 0x0c, 0x7d]

/-- `bank_sbox`. -/
def sbox (x : UInt8) : UInt8 := sboxTable.getD x.toNat 0

/-- `bank_inv_sbox`. -/
def invSbox (x : UInt8) : UInt8 := invSboxTable.getD x.toNat 0

/-- `bank_xtime`. -/
def xtime (x : UInt8) : UInt8 := (x <<< 1) ^^^ (if x &&& 0x80 ≠ 0 then 0x1b else 0)

/-- `bank_aes_sub_bytes`. -/
def subBytes (state : Bytes 16) : Bytes 16 := state.map sbox

/-- `bank_aes_inv_sub_bytes`. -/
def invSubBytes (state : Bytes 16) : Bytes 16 := state.map invSbox

/-- `state[i]`. -/
def byteAt (state : Bytes 16) (i : ℕ) : UInt8 := state.toList.getD i 0

/-- `state[i] = state[j]`. -/
def assign (state : Bytes 16) (i j : ℕ) : Bytes 16 := state.setIfInBounds i (byteAt state j)

/-- `bank_aes_shift_rows`. -/
def shiftRows (state : Bytes 16) : Bytes 16 :=
  let t := byteAt state 1
  let state := assign (assign (assign state 1 5) 5 9) 9 13
  let state := state.setIfInBounds 13 t
  let t := byteAt state 2
  let state := (assign state 2 10).setIfInBounds 10 t
  let t := byteAt state 6
  let state := (assign state 6 14).setIfInBounds 14 t
  let t := byteAt state 3
  let state := assign (assign (assign state 3 15) 15 11) 11 7
  state.setIfInBounds 7 t

/-- `bank_aes_inv_shift_rows`. -/
def invShiftRows (state : Bytes 16) : Bytes 16 :=
  let t := byteAt state 13
  let state := assign (assign (assign state 13 9) 9 5) 5 1
  let state := state.setIfInBounds 1 t
  let t := byteAt state 10
  let state := (assign state 10 2).setIfInBounds 2 t
  let t := byteAt state 14
  let state := (assign state 14 6).setIfInBounds 6 t
  let t := byteAt state 7
  let state := assign (assign (assign state 7 11) 11 15) 15 3
  state.setIfInBounds 3 t

/-- The body of a loop over the columns, which replaces column `i` by what `f` makes of it. -/
def replaceColumn (f : ℕ → UInt8 → UInt8 → UInt8 → UInt8 → Bytes 4) (state : Bytes 16) (i : ℕ) :
    Bytes 16 :=
  let column := f i (byteAt state (i * 4)) (byteAt state (i * 4 + 1)) (byteAt state (i * 4 + 2))
    (byteAt state (i * 4 + 3))
  (((state.setIfInBounds (i * 4) (column.toList.getD 0 0)).setIfInBounds (i * 4 + 1)
    (column.toList.getD 1 0)).setIfInBounds (i * 4 + 2) (column.toList.getD 2 0)).setIfInBounds
    (i * 4 + 3) (column.toList.getD 3 0)

def mapColumns (f : ℕ → UInt8 → UInt8 → UInt8 → UInt8 → Bytes 4) (state : Bytes 16) : Bytes 16 :=
  (List.range 4).foldl (replaceColumn f) state

def mixColumn (a b c d : UInt8) : Bytes 4 :=
  let t := a ^^^ b ^^^ c ^^^ d
  #v[a ^^^ b ^^^ xtime (a ^^^ b) ^^^ t, b ^^^ c ^^^ xtime (b ^^^ c) ^^^ t,
    c ^^^ d ^^^ xtime (c ^^^ d) ^^^ t, d ^^^ a ^^^ xtime (d ^^^ a) ^^^ t]

/-- `bank_aes_mix_columns`. -/
def mixColumns (state : Bytes 16) : Bytes 16 := mapColumns (fun _ => mixColumn) state

def invMixColumn (a b c d : UInt8) : Bytes 4 :=
  #v[xtime (xtime (a ^^^ c) ^^^ (c ^^^ d)) ^^^ (xtime (a ^^^ b) ^^^ (a ^^^ d)),
    xtime (xtime (b ^^^ d) ^^^ (d ^^^ a)) ^^^ (xtime (b ^^^ c) ^^^ (b ^^^ a)),
    xtime (xtime (c ^^^ a) ^^^ (a ^^^ b)) ^^^ (xtime (c ^^^ d) ^^^ (c ^^^ b)),
    xtime (xtime (d ^^^ b) ^^^ (b ^^^ c)) ^^^ (xtime (d ^^^ a) ^^^ (d ^^^ c))]

/-- `bank_aes_inv_mix_columns`. -/
def invMixColumns (state : Bytes 16) : Bytes 16 := mapColumns (fun _ => invMixColumn) state

/-- `bank_aes_add_round_key`. -/
def addRoundKey (state : Bytes 16) (key : List UInt32) (round : ℕ) : Bytes 16 :=
  mapColumns (fun i a b c d =>
    let word := key.getD (round * 4 + i) 0
    #v[a ^^^ ((word >>> 24) &&& 0xff).toUInt8, b ^^^ ((word >>> 16) &&& 0xff).toUInt8,
      c ^^^ ((word >>> 8) &&& 0xff).toUInt8, d ^^^ (word &&& 0xff).toUInt8]) state

/-! ## The key schedule -/

/-- The four table lookups on a word. -/
def subWord (temp : UInt32) : UInt32 :=
  ((sbox (temp >>> 24).toUInt8).toUInt32 <<< 24) |||
    ((sbox ((temp >>> 16) &&& 0xff).toUInt8).toUInt32 <<< 16) |||
    ((sbox ((temp >>> 8) &&& 0xff).toUInt8).toUInt32 <<< 8) |||
    (sbox (temp &&& 0xff).toUInt8).toUInt32

/-- The word `temp` of the second loop of `bank_aes_key_expansion`. -/
def expansionTemp (nk i : ℕ) (temp : UInt32) : UInt32 :=
  if i % nk = 0 then subWord ((temp <<< 8) ||| (temp >>> 24)) ^^^ 0x01000000
  else if 6 < nk ∧ i % nk = 4 then subWord temp
  else temp

/-- `bank_aes_key_expansion`. -/
def keyExpansion (key : List UInt8) (roundKeys : List UInt32) (keyBits : ℕ) : List UInt32 :=
  let nk := keyBits / 32
  let nr := nk + 6
  let roundKeys := (List.range nk).foldl (fun roundKeys i =>
    roundKeys.set i (((key.getD (i * 4) 0).toUInt32 <<< 24) |||
      ((key.getD (i * 4 + 1) 0).toUInt32 <<< 16) ||| ((key.getD (i * 4 + 2) 0).toUInt32 <<< 8) |||
      (key.getD (i * 4 + 3) 0).toUInt32)) roundKeys
  (List.range ((nr + 1) * 4 - nk)).foldl (fun roundKeys j =>
    let i := j + nk
    let temp := expansionTemp nk i (roundKeys.getD (i - 1) 0)
    roundKeys.set i (roundKeys.getD (i - nk) 0 ^^^ temp)) roundKeys

/-- `bank_aes256_key`, without the numbers of rounds, which nothing reads. -/
structure Aes256Key where
  encKey : List UInt32
  decKey : List UInt32

/-- `bank_aes256_set_key`. -/
def aes256SetKey (userKey : Bytes 32) : Aes256Key :=
  let encRoundKeys := keyExpansion userKey.toList (List.replicate 60 0) 256
  let decRoundKeys := (List.range 15).foldl (fun dec i =>
    (List.range 4).foldl (fun dec j =>
      dec.set ((14 - i) * 4 + j) (encRoundKeys.getD (i * 4 + j) 0)) dec) (List.replicate 60 0)
  ⟨encRoundKeys, decRoundKeys⟩

/-! ## Encryption and decryption of a block -/

def encryptRound (key : Aes256Key) (state : Bytes 16) (round : ℕ) : Bytes 16 :=
  addRoundKey (mixColumns (shiftRows (subBytes state))) key.encKey round

/-- `bank_aes_encrypt_block`. -/
def aesEncryptBlock (key : Aes256Key) (input : Bytes 16) : Bytes 16 :=
  let state := addRoundKey input key.encKey 0
  let state := (List.range 13).foldl (fun state i => encryptRound key state (i + 1)) state
  addRoundKey (shiftRows (subBytes state)) key.encKey 14

def decryptRound (key : Aes256Key) (state : Bytes 16) (round : ℕ) : Bytes 16 :=
  invMixColumns (addRoundKey (invSubBytes (invShiftRows state)) key.decKey round)

/-- `bank_aes_decrypt_block`. -/
def aesDecryptBlock (key : Aes256Key) (input : Bytes 16) : Bytes 16 :=
  let state := addRoundKey input key.decKey 0
  let state := (List.range 13).foldl (fun state i => decryptRound key state (i + 1)) state
  addRoundKey (invSubBytes (invShiftRows state)) key.decKey 14

/-! ## The transformations on entries -/

theorem byteAt_setIfInBounds (s : Bytes 16) {i : ℕ} (hi : i < 16) (v : UInt8) (j : ℕ) :
    byteAt (s.setIfInBounds i v) j = if i = j then v else byteAt s j := by
  rw [byteAt, byteAt, Vector.toList_setIfInBounds, List.getD_eq_getElem?_getD,
    List.getElem?_set, List.getD_eq_getElem?_getD]
  split_ifs with hij hlt
  · rfl
  · rw [Vector.length_toList] at hlt
    omega
  · rfl

theorem byteAt_assign (s : Bytes 16) {i : ℕ} (hi : i < 16) (j k : ℕ) :
    byteAt (assign s i j) k = if i = k then byteAt s j else byteAt s k :=
  byteAt_setIfInBounds s hi _ k

theorem bytes16_ext {s t : Bytes 16} (h : ∀ i < 16, byteAt s i = byteAt t i) : s = t := by
  apply Vector.ext
  intro i hi
  have hbyte := h i hi
  rwa [byteAt, byteAt, Aes.getD_toList _ hi, Aes.getD_toList _ hi] at hbyte

theorem sbox_invSbox (x : UInt8) : sbox (invSbox x) = x := by
  have htable : invSboxTable.map sbox = (List.range 256).map UInt8.ofNat := by decide +kernel
  have hlookup : sbox (invSbox x) = (invSboxTable.map sbox).getD x.toNat (sbox 0) :=
    (List.getD_map _ _ sbox).symm
  have hlt : x.toNat < ((List.range 256).map UInt8.ofNat).length := by
    rw [List.length_map, List.length_range]
    exact x.toNat_lt
  rw [hlookup, htable, List.getD_eq_getElem _ _ hlt, List.getElem_map, List.getElem_range,
    UInt8.ofNat_toNat]

theorem invSbox_sbox (x : UInt8) : invSbox (sbox x) = x := by
  have hfinite : Finite UInt8 := Finite.of_injective UInt8.toFin fun _ _ => UInt8.toFin_inj.mp
  have hinj : Function.Injective invSbox := Function.LeftInverse.injective sbox_invSbox
  exact Function.LeftInverse.rightInverse_of_surjective sbox_invSbox
    (Finite.injective_iff_surjective.mp hinj) x

theorem sbox_injective : Function.Injective sbox := Function.LeftInverse.injective invSbox_sbox

theorem subBytes_invSubBytes (s : Bytes 16) : subBytes (invSubBytes s) = s := by
  rw [subBytes, invSubBytes, Vector.map_map]
  conv_rhs => rw [← Vector.map_id s]
  congr 1
  funext x
  exact sbox_invSbox x

theorem shiftRows_invShiftRows (s : Bytes 16) : shiftRows (invShiftRows s) = s := by
  apply bytes16_ext
  intro i hi
  interval_cases i <;> simp [shiftRows, invShiftRows, byteAt_setIfInBounds, byteAt_assign]

theorem byteAt_replaceColumn (f : ℕ → UInt8 → UInt8 → UInt8 → UInt8 → Bytes 4) (s : Bytes 16)
    {i : ℕ} (hi : i < 4) (r c : Fin 4) :
    byteAt (replaceColumn f s i) (4 * c.val + r.val) =
      if c.val = i then (f i (byteAt s (i * 4)) (byteAt s (i * 4 + 1)) (byteAt s (i * 4 + 2))
        (byteAt s (i * 4 + 3))).get r
      else byteAt s (4 * c.val + r.val) := by
  rw [replaceColumn, byteAt_setIfInBounds _ (by omega), byteAt_setIfInBounds _ (by omega),
    byteAt_setIfInBounds _ (by omega), byteAt_setIfInBounds _ (by omega)]
  by_cases hc : c.val = i
  · rw [if_pos hc]
    subst hc
    fin_cases r <;>
      · simp [Nat.mul_comm]
        rfl
  · rw [if_neg hc, if_neg (by omega), if_neg (by omega), if_neg (by omega), if_neg (by omega)]

/-- The loop makes every new column of the old one. -/
theorem entry_mapColumns (f : ℕ → UInt8 → UInt8 → UInt8 → UInt8 → Bytes 4) (s : Bytes 16)
    (r c : Fin 4) :
    Aes.entry (mapColumns f s) r c = (f c.val (Aes.entry s 0 c) (Aes.entry s 1 c)
      (Aes.entry s 2 c) (Aes.entry s 3 c)).get r := by
  have hrounds : ∀ n ≤ 4, ∀ r c : Fin 4,
      Aes.entry ((List.range n).foldl (replaceColumn f) s) r c =
        if c.val < n then (f c.val (Aes.entry s 0 c) (Aes.entry s 1 c) (Aes.entry s 2 c)
          (Aes.entry s 3 c)).get r
        else Aes.entry s r c := by
    intro n hn
    induction n with
    | zero => intro r c; rfl
    | succ n ih =>
      intro r c
      have hlast := byteAt_replaceColumn f ((List.range n).foldl (replaceColumn f) s)
        (show n < 4 by omega) r c
      rw [List.range_succ, List.foldl_append, List.foldl_cons, List.foldl_nil]
      change byteAt _ _ = _
      rw [hlast]
      by_cases hc : c.val = n
      · subst hc
        have hold : ∀ r : Fin 4, byteAt ((List.range c.val).foldl (replaceColumn f) s)
            (c.val * 4 + r.val) = Aes.entry s r c := by
          intro r
          have hbyte := ih (by omega) r c
          rwa [if_neg (lt_irrefl _), Aes.entry, Nat.mul_comm] at hbyte
        rw [if_pos rfl, if_pos (Nat.lt_succ_self _)]
        exact congrArg (·.get r) (congr (congr (congr (congrArg (f c.val) (hold 0)) (hold 1))
          (hold 2)) (hold 3))
      · rw [if_neg hc]
        change Aes.entry _ r c = _
        rw [ih (by omega)]
        by_cases hlt : c.val < n
        · rw [if_pos hlt, if_pos (Nat.lt_succ_of_lt hlt)]
        · rw [if_neg hlt, if_neg (by omega)]
  rw [mapColumns, hrounds 4 le_rfl, if_pos c.isLt]

theorem addRoundKey_addRoundKey (s : Bytes 16) (key : List UInt32) (round : ℕ) :
    addRoundKey (addRoundKey s key round) key round = s := by
  apply Aes.state_ext
  intro r c
  rw [addRoundKey, addRoundKey, entry_mapColumns]
  simp only [entry_mapColumns]
  fin_cases r
  · exact Aes.xor_cancel_right _ _
  · exact Aes.xor_cancel_right _ _
  · exact Aes.xor_cancel_right _ _
  · exact Aes.xor_cancel_right _ _

/-! ## What the columns lose -/

/-- The two states differ in each column by one value for all four bytes of it. -/
def SameUpToShift (s t : Bytes 16) : Prop :=
  ∃ shift : Fin 4 → UInt8, ∀ r c, Aes.entry t r c = Aes.entry s r c ^^^ shift c

theorem xor_shift (a b e : UInt8) : a ^^^ e ^^^ (b ^^^ e) = a ^^^ b := by
  rw [UInt8.xor_comm b, ← UInt8.xor_assoc, Aes.xor_cancel_right]

theorem xor_xor_shift (a b c e : UInt8) : a ^^^ (b ^^^ e) ^^^ (c ^^^ e) = a ^^^ b ^^^ c := by
  rw [UInt8.xor_assoc, xor_shift, ← UInt8.xor_assoc]

theorem mixColumn_shift (a b c d e : UInt8) :
    mixColumn (a ^^^ e) (b ^^^ e) (c ^^^ e) (d ^^^ e) = mixColumn a b c d := by
  simp only [mixColumn, xor_shift, xor_xor_shift]

theorem mixColumns_eq_of_shift {s t : Bytes 16} (h : SameUpToShift s t) :
    mixColumns s = mixColumns t := by
  obtain ⟨shift, hshift⟩ := h
  apply Aes.state_ext
  intro r c
  rw [mixColumns, mixColumns, entry_mapColumns, entry_mapColumns, hshift, hshift, hshift, hshift,
    mixColumn_shift]

/-- The exclusive or of the bytes of a column. -/
def columnSum (s : Bytes 16) (c : Fin 4) : UInt8 :=
  byteAt s (4 * c.val) ^^^ byteAt s (4 * c.val + 1) ^^^ byteAt s (4 * c.val + 2) ^^^
    byteAt s (4 * c.val + 3)

theorem xtime_xor (a b : UInt8) : xtime (a ^^^ b) = xtime a ^^^ xtime b := Aes.xTimes_xor a b

/-- The coefficients 7, 2, 6, 3 of the inverse transformation add up to 0. -/
theorem invMixColumn_sum (a b c d : UInt8) :
    (invMixColumn a b c d).get 0 ^^^ (invMixColumn a b c d).get 1 ^^^
      (invMixColumn a b c d).get 2 ^^^ (invMixColumn a b c d).get 3 = 0 := by
  change xtime (xtime (a ^^^ c) ^^^ (c ^^^ d)) ^^^ (xtime (a ^^^ b) ^^^ (a ^^^ d)) ^^^
    (xtime (xtime (b ^^^ d) ^^^ (d ^^^ a)) ^^^ (xtime (b ^^^ c) ^^^ (b ^^^ a))) ^^^
    (xtime (xtime (c ^^^ a) ^^^ (a ^^^ b)) ^^^ (xtime (c ^^^ d) ^^^ (c ^^^ b))) ^^^
    (xtime (xtime (d ^^^ b) ^^^ (b ^^^ c)) ^^^ (xtime (d ^^^ a) ^^^ (d ^^^ c))) = 0
  simp only [xtime_xor, UInt8.xor_assoc, UInt8.xor_comm, Aes.xor_left_comm, Aes.xor_cancel,
    UInt8.xor_self]

theorem columnSum_invMixColumns (s : Bytes 16) (c : Fin 4) :
    columnSum (invMixColumns s) c = 0 := by
  change Aes.entry _ 0 c ^^^ Aes.entry _ 1 c ^^^ Aes.entry _ 2 c ^^^ Aes.entry _ 3 c = 0
  simp only [invMixColumns, entry_mapColumns]
  exact invMixColumn_sum _ _ _ _

/-! ## Encryption loses information -/

/-- The state of which the first round mixes the columns. -/
def beforeMix (key : Aes256Key) (block : Bytes 16) : Bytes 16 :=
  shiftRows (subBytes (addRoundKey block key.encKey 0))

theorem exists_beforeMix (key : Aes256Key) (s : Bytes 16) : ∃ block, beforeMix key block = s := by
  refine ⟨addRoundKey (invSubBytes (invShiftRows s)) key.encKey 0, ?_⟩
  rw [beforeMix, addRoundKey_addRoundKey, subBytes_invSubBytes, shiftRows_invShiftRows]

theorem aesEncryptBlock_eq_of_shift {key : Aes256Key} {s t : Bytes 16}
    (h : SameUpToShift (beforeMix key s) (beforeMix key t)) :
    aesEncryptBlock key s = aesEncryptBlock key t := by
  have hround : encryptRound key (addRoundKey s key.encKey 0) 1 =
      encryptRound key (addRoundKey t key.encKey 0) 1 := by
    have hmix := mixColumns_eq_of_shift h
    rw [encryptRound, encryptRound]
    exact congrArg (addRoundKey · key.encKey 1) hmix
  have hrange : List.range 13 = 0 :: (List.range 12).map Nat.succ := List.range_succ_eq_map
  rw [aesEncryptBlock, aesEncryptBlock, hrange, List.foldl_cons, List.foldl_cons, hround]

/-- Every block has another that is encrypted like it. -/
theorem exists_sameUpToShift (key : Aes256Key) (block : Bytes 16) :
    ∃ block' ≠ block, SameUpToShift (beforeMix key block) (beforeMix key block') := by
  let shifted : Bytes 16 := Aes.ofEntries fun r c => Aes.entry (beforeMix key block) r c ^^^ 1
  obtain ⟨block', hblock'⟩ := exists_beforeMix key shifted
  refine ⟨block', ?_, fun _ => 1, ?_⟩
  · rintro rfl
    have hentry := congrArg (Aes.entry · 0 0) hblock'
    simp only [shifted, Aes.entry_ofEntries] at hentry
    have hone : (1 : UInt8) = 0 := by
      rw [← Aes.xor_cancel (Aes.entry (beforeMix key block') 0 0) 1, ← hentry, UInt8.xor_self]
    exact absurd hone (by decide)
  · intro r c
    rw [hblock', Aes.entry_ofEntries]

theorem aesEncryptBlock_not_injective (key : Aes256Key) :
    ¬ Function.Injective (aesEncryptBlock key) := by
  intro hinj
  obtain ⟨block', hne, hshift⟩ := exists_sameUpToShift key (zeroBytes 16)
  exact hne (hinj (aesEncryptBlock_eq_of_shift hshift)).symm

/-- Under no key is it AES-256. Of the blocks that are alike up to a shift of the columns before
the first mixing, which are encrypted alike, at most one is encrypted as AES does. -/
theorem aesEncryptBlock_never_aes (userKey : Bytes 32) :
    (¬ ∀ block, aesEncryptBlock (aes256SetKey userKey) block =
      Aes.encrypt sbox 8 userKey.toList block) ∧
      ∀ s t, s ≠ t →
        SameUpToShift (beforeMix (aes256SetKey userKey) s) (beforeMix (aes256SetKey userKey) t) →
        aesEncryptBlock (aes256SetKey userKey) s = aesEncryptBlock (aes256SetKey userKey) t ∧
        ¬ (aesEncryptBlock (aes256SetKey userKey) s = Aes.encrypt sbox 8 userKey.toList s ∧
          aesEncryptBlock (aes256SetKey userKey) t = Aes.encrypt sbox 8 userKey.toList t) := by
  have hinj := Aes.encrypt_injective sbox_injective 8 userKey.toList
  constructor
  · intro haes
    apply aesEncryptBlock_not_injective (aes256SetKey userKey)
    intro s t h
    rw [haes, haes] at h
    exact hinj h
  · intro s t hne hshift
    have hsame := aesEncryptBlock_eq_of_shift hshift
    refine ⟨hsame, ?_⟩
    rintro ⟨hs, ht⟩
    exact hne (hinj (hs.symm.trans (hsame.trans ht)))

/-- The key of the last example of FIPS 197. -/
def exampleKey : Bytes 32 := Vector.ofFn fun i => UInt8.ofNat i.val

def exampleBlock : Bytes 16 := Vector.ofFn fun i => UInt8.ofNat (17 * i.val)

/-- The ciphertext of the example, and the byte that the code has for its first one. -/
theorem aesEncryptBlock_ne_aes :
    Aes.encrypt sbox 8 exampleKey.toList exampleBlock =
        #v[0x8e, 0xa2, 0xb7, 0xca, 0x51, 0x67, 0x45, 0xbf, 0xea, 0xfc, 0x49, 0x90, 0x4b, 0x49,
          0x60, 0x89] ∧
      aesEncryptBlock (aes256SetKey exampleKey) exampleBlock ≠
        Aes.encrypt sbox 8 exampleKey.toList exampleBlock := by
  have hstandard : Aes.encrypt sbox 8 exampleKey.toList exampleBlock =
      #v[0x8e, 0xa2, 0xb7, 0xca, 0x51, 0x67, 0x45, 0xbf, 0xea, 0xfc, 0x49, 0x90, 0x4b, 0x49,
        0x60, 0x89] := by decide +kernel
  have hcode : byteAt (aesEncryptBlock (aes256SetKey exampleKey) exampleBlock) 0 = 0x04 := by
    decide +kernel
  refine ⟨hstandard, fun hsame => ?_⟩
  rw [hsame, hstandard] at hcode
  exact absurd hcode (by decide)

/-! ## Decryption -/

/-- Whatever is decrypted, the columns before the end of the last round have the sum 0. -/
theorem columnSum_aesDecryptBlock (key : Aes256Key) (block : Bytes 16) (c : Fin 4) :
    columnSum (shiftRows (subBytes (addRoundKey (aesDecryptBlock key block) key.decKey 14))) c =
      0 := by
  have hrange : List.range 13 = List.range 12 ++ [12] := List.range_succ
  rw [aesDecryptBlock, hrange, List.foldl_append, List.foldl_cons, List.foldl_nil]
  simp only [addRoundKey_addRoundKey, subBytes_invSubBytes, shiftRows_invShiftRows]
  exact columnSum_invMixColumns _ c

/-- Under no key does decryption undo encryption, nor is encryption injective. The blocks that come
back are among those whose columns have the sum 0 after the last round key of decryption, the
S-box and the shift of the rows. -/
theorem aesDecryptBlock_never_inverse (userKey : Bytes 32) :
    (¬ ∀ block, aesDecryptBlock (aes256SetKey userKey)
      (aesEncryptBlock (aes256SetKey userKey) block) = block) ∧
      ¬ Function.Injective (aesEncryptBlock (aes256SetKey userKey)) ∧
      ∀ block, aesDecryptBlock (aes256SetKey userKey)
          (aesEncryptBlock (aes256SetKey userKey) block) = block →
        ∀ c, columnSum (shiftRows (subBytes
          (addRoundKey block (aes256SetKey userKey).decKey 14))) c = 0 := by
  have hnot := aesEncryptBlock_not_injective (aes256SetKey userKey)
  refine ⟨fun hback => hnot (Function.LeftInverse.injective hback), hnot, ?_⟩
  intro block hback c
  rw [← hback]
  exact columnSum_aesDecryptBlock _ _ c

theorem aesDecryptBlock_ne :
    aesDecryptBlock (aes256SetKey exampleKey)
      (aesEncryptBlock (aes256SetKey exampleKey) exampleBlock) ≠ exampleBlock := by
  intro hback
  have hsum := columnSum_aesDecryptBlock (aes256SetKey exampleKey)
    (aesEncryptBlock (aes256SetKey exampleKey) exampleBlock) 0
  rw [hback] at hsum
  exact absurd hsum (by decide +kernel)

end Blackstone.BankCrypto
