import Blackstone.Bank.HexText
import Blackstone.Bank.PeerLink
import Blackstone.BankCrypto.Aes
import Blackstone.BankCrypto.ShaContext
import Mathlib.Data.List.Rotate

/-!
# AES-256

`aes256.cpp`. A key is read from 64 digits of a hash that has only 40, so `setKey` throws for
every text (`setKey_throws`). The expanded key has 176 bytes, which are 11 round keys, and 15 are
used: every block is encrypted and decrypted with bytes from behind the end of the array
(`block_expandKey`). So only the empty text comes back (`gcm_spec`).

No memory behind the array can help. The columns of `invMixColumns` are not those of the inverse,
and they lose the highest bits of two bytes (`invMixColumn_high`), so that no decryption with any
round keys undoes an encryption (`decryptBlock_never_undoes`), also not for the messages of the
peer link (`linkCipher_never_undone`).

The tables and the shifts of the rows are those of the other implementation, byte for byte.
-/

namespace Blackstone.Bank.Aes256

open BankCrypto (Bytes zeroBytes copyTo sbox subBytes invSubBytes shiftRows invShiftRows
  mapColumns entry_mapColumns)

/-! ## The transformations -/

def mixColumn (a b c d : UInt8) : Bytes 4 :=
  #v[(a <<< 1) ^^^ (b <<< 1) ^^^ b ^^^ c ^^^ d,
    a ^^^ (b <<< 1) ^^^ (c <<< 1) ^^^ c ^^^ d,
    a ^^^ b ^^^ (c <<< 1) ^^^ (d <<< 1) ^^^ d,
    (a <<< 1) ^^^ a ^^^ b ^^^ c ^^^ (d <<< 1)]

/-- `AdvancedAES256::mixColumns`. -/
def mixColumns (state : Bytes 16) : Bytes 16 := mapColumns (fun _ => mixColumn) state

def invMixColumn (a b c d : UInt8) : Bytes 4 :=
  #v[(a <<< 1) ^^^ (a <<< 2) ^^^ (a <<< 3) ^^^ b ^^^ (b <<< 3) ^^^ c ^^^ (c <<< 1) ^^^ d ^^^
      (d <<< 2),
    a ^^^ (a <<< 3) ^^^ b ^^^ (b <<< 1) ^^^ (b <<< 2) ^^^ c ^^^ (c <<< 3) ^^^ d ^^^ (d <<< 1),
    a ^^^ (a <<< 1) ^^^ b ^^^ (b <<< 3) ^^^ c ^^^ (c <<< 1) ^^^ (c <<< 2) ^^^ d ^^^ (d <<< 3),
    a ^^^ (a <<< 2) ^^^ b ^^^ (b <<< 1) ^^^ c ^^^ (c <<< 2) ^^^ (c <<< 3) ^^^ d ^^^ (d <<< 1) ^^^
      (d <<< 3)]

/-- `AdvancedAES256::invMixColumns`. -/
def invMixColumns (state : Bytes 16) : Bytes 16 := mapColumns (fun _ => invMixColumn) state

/-- `AdvancedAES256::addRoundKey`. -/
def addRoundKey (state roundKey : Bytes 16) : Bytes 16 := Vector.zipWith (· ^^^ ·) state roundKey

/-! ## The key -/

def rcon : List UInt8 := [0x00, 0x01, 0x02, 0x04, 0x08, 0x10, 0x20, 0x40, 0x80, 0x1b, 0x36]

/-- The bytes `temp` of `expandKey` and the next `rconIter`. -/
def expansionTemp (expandedKey : List UInt8) (rconIter : ℕ) : List UInt8 × ℕ :=
  let temp := expandedKey.drop (expandedKey.length - 4)
  if expandedKey.length % 32 = 0 then
    (((temp.rotate 1).map sbox).modifyHead (· ^^^ rcon.getD rconIter 0), rconIter + 1)
  else if expandedKey.length % 32 = 16 then (temp.map sbox, rconIter)
  else (temp, rconIter)

/-- The body of the loop of `expandKey`: four more bytes. -/
def expandStep (s : List UInt8 × ℕ) : List UInt8 × ℕ :=
  let temp := expansionTemp s.1 s.2
  (s.1 ++ List.zipWith (· ^^^ ·) (s.1.drop (s.1.length - 32)) temp.1, temp.2)

/-- `AdvancedAES256::expandKey`: the loop is left with 176 bytes. -/
def expandKey (key : Bytes 32) : List UInt8 := (expandStep^[36] (key.toList, 1)).1

/-- An `AdvancedAES256` object. -/
structure Cipher where
  key : Bytes 32
  initialized : Bool

/-- `AdvancedAES256::AdvancedAES256()`. -/
def Cipher.empty : Cipher := ⟨zeroBytes 32, false⟩

/-- The byte that `setKey` reads from a hash, unless `substr` or `stoi` throws. -/
def keyByte (h : Str) (i : ℕ) : Option UInt8 :=
  if h.length < i * 2 then none
  else (stoiHex ((h.drop (i * 2)).take 2)).map fun value => value.toUInt32.toUInt8

/-- The loop of `setKey`, and whether it comes to its end. -/
def readKey (h : Str) : List ℕ → Bytes 32 → Bytes 32 × Bool
  | [], key => (key, true)
  | i :: rest, key =>
    match keyByte h i with
    | none => (key, false)
    | some b => readKey h rest (key.setIfInBounds i b)

/-- The end of `setKey`, which is not reached after an exception. -/
def Cipher.afterLoop (aes : Cipher) (read : Bytes 32 × Bool) : Cipher × Bool :=
  (⟨read.1, aes.initialized || read.2⟩, read.2)

/-- `AdvancedAES256::setKey`: the object after the call, and whether the call returns. -/
def setKey (aes : Cipher) (keyMaterial : Str) : Cipher × Bool :=
  aes.afterLoop (readKey (sha1Double keyMaterial) (List.range 32) aes.key)

/-! ## Encryption and decryption -/

/-- The sixteen bytes behind a pointer into the expanded key, if `read` has them all. -/
def roundKeyAt (read : ℕ → Option UInt8) (offset : ℕ) : Option (Bytes 16) :=
  ((List.range 16).mapM fun i => read (offset + i)).map (copyTo (zeroBytes 16))

def encryptRound (read : ℕ → Option UInt8) (state : Bytes 16) (round : ℕ) : Option (Bytes 16) :=
  (roundKeyAt read (round * 16)).map (addRoundKey (mixColumns (shiftRows (subBytes state))))

/-- The body of the loop of `encryptECB`. -/
def encryptBlock (read : ℕ → Option UInt8) (state : Bytes 16) : Option (Bytes 16) := do
  let state := addRoundKey state (← roundKeyAt read 0)
  let state ← (List.range' 1 13).foldlM (encryptRound read) state
  return addRoundKey (shiftRows (subBytes state)) (← roundKeyAt read (14 * 16))

def decryptRound (read : ℕ → Option UInt8) (state : Bytes 16) (round : ℕ) : Option (Bytes 16) :=
  (roundKeyAt read (round * 16)).map fun roundKey =>
    invSubBytes (invShiftRows (invMixColumns (addRoundKey state roundKey)))

/-- The body of the loop of `decryptECB`. -/
def decryptBlock (read : ℕ → Option UInt8) (state : Bytes 16) : Option (Bytes 16) := do
  let state := addRoundKey state (← roundKeyAt read (14 * 16))
  let state := invSubBytes (invShiftRows state)
  let state ← (List.range' 1 13).reverse.foldlM (decryptRound read) state
  return addRoundKey state (← roundKeyAt read 0)

/-- The loop over the blocks of a text. The last one is filled up with zeros. -/
def ecb (block : Bytes 16 → Option (Bytes 16)) (text : Str) : Option Str :=
  if text = [] then some []
  else do
    let state ← block (copyTo (zeroBytes 16) (text.take 16))
    let rest ← ecb block (text.drop 16)
    return state.toList.take text.length ++ rest
termination_by text.length
decreasing_by
  rw [List.length_drop]
  have hpos := List.length_pos_of_ne_nil ‹_›
  omega

/-- `AdvancedAES256::encryptECB`, which has no value if it reads behind the expanded key. -/
def encryptECB (aes : Cipher) (plain : Str) : Option Str :=
  if aes.initialized then ecb (encryptBlock (fun i => (expandKey aes.key)[i]?)) plain else some []

/-- `AdvancedAES256::decryptECB`. -/
def decryptECB (aes : Cipher) (cipher : Str) : Option Str :=
  if aes.initialized then ecb (decryptBlock (fun i => (expandKey aes.key)[i]?)) cipher else some []

/-- `AdvancedAES256::encryptGCM`, with the random bytes it draws. -/
def encryptGCM (aes : Cipher) (iv : Bytes 12) (plain : Str) : Option Str :=
  if aes.initialized then
    (encryptECB aes plain).map fun cipher => iv.toList ++ cipher ++ gcmTag iv.toList cipher
  else some []

/-- `AdvancedAES256::decryptGCM`. -/
def decryptGCM (aes : Cipher) (cipher : Str) : Option Str :=
  if ¬ aes.initialized ∨ cipher.length < 28 then some []
  else if packetTag cipher ≠ gcmTag (packetIv cipher) (packetBody cipher) then some []
  else decryptECB aes (packetBody cipher)

/-! ## Setting a key -/

theorem readKey_snd (h : Str) (indices : List ℕ) (key : Bytes 32) :
    (readKey h indices key).2 = indices.all fun i => (keyByte h i).isSome := by
  induction indices generalizing key with
  | nil => rfl
  | cons i indices ih =>
    rw [readKey, List.all_cons]
    cases hbyte : keyByte h i with
    | none => rfl
    | some b =>
      rw [ih]
      rfl

/-- The hash ends before the byte 20, and `stoi` has nothing to read. -/
theorem keyByte_twenty {h : Str} (hlength : h.length = 40) : keyByte h 20 = none := by
  have hempty : (h.drop (20 * 2)).take 2 = [] := by
    rw [List.drop_eq_nil_of_le (by omega), List.take_nil]
  rw [keyByte, if_neg (by omega), hempty]
  rfl

theorem readKey_of_length {h : Str} (hlength : h.length = 40) (key : Bytes 32) :
    (readKey h (List.range 32) key).2 = false := by
  rw [readKey_snd, List.all_eq_false]
  refine ⟨20, by decide, ?_⟩
  rw [keyByte_twenty hlength]
  exact Bool.false_ne_true

theorem Cipher.afterLoop_snd (aes : Cipher) (read : Bytes 32 × Bool) :
    (aes.afterLoop read).2 = read.2 := rfl

theorem Cipher.afterLoop_initialized (aes : Cipher) (read : Bytes 32 × Bool) :
    (aes.afterLoop read).1.initialized = (aes.initialized || read.2) := rfl

theorem setKey_throws (aes : Cipher) (keyMaterial : Str) :
    (setKey aes keyMaterial).2 = false := by
  rw [setKey, Cipher.afterLoop_snd]
  exact readKey_of_length (length_sha1 _) _

/-- No object that was made without a key ever gets one. -/
theorem setKey_initialized (aes : Cipher) (keyMaterial : Str) :
    (setKey aes keyMaterial).1.initialized = aes.initialized := by
  have hthrows : (readKey (sha1Double keyMaterial) (List.range 32) aes.key).2 = false :=
    readKey_of_length (length_sha1 _) _
  rw [setKey, Cipher.afterLoop_initialized, hthrows, Bool.or_false]

/-! ## The end of the expanded key -/

theorem length_expansionTemp {expandedKey : List UInt8} (hlength : 32 ≤ expandedKey.length)
    (rconIter : ℕ) : (expansionTemp expandedKey rconIter).1.length = 4 := by
  have htemp : (expandedKey.drop (expandedKey.length - 4)).length = 4 := by
    rw [List.length_drop]
    omega
  rw [expansionTemp]
  split_ifs
  · rw [List.length_modifyHead, List.length_map, List.length_rotate, htemp]
  · rw [List.length_map, htemp]
  · exact htemp

theorem length_expandStep {s : List UInt8 × ℕ} (hlength : 32 ≤ s.1.length) :
    (expandStep s).1.length = s.1.length + 4 := by
  change (s.1 ++ List.zipWith _ _ _).length = _
  rw [List.length_append, List.length_zipWith, List.length_drop, length_expansionTemp hlength]
  omega

theorem length_expandKey (key : Bytes 32) : (expandKey key).length = 176 := by
  have hrounds : ∀ n, (expandStep^[n] (key.toList, 1)).1.length = 32 + 4 * n := by
    intro n
    induction n with
    | zero => exact Vector.length_toList
    | succ n ih =>
      rw [Function.iterate_succ_apply', length_expandStep (by omega), ih]
      omega
  exact hrounds 36

/-- The last round key lies behind the array. -/
theorem roundKeyAt_last (key : Bytes 32) :
    roundKeyAt (fun i => (expandKey key)[i]?) (14 * 16) = none := by
  have hpast : (expandKey key)[14 * 16 + 0]? = none :=
    List.getElem?_eq_none (by rw [length_expandKey]; decide)
  have hrange : List.range 16 = 0 :: (List.range 15).map Nat.succ := List.range_succ_eq_map
  rw [roundKeyAt, hrange, List.mapM_cons, hpast]
  rfl

theorem encryptBlock_eq_none {read : ℕ → Option UInt8} (hlast : roundKeyAt read (14 * 16) = none)
    (state : Bytes 16) : encryptBlock read state = none := by
  rw [encryptBlock, hlast]
  simp

theorem decryptBlock_eq_none {read : ℕ → Option UInt8} (hlast : roundKeyAt read (14 * 16) = none)
    (state : Bytes 16) : decryptBlock read state = none := by
  rw [decryptBlock, hlast]
  rfl

/-- No block is encrypted, or decrypted, with the expanded key alone. -/
theorem block_expandKey (key : Bytes 32) (state : Bytes 16) :
    encryptBlock (fun i => (expandKey key)[i]?) state = none ∧
      decryptBlock (fun i => (expandKey key)[i]?) state = none :=
  ⟨encryptBlock_eq_none (roundKeyAt_last key) state,
    decryptBlock_eq_none (roundKeyAt_last key) state⟩

theorem ecb_eq_none {block : Bytes 16 → Option (Bytes 16)} (hblock : ∀ state, block state = none)
    {text : Str} (htext : text ≠ []) : ecb block text = none := by
  rw [ecb, if_neg htext, hblock]
  rfl

theorem ecb_nil (block : Bytes 16 → Option (Bytes 16)) : ecb block [] = some [] := by
  rw [ecb, if_pos rfl]

/-! ## Encryption with a tag -/

/-- What comes back if a text is encrypted and decrypted under a key. -/
def gcmRoundTrip (key : Bytes 32) (iv : Bytes 12) (plain : Str) : Option Str :=
  (encryptGCM ⟨key, true⟩ iv plain).bind (decryptGCM ⟨key, true⟩)

/-- The tag and the initialisation vector are taken off again. -/
theorem gcmRoundTrip_eq (key : Bytes 32) (iv : Bytes 12) (plain : Str) :
    gcmRoundTrip key iv plain = (encryptECB ⟨key, true⟩ plain).bind (decryptECB ⟨key, true⟩) := by
  rw [gcmRoundTrip, encryptGCM, if_pos rfl]
  cases hcipher : encryptECB ⟨key, true⟩ plain with
  | none => rfl
  | some cipher =>
    have hlength : (gcmTag iv.toList cipher).length = 16 := length_gcmTag _ _
    have hsize : ¬ (iv.toList ++ cipher ++ gcmTag iv.toList cipher).length < 28 := by
      rw [List.length_append, List.length_append, iv.length_toList, hlength]
      omega
    change decryptGCM _ (iv.toList ++ cipher ++ gcmTag iv.toList cipher) = decryptECB _ cipher
    obtain ⟨hiv, hbody, htag⟩ := @packet_parts iv.toList cipher _ iv.length_toList hlength
    rw [decryptGCM, if_neg (not_or_intro (not_not.mpr rfl) hsize), hiv, hbody, htag,
      if_neg (not_not.mpr rfl)]

theorem gcmRoundTrip_nil (key : Bytes 32) (iv : Bytes 12) :
    gcmRoundTrip key iv [] = some [] := by
  rw [gcmRoundTrip_eq, encryptECB, if_pos rfl, ecb_nil]
  exact ecb_nil _

theorem gcmRoundTrip_eq_none (key : Bytes 32) (iv : Bytes 12) {plain : Str} (hplain : plain ≠ []) :
    gcmRoundTrip key iv plain = none := by
  have hnone : encryptECB ⟨key, true⟩ plain = none :=
    ecb_eq_none (fun state => (block_expandKey key state).1) hplain
  rw [gcmRoundTrip_eq, hnone, Option.bind_none]

/-- No text is taken for key material. Under a key the empty text comes back, and no other is
even encrypted with bytes of the expanded key alone. -/
theorem gcm_spec (aes : Cipher) (keyMaterial : Str) (key : Bytes 32) (iv : Bytes 12)
    (plain : Str) :
    (setKey aes keyMaterial).2 = false ∧
      (gcmRoundTrip key iv plain = some plain ↔ plain = []) := by
  refine ⟨setKey_throws aes keyMaterial, ?_, ?_⟩
  · intro hback
    by_contra hplain
    rw [gcmRoundTrip_eq_none key iv hplain] at hback
    exact absurd hback (Option.some_ne_none _).symm
  · rintro rfl
    exact gcmRoundTrip_nil key iv

/-- The text of one byte, under the key of zeros. -/
theorem gcm_fails :
    (setKey Cipher.empty (ascii "secret")).2 = false ∧
      gcmRoundTrip (zeroBytes 32) (zeroBytes 12) (ascii "a") ≠ some (ascii "a") := by
  refine ⟨setKey_throws _ _, ?_⟩
  rw [gcmRoundTrip_eq_none _ _ (by decide)]
  exact (Option.some_ne_none _).symm

/-! ## The columns -/

/-- The highest bits of the two middle bytes of a column are lost. -/
theorem invMixColumn_high (a b c d : UInt8) :
    invMixColumn a (b ^^^ 0x80) (c ^^^ 0x80) d = invMixColumn a b c d := by
  have hshift : ∀ x : UInt8, (x ^^^ 0x80) <<< 1 = x <<< 1 ∧ (x ^^^ 0x80) <<< 2 = x <<< 2 ∧
      (x ^^^ 0x80) <<< 3 = x <<< 3 := by
    intro x
    refine ⟨?_, ?_, ?_⟩
    · rw [UInt8.shiftLeft_xor]
      exact UInt8.xor_zero
    · rw [UInt8.shiftLeft_xor]
      exact UInt8.xor_zero
    · rw [UInt8.shiftLeft_xor]
      exact UInt8.xor_zero
  have hb := hshift b
  have hc := hshift c
  simp only [invMixColumn, hb, hc, UInt8.xor_assoc, UInt8.xor_comm, Aes.xor_left_comm,
    UInt8.xor_self, UInt8.xor_zero]

/-- A state with the highest bits of two bytes of each column turned. -/
def turnHigh (state : Bytes 16) : Bytes 16 :=
  Aes.ofEntries fun r c =>
    if r.val = 1 ∨ r.val = 2 then Aes.entry state r c ^^^ 0x80 else Aes.entry state r c

theorem turnHigh_ne (state : Bytes 16) : turnHigh state ≠ state := by
  intro heq
  have hentry := congrArg (Aes.entry · 1 0) heq
  have hfirst : (1 : Fin 4).val = 1 ∨ (1 : Fin 4).val = 2 := Or.inl rfl
  simp only [turnHigh, Aes.entry_ofEntries] at hentry
  rw [if_pos hfirst] at hentry
  have hzero : (0x80 : UInt8) = 0 := by
    rw [← Aes.xor_cancel (Aes.entry state 1 0) 0x80, hentry, UInt8.xor_self]
  exact absurd hzero (by decide)

theorem invMixColumns_turnHigh (state : Bytes 16) :
    invMixColumns (turnHigh state) = invMixColumns state := by
  apply Aes.state_ext
  intro r c
  rw [invMixColumns, invMixColumns, entry_mapColumns, entry_mapColumns]
  simp only [turnHigh, Aes.entry_ofEntries]
  exact congrArg (·.get r) (invMixColumn_high _ _ _ _)

/-! ## Decryption loses information -/

theorem finite_block : Finite (Bytes 16) := by
  have hbyte : Finite UInt8 := Finite.of_injective UInt8.toFin fun _ _ => UInt8.toFin_inj.mp
  exact Finite.of_injective Aes.entry fun s t h =>
    Aes.state_ext fun r c => congrFun (congrFun h r) c

theorem invSubBytes_subBytes (s : Bytes 16) : invSubBytes (subBytes s) = s := by
  rw [subBytes, invSubBytes, Vector.map_map]
  conv_rhs => rw [← Vector.map_id s]
  congr 1
  funext x
  exact BankCrypto.invSbox_sbox x

theorem invShiftRows_shiftRows (s : Bytes 16) : invShiftRows (shiftRows s) = s := by
  have hfinite := finite_block
  have hinj : Function.Injective invShiftRows :=
    Function.LeftInverse.injective BankCrypto.shiftRows_invShiftRows
  exact Function.LeftInverse.rightInverse_of_surjective BankCrypto.shiftRows_invShiftRows
    (Finite.injective_iff_surjective.mp hinj) s

theorem addRoundKey_addRoundKey (s roundKey : Bytes 16) :
    addRoundKey (addRoundKey s roundKey) roundKey = s := by
  apply Vector.ext
  intro i hi
  rw [addRoundKey, addRoundKey, Vector.getElem_zipWith, Vector.getElem_zipWith,
    Aes.xor_cancel_right]

theorem addRoundKey_injective (roundKey : Bytes 16) :
    Function.Injective fun s => addRoundKey s roundKey :=
  Function.LeftInverse.injective (g := fun s => addRoundKey s roundKey)
    fun s => addRoundKey_addRoundKey s roundKey

/-- A round of decryption takes two states to one. -/
theorem exists_decryptRound_eq (read : ℕ → Option UInt8) (round : ℕ) :
    ∃ s t, s ≠ t ∧ decryptRound read s round = decryptRound read t round := by
  cases hkey : roundKeyAt read (round * 16) with
  | none =>
    refine ⟨turnHigh (zeroBytes 16), zeroBytes 16, turnHigh_ne _, ?_⟩
    rw [decryptRound, decryptRound, hkey, Option.map_none, Option.map_none]
  | some roundKey =>
    refine ⟨addRoundKey (turnHigh (zeroBytes 16)) roundKey, addRoundKey (zeroBytes 16) roundKey,
      fun heq => turnHigh_ne _ (addRoundKey_injective roundKey heq), ?_⟩
    rw [decryptRound, decryptRound, hkey, Option.map_some, Option.map_some,
      addRoundKey_addRoundKey, addRoundKey_addRoundKey, invMixColumns_turnHigh]

/-- What `decryptECB` makes of a block depends on the first of its rounds alone. -/
theorem decryptBlock_congr {read : ℕ → Option UInt8} {lastKey s t : Bytes 16}
    (hlast : roundKeyAt read (14 * 16) = some lastKey)
    (hround : decryptRound read (invSubBytes (invShiftRows (addRoundKey s lastKey))) 13 =
      decryptRound read (invSubBytes (invShiftRows (addRoundKey t lastKey))) 13) :
    decryptBlock read s = decryptBlock read t := by
  have hlist : (List.range' 1 13).reverse = 13 :: (List.range' 1 12).reverse := by decide
  rw [decryptBlock, decryptBlock, hlast, hlist]
  simp only [Option.bind_eq_bind, Option.bind_some, List.foldlM_cons, hround]

theorem exists_decryptBlock_eq (read : ℕ → Option UInt8) :
    ∃ s t, s ≠ t ∧ decryptBlock read s = decryptBlock read t := by
  cases hlast : roundKeyAt read (14 * 16) with
  | none =>
    refine ⟨turnHigh (zeroBytes 16), zeroBytes 16, turnHigh_ne _, ?_⟩
    rw [decryptBlock_eq_none hlast, decryptBlock_eq_none hlast]
  | some lastKey =>
    obtain ⟨v, w, hne, hround⟩ := exists_decryptRound_eq read 13
    have hback : ∀ s, invSubBytes (invShiftRows
        (addRoundKey (addRoundKey (shiftRows (subBytes s)) lastKey) lastKey)) = s := by
      intro s
      rw [addRoundKey_addRoundKey, invShiftRows_shiftRows, invSubBytes_subBytes]
    refine ⟨addRoundKey (shiftRows (subBytes v)) lastKey,
      addRoundKey (shiftRows (subBytes w)) lastKey, fun heq => hne ?_, ?_⟩
    · rw [← hback v, heq, hback w]
    · exact decryptBlock_congr hlast (by rw [hback, hback, hround])

/-- Whatever the reads give, in the encryption and in the decryption: some block does not come
back. -/
theorem decryptBlock_never_undoes (read read' : ℕ → Option UInt8) :
    ∃ block, (encryptBlock read block).bind (decryptBlock read') ≠ some block := by
  by_contra hall
  push Not at hall
  have hcipher : ∀ block, ∃ cipher, encryptBlock read block = some cipher ∧
      decryptBlock read' cipher = some block := fun block =>
    Option.bind_eq_some_iff.mp (hall block)
  choose encrypt hencrypt hdecrypt using hcipher
  -- Encryption has a left inverse, so it reaches every block, and decryption is one to one.
  have hinj : Function.Injective encrypt := by
    intro s t heq
    have hs := hdecrypt s
    rw [heq, hdecrypt t] at hs
    exact (Option.some.inj hs).symm
  have hfinite := finite_block
  have hsurj := Finite.injective_iff_surjective.mp hinj
  obtain ⟨s, t, hne, heq⟩ := exists_decryptBlock_eq read'
  obtain ⟨s, rfl⟩ := hsurj s
  obtain ⟨t, rfl⟩ := hsurj t
  rw [hdecrypt, hdecrypt] at heq
  exact hne (congrArg encrypt (Option.some.inj heq))

/-! ## The cipher of the link -/

theorem roundKeyAt_total (memory : ℕ → UInt8) (offset : ℕ) :
    ∃ roundKey, roundKeyAt (fun i => some (memory i)) offset = some roundKey := by
  have hread : (List.range 16).mapM (fun i => some (memory (offset + i))) =
      some ((List.range 16).map fun i => memory (offset + i)) := List.mapM_pure
  exact ⟨_, by rw [roundKeyAt, hread, Option.map_some]⟩

theorem foldlM_total {α β : Type} {f : β → α → Option β} (hf : ∀ b a, ∃ b', f b a = some b')
    (l : List α) (b : β) : ∃ b', l.foldlM f b = some b' := by
  induction l generalizing b with
  | nil => exact ⟨b, rfl⟩
  | cons a l ih =>
    obtain ⟨b', hb'⟩ := hf b a
    obtain ⟨b'', hb''⟩ := ih b'
    exact ⟨b'', by rw [List.foldlM_cons, hb', Option.bind_eq_bind, Option.bind_some, hb'']⟩

/-- With a value for every read, a block is encrypted. -/
theorem encryptBlock_total (memory : ℕ → UInt8) (state : Bytes 16) :
    ∃ cipher, encryptBlock (fun i => some (memory i)) state = some cipher := by
  obtain ⟨firstKey, hfirst⟩ := roundKeyAt_total memory 0
  obtain ⟨lastKey, hlast⟩ := roundKeyAt_total memory (14 * 16)
  have hround : ∀ state round, ∃ state',
      encryptRound (fun i => some (memory i)) state round = some state' := by
    intro state round
    obtain ⟨roundKey, hkey⟩ := roundKeyAt_total memory (round * 16)
    exact ⟨_, by rw [encryptRound, hkey, Option.map_some]⟩
  obtain ⟨last, hrounds⟩ := foldlM_total hround (List.range' 1 13) (addRoundKey state firstKey)
  refine ⟨addRoundKey (shiftRows (subBytes last)) lastKey, ?_⟩
  simp only [encryptBlock, hfirst, hlast, hrounds, Option.bind_eq_bind, Option.bind_some]
  rfl

theorem ecb_total {block : Bytes 16 → Option (Bytes 16)}
    (hblock : ∀ state, ∃ state', block state = some state') (text : Str) :
    ∃ out, ecb block text = some out ∧ out.length = text.length := by
  induction hn : text.length using Nat.strongRecOn generalizing text with
  | ind n ih =>
    by_cases htext : text = []
    · rw [htext, ecb_nil]
      exact ⟨[], rfl, by rw [← hn, htext]⟩
    · have hpos := List.length_pos_of_ne_nil htext
      obtain ⟨state', hstate'⟩ := hblock (copyTo (zeroBytes 16) (text.take 16))
      obtain ⟨rest, hrest, hlength⟩ := ih (text.drop 16).length
        (by rw [List.length_drop]; omega) (text.drop 16) rfl
      refine ⟨state'.toList.take text.length ++ rest, ?_, ?_⟩
      · rw [ecb, if_neg htext, hstate', hrest]
        rfl
      · rw [List.length_append, List.length_take, hlength, List.length_drop,
          Vector.length_toList]
        omega

/-- A text of one block. -/
theorem ecb_block (block : Bytes 16 → Option (Bytes 16)) (state : Bytes 16) :
    ecb block state.toList = (block state).map Vector.toList := by
  have hlength : state.toList.length = 16 := Vector.length_toList
  have hne : state.toList ≠ [] := by
    intro hnil
    rw [hnil] at hlength
    cases hlength
  have hcopy : copyTo (zeroBytes 16) (state.toList.take 16) = state := by
    rw [List.take_of_length_le hlength.le]
    exact Vector.toList_inj.mp (BankCrypto.toList_copyTo_full hlength)
  rw [ecb, if_neg hne, hcopy, List.drop_eq_nil_of_le hlength.le, ecb_nil]
  cases hstate : block state with
  | none => rfl
  | some out =>
    change some (out.toList.take state.toList.length ++ []) = some out.toList
    rw [hlength, List.append_nil, List.take_of_length_le (by rw [Vector.length_toList])]

/-- The cipher of the peer link where the reads in encryption and in decryption give the bytes of
`memory` and of `memory'`. -/
def linkCipher (memory memory' : ℕ → UInt8) : AdvancedAES256 where
  encryptECB plain := (ecb (encryptBlock fun i => some (memory i)) plain).getD []
  decryptECB cipher := (ecb (decryptBlock fun i => some (memory' i)) cipher).getD []
  length_encryptECB plain := by
    obtain ⟨out, hout, hlength⟩ := ecb_total (encryptBlock_total memory) plain
    rw [hout]
    exact hlength

/-- On no machine does the cipher of the link do what the delivery of messages needs. -/
theorem linkCipher_never_undone (memory memory' : ℕ → UInt8) :
    ¬ ∀ iv plain : Str, iv.length = 12 →
      (linkCipher memory memory').decryptGCM ((linkCipher memory memory').encryptGCM iv plain) =
        plain := by
  intro hback
  obtain ⟨block, hne⟩ := decryptBlock_never_undoes (fun i => some (memory i))
    (fun i => some (memory' i))
  obtain ⟨cipher, hcipher⟩ := encryptBlock_total memory block
  rw [hcipher, Option.bind_some] at hne
  have hiv : (List.replicate 12 (0 : UInt8)).length = 12 := List.length_replicate
  obtain ⟨hpacketIv, hbody, htag⟩ :=
    packet_parts_encryptGCM (linkCipher memory memory') hiv block.toList
  have hencrypt : (linkCipher memory memory').encryptECB block.toList = cipher.toList := by
    change (ecb _ block.toList).getD [] = _
    rw [ecb_block, hcipher]
    rfl
  have hdecrypt := hback _ block.toList hiv
  rw [decryptGCM_of_tag _ (by rw [length_encryptGCM _ hiv]; omega)
    (by rw [htag, hpacketIv, hbody]), hbody, hencrypt] at hdecrypt
  change (ecb _ cipher.toList).getD [] = _ at hdecrypt
  rw [ecb_block] at hdecrypt
  cases hplain : decryptBlock (fun i => some (memory' i)) cipher with
  | none =>
    rw [hplain] at hdecrypt
    have hlength := congrArg List.length hdecrypt
    rw [Vector.length_toList] at hlength
    cases hlength
  | some plain =>
    rw [hplain] at hdecrypt hne
    exact hne (congrArg some (Vector.toList_inj.mp hdecrypt))

end Blackstone.Bank.Aes256
