import Blackstone.BankCrypto.Context
import Blackstone.Library.BlockStream
import Blackstone.Library.Loops
import Mathlib.Logic.Function.Iterate

/-!
# GCM

`gcm/bank_gcm_encrypt.cpp`, `bank_gcm_decrypt.cpp` and `bank_ghash.cpp`, over any block function:
`encryptBlock` is what `bank_aes256_set_key` and `bank_aes_encrypt_block` compute of a key and a
block. Decryption with the key, the nonce and the associated data of an encryption gives the
plaintext back (`gcmDecrypt_gcmEncrypt`), and a wrong tag leaves the buffer as it was
(`gcmDecrypt_eq`).
-/

namespace Blackstone.BankCrypto

open BlockStream

/-- The number of bytes of the block with number `i`, of a text of `len` bytes. -/
def blockLen (len i : ℕ) : ℕ :=
  if i = (len + 15) / 16 - 1 ∧ 0 < len % 16 then len % 16 else 16

/-- The block with number `i` of a text. -/
def textBlock (text : List UInt8) (i : ℕ) : List UInt8 :=
  (text.drop (i * 16)).take (blockLen text.length i)

def xorBlock (x y : Bytes 16) : Bytes 16 := Vector.zipWith (· ^^^ ·) x y

/-! ## Counter mode -/

/-- The carry into the bytes before `j`, the last of them first. -/
def carryInto (cb : Bytes 16) : (j : ℕ) → j ≤ 16 → Bytes 16
  | 0, _ => cb
  | j + 1, hj =>
    let cb := cb.set j (cb[j] + 1)
    if cb[j] ≠ 0 then cb else carryInto cb j (by omega)

def nextCounter (cb : Bytes 16) : Bytes 16 :=
  let cb := cb.set 15 (cb[15] + 1)
  if cb[15] = 0 then carryInto cb 15 (by omega) else cb

/-- The variables of `bank_gctr`: the counter block, and what is written of the output. -/
structure GctrState where
  cb : Bytes 16
  y : List UInt8

/-- The body of the loop over the blocks. -/
def gctrRound (encryptBlock : Bytes 16 → Bytes 16) (x : List UInt8) (s : GctrState) (i : ℕ) :
    GctrState :=
  let cb := nextCounter s.cb
  ⟨cb, s.y ++ xorBytes (textBlock x i) (encryptBlock cb).toList⟩

/-- `bank_gctr`. -/
def gctr (encryptBlock : Bytes 16 → Bytes 16) (icb : Bytes 16) (x : List UInt8) : List UInt8 :=
  ((List.range ((x.length + 15) / 16)).foldl (gctrRound encryptBlock x) ⟨icb, []⟩).y

/-! ## GHASH -/

/-- The body of the loop of `bank_ghash_multiply`, for byte `k`. -/
def multiplyRound (h : Bytes 16) (s : Bytes 16 × UInt8) (k : Fin 16) : Bytes 16 × UInt8 :=
  let low := if 0 < k.val then s.1[k.val - 1] &&& 1 else 0
  let shifted := (s.1[k] >>> 1) ^^^ (low <<< 7)
  (s.1.set k (if s.2 &&& 1 ≠ 0 then shifted ^^^ h[k] else shifted), s.2 >>> 1)

/-- `bank_ghash_multiply`. -/
def ghashMultiply (x h : Bytes 16) : Bytes 16 :=
  ((List.finRange 16).reverse.foldl (multiplyRound h) (x, x[15])).1

/-- The loop of `bank_ghash` over one of its texts. -/
def ghashText (h x : Bytes 16) (text : List UInt8) : Bytes 16 :=
  (List.range ((text.length + 15) / 16)).foldl
    (fun x i => ghashMultiply (xorBlock x (copyTo (zeroBytes 16) (textBlock text i))) h) x

/-- The block of the two lengths. -/
def lengthBlock (aadLen cipherLen : ℕ) : Bytes 16 :=
  let aadBits := UInt64.ofNat aadLen * 8
  let cipherBits := UInt64.ofNat cipherLen * 8
  Vector.ofFn fun i =>
    if i.val < 8 then (aadBits >>> UInt64.ofNat (56 - i.val * 8)).toUInt8
    else (cipherBits >>> UInt64.ofNat (56 - (i.val - 8) * 8)).toUInt8

/-- `bank_ghash`. -/
def ghash (h : Bytes 16) (aad ciphertext : List UInt8) : Bytes 16 :=
  let x := ghashText h (zeroBytes 16) aad
  let x := ghashText h x ciphertext
  ghashMultiply (xorBlock x (lengthBlock aad.length ciphertext.length)) h

/-! ## Encryption and decryption -/

/-- The counter block that a nonce starts with. -/
def startCounter (iv : List UInt8) : Bytes 16 := (copyTo (zeroBytes 16) iv).set 15 1

def gcmTag (encryptBlock : Bytes 16 → Bytes 16) (iv aad cipher : List UInt8) : Bytes 16 :=
  xorBlock (ghash (encryptBlock (zeroBytes 16)) aad cipher) (encryptBlock (startCounter iv))

/-- `bank_aes256_gcm_encrypt`: the ciphertext and the tag. -/
def gcmEncrypt (encryptBlock : Bytes 32 → Bytes 16 → Bytes 16) (key : Bytes 32)
    (iv aad plain : List UInt8) : Option (List UInt8 × Bytes 16) :=
  if iv.length ≠ 12 then none
  else
    let cipher := gctr (encryptBlock key) (startCounter iv) plain
    some (cipher, gcmTag (encryptBlock key) iv aad cipher)

/-- The loop that compares the tags. -/
def tagOk (tag expectedTag : Bytes 16) : Bool :=
  (List.finRange 16).foldl (fun ok i => if tag[i] ≠ expectedTag[i] then false else ok) true

/-- `bank_aes256_gcm_decrypt`: what it returns, and the buffer `plain` after it. -/
def gcmDecrypt (encryptBlock : Bytes 32 → Bytes 16 → Bytes 16) (key : Bytes 32)
    (iv aad cipher : List UInt8) (tag : Bytes 16) (plain : List UInt8) : Bool × List UInt8 :=
  if iv.length ≠ 12 then (false, plain)
  else if tagOk tag (gcmTag (encryptBlock key) iv aad cipher) then
    (true, gctr (encryptBlock key) (startCounter iv) cipher ++ plain.drop cipher.length)
  else (false, plain)

/-! ## Decryption after encryption -/

section CounterMode

variable (encryptBlock : Bytes 16 → Bytes 16) (icb : Bytes 16)

/-- The block with number `i` of the keystream. -/
def keyBlock (i : ℕ) : List UInt8 := (encryptBlock (nextCounter^[i + 1] icb)).toList

theorem length_keyBlock (i : ℕ) : (keyBlock encryptBlock icb i).length = 16 :=
  Vector.length_toList

theorem keyBlock_eq (i : ℕ) :
    keyBlock encryptBlock icb i =
      (encryptBlock (nextCounter (nextCounter^[i] icb))).toList := by
  rw [keyBlock, Function.iterate_succ_apply']

theorem textBlock_eq (text : List UInt8) {i : ℕ} (hi : i < (text.length + 15) / 16) :
    textBlock text i = (text.drop (16 * i)).take 16 := by
  rw [textBlock, blockLen, Nat.mul_comm i 16]
  split_ifs with hlast
  · have hlength : (text.drop (16 * i)).length = text.length % 16 := by
      rw [List.length_drop]
      omega
    rw [List.take_of_length_le hlength.le, List.take_of_length_le]
    omega
  · rfl

/-- Counter mode adds a keystream that depends on the length of the text only. -/
theorem gctr_eq (x : List UInt8) :
    gctr encryptBlock icb x =
      xorBytes x (firstBlocks (keyBlock encryptBlock icb) ((x.length + 15) / 16)) := by
  have hrun : ∀ n ≤ (x.length + 15) / 16,
      (List.range n).foldl (gctrRound encryptBlock x) ⟨icb, []⟩ =
        ⟨nextCounter^[n] icb,
          xorBytes (x.take (16 * n)) (firstBlocks (keyBlock encryptBlock icb) n)⟩ := by
    intro n hn
    induction n with
    | zero => rfl
    | succ n ih =>
      have hwhole : (x.take (16 * n)).length =
          (firstBlocks (keyBlock encryptBlock icb) n).length := by
        rw [length_firstBlocks (length_keyBlock encryptBlock icb), List.length_take_of_le]
        omega
      rw [List.range_succ, List.foldl_append, ih (by omega), List.foldl_cons, List.foldl_nil,
        gctrRound, textBlock_eq x (by omega), firstBlocks_succ, keyBlock_eq, Nat.mul_succ,
        List.take_add, xorBytes, xorBytes, xorBytes, List.zipWith_append hwhole,
        Function.iterate_succ_apply']
  rw [gctr, hrun _ le_rfl, List.take_of_length_le (by omega)]

@[simp] theorem length_gctr (x : List UInt8) : (gctr encryptBlock icb x).length = x.length := by
  rw [gctr_eq, length_xorBytes, length_firstBlocks (length_keyBlock encryptBlock icb)]
  omega

theorem gctr_gctr (x : List UInt8) :
    gctr encryptBlock icb (gctr encryptBlock icb x) = x := by
  rw [gctr_eq encryptBlock icb (gctr encryptBlock icb x), length_gctr, gctr_eq]
  apply xorBytes_xorBytes
  rw [length_firstBlocks (length_keyBlock encryptBlock icb)]
  omega

end CounterMode

theorem tagOk_iff {tag expectedTag : Bytes 16} :
    tagOk tag expectedTag = true ↔ tag = expectedTag := by
  have hround : ∀ (ok : Bool) (i : Fin 16),
      (if tag[i] ≠ expectedTag[i] then false else ok) = true ↔
        ok = true ∧ tag[i] = expectedTag[i] := by
    intro ok i
    by_cases hi : tag[i] = expectedTag[i]
    · rw [if_neg (not_not.mpr hi), and_iff_left hi]
    · rw [if_pos hi]
      constructor
      · intro hfalse
        cases hfalse
      · rintro ⟨-, hsame⟩
        exact absurd hsame hi
  have hloop := Loops.foldl_gathers_iff (fun ok : Bool => ok = true) hround (List.finRange 16) true
  rw [tagOk, hloop, ← bytes_eq_iff]
  exact and_iff_right rfl

section Decrypt

variable (encryptBlock : Bytes 32 → Bytes 16 → Bytes 16) (key : Bytes 32)
  {iv aad cipher plain : List UInt8} {tag : Bytes 16}

/-- Decryption succeeds exactly with the right tag, and does not touch the buffer otherwise. -/
theorem gcmDecrypt_eq (hiv : iv.length = 12) (buffer : List UInt8) :
    gcmDecrypt encryptBlock key iv aad cipher tag buffer =
      if tag = gcmTag (encryptBlock key) iv aad cipher then
        (true, gctr (encryptBlock key) (startCounter iv) cipher ++ buffer.drop cipher.length)
      else (false, buffer) := by
  rw [gcmDecrypt, if_neg (not_not.mpr hiv)]
  by_cases htag : tag = gcmTag (encryptBlock key) iv aad cipher
  · rw [if_pos (tagOk_iff.mpr htag), if_pos htag]
  · rw [if_neg (tagOk_iff.not.mpr htag), if_neg htag]

theorem gcmEncrypt_eq (hiv : iv.length = 12) (aad plain : List UInt8) :
    gcmEncrypt encryptBlock key iv aad plain =
      some (gctr (encryptBlock key) (startCounter iv) plain, gcmTag (encryptBlock key) iv aad
        (gctr (encryptBlock key) (startCounter iv) plain)) :=
  if_neg (not_not.mpr hiv)

theorem gcmDecrypt_gcmEncrypt
    (h : gcmEncrypt encryptBlock key iv aad plain = some (cipher, tag)) (buffer : List UInt8) :
    cipher.length = plain.length ∧
      gcmDecrypt encryptBlock key iv aad cipher tag buffer =
        (true, plain ++ buffer.drop plain.length) := by
  rw [gcmEncrypt] at h
  split_ifs at h with hiv
  obtain ⟨rfl, rfl⟩ := Prod.mk.inj (Option.some.inj h)
  refine ⟨length_gctr _ _ _, ?_⟩
  rw [gcmDecrypt_eq _ _ (not_not.mp hiv), if_pos rfl, gctr_gctr, length_gctr]

end Decrypt

/-- Whatever the block function is: decryption of what encryption gives returns the plaintext, and
with a tag that is not the recomputed one in some byte it fails and leaves the buffer as it was. -/
theorem gcm_roundTrip_and_reject (encryptBlock : Bytes 32 → Bytes 16 → Bytes 16) (key : Bytes 32)
    (iv : Bytes 12) (aad : List UInt8) :
    (∀ plain, ∃ cipher tag,
      gcmEncrypt encryptBlock key iv.toList aad plain = some (cipher, tag) ∧
        cipher.length = plain.length ∧
        ∀ buffer, gcmDecrypt encryptBlock key iv.toList aad cipher tag buffer =
          (true, plain ++ buffer.drop plain.length)) ∧
      ∀ (cipher : List UInt8) (tag : Bytes 16),
        (∃ i : Fin 16, tag[i] ≠ (gcmTag (encryptBlock key) iv.toList aad cipher)[i]) →
        ∀ buffer, gcmDecrypt encryptBlock key iv.toList aad cipher tag buffer =
          (false, buffer) := by
  have hiv : iv.toList.length = 12 := Vector.length_toList
  constructor
  · intro plain
    have hrun := gcmEncrypt_eq encryptBlock key hiv aad plain
    exact ⟨_, _, hrun, length_gctr _ _ _, fun buffer =>
      (gcmDecrypt_gcmEncrypt encryptBlock key hrun buffer).2⟩
  · rintro cipher tag ⟨i, hi⟩ buffer
    rw [gcmDecrypt_eq encryptBlock key hiv, if_neg]
    rintro rfl
    exact hi rfl

end Blackstone.BankCrypto
