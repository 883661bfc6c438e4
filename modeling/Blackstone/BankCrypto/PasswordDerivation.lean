import Blackstone.BankCrypto.Pbkdf2

/-!
# Keys from passwords

`bank_derive_key_from_password` of `kdf/bank_pbkdf2.cpp`, which passes a salt of any length on to
PBKDF2. The steps of PBKDF2 keep the sizes of all arrays, and stay in them, if the salt has at
most 64 bytes; a longer salt leaves the salt block in the first round
(`deriveKeyFromPassword_inBounds_iff`). Nothing here depends on the number of the block, and so
not on the length of the key.
-/

namespace Blackstone.BankCrypto

open Buffers Loops

/-- `BANK_PBKDF2_ROUNDS`. -/
def pbkdf2Rounds : ℤ := 100000

/-- The arrays of a call: those of the caller, and the local ones with anything in them. -/
def pbkdf2Memory (password salt key : List UInt8) (digest u : Bytes 32) (saltBlock : Bytes 68) :
    Pbkdf2Memory
  | .password => password
  | .salt => salt
  | .key => key
  | .digest => digest.toList
  | .saltBlock => saltBlock.toList
  | .u => u.toList

/-- `bank_derive_key_from_password`: what it returns, and the key. A null pointer is `none`; a
read or write out of bounds fails. -/
def deriveKeyFromPassword (digest u : Bytes 32) (saltBlock : Bytes 68)
    (password : Option (List UInt8)) (passwordLen : ℕ) (salt : Option (List UInt8))
    (saltLen : ℕ) (key : Option (List UInt8)) (keyLen : ℕ) :
    Option (Bool × Option (List UInt8)) :=
  match password, salt, key with
  | some password, some salt, some key => do
    let m ← pbkdf2HmacSha256 (pbkdf2Memory password salt key digest u saltBlock) passwordLen
      saltLen pbkdf2Rounds keyLen
    return (true, some (m .key))
  | _, _, key => some (false, key)

/-! ## Sizes -/

/-- The arrays have room for what is read and written of them. -/
structure Pbkdf2Sizes (passwordLen saltLen keyLen : ℕ) (m : Pbkdf2Memory) : Prop where
  password : passwordLen ≤ (m .password).length
  salt : saltLen ≤ (m .salt).length
  key : keyLen ≤ (m .key).length
  digest : (m .digest).length = 32
  saltBlock : (m .saltBlock).length = 68
  u : (m .u).length = 32

section Steps

variable {m t : Pbkdf2Memory} {passwordLen saltLen keyLen : ℕ}

theorem Pbkdf2Sizes.of_sameSizes (hm : Pbkdf2Sizes passwordLen saltLen keyLen m)
    (ht : m.SameSizes t) : Pbkdf2Sizes passwordLen saltLen keyLen t := by
  constructor
  · exact (ht .password).symm ▸ hm.password
  · exact (ht .salt).symm ▸ hm.salt
  · exact (ht .key).symm ▸ hm.key
  · exact (ht .digest).trans hm.digest
  · exact (ht .saltBlock).trans hm.saltBlock
  · exact (ht .u).trans hm.u

theorem fillSaltBlock_sizes (hm : Pbkdf2Sizes passwordLen saltLen keyLen m)
    (hsaltLen : saltLen ≤ 64) (block : Int32) :
    ∃ t, fillSaltBlock m saltLen block = some t ∧ m.SameSizes t := by
  have hsaltBlock := hm.saltBlock
  have hread : m.read .salt saltLen = some ((m .salt).take saltLen) := Memory.read_eq hm.salt
  have hbyte : ∀ (t : Pbkdf2Memory), m.SameSizes t → ∀ offset < 68, ∀ b : UInt8,
      ∃ t', t.write .saltBlock offset [b] = some t' ∧ m.SameSizes t' := by
    intro t ht offset hoffset b
    have hroom : offset + [b].length ≤ (t .saltBlock).length := by
      rw [ht, hsaltBlock]
      exact hoffset
    obtain ⟨t', hwrite, ht'⟩ := Memory.write_inBounds hroom
    exact ⟨t', hwrite, ht.trans ht'⟩
  have hcopied : 0 + ((m .salt).take saltLen).length ≤ (m .saltBlock).length := by
    rw [List.length_take_of_le hm.salt]
    omega
  obtain ⟨t₀, hwrite₀, ht₀⟩ := Memory.write_inBounds hcopied
  obtain ⟨t₁, hwrite₁, ht₁⟩ := hbyte t₀ ht₀ saltLen (by omega) (blockByte block 24)
  obtain ⟨t₂, hwrite₂, ht₂⟩ := hbyte t₁ ht₁ (saltLen + 1) (by omega) (blockByte block 16)
  obtain ⟨t₃, hwrite₃, ht₃⟩ := hbyte t₂ ht₂ (saltLen + 2) (by omega) (blockByte block 8)
  obtain ⟨t₄, hwrite₄, ht₄⟩ := hbyte t₃ ht₃ (saltLen + 3) (by omega) (blockByte block 0)
  refine ⟨t₄, ?_, ht₄⟩
  rw [fillSaltBlock, hread]
  simp only [Option.bind_eq_bind, Option.bind_some, hwrite₀, hwrite₁, hwrite₂, hwrite₃, hwrite₄]

/-- With a longer salt the copy of the salt or the last byte of the number is out of bounds. -/
theorem fillSaltBlock_eq_none (hm : Pbkdf2Sizes passwordLen saltLen keyLen m)
    (hsaltLen : 64 < saltLen) (block : Int32) : fillSaltBlock m saltLen block = none := by
  have hlast : ∀ t : Pbkdf2Memory, m.SameSizes t →
      t.write .saltBlock (saltLen + 3) [blockByte block 0] = none := by
    intro t ht
    apply Memory.write_eq_none
    rw [ht, hm.saltBlock, List.length_singleton]
    omega
  have hwrite : ∀ (t : Pbkdf2Memory), m.SameSizes t → ∀ (offset : ℕ) (b : UInt8)
      (next : Pbkdf2Memory → Option Pbkdf2Memory),
      (∀ t', m.SameSizes t' → next t' = none) →
      (t.write .saltBlock offset [b]).bind next = none := by
    intro t ht offset b next hnext
    by_cases hroom : offset + [b].length ≤ (t .saltBlock).length
    · obtain ⟨t', hrun, ht'⟩ := Memory.write_inBounds hroom
      rw [hrun, Option.bind_some]
      exact hnext t' (ht.trans ht')
    · rw [Memory.write_eq_none (by omega), Option.bind_none]
  rw [fillSaltBlock, Memory.read_eq hm.salt]
  simp only [Option.bind_eq_bind, Option.bind_some]
  by_cases hroom : 0 + ((m .salt).take saltLen).length ≤ (m .saltBlock).length
  · obtain ⟨t, hrun, ht⟩ := Memory.write_inBounds hroom
    rw [hrun, Option.bind_some]
    refine hwrite t ht _ _ _ fun t₁ ht₁ => hwrite t₁ ht₁ _ _ _ fun t₂ ht₂ => ?_
    exact hwrite t₂ ht₂ _ _ _ hlast
  · rw [Memory.write_eq_none (by omega), Option.bind_none]

theorem hmacSha256Into_sizes (data mac : Pbkdf2Buffer) {dataLen : ℕ}
    (hpassword : passwordLen ≤ (m .password).length) (hdata : dataLen ≤ (m data).length)
    (hmac : (m mac).length = 32) :
    ∃ t, hmacSha256Into m .password passwordLen data dataLen mac = some t ∧ m.SameSizes t := by
  refine ⟨_, hmacSha256Into_eq m .password data mac hpassword hdata hmac.ge, ?_⟩
  apply Memory.SameSizes.update
  rw [List.length_append, length_rfcHmac, List.length_drop, hmac]

theorem xorDigest_sizes (hm : Pbkdf2Sizes passwordLen saltLen keyLen m) {j : ℕ} (hj : j < 32) :
    ∃ t, xorDigest m j = some t ∧ m.SameSizes t := by
  obtain ⟨b, hdigest⟩ : ∃ b, (m .digest)[j]? = some b :=
    ⟨_, List.getElem?_eq_getElem (hm.digest.symm ▸ hj)⟩
  obtain ⟨c, hu⟩ : ∃ c, (m .u)[j]? = some c := ⟨_, List.getElem?_eq_getElem (hm.u.symm ▸ hj)⟩
  have hlength := hm.digest
  rw [xorDigest, hdigest, hu]
  apply Memory.write_inBounds
  rw [List.length_singleton]
  omega

theorem pbkdf2Iteration_sizes (hm : Pbkdf2Sizes passwordLen saltLen keyLen m) (i : ℕ) :
    ∃ t, pbkdf2Iteration passwordLen m i = some t ∧ m.SameSizes t := by
  obtain ⟨m₁, hmac, hm₁⟩ := hmacSha256Into_sizes .u .u hm.password hm.u.ge hm.u
  have hround : ∀ j < 32, ∀ t, m.SameSizes t →
      ∃ t', xorDigest t j = some t' ∧ m.SameSizes t' := by
    intro j hj t ht
    obtain ⟨t', hxor, ht'⟩ := xorDigest_sizes (hm.of_sameSizes ht) hj
    exact ⟨t', hxor, ht.trans ht'⟩
  obtain ⟨t, hrun, ht⟩ := foldlM_range_spec (fun _ t => m.SameSizes t) hround hm₁
  refine ⟨t, ?_, ht⟩
  rw [pbkdf2Iteration, hmac, Option.bind_eq_bind, Option.bind_some, hrun]

theorem deriveBlock_sizes (hm : Pbkdf2Sizes passwordLen saltLen keyLen m)
    (hsaltLen : saltLen ≤ 64) (iterations : ℤ) (block : Int32) :
    ∃ t, deriveBlock m passwordLen saltLen iterations block = some t ∧ m.SameSizes t := by
  obtain ⟨m₁, hfill, hm₁⟩ := fillSaltBlock_sizes hm hsaltLen block
  have hsizes₁ := hm.of_sameSizes hm₁
  have hnumbered : saltLen + 4 ≤ (m₁ .saltBlock).length := by
    rw [hsizes₁.saltBlock]
    omega
  obtain ⟨m₂, hmac, hm₂⟩ :=
    hmacSha256Into_sizes .saltBlock .digest hsizes₁.password hnumbered hsizes₁.digest
  have hsizes₂ := hsizes₁.of_sameSizes hm₂
  have hread : m₂.read .digest 32 = some ((m₂ .digest).take 32) :=
    Memory.read_eq hsizes₂.digest.ge
  have hcopied : 0 + ((m₂ .digest).take 32).length ≤ (m₂ .u).length := by
    rw [hsizes₂.u, List.length_take]
    omega
  obtain ⟨m₃, hwrite, hm₃⟩ := Memory.write_inBounds hcopied
  have hround : ∀ i < (iterations - 1).toNat, ∀ t, m.SameSizes t →
      ∃ t', pbkdf2Iteration passwordLen t i = some t' ∧ m.SameSizes t' := by
    intro i _ t ht
    obtain ⟨t', hrun, ht'⟩ := pbkdf2Iteration_sizes (hm.of_sameSizes ht) i
    exact ⟨t', hrun, ht.trans ht'⟩
  obtain ⟨t, hrun, ht⟩ := foldlM_range_spec (fun _ t => m.SameSizes t) hround
    ((hm₁.trans hm₂).trans hm₃)
  refine ⟨t, ?_, ht⟩
  rw [deriveBlock, hfill]
  simp only [Option.bind_eq_bind, Option.bind_some, hmac, hread, hwrite, hrun]

/-- The copying loop writes below the length of the key only. -/
theorem copyKey_sizes (hm : Pbkdf2Sizes passwordLen saltLen keyLen m) {start : ℕ}
    (hstart : start < keyLen) :
    ∃ s, copyKey keyLen ⟨m, start, 0⟩ = some s ∧ m.SameSizes s.m ∧ start < s.keyIdx := by
  have hround : ∀ s : CopyState, (m.SameSizes s.m ∧ s.keyIdx = start + s.i) →
      (s.i < 32 && s.keyIdx < keyLen) = true →
      ∃ t, copyByte s = some t ∧ (m.SameSizes t.m ∧ t.keyIdx = start + t.i) ∧
        32 - t.i < 32 - s.i := by
    rintro s ⟨hs, hidx⟩ hmore
    rw [Bool.and_eq_true, decide_eq_true_eq, decide_eq_true_eq] at hmore
    obtain ⟨hi, hroom⟩ := hmore
    have hsizes := hm.of_sameSizes hs
    obtain ⟨b, hbyte⟩ : ∃ b, (s.m .digest)[s.i]? = some b :=
      ⟨_, List.getElem?_eq_getElem (hsizes.digest.symm ▸ hi)⟩
    have hkey : s.keyIdx + [b].length ≤ (s.m .key).length := by
      have hle := hsizes.key
      rw [List.length_singleton]
      omega
    obtain ⟨t, hwrite, ht⟩ := Memory.write_inBounds hkey
    refine ⟨⟨t, s.keyIdx + 1, s.i + 1⟩, ?_, ⟨hs.trans ht, ?_⟩, ?_⟩
    · rw [copyByte, hbyte, Option.bind_eq_bind, Option.bind_some, hwrite]
      rfl
    · change s.keyIdx + 1 = start + (s.i + 1)
      omega
    · change 32 - (s.i + 1) < 32 - s.i
      omega
  obtain ⟨s, hrun, ⟨hs, hidx⟩, hdone⟩ := loop_spec
    (fun s : CopyState => m.SameSizes s.m ∧ s.keyIdx = start + s.i) (fun s => 32 - s.i) hround
    32 ⟨m, start, 0⟩ (Nat.sub_le _ _) ⟨Memory.SameSizes.rfl, rfl⟩
  have hstop : ¬ (s.i < 32 ∧ s.keyIdx < keyLen) := by
    rintro ⟨hlt, hroom⟩
    rw [decide_eq_true hlt, decide_eq_true hroom] at hdone
    cases hdone
  exact ⟨s, hrun, hs, by omega⟩

end Steps

/-! ## The run -/

section Run

variable {m : Pbkdf2Memory} {passwordLen saltLen keyLen : ℕ}

theorem pbkdf2Round_sizes (hm : Pbkdf2Sizes passwordLen saltLen keyLen m)
    (hsaltLen : saltLen ≤ 64) (iterations : ℤ) {s : Pbkdf2State} (hs : m.SameSizes s.m)
    (hmore : s.keyIdx < keyLen) :
    ∃ t, pbkdf2Round passwordLen saltLen iterations keyLen s = some t ∧ m.SameSizes t.m ∧
      s.keyIdx < t.keyIdx := by
  obtain ⟨m₁, hderive, hm₁⟩ := deriveBlock_sizes (hm.of_sameSizes hs) hsaltLen iterations s.block
  have hsizes := (hm.of_sameSizes hs).of_sameSizes hm₁
  obtain ⟨copied, hcopy, hcopied, hlt⟩ := copyKey_sizes hsizes hmore
  refine ⟨⟨copied.m, copied.keyIdx, s.block + 1⟩, ?_, (hs.trans hm₁).trans hcopied, hlt⟩
  rw [pbkdf2Round, hderive, Option.bind_eq_bind, Option.bind_some, hcopy]
  rfl

theorem pbkdf2HmacSha256_inBounds (hm : Pbkdf2Sizes passwordLen saltLen keyLen m)
    (hsaltLen : saltLen ≤ 64) (iterations : ℤ) :
    ∃ t, pbkdf2HmacSha256 m passwordLen saltLen iterations keyLen = some t ∧ m.SameSizes t := by
  have hround : ∀ s : Pbkdf2State, m.SameSizes s.m → decide (s.keyIdx < keyLen) = true →
      ∃ t, pbkdf2Round passwordLen saltLen iterations keyLen s = some t ∧ m.SameSizes t.m ∧
        keyLen - t.keyIdx < keyLen - s.keyIdx := by
    intro s hs hmore
    have hlt : s.keyIdx < keyLen := of_decide_eq_true hmore
    obtain ⟨t, hrun, ht, hidx⟩ := pbkdf2Round_sizes hm hsaltLen iterations hs hlt
    exact ⟨t, hrun, ht, by omega⟩
  obtain ⟨s, hrun, hs, -⟩ := loop_spec (fun s : Pbkdf2State => m.SameSizes s.m)
    (fun s => keyLen - s.keyIdx) hround keyLen ⟨m, 0, 1⟩ (Nat.sub_le _ _) Memory.SameSizes.rfl
  refine ⟨s.m, ?_, hs⟩
  rw [pbkdf2HmacSha256, hrun]
  rfl

/-- The first round already fails with a longer salt. -/
theorem pbkdf2HmacSha256_eq_none (hm : Pbkdf2Sizes passwordLen saltLen keyLen m)
    (hsaltLen : 64 < saltLen) (hkeyLen : 0 < keyLen) (iterations : ℤ) :
    pbkdf2HmacSha256 m passwordLen saltLen iterations keyLen = none := by
  obtain ⟨rounds, rfl⟩ := Nat.exists_eq_add_one_of_ne_zero hkeyLen.ne'
  have hround : pbkdf2Round passwordLen saltLen iterations (rounds + 1) ⟨m, 0, 1⟩ = none := by
    rw [pbkdf2Round, deriveBlock, fillSaltBlock_eq_none hm hsaltLen]
    rfl
  rw [pbkdf2HmacSha256, loop, if_pos (decide_eq_true hkeyLen), hround]
  rfl

end Run

section EntryPoint

variable {password salt key : List UInt8} {passwordLen saltLen : ℕ}

theorem pbkdf2Memory_sizes (key : List UInt8) (hpassword : passwordLen ≤ password.length)
    (hsalt : saltLen ≤ salt.length) (digest u : Bytes 32) (saltBlock : Bytes 68) :
    Pbkdf2Sizes passwordLen saltLen key.length
      (pbkdf2Memory password salt key digest u saltBlock) :=
  ⟨hpassword, hsalt, le_rfl, Vector.length_toList, Vector.length_toList, Vector.length_toList⟩

/-- With a key array of exactly `key_len` bytes, all reads and writes stay in their arrays if and
only if no key is asked for or the salt has at most 64 bytes; otherwise it is the salt block that
is left, in the first round. -/
theorem deriveKeyFromPassword_inBounds_iff (hpassword : passwordLen ≤ password.length)
    (hsalt : saltLen ≤ salt.length) (digest u : Bytes 32) (saltBlock : Bytes 68) :
    ((deriveKeyFromPassword digest u saltBlock (some password) passwordLen (some salt) saltLen
        (some key) key.length).isSome = true ↔ key.length = 0 ∨ saltLen ≤ 64) ∧
      (64 < saltLen →
        fillSaltBlock (pbkdf2Memory password salt key digest u saltBlock) saltLen 1 = none) := by
  have hm := pbkdf2Memory_sizes key hpassword hsalt digest u saltBlock
  refine ⟨⟨fun hsome => ?_, ?_⟩, fun hlong => fillSaltBlock_eq_none hm hlong 1⟩
  · by_contra hnot
    obtain ⟨hkey, hlong⟩ := not_or.mp hnot
    rw [deriveKeyFromPassword, pbkdf2HmacSha256_eq_none hm (by omega) (by omega)] at hsome
    cases hsome
  · rintro (hkey | hshort)
    · rw [deriveKeyFromPassword, pbkdf2HmacSha256, hkey]
      rfl
    · obtain ⟨t, hrun, -⟩ := pbkdf2HmacSha256_inBounds hm hshort pbkdf2Rounds
      rw [deriveKeyFromPassword, hrun]
      rfl

theorem deriveKeyFromPassword_inBounds_iff_short :
    ((deriveKeyFromPassword (zeroBytes 32) (zeroBytes 32) (zeroBytes 68) (some [1]) 1 (some [2]) 1
        (some [0, 0]) 2).isSome = true ↔ 2 = 0 ∨ 1 ≤ 64) ∧
      (64 < 1 → fillSaltBlock (pbkdf2Memory [1] [2] [0, 0] (zeroBytes 32) (zeroBytes 32)
        (zeroBytes 68)) 1 1 = none) :=
  deriveKeyFromPassword_inBounds_iff (by decide) (by decide) _ _ _

/-- A salt of 65 bytes. -/
theorem longSalt_outOfBounds :
    deriveKeyFromPassword (zeroBytes 32) (zeroBytes 32) (zeroBytes 68) (some [1]) 1
      (some (List.replicate 65 0)) 65 (some [0]) 1 = none := by
  have hm : Pbkdf2Sizes 1 65 1 (pbkdf2Memory [1] (List.replicate 65 0) [0] (zeroBytes 32)
      (zeroBytes 32) (zeroBytes 68)) :=
    pbkdf2Memory_sizes [0] (show 1 ≤ [1].length from le_rfl)
      (show 65 ≤ (List.replicate 65 0).length from List.length_replicate.ge) _ _ _
  rw [deriveKeyFromPassword, pbkdf2HmacSha256_eq_none hm (by decide) (by decide)]
  rfl

end EntryPoint

end Blackstone.BankCrypto
