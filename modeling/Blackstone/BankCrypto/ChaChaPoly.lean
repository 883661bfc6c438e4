import Blackstone.BankCrypto.ChaCha20
import Blackstone.BankCrypto.Poly1305

/-!
# ChaCha20-Poly1305

`chacha20/bank_chacha20_encrypt.cpp`. The data is encrypted from block 0 on, and then the counter
is set back to 0 for the block that the one-time key of Poly1305 is taken from. The two sets of
counters are disjoint for the empty plaintext only (`keySeparated_iff`), and the first 32 bytes of
plaintext and ciphertext together show the key.
-/

namespace Blackstone.BankCrypto

open BlockStream Loops

/-- The one-time key, from a context with the counter of its block. -/
def chachaPolyKey (ctx : ChachaContext) : Option (Bytes 32) := do
  let polyKeyBlock ← chacha20Encrypt ctx (List.replicate 64 0)
  return copyTo (zeroBytes 32) (polyKeyBlock.1.take 32)

def paddingLen (len : ℕ) : ℕ := (16 - len % 16) % 16

/-- The block of the two lengths in bits, as a little-endian machine stores them. -/
def chachaLengthBlock (aadLen plainLen : ℕ) : List UInt8 :=
  let aadBits := UInt64.ofNat aadLen * 8
  let cipherBits := UInt64.ofNat plainLen * 8
  (List.range 8).map (fun i => (aadBits >>> UInt64.ofNat (8 * i)).toUInt8) ++
    (List.range 8).map fun i => (cipherBits >>> UInt64.ofNat (8 * i)).toUInt8

/-- `bank_encrypt_chacha20_poly1305`: the ciphertext and the tag. -/
def encryptChacha20Poly1305 (key : Bytes 32) (nonce : Bytes 12) (aad plain : List UInt8) :
    Option (List UInt8 × List UInt8) := do
  let (cipher, ctx) ← chacha20Encrypt ⟨key, nonce, 0⟩ plain
  let polyKey ← chachaPolyKey { ctx with counter := 0 }
  let poly ← polyUpdate (polyInit polyKey) aad
  let poly ← polyUpdate poly (List.replicate (paddingLen aad.length) 0)
  let poly ← polyUpdate poly cipher
  let poly ← polyUpdate poly (List.replicate (paddingLen plain.length) 0)
  let poly ← polyUpdate poly (chachaLengthBlock aad.length plain.length)
  let tag ← polyFinal poly
  return (cipher, tag)

/-! ## The counters -/

/-- The counters of the blocks that `bank_chacha20_encrypt` computes, in their order. -/
def encryptCounters (ctx : ChachaContext) (input : List UInt8) : Option (List UInt32) := do
  let s ← loop (fun s : ChachaState × List UInt32 => 0 < s.1.len)
    (fun s => some (chachaRound input s.1, s.2 ++ [s.1.ctx.counter]))
    input.length (⟨ctx, 0, input.length, []⟩, [])
  return s.2

theorem encryptCounters_eq (ctx : ChachaContext) (input : List UInt8) :
    encryptCounters ctx input =
      some ((List.range (blockCount 64 input.length)).map
        fun i => ctx.counter + UInt32.ofNat i) := by
  let Inv (s : ChachaState × List UInt32) : Prop := ∃ n, ChachaAt ctx input n s.1 ∧
    s.2 = (List.range n).map fun i => ctx.counter + UInt32.ofNat i
  have hround : ∀ s : ChachaState × List UInt32, Inv s → decide (0 < s.1.len) = true →
      ∃ t, some (chachaRound input s.1, s.2 ++ [s.1.ctx.counter]) = some t ∧ Inv t ∧
        t.1.len < s.1.len := by
    rintro s ⟨n, hs, htrace⟩ hmore
    have hlt : 0 < s.1.len := of_decide_eq_true hmore
    refine ⟨_, rfl, ⟨n + 1, hs.round hlt, ?_⟩, ?_⟩
    · rw [htrace, hs.ctx, List.range_succ, List.map_append, List.map_singleton]
    · change s.1.len - min s.1.len 64 < s.1.len
      omega
  obtain ⟨s, hrun, ⟨n, hs, htrace⟩, hdone⟩ := loop_spec Inv (fun s => s.1.len) hround
    input.length (⟨ctx, 0, input.length, []⟩, []) le_rfl ⟨0, ChachaAt.start, rfl⟩
  have hstop : ¬ 0 < s.1.len := of_decide_eq_false hdone
  have hoffset := hs.offset
  have hlen := hs.len
  have hcount : n = blockCount 64 input.length :=
    Nat.le_antisymm hs.enough (blockCount_le (by omega))
  rw [encryptCounters, hrun, Option.bind_eq_bind, Option.bind_some, htrace, hcount]
  rfl

/-- No block of the key is a block that the plaintext is xored with. -/
def KeySeparated (key : Bytes 32) (nonce : Bytes 12) (plain : List UInt8) : Prop :=
  ∃ keyCounters dataCounters,
    encryptCounters ⟨key, nonce, 0⟩ (List.replicate 64 0) = some keyCounters ∧
      encryptCounters ⟨key, nonce, 0⟩ plain = some dataCounters ∧
      ∀ counter ∈ keyCounters, counter ∉ dataCounters

theorem keySeparated_eq (key : Bytes 32) (nonce : Bytes 12) (plain : List UInt8) :
    KeySeparated key nonce plain ↔ plain = [] := by
  have hkey : encryptCounters ⟨key, nonce, 0⟩ (List.replicate 64 0) = some [0] := by
    rw [encryptCounters_eq, List.length_replicate]
    rfl
  rw [KeySeparated, hkey]
  constructor
  · rintro ⟨_, dataCounters, hfirst, hdata, hnot⟩
    obtain rfl := Option.some.inj hfirst
    rw [encryptCounters_eq, Option.some_inj] at hdata
    by_contra hne
    have hpos : 0 < plain.length := List.length_pos_iff.mpr hne
    have hblock : 0 < blockCount 64 plain.length := by
      rw [blockCount]
      omega
    refine hnot 0 (List.mem_singleton_self 0) ?_
    rw [← hdata, List.mem_map]
    exact ⟨0, List.mem_range.mpr hblock, rfl⟩
  · rintro rfl
    exact ⟨[0], [], rfl, rfl, fun _ _ => List.not_mem_nil⟩

/-! ## What a ciphertext shows -/

theorem chachaPolyKey_eq (ctx : ChachaContext) :
    chachaPolyKey ctx = some (copyTo (zeroBytes 32) ((chachaKeyBlocks ctx 0).take 32)) := by
  have hcount : blockCount 64 (List.replicate 64 (0 : UInt8)).length = 1 := by
    rw [List.length_replicate]
    rfl
  have hblock : firstBlocks (chachaKeyBlocks ctx) 1 = chachaKeyBlocks ctx 0 := by
    have hnone : firstBlocks (chachaKeyBlocks ctx) 0 = [] := rfl
    rw [firstBlocks_succ, hnone, List.nil_append]
  rw [chachaPolyKey, chacha20Encrypt_eq, hcount, hblock, xorBytes_zeros,
    List.take_of_length_le (length_chachaKeyBlocks ctx 0).le, Option.bind_eq_bind,
    Option.bind_some, Option.pure_def]

theorem toList_chachaPolyKey (ctx : ChachaContext) :
    (copyTo (zeroBytes 32) ((chachaKeyBlocks ctx 0).take 32)).toList =
      (chachaKeyBlocks ctx 0).take 32 := by
  apply toList_copyTo_full
  rw [List.length_take, length_chachaKeyBlocks]
  rfl

/-- The two paddings and the block of lengths make complete blocks, for which there is a tag. -/
theorem polyRun_padded (key : Bytes 32) (aad cipher : List UInt8) :
    ∃ tag, polyRun key [aad, List.replicate (paddingLen aad.length) 0, cipher,
      List.replicate (paddingLen cipher.length) 0,
      chachaLengthBlock aad.length cipher.length] = some tag := by
  have hlength : [aad, List.replicate (paddingLen aad.length) 0, cipher,
      List.replicate (paddingLen cipher.length) 0,
      chachaLengthBlock aad.length cipher.length].flatten.length % 16 = 0 := by
    simp only [List.flatten_cons, List.flatten_nil, List.length_append, List.length_replicate,
      chachaLengthBlock, List.length_map, List.length_range, List.length_nil, paddingLen]
    omega
  rw [polyRun_eq, hlength, if_pos (by omega)]
  exact ⟨_, rfl⟩

/-- The ciphertext and the tag, which the plaintext is xored to and which the key is used for. -/
theorem encryptChacha20Poly1305_eq (key : Bytes 32) (nonce : Bytes 12) (aad plain : List UInt8) :
    ∃ tag, encryptChacha20Poly1305 key nonce aad plain =
      some (xorBytes plain (firstBlocks (chachaKeyBlocks ⟨key, nonce, 0⟩)
        (blockCount 64 plain.length)), tag) := by
  let ctx : ChachaContext := ⟨key, nonce, 0⟩
  let cipher := xorBytes plain (firstBlocks (chachaKeyBlocks ctx) (blockCount 64 plain.length))
  have hcipher : cipher.length = plain.length := by
    have hcount := le_mul_blockCount (show 0 < 64 by omega) plain.length
    rw [length_xorBytes, length_firstBlocks (length_chachaKeyBlocks ctx)]
    omega
  obtain ⟨tag, htag⟩ := polyRun_padded
    (copyTo (zeroBytes 32) ((chachaKeyBlocks ctx 0).take 32)) aad cipher
  refine ⟨tag, ?_⟩
  rw [hcipher] at htag
  simp only [polyRun, List.foldlM_cons, List.foldlM_nil, bind_assoc, pure_bind] at htag
  rw [encryptChacha20Poly1305, chacha20Encrypt_eq, Option.bind_eq_bind, Option.bind_some]
  simp only [chachaPolyKey_eq, Option.bind_eq_bind, Option.bind_some, Option.pure_def] at htag ⊢
  have hpair := congrArg (fun result => result.bind fun tag => some (cipher, tag)) htag
  simp only [Option.bind_assoc, Option.bind_some] at hpair
  exact hpair

/-- The blocks of the key and of the data are separate for the empty plaintext only. Of every
other, the ciphertext and the plaintext show the bytes of the one-time key, as many as they have:
all of it from 32 bytes on. -/
theorem keySeparated_iff (key : Bytes 32) (nonce : Bytes 12) (aad plain : List UInt8) :
    (KeySeparated key nonce plain ↔ plain = []) ∧
      ∃ polyKey cipher tag, chachaPolyKey ⟨key, nonce, 0⟩ = some polyKey ∧
        encryptChacha20Poly1305 key nonce aad plain = some (cipher, tag) ∧
        (xorBytes plain cipher).take 32 = polyKey.toList.take plain.length := by
  refine ⟨keySeparated_eq key nonce plain, ?_⟩
  obtain ⟨tag, hrun⟩ := encryptChacha20Poly1305_eq key nonce aad plain
  refine ⟨_, _, tag, chachaPolyKey_eq _, hrun, ?_⟩
  have hlength : ∀ i, (chachaKeyBlocks ⟨key, nonce, 0⟩ i).length = 64 := length_chachaKeyBlocks _
  have hcount := le_mul_blockCount (show 0 < 64 by omega) plain.length
  have hstream : plain.length ≤ (firstBlocks (chachaKeyBlocks ⟨key, nonce, 0⟩)
      (blockCount 64 plain.length)).length := by
    rwa [length_firstBlocks hlength]
  have hfirst : (firstBlocks (chachaKeyBlocks ⟨key, nonce, 0⟩) (blockCount 64 plain.length)).take
      (min 32 plain.length) = (chachaKeyBlocks ⟨key, nonce, 0⟩ 0).take (min 32 plain.length) := by
    rcases Nat.eq_zero_or_pos plain.length with hzero | hpos
    · rw [hzero, Nat.min_zero, List.take_zero, List.take_zero]
    · have hnone : firstBlocks (chachaKeyBlocks ⟨key, nonce, 0⟩) 0 = [] := rfl
      rw [firstBlocks_take_of_le hlength (m := 1) (by omega) (by omega), firstBlocks_succ, hnone,
        List.nil_append]
  rw [toList_chachaPolyKey, xorBytes_xorBytes_left hstream, List.take_take, List.take_take, hfirst,
    Nat.min_comm]

/-- One byte of plaintext. -/
theorem not_keySeparated : ¬ KeySeparated (zeroBytes 32) (zeroBytes 12) [0] := by
  rw [keySeparated_eq]
  exact List.cons_ne_nil _ _

end Blackstone.BankCrypto
