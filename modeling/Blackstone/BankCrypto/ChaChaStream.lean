import Blackstone.BankCrypto.ChaCha20

/-!
# ChaCha20 as a stream

A context is a place in a keystream. Encryption takes it on by the blocks that it uses, so a second
run from the same place takes the keystream off again (`chacha20Encrypt_involutive`), and pieces
that end at the end of a block are encrypted as one message (`encryptPieces_eq`). A piece that ends
within a block uses up the rest of it, and must be the last.
-/

namespace Blackstone.BankCrypto

open BlockStream

/-- The context after `n` blocks. -/
def ChachaContext.advance (ctx : ChachaContext) (n : ℕ) : ChachaContext :=
  { ctx with counter := ctx.counter + UInt32.ofNat n }

/-- The part of the keystream that a message of `len` bytes uses. -/
def chachaKeystream (ctx : ChachaContext) (len : ℕ) : List UInt8 :=
  firstBlocks (chachaKeyBlocks ctx) (blockCount 64 len)

/-- `bank_chacha20_encrypt` of one piece after the other, with one context. -/
def encryptPieces (ctx : ChachaContext) :
    List (List UInt8) → Option (List UInt8 × ChachaContext)
  | [] => some ([], ctx)
  | piece :: pieces => do
    let (first, ctx) ← chacha20Encrypt ctx piece
    let (rest, ctx) ← encryptPieces ctx pieces
    return (first ++ rest, ctx)

section Stream

variable {ctx : ChachaContext}

theorem chacha20Encrypt_stream (ctx : ChachaContext) (message : List UInt8) :
    chacha20Encrypt ctx message =
      some (xorBytes message (chachaKeystream ctx message.length),
        ctx.advance (blockCount 64 message.length)) :=
  chacha20Encrypt_eq ctx message

theorem advance_zero (ctx : ChachaContext) : ctx.advance 0 = ctx := by
  have hcounter : ctx.counter + UInt32.ofNat 0 = ctx.counter := UInt32.add_zero _
  rw [ChachaContext.advance, hcounter]

theorem advance_add (ctx : ChachaContext) (m n : ℕ) :
    (ctx.advance m).advance n = ctx.advance (m + n) := by
  rw [ChachaContext.advance, ChachaContext.advance, ChachaContext.advance, UInt32.add_assoc,
    ← UInt32.ofNat_add]

/-- The place after some blocks shows the blocks behind them. -/
theorem chachaKeyBlocks_advance (ctx : ChachaContext) (m i : ℕ) :
    chachaKeyBlocks (ctx.advance m) i = chachaKeyBlocks ctx (m + i) := by
  rw [chachaKeyBlocks, chachaKeyBlocks, ChaCha20.keyBlocks, ChaCha20.keyBlocks, UInt32.ofNat_add,
    ← UInt32.add_assoc]
  rfl

theorem le_length_chachaKeystream (ctx : ChachaContext) (len : ℕ) :
    len ≤ (chachaKeystream ctx len).length := by
  rw [chachaKeystream, length_firstBlocks (length_chachaKeyBlocks ctx)]
  exact le_mul_blockCount (by omega) len

theorem length_chachaKeystream_mul (ctx : ChachaContext) (n : ℕ) :
    (chachaKeystream ctx (64 * n)).length = 64 * n := by
  have hcount := blockCount_mul_add (show 0 < 64 by omega) n 0
  rw [chachaKeystream, length_firstBlocks (length_chachaKeyBlocks ctx)]
  rw [Nat.add_zero] at hcount
  rw [hcount]
  rfl

/-- The keystream goes on behind whole blocks. -/
theorem chachaKeystream_add (ctx : ChachaContext) (n len : ℕ) :
    chachaKeystream ctx (64 * n + len) =
      chachaKeystream ctx (64 * n) ++ chachaKeystream (ctx.advance n) len := by
  have hcount := blockCount_mul_add (show 0 < 64 by omega) n
  have hblocks : chachaKeyBlocks (ctx.advance n) = fun i => chachaKeyBlocks ctx (n + i) :=
    funext (chachaKeyBlocks_advance ctx n)
  have hfirst := hcount 0
  rw [Nat.add_zero] at hfirst
  rw [chachaKeystream, chachaKeystream, chachaKeystream, hcount, firstBlocks_add, hfirst, hblocks]
  rfl

/-- A message behind a piece of whole blocks. -/
theorem chacha20Encrypt_append {piece : List UInt8} (hwhole : 64 ∣ piece.length)
    (message : List UInt8) :
    chacha20Encrypt ctx (piece ++ message) = do
      let (first, ctx) ← chacha20Encrypt ctx piece
      let (rest, ctx) ← chacha20Encrypt ctx message
      return (first ++ rest, ctx) := by
  obtain ⟨n, hn⟩ := hwhole
  have hcount := blockCount_mul_add (show 0 < 64 by omega) n
  have hfirst := hcount 0
  rw [Nat.add_zero] at hfirst
  have hlength : piece.length = (chachaKeystream ctx (64 * n)).length := by
    rw [length_chachaKeystream_mul, hn]
  have hstep : blockCount 64 (64 * n) = n := hfirst
  simp only [chacha20Encrypt_stream, Option.bind_eq_bind, Option.bind_some, Option.pure_def,
    List.length_append, hn, hstep, hcount, chachaKeystream_add, xorBytes_append hlength,
    advance_add]

end Stream

/-- A second run from the same state takes the keystream off again. -/
theorem chacha20Encrypt_involutive (ctx : ChachaContext) (message : List UInt8) :
    ∃ output ctx', chacha20Encrypt ctx message = some (output, ctx') ∧
      chacha20Encrypt ctx output = some (message, ctx') := by
  refine ⟨_, _, chacha20Encrypt_stream ctx message, ?_⟩
  have hlength : (xorBytes message (chachaKeystream ctx message.length)).length =
      message.length := by
    rw [length_xorBytes]
    exact Nat.min_eq_left (le_length_chachaKeystream ctx _)
  rw [chacha20Encrypt_stream, hlength, xorBytes_xorBytes (le_length_chachaKeystream ctx _)]

theorem encryptPieces_eq {pieces : List (List UInt8)}
    (hwhole : ∀ piece ∈ pieces.dropLast, 64 ∣ piece.length) (ctx : ChachaContext) :
    encryptPieces ctx pieces = chacha20Encrypt ctx pieces.flatten := by
  induction pieces generalizing ctx with
  | nil =>
    rw [chacha20Encrypt_stream, List.flatten_nil, List.length_nil]
    have hnone : blockCount 64 0 = 0 := rfl
    rw [hnone, advance_zero]
    rfl
  | cons piece pieces ih =>
    cases pieces with
    | nil =>
      rw [encryptPieces, chacha20Encrypt_stream, List.flatten_singleton, chacha20Encrypt_stream]
      simp only [encryptPieces, Option.bind_eq_bind, Option.bind_some, Option.pure_def,
        List.append_nil]
    | cons next pieces =>
      rw [List.dropLast_cons_cons, List.forall_mem_cons] at hwhole
      rw [encryptPieces, List.flatten_cons, chacha20Encrypt_append hwhole.1]
      simp only [ih hwhole.2]

/-- Decryption is encryption from the same state, and a message may be encrypted in pieces. -/
theorem chacha20_stream_laws (key : Bytes 32) (nonce : Bytes 12) (counter : UInt32) :
    (∀ message, ∃ output ctx', chacha20Encrypt (chachaInit key nonce counter) message =
        some (output, ctx') ∧
      chacha20Encrypt (chachaInit key nonce counter) output = some (message, ctx')) ∧
    ∀ pieces : List (List UInt8), (∀ piece ∈ pieces.dropLast, 64 ∣ piece.length) →
      ∃ output ctx', encryptPieces (chachaInit key nonce counter) pieces = some (output, ctx') ∧
        chacha20Encrypt (chachaInit key nonce counter) pieces.flatten = some (output, ctx') := by
  refine ⟨chacha20Encrypt_involutive _, fun pieces hwhole => ?_⟩
  rw [encryptPieces_eq hwhole]
  exact ⟨_, _, chacha20Encrypt_stream _ _, chacha20Encrypt_stream _ _⟩

/-- A block and a byte, from the last counter on. -/
theorem chacha20_stream_laws_wrapping :
    let ctx := chachaInit (zeroBytes 32) (zeroBytes 12) 0xFFFFFFFF
    ∃ output ctx', encryptPieces ctx [List.replicate 64 1, [2]] = some (output, ctx') ∧
      chacha20Encrypt ctx (List.replicate 64 1 ++ [2]) = some (output, ctx') := by
  have hwhole : ∀ piece ∈ [List.replicate 64 (1 : UInt8), [2]].dropLast, 64 ∣ piece.length := by
    decide
  exact (chacha20_stream_laws (zeroBytes 32) (zeroBytes 12) 0xFFFFFFFF).2 _ hwhole

end Blackstone.BankCrypto
