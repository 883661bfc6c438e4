import Blackstone.BankCrypto.Context
import Blackstone.Library.ChaCha20
import Blackstone.Library.Loops

/-!
# ChaCha20

`chacha20/bank_chacha20_core.cpp`. The rounds, the addition and the bytes of the output are those
of RFC 8439, but the words of the key and of the nonce are read with the most significant byte
first. So the block function is the one of the standard for the key and the nonce with the bytes of
every word reversed (`chachaBlock_eq`).

`KeystreamAgrees` says when this makes no difference, and `chacha20Encrypt_eq_rfc8439_iff` that it
is the exact condition.
-/

namespace Blackstone.BankCrypto

open BlockStream Loops

/-- `bank_chacha20_ctx`. -/
structure ChachaContext where
  key : Bytes 32
  nonce : Bytes 12
  counter : UInt32

/-- `bank_chacha20_init`. -/
def chachaInit (key : Bytes 32) (nonce : Bytes 12) (counter : UInt32) : ChachaContext :=
  ⟨key, nonce, counter⟩

/-- `bank_chacha20_quarter_round`. -/
def chachaQuarterRound (a b c d : UInt32) : UInt32 × UInt32 × UInt32 × UInt32 :=
  let a := a + b
  let d := d ^^^ a
  let d := (d <<< 16) ||| (d >>> 16)
  let c := c + d
  let b := b ^^^ c
  let b := (b <<< 12) ||| (b >>> 20)
  let a := a + b
  let d := d ^^^ a
  let d := (d <<< 8) ||| (d >>> 24)
  let c := c + d
  let b := b ^^^ c
  let b := (b <<< 7) ||| (b >>> 25)
  (a, b, c, d)

/-- The quarter round on four words of an array. -/
def chachaQuarterRoundOn (working : Vector UInt32 16) (a b c d : ℕ) : Vector UInt32 16 :=
  let word i := working.toList.getD i 0
  let q := chachaQuarterRound (word a) (word b) (word c) (word d)
  (((working.setIfInBounds a q.1).setIfInBounds b q.2.1).setIfInBounds c q.2.2.1).setIfInBounds d
    q.2.2.2

/-- The body of the loop over the rounds. -/
def chachaDoubleRound (working : Vector UInt32 16) : Vector UInt32 16 :=
  let working := chachaQuarterRoundOn working 0 4 8 12
  let working := chachaQuarterRoundOn working 1 5 9 13
  let working := chachaQuarterRoundOn working 2 6 10 14
  let working := chachaQuarterRoundOn working 3 7 11 15
  let working := chachaQuarterRoundOn working 0 5 10 15
  let working := chachaQuarterRoundOn working 1 6 11 12
  let working := chachaQuarterRoundOn working 2 7 8 13
  chachaQuarterRoundOn working 3 4 9 14

/-- The four bytes from `i` on as a word. -/
def chachaLoad (bytes : List UInt8) (i : ℕ) : UInt32 :=
  ((bytes.getD i 0).toUInt32 <<< 24) ||| ((bytes.getD (i + 1) 0).toUInt32 <<< 16) |||
    ((bytes.getD (i + 2) 0).toUInt32 <<< 8) ||| (bytes.getD (i + 3) 0).toUInt32

/-- The array `x` of `bank_chacha20_block`. -/
def chachaInput (ctx : ChachaContext) : Vector UInt32 16 :=
  let words := [0x61707865, 0x3320646e, 0x79622d32, 0x6b206574] ++
    (List.range 8).map (fun i => chachaLoad ctx.key.toList (i * 4)) ++ [ctx.counter] ++
    [chachaLoad ctx.nonce.toList 0, chachaLoad ctx.nonce.toList 4, chachaLoad ctx.nonce.toList 8]
  Vector.ofFn fun i => words.getD i.val 0

def chachaStore (w : UInt32) : List UInt8 :=
  [(w &&& 0xff).toUInt8, ((w >>> 8) &&& 0xff).toUInt8, ((w >>> 16) &&& 0xff).toUInt8,
    ((w >>> 24) &&& 0xff).toUInt8]

/-- `bank_chacha20_block`: the output, and the context after it. -/
def chachaBlock (ctx : ChachaContext) : List UInt8 × ChachaContext :=
  let x := chachaInput ctx
  let working := (List.range 10).foldl (fun working _ => chachaDoubleRound working) x
  let working := Vector.zipWith (· + ·) working x
  (working.toList.flatMap chachaStore, { ctx with counter := ctx.counter + 1 })

/-- The variables of `bank_chacha20_encrypt`, and what is written of the output. -/
structure ChachaState where
  ctx : ChachaContext
  offset : ℕ
  len : ℕ
  output : List UInt8

/-- The body of the loop of `bank_chacha20_encrypt`. -/
def chachaRound (input : List UInt8) (s : ChachaState) : ChachaState :=
  let block := chachaBlock s.ctx
  let blockLen := min s.len 64
  ⟨block.2, s.offset + blockLen, s.len - blockLen,
    s.output ++ xorBytes ((input.drop s.offset).take blockLen) block.1⟩

/-- `bank_chacha20_encrypt`: the output, and the context after it. -/
def chacha20Encrypt (ctx : ChachaContext) (input : List UInt8) :
    Option (List UInt8 × ChachaContext) := do
  let s ← loop (fun s : ChachaState => 0 < s.len) (fun s => some (chachaRound input s))
    input.length ⟨ctx, 0, input.length, []⟩
  return (s.output, s.ctx)

/-! ## The block function -/

/-- Words of four bytes with their bytes in reverse. -/
def swapWords {n : ℕ} (bytes : Bytes n) : Bytes n :=
  Vector.ofFn fun i => bytes.toList.getD (4 * (i.val / 4) + (3 - i.val % 4)) 0

theorem getD_swapWords {n : ℕ} (bytes : Bytes n) {i : ℕ} (hi : i < n) :
    (swapWords bytes).toList.getD i 0 = bytes.toList.getD (4 * (i / 4) + (3 - i % 4)) 0 := by
  rw [List.getD_eq_getElem?_getD, List.getElem?_eq_getElem (by rwa [Vector.length_toList]),
    Option.getD_some, Vector.getElem_toList, swapWords, Vector.getElem_ofFn]

theorem or_reverse (a b c d : UInt32) : a ||| b ||| c ||| d = d ||| c ||| b ||| a := by
  rw [UInt32.or_comm (a ||| b ||| c) d, UInt32.or_comm (a ||| b) c, UInt32.or_comm a b,
    ← UInt32.or_assoc, ← UInt32.or_assoc]

theorem chachaLoad_eq {n : ℕ} (bytes : Bytes n) {i : ℕ} (hi : 4 * i + 4 ≤ n) :
    chachaLoad bytes.toList (4 * i) =
      ChaCha20.littleEndianWord ((swapWords bytes).toList.getD (4 * i) 0)
        ((swapWords bytes).toList.getD (4 * i + 1) 0) ((swapWords bytes).toList.getD (4 * i + 2) 0)
        ((swapWords bytes).toList.getD (4 * i + 3) 0) := by
  have hindex : ∀ k < 4, 4 * ((4 * i + k) / 4) + (3 - (4 * i + k) % 4) = 4 * i + (3 - k) := by
    intro k hk
    omega
  have hfirst := hindex 0 (by omega)
  rw [Nat.add_zero] at hfirst
  rw [getD_swapWords _ (by omega), getD_swapWords _ (by omega), getD_swapWords _ (by omega),
    getD_swapWords _ (by omega), hfirst, hindex 1 (by omega), hindex 2 (by omega),
    hindex 3 (by omega), chachaLoad, ChaCha20.littleEndianWord]
  exact or_reverse _ _ _ _

theorem chachaLoads_eq {n : ℕ} (bytes : Bytes n) (words : ℕ) (hwords : 4 * words ≤ n) :
    (List.range words).map (fun i => chachaLoad bytes.toList (i * 4)) =
      ChaCha20.readWords words (swapWords bytes).toList := by
  apply List.map_congr_left
  intro i hi
  have hlt : i < words := List.mem_range.mp hi
  rw [Nat.mul_comm i 4]
  exact chachaLoad_eq bytes (by omega)

theorem chachaInput_eq (ctx : ChachaContext) :
    chachaInput ctx = ChaCha20.initialState (swapWords ctx.key).toList ctx.counter
      (swapWords ctx.nonce).toList := by
  have hkey := chachaLoads_eq ctx.key 8 le_rfl
  have hnonce := chachaLoads_eq ctx.nonce 3 le_rfl
  rw [ChaCha20.initialState, ← hkey, ← hnonce]
  rfl

theorem chachaStore_eq (w : UInt32) : chachaStore w = ChaCha20.wordBytes w := by
  have hlow : ∀ x : UInt32, (x &&& 0xff).toUInt8 = x.toUInt8 := by
    intro x
    apply UInt8.toNat_inj.mp
    rw [UInt32.toNat_toUInt8, UInt32.toNat_toUInt8, UInt32.toNat_and]
    exact (congrArg (· % 256) (Nat.and_two_pow_sub_one_eq_mod x.toNat 8)).trans (Nat.mod_mod _ _)
  simp only [chachaStore, ChaCha20.wordBytes, hlow]

theorem chachaQuarterRound_eq (a b c d : UInt32) :
    chachaQuarterRound a b c d = ChaCha20.quarterRound a b c d := by
  have h16 : (32 : UInt32) - 16 = 16 := rfl
  have h12 : (32 : UInt32) - 12 = 20 := rfl
  have h8 : (32 : UInt32) - 8 = 24 := rfl
  have h7 : (32 : UInt32) - 7 = 25 := rfl
  simp only [chachaQuarterRound, ChaCha20.quarterRound, ChaCha20.rotateLeft, h16, h12, h8, h7]

theorem chachaQuarterRoundOn_eq (s : Vector UInt32 16) (x y z w : ℕ) :
    chachaQuarterRoundOn s x y z w = ChaCha20.quarterRoundAt s x y z w := by
  simp only [chachaQuarterRoundOn, chachaQuarterRound_eq]
  rfl

theorem chachaDoubleRound_eq (s : Vector UInt32 16) :
    chachaDoubleRound s = ChaCha20.innerBlock s := by
  simp only [chachaDoubleRound, chachaQuarterRoundOn_eq, ChaCha20.innerBlock]

/-- The block function is the one of the standard, for the key and the nonce with swapped words. -/
theorem chachaBlock_eq (ctx : ChachaContext) :
    chachaBlock ctx = (ChaCha20.block (swapWords ctx.key).toList ctx.counter
      (swapWords ctx.nonce).toList, { ctx with counter := ctx.counter + 1 }) := by
  have hrounds : ∀ (n : ℕ) (s : Vector UInt32 16),
      (List.range n).foldl (fun working _ => chachaDoubleRound working) s =
        ChaCha20.innerBlock^[n] s := by
    intro n s
    induction n with
    | zero => rfl
    | succ n ih =>
      rw [List.range_succ, List.foldl_append, ih, List.foldl_cons, List.foldl_nil,
        chachaDoubleRound_eq, Function.iterate_succ_apply']
  have hstore : chachaStore = ChaCha20.wordBytes := funext chachaStore_eq
  rw [chachaBlock, hrounds, hstore, chachaInput_eq]
  rfl

/-! ## The loop -/

/-- The blocks of the keystream of the code. -/
def chachaKeyBlocks (ctx : ChachaContext) (i : ℕ) : List UInt8 :=
  ChaCha20.keyBlocks (swapWords ctx.key).toList ctx.counter (swapWords ctx.nonce).toList i

theorem length_chachaKeyBlocks (ctx : ChachaContext) (i : ℕ) :
    (chachaKeyBlocks ctx i).length = 64 :=
  ChaCha20.length_keyBlocks _ _ _ i

/-- Where the loop is after `n` blocks. -/
structure ChachaAt (start : ChachaContext) (input : List UInt8) (n : ℕ) (s : ChachaState) :
    Prop where
  ctx : s.ctx = { start with counter := start.counter + UInt32.ofNat n }
  offset : s.offset = min (64 * n) input.length
  len : s.len = input.length - s.offset
  output : s.output = xorBytes (input.take s.offset) (firstBlocks (chachaKeyBlocks start) n)
  enough : n ≤ blockCount 64 input.length

section Loop

variable {ctx : ChachaContext} {input : List UInt8}

theorem ChachaAt.start : ChachaAt ctx input 0 ⟨ctx, 0, input.length, []⟩ := by
  refine ⟨?_, ?_, rfl, rfl, Nat.zero_le _⟩
  · have hzero : ctx.counter + UInt32.ofNat 0 = ctx.counter := UInt32.add_zero _
    rw [hzero]
  · rw [Nat.mul_zero, Nat.zero_min]

theorem ChachaAt.round {n : ℕ} {s : ChachaState} (hs : ChachaAt ctx input n s)
    (hmore : 0 < s.len) : ChachaAt ctx input (n + 1) (chachaRound input s) := by
  obtain ⟨hctx, hoffset, hlen, houtput, henough⟩ := hs
  have hwhole : s.offset = 64 * n := by omega
  have hcounter : ctx.counter + UInt32.ofNat n + 1 = ctx.counter + UInt32.ofNat (n + 1) := by
    rw [UInt32.add_assoc]
    exact congrArg (ctx.counter + ·) (UInt32.ofNat_add n 1).symm
  have hblock : (chachaBlock s.ctx).1 = chachaKeyBlocks ctx n := by
    rw [chachaBlock_eq, hctx]
    rfl
  have hnext :
      (chachaBlock s.ctx).2 = { ctx with counter := ctx.counter + UInt32.ofNat (n + 1) } := by
    rw [chachaBlock_eq, hctx, ← hcounter]
  refine ⟨hnext, ?_, ?_, ?_, ?_⟩
  · change s.offset + min s.len 64 = min (64 * (n + 1)) input.length
    omega
  · change s.len - min s.len 64 = input.length - (s.offset + min s.len 64)
    omega
  · change s.output ++ xorBytes ((input.drop s.offset).take (min s.len 64)) (chachaBlock s.ctx).1 =
      xorBytes (input.take (s.offset + min s.len 64)) (firstBlocks (chachaKeyBlocks ctx) (n + 1))
    have hlengths :
        (input.take s.offset).length = (firstBlocks (chachaKeyBlocks ctx) n).length := by
      rw [length_firstBlocks (length_chachaKeyBlocks ctx), List.length_take]
      omega
    rw [houtput, hblock, firstBlocks_succ, List.take_add, xorBytes, xorBytes, xorBytes,
      List.zipWith_append hlengths]
  · by_contra hnot
    have hcount := le_mul_blockCount (show 0 < 64 by omega) input.length
    omega

/-- The loop ends, with the whole keystream xored and the counter behind the last block. -/
theorem chacha20Encrypt_eq (ctx : ChachaContext) (input : List UInt8) :
    chacha20Encrypt ctx input =
      some (xorBytes input (firstBlocks (chachaKeyBlocks ctx) (blockCount 64 input.length)),
        { ctx with counter := ctx.counter + UInt32.ofNat (blockCount 64 input.length) }) := by
  have hround : ∀ s : ChachaState, (∃ n, ChachaAt ctx input n s) → decide (0 < s.len) = true →
      ∃ t, some (chachaRound input s) = some t ∧ (∃ n, ChachaAt ctx input n t) ∧
        t.len < s.len := by
    rintro s ⟨n, hs⟩ hmore
    have hlt : 0 < s.len := of_decide_eq_true hmore
    refine ⟨_, rfl, ⟨n + 1, hs.round hlt⟩, ?_⟩
    change s.len - min s.len 64 < s.len
    omega
  obtain ⟨s, hrun, ⟨n, hs⟩, hdone⟩ := loop_spec (fun s => ∃ n, ChachaAt ctx input n s)
    (fun s => s.len) hround input.length ⟨ctx, 0, input.length, []⟩ le_rfl
    ⟨0, ChachaAt.start⟩
  have hstop : ¬ 0 < s.len := of_decide_eq_false hdone
  obtain ⟨hctx, hoffset, hlen, houtput, henough⟩ := hs
  have hcount : n = blockCount 64 input.length :=
    Nat.le_antisymm henough (blockCount_le (by omega))
  have hall : input.take s.offset = input := List.take_of_length_le (by omega)
  rw [chacha20Encrypt, hrun, Option.bind_eq_bind, Option.bind_some, hctx, houtput, hall, hcount]
  rfl

end Loop

/-! ## Conformance -/

/-- The keystream of the standard and the one with the words swapped agree on every block, as far
as it is used. -/
def KeystreamAgrees (key : Bytes 32) (nonce : Bytes 12) (counter : UInt32) (len : ℕ) : Prop :=
  ∀ i < blockCount 64 len,
    (ChaCha20.keyBlocks (swapWords key).toList counter (swapWords nonce).toList i).take
        (len - 64 * i) =
      (ChaCha20.keyBlocks key.toList counter nonce.toList i).take (len - 64 * i)

theorem chacha20Encrypt_eq_rfc8439_iff (key : Bytes 32) (nonce : Bytes 12) (counter : UInt32)
    (message : List UInt8) :
    (chacha20Encrypt (chachaInit key nonce counter) message).map Prod.fst =
        some (ChaCha20.encrypt key.toList counter nonce.toList message) ↔
      KeystreamAgrees key nonce counter message.length := by
  have hle : ∀ blocks : ℕ → List UInt8, (∀ i, (blocks i).length = 64) →
      message.length ≤ (firstBlocks blocks (blockCount 64 message.length)).length := by
    intro blocks hblocks
    rw [length_firstBlocks hblocks]
    exact le_mul_blockCount (by omega) _
  have hcode := length_chachaKeyBlocks (chachaInit key nonce counter)
  have hstandard := ChaCha20.length_keyBlocks key.toList counter nonce.toList
  rw [chacha20Encrypt_eq, Option.map_some, Option.some_inj, ChaCha20.encrypt,
    xorBytes_right_inj (hle _ hcode) (hle _ hstandard), firstBlocks_take_eq_iff hcode hstandard]
  rfl

theorem chacha20Encrypt_ne_rfc8439 :
    let key : Bytes 32 := Vector.ofFn fun i => UInt8.ofNat i.val
    let nonce : Bytes 12 := #v[0, 0, 0, 9, 0, 0, 0, 0x4a, 0, 0, 0, 0]
    (chacha20Encrypt (chachaInit key nonce 1) [0]).map Prod.fst ≠
        some (ChaCha20.encrypt key.toList 1 nonce.toList [0]) ∧
      ChaCha20.encrypt key.toList 1 nonce.toList [0] = [0x10] := by
  decide +kernel

end Blackstone.BankCrypto
