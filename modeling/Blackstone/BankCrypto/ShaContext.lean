import Blackstone.BankCrypto.Context
import Blackstone.Library.Sha2

/-!
# Streaming hashes

`sha/bank_sha256.cpp` and `sha/bank_sha512.cpp` have one shape: `ShaFunctions` are the functions
and constants that they differ in. Bytes are collected in a buffer of the size of a block, and a
full buffer is compressed at once. `Holds` relates a context to the bytes that it was given, and
`Holds.update` keeps it for every way in which these are cut into chunks.

A write past the end of an array gives `none`.
-/

namespace Blackstone.BankCrypto

open BigEndian Blocks Sha2

/-- `memset` of the first bytes of an array. -/
def memset {n : ℕ} (buffer : Bytes n) (value : UInt8) (len : ℕ) : Option (Bytes n) :=
  if len ≤ n then some (copyTo buffer (List.replicate len value)) else none

/-- `bank_sha256_ctx` and `bank_sha512_ctx`. -/
structure ShaContext (W : Type) (n : ℕ) where
  state : Words W
  buffer : Bytes n
  count : UInt64

/-- What the two hash functions differ in. The constants that an initialiser leaves out are
zero. -/
structure ShaFunctions (W : Type) (n : ℕ) where
  rounds : ℕ
  bsig0 : W → W
  bsig1 : W → W
  ssig0 : W → W
  ssig1 : W → W
  ch : W → W → W → W
  maj : W → W → W → W
  k : List W
  load : Bytes n → ℕ → W
  store : W → List UInt8
  initial : Words W
  padLen : UInt64 → UInt64

section Functions

variable {W : Type} {n : ℕ} [Add W] [OfNat W 0]

/-- The loop over the words of the schedule after the first sixteen, for `rounds` of them. -/
def extendWords (f : ShaFunctions W n) (w : List W) (rounds : ℕ) : List W :=
  (List.range rounds).foldl (fun w j =>
    let i := j + 16
    w ++ [f.ssig1 (w.getD (i - 2) 0) + w.getD (i - 7) 0 + f.ssig0 (w.getD (i - 15) 0) +
      w.getD (i - 16) 0]) w

/-- A round of the transform. -/
def shaRound (f : ShaFunctions W n) (v : Words W) (k w : W) : Words W :=
  let t1 := v.h + f.bsig1 v.e + f.ch v.e v.f v.g + k + w
  let t2 := f.bsig0 v.a + f.maj v.a v.b v.c
  { h := v.g, g := v.f, f := v.e, e := v.d + t1, d := v.c, c := v.b, b := v.a, a := t1 + t2 }

namespace ShaContext

/-- The transform of a full buffer. -/
def transform (f : ShaFunctions W n) (ctx : ShaContext W n) : ShaContext W n :=
  let w := extendWords f ((List.range 16).map (f.load ctx.buffer)) (f.rounds - 16)
  let v := (List.range f.rounds).foldl (fun v i => shaRound f v (f.k.getD i 0) (w.getD i 0))
    ctx.state
  { ctx with state := ctx.state.add v }

/-- The initialisation. -/
def init (f : ShaFunctions W n) : ShaContext W n where
  state := f.initial
  buffer := zeroBytes n
  count := 0

/-- One round of the update loop. -/
def updateByte (f : ShaFunctions W n) (ctx : ShaContext W n) (byte : UInt8) : ShaContext W n :=
  let next :=
    { ctx with
      buffer := ctx.buffer.setIfInBounds (ctx.count % UInt64.ofNat n).toNat byte
      count := ctx.count + 1 }
  if next.count % UInt64.ofNat n = 0 then next.transform f else next

/-- The update. -/
def update (f : ShaFunctions W n) (ctx : ShaContext W n) (data : List UInt8) : ShaContext W n :=
  data.foldl (updateByte f) ctx

/-- The eight bytes of the length in bits. -/
def lengthBytes (bitLen : UInt64) : List UInt8 :=
  (List.range 8).map fun i => (bitLen >>> UInt64.ofNat (56 - i * 8)).toUInt8

/-- The end of a hash. `padding` is the array on the stack, with what it holds at first. -/
def final (f : ShaFunctions W n) (padding : Bytes n) (ctx : ShaContext W n) :
    Option (List UInt8) := do
  let bitLen := ctx.count * 8
  let padLen := (f.padLen ctx.count).toNat
  let padding ← memset padding 0 padLen
  let padding := copyTo padding [0x80]
  let ctx := ctx.update f (padding.toList.take padLen)
  let padding := copyTo padding (lengthBytes bitLen)
  let ctx := ctx.update f (padding.toList.take 8)
  return ctx.state.toList.flatMap f.store

end ShaContext

end Functions

/-! ## The transform -/

/-- The functions compute a member of the SHA-2 family, with words read through `φ`. -/
structure Implements {W : Type} {n w : ℕ} [Add W] [OfNat W 0] (f : ShaFunctions W n)
    (p : Params w) (φ : W → BitVec w) : Prop where
  size : n = 2 * w
  pos : 0 < n
  fits : n < 2 ^ 64
  divides : n ∣ 2 ^ 64
  rounds : f.rounds = p.rounds
  add : ∀ x y, φ (x + y) = φ x + φ y
  zero : φ 0 = 0
  bsig0 : ∀ x, φ (f.bsig0 x) = p.bigSigma0 (φ x)
  bsig1 : ∀ x, φ (f.bsig1 x) = p.bigSigma1 (φ x)
  ssig0 : ∀ x, φ (f.ssig0 x) = p.smallSigma0 (φ x)
  ssig1 : ∀ x, φ (f.ssig1 x) = p.smallSigma1 (φ x)
  ch : ∀ x y z, φ (f.ch x y z) = Sha2.ch (φ x) (φ y) (φ z)
  maj : ∀ x y z, φ (f.maj x y z) = Sha2.maj (φ x) (φ y) (φ z)
  k : ∀ t < f.rounds, φ (f.k.getD t 0) = p.k t
  load : ∀ buffer, ∀ i < 16, φ (f.load buffer i) =
    BitVec.ofNat w (ofBigEndian ((buffer.toList.drop (w / 8 * i)).take (w / 8)))
  store : ∀ x, f.store x = bigEndian (w / 8) (φ x).toNat
  initial : f.initial.map φ = p.initial

/-- The bytes of a piece of an array. -/
theorem take_drop_eq_map {bytes : List UInt8} {k m : ℕ} (hle : k + m ≤ bytes.length) :
    (bytes.drop k).take m = (List.range m).map fun j => bytes.getD (k + j) 0 := by
  apply List.ext_getElem
  · rw [List.length_take, List.length_drop, List.length_map, List.length_range]
    omega
  · intro j hj _
    have hlt : k + j < bytes.length := by
      rw [List.length_take, List.length_drop] at hj
      omega
    rw [List.getElem_take, List.getElem_drop, List.getElem_map, List.getElem_range,
      List.getD_eq_getElem?_getD, List.getElem?_eq_getElem hlt, Option.getD_some]

namespace Implements

variable {W : Type} {n w : ℕ} [Add W] [OfNat W 0] {f : ShaFunctions W n} {p : Params w}
  {φ : W → BitVec w}

theorem getD_map (h : Implements f p φ) (words : List W) (i : ℕ) :
    (words.map φ).getD i 0 = φ (words.getD i 0) := by
  rw [← h.zero, List.getD_eq_getElem?_getD, List.getD_eq_getElem?_getD, List.getElem?_map,
    Option.getD_map]

theorem map_extendWords (h : Implements f p φ) (words : List W) (rounds : ℕ) :
    (extendWords f words rounds).map φ = schedule p (words.map φ) rounds := by
  induction rounds with
  | zero => rfl
  | succ t ih =>
    rw [schedule, ← ih, extendWords, List.range_succ, List.foldl_append, ← extendWords,
      List.foldl_cons, List.foldl_nil, List.map_append, List.map_singleton, h.add, h.add, h.add,
      h.ssig1, h.ssig0]
    simp only [h.getD_map]
    rfl

theorem map_shaRound (h : Implements f p φ) (v : Words W) (k x : W) :
    (shaRound f v k x).map φ = Sha2.round p (v.map φ) (φ k) (φ x) := by
  simp only [shaRound, Sha2.round, Words.map, h.add, h.bsig0, h.bsig1, h.ch, h.maj]

theorem map_rounds (h : Implements f p φ) (s : Words W) (words : List W) {rounds : ℕ}
    (hrounds : rounds ≤ f.rounds) :
    ((List.range rounds).foldl
        (fun v i => shaRound f v (f.k.getD i 0) (words.getD i 0)) s).map φ =
      (List.range rounds).foldl
        (fun v t => Sha2.round p v (p.k t) ((words.map φ).getD t 0)) (s.map φ) := by
  induction rounds with
  | zero => rfl
  | succ t ih =>
    rw [List.range_succ, List.foldl_append, List.foldl_append, ← ih (by omega)]
    simp only [List.foldl_cons, List.foldl_nil]
    rw [h.map_shaRound, h.k t (by omega), h.getD_map]

theorem map_load (h : Implements f p φ) (buffer : Bytes n) :
    ((List.range 16).map (f.load buffer)).map φ = wordsOf w buffer.toList := by
  rw [wordsOf, List.map_map]
  apply List.map_congr_left
  intro i hi
  exact h.load buffer i (List.mem_range.mp hi)

/-- The transform is the compression function of the standard. -/
theorem map_transform (h : Implements f p φ) (ctx : ShaContext W n) :
    (ctx.transform f).state.map φ = compress p (ctx.state.map φ) ctx.buffer.toList := by
  have hadd : ∀ s t : Words W, (s.add t).map φ = (s.map φ).add (t.map φ) := by
    intro s t
    simp only [Words.add, Words.map, h.add]
  rw [ShaContext.transform, compress, hadd, h.map_rounds _ _ le_rfl, h.map_extendWords,
    h.map_load, h.rounds]

end Implements

/-! ## The update -/

/-- The context has taken these bytes. -/
structure Holds {W : Type} {n w : ℕ} (p : Params w) (φ : W → BitVec w) (ctx : ShaContext W n)
    (bytes : List UInt8) : Prop where
  state : ctx.state.map φ = chain p bytes
  count : ctx.count = UInt64.ofNat bytes.length
  buffer : ctx.buffer.toList.take (bytes.length % n) = remainder n bytes

namespace Implements

variable {W : Type} {n w : ℕ} [Add W] [OfNat W 0] {f : ShaFunctions W n} {p : Params w}
  {φ : W → BitVec w}

theorem toNat_mod (h : Implements f p φ) (m : ℕ) :
    (UInt64.ofNat m % UInt64.ofNat n).toNat = m % n := by
  rw [UInt64.toNat_mod, UInt64.toNat_ofNat', UInt64.toNat_ofNat', Nat.mod_eq_of_lt h.fits]
  exact Nat.mod_mod_of_dvd m h.divides

theorem mod_eq_zero_iff (h : Implements f p φ) (m : ℕ) :
    UInt64.ofNat m % UInt64.ofNat n = 0 ↔ m % n = 0 := by
  rw [← UInt64.toNat_inj, h.toNat_mod]
  rfl

theorem holds_init (h : Implements f p φ) : Holds p φ (ShaContext.init f) [] := by
  constructor
  · rw [chain, wholeBlocks_of_lt (by rw [← h.size]; exact h.pos)]
    exact h.initial
  · rfl
  · rw [List.length_nil, Nat.zero_mod, List.take_zero, remainder, List.drop_nil]

/-- The buffer up to and with the byte that is put behind what is left of the bytes before. -/
theorem take_set {buffer : Bytes n} {bytes : List UInt8} (hn : 0 < n)
    (hbuffer : buffer.toList.take (bytes.length % n) = remainder n bytes) (byte : UInt8) :
    (buffer.setIfInBounds (bytes.length % n) byte).toList.take (bytes.length % n + 1) =
      remainder n bytes ++ [byte] := by
  have hlt : bytes.length % n < buffer.toList.length := by
    rw [Vector.length_toList]
    exact Nat.mod_lt _ hn
  rw [Vector.toList_setIfInBounds, List.take_succ_eq_append_getElem (by simpa using hlt),
    List.take_set_of_le (le_refl _), hbuffer, List.getElem_set_self]

theorem holds_updateByte (h : Implements f p φ) {ctx : ShaContext W n} {bytes : List UInt8}
    (hctx : Holds p φ ctx bytes) (byte : UInt8) :
    Holds p φ (ctx.updateByte f byte) (bytes ++ [byte]) := by
  have hindex : (ctx.count % UInt64.ofNat n).toNat = bytes.length % n := by
    rw [hctx.count, h.toNat_mod]
  have hcount : ctx.count + 1 = UInt64.ofNat (bytes.length + 1) := by
    rw [hctx.count, UInt64.ofNat_add]
    rfl
  have htake := take_set h.pos hctx.buffer byte
  have hlength : (bytes ++ [byte]).length = bytes.length + 1 := by
    rw [List.length_append, List.length_singleton]
  rw [ShaContext.updateByte, hindex, hcount]
  by_cases hmod : (bytes.length + 1) % n = 0
  · -- the byte completes the block, which is compressed
    have hfull : bytes.length % n + 1 = n := (succ_mod_eq_zero_iff h.pos _).mp hmod
    rw [hfull, List.take_of_length_le (by rw [Vector.length_toList])] at htake
    rw [if_pos ((h.mod_eq_zero_iff _).mpr hmod)]
    constructor
    · rw [h.map_transform, htake, hctx.state, chain, chain, ← h.size,
        wholeBlocks_concat_of_mod h.pos hmod, List.foldl_append]
      rfl
    · rw [hlength]
      rfl
    · rw [hlength, hmod, remainder_eq_nil (by rw [hlength, hmod]), List.take_zero]
  · have hne := (succ_mod_eq_zero_iff h.pos _).not.mp hmod
    have hlt := Nat.mod_lt bytes.length h.pos
    have hnext : (bytes.length + 1) % n = bytes.length % n + 1 := by
      rw [← Nat.mod_add_mod, Nat.mod_eq_of_lt (by omega)]
    obtain ⟨hblocks, hremainder⟩ := wholeBlocks_concat_of_ne (x := byte) h.pos hmod
    rw [if_neg ((h.mod_eq_zero_iff _).not.mpr hmod)]
    constructor
    · rw [chain, ← h.size, hblocks, hctx.state, chain, h.size]
    · rw [hlength]
    · rw [hlength, hnext, hremainder]
      exact htake

/-- A context that is given more bytes has taken them after those before, in any chunks. -/
theorem holds_update (h : Implements f p φ) {ctx : ShaContext W n} {bytes : List UInt8}
    (hctx : Holds p φ ctx bytes) (data : List UInt8) :
    Holds p φ (ctx.update f data) (bytes ++ data) := by
  induction data generalizing ctx bytes with
  | nil => rwa [List.append_nil]
  | cons byte data ih =>
    have hrest := ih (h.holds_updateByte hctx byte)
    rwa [List.append_assoc] at hrest

theorem holds_updates (h : Implements f p φ) (chunks : List (List UInt8)) :
    Holds p φ (chunks.foldl (ShaContext.update f) (ShaContext.init f)) chunks.flatten := by
  induction chunks using List.reverseRecOn with
  | nil => exact h.holds_init
  | append_singleton chunks chunk ih =>
    rw [List.foldl_append, List.flatten_append, List.flatten_singleton]
    exact h.holds_update ih chunk

end Implements

/-! ## The end -/

theorem toList_copyTo {n : ℕ} (buffer : Bytes n) {bytes : List UInt8} (hle : bytes.length ≤ n) :
    (copyTo buffer bytes).toList = bytes ++ buffer.toList.drop bytes.length := by
  apply List.ext_getElem
  · simp [hle]
  · intro i hi _
    have hlt : i < n := by simpa using hi
    rw [Vector.getElem_toList, List.getElem_append]
    simp only [copyTo, Vector.getElem_ofFn]
    split_ifs with hin
    · rw [List.getD_eq_getElem?_getD, List.getElem?_eq_getElem hin, Option.getD_some]
    · rw [List.getElem_drop, Vector.getElem_toList, List.getD_eq_getElem?_getD,
        List.getElem?_eq_none (by omega), Option.getD_none]
      simp only [Fin.getElem_fin]
      congr 1
      omega

theorem toList_copyTo_full {n : ℕ} {buffer : Bytes n} {bytes : List UInt8}
    (hfull : bytes.length = n) : (copyTo buffer bytes).toList = bytes := by
  rw [toList_copyTo _ hfull.le, List.drop_of_length_le, List.append_nil]
  rw [Vector.length_toList, hfull]

/-- The padding before the length. -/
def padBytes : ℕ → List UInt8
  | 0 => []
  | zeros + 1 => 0x80 :: List.replicate zeros 0

/-- What the first update of the end reads from the array. -/
theorem take_padding {n : ℕ} (padding : Bytes n) {len : ℕ} (hn : 0 < n) (hle : len ≤ n) :
    (copyTo (copyTo padding (List.replicate len 0)) [0x80]).toList.take len = padBytes len := by
  cases len with
  | zero => exact List.take_zero
  | succ zeros =>
    have hreplicate : (List.replicate (zeros + 1) (0 : UInt8)).length ≤ n := by
      rwa [List.length_replicate]
    rw [toList_copyTo _ (by exact hn), toList_copyTo _ hreplicate, List.singleton_append,
      List.take_succ_cons, List.length_singleton, List.replicate_succ, List.cons_append,
      List.drop_succ_cons, List.drop_zero, List.take_left' List.length_replicate]
    rfl

theorem lengthBytes_eq (m : ℕ) :
    ShaContext.lengthBytes (UInt64.ofNat m * 8) = bigEndian 8 (8 * m) := by
  have hbits : (UInt64.ofNat m * 8).toNat = 8 * m % 256 ^ 8 := by
    have height : (8 : UInt64).toNat = 8 := rfl
    rw [UInt64.toNat_mul, UInt64.toNat_ofNat', height, Nat.mod_mul_mod, Nat.mul_comm]
    rfl
  rw [← bigEndian_mod, ← hbits, ShaContext.lengthBytes, bigEndian]
  apply List.map_congr_left
  intro i hi
  have hlt : i < 8 := List.mem_range.mp hi
  have hshift : (UInt64.ofNat (56 - i * 8)).toNat % 64 = 8 * (8 - 1 - i) := by
    rw [UInt64.toNat_ofNat', Nat.mod_eq_of_lt (a := 56 - i * 8) (by omega)]
    omega
  have hpow : 2 ^ (8 * (8 - 1 - i)) = 256 ^ (8 - 1 - i) := by rw [pow_mul]; rfl
  apply UInt8.toNat_inj.mp
  rw [UInt64.toNat_toUInt8, UInt64.toNat_shiftRight, hshift, Nat.shiftRight_eq_div_pow, hpow,
    UInt8.toNat_ofNat']

namespace Implements

variable {W : Type} {n w : ℕ} [Add W] [OfNat W 0] {f : ShaFunctions W n} {p : Params w}
  {φ : W → BitVec w}

/-- The end hashes the padding and the length, unless the padding is longer than its array. -/
theorem final_eq (h : Implements f p φ) (h8 : 8 ≤ n) {ctx : ShaContext W n}
    {bytes : List UInt8} (hctx : Holds p φ ctx bytes) (padding : Bytes n) :
    ctx.final f padding =
      if (f.padLen ctx.count).toNat ≤ n then
        some (toBytes (chain p (bytes ++ padBytes (f.padLen ctx.count).toNat ++
          bigEndian 8 (8 * bytes.length))))
      else none := by
  have hlengthBytes : (ShaContext.lengthBytes (ctx.count * 8)).length ≤ n := h8
  rw [ShaContext.final, memset]
  split_ifs with hle
  · have hend := h.holds_update (h.holds_update hctx (padBytes (f.padLen ctx.count).toNat))
      (ShaContext.lengthBytes (ctx.count * 8))
    have hbytes : ∀ s : Words W, s.toList.flatMap f.store = toBytes (s.map φ) := by
      intro s
      rw [toBytes, Words.toList_map, List.flatMap_map]
      congr 1
      funext x
      exact h.store x
    rw [Option.bind_eq_bind, Option.bind_some]
    simp only
    rw [take_padding _ h.pos hle, toList_copyTo _ hlengthBytes,
      List.take_left' (by rfl), hbytes, hend.state, hctx.count, lengthBytes_eq]
    rfl
  · rfl

end Implements

end Blackstone.BankCrypto
