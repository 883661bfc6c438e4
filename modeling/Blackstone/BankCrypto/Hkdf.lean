import Blackstone.BankCrypto.Hmac
import Blackstone.Library.Loops

/-!
# HKDF

`kdf/bank_hkdf.cpp`. `hkdfExtract` is the one of RFC 5869, but `hkdfExpand` does not read its
pseudorandom key: every block is the plain SHA-256 of what the standard authenticates
(`hkdfExpand_eq`). So the output does not depend on the salt or the key material, and it is the
one of the standard exactly where the plain hash and the keyed one agree (`hkdf_eq_rfc5869_iff`).
-/

namespace Blackstone.BankCrypto

open BlockStream Buffers KeyDerivation Loops

/-- `bank_hkdf_extract`. -/
def hkdfExtract (salt : Option (List UInt8)) (ikm : List UInt8) : Option (List UInt8) :=
  match salt with
  | none | some [] => hmacSha256 (List.replicate 64 0) ikm
  | some salt => hmacSha256 salt ikm

/-- The variables of `bank_hkdf_expand`. -/
structure ExpandState where
  previous : List UInt8
  counter : UInt8
  produced : ℕ
  okm : List UInt8

/-- The body of the loop. -/
def expandRound (info : List UInt8) (okmLen : ℕ) (s : ExpandState) : Option ExpandState := do
  let ctx := sha256Init
  let ctx := if 0 < s.produced then sha256Update ctx s.previous else ctx
  let ctx := sha256Update ctx info
  let ctx := sha256Update ctx [s.counter]
  let previous ← sha256Final (zeroBytes 64) ctx
  let toCopy := min (okmLen - s.produced) 32
  let okm ← writeAt s.okm s.produced (previous.take toCopy)
  return ⟨previous, s.counter + 1, s.produced + toCopy, okm⟩

/-- `bank_hkdf_expand`, which discards its first argument. `previous` holds anything on entry. -/
def hkdfExpand (_prk info previous okm : List UInt8) (okmLen : ℕ) : Option (List UInt8) := do
  let s ← loop (fun s : ExpandState => s.produced < okmLen) (expandRound info okmLen) okmLen
    ⟨previous, 1, 0, okm⟩
  return s.okm

/-- `bank_hkdf`. -/
def hkdf (salt : Option (List UInt8)) (ikm info previous okm : List UInt8) (okmLen : ℕ) :
    Option (List UInt8) := do
  let prk ← hkdfExtract salt ikm
  hkdfExpand prk info previous okm okmLen

/-- The extraction is the one of RFC 5869: the 64 zeros for a salt that is not given stand for the
32 zeros of the standard. -/
theorem hkdfExtract_eq (salt : Option (List UInt8)) (ikm : List UInt8) :
    hkdfExtract salt ikm = some (KeyDerivation.hkdfExtract rfcHmac 32 salt ikm) := by
  have hzeros : ∀ m ≤ 64, rfcHmac (List.replicate m 0) ikm = rfcHmac [] ikm :=
    fun m hm => hmac_replicate_zero _ hm ikm
  unfold hkdfExtract
  split
  · rw [hmacSha256_eq, hzeros 64 le_rfl, ← hzeros 32 (by omega)]
    rfl
  · rw [hmacSha256_eq, hzeros 64 le_rfl]
    rfl
  · rw [hmacSha256_eq]
    rfl

/-! ## The expansion -/

/-- The block with number `i` of the code: the expansion without a key. -/
def plainBlock (info : List UInt8) (i : ℕ) : List UInt8 :=
  hkdfBlock (fun _ => Sha2.digest Sha2.sha256) [] info i

theorem length_plainBlock_succ (info : List UInt8) (i : ℕ) :
    (plainBlock info (i + 1)).length = 32 := length_sha256 _

/-- Where the loop is: the blocks up to number `n` are written, no more of them than asked for,
and after them is what the caller left there. -/
structure ExpandedTo (info okm : List UInt8) (okmLen n : ℕ) (s : ExpandState) : Prop where
  previous : 0 < s.produced → s.previous = plainBlock info n
  counter : s.counter = UInt8.ofNat (n + 1)
  produced : s.produced = min (32 * n) okmLen
  okm : s.okm =
    (firstBlocks (fun i => plainBlock info (i + 1)) n).take okmLen ++ okm.drop s.produced

section Expand

variable {info okm : List UInt8} {okmLen : ℕ}

theorem expandHash_eq (padding : Bytes 64) {n : ℕ} {s : ExpandState}
    (hmore : s.produced < okmLen) (hs : ExpandedTo info okm okmLen n s) :
    sha256Final padding (sha256Update (sha256Update
        (if 0 < s.produced then sha256Update sha256Init s.previous else sha256Init) info)
        [s.counter]) = some (plainBlock info (n + 1)) := by
  have hproduced := hs.produced
  have hblock : plainBlock info (n + 1) =
      Sha2.digest Sha2.sha256 (plainBlock info n ++ info ++ [s.counter]) := by
    rw [hs.counter]
    rfl
  rw [hblock]
  split_ifs with hfirst
  · have hall := sha256Final_updates padding [s.previous, info, [s.counter]]
    rw [hs.previous hfirst, List.flatten_cons, List.flatten_cons, List.flatten_singleton,
      ← List.append_assoc] at hall
    rw [hs.previous hfirst]
    exact hall
  · have hzero : n = 0 := by omega
    have hall := sha256Final_updates padding [info, [s.counter]]
    rw [List.flatten_cons, List.flatten_singleton] at hall
    rw [hzero]
    exact hall

theorem expandRound_spec (hle : okmLen ≤ okm.length) {n : ℕ} {s : ExpandState}
    (hmore : s.produced < okmLen) (hs : ExpandedTo info okm okmLen n s) :
    ∃ t, expandRound info okmLen s = some t ∧ ExpandedTo info okm okmLen (n + 1) t := by
  have hhash := expandHash_eq (zeroBytes 64) hmore hs
  obtain ⟨-, hcounter, hproduced, hokm⟩ := hs
  have hidx : s.produced = 32 * n := by omega
  let written := (firstBlocks (fun i => plainBlock info (i + 1)) n).take okmLen
  have hlength : written.length = s.produced := by
    rw [List.length_take, length_firstBlocks (length_plainBlock_succ info), hproduced, Nat.min_comm]
  let taken := (plainBlock info (n + 1)).take (min (okmLen - s.produced) 32)
  have htaken : taken.length = min (okmLen - s.produced) 32 := by
    rw [List.length_take_of_le]
    rw [length_plainBlock_succ]
    omega
  have hwrite : writeAt s.okm s.produced taken =
      some (written ++ taken ++ okm.drop (s.produced + min (okmLen - s.produced) 32)) := by
    rw [hokm, ← htaken]
    exact writeAt_append hlength (by omega)
  have hfull : taken = (plainBlock info (n + 1)).take (okmLen - s.produced) := by
    change (plainBlock info (n + 1)).take (min (okmLen - s.produced) 32) = _
    rw [← List.take_take, List.take_of_length_le (length_plainBlock_succ info n).le]
  have hnew : written ++ taken =
      (firstBlocks (fun i => plainBlock info (i + 1)) (n + 1)).take okmLen := by
    rw [firstBlocks_take_succ (length_plainBlock_succ info), ← hidx, hfull]
  have hstep : expandRound info okmLen s = some ⟨plainBlock info (n + 1), s.counter + 1,
      s.produced + min (okmLen - s.produced) 32,
      written ++ taken ++ okm.drop (s.produced + min (okmLen - s.produced) 32)⟩ := by
    rw [expandRound]
    dsimp only
    rw [hhash, Option.bind_eq_bind, Option.bind_some, hwrite]
    rfl
  refine ⟨_, hstep, fun _ => rfl, ?_, ?_, ?_⟩
  · rw [hcounter]
    exact (UInt8.ofNat_add (n + 1) 1).symm
  · change s.produced + min (okmLen - s.produced) 32 = min (32 * (n + 1)) okmLen
    omega
  · rw [hnew]

/-- The expansion of the code is the one of the standard with a hash that has no key. -/
theorem hkdfExpand_eq (hle : okmLen ≤ okm.length) (prk previous : List UInt8) :
    hkdfExpand prk info previous okm okmLen =
      some (KeyDerivation.hkdfExpand (fun _ => Sha2.digest Sha2.sha256) 32 [] info okmLen ++
        okm.drop okmLen) := by
  have hround : ∀ s : ExpandState, (∃ n, ExpandedTo info okm okmLen n s) →
      decide (s.produced < okmLen) = true →
      ∃ t, expandRound info okmLen s = some t ∧ (∃ n, ExpandedTo info okm okmLen n t) ∧
        okmLen - t.produced < okmLen - s.produced := by
    rintro s ⟨n, hs⟩ hmore
    have hlt : s.produced < okmLen := of_decide_eq_true hmore
    obtain ⟨t, hrun, ht⟩ := expandRound_spec hle hlt hs
    have hproduced := hs.produced
    have hproduced' := ht.produced
    exact ⟨t, hrun, ⟨n + 1, ht⟩, by omega⟩
  have hstart : ExpandedTo info okm okmLen 0 ⟨previous, 1, 0, okm⟩ :=
    ⟨fun h => absurd h (lt_irrefl 0), rfl, (Nat.zero_min okmLen).symm, by simp [firstBlocks]⟩
  obtain ⟨s, hrun, ⟨n, hs⟩, hdone⟩ := loop_spec (fun s => ∃ n, ExpandedTo info okm okmLen n s)
    (fun s => okmLen - s.produced) hround okmLen _ (Nat.sub_le _ _) ⟨0, hstart⟩
  have hstop : ¬ s.produced < okmLen := of_decide_eq_false hdone
  have hproduced := hs.produced
  rw [hkdfExpand, hrun, Option.bind_eq_bind, Option.bind_some, hs.okm,
    firstBlocks_take_blockCount (length_plainBlock_succ info) (by decide) (by omega),
    show s.produced = okmLen by omega]
  rfl

end Expand

/-! ## Conformance -/

/-- The keyed and the plain hash agree on the bytes that are used of every block of RFC 5869. -/
def PlainAgrees (prk info : List UInt8) (okmLen : ℕ) : Prop :=
  ∀ i < blockCount 32 okmLen,
    let text := hkdfBlock rfcHmac prk info i ++ info ++ [UInt8.ofNat (i + 1)]
    (Sha2.digest Sha2.sha256 text).take (okmLen - 32 * i) =
      (rfcHmac prk text).take (okmLen - 32 * i)

theorem hkdf_eq {info okm : List UInt8} {okmLen : ℕ} (hle : okmLen ≤ okm.length)
    (salt : Option (List UInt8)) (ikm previous : List UInt8) :
    hkdf salt ikm info previous okm okmLen =
      some (KeyDerivation.hkdfExpand (fun _ => Sha2.digest Sha2.sha256) 32 [] info okmLen ++
        okm.drop okmLen) := by
  rw [hkdf, hkdfExtract_eq, Option.bind_eq_bind, Option.bind_some, hkdfExpand_eq hle]

/-- The output is the one of RFC 5869 if and only if the keyed and the plain hash agree on every
block, and it is the same for every salt and every key material. -/
theorem hkdf_eq_rfc5869_iff (salt : Option (List UInt8)) (ikm info previous okm : List UInt8)
    {okmLen : ℕ} (hle : okmLen ≤ okm.length) :
    (hkdf salt ikm info previous okm okmLen =
        some (KeyDerivation.hkdf rfcHmac 32 salt ikm info okmLen ++ okm.drop okmLen) ↔
      PlainAgrees (KeyDerivation.hkdfExtract rfcHmac 32 salt ikm) info okmLen) ∧
    ∀ salt' ikm', hkdf salt' ikm' info previous okm okmLen =
      hkdf salt ikm info previous okm okmLen := by
  constructor
  · rw [hkdf_eq hle, Option.some_inj, List.append_left_inj, KeyDerivation.hkdf,
      hkdfExpand_eq_iff (fun _ => length_sha256) length_rfcHmac]
    rfl
  · intro salt' ikm'
    rw [hkdf_eq hle, hkdf_eq hle]

theorem hkdf_eq_rfc5869_iff_zero :
    (hkdf none [0] [] (List.replicate 32 0) [7] 0 =
        some (KeyDerivation.hkdf rfcHmac 32 none [0] [] 0 ++ [7]) ↔
      PlainAgrees (KeyDerivation.hkdfExtract rfcHmac 32 none [0]) [] 0) ∧
    ∀ salt' ikm', hkdf salt' ikm' [] (List.replicate 32 0) [7] 0 =
      hkdf none [0] [] (List.replicate 32 0) [7] 0 :=
  hkdf_eq_rfc5869_iff none [0] [] (List.replicate 32 0) [7] (by decide)

/-- Two bytes of output, of no salt, a key material of one zero and no info. -/
theorem hkdf_ne_rfc5869 :
    hkdf none [0] [] (List.replicate 32 0) [0, 0] 2 ≠
      some (KeyDerivation.hkdf rfcHmac 32 none [0] [] 2) := by
  rw [hkdf_eq (by decide)]
  decide +kernel

end Blackstone.BankCrypto
