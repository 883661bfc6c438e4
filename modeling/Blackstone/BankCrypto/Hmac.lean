import Blackstone.BankCrypto.Sha256
import Blackstone.Library.Buffers
import Blackstone.Library.KeyDerivation

/-!
# HMAC-SHA256

`hmac/bank_hmac_sha256.cpp`. `hmacSha256Into` works on buffers that are known by name, so that
the code may be written over the data that it authenticates: everything is read before the only
write (`hmacSha256Into_eq`). The code is the one of RFC 2104 for keys of any length
(`hmacSha256_eq_rfc2104`).
-/

namespace Blackstone.BankCrypto

open Buffers KeyDerivation

/-- HMAC of RFC 2104 with SHA-256 of FIPS 180-4. -/
def rfcHmac (key text : List UInt8) : List UInt8 := hmac (Sha2.digest Sha2.sha256) 64 key text

/-- The two pads, before the exclusive or: the key or its hash, and zeros. -/
def hmacPads (key : List UInt8) : Option (Bytes 64 × Bytes 64) :=
  if 64 < key.length then do
    let ipad := copyTo (zeroBytes 64) (← sha256 key)
    return (ipad, copyTo (zeroBytes 64) (ipad.toList.take 32))
  else some (copyTo (zeroBytes 64) key, copyTo (zeroBytes 64) key)

/-- `bank_hmac_sha256`, whose pointers may be to one buffer. -/
def hmacSha256Into {ι : Type} [DecidableEq ι] (m : Memory ι) (key : ι) (keyLen : ℕ) (data : ι)
    (dataLen : ℕ) (mac : ι) : Option (Memory ι) := do
  let (ipad, opad) ← hmacPads (← m.read key keyLen)
  let ipad := ipad.map (· ^^^ 0x36)
  let opad := opad.map (· ^^^ 0x5c)
  let ctx := sha256Update sha256Init ipad.toList
  let ctx := sha256Update ctx (← m.read data dataLen)
  let innerHash ← sha256Final (zeroBytes 64) ctx
  let ctx := sha256Update sha256Init opad.toList
  let ctx := sha256Update ctx innerHash
  m.write mac 0 (← sha256Final (zeroBytes 64) ctx)

/-- `bank_hmac_sha256` with three buffers: the code. -/
def hmacSha256 (key data : List UInt8) : Option (List UInt8) := do
  let m : Memory (Fin 3) := ![key, data, List.replicate 32 0]
  let m ← hmacSha256Into m 0 key.length 1 data.length 2
  m.read 2 32

/-! ## Conformance -/

theorem length_sha256 (text : List UInt8) : (Sha2.digest Sha2.sha256 text).length = 32 :=
  Sha2.length_toBytes _

@[simp] theorem length_rfcHmac (key text : List UInt8) : (rfcHmac key text).length = 32 :=
  length_sha256 _

/-- Both pads hold the key of the size of a block. -/
theorem hmacPads_eq (key : List UInt8) :
    ∃ pad : Bytes 64, hmacPads key = some (pad, pad) ∧
      pad.toList = blockKey (Sha2.digest Sha2.sha256) 64 key := by
  have hcopy : ∀ bytes : List UInt8, bytes.length ≤ 64 →
      (copyTo (zeroBytes 64) bytes).toList =
        bytes ++ List.replicate (64 - bytes.length) 0 := by
    intro bytes hle
    rw [toList_copyTo _ hle, zeroBytes, Vector.toList_replicate, List.drop_replicate]
  rw [hmacPads, blockKey]
  split_ifs with hlong
  · have hlength := length_sha256 key
    have hfirst := hcopy (Sha2.digest Sha2.sha256 key) (by omega)
    refine ⟨_, ?_, hfirst⟩
    rw [sha256_eq, Option.bind_eq_bind, Option.bind_some]
    dsimp only
    rw [hfirst, List.take_left' hlength]
    rfl
  · exact ⟨_, rfl, hcopy _ (by omega)⟩

theorem sha256Final_update_update (padding : Bytes 64) (first second : List UInt8) :
    sha256Final padding (sha256Update (sha256Update sha256Init first) second) =
      some (Sha2.digest Sha2.sha256 (first ++ second)) := by
  have hflatten : [first, second].flatten = first ++ second := by simp
  rw [← hflatten]
  exact sha256Final_updates padding [first, second]

section Aliased

variable {ι : Type} [DecidableEq ι] (m : Memory ι) (key data mac : ι) {keyLen dataLen : ℕ}

/-- The code of what the buffers held before, also when it is written over the key or the
data. -/
theorem hmacSha256Into_eq (hkey : keyLen ≤ (m key).length) (hdata : dataLen ≤ (m data).length)
    (hmac : 32 ≤ (m mac).length) :
    hmacSha256Into m key keyLen data dataLen mac =
      some (Function.update m mac (rfcHmac ((m key).take keyLen) ((m data).take dataLen) ++
        (m mac).drop 32)) := by
  obtain ⟨pad, hpads, hpad⟩ := hmacPads_eq ((m key).take keyLen)
  have hcode : ∀ bytes : List UInt8, bytes.length = 32 →
      m.write mac 0 bytes = some (Function.update m mac (bytes ++ (m mac).drop 32)) := by
    intro bytes hbytes
    rw [← hbytes]
    exact Memory.write_eq (writeAt_zero (by omega))
  rw [hmacSha256Into, Memory.read_eq hkey, Memory.read_eq hdata]
  simp only [Option.bind_eq_bind, Option.bind_some, hpads, sha256Final_update_update,
    Vector.toList_map, hpad]
  exact hcode _ (length_sha256 _)

end Aliased

theorem hmacSha256_eq (key data : List UInt8) :
    hmacSha256 key data = some (rfcHmac key data) := by
  have hinto := hmacSha256Into_eq (![key, data, List.replicate 32 0] : Memory (Fin 3)) 0 1 2
    (show key.length ≤ key.length from le_rfl) (show data.length ≤ data.length from le_rfl) le_rfl
  rw [hmacSha256, Option.bind_eq_bind, hinto, Option.bind_some, Memory.read, Function.update_self,
    List.length_append, length_rfcHmac, if_pos (by omega), List.take_left' (length_rfcHmac _ _)]
  have hkey : ((![key, data, List.replicate 32 0] : Memory (Fin 3)) 0).take key.length = key :=
    List.take_length
  have hdata : ((![key, data, List.replicate 32 0] : Memory (Fin 3)) 1).take data.length = data :=
    List.take_length
  rw [hkey, hdata]

/-- The code is HMAC-SHA256 of RFC 2104, for every key and all data. -/
theorem hmacSha256_eq_rfc2104 (key data : List UInt8) :
    let hash := Sha2.digest Sha2.sha256
    let k := blockKey hash 64 key
    hmacSha256 key data = some (hash (k.map (· ^^^ 0x5c) ++ hash (k.map (· ^^^ 0x36) ++ data))) :=
  hmacSha256_eq key data

end Blackstone.BankCrypto
