import Blackstone.BankCrypto.KeySeparation
import Blackstone.BankCrypto.Pbkdf2

/-!
# The hash functions of the sessions

The functions on sessions are stated over any hash functions. `sourcePrimitives` is what the
library gives them: the code of SHA-256 and the run of PBKDF2 in memory compute it
(`sha256_source`, `pbkdf2_source`), so that `deriveSessionKey` is what `bank_derive_session_key`
reads out of its array `derived` (`deriveSessionKey_run`).
-/

namespace Blackstone.BankCrypto

open KeyDerivation

/-- SHA-256 of FIPS 180-4, and PBKDF2 of RFC 8018 over it. -/
def sourcePrimitives : Primitives where
  sha256 text := copyTo (zeroBytes 32) (Sha2.digest Sha2.sha256 text)
  pbkdf2HmacSha256 password salt iterations keyLen :=
    copyTo (zeroBytes keyLen) (pbkdf2 rfcHmac 32 password salt iterations keyLen)

theorem sha256_source (text : List UInt8) :
    sha256 text = some (sourcePrimitives.sha256 text).toList := by
  rw [sha256_eq, sourcePrimitives]
  dsimp only
  rw [toList_copyTo_full (length_sha256 _)]

section Run

variable {old : Pbkdf2Memory} {passwordLen saltLen keyLen : ℕ} {iterations : ℤ}

theorem pbkdf2_source (hold : Pbkdf2Frame old old)
    (hpassword : passwordLen ≤ (old .password).length) (hsalt : saltLen ≤ (old .salt).length)
    (hkey : keyLen ≤ (old .key).length) (hsaltLen : saltLen ≤ 64) (hiterations : 1 ≤ iterations)
    (hkeyLen : keyLen ≤ 32 * (2 ^ 31 - 1)) :
    ∃ m, pbkdf2HmacSha256 old passwordLen saltLen iterations keyLen = some m ∧
      m .key = (sourcePrimitives.pbkdf2HmacSha256 ((old .password).take passwordLen)
        ((old .salt).take saltLen) iterations.toNat keyLen).toList ++ (old .key).drop keyLen := by
  obtain ⟨m, hrun, hderived, -, -⟩ :=
    pbkdf2HmacSha256_eq hold hpassword hsalt hkey hsaltLen hiterations hkeyLen
  refine ⟨m, hrun, ?_⟩
  rw [hderived, sourcePrimitives]
  dsimp only
  rw [toList_copyTo_full (length_pbkdf2 length_rfcHmac (by decide) _ _ _ _)]

/-- The array `derived` is copied to the two keys of the session, one half to each. -/
theorem toList_derivedKeys (p : Primitives) (c : CryptoContext) (salt : List UInt8) :
    (derivedKeys p c salt).1.toList ++ (derivedKeys p c salt).2.toList =
      (p.pbkdf2HmacSha256 c.currentKey salt 100000 64).toList := by
  rw [derivedKeys]
  apply List.ext_getElem
  · simp
  · intro i hi _
    simp only [List.getElem_append, Vector.length_toList, Vector.getElem_toList,
      Vector.getElem_ofFn]
    split_ifs with hfirst
    · rfl
    · congr 1
      omega

/-- The run of PBKDF2 leaves the two keys of the session in `derived`, an array of 64 bytes. -/
theorem deriveSessionKey_run {c : CryptoContext} {keyId : List UInt8}
    (hold : Pbkdf2Frame old old) (hpassword : old .password = c.currentKey)
    (hsalt : sessionSalt c keyId <+: old .salt) (hkey : (old .key).length = 64) :
    ∃ m, pbkdf2HmacSha256 old 32 (sessionSalt c keyId).length 100000 64 = some m ∧
      m .key = (deriveSessionKey sourcePrimitives c keyId).1.toList ++
        (deriveSessionKey sourcePrimitives c keyId).2.toList := by
  have hpasswordLen : (old .password).length = 32 := by
    rw [hpassword, CryptoContext.currentKey, Vector.length_toList]
  have hrounds : (1 : ℤ) ≤ 100000 := by decide
  obtain ⟨m, hrun, hderived⟩ := pbkdf2_source hold hpasswordLen.ge hsalt.length_le hkey.ge
    (length_sessionSalt_le c keyId) hrounds (by decide)
  rw [List.take_of_length_le hpasswordLen.le, hpassword, ← List.prefix_iff_eq_take.mp hsalt,
    List.drop_of_length_le hkey.le, List.append_nil] at hderived
  refine ⟨m, hrun, ?_⟩
  rw [deriveSessionKey_eq, toList_derivedKeys]
  exact hderived

end Run

end Blackstone.BankCrypto
