import Mathlib.Data.Fin.Basic
import Mathlib.Logic.Function.Iterate
import Mathlib.Tactic.Common
import Mathlib.Tactic.FinCases

/-!
# AES

The block cipher of FIPS 197 for any number `nk` of key words, with the S-box as a parameter. The
state is a block of 16 bytes of which `entry s r c` is the byte in row `r` and column `c`.

Encryption with any key schedule is injective (`cipher_injective`): `invMixColumns` undoes
`mixColumns`, and the other transformations are permutations.
-/

namespace Blackstone.Aes

/-! ## Bytes as polynomials -/

theorem xor_left_comm (a b c : UInt8) : a ^^^ (b ^^^ c) = b ^^^ (a ^^^ c) := by
  rw [← UInt8.xor_assoc, UInt8.xor_comm a b, UInt8.xor_assoc]

theorem xor_cancel (a b : UInt8) : a ^^^ (a ^^^ b) = b := by
  rw [← UInt8.xor_assoc, UInt8.xor_self, UInt8.zero_xor]

theorem xor_cancel_right (a b : UInt8) : a ^^^ b ^^^ b = a := by
  rw [UInt8.xor_assoc, UInt8.xor_self, UInt8.xor_zero]

/-- XTIMES: the product with `x`, reduced with `x^8 + x^4 + x^3 + x + 1`. -/
def xTimes (b : UInt8) : UInt8 := (b <<< 1) ^^^ (if b &&& 0x80 ≠ 0 then 0x1b else 0)

/-- The product of two polynomials. -/
def multiply (a b : UInt8) : UInt8 :=
  (List.range 8).foldl (fun sum i => if a.toNat.testBit i then sum ^^^ xTimes^[i] b else sum) 0

theorem highBit_cases (b : UInt8) : b &&& 0x80 = 0 ∨ b &&& 0x80 = 0x80 := by
  have hall : ∀ n < 256, UInt8.ofNat n &&& 0x80 = 0 ∨ UInt8.ofNat n &&& 0x80 = 0x80 := by
    decide +kernel
  have hb := hall b.toNat b.toNat_lt
  rwa [UInt8.ofNat_toNat] at hb

theorem xTimes_xor (a b : UInt8) : xTimes (a ^^^ b) = xTimes a ^^^ xTimes b := by
  have hhigh : (a ^^^ b) &&& 0x80 = (a &&& 0x80) ^^^ (b &&& 0x80) := by
    apply UInt8.toNat_inj.mp
    simp only [UInt8.toNat_and, UInt8.toNat_xor, Nat.and_xor_distrib_right]
  rw [xTimes, xTimes, xTimes, UInt8.shiftLeft_xor, hhigh]
  rcases highBit_cases a with ha | ha <;> rcases highBit_cases b with hb | hb <;>
    simp [ha, hb, UInt8.xor_assoc, UInt8.xor_comm, xor_left_comm]

theorem multiply_two (b : UInt8) : multiply 2 b = xTimes b := UInt8.zero_xor

theorem multiply_three (b : UInt8) : multiply 3 b = b ^^^ xTimes b := by
  change 0 ^^^ b ^^^ xTimes b = _
  rw [UInt8.zero_xor]

theorem multiply_nine (b : UInt8) : multiply 9 b = b ^^^ xTimes (xTimes (xTimes b)) := by
  change 0 ^^^ b ^^^ xTimes^[3] b = _
  rw [UInt8.zero_xor]
  rfl

theorem multiply_eleven (b : UInt8) :
    multiply 11 b = b ^^^ xTimes b ^^^ xTimes (xTimes (xTimes b)) := by
  change 0 ^^^ b ^^^ xTimes b ^^^ xTimes^[3] b = _
  rw [UInt8.zero_xor]
  rfl

theorem multiply_thirteen (b : UInt8) :
    multiply 13 b = b ^^^ xTimes (xTimes b) ^^^ xTimes (xTimes (xTimes b)) := by
  change 0 ^^^ b ^^^ xTimes^[2] b ^^^ xTimes^[3] b = _
  rw [UInt8.zero_xor]
  rfl

theorem multiply_fourteen (b : UInt8) :
    multiply 14 b = xTimes b ^^^ xTimes (xTimes b) ^^^ xTimes (xTimes (xTimes b)) := by
  change 0 ^^^ xTimes b ^^^ xTimes^[2] b ^^^ xTimes^[3] b = _
  rw [UInt8.zero_xor]
  rfl

/-! ## The state -/

abbrev State := Vector UInt8 16

def entry (s : State) (r c : Fin 4) : UInt8 := s.toList.getD (4 * c.val + r.val) 0

def ofEntries (f : Fin 4 → Fin 4 → UInt8) : State :=
  Vector.ofFn fun i => f (Fin.ofNat 4 i.val) (Fin.ofNat 4 (i.val / 4))

theorem getD_toList {n : ℕ} (s : Vector UInt8 n) {i : ℕ} (hi : i < n) :
    s.toList.getD i 0 = s[i] := by
  rw [List.getD_eq_getElem?_getD, List.getElem?_eq_getElem (by rwa [Vector.length_toList]),
    Option.getD_some, Vector.getElem_toList]

@[simp] theorem entry_ofEntries (f : Fin 4 → Fin 4 → UInt8) (r c : Fin 4) :
    entry (ofEntries f) r c = f r c := by
  have hrow : Fin.ofNat 4 (4 * c.val + r.val) = r := by
    apply Fin.ext
    rw [Fin.val_ofNat]
    omega
  have hcolumn : Fin.ofNat 4 ((4 * c.val + r.val) / 4) = c := by
    apply Fin.ext
    rw [Fin.val_ofNat]
    omega
  rw [entry, getD_toList _ (by omega), ofEntries, Vector.getElem_ofFn, hrow, hcolumn]

theorem state_ext {s t : State} (h : ∀ r c, entry s r c = entry t r c) : s = t := by
  apply Vector.ext
  intro i hi
  have hentry := h (Fin.ofNat 4 i) (Fin.ofNat 4 (i / 4))
  have hindex : 4 * (Fin.ofNat 4 (i / 4)).val + (Fin.ofNat 4 i).val = i := by
    simp only [Fin.val_ofNat]
    omega
  rwa [entry, entry, hindex, getD_toList _ hi, getD_toList _ hi] at hentry

/-! ## The transformations -/

abbrev Word := Vector UInt8 4

/-- A byte of a mixed column, from the byte at its place and those below it. -/
def mixByte (a b c d : UInt8) : UInt8 := multiply 2 a ^^^ multiply 3 b ^^^ c ^^^ d

def invMixByte (a b c d : UInt8) : UInt8 :=
  multiply 14 a ^^^ multiply 11 b ^^^ multiply 13 c ^^^ multiply 9 d

def xorWord (v w : Word) : Word := Vector.zipWith (· ^^^ ·) v w

def zeroWord : Word := Vector.replicate 4 0

section Transformations

variable (sbox : UInt8 → UInt8)

def subBytes (s : State) : State := ofEntries fun r c => sbox (entry s r c)

def shiftRows (s : State) : State := ofEntries fun r c => entry s r (c + r)

def invShiftRows (s : State) : State := ofEntries fun r c => entry s r (c - r)

def mixColumns (s : State) : State := ofEntries fun r c =>
  mixByte (entry s r c) (entry s (r + 1) c) (entry s (r + 2) c) (entry s (r + 3) c)

def invMixColumns (s : State) : State := ofEntries fun r c =>
  invMixByte (entry s r c) (entry s (r + 1) c) (entry s (r + 2) c) (entry s (r + 3) c)

/-- ADDROUNDKEY with the words of one round. -/
def addRoundKey (s : State) (w : List Word) (round : ℕ) : State :=
  ofEntries fun r c => entry s r c ^^^ (w.getD (4 * round + c.val) zeroWord).get r

/-! ## The cipher -/

def rotWord (w : Word) : Word := Vector.ofFn fun i => w.get (i + 1)

def subWord (w : Word) : Word := w.map sbox

/-- The round constant with a number from 1 on. -/
def rcon (i : ℕ) : Word := zeroWord.setIfInBounds 0 (xTimes^[i - 1] 1)

/-- What is xored to the word `nk` words before. -/
def scheduleTemp (nk i : ℕ) (temp : Word) : Word :=
  if i % nk = 0 then xorWord (subWord sbox (rotWord temp)) (rcon (i / nk))
  else if 6 < nk ∧ i % nk = 4 then subWord sbox temp
  else temp

/-- KEYEXPANSION, of a key of `nk` words. -/
def keyExpansion (nk : ℕ) (key : List UInt8) : List Word :=
  let words := (List.range nk).map fun i =>
    Vector.ofFn fun j : Fin 4 => key.getD (4 * i + j.val) 0
  (List.range (4 * (nk + 7) - nk)).foldl (fun w j =>
    let i := j + nk
    w ++ [xorWord (w.getD (i - nk) zeroWord)
      (scheduleTemp sbox nk i (w.getD (i - 1) zeroWord))]) words

def round (w : List Word) (s : State) (i : ℕ) : State :=
  addRoundKey (mixColumns (shiftRows (subBytes sbox s))) w i

/-- CIPHER, with the number of rounds. -/
def cipher (nr : ℕ) (w : List Word) (input : State) : State :=
  let s := (List.range (nr - 1)).foldl (fun s i => round sbox w s (i + 1)) (addRoundKey input w 0)
  addRoundKey (shiftRows (subBytes sbox s)) w nr

/-- AES with a key of `nk` words. -/
def encrypt (nk : ℕ) (key : List UInt8) (input : State) : State :=
  cipher sbox (nk + 6) (keyExpansion sbox nk key) input

end Transformations

/-! ## Injectivity -/

theorem mixByte_eq (a b c d : UInt8) :
    mixByte a b c d = a ^^^ (a ^^^ b ^^^ c ^^^ d) ^^^ xTimes (a ^^^ b) := by
  rw [mixByte, multiply_two, multiply_three, xTimes_xor]
  simp only [UInt8.xor_assoc, UInt8.xor_comm, xor_left_comm, xor_cancel]

/-- The coefficients of the inverse, less the last of them. -/
theorem invMixByte_eq (a b c d : UInt8) :
    invMixByte a b c d = multiply 9 (a ^^^ b ^^^ c ^^^ d) ^^^ a ^^^ xTimes (a ^^^ b) ^^^
      xTimes (xTimes (a ^^^ c)) := by
  rw [invMixByte, multiply_nine, multiply_nine, multiply_eleven, multiply_thirteen,
    multiply_fourteen]
  simp only [xTimes_xor, UInt8.xor_assoc, UInt8.xor_comm, xor_left_comm, xor_cancel]

theorem invMixByte_mixByte (a b c d : UInt8) :
    invMixByte (mixByte a b c d) (mixByte b c d a) (mixByte c d a b) (mixByte d a b c) = a := by
  have hsum : mixByte a b c d ^^^ mixByte b c d a ^^^ mixByte c d a b ^^^ mixByte d a b c =
      a ^^^ b ^^^ c ^^^ d := by
    simp only [mixByte_eq, xTimes_xor, UInt8.xor_assoc, UInt8.xor_comm, xor_left_comm,
      xor_cancel, UInt8.xor_self, UInt8.xor_zero]
  have hnext : mixByte a b c d ^^^ mixByte b c d a = a ^^^ b ^^^ xTimes (a ^^^ c) := by
    simp only [mixByte_eq, xTimes_xor, UInt8.xor_assoc, UInt8.xor_comm, xor_left_comm,
      xor_cancel]
  have hsecond : mixByte a b c d ^^^ mixByte c d a b =
      a ^^^ c ^^^ xTimes (a ^^^ b ^^^ c ^^^ d) := by
    simp only [mixByte_eq, xTimes_xor, UInt8.xor_assoc, UInt8.xor_comm, xor_left_comm,
      xor_cancel]
  rw [invMixByte_eq, hsum, hnext, hsecond, mixByte_eq, multiply_nine,
    xTimes_xor (a ^^^ b) (xTimes (a ^^^ c)), xTimes_xor (a ^^^ c) (xTimes _), xTimes_xor (xTimes _)]
  generalize a ^^^ b ^^^ c ^^^ d = t
  generalize xTimes (a ^^^ b) = u
  generalize xTimes (xTimes (a ^^^ c)) = v
  simp only [UInt8.xor_assoc, UInt8.xor_comm, xor_left_comm, xor_cancel, UInt8.xor_self,
    UInt8.xor_zero]

theorem invMixColumns_mixColumns (s : State) : invMixColumns (mixColumns s) = s := by
  apply state_ext
  intro r c
  have h2 : r + 1 + 1 = r + 2 := by omega
  have h3 : r + 1 + 2 = r + 3 := by omega
  have h4 : r + 1 + 3 = r := by omega
  have h5 : r + 2 + 1 = r + 3 := by omega
  have h6 : r + 2 + 2 = r := by omega
  have h7 : r + 2 + 3 = r + 1 := by omega
  have h8 : r + 3 + 1 = r := by omega
  have h9 : r + 3 + 2 = r + 1 := by omega
  have h10 : r + 3 + 3 = r + 2 := by omega
  simp only [invMixColumns, mixColumns, entry_ofEntries, h2, h3, h4, h5, h6, h7, h8, h9, h10]
  exact invMixByte_mixByte _ _ _ _

theorem mixColumns_injective : Function.Injective mixColumns :=
  Function.LeftInverse.injective invMixColumns_mixColumns

theorem invShiftRows_shiftRows (s : State) : invShiftRows (shiftRows s) = s := by
  apply state_ext
  intro r c
  have hback : c - r + r = c := by omega
  rw [invShiftRows, shiftRows, entry_ofEntries, entry_ofEntries, hback]

theorem shiftRows_injective : Function.Injective shiftRows :=
  Function.LeftInverse.injective invShiftRows_shiftRows

theorem subBytes_injective {sbox : UInt8 → UInt8} (hsbox : Function.Injective sbox) :
    Function.Injective (subBytes sbox) := by
  intro s t h
  apply state_ext
  intro r c
  have hentry := congrArg (entry · r c) h
  simp only [subBytes, entry_ofEntries] at hentry
  exact hsbox hentry

theorem addRoundKey_injective (w : List Word) (round : ℕ) :
    Function.Injective (addRoundKey · w round) := by
  intro s t h
  apply state_ext
  intro r c
  have hentry := congrArg (entry · r c) h
  simp only [addRoundKey, entry_ofEntries] at hentry
  exact (UInt8.xor_left_inj _).mp hentry

theorem foldl_injective {α β : Type} {f : α → β → α}
    (hf : ∀ b, Function.Injective (f · b)) (bs : List β) :
    Function.Injective (fun a => bs.foldl f a) := by
  induction bs with
  | nil => exact fun _ _ h => h
  | cons b bs ih => exact fun _ _ h => hf b (ih h)

theorem cipher_injective {sbox : UInt8 → UInt8} (hsbox : Function.Injective sbox) (nr : ℕ)
    (w : List Word) : Function.Injective (cipher sbox nr w) := by
  have hround : ∀ i, Function.Injective (fun s => round sbox w s (i + 1)) := by
    intro i
    exact (addRoundKey_injective w (i + 1)).comp
      (mixColumns_injective.comp (shiftRows_injective.comp (subBytes_injective hsbox)))
  have hlast : Function.Injective (fun s => addRoundKey (shiftRows (subBytes sbox s)) w nr) :=
    (addRoundKey_injective w nr).comp (shiftRows_injective.comp (subBytes_injective hsbox))
  exact hlast.comp ((foldl_injective hround _).comp (addRoundKey_injective w 0))

theorem encrypt_injective {sbox : UInt8 → UInt8} (hsbox : Function.Injective sbox) (nk : ℕ)
    (key : List UInt8) : Function.Injective (encrypt sbox nk key) :=
  cipher_injective hsbox _ _

end Blackstone.Aes
