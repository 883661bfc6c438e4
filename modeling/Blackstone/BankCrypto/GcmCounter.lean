import Blackstone.BankCrypto.Gcm
import Blackstone.BankCrypto.ShaContext

/-!
# The counter blocks of GCM

The increment of `bank_gctr` with its carry is addition of 1 to the whole block as a number
(`ofBigEndian_nextCounter`). Starting from a nonce of 12 bytes it stays in the last four bytes for
as many blocks as a message may have, so that no two blocks are encrypted under one counter
(`counterBlocks_distinct`).
-/

namespace Blackstone.BankCrypto

open BigEndian BlockStream

/-- The block that `bank_gctr` encrypts in the round with number `i`. -/
def encryptedBlock (encryptBlock : Bytes 16 → Bytes 16) (icb : Bytes 16) (x : List UInt8)
    (i : ℕ) : Bytes 16 :=
  nextCounter ((List.range i).foldl (gctrRound encryptBlock x) ⟨icb, []⟩).cb

/-! ## The increment -/

theorem take_succ_toList (v : Bytes 16) {j : ℕ} (hj : j < 16) :
    v.toList.take (j + 1) = v.toList.take j ++ [v[j]] := by
  rw [List.take_succ_eq_append_getElem (by rw [Vector.length_toList]; exact hj),
    Vector.getElem_toList]

theorem drop_toList (v : Bytes 16) {j : ℕ} (hj : j < 16) :
    v.toList.drop j = v[j] :: v.toList.drop (j + 1) := by
  rw [List.drop_eq_getElem_cons (by rw [Vector.length_toList]; exact hj), Vector.getElem_toList]

/-- The carry adds 1 to the number in the bytes before `j`, and leaves the others. -/
theorem carryInto_spec (cb : Bytes 16) (j : ℕ) (hj : j ≤ 16) :
    ofBigEndian ((carryInto cb j hj).toList.take j) =
        (ofBigEndian (cb.toList.take j) + 1) % 256 ^ j ∧
      (carryInto cb j hj).toList.drop j = cb.toList.drop j := by
  induction j generalizing cb with
  | zero => exact ⟨(Nat.mod_one _).symm, rfl⟩
  | succ j ih =>
    have hlt : j < cb.toList.length := by
      rw [Vector.length_toList]
      omega
    have hb : cb[j].toNat < 256 := cb[j].toNat_lt
    let cb' := cb.set j (cb[j] + 1)
    have hset : cb'.toList = cb.toList.set j (cb[j] + 1) := Vector.toList_set ..
    have htake : cb'.toList.take j = cb.toList.take j := by
      rw [hset, List.take_set_of_le le_rfl]
    have hdrop : cb'.toList.drop (j + 1) = cb.toList.drop (j + 1) := by
      rw [hset, List.drop_set_of_lt (Nat.lt_succ_self j)]
    have hbyte : cb'[j] = cb[j] + 1 := Vector.getElem_set_self _
    have hnext : (cb[j] + 1).toNat = (cb[j].toNat + 1) % 256 := UInt8.toNat_add _ _
    have hvalue : ofBigEndian (cb.toList.take j) < 256 ^ j := by
      have hle := ofBigEndian_lt (cb.toList.take j)
      rwa [List.length_take_of_le hlt.le] at hle
    have hunfold : carryInto cb (j + 1) hj = if cb'[j] ≠ 0 then cb' else
      carryInto cb' j (by omega) := rfl
    by_cases hcarry : cb'[j] ≠ 0
    · rw [hunfold, if_pos hcarry]
      refine ⟨?_, hdrop⟩
      have hroom : (cb[j] + 1).toNat = cb[j].toNat + 1 := by
        have hne : (cb[j] + 1).toNat ≠ 0 := by
          intro hzero
          exact hcarry (hbyte.trans (UInt8.toNat_inj.mp hzero))
        omega
      rw [take_succ_toList _ hj, take_succ_toList _ hj, htake, hbyte, ofBigEndian_concat,
        ofBigEndian_concat, hroom, Nat.mod_eq_of_lt (by rw [pow_succ]; omega)]
      rfl
    · rw [hunfold, if_neg hcarry]
      obtain ⟨hvalue', hrest⟩ := ih cb' (by omega)
      have hzero : (cb[j] + 1).toNat = 0 := by
        rw [← hbyte, not_not.mp hcarry]
        rfl
      have hfull : cb[j].toNat = 255 := by omega
      rw [drop_toList _ hj, drop_toList _ hj] at hrest
      obtain ⟨hlast, hrest⟩ := List.cons.inj hrest
      have hsum : 256 * ofBigEndian (cb.toList.take j) + cb[j].toNat + 1 =
          256 * (ofBigEndian (cb.toList.take j) + 1) := by omega
      refine ⟨?_, hrest.trans hdrop⟩
      rw [take_succ_toList _ hj, take_succ_toList _ hj, hlast, not_not.mp hcarry,
        ofBigEndian_concat, ofBigEndian_concat, hvalue', htake, pow_succ', hsum, Nat.mul_mod_mul_left]
      rfl

/-- A step of the counter adds 1 to the block as a number. -/
theorem ofBigEndian_nextCounter (cb : Bytes 16) :
    ofBigEndian (nextCounter cb).toList = (ofBigEndian cb.toList + 1) % 256 ^ 16 := by
  have hnext : nextCounter cb = carryInto cb 16 le_rfl := by
    have hbranch : nextCounter cb = if (cb.set 15 (cb[15] + 1))[15] = 0 then
        carryInto (cb.set 15 (cb[15] + 1)) 15 (by omega) else cb.set 15 (cb[15] + 1) := rfl
    have hcarry : carryInto cb 16 le_rfl = if (cb.set 15 (cb[15] + 1))[15] ≠ 0 then
        cb.set 15 (cb[15] + 1) else carryInto (cb.set 15 (cb[15] + 1)) 15 (by omega) := rfl
    rw [hbranch, hcarry, ite_not]
  obtain ⟨hvalue, -⟩ := carryInto_spec cb 16 le_rfl
  rwa [← hnext, List.take_of_length_le Vector.length_toList.le,
    List.take_of_length_le Vector.length_toList.le] at hvalue

/-- The number in the last four bytes is counted up, as long as it fits into them. -/
theorem nextCounter_nonce {cb : Bytes 16} {iv : List UInt8} {n : ℕ} (hiv : iv.length = 12)
    (hcb : cb.toList = iv ++ bigEndian 4 n) (hn : n + 1 < 2 ^ 32) :
    (nextCounter cb).toList = iv ++ bigEndian 4 (n + 1) := by
  have hvalue : ∀ m < 2 ^ 32, ofBigEndian (iv ++ bigEndian 4 m) = 2 ^ 32 * ofBigEndian iv + m := by
    intro m hm
    have hfits : m % 256 ^ 4 = m := Nat.mod_eq_of_lt hm
    rw [ofBigEndian_append, ofBigEndian_bigEndian, length_bigEndian, hfits]
    rfl
  have hlt : ofBigEndian iv < 256 ^ 12 := hiv ▸ ofBigEndian_lt iv
  have hlength : ∀ m, (iv ++ bigEndian 4 m).length = 16 := by
    intro m
    rw [List.length_append, hiv, length_bigEndian]
  have hsum : ofBigEndian (nextCounter cb).toList = ofBigEndian (iv ++ bigEndian 4 (n + 1)) := by
    rw [ofBigEndian_nextCounter, hcb, hvalue n (by omega), hvalue (n + 1) hn,
      Nat.mod_eq_of_lt (by omega)]
    rfl
  calc (nextCounter cb).toList
      = bigEndian 16 (ofBigEndian (nextCounter cb).toList) :=
        (bigEndian_ofBigEndian Vector.length_toList).symm
    _ = bigEndian 16 (ofBigEndian (iv ++ bigEndian 4 (n + 1))) := by rw [hsum]
    _ = iv ++ bigEndian 4 (n + 1) := bigEndian_ofBigEndian (hlength (n + 1))

/-! ## The counter blocks of a message -/

/-- The block that the tag is masked with. -/
theorem toList_startCounter (iv : Bytes 12) :
    (startCounter iv.toList).toList = iv.toList ++ bigEndian 4 1 := by
  have hlength : iv.toList.length = 12 := Vector.length_toList
  rw [startCounter, Vector.toList_set, toList_copyTo _ (by omega), zeroBytes,
    Vector.toList_replicate, List.drop_replicate, List.set_append_right _ _ (by omega), hlength]
  rfl

/-- The variable `cb` does not depend on the text. -/
theorem gctrRound_foldl_cb (encryptBlock : Bytes 16 → Bytes 16) (icb : Bytes 16)
    (x : List UInt8) (i : ℕ) :
    ((List.range i).foldl (gctrRound encryptBlock x) ⟨icb, []⟩).cb = nextCounter^[i] icb := by
  induction i with
  | zero => rfl
  | succ i ih =>
    rw [List.range_succ, List.foldl_append, List.foldl_cons, List.foldl_nil, gctrRound, ih,
      Function.iterate_succ_apply']

theorem encryptedBlock_eq (encryptBlock : Bytes 16 → Bytes 16) (icb : Bytes 16)
    (x : List UInt8) (i : ℕ) :
    encryptedBlock encryptBlock icb x i = nextCounter^[i + 1] icb := by
  rw [encryptedBlock, gctrRound_foldl_cb, Function.iterate_succ_apply']

theorem toList_iterate_nextCounter (iv : Bytes 12) {i : ℕ} (hi : i + 1 < 2 ^ 32) :
    (nextCounter^[i] (startCounter iv.toList)).toList = iv.toList ++ bigEndian 4 (i + 1) := by
  induction i with
  | zero => exact toList_startCounter iv
  | succ i ih =>
    rw [Function.iterate_succ_apply']
    exact nextCounter_nonce Vector.length_toList (ih (by omega)) hi

/-- Blocks with one nonce and different numbers are different. -/
theorem nonceBlock_inj {iv : List UInt8} {m n : ℕ} (hm : m < 2 ^ 32) (hn : n < 2 ^ 32)
    (h : iv ++ bigEndian 4 m = iv ++ bigEndian 4 n) : m = n :=
  bigEndian_inj hm hn (List.append_cancel_left h)

/-- For every nonce and every plaintext that GCM allows: the block encrypted in round `i` is the
nonce and the number `i + 2`, the blocks are pairwise different, and none is the one whose
encryption masks the tag. The text is xored with their encryptions. -/
theorem counterBlocks_distinct (encryptBlock : Bytes 32 → Bytes 16 → Bytes 16) (key : Bytes 32)
    (iv : Bytes 12) (plain : List UInt8) (hplain : plain.length ≤ 16 * (2 ^ 32 - 2)) :
    let blocks := encryptedBlock (encryptBlock key) (startCounter iv.toList) plain
    let count := (plain.length + 15) / 16
    (∀ i < count, (blocks i).toList = iv.toList ++ bigEndian 4 (i + 2)) ∧
      (∀ i < count, ∀ j < count, i ≠ j → blocks i ≠ blocks j) ∧
      (∀ i < count, blocks i ≠ startCounter iv.toList) ∧
      gctr (encryptBlock key) (startCounter iv.toList) plain =
        xorBytes plain (firstBlocks (fun i => (encryptBlock key (blocks i)).toList) count) := by
  intro blocks count
  have hblock : ∀ i < count, (blocks i).toList = iv.toList ++ bigEndian 4 (i + 2) := by
    intro i hi
    change (encryptedBlock _ _ _ i).toList = _
    rw [encryptedBlock_eq, toList_iterate_nextCounter iv (by omega)]
  refine ⟨hblock, ?_, ?_, ?_⟩
  · intro i hi j hj hne hsame
    have hlists := congrArg Vector.toList hsame
    rw [hblock i hi, hblock j hj] at hlists
    have hnumbers := nonceBlock_inj (by omega) (by omega) hlists
    omega
  · intro i hi hsame
    have hlists := congrArg Vector.toList hsame
    rw [hblock i hi, toList_startCounter] at hlists
    have hnumbers := nonceBlock_inj (by omega) (by omega) hlists
    omega
  · have hkeystream : (fun i => (encryptBlock key (blocks i)).toList) =
        keyBlock (encryptBlock key) (startCounter iv.toList) := by
      funext i
      change (encryptBlock key (encryptedBlock _ _ _ i)).toList = _
      rw [encryptedBlock_eq, keyBlock]
    rw [gctr_eq, hkeystream]

theorem counterBlocks_distinct_twoBlocks :
    let blocks := encryptedBlock (fun block => block) (startCounter (zeroBytes 12).toList)
      (List.replicate 17 0)
    let count := 2
    (∀ i < count, (blocks i).toList = (zeroBytes 12).toList ++ bigEndian 4 (i + 2)) ∧
      (∀ i < count, ∀ j < count, i ≠ j → blocks i ≠ blocks j) ∧
      (∀ i < count, blocks i ≠ startCounter (zeroBytes 12).toList) ∧
      gctr (fun block => block) (startCounter (zeroBytes 12).toList) (List.replicate 17 0) =
        xorBytes (List.replicate 17 0) (firstBlocks (fun i => (blocks i).toList) count) :=
  counterBlocks_distinct (fun _ block => block) (zeroBytes 32) (zeroBytes 12)
    (List.replicate 17 0) (by decide)

end Blackstone.BankCrypto
