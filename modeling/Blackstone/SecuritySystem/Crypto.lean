import Blackstone.BankCrypto.CrcCombine

/-!
# The checksum of the security system

`core/crypto.c`. The table of the 256 bytes is built at the first call. From then on a step takes a
byte from it, where the bank crypto library does eight steps of a bit: the results are the same in
every state that calls can reach (`crc32From_run`).
-/

namespace Blackstone.SecuritySystem

open Crc

/-- `crc32_table` and `crc32_table_initialized`. -/
structure CrcTable where
  table : Vector UInt32 256
  initialized : Bool

/-- The table when the program starts. -/
def CrcTable.start : CrcTable := ⟨Vector.replicate 256 0, false⟩

/-- The entry of a byte. -/
def tableEntry (i : ℕ) : UInt32 :=
  (List.range 8).foldl
    (fun crc _ => (crc >>> 1) ^^^ (if crc &&& 1 ≠ 0 then 0xEDB88320 else 0)) (UInt32.ofNat i)

/-- The first `n` rounds of the loop of `init_crc32_table`. -/
def fillTable (table : Vector UInt32 256) (n : ℕ) : Vector UInt32 256 :=
  (List.range n).foldl (fun table i => table.setIfInBounds i (tableEntry i)) table

/-- `init_crc32_table`. -/
def initCrc32Table (s : CrcTable) : CrcTable :=
  if s.initialized then s else ⟨fillTable s.table 256, true⟩

/-- The round of `crc32`. -/
def tableRound (table : Vector UInt32 256) (crc : UInt32) (byte : UInt8) : UInt32 :=
  (crc >>> 8) ^^^ table.toList.getD ((crc ^^^ byte.toUInt32) &&& 0xFF).toNat 0

/-- `crc32`. -/
def crc32From (s : CrcTable) (data : List UInt8) : CrcTable × UInt32 :=
  let s := initCrc32Table s
  (s, ~~~(data.foldl (tableRound s.table) 0xFFFFFFFF))

/-- The checksum of a call of `crc32`. -/
def crc32 (data : List UInt8) : UInt32 := (crc32From CrcTable.start data).2

/-- What is read from a table that is in use. -/
def CrcTable.Ready (s : CrcTable) : Prop :=
  s.initialized = true → ∀ i < 256, s.table.toList.getD i 0 = tableEntry i

section Table

variable {s : CrcTable}

/-- The loop writes one entry after the other. -/
theorem getD_fillTable (table : Vector UInt32 256) {n i : ℕ} (hn : n ≤ 256) (hi : i < n) :
    (fillTable table n).toList.getD i 0 = tableEntry i := by
  induction n with
  | zero => exact absurd hi (Nat.not_lt_zero i)
  | succ n ih =>
    rw [fillTable, List.range_succ, List.foldl_append, List.foldl_cons, List.foldl_nil, ← fillTable,
      Vector.toList_setIfInBounds, List.getD_eq_getElem?_getD]
    rcases Nat.lt_succ_iff_lt_or_eq.mp hi with hlt | rfl
    · rw [List.getElem?_set_ne (Nat.ne_of_gt hlt), ← List.getD_eq_getElem?_getD,
        ih (Nat.le_of_succ_le hn) hlt]
    · rw [List.getElem?_set_self (by rw [Vector.length_toList]; exact hn), Option.getD_some]

theorem initCrc32Table_ready (h : s.Ready) :
    (initCrc32Table s).initialized = true ∧ (initCrc32Table s).Ready := by
  rw [initCrc32Table]
  split_ifs with hinitialized
  · exact ⟨hinitialized, h⟩
  · refine ⟨rfl, ?_⟩
    intro _ i hi
    dsimp only
    exact getD_fillTable s.table le_rfl hi

/-- A step with the table is eight steps of a bit. -/
theorem tableRound_eq {table : Vector UInt32 256}
    (htable : ∀ i < 256, table.toList.getD i 0 = tableEntry i) (crc : UInt32) (byte : UInt8) :
    tableRound table crc byte = update generator crc byte := by
  have hindex : ((crc ^^^ byte.toUInt32) &&& 0xFF).toNat < 256 := by
    rw [UInt32.toNat_and]
    exact Nat.lt_succ_of_le Nat.and_le_right
  have hentry : tableEntry ((crc ^^^ byte.toUInt32) &&& 0xFF).toNat =
      (shift generator)^[8] ((crc ^^^ byte.toUInt32) &&& 0xFF) := by
    rw [tableEntry, UInt32.ofNat_toNat]
    rfl
  have hbyte : byte.toUInt32 >>> 8 = 0 := by
    apply UInt32.toNat_inj.mp
    rw [UInt32.toNat_shiftRight]
    exact (Nat.shiftRight_eq_div_pow _ _).trans (Nat.div_eq_of_lt byte.toNat_lt)
  rw [tableRound, htable _ hindex, hentry, update,
    iterate_shift_eight generator (crc ^^^ byte.toUInt32), UInt32.shiftRight_xor, hbyte,
    UInt32.xor_zero]

theorem crc32From_eq (h : s.Ready) (data : List UInt8) :
    (crc32From s data).2 = BankCrypto.crc32 data ∧ (crc32From s data).1.Ready := by
  obtain ⟨hinitialized, hready⟩ := initCrc32Table_ready h
  refine ⟨?_, hready⟩
  have hround : tableRound (initCrc32Table s).table = BankCrypto.crcByte := by
    funext crc byte
    exact tableRound_eq (hready hinitialized) crc byte
  rw [crc32From, BankCrypto.crc32]
  dsimp only
  rw [hround]

end Table

/-- Whatever was computed before, the checksum is the one of the bank crypto library. -/
theorem crc32From_run (earlier : List (List UInt8)) (data : List UInt8) :
    (crc32From (earlier.foldl (fun s data => (crc32From s data).1) CrcTable.start) data).2 =
      BankCrypto.crc32 data := by
  have hready : (earlier.foldl (fun s data => (crc32From s data).1) CrcTable.start).Ready := by
    have hstart : CrcTable.start.Ready := by
      intro hinitialized
      cases hinitialized
    exact List.foldlRecOn earlier _ hstart fun s hs data _ => (crc32From_eq hs data).2
  exact (crc32From_eq hready data).1

theorem crc32_eq (data : List UInt8) : crc32 data = BankCrypto.crc32 data := crc32From_run [] data

end Blackstone.SecuritySystem
