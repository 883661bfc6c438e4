import Mathlib.Data.List.Flatten
import Blackstone.Library.BigEndian

/-!
# Modified UTF-8

The text format of Java's data streams. A string is a list of 16-bit units, each written in one
to three bytes, and `writeUTF` puts the number of bytes in front. Reading accepts more than
writing produces, but the bytes of a string read back as the string, and a beginning of them that
reads back at all is written from a beginning of the string (`decode_take_encode`).
-/

namespace Blackstone.ModifiedUtf8

open BigEndian

/-- The bytes of a unit. -/
def encodeUnit (c : UInt16) : List UInt8 :=
  if 1 ≤ c.toNat ∧ c.toNat ≤ 0x7F then [UInt8.ofNat c.toNat]
  else if c.toNat > 0x7FF then
    [UInt8.ofNat (0xE0 + c.toNat / 4096), UInt8.ofNat (0x80 + c.toNat / 64 % 64),
      UInt8.ofNat (0x80 + c.toNat % 64)]
  else [UInt8.ofNat (0xC0 + c.toNat / 64), UInt8.ofNat (0x80 + c.toNat % 64)]

def encode (s : List UInt16) : List UInt8 := s.flatMap encodeUnit

/-- A byte that does not begin a unit. -/
def continues (b : UInt8) : Bool := decide (b.toNat / 64 = 2)

/-- Reads units until the bytes are used up; `none` when they are malformed. -/
def decode : List UInt8 → Option (List UInt16)
  | [] => some []
  | a :: rest =>
    if a.toNat < 0x80 then (decode rest).map (UInt16.ofNat a.toNat :: ·)
    else if a.toNat / 32 = 6 then
      match rest with
      | b :: rest =>
        if continues b then
          (decode rest).map (UInt16.ofNat (a.toNat % 32 * 64 + b.toNat % 64) :: ·)
        else none
      | [] => none
    else if a.toNat / 16 = 14 then
      match rest with
      | b :: c :: rest =>
        if continues b && continues c then
          (decode rest).map
            (UInt16.ofNat (a.toNat % 16 * 4096 + b.toNat % 64 * 64 + c.toNat % 64) :: ·)
        else none
      | _ => none
    else none

/-- `writeUTF`; `none` is the exception for a string that is too long. -/
def writeUTF (s : List UInt16) : Option (List UInt8) :=
  if (encode s).length > 65535 then none
  else some (bigEndian 2 (encode s).length ++ encode s)

/-- A number of `k` bytes, and what follows it. -/
def readNumber (k : ℕ) (data : List UInt8) : Option (ℕ × List UInt8) :=
  if data.length < k then none else some (ofBigEndian (data.take k), data.drop k)

/-- `n` bytes, and what follows them. -/
def readFully (n : ℕ) (data : List UInt8) : Option (List UInt8 × List UInt8) :=
  if data.length < n then none else some (data.take n, data.drop n)

/-- `readUTF`. -/
def readUTF (data : List UInt8) : Option (List UInt16 × List UInt8) := do
  let (utflen, data) ← readNumber 2 data
  let (bytes, data) ← readFully utflen data
  let s ← decode bytes
  some (s, data)

/-! ## Units -/

/-- The three lengths of a unit. -/
theorem encodeUnit_cases (c : UInt16) :
    (1 ≤ c.toNat ∧ c.toNat ≤ 0x7F ∧ encodeUnit c = [UInt8.ofNat c.toNat]) ∨
      (c.toNat ≤ 0x7FF ∧
        encodeUnit c = [UInt8.ofNat (0xC0 + c.toNat / 64), UInt8.ofNat (0x80 + c.toNat % 64)]) ∨
      (0x7FF < c.toNat ∧
        encodeUnit c = [UInt8.ofNat (0xE0 + c.toNat / 4096),
          UInt8.ofNat (0x80 + c.toNat / 64 % 64), UInt8.ofNat (0x80 + c.toNat % 64)]) := by
  rw [encodeUnit]
  split_ifs with hone hthree
  · exact Or.inl ⟨hone.1, hone.2, rfl⟩
  · exact Or.inr (Or.inr ⟨hthree, rfl⟩)
  · exact Or.inr (Or.inl ⟨Nat.not_lt.mp hthree, rfl⟩)

theorem toNat_ofNat {n : ℕ} (hn : n < 256) : (UInt8.ofNat n).toNat = n := by
  rw [UInt8.toNat_ofNat', Nat.mod_eq_of_lt hn]

theorem continues_ofNat (n : ℕ) : continues (UInt8.ofNat (0x80 + n % 64)) = true := by
  rw [continues, decide_eq_true_iff, toNat_ofNat (by omega)]
  omega

theorem decode_of_lt {a : UInt8} (ha : a.toNat < 0x80) (rest : List UInt8) :
    decode (a :: rest) = (decode rest).map (UInt16.ofNat a.toNat :: ·) := by
  rw [decode.eq_def]
  exact if_pos ha

theorem decode_of_two {a : UInt8} (ha : a.toNat / 32 = 6) (b : UInt8) (rest : List UInt8) :
    decode (a :: b :: rest) =
      if continues b then
        (decode rest).map (UInt16.ofNat (a.toNat % 32 * 64 + b.toNat % 64) :: ·)
      else none := by
  rw [decode.eq_def]
  dsimp only
  rw [if_neg (by omega), if_pos ha]

theorem decode_of_three {a : UInt8} (ha : a.toNat / 16 = 14) (b c : UInt8) (rest : List UInt8) :
    decode (a :: b :: c :: rest) =
      if continues b && continues c then
        (decode rest).map
          (UInt16.ofNat (a.toNat % 16 * 4096 + b.toNat % 64 * 64 + c.toNat % 64) :: ·)
      else none := by
  rw [decode, if_neg (by omega), if_neg (by omega), if_pos ha]

theorem decode_encodeUnit_append (c : UInt16) (rest : List UInt8) :
    decode (encodeUnit c ++ rest) = (decode rest).map (c :: ·) := by
  have hword : c.toNat < 65536 := c.toNat_lt
  rcases encodeUnit_cases c with ⟨-, hhigh, heq⟩ | ⟨hhigh, heq⟩ | ⟨-, heq⟩
  · rw [heq, List.singleton_append, decode_of_lt (by rw [toNat_ofNat (by omega)]; omega),
      toNat_ofNat (by omega), UInt16.ofNat_toNat]
  · have hlead : (UInt8.ofNat (0xC0 + c.toNat / 64)).toNat = 0xC0 + c.toNat / 64 :=
      toNat_ofNat (by omega)
    have hlast : (UInt8.ofNat (0x80 + c.toNat % 64)).toNat = 0x80 + c.toNat % 64 :=
      toNat_ofNat (by omega)
    have hunit : (0xC0 + c.toNat / 64) % 32 * 64 + (0x80 + c.toNat % 64) % 64 = c.toNat := by
      omega
    rw [heq, List.cons_append, List.singleton_append, decode_of_two (by rw [hlead]; omega),
      if_pos (continues_ofNat _), hlead, hlast, hunit, UInt16.ofNat_toNat]
  · have hlead : (UInt8.ofNat (0xE0 + c.toNat / 4096)).toNat = 0xE0 + c.toNat / 4096 :=
      toNat_ofNat (by omega)
    have hmiddle : (UInt8.ofNat (0x80 + c.toNat / 64 % 64)).toNat = 0x80 + c.toNat / 64 % 64 :=
      toNat_ofNat (by omega)
    have hlast : (UInt8.ofNat (0x80 + c.toNat % 64)).toNat = 0x80 + c.toNat % 64 :=
      toNat_ofNat (by omega)
    have hunit : (0xE0 + c.toNat / 4096) % 16 * 4096 + (0x80 + c.toNat / 64 % 64) % 64 * 64 +
        (0x80 + c.toNat % 64) % 64 = c.toNat := by
      omega
    rw [heq, List.cons_append, List.cons_append, List.singleton_append,
      decode_of_three (by rw [hlead]; omega), continues_ofNat, continues_ofNat, Bool.and_self,
      if_pos rfl, hlead, hmiddle, hlast, hunit, UInt16.ofNat_toNat]

/-- A part of a unit is malformed. -/
theorem decode_take_encodeUnit (c : UInt16) {k : ℕ} (hpos : 0 < k)
    (hk : k < (encodeUnit c).length) : decode ((encodeUnit c).take k) = none := by
  have hword : c.toNat < 65536 := c.toNat_lt
  rcases encodeUnit_cases c with ⟨-, -, heq⟩ | ⟨hhigh, heq⟩ | ⟨-, heq⟩
  · rw [heq, List.length_singleton] at hk
    omega
  · rw [heq] at hk ⊢
    obtain rfl : k = 1 := by
      simp only [List.length_cons, List.length_nil] at hk
      omega
    rw [List.take_succ_cons, List.take_zero, decode, if_neg, if_pos]
    · rw [toNat_ofNat (by omega)]
      omega
    · rw [toNat_ofNat (by omega)]
      omega
  · have hlead : (UInt8.ofNat (0xE0 + c.toNat / 4096)).toNat = 0xE0 + c.toNat / 4096 :=
      toNat_ofNat (by omega)
    rw [heq] at hk ⊢
    obtain rfl | rfl : k = 1 ∨ k = 2 := by
      simp only [List.length_cons, List.length_nil] at hk
      omega
    · rw [List.take_succ_cons, List.take_zero, decode, if_neg (by rw [hlead]; omega),
        if_neg (by rw [hlead]; omega), if_pos (by rw [hlead]; omega)]
    · rw [List.take_succ_cons, List.take_succ_cons, List.take_zero, decode,
        if_neg (by rw [hlead]; omega), if_neg (by rw [hlead]; omega),
        if_pos (by rw [hlead]; omega)]

/-- In front of a byte that begins a unit only a character of one byte can be read. -/
theorem lt_of_decode {a c : UInt8} (hc : continues c = false) {rest : List UInt8}
    {t : List UInt16} (h : decode (a :: c :: rest) = some t) : a.toNat < 0x80 := by
  by_contra hhigh
  by_cases htwo : a.toNat / 32 = 6
  · rw [decode_of_two htwo, hc] at h
    cases h
  · rw [decode.eq_def] at h
    dsimp only at h
    rw [if_neg hhigh, if_neg htwo] at h
    by_cases hthree : a.toNat / 16 = 14
    · cases rest with
      | nil =>
        rw [if_pos hthree] at h
        cases h
      | cons d rest =>
        rw [if_pos hthree] at h
        dsimp only at h
        rw [hc] at h
        cases h
    · rw [if_neg hthree] at h
      cases h

/-- Two bytes in front of one that begins a unit: both are characters, or they are one unit. -/
theorem decode_pair {a b c : UInt8} (hc : continues c = false) {rest : List UInt8}
    {t : List UInt16} (h : decode (a :: b :: c :: rest) = some t) :
    ∃ units u, t = units ++ u ∧ decode (c :: rest) = some u ∧
      (b.toNat < 0x80 ∧ units = [UInt16.ofNat a.toNat, UInt16.ofNat b.toNat] ∨
        0x80 ≤ a.toNat ∧ units.length = 1) := by
  rcases Nat.lt_or_ge a.toNat 0x80 with ha | ha
  · rw [decode_of_lt ha, Option.map_eq_some_iff] at h
    obtain ⟨t, ht, rfl⟩ := h
    have hb : b.toNat < 0x80 := lt_of_decode hc ht
    rw [decode_of_lt hb, Option.map_eq_some_iff] at ht
    obtain ⟨u, hu, rfl⟩ := ht
    exact ⟨_, u, rfl, hu, Or.inl ⟨hb, rfl⟩⟩
  · by_cases htwo : a.toNat / 32 = 6
    · rw [decode_of_two htwo, Option.ite_none_right_eq_some, Option.map_eq_some_iff] at h
      obtain ⟨-, u, hu, rfl⟩ := h
      exact ⟨[_], u, rfl, hu, Or.inr ⟨ha, rfl⟩⟩
    · rw [decode, if_neg (Nat.not_lt.mpr ha), if_neg htwo] at h
      dsimp only at h
      rw [hc, Bool.and_false, if_neg Bool.false_ne_true, ite_self] at h
      cases h

theorem length_encodeUnit (c : UInt16) :
    1 ≤ (encodeUnit c).length ∧ (encodeUnit c).length ≤ 3 := by
  rcases encodeUnit_cases c with ⟨-, -, heq⟩ | ⟨-, heq⟩ | ⟨-, heq⟩
  all_goals
    rw [heq]
    simp only [List.length_cons, List.length_nil]
    omega

/-! ## Strings -/

theorem encode_cons (c : UInt16) (s : List UInt16) : encode (c :: s) = encodeUnit c ++ encode s :=
  List.flatMap_cons

theorem encode_append (s t : List UInt16) : encode (s ++ t) = encode s ++ encode t :=
  List.flatMap_append

theorem length_encode (s : List UInt16) :
    s.length ≤ (encode s).length ∧ (encode s).length ≤ 3 * s.length := by
  induction s with
  | nil => exact ⟨Nat.le_refl 0, Nat.le_refl 0⟩
  | cons c s ih =>
    have hunit := length_encodeUnit c
    rw [encode_cons, List.length_append, List.length_cons]
    omega

/-- In the bytes of ASCII characters every character is one byte. -/
theorem encode_of_ascii {s : List UInt16} (hs : ∀ c ∈ s, 1 ≤ c.toNat ∧ c.toNat ≤ 0x7F) :
    encode s = s.map fun c => UInt8.ofNat c.toNat := by
  induction s with
  | nil => rfl
  | cons c s ih =>
    have hunit : encodeUnit c = [UInt8.ofNat c.toNat] := if_pos (hs c List.mem_cons_self)
    rw [encode_cons, hunit, ih fun d hd => hs d (List.mem_cons_of_mem c hd)]
    rfl

theorem decode_encode_append (s : List UInt16) (rest : List UInt8) :
    decode (encode s ++ rest) = (decode rest).map (s ++ ·) := by
  induction s with
  | nil =>
    rw [encode, List.flatMap_nil, List.nil_append]
    simp only [List.nil_append, Option.map_id']
  | cons c s ih =>
    rw [encode_cons, List.append_assoc, decode_encodeUnit_append, ih, Option.map_map]
    rfl

theorem decode_encode (s : List UInt16) : decode (encode s) = some s := by
  have happend := decode_encode_append s []
  rw [List.append_nil] at happend
  rw [happend, decode, Option.map_some, List.append_nil]

/-- A beginning of the bytes that can be read is written from a beginning of the string. -/
theorem decode_take_encode {s t : List UInt16} {k : ℕ}
    (h : decode ((encode s).take k) = some t) : t <+: s ∧ encode t = (encode s).take k := by
  induction s generalizing t k with
  | nil =>
    have hnil : encode [] = [] := rfl
    rw [hnil, List.take_nil] at h ⊢
    obtain rfl := Option.some.inj h
    exact ⟨List.prefix_rfl, rfl⟩
  | cons c s ih =>
    rw [encode_cons] at h ⊢
    rcases Nat.lt_or_ge k (encodeUnit c).length with hlt | hge
    · rw [List.take_append_of_le_length (Nat.le_of_lt hlt)] at h ⊢
      rcases Nat.eq_zero_or_pos k with rfl | hpos
      · obtain rfl := Option.some.inj h
        exact ⟨List.nil_prefix, rfl⟩
      · rw [decode_take_encodeUnit c hpos hlt] at h
        cases h
    · obtain ⟨m, rfl⟩ := Nat.exists_eq_add_of_le hge
      rw [List.take_length_add_append] at h ⊢
      rw [decode_encodeUnit_append, Option.map_eq_some_iff] at h
      obtain ⟨u, hu, rfl⟩ := h
      obtain ⟨hbegins, heq⟩ := ih hu
      rw [encode_cons, heq]
      exact ⟨(List.prefix_cons_inj c).mpr hbegins, rfl⟩

/-- What is read from a beginning of the bytes and what follows them: the whole string and more,
or a beginning of it. -/
theorem decode_take_encode_append {s t : List UInt16} {rest : List UInt8} {k : ℕ}
    (h : decode ((encode s ++ rest).take k) = some t) :
    s <+: t ∨ t <+: s ∧ (encode t).length = k := by
  rcases Nat.le_total (encode s).length k with hle | hle
  · left
    rw [List.take_append, List.take_of_length_le hle, decode_encode_append,
      Option.map_eq_some_iff] at h
    obtain ⟨u, -, rfl⟩ := h
    exact List.prefix_append s u
  · right
    rw [List.take_append_of_le_length hle] at h
    obtain ⟨hbegins, heq⟩ := decode_take_encode h
    rw [heq, List.length_take]
    exact ⟨hbegins, Nat.min_eq_left hle⟩

/-! ## Reading back -/

theorem writeUTF_eq_some_iff {s : List UInt16} {bytes : List UInt8} :
    writeUTF s = some bytes ↔
      (encode s).length ≤ 65535 ∧ bytes = bigEndian 2 (encode s).length ++ encode s := by
  rw [writeUTF, Option.ite_none_left_eq_some, gt_iff_lt, Nat.not_lt, Option.some.injEq,
    @eq_comm _ bytes]

theorem readNumber_eq_some_iff {k n : ℕ} {data rest : List UInt8} :
    readNumber k data = some (n, rest) ↔
      k ≤ data.length ∧ ofBigEndian (data.take k) = n ∧ data.drop k = rest := by
  rw [readNumber, Option.ite_none_left_eq_some, Nat.not_lt, Option.some.injEq, Prod.mk.injEq]

theorem readFully_eq_some_iff {n : ℕ} {data bytes rest : List UInt8} :
    readFully n data = some (bytes, rest) ↔
      n ≤ data.length ∧ data.take n = bytes ∧ data.drop n = rest := by
  rw [readFully, Option.ite_none_left_eq_some, Nat.not_lt, Option.some.injEq, Prod.mk.injEq]

theorem readNumber_append {k n : ℕ} (hn : n < 256 ^ k) (rest : List UInt8) :
    readNumber k (bigEndian k n ++ rest) = some (n, rest) := by
  have hlength := length_bigEndian k n
  rw [readNumber, if_neg (by rw [List.length_append]; omega), List.take_left' hlength,
    List.drop_left' hlength, ofBigEndian_bigEndian, Nat.mod_eq_of_lt hn]

theorem readFully_append (bytes rest : List UInt8) :
    readFully bytes.length (bytes ++ rest) = some (bytes, rest) := by
  rw [readFully, if_neg (by rw [List.length_append]; omega), List.take_left, List.drop_left]

theorem readUTF_append {s : List UInt16} (hs : (encode s).length ≤ 65535) (rest : List UInt8) :
    readUTF (bigEndian 2 (encode s).length ++ encode s ++ rest) = some (s, rest) := by
  rw [readUTF, List.append_assoc, readNumber_append (by omega), Option.bind_eq_bind,
    Option.bind_some]
  dsimp only
  rw [readFully_append, Option.bind_eq_bind, Option.bind_some]
  dsimp only
  rw [decode_encode]
  rfl

end Blackstone.ModifiedUtf8
